import Linux011.CoreInodes

/-!
# Paths

`permission`, `find_entry`, `add_entry`, `get_dir`, `dir_namei`, `namei`, `open_namei`,
`sys_unlink`, `sys_link` and `sys_rmdir` of `fs/namei.c`, called by one task while no other runs.
A path is the string up to its 0. The scans of the directories are those of `DirScan`.

The functions are in the order of the source and return the state with their answer. A reference
is an entry of the inode table, and each `iput` and `brelse` of the source is there at its place,
because which of them a branch forgets is what the results on these calls are about. Where
several branches end in the same way, with two inodes and an entry in hand, `leave` and
`leaveEntry` stand for their last lines. A number read from a directory is passed to `iget` in
the state that has come about by then. The tests are kept in their order too, and so a name that
is empty, a directory without permission and a device that is full give the error that the source
gives.
-/

namespace Linux011

open Function Super SuperBlock Zones Bmap

namespace Namei

open Inodes (Entry NR_INODE ROOT_INO)
open Dir (getInode setInode NAME_LEN ENTRY)
open Truncate (S_ISDIR)

def EPERM : Int := 1
def ENOENT : Int := 2
def EACCES : Int := 13
def EEXIST : Int := 17
def EXDEV : Int := 18
def ENOTDIR : Int := 20
def EISDIR : Int := 21
def ENOSPC : Int := 28
def ENOTEMPTY : Int := 39

def O_ACCMODE : Nat := 0o3
def O_RDONLY : Nat := 0o0
def O_WRONLY : Nat := 0o1
def O_CREAT : Nat := 0o100
def O_EXCL : Nat := 0o200
def O_TRUNC : Nat := 0o1000

def MAY_EXEC : Nat := 1
def MAY_WRITE : Nat := 2

def I_REGULAR : Nat := 0o100000
def S_ISVTX : Nat := 0o1000

/-- The fields of `current` that the calls read. -/
structure Current where
  root : Entry
  pwd : Entry
  euid : Nat
  egid : Nat
  umask : Nat

def ACC_MODE (flag : Nat) : Nat := [0o4, 0o2, 0o6, 0o377].getD (flag &&& O_ACCMODE) 0

def permission (c : Current) (inode : Inode) (mask : Nat) : Bool :=
  if inode.i_dev ≠ 0 ∧ inode.i_nlinks = 0 then false
  else
    let mode :=
      if c.euid = inode.i_uid then inode.i_mode >>> 6
      else if c.egid = inode.i_gid then inode.i_mode >>> 3
      else inode.i_mode
    mode &&& mask &&& 7 = mask ∨ c.euid = 0

/-! ## Entries -/

/-- The buffer and the entry that `find_entry` and `add_entry` give. -/
structure Found where
  dev : Nat
  bh : Nat
  de : Nat

/-- `de->inode` -/
def State.deInode (s : State) (f : Found) : Nat := getInode ((s.vol f.dev).b_data f.bh) f.de

/-- `de->inode = nr` -/
def State.setInode (s : State) (f : Found) (nr : Nat) : State :=
  s.setVol f.dev ((s.vol f.dev).store f.bh (Dir.setInode ((s.vol f.dev).b_data f.bh) f.de nr))

def brelse (s : State) (f : Found) : Except Stop State :=
  (((s.vol f.dev).brelse f.bh).mapError Stop.panic).map fun v => s.setVol f.dev v

/-- `..` in a pseudo-root and over a mount point: the directory and the name to look for. -/
def exchange (c : Current) (s : State) (dir : Entry) (name : List UInt8) :
    Except Stop (State × Entry × List UInt8) :=
  if name = [46, 46] then
    if dir = c.root then .ok (s, dir, [46])
    else if (s.inode_table dir).i_num = ROOT_INO then
      match getSuper s (s.inode_table dir).i_dev with
      | none => .error .null
      | some k =>
          match (s.super_block k).s_imount with
          | none => .ok (s, dir, name)
          | some m => (iput s dir).map fun s =>
              (s.refer m, m, name)
    else .ok (s, dir, name)
  else .ok (s, dir, name)

/-- `find_entry`, with the directory that it leaves in `*dir`. -/
def findEntry (c : Current) (s : State) (dir : Entry) (name : List UInt8) :
    Except Stop (State × Entry × Option Found) :=
  let name := name.take NAME_LEN
  let entries := (s.inode_table dir).i_size / ENTRY
  if name.length = 0 then .ok (s, dir, none)
  else do
    let (s, dir, name) ← exchange c s dir name
    let inode := s.inode_table dir
    let (v, r) ← (DirScan.findEntry false entries inode.file (s.vol inode.i_dev) name).mapError
      Stop.scan
    .ok (s.setVol inode.i_dev v, dir, r.map fun (b, de) => ⟨inode.i_dev, b, de⟩)

def addEntry (s : State) (dir : Entry) (name : List UInt8) :
    Except Stop (State × Option Found) := do
  let inode := s.inode_table dir
  let (file, v, r) ← (DirScan.addEntry inode.file (s.vol inode.i_dev) name).mapError Stop.scan
  .ok ((s.setVol inode.i_dev v).set dir (inode.withFile file),
    r.map fun (b, de) => ⟨inode.i_dev, b, de⟩)

/-! ## Walking a path -/

/-- `iput` of each, and a value to return. -/
def leave {α : Type} (s : State) (inodes : List Entry) (r : α) : Except Stop (State × α) :=
  (inodes.foldlM iput s).map fun s => (s, r)

/-- `leave`, then `brelse`. -/
def leaveEntry (s : State) (inodes : List Entry) (f : Found) (r : Int) :
    Except Stop (State × Int) :=
  inodes.foldlM iput s >>= fun s => (brelse s f).map fun s => (s, r)

/-- The loop of `get_dir` over the names with a slash behind them. -/
def walk (c : Current) : List (List UInt8) → State → Entry → Except Stop (State × Option Entry)
  | names, s, inode =>
      if ¬S_ISDIR (s.inode_table inode).i_mode ∨
          permission c (s.inode_table inode) MAY_EXEC = false then
        leave s [inode] none
      else match names with
        | [] => .ok (s, some inode)
        | name :: names => do
            let (s, inode, r) ← findEntry c s inode name
            match r with
            | none => leave s [inode] none
            | some f => do
                let inr := s.deInode f
                let idev := (s.inode_table inode).i_dev
                let s ← brelse s f
                let s ← iput s inode
                let (s, inode) ← iget s idev inr
                walk c names s inode

/-- The names between the slashes. -/
def names (path : List UInt8) : List (List UInt8) := path.splitOn 47

/-- The name behind the last slash. -/
def basename (path : List UInt8) : List UInt8 := (names path).getLastD []

/-- Where a path begins, and the rest of it; an empty one is bad. -/
def start (c : Current) (path : List UInt8) : Option (Entry × List UInt8) :=
  match path with
  | [] => none
  | 47 :: path => some (c.root, path)
  | path => some (c.pwd, path)

def getDir (c : Current) (s : State) (path : List UInt8) : Except Stop (State × Option Entry) :=
  if (s.inode_table c.root).i_count = 0 then .error (.panic "No root inode")
  else if (s.inode_table c.pwd).i_count = 0 then .error (.panic "No cwd inode")
  else match start c path with
    | none => .ok (s, none)
    | some (inode, path) => walk c (names path).dropLast (s.refer inode) inode

/-- `dir_namei`, without the name, which is `basename`. -/
def dirNamei (c : Current) (s : State) (path : List UInt8) :
    Except Stop (State × Option Entry) := getDir c s path

def namei (c : Current) (s : State) (path : List UInt8) :
    Except Stop (State × Option Entry) := do
  let (s, r) ← dirNamei c s path
  match r with
  | none => .ok (s, none)
  | some dir =>
      if basename path = [] then .ok (s, some dir)
      else do
        let (s, dir, r) ← findEntry c s dir (basename path)
        match r with
        | none => leave s [dir] none
        | some f => do
            let inr := s.deInode f
            let dev := (s.inode_table dir).i_dev
            let s ← brelse s f
            let s ← iput s dir
            let (s, dir) ← iget s dev inr
            .ok (s.set dir { s.inode_table dir with i_dirt := true }, some dir)

/-! ## open_namei -/

/-- `mode & 0777 & ~current->umask` -/
def masked (c : Current) (mode : Nat) : Nat :=
  mode &&& 0o777 &&& (0o777 ^^^ (c.umask &&& 0o777))

/-- `open_namei` for a name that is not there. -/
def create (c : Current) (s : State) (dir : Entry) (name : List UInt8) (flag mode : Nat) :
    Except Stop (State × Except Int Entry) :=
  if flag &&& O_CREAT = 0 then leave s [dir] (.error (-ENOENT))
  else if permission c (s.inode_table dir) MAY_WRITE = false then
    leave s [dir] (.error (-EACCES))
  else do
    let (s, r) ← newInode s c.euid c.egid (s.inode_table dir).i_dev
    match r with
    | none => leave s [dir] (.error (-ENOSPC))
    | some inode => do
        let s := s.set inode { s.inode_table inode with
          i_uid := c.euid, i_mode := masked c mode ||| I_REGULAR, i_dirt := true }
        let (s, r) ← addEntry s dir name
        match r with
        | none =>
            let s := s.set inode { s.inode_table inode with
              i_nlinks := (s.inode_table inode).i_nlinks - 1 }
            leave s [inode, dir] (.error (-ENOSPC))
        | some f => do
            let s := s.setInode f (s.inode_table inode).i_num
            let s ← brelse s f
            leave s [dir] (.ok inode)

/-- `open_namei` for an inode that is there. -/
def openInode (c : Current) (s : State) (inode : Entry) (flag : Nat) :
    Except Stop (State × Except Int Entry) :=
  if S_ISDIR (s.inode_table inode).i_mode ∧ flag &&& O_ACCMODE ≠ 0 ∨
      permission c (s.inode_table inode) (ACC_MODE flag) = false then
    leave s [inode] (.error (-EPERM))
  else if flag &&& O_TRUNC ≠ 0 then (truncate s inode).map fun s => (s, .ok inode)
  else .ok (s, .ok inode)

def openNamei (c : Current) (s : State) (path : List UInt8) (flag mode : Nat) :
    Except Stop (State × Except Int Entry) := do
  let flag := if flag &&& O_TRUNC ≠ 0 ∧ flag &&& O_ACCMODE = 0 then flag ||| O_WRONLY else flag
  let (s, r) ← dirNamei c s path
  match r with
  | none => .ok (s, .error (-ENOENT))
  | some dir =>
      if basename path = [] then
        if flag &&& (O_ACCMODE ||| O_CREAT ||| O_TRUNC) = 0 then .ok (s, .ok dir)
        else leave s [dir] (.error (-EISDIR))
      else do
        let (s, dir, r) ← findEntry c s dir (basename path)
        match r with
        | none => create c s dir (basename path) flag mode
        | some f => do
            let inr := s.deInode f
            let dev := (s.inode_table dir).i_dev
            let s ← brelse s f
            let s ← iput s dir
            if flag &&& O_EXCL ≠ 0 then .ok (s, .error (-EEXIST))
            else do
              let (s, inode) ← iget s dev inr
              openInode c s inode flag

/-! ## The system calls -/

/-- The steps that `sys_unlink` and `sys_rmdir` begin with: the directory, the entry and its inode,
or the error. -/
def target (c : Current) (s : State) (path : List UInt8) :
    Except Stop (State × Except Int (Entry × Entry × Found)) := do
  let (s, r) ← dirNamei c s path
  match r with
  | none => .ok (s, .error (-ENOENT))
  | some dir =>
      if basename path = [] then leave s [dir] (.error (-ENOENT))
      else if permission c (s.inode_table dir) MAY_WRITE = false then
        leave s [dir] (.error (-EPERM))
      else do
        let (s, dir, r) ← findEntry c s dir (basename path)
        match r with
        | none => leave s [dir] (.error (-ENOENT))
        | some f => do
            let (s, inode) ← iget s (s.inode_table dir).i_dev (s.deInode f)
            .ok (s, .ok (dir, inode, f))

def sysUnlink (c : Current) (s : State) (path : List UInt8) : Except Stop (State × Int) := do
  let (s, r) ← target c s path
  match r with
  | .error e => .ok (s, e)
  | .ok (dir, inode, f) =>
      if (s.inode_table dir).i_mode &&& S_ISVTX ≠ 0 ∧ c.euid ≠ 0 ∧
          c.euid ≠ (s.inode_table inode).i_uid ∧ c.euid ≠ (s.inode_table dir).i_uid then
        leaveEntry s [dir, inode] f (-EPERM)
      else if S_ISDIR (s.inode_table inode).i_mode then leaveEntry s [inode, dir] f (-EPERM)
      else do
        let i_nlinks :=
          if (s.inode_table inode).i_nlinks = 0 then 1 else (s.inode_table inode).i_nlinks
        let s ← brelse (s.setInode f 0) f
        let s := s.set inode { s.inode_table inode with
          i_nlinks := i_nlinks - 1, i_dirt := true }
        leave s [inode, dir] 0

def sysRmdir (c : Current) (s : State) (path : List UInt8) : Except Stop (State × Int) :=
  if c.euid ≠ 0 then .ok (s, -EPERM)
  else do
    let (s, r) ← target c s path
    match r with
    | .error e => .ok (s, e)
    | .ok (dir, inode, f) =>
        if (s.inode_table dir).i_mode &&& S_ISVTX ≠ 0 ∧ c.euid ≠ 0 ∧
            (s.inode_table inode).i_uid ≠ c.euid then
          leaveEntry s [dir, inode] f (-EPERM)
        else if (s.inode_table inode).i_dev ≠ (s.inode_table dir).i_dev ∨
            (s.inode_table inode).i_count > 1 then
          leaveEntry s [dir, inode] f (-EPERM)
        else if inode = dir then leaveEntry s [inode, dir] f (-EPERM)
        else if ¬S_ISDIR (s.inode_table inode).i_mode then
          leaveEntry s [inode, dir] f (-ENOTDIR)
        else do
          let node := s.inode_table inode
          let (v, empty) ← (DirScan.emptyDir node.i_num node.file (s.vol node.i_dev)).mapError
            Stop.scan
          let s := s.setVol node.i_dev v
          if empty = false then leaveEntry s [inode, dir] f (-ENOTEMPTY)
          else do
            let s ← brelse (s.setInode f 0) f
            let s := s.set inode { s.inode_table inode with i_nlinks := 0, i_dirt := true }
            let s := s.set dir { s.inode_table dir with
              i_nlinks := (s.inode_table dir).i_nlinks - 1, i_dirt := true }
            leave s [dir, inode] 0

def sysLink (c : Current) (s : State) (oldname newname : List UInt8) :
    Except Stop (State × Int) := do
  let (s, r) ← namei c s oldname
  match r with
  | none => .ok (s, -ENOENT)
  | some oldinode =>
      if S_ISDIR (s.inode_table oldinode).i_mode then leave s [oldinode] (-EPERM)
      else do
        let (s, r) ← dirNamei c s newname
        match r with
        | none => leave s [oldinode] (-EACCES)
        | some dir =>
            if basename newname = [] then leave s [oldinode, dir] (-EPERM)
            else if (s.inode_table dir).i_dev ≠ (s.inode_table oldinode).i_dev then
              leave s [dir, oldinode] (-EXDEV)
            else if permission c (s.inode_table dir) MAY_WRITE = false then
              leave s [dir, oldinode] (-EACCES)
            else do
              let (s, dir, r) ← findEntry c s dir (basename newname)
              match r with
              | some f => do
                  let s ← brelse s f
                  leave s [dir, oldinode] (-EEXIST)
              | none => do
                  let (s, r) ← addEntry s dir (basename newname)
                  match r with
                  | none => leave s [dir, oldinode] (-ENOSPC)
                  | some f => do
                      let s := s.setInode f (s.inode_table oldinode).i_num
                      let s ← brelse s f
                      let s ← iput s dir
                      let s := s.set oldinode { s.inode_table oldinode with
                        i_nlinks := (s.inode_table oldinode).i_nlinks + 1, i_dirt := true }
                      leave s [oldinode] 0

end Namei

end Linux011
