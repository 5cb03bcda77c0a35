import Linux011.DirScan
import Linux011.InodeTable
import Linux011.Truncate

/-!
# The inodes of one task

`iget`, `iput`, `get_empty_inode`, `read_inode`, `write_inode` and `sync_inodes` of `fs/inode.c`
with `new_inode` and `free_inode` of `fs/bitmap.c`, called by one task while no other runs, on
any number of devices. No inode is locked then, and nothing changes while a call waits.

The blocks of the inodes are read and written through buffers like any other, which counts for
the holders of the buffers; what these blocks hold is `d_inode`, an array of `struct d_inode` for
each device. The times of an inode are left out.

The state has an inode table and devices side by side, and an inode may be in both, with the copy
in the table ahead of the one on its device while it is dirty. The functions are those of the
source with every buffer that they take and give back. `iget` is a loop because a number may be
the mount point of a device, whose root may be found in the same way again; it is given a bound
on the devices that follow one another, and what holds of mounts says that it is never used up.
The module has no theorems. What the functions do is proved in `InodeLedger`, for one call after
the other with the references that are in hand.
-/

namespace Linux011

open Function Super SuperBlock Zones Bmap

namespace Namei

open Inodes (Entry NR_INODE ROOT_INO)

/-- Why a call does not return. -/
inductive Stop where
  | panic (text : String)
  /-- a scan of a directory goes wrong -/
  | scan (stop : DirScan.Stop)
  /-- a field of a null pointer is read -/
  | null
  /-- a loop does not end -/
  | endless
deriving DecidableEq

structure DInode where
  i_mode : Nat
  i_uid : Nat
  i_size : Nat
  i_gid : Nat
  i_nlinks : UInt8
  i_zone : Nat → Nat

structure Inode extends DInode where
  i_dev : Nat
  i_num : Nat
  i_count : Nat
  i_dirt : Bool
  i_pipe : Bool
  i_mount : Bool

/-- `memset(inode,0,sizeof(*inode))`. -/
def Inode.zero : Inode := ⟨⟨0, 0, 0, 0, 0, fun _ => 0⟩, 0, 0, 0, false, false, false⟩

/-- `memset(inode,0,sizeof(*inode)); inode->i_count = 1;` -/
def Inode.taken : Inode := { Inode.zero with i_count := 1 }

/-- The fields that are about the blocks of the file. -/
def Inode.file (inode : Inode) : MInode := ⟨inode.i_size, inode.i_zone, inode.i_dirt⟩

def Inode.withFile (inode : Inode) (file : MInode) : Inode :=
  { inode with i_size := file.i_size, i_zone := file.i_zone, i_dirt := file.i_dirt }

def NR_SUPER : Nat := 8

/-- An element of `super_block`; what it says about the device is in the volume. -/
structure Super where
  s_dev : Nat
  s_imount : Option Entry

structure State where
  inode_table : Entry → Inode
  /-- of `get_empty_inode` -/
  last_inode : Entry
  super_block : Fin NR_SUPER → Super
  vol : Nat → Vol
  d_inode : Nat → Nat → DInode

def State.set (s : State) (i : Entry) (inode : Inode) : State :=
  { s with inode_table := update s.inode_table i inode }

def State.setCount (s : State) (i : Entry) (n : Nat) : State :=
  s.set i { s.inode_table i with i_count := n }

/-- `i_count++`, of an `unsigned short`. -/
def State.refer (s : State) (i : Entry) : State :=
  s.setCount i (((s.inode_table i).i_count + 1) % 0x10000)

def State.setVol (s : State) (dev : Nat) (v : Vol) : State :=
  { s with vol := update s.vol dev v }

def getSuper (s : State) (dev : Nat) : Option (Fin NR_SUPER) :=
  if dev = 0 then none
  else (List.finRange NR_SUPER).find? fun k => (s.super_block k).s_dev = dev

/-! ## The blocks of the inodes -/

def INODES_PER_BLOCK : Nat := 32

/-- The block of the inode with number `nr`. -/
def inodeBlock (sb : SuperBlock) (nr : Nat) : Nat :=
  2 + sb.s_imap_blocks + sb.s_zmap_blocks + (nr - 1) / INODES_PER_BLOCK

/-- The buffer of a block is held while an inode is copied. -/
def withBlock (s : State) (dev b : Nat) : Except Stop State :=
  match (s.vol dev).bread b with
  | none => .error (.panic "unable to read i-node block")
  | some v => ((v.brelse b).mapError Stop.panic).map fun v => s.setVol dev v

def readInode (s : State) (i : Entry) : Except Stop State :=
  let inode := s.inode_table i
  match getSuper s inode.i_dev with
  | none => .error (.panic "trying to read inode without dev")
  | some _ =>
      (withBlock s inode.i_dev (inodeBlock (s.vol inode.i_dev).sb inode.i_num)).map fun s =>
        s.set i { inode with toDInode := s.d_inode inode.i_dev inode.i_num }

/-- The inode of the table as its block has it. -/
def State.written (s : State) (i : Entry) : State :=
  let inode := s.inode_table i
  { s.set i { inode with i_dirt := false } with
    d_inode := update s.d_inode inode.i_dev
      (update (s.d_inode inode.i_dev) inode.i_num inode.toDInode) }

def writeInode (s : State) (i : Entry) : Except Stop State :=
  let inode := s.inode_table i
  if inode.i_dirt = false ∨ inode.i_dev = 0 then .ok s
  else match getSuper s inode.i_dev with
    | none => .error (.panic "trying to write inode without device")
    | some _ =>
        (withBlock s inode.i_dev (inodeBlock (s.vol inode.i_dev).sb inode.i_num)).map fun s =>
          s.written i

/-- `if (inode->i_dirt && !inode->i_pipe) write_inode(inode);` -/
def syncInode (s : State) (i : Entry) : Except Stop State :=
  if (s.inode_table i).i_dirt = true ∧ (s.inode_table i).i_pipe = false then writeInode s i
  else .ok s

def syncInodes (s : State) : Except Stop State := (List.finRange NR_INODE).foldlM syncInode s

/-! ## iput -/

/-- `truncate` of an inode of the table. -/
def truncate (s : State) (i : Entry) : Except Stop State :=
  let inode := s.inode_table i
  (((Vol.ops.truncate inode.i_mode inode.file (s.vol inode.i_dev)).mapError Stop.panic).map
    fun (file, v) => (s.setVol inode.i_dev v).set i (inode.withFile file))

def freeInode (s : State) (i : Entry) : Except Stop State :=
  let inode := s.inode_table i
  if inode.i_dev = 0 then .ok (s.set i .zero)
  else if inode.i_count > 1 then .error (.panic "free_inode")
  else if inode.i_nlinks ≠ 0 then .error (.panic "trying to free inode with links")
  else match getSuper s inode.i_dev with
    | none => .error (.panic "trying to free inode on nonexistent device")
    | some _ =>
        let v := s.vol inode.i_dev
        if inode.i_num < 1 ∨ inode.i_num > v.sb.s_ninodes then
          .error (.panic "trying to free inode 0 or nonexistant inode")
        else match v.sb.s_imap (inode.i_num / 8192) with
          | none => .error (.panic "nonexistent imap in superblock")
          | some bh =>
              let sb := { v.sb with
                s_imap := setMap v.sb.s_imap (inode.i_num / 8192)
                  (Bitmap.clearBit bh.b_data (inode.i_num % 8192)) }
              .ok ((s.setVol inode.i_dev { v with sb := sb }).set i .zero)

/-- `iput` from `repeat` on: behind `write_inode` the inode is clean. -/
def putLast (s : State) (i : Entry) : Except Stop State :=
  let inode := s.inode_table i
  if inode.i_count > 1 then .ok (s.setCount i (inode.i_count - 1))
  else if inode.i_nlinks = 0 then truncate s i >>= fun s => freeInode s i
  else (writeInode s i).map fun s => s.setCount i ((s.inode_table i).i_count - 1)

def S_ISBLK (m : Nat) : Prop := m &&& Truncate.S_IFMT = 0o060000

instance (m : Nat) : Decidable (S_ISBLK m) := inferInstanceAs (Decidable (_ = _))

/-- `iput`; `sync_dev` writes the inodes to their buffers. -/
def iput (s : State) (i : Entry) : Except Stop State :=
  let inode := s.inode_table i
  if inode.i_count = 0 then .error (.panic "iput: trying to free free inode")
  else if inode.i_pipe then
    if inode.i_count - 1 ≠ 0 then .ok (s.setCount i (inode.i_count - 1))
    else .ok (s.set i { inode with i_count := 0, i_dirt := false, i_pipe := false })
  else if inode.i_dev = 0 then .ok (s.setCount i (inode.i_count - 1))
  else if S_ISBLK inode.i_mode then syncInodes s >>= fun s => putLast s i
  else putLast s i

/-! ## iget -/

/-- The search of `get_empty_inode`, with `n` entries left and the last unused one seen. -/
def searchEmpty (inode_table : Entry → Inode) :
    Nat → Entry → Option Entry → Entry × Option Entry
  | 0, last, inode => (last, inode)
  | n + 1, last, inode =>
      let last := last.next
      if (inode_table last).i_count = 0 then
        if (inode_table last).i_dirt = false then (last, some last)
        else searchEmpty inode_table n last (some last)
      else searchEmpty inode_table n last inode

/-- `get_empty_inode`: an inode that is dirty is written until it is clean. -/
def getEmptyInode (s : State) : Except Stop (State × Entry) :=
  match searchEmpty s.inode_table NR_INODE s.last_inode none with
  | (_, none) => .error (.panic "No free inodes in mem")
  | (last, some i) => do
      let s ← writeInode { s with last_inode := last } i
      if (s.inode_table i).i_dirt then .error .endless
      else .ok (s.set i .taken, i)

/-- The first entry with the number. -/
def findInode (inode_table : Entry → Inode) (dev nr : Nat) : Option Entry :=
  (List.finRange NR_INODE).find? fun i =>
    (inode_table i).i_dev = dev ∧ (inode_table i).i_num = nr

/-- The device that is mounted on an inode. -/
def mountedOn (s : State) (i : Entry) : Option (Fin NR_SUPER) :=
  (List.finRange NR_SUPER).find? fun k => (s.super_block k).s_imount = some i

/-- The loop of `iget`, which starts again in the root of a mounted device; `empty` is from
`get_empty_inode`. The first argument bounds the devices on the way. -/
def igetLoop : Nat → State → Entry → Nat → Nat → Except Stop (State × Entry)
  | 0, _, _, _, _ => .error .endless
  | n + 1, s, empty, dev, nr =>
      match findInode s.inode_table dev nr with
      | none =>
          (readInode (s.set empty { s.inode_table empty with i_dev := dev, i_num := nr })
            empty).map fun s => (s, empty)
      | some i =>
          let s := s.refer i
          if (s.inode_table i).i_mount then
            match mountedOn s i with
            | none => (iput s empty).map fun s => (s, i)
            | some k => do
                let s ← iput s i
                igetLoop n s empty (s.super_block k).s_dev ROOT_INO
          else (iput s empty).map fun s => (s, i)

/-- `iget` does not return `NULL`: `get_empty_inode` does not. -/
def iget (s : State) (dev nr : Nat) : Except Stop (State × Entry) :=
  if dev = 0 then .error (.panic "iget with dev==0")
  else do
    let (s, empty) ← getEmptyInode s
    igetLoop (NR_SUPER + 1) s empty dev nr

/-! ## new_inode -/

/-- `new_inode`; `uid` and `gid` are those of the task. -/
def newInode (s : State) (uid gid dev : Nat) : Except Stop (State × Option Entry) := do
  let (s, i) ← getEmptyInode s
  match getSuper s dev with
  | none => .error (.panic "new_inode with unknown device")
  | some _ =>
      let v := s.vol dev
      let (k, j) := search v.sb.s_imap 8 0 8192
      match v.sb.s_imap k with
      | none => (iput s i).map fun s => (s, none)
      | some bh =>
          if j ≥ 8192 ∨ j + k * 8192 > v.sb.s_ninodes then (iput s i).map fun s => (s, none)
          else if Bitmap.bit bh.b_data j then .error (.panic "new_inode: bit already set")
          else
            let sb := { v.sb with s_imap := setMap v.sb.s_imap k (Bitmap.setBit bh.b_data j) }
            .ok ((s.setVol dev { v with sb := sb }).set i { s.inode_table i with
              i_count := 1
              i_nlinks := 1
              i_dev := dev
              i_uid := uid
              i_gid := gid
              i_dirt := true
              i_num := j + k * 8192 }, some i)

end Namei

end Linux011
