import Linux011.TaskPages
import Linux011.UserAccess

/-!
# do_execve

`fs/exec.c`: the arguments and the environment go to pages of the kernel, from the last byte
down; the pages are put at the end of the new address space, and `create_tables` finds the
strings there again. The file system is a parameter, and so is what page faults bring into the
new address space.

The functions go down to the bytes. A segment is a function with a limit, and an access behind it
is a fault, which ends the call; the page that a byte of the argument block is on is the frame
that the source would have in `page[]`, and the stores go to the memory of the kernel. The three
ways in which `copy_strings` is called, with the string or the pointer or both in the kernel, are
in `Fs` and `Argv`, where the source changes `%fs`. What the file system answers is a function of
its state, so that a call of `namei` may change what the next one finds. The modules behind this
one take the call apart in its own order: the header, the copying, the line of a script, the
address space, the tables, and the call as a whole.
-/

namespace Linux011

open Function

namespace Exec

def PAGE_SIZE : Nat := 4096
def MAX_ARG_PAGES : Nat := 32
def NR_OPEN : Nat := 20
def BLOCK_SIZE : Nat := 1024
def ENOENT : Int := 2
def ENOEXEC : Int := 8
def ENOMEM : Int := 12
def EACCES : Int := 13
def ZMAGIC : Word := 0o413

/-! ## Segments -/

/-- The bytes of a segment; an access behind its limit is a fault. -/
structure Segment where
  byte : Nat → Byte
  limit : Nat

/-- The word at an address, the lowest byte first. -/
def word (byte : Nat → Byte) (a : Nat) : Word :=
  byte (a + 3) ++ byte (a + 2) ++ byte (a + 1) ++ byte a

namespace Segment

/-- `get_fs_byte`. -/
def get (s : Segment) (a : Nat) : Option Byte := if a < s.limit then some (s.byte a) else none

/-- `get_fs_long`. -/
def long (s : Segment) (a : Nat) : Option Word :=
  if a + 3 < s.limit then some (word s.byte a) else none

/-- `put_fs_byte`. -/
def put (s : Segment) (a : Nat) (v : Byte) : Option Segment :=
  if a < s.limit then some { s with byte := update s.byte a v } else none

/-- `put_fs_long`. -/
def putLong (s : Segment) (a : Nat) (v : Word) : Option Segment :=
  if a + 3 < s.limit then
    some { s with byte := update (update (update (update s.byte a (byteOf v 0)) (a + 1)
      (byteOf v 1)) (a + 2) (byteOf v 2)) (a + 3) (byteOf v 3) }
  else none

/-- `do len++; while (get_fs_byte(tmp++))`, in front of at most `n` bytes: the length with the
terminating 0. -/
def lenWithin (s : Segment) : Nat → Nat → Option Nat
  | 0, _ => none
  | n + 1, a =>
      (s.get a).bind fun c => if c = 0 then some 1 else (s.lenWithin n (a + 1)).map (· + 1)

def len (s : Segment) (a : Nat) : Option Nat := s.lenWithin (s.limit - a) a

/-- `while (get_fs_long(tmp++)) i++`. -/
def countWithin (s : Segment) : Nat → Nat → Option Nat
  | 0, _ => none
  | n + 1, a =>
      (s.long a).bind fun v => if v = 0 then some 0 else (s.countWithin n (a + 4)).map (· + 1)

/-- `count`. -/
def count (s : Segment) (argv : Nat) : Option Nat :=
  if argv = 0 then some 0 else s.countWithin (s.limit - argv) argv

end Segment

/-! ## copy_strings -/

inductive Stop where
  /-- `execve called from supervisor mode` -/
  | supervisorMode
  /-- `argc is wrong` -/
  | argcIsWrong
  | memory (p : Panic)
  /-- an access behind the limit of a segment: the task is killed -/
  | fault
  /-- an access to `page[]` outside of the array -/
  | wildIndex

/-- What `%fs` holds. -/
inductive Fs where
  | user
  | kernel
deriving DecidableEq

/-- Where the pointers to the strings are: in user memory, or in one variable of `do_execve`. -/
inductive Argv where
  | user (a : Nat)
  | kernel (s : Nat)

/-- The pages of the arguments, by their frame, with the memory and `%fs`. -/
structure Block where
  mem : Mem
  page : Fin MAX_ARG_PAGES → Option Nat
  fs : Fs

/-- `if (from_kmem==mode) set_fs(fs)`. -/
def setFs (mode from_kmem : Nat) (fs : Fs) (b : Block) : Block :=
  if from_kmem = mode then { b with fs := fs } else b

@[simp] theorem setFs_mem (mode from_kmem : Nat) (fs : Fs) (b : Block) :
    (setFs mode from_kmem fs b).mem = b.mem := by
  unfold setFs
  split <;> rfl

@[simp] theorem setFs_page (mode from_kmem : Nat) (fs : Fs) (b : Block) :
    (setFs mode from_kmem fs b).page = b.page := by
  unfold setFs
  split <;> rfl

theorem setFs_fs (mode from_kmem : Nat) (fs : Fs) (b : Block) :
    (setFs mode from_kmem fs b).fs = if from_kmem = mode then fs else b.fs := by
  unfold setFs
  split <;> rfl

/-- The local variables of `copy_strings`. -/
structure Cursor where
  block : Block
  p : Word
  pag : Nat
  offset : Int

/-- Store a byte of a frame. -/
def poke (m : Mem) (frame offset : Nat) (v : Byte) : Mem :=
  m.write frame (wordSlot offset) (setByte (m.phys frame (wordSlot offset)) (offset % 4) v)

def peek (m : Mem) (frame offset : Nat) : Byte :=
  byteOf (m.phys frame (wordSlot offset)) (offset % 4)

variable (segs : Fs → Segment)

/-- `get_fs_long(argv + argc)`. -/
def getArg (fs : Fs) : Argv → Nat → Option Word
  | .user a, argc => if fs = .user then (segs .user).long (a + 4 * argc) else none
  | .kernel s, argc => if fs = .kernel ∧ argc = 0 then some (BitVec.ofNat 32 s) else none

/-- `page[i]`, or a page for it. -/
def argPage (b : Block) (i : Nat) : Except Stop (Option (Nat × Block)) :=
  if h : i < MAX_ARG_PAGES then
    match b.page ⟨i, h⟩ with
    | some pag => .ok (some (pag, b))
    | none => .ok ((getFreePage b.mem).map fun (pag, mem) =>
        (pag, { b with mem := mem, page := update b.page ⟨i, h⟩ (some pag) }))
  else .error .wildIndex

/-- `if (--offset < 0)`, with the block alone where there is no page. -/
def nextPage (from_kmem : Nat) (old_fs new_fs : Fs) (c : Cursor) : Except Stop (Block ⊕ Cursor) :=
  if c.offset - 1 < 0 then
    let b := setFs 2 from_kmem old_fs c.block
    (argPage b (c.p.toNat / PAGE_SIZE)).map fun
      | none => .inl b
      | some (pag, b) => .inr ⟨setFs 2 from_kmem new_fs b, c.p, pag, c.p.toNat % PAGE_SIZE⟩
  else .ok (.inr { c with offset := c.offset - 1 })

/-- One round of `while (len)`, for the byte at `tmp`. -/
def copyByte (from_kmem : Nat) (old_fs new_fs : Fs) (tmp : Nat) (c : Cursor) :
    Except Stop (Block ⊕ Cursor) := do
  match ← nextPage from_kmem old_fs new_fs { c with p := c.p - 1 } with
  | .inl b => return .inl b
  | .inr c =>
    match (segs c.block.fs).get tmp with
    | none => throw .fault
    | some v =>
      return .inr { c with
        block := { c.block with mem := poke c.block.mem c.pag c.offset.toNat v } }

/-- `while (len)`; `tmp` is at the first byte of the string. -/
def copyBytes (from_kmem : Nat) (old_fs new_fs : Fs) (tmp : Nat) :
    Nat → Cursor → Except Stop (Block ⊕ Cursor)
  | 0, c => return .inr c
  | len + 1, c => do
    match ← copyByte segs from_kmem old_fs new_fs (tmp + len) c with
    | .inl b => return .inl b
    | .inr c => copyBytes from_kmem old_fs new_fs tmp len c

/-- `while (argc-- > 0)`. -/
def copyArgs (argv : Argv) (from_kmem : Nat) (old_fs new_fs : Fs) :
    Nat → Cursor → Except Stop (Block ⊕ Cursor)
  | 0, c => return .inr c
  | argc + 1, c => do
    let b := setFs 1 from_kmem new_fs c.block
    match getArg segs b.fs argv argc with
    | none => throw .fault
    | some tmp =>
      if tmp = 0 then throw .argcIsWrong
      else
        let b := setFs 1 from_kmem old_fs b
        match (segs b.fs).len tmp.toNat with
        | none => throw .fault
        | some len =>
          -- both sides are unsigned
          if c.p - BitVec.ofNat 32 len < 0 then return .inl { b with fs := old_fs }
          else
            match ← copyBytes segs from_kmem old_fs new_fs tmp.toNat len { c with block := b } with
            | .inl b => return .inl b
            | .inr c => copyArgs argv from_kmem old_fs new_fs argc c

/-- The new `p`, or 0. -/
def copyStrings (argc : Int) (argv : Argv) (b : Block) (p : Word) (from_kmem : Nat) :
    Except Stop (Word × Block) :=
  if p = 0 then return (0, b)
  else do
    let old_fs := b.fs
    let b := setFs 2 from_kmem .kernel b
    match ← copyArgs segs argv from_kmem old_fs .kernel argc.toNat ⟨b, p, 0, 0⟩ with
    | .inl b => return (0, b)
    | .inr c => return (c.p, setFs 2 from_kmem old_fs c.block)

/-! ## create_tables -/

def orFault {α : Type} : Option α → Except Stop α
  | some a => .ok a
  | none => .error .fault

/-- One of the loops: the strings from `p` on, and their addresses from `table` on. -/
def writeTable : Nat → Segment → Nat → Word → Except Stop (Segment × Nat × Word)
  | 0, s, p, table => return (s, p, table)
  | n + 1, s, p, table => do
    let s ← orFault (s.putLong table.toNat (BitVec.ofNat 32 p))
    let len ← orFault (s.len p)
    writeTable n s (p + len) (table + 4)

/-- The new stack pointer. -/
def createTables (s : Segment) (p : Word) (argc envc : Int) : Except Stop (Word × Segment) := do
  let sp := 0xfffffffc &&& p
  let envp := sp - BitVec.ofInt 32 (4 * (envc + 1))
  let argv := envp - BitVec.ofInt 32 (4 * (argc + 1))
  let s ← orFault (s.putLong (argv - 4).toNat envp)
  let s ← orFault (s.putLong (argv - 8).toNat argv)
  let s ← orFault (s.putLong (argv - 12).toNat (BitVec.ofInt 32 argc))
  let (s, p, argvEnd) ← writeTable argc.toNat s p.toNat argv
  let s ← orFault (s.putLong argvEnd.toNat 0)
  let (s, _, envpEnd) ← writeTable envc.toNat s p envp
  let s ← orFault (s.putLong envpEnd.toNat 0)
  return (argv - 12, s)

/-! ## The header of a binary -/

/-- `struct exec`. -/
structure Header where
  a_magic : Word
  a_text : Word
  a_data : Word
  a_bss : Word
  a_syms : Word
  a_entry : Word
  a_trsize : Word
  a_drsize : Word

def header (b_data : Nat → Byte) : Header where
  a_magic := word b_data 0
  a_text := word b_data 4
  a_data := word b_data 8
  a_bss := word b_data 12
  a_syms := word b_data 16
  a_entry := word b_data 20
  a_trsize := word b_data 24
  a_drsize := word b_data 28

/-- `N_TXTOFF`. -/
def txtOff (ex : Header) : Word := if ex.a_magic = ZMAGIC then 1024 - 32 + 32 else 32

/-- The header passes the checks. -/
def HeaderOk (ex : Header) (i_size : Word) : Prop :=
  ¬(ex.a_magic ≠ ZMAGIC ∨ ex.a_trsize ≠ 0 ∨ ex.a_drsize ≠ 0 ∨
    ex.a_text + ex.a_data + ex.a_bss > 0x3000000 ∨
    i_size < ex.a_text + ex.a_data + ex.a_syms + txtOff ex) ∧
  ¬(txtOff ex).toNat ≠ BLOCK_SIZE

instance (ex : Header) (i_size : Word) : Decidable (HeaderOk ex i_size) := by
  unfold HeaderOk
  infer_instance

/-- The addresses of `while (i&0xfff) put_fs_byte(0,(char *) (i++))`, at most `n` of them. -/
def fillAddrs : Nat → Word → List Word
  | 0, _ => []
  | n + 1, i => if i &&& 0xfff ≠ 0 then i :: fillAddrs n (i + 1) else []

/-- The loop stops at the end of a page. -/
def zeroFill (s : Segment) (ex : Header) : Except Stop Segment :=
  (fillAddrs PAGE_SIZE (ex.a_text + ex.a_data)).foldlM (fun s i => orFault (s.put i.toNat 0)) s

/-! ## The first line of a script -/

/-- `strncpy` into a buffer of `count` bytes. -/
def strncpy (src : Nat → Byte) (count k : Nat) : Byte :=
  if k < count ∧ ∀ j < k, src j ≠ 0 then src k else 0

/-- `strchr`, in front of at most `n` bytes. -/
def strchr (s : Nat → Byte) (c : Byte) : Nat → Nat → Option Nat
  | 0, _ => none
  | n + 1, k => if s k = c then some k else if s k = 0 then none else strchr s c n (k + 1)

def blank (c : Byte) : Bool := c = 32 || c = 9

/-- `for (cp = buf; (*cp == ' ') || (*cp == '\t'); cp++)`. -/
def skipBlanks (buf : Nat → Byte) : Nat → Nat → Nat
  | 0, cp => cp
  | n + 1, cp => if blank (buf cp) then skipBlanks buf n (cp + 1) else cp

/-- The loop over the name of the interpreter: `cp` and `i_name`. -/
def scanName (buf : Nat → Byte) : Nat → Nat → Nat → Nat × Nat
  | 0, cp, i_name => (cp, i_name)
  | n + 1, cp, i_name =>
      if buf cp ≠ 0 ∧ ¬blank (buf cp) then
        scanName buf n (cp + 1) (if buf cp = 47 then cp + 1 else i_name)
      else (cp, i_name)

/-- What is found in the line; the pointers are indices of `buf`. -/
structure Script where
  buf : Nat → Byte
  interp : Nat
  i_name : Nat
  i_arg : Option Nat

def BUF : Nat := 1023

/-- `none` where there is no interpreter name. -/
def parseScript (b_data : Nat → Byte) : Option Script :=
  let buf := strncpy (fun k => b_data (k + 2)) 1022
  match strchr buf 10 BUF 0 with
  | none => none
  | some cp =>
    let buf := update buf cp 0
    let cp := skipBlanks buf BUF 0
    if buf cp = 0 then none
    else
      let (last, i_name) := scanName buf BUF cp cp
      if buf last ≠ 0 then some ⟨update buf last 0, cp, i_name, some (last + 1)⟩
      else some ⟨buf, cp, i_name, none⟩

/-! ## do_execve -/

/-- The fields of an inode that `do_execve` reads. -/
structure Inode where
  i_num : Nat
  i_mode : BitVec 16
  i_uid : Nat
  i_gid : Nat
  i_size : Word

/-- The file system with its state `F`, the address of `buf` in `do_execve`, and what page faults
bring into a page of the new address space that is not there. -/
structure Kernel (F : Type) where
  namei : F → Segment → Nat → Option Inode × F
  bread : F → Inode → Option (Nat → Byte) × F
  brelse : F → F
  iput : F → Inode → F
  sysClose : F → Nat → F
  buf : Nat
  fresh : Nat → Byte

/-- The descriptors of the segments are given by their base and `get_limit`. -/
structure Task where
  euid : Nat
  egid : Nat
  executable : Option Inode
  sa_handler : Fin 32 → Word
  close_on_exec : Word
  used_math : Bool
  codeBase : Nat
  codeLimit : Nat
  dataBase : Nat
  dataLimit : Nat
  end_code : Word
  end_data : Word
  brk : Word
  start_stack : Word

/-- What the trap has left on the kernel stack, from `eip` on. -/
structure Frame where
  eip : Word
  cs : Word
  eflags : Word
  esp : Word
  ss : Word

/-- `user` is the memory of the task as it sees it; `math` is `last_task_used_math == current`. -/
structure State (F : Type) where
  files : F
  mem : Mem
  user : Segment
  task : Task
  frame : Frame
  math : Bool

variable {F : Type}

/-- An executable that may be run, with its first block. -/
structure Image where
  inode : Inode
  e_uid : Nat
  e_gid : Nat
  b_data : Nat → Byte

/-- From `restart_interp` to the header; the error leads to `exec_error2`. -/
def openImage (k : Kernel F) (task : Task) (files : F) (inode : Inode) : (Int ⊕ Image) × F :=
  if inode.i_mode &&& 0o170000 ≠ 0o100000 then (.inl (-EACCES), files)
  else
    let e_uid := if inode.i_mode &&& 0o4000 ≠ 0 then inode.i_uid else task.euid
    let e_gid := if inode.i_mode &&& 0o2000 ≠ 0 then inode.i_gid else task.egid
    let i := if task.euid = inode.i_uid then inode.i_mode >>> 6
      else if task.egid = inode.i_gid then inode.i_mode >>> 3
      else inode.i_mode
    if i &&& 1 = 0 ∧ ¬(inode.i_mode &&& 0o111 ≠ 0 ∧ task.euid = 0) then (.inl (-ENOEXEC), files)
    else
      match k.bread files inode with
      | (none, files) => (.inl (-EACCES), files)
      | (some b_data, files) => (.inr ⟨inode, e_uid, e_gid, b_data⟩, files)

def ofMemory {α : Type} : Except Panic α → Except Stop α
  | .ok a => .ok a
  | .error p => .error (.memory p)

/-- `free_page(page[i])`. -/
def freeArg (page : Fin MAX_ARG_PAGES → Option Nat) (m : Mem) (i : Fin MAX_ARG_PAGES) :
    Except Stop Mem :=
  match page i with
  | none => .ok m
  | some page => ofMemory (freePage m page)

/-- `for (i=0 ; i<MAX_ARG_PAGES ; i++) free_page(page[i])`. -/
def freePages (b : Block) : Except Stop Mem :=
  (List.finRange MAX_ARG_PAGES).foldlM (freeArg b.page) b.mem

/-- The label `exec_error1`. -/
def execError1 (s : State F) (b : Block) (retval : Int) : Except Stop (Int × State F) := do
  let mem ← freePages b
  return (retval, { s with mem := mem })

/-- The label `exec_error2`. -/
def execError2 (k : Kernel F) (s : State F) (b : Block) (inode : Inode) (retval : Int) :
    Except Stop (Int × State F) :=
  execError1 { s with files := k.iput s.files inode } b retval

def DATA_LIMIT : Nat := 0x4000000

/-- `if (page[i]) put_page(page[i],data_base)`, with the base of the segment. -/
def putArg (page : Fin MAX_ARG_PAGES → Option Nat) (base : Nat) (m : Mem)
    (i : Fin MAX_ARG_PAGES) : Mem :=
  match page i with
  | none => m
  | some pag => (putPage m pag (base + DATA_LIMIT - (MAX_ARG_PAGES - i.val) * PAGE_SIZE)).2

/-- The pages go to the end of the data segment, from the last one on. -/
def putPages (m : Mem) (page : Fin MAX_ARG_PAGES → Option Nat) (base : Nat) : Mem :=
  (List.finRange MAX_ARG_PAGES).reverse.foldl (putArg page base) m

/-- `change_ldt`. -/
def changeLdt (m : Mem) (t : Task) (text_size : Word) (page : Fin MAX_ARG_PAGES → Option Nat) :
    Mem × Task :=
  let code_limit := (text_size + 4096 - 1) &&& 0xFFFFF000
  (putPages m page t.codeBase,
    { t with codeLimit := code_limit.toNat, dataBase := t.codeBase, dataLimit := DATA_LIMIT })

/-- The data segment at `base` as the task sees it. -/
def seen (m : Mem) (base : Nat) (fresh : Nat → Byte) : Segment where
  byte a :=
    match m.page (posOf (base + a)) with
    | none => fresh a
    | some page => peek m page (a % PAGE_SIZE)
  limit := DATA_LIMIT

/-- `current->end_code`, `end_data` and `brk`. -/
def setBrk (t : Task) (ex : Header) : Task :=
  { t with
    end_code := ex.a_text
    end_data := ex.a_data + ex.a_text
    brk := ex.a_bss + (ex.a_data + ex.a_text) }

/-- The point of no return, and what follows. -/
def install (k : Kernel F) (s : State F) (im : Image) (b : Block) (p : Word) (argc envc : Int) :
    Except Stop (Int × State F) := do
  let ex := header im.b_data
  let files := match s.task.executable with
    | none => s.files
    | some inode => k.iput s.files inode
  let files := (List.range NR_OPEN).foldl (fun files i =>
    if (s.task.close_on_exec >>> i) &&& 1 ≠ 0 then k.sysClose files i else files) files
  let mem ← ofMemory (freePageTables b.mem s.task.codeBase s.task.codeLimit)
  let mem ← ofMemory (freePageTables mem s.task.dataBase s.task.dataLimit)
  let (mem, task) := changeLdt mem s.task ex.a_text b.page
  let p := p + BitVec.ofNat 32 DATA_LIMIT - BitVec.ofNat 32 (MAX_ARG_PAGES * PAGE_SIZE)
  let (sp, user) ← createTables (seen mem task.dataBase k.fresh) p argc envc
  let user ← zeroFill user ex
  return (0,
    { files := files
      mem := mem
      user := user
      task := { setBrk task ex with
        executable := some im.inode
        sa_handler := fun _ => 0
        close_on_exec := 0
        used_math := false
        start_stack := sp &&& 0xfffff000
        euid := im.e_uid
        egid := im.e_gid }
      frame := { s.frame with eip := ex.a_entry, esp := sp }
      math := false })

/-- The two calls for a binary. -/
def copyBinary (user : Segment) (b : Block) (argv envp : Nat) (argc envc : Int) :
    Except Stop (Word × Block) := do
  let segs := fun _ => user
  let (p, b) ← copyStrings segs envc (.user envp) b
    (BitVec.ofNat 32 (PAGE_SIZE * MAX_ARG_PAGES - 4)) 0
  copyStrings segs argc (.user argv) b p 0

/-- A binary, or the interpreter of a script: `p` and `argc` are given where the strings are
copied already. -/
def execBinary (k : Kernel F) (s : State F) (im : Image) (b : Block) (argv envp : Nat)
    (argc envc : Int) (copied : Option Word) : Except Stop (Int × State F) :=
  let s := { s with files := k.brelse s.files }
  if ¬HeaderOk (header im.b_data) im.inode.i_size then execError2 k s b im.inode (-ENOEXEC)
  else
    match copied with
    | some p => install k s im b p argc envc
    | none => do
      let (p, b) ← copyBinary s.user b argv envp argc envc
      if p = 0 then execError2 k s b im.inode (-ENOMEM)
      else install k s im b p argc envc

/-- The segments while the strings of a script are copied. -/
def scriptSegs (user : Segment) (buf : Nat) (sc : Script) : Fs → Segment
  | .user => user
  | .kernel => ⟨fun a => sc.buf (a - buf), buf + BUF⟩

/-- The call for the argument of the interpreter, with `argc++`. -/
def copyInterpArg (segs : Fs → Segment) (buf : Nat) (i_arg : Option Nat) (b : Block) (p : Word)
    (argc : Int) : Except Stop (Word × Block × Int) :=
  match i_arg with
  | none => return (p, b, argc)
  | some i_arg => do
    let (p, b) ← copyStrings segs 1 (.kernel (buf + i_arg)) b p 2
    return (p, b, argc + 1)

/-- The five calls for a script: the new `p`, and `argc`. -/
def copyScript (segs : Fs → Segment) (buf : Nat) (sc : Script) (b : Block)
    (filename argv envp : Nat) (argc envc : Int) : Except Stop (Word × Block × Int) := do
  let (p, b) ← copyStrings segs envc (.user envp) b
    (BitVec.ofNat 32 (PAGE_SIZE * MAX_ARG_PAGES - 4)) 0
  let argc := argc - 1
  let (p, b) ← copyStrings segs argc (.user (argv + 4)) b p 0
  let (p, b) ← copyStrings segs 1 (.kernel filename) b p 1
  let argc := argc + 1
  let (p, b, argc) ← copyInterpArg segs buf sc.i_arg b p argc
  let (p, b) ← copyStrings segs 1 (.kernel (buf + sc.i_name)) b p 2
  return (p, b, argc + 1)

/-- A script: its strings are copied, and its interpreter is run. -/
def execScript (k : Kernel F) (s : State F) (im : Image) (b : Block) (filename argv envp : Nat)
    (argc envc : Int) : Except Stop (Int × State F) :=
  let s := { s with files := k.iput (k.brelse s.files) im.inode }
  match parseScript im.b_data with
  | none => execError1 s b (-ENOEXEC)
  | some sc => do
    let segs := scriptSegs s.user k.buf sc
    let (p, b, argc) ← copyScript segs k.buf sc b filename argv envp argc envc
    if p = 0 then execError1 s b (-ENOMEM)
    else
      match k.namei s.files (segs .kernel) (k.buf + sc.interp) with
      | (none, files) => execError1 { s with files := files } b (-ENOENT)
      | (some inode, files) =>
        match openImage k s.task files inode with
        | (.inl retval, files) => execError2 k { s with files := files } b inode retval
        | (.inr im, files) =>
          execBinary k { s with files := files } im b argv envp argc envc (some p)

/-- The first block begins with `#!`. -/
def isScript (b_data : Nat → Byte) : Bool := b_data 0 = 35 && b_data 1 = 33

/-- `do_execve`. -/
def doExecve (k : Kernel F) (s : State F) (filename argv envp : Nat) :
    Except Stop (Int × State F) :=
  if s.frame.cs &&& 0xffff ≠ 0x000f then throw .supervisorMode
  else
    match k.namei s.files s.user filename with
    | (none, files) => return (-ENOENT, { s with files := files })
    | (some inode, files) => do
      let s := { s with files := files }
      let argc ← orFault (s.user.count argv)
      let envc ← orFault (s.user.count envp)
      let b := ⟨s.mem, fun _ => none, .user⟩
      match openImage k s.task s.files inode with
      | (.inl retval, files) => execError2 k { s with files := files } b inode retval
      | (.inr im, files) =>
        let s := { s with files := files }
        if isScript im.b_data then execScript k s im b filename argv envp argc envc
        else execBinary k s im b argv envp argc envc none

end Exec

end Linux011
