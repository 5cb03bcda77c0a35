import Linux011.CopyOnWrite

/-!
# Pages on demand

`do_no_page` with `share_page` and `bread_page`, the write faults, `verify_area` and the stores
of the kernel into the pages of a task, between the forks and exits of any tasks. A task that
waits for `bread_page`, or inside of a system call, leaves the processor to the others.

`exec` leaves a task without pages; the pages of its arguments, at the end of its data segment,
come as those of `get_empty_page` do. The read of a page meets no error.

A run is cut where a task can leave the processor. `do_no_page` is two steps, `doNoPage` up to
`bread_page` and `loaded` behind it, with the page that is being filled kept in the state of the
task; a system call that has passed a buffer to `verify_area` keeps the buffer there until it is
over, and the stores of the kernel into it are steps of their own. Between them any other task
may fault, fork, exit or be given another executable. The words of a page are those of the
source, and its bytes are read out of them with the lowest one first. The field `lost` is
history: no step looks at it. The two results about these runs are in `VerifyArea` and
`DirtyPages`, and share what `DemandSteps` proves about a step.
-/

namespace Linux011

open Function RefCount Runs Views CopyOnWrite

namespace DemandPages

/-- What a header and the blocks of a file say; holes read as zeros. -/
structure Executable where
  end_data : Nat
  byte : Nat → Byte

structure Task where
  /-- the number of the inode -/
  executable : Option Nat
  /-- the buffer and the count that a system call has passed to `verify_area` -/
  call : Option (Nat × Nat)
  /-- the address and the page of a `do_no_page` that waits for `bread_page` -/
  loading : Option (Nat × Nat)

structure State where
  mem : Mem
  /-- the pages that the kernel holds -/
  held : Nat → Nat
  task : Nat → Option Task
  /-- history: the page is a copy that `un_wp_page` made of a dirty page, or of such a copy, and
  nothing has been stored there since -/
  lost : Pos → Bool

/-! ## The contents of a page -/

/-- Byte `j` of the words of a page. -/
def byteIn (page : Slot → Word) (j : Nat) : Byte := byteOf (page (wordSlot j)) (j % 4)

def putByte (page : Slot → Word) (j : Nat) (value : Byte) : Slot → Word :=
  update page (wordSlot j) (setByte (page (wordSlot j)) (j % 4) value)

/-- The word of four bytes. -/
def wordOf (byte : Nat → Byte) : Word :=
  setByte (setByte (setByte (setByte 0 0 (byte 0)) 1 (byte 1)) 2 (byte 2)) 3 (byte 3)

/-- `bread_page` of four blocks, from `1 + tmp/BLOCK_SIZE` on. -/
def breadPage (exe : Executable) (tmp : Nat) : Slot → Word := fun i => wordOf fun k =>
  let j := 4 * i.val + k
  exe.byte ((1 + tmp / 1024 + j / 1024) * 1024 + j % 1024)

/-- The loop at the end of `do_no_page`, from `tmp` down. -/
def zeroTail (page : Slot → Word) : Nat → Nat → Slot → Word
  | 0, _ => page
  | i + 1, tmp => zeroTail (putByte page (tmp - 1) 0) i (tmp - 1)

def loadPage (exe : Executable) (tmp : Nat) : Slot → Word :=
  zeroTail (breadPage exe tmp) (tmp + 4096 - exe.end_data) 4096

/-! ## The pages of the tasks -/

/-- `e & 0x40` -/
def Dirty (e : Word) : Prop := e &&& 0x40 ≠ 0

instance (e : Word) : Decidable (Dirty e) := inferInstanceAs (Decidable (_ ≠ _))

def dirtyAt (m : Mem) (x : Pos) : Bool := (m.ent x).any fun e => decide (Dirty e)

/-- The history of `x` when `un_wp_page` may have replaced its page. -/
def losing (m m' : Mem) (x : Pos) (lost : Pos → Bool) : Pos → Bool :=
  if m'.page x = m.page x then lost else update lost x (dirtyAt m x || lost x)

def doExit (s : State) (nr : Nat) : Except Panic State := do
  let mem ← freePageTables s.mem (nr * TASK_SIZE) TASK_SIZE
  pure { s with mem := mem, task := update s.task nr none }

/-- The linear addresses that `verify_area` visits; `size` is an `int`. -/
def verifyPages (base addr size : Nat) : List Nat :=
  let size := (size + addr % 0x1000) % 0x100000000
  if size < 0x80000000 then
    (List.range ((size + 0xfff) / 0x1000)).map fun i => addr / 0x1000 * 0x1000 + base + i * 0x1000
  else []

/-- The loop of `verify_area`; the flag is false where the task is killed. -/
def verifyArea : List Nat → State → Bool × State
  | [], s => (true, s)
  | start :: rest, s =>
    match writeVerify s.mem start with
    | none => (false, s)
    | some mem => verifyArea rest { s with
        mem := mem, lost := losing s.mem mem (posOf start) s.lost }

inductive Sharing where
  | no
  /-- with the task -/
  | page (p : Nat)
  | oom

/-- The tasks that `share_page` asks, from `LAST_TASK` on. -/
def lastTasks : List Nat := (List.range 63).map fun k => 63 - k

/-- The loop of `share_page`. -/
def sharePage (s : State) (current address : Nat) : List Nat → Mem → Except Panic (Sharing × Mem)
  | [], m => .ok (.no, m)
  | p :: rest, m =>
    if p ≠ current ∧ (s.task p).map Task.executable = (s.task current).map Task.executable then
      match tryToShare m address (p * TASK_SIZE) (current * TASK_SIZE) with
      | .error e => .error e
      | .ok (none, m) => .ok (.oom, m)
      | .ok (some r, m) => if r = 0 then sharePage s current address rest m else .ok (.page p, m)
    else sharePage s current address rest m

/-- `share_page`, with the count of the inode. -/
def sharing (s : State) (current address i_count : Nat) : Except Panic (Sharing × Mem) :=
  if i_count < 2 then .ok (.no, s.mem) else sharePage s current address lastTasks s.mem

/-- The page that `bread_page` is to fill; it sleeps. -/
def startLoading (s : State) (nr : Nat) (t : Task) (tmp : Nat) : Except Panic State :=
  match getFreePage s.mem with
  | none => doExit s nr
  | some (page, mem) => .ok { s with
      mem := mem
      held := update s.held page 1
      task := update s.task nr (some { t with loading := some (tmp, page) }) }

/-- The `tmp` of `do_no_page`, where `address` is relative to `start_code`. -/
def pageOf (address : Nat) : Nat := address / 0x1000 * 0x1000

/-- `tmp < current->end_data` -/
def inFile (exe : Nat → Executable) (t : Task) (tmp : Nat) : Bool :=
  t.executable.any fun e => decide (tmp < (exe e).end_data)

/-- `do_no_page`, up to `bread_page`. -/
def doNoPage (exe : Nat → Executable) (s : State) (nr : Nat) (t : Task) (address i_count : Nat) :
    Except Panic State :=
  let tmp := pageOf address
  if inFile exe t tmp = false then
    match getEmptyPage s.mem (linear nr tmp) with
    | .error p => .error p
    | .ok (false, mem) => doExit { s with mem := mem } nr
    | .ok (true, mem) =>
      .ok { s with mem := mem, lost := update s.lost (posOf (linear nr tmp)) false }
  else
    match sharing s nr tmp i_count with
    | .error p => .error p
    | .ok (.page p, mem) => .ok { s with
        mem := mem
        lost := update s.lost (posOf (linear nr tmp)) (s.lost (posOf (linear p tmp))) }
    | .ok (.oom, mem) => doExit { s with mem := mem } nr
    | .ok (.no, mem) => startLoading { s with mem := mem } nr t tmp

/-- The rest of `do_no_page`. -/
def loaded (exe : Executable) (s : State) (nr : Nat) (t : Task) (tmp page : Nat) :
    Except Panic State :=
  let mem := { s.mem with phys := update s.mem.phys page (loadPage exe tmp) }
  let s := { s with
    held := update s.held page 0, task := update s.task nr (some { t with loading := none }) }
  match putPage mem page (linear nr tmp) with
  | (0, mem) =>
    match freePage mem page with
    | .error p => .error p
    | .ok mem => doExit { s with mem := mem } nr
  | (_, mem) => .ok { s with mem := mem, lost := update s.lost (posOf (linear nr tmp)) false }

/-- A byte is stored at an address that is mapped. -/
def put (s : State) (address : Nat) (value : Byte) : State :=
  { s with
    mem := (s.mem.mark address true).storeByte address value
    lost := update s.lost (posOf address) false }

/-- The part of the address space that `copy_mem` copies. -/
def limitOf (src : Nat) : Nat := if src = 0 then TASK0_LIMIT else TASK_SIZE

def fork (s : State) (src dst : Nat) (t : Task) : Except Panic State := do
  let (r, mem) ← copyPageTables s.mem (src * TASK_SIZE) (dst * TASK_SIZE) (limitOf src)
  if r = 0 then
    pure { s with
      mem := mem
      task := update s.task dst (some t)
      lost := fun x => if taskOf x = dst then s.lost (taskDir src (x.1.val % 16), x.2)
        else s.lost x }
  else do
    let mem ← freePageTables mem (dst * TASK_SIZE) TASK_SIZE
    pure { s with mem := mem }

/-- `execve` of a file with the inode `e`. -/
def exec (s : State) (nr e : Nat) : Except Panic State := do
  let mem ← freePageTables s.mem (nr * TASK_SIZE) TASK_SIZE
  pure { s with mem := mem, task := update s.task nr (some ⟨some e, none, none⟩) }

inductive Act where
  | fork (src dst : Nat)
  | exec (nr e : Nat)
  | exit (nr : Nat)
  | doNoPage (nr address i_count : Nat)
  | loaded (nr : Nat)
  | doWpPage (nr address : Nat)
  | store (nr address : Nat) (value : Byte)
  | load (nr address : Nat)
  /-- a system call and its `verify_area` -/
  | verifyArea (nr buf count : Nat)
  /-- `put_fs_byte` into the buffer -/
  | putFsByte (nr address : Nat) (value : Byte)
  | endCall (nr : Nat)
  | getFreePage
  | freePage (page : Nat)

/-- The task that runs, outside of `do_no_page`. -/
def State.awake (s : State) (nr : Nat) : Option Task :=
  (s.task nr).filter fun t => t.loading.isNone

/-- The task that runs in user mode. -/
def State.user (s : State) (nr : Nat) : Option Task :=
  (s.awake nr).filter fun t => t.call.isNone

/-- No `do_no_page` has got the page. -/
def State.unloaded (s : State) (page : Nat) : Bool :=
  (List.range 64).all fun nr =>
    (s.task nr).all fun t => t.loading.all fun l => decide (l.2 ≠ page)

def step (exe : Nat → Executable) (s : State) : Act → Option State
  | .fork src dst =>
    match s.user src with
    | some t =>
      if 1 ≤ dst ∧ dst < 64 ∧ (s.task dst).isNone then (fork s src dst t).toOption else none
    | none => none
  | .exec nr e => if 1 ≤ nr ∧ (s.user nr).isSome then (exec s nr e).toOption else none
  | .exit nr => if 1 ≤ nr ∧ (s.awake nr).isSome then (doExit s nr).toOption else none
  | .doNoPage nr address i_count =>
    match s.awake nr with
    | some t =>
      if 1 ≤ nr ∧ address < TASK_SIZE ∧ (s.mem.ent (posOf (linear nr address))).isNone then
        (doNoPage exe s nr t address i_count).toOption
      else none
    | none => none
  | .loaded nr =>
    match s.task nr with
    | some ⟨some e, call, some (tmp, page)⟩ =>
      (loaded (exe e) s nr ⟨some e, call, some (tmp, page)⟩ tmp page).toOption
    | _ => none
  | .doWpPage nr address =>
    if 1 ≤ nr ∧ (s.user nr).isSome ∧ address < TASK_SIZE then
      match s.mem.ent (posOf (linear nr address)) with
      | some e =>
        if Writable e then none
        else
          match doWpPage s.mem (linear nr address) with
          | some mem => some { s with
              mem := mem, lost := losing s.mem mem (posOf (linear nr address)) s.lost }
          | none => (doExit s nr).toOption
      | none => none
    else none
  | .store nr address value =>
    if 1 ≤ nr ∧ (s.user nr).isSome ∧ address < TASK_SIZE ∧
        (s.mem.ent (posOf (linear nr address))).any fun e => decide (Writable e) then
      some (put s (linear nr address) value)
    else none
  | .load nr address =>
    if 1 ≤ nr ∧ (s.awake nr).isSome ∧ address < TASK_SIZE ∧
        (s.mem.ent (posOf (linear nr address))).isSome then
      some { s with mem := s.mem.mark (linear nr address) false }
    else none
  | .verifyArea nr buf count =>
    match s.user nr with
    | some t =>
      if 1 ≤ nr ∧ buf < 0x100000000 ∧ count < 0x80000000 then
        match verifyArea (verifyPages (nr * TASK_SIZE) buf count) s with
        | (true, s) => some { s with
            task := update s.task nr (some { t with call := some (buf, count) }) }
        | (false, s) => (doExit s nr).toOption
      else none
    | none => none
  | .putFsByte nr address value =>
    match s.awake nr with
    | some ⟨_, some (buf, count), _⟩ =>
      if 1 ≤ nr ∧ buf ≤ address ∧ address < buf + count ∧ address < TASK_SIZE ∧
          (s.mem.ent (posOf (linear nr address))).isSome then
        some (put s (linear nr address) value)
      else none
    | _ => none
  | .endCall nr =>
    match s.awake nr with
    | some t =>
      if 1 ≤ nr then some { s with task := update s.task nr (some { t with call := none }) }
      else none
    | none => none
  | .getFreePage =>
    match getFreePage s.mem with
    | some (page, mem) => some { s with mem := mem, held := update s.held page 1 }
    | none => none
  | .freePage page =>
    if 1 ≤ s.held page ∧ s.unloaded page then
      match freePage s.mem page with
      | .ok mem => some { s with mem := mem, held := update s.held page 0 }
      | .error _ => none
    else none

/-- The tasks have no pages yet. -/
def start (z : Zone) (rest : Nat → Slot → Word) (task : Nat → Option Task) : State :=
  ⟨memInit rest z.start z.stop, fun _ => 0, task, fun _ => false⟩

end DemandPages

end Linux011
