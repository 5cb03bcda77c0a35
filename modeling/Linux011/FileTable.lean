import Linux011.RefCount
import Linux011.Runs
import Mathlib.Algebra.BigOperators.Fin
import Mathlib.Data.List.FinRange

/-!
# The file table

`sys_open` and `sys_close` of `fs/open.c`, `dupfd` and its callers of `fs/fcntl.c`,
`sys_pipe`, the part of `copy_process` that copies the descriptors, the close-on-exec loop
of `do_execve` and the loop of `do_exit`, called by any number of tasks. A step of a task
ends at the latest where `open_namei`, `get_pipe_inode` or `iput` may sleep; a stop after an
`iput` that does not sleep only adds runs. What `open_namei` finds, and whether there is
memory for a child and an inode for a pipe, are arguments of the steps.

The books of a function are those of its task alone (`Fair`): it adds as many counts to an
entry as descriptors of the task, and it leaves alone the entries in use that the task has
no descriptor of.

That the books of a function are those of its task alone is what the proof stands on. Each
function of the source is shown to be `Fair` by composing the few things that it does, a count
that is raised and a descriptor that is set; where a call sleeps in between, `PcOk` says what the
task relies on when it goes on, an entry that it has taken and a descriptor that points to it.
`Consistent` puts the tasks together: the count of an entry is the sum over all tasks of the
descriptors that point to it (`tally`), and a step of one task changes this sum by what it
changed itself, while every other task finds at its place what it left there (`PcOk.frame`). A
`fork` adds the descriptors of the child in one loop, an exit takes them away. That a count never
overflows is a bound on the sum: 64 tasks with 20 descriptors each.
-/

namespace Linux011

open Function RefCount Runs Tally

namespace Files

def NR_TASKS : Nat := 64
def NR_OPEN : Nat := 20
def NR_FILE : Nat := 64

def EBADF : Int := 9
def EAGAIN : Int := 11
def EINVAL : Int := 22
def EMFILE : Int := 24

def F_DUPFD : Nat := 0
def F_GETFD : Nat := 1
def F_SETFD : Nat := 2
def F_GETFL : Nat := 3
def F_SETFL : Nat := 4

/-- `O_APPEND | O_NONBLOCK`. -/
def settable : UInt16 := 1024 ||| 2048

/-- `struct file`. -/
structure FileEntry where
  f_mode : UInt16
  f_flags : UInt16
  f_count : UInt16
  f_inode : Option Nat
  f_pos : Nat

/-- `NULL`s and zeros. -/
def FileEntry.zero : FileEntry := ⟨0, 0, 0, none, 0⟩

/-- An entry of `file_table`. -/
abbrev File : Type := Fin NR_FILE

/-- A place in `filp`. -/
abbrev Fd : Type := Fin NR_OPEN

abbrev FileTable : Type := File → FileEntry

def task0 : Fin NR_TASKS := ⟨0, Nat.zero_lt_succ 63⟩

/-- The first entry of the file table. -/
def file0 : File := ⟨0, Nat.zero_lt_succ 63⟩

/-- Where a task is. -/
inductive Pc where
  | user
  /-- `sys_open` in `open_namei`, or in the `iput` of its way out with `EPERM` -/
  | opening (fd : Fd) (f : File) (flag : UInt16)
  /-- `sys_close` in `iput` -/
  | closing
  /-- `sys_dup2` behind `sys_close` -/
  | dup2 (oldfd newfd : Nat)
  /-- `sys_pipe` in `get_pipe_inode` -/
  | piping (fd₀ fd₁ : Fd) (f₀ f₁ : File)
  /-- `do_execve` before descriptor `i` of its loop -/
  | execing (i : Nat)
  /-- `do_exit` before descriptor `i` of its loop -/
  | exiting (i : Nat)
  | zombie

structure Task where
  pc : Pc
  filp : Fd → Option File
  /-- the bits of `close_on_exec` -/
  close_on_exec : Fd → Bool

structure State where
  file_table : FileTable
  /-- `NULL` where no task is -/
  task : Fin NR_TASKS → Option Task

/-! ## Entries and descriptors -/

/-- `f->f_count++`. -/
def FileTable.inc (ft : FileTable) (f : File) : FileTable :=
  update ft f { ft f with f_count := (ft f).f_count + 1 }

/-- `f->f_count = n`. -/
def FileTable.setCount (ft : FileTable) (f : File) (n : UInt16) : FileTable :=
  update ft f { ft f with f_count := n }

/-- `current->filp[fd] = f`. -/
def Task.setFilp (current : Task) (fd : Fd) (f : Option File) : Task :=
  { current with filp := update current.filp fd f }

/-- `current->close_on_exec`, with the bit of `fd` made to be `b`. -/
def Task.setClose (current : Task) (fd : Fd) (b : Bool) : Task :=
  { current with close_on_exec := update current.close_on_exec fd b }

def Task.goto (current : Task) (pc : Pc) : Task := { current with pc := pc }

/-- The first free descriptor from `arg` on. -/
def firstFd (current : Task) (arg : Nat) : Option Fd :=
  (List.finRange NR_OPEN).find? fun fd => decide (arg ≤ fd.val) && (current.filp fd).isNone

/-- The first entry with no count. -/
def firstFile (ft : FileTable) : Option File :=
  (List.finRange NR_FILE).find? fun f => decide ((ft f).f_count = 0)

/-! ## `sys_open` and `sys_close` -/

/-- `sys_open` up to `open_namei`. -/
def sys_open (ft : FileTable) (current : Task) (flag : UInt16) : Option Int × FileTable × Task :=
  match firstFd current 0 with
  | none => (some (-EINVAL), ft, current)
  | some fd =>
    let current := current.setClose fd false
    match firstFile ft with
    | none => (some (-EINVAL), ft, current)
    | some f => (none, ft.inc f, (current.setFilp fd (some f)).goto (.opening fd f flag))

/-- The rest of `sys_open`: `open_namei` gives an inode with its mode, or there is an error. -/
def sys_open_rest (ft : FileTable) (current : Task) (fd : Fd) (f : File) (flag : UInt16) :
    Except Int (Nat × UInt16) → Int × FileTable × Task
  | .error i => (i, ft.setCount f 0, (current.setFilp fd none).goto .user)
  | .ok (inode, i_mode) =>
    (fd.val, update ft f ⟨i_mode, flag, 1, some inode, 0⟩, current.goto .user)

/-- `sys_close`; `none` is the panic. -/
def sys_close (ft : FileTable) (current : Task) (fd : Nat) : Option (Int × FileTable × Task) :=
  if h : fd < NR_OPEN then
    let current := current.setClose ⟨fd, h⟩ false
    match current.filp ⟨fd, h⟩ with
    | none => some (-EINVAL, ft, current)
    | some filp =>
      let current := current.setFilp ⟨fd, h⟩ none
      if (ft filp).f_count = 0 then none
      else some (0, ft.setCount filp ((ft filp).f_count - 1), current)
  else some (-EINVAL, ft, current)

/-! ## `fs/fcntl.c` -/

def dupfd (ft : FileTable) (current : Task) (fd arg : Nat) : Int × FileTable × Task :=
  if h : fd < NR_OPEN then
    match current.filp ⟨fd, h⟩ with
    | none => (-EBADF, ft, current)
    | some filp =>
      if NR_OPEN ≤ arg then (-EINVAL, ft, current)
      else match firstFd current arg with
        | none => (-EMFILE, ft, current)
        | some arg =>
          (arg.val, ft.inc filp, (current.setClose arg false).setFilp arg (some filp))
  else (-EBADF, ft, current)

/-- The part of `sys_dup2` up to `dupfd`. -/
def sys_dup2 (ft : FileTable) (current : Task) (oldfd newfd : Nat) :
    Option (FileTable × Task) :=
  (sys_close ft current newfd).map fun r => (r.2.1, r.2.2.goto (.dup2 oldfd newfd))

def sys_dup (ft : FileTable) (current : Task) (fildes : Nat) : Int × FileTable × Task :=
  dupfd ft current fildes 0

def sys_fcntl (ft : FileTable) (current : Task) (fd cmd : Nat) (arg : UInt32) :
    Int × FileTable × Task :=
  if h : fd < NR_OPEN then
    match current.filp ⟨fd, h⟩ with
    | none => (-EBADF, ft, current)
    | some filp =>
      if cmd = F_DUPFD then dupfd ft current fd arg.toNat
      else if cmd = F_GETFD then ((current.close_on_exec ⟨fd, h⟩).toNat, ft, current)
      else if cmd = F_SETFD then
        (0, ft, current.setClose ⟨fd, h⟩ (decide (arg &&& 1 ≠ 0)))
      else if cmd = F_GETFL then ((ft filp).f_flags.toNat, ft, current)
      else if cmd = F_SETFL then
        (0, update ft filp { ft filp with
          f_flags := ((ft filp).f_flags &&& ~~~settable) ||| (arg.toUInt16 &&& settable) },
          current)
      else (-1, ft, current)
  else (-EBADF, ft, current)

/-! ## `sys_pipe` -/

/-- `sys_pipe` up to `get_pipe_inode`. The entries without a count and the descriptors that
are free are taken in order, and are given back where there is only one. -/
def sys_pipe (ft : FileTable) (current : Task) : Option Int × FileTable × Task :=
  match (List.finRange NR_FILE).filter fun f => decide ((ft f).f_count = 0) with
  | [] => (some (-1), ft, current)
  | [f₀] => (some (-1), (ft.inc f₀).setCount f₀ 0, current)
  | f₀ :: f₁ :: _ =>
    let ft := (ft.inc f₀).inc f₁
    match (List.finRange NR_OPEN).filter fun fd => (current.filp fd).isNone with
    | [] => (some (-1), (ft.setCount f₁ 0).setCount f₀ 0, current)
    | [fd₀] =>
      (some (-1), (ft.setCount f₁ 0).setCount f₀ 0,
        (current.setFilp fd₀ (some f₀)).setFilp fd₀ none)
    | fd₀ :: fd₁ :: _ =>
      (none, ft, ((current.setFilp fd₀ (some f₀)).setFilp fd₁ (some f₁)).goto
        (.piping fd₀ fd₁ f₀ f₁))

/-- The rest of `sys_pipe`, with what `get_pipe_inode` gives. -/
def sys_pipe_rest (ft : FileTable) (current : Task) (fd₀ fd₁ : Fd) (f₀ f₁ : File) :
    Option Nat → Int × FileTable × Task
  | none =>
    (-1, (ft.setCount f₁ 0).setCount f₀ 0,
      ((current.setFilp fd₁ none).setFilp fd₀ none).goto .user)
  | some inode =>
    let ft := update ft f₀ { ft f₀ with f_inode := some inode, f_pos := 0, f_mode := 1 }
    (0, update ft f₁ { ft f₁ with f_inode := some inode, f_pos := 0, f_mode := 2 },
      current.goto .user)

/-! ## `copy_process` -/

/-- The first free slot from 1 on. -/
def find_empty_process (s : State) : Option (Fin NR_TASKS) :=
  (List.finRange NR_TASKS).find? fun nr => decide (1 ≤ nr.val) && (s.task nr).isNone

/-- `f->f_count++` for each descriptor of the child. -/
def countFiles (ft : FileTable) (p : Task) : FileTable :=
  (List.finRange NR_OPEN).foldl (fun ft i =>
    match p.filp i with
    | none => ft
    | some f => ft.inc f) ft

/-- `copy_process` with slot `nr`; `page` and `memory` say whether there is a page for the
task structure and memory for the child. The child is given user mode. -/
def copy_process (s : State) (current : Task) (nr : Fin NR_TASKS) (page memory : Bool) :
    Int × State :=
  if page = false then (-EAGAIN, s)
  else
    let p := current.goto .user
    let s := { s with task := update s.task nr (some p) }
    if memory = false then (-EAGAIN, { s with task := update s.task nr none })
    else (0, { s with file_table := countFiles s.file_table p })

/-! ## Loops over the descriptors -/

/-- One turn of the loop of `do_execve`. -/
def exec_close (ft : FileTable) (current : Task) (i : Nat) : Option (FileTable × Task) :=
  if h : i < NR_OPEN then
    if current.close_on_exec ⟨i, h⟩ then
      (sys_close ft current i).map fun r => (r.2.1, r.2.2.goto (.execing (i + 1)))
    else some (ft, current.goto (.execing (i + 1)))
  else some (ft, { current with close_on_exec := fun _ => false, pc := .user })

/-- One turn of the loop of `do_exit`. -/
def exit_close (ft : FileTable) (current : Task) (i : Nat) : Option (FileTable × Task) :=
  if h : i < NR_OPEN then
    match current.filp ⟨i, h⟩ with
    | some _ => (sys_close ft current i).map fun r => (r.2.1, r.2.2.goto (.exiting (i + 1)))
    | none => some (ft, current.goto (.exiting (i + 1)))
  else some (ft, current.goto .zombie)

/-! ## Steps -/

/-- What a task does by itself. -/
inductive Call where
  | sys_open (flag : UInt16)
  | sys_close (fd : Nat)
  | sys_dup (fildes : Nat)
  | sys_dup2 (oldfd newfd : Nat)
  | sys_fcntl (fd cmd : Nat) (arg : UInt32)
  | sys_pipe
  | do_execve
  /-- from user mode, or for want of memory for the file name of `sys_open` -/
  | do_exit
  /-- it goes on, with what `open_namei` and `get_pipe_inode` give -/
  | go (inode : Except Int (Nat × UInt16)) (pipe : Option Nat)

inductive Act where
  | call (t : Fin NR_TASKS) (c : Call)
  /-- `copy_process` -/
  | fork (t : Fin NR_TASKS) (page memory : Bool)
  /-- a zombie is waited for, or has no father -/
  | release (nr : Fin NR_TASKS)

/-- A step of a task; `none` where it is not at such a place, or the machine has stopped. -/
def call (ft : FileTable) (current : Task) : Pc → Call → Option (FileTable × Task)
  | .user, .sys_open flag => some (sys_open ft current flag).2
  | .user, .sys_close fd => (sys_close ft current fd).map fun r => (r.2.1, r.2.2.goto .closing)
  | .user, .sys_dup fildes => some (sys_dup ft current fildes).2
  | .user, .sys_dup2 oldfd newfd => sys_dup2 ft current oldfd newfd
  | .user, .sys_fcntl fd cmd arg => some (sys_fcntl ft current fd cmd arg).2
  | .user, .sys_pipe => some (sys_pipe ft current).2
  | .user, .do_execve => some (ft, current.goto (.execing 0))
  | .user, .do_exit => some (ft, current.goto (.exiting 0))
  | .opening _ _ _, .do_exit => some (ft, current.goto (.exiting 0))
  | .opening fd f flag, .go inode _ => some (sys_open_rest ft current fd f flag inode).2
  | .closing, .go _ _ => some (ft, current.goto .user)
  | .dup2 oldfd newfd, .go _ _ => some (dupfd ft (current.goto .user) oldfd newfd).2
  | .piping fd₀ fd₁ f₀ f₁, .go _ pipe =>
    some (sys_pipe_rest ft current fd₀ fd₁ f₀ f₁ pipe).2
  | .execing i, .go _ _ => exec_close ft current i
  | .exiting i, .go _ _ => exit_close ft current i
  | _, _ => none

def step (s : State) : Act → Option State
  | .call t c => (s.task t).bind fun current =>
    (call s.file_table current current.pc c).map fun r => ⟨r.1, update s.task t (some r.2)⟩
  | .fork t page memory => (s.task t).bind fun current =>
    match current.pc, find_empty_process s with
    | .user, some nr => some (copy_process s current nr page memory).2
    | .user, none => some s
    | _, _ => none
  | .release nr => (s.task nr).bind fun p =>
    match p.pc with
    | .zombie => if nr = task0 then none else some { s with task := update s.task nr none }
    | _ => none

/-- Task 0 without descriptors, and no entry in use. -/
def start : State where
  file_table _ := .zero
  task nr := if nr = task0 then some ⟨.user, fun _ => none, fun _ => false⟩ else none

/-- The descriptor of a task. -/
def State.filp (s : State) (t : Fin NR_TASKS) (fd : Fd) : Option File :=
  (s.task t).bind fun p => p.filp fd

/-- Each entry is counted once for each descriptor that points to it, an entry that may be
taken has no descriptor, and no `sys_close` stops the machine. -/
structure Accounted (s : State) : Prop where
  count : ∀ f, (s.file_table f).f_count.toNat =
    (Finset.univ.filter fun x : Fin NR_TASKS × Fd => s.filp x.1 x.2 = some f).card
  taken : ∀ f, (s.file_table f).f_count = 0 → ∀ t fd, s.filp t fd ≠ some f
  no_panic : ∀ t current, s.task t = some current → ∀ fd,
    sys_close s.file_table current fd ≠ none

/-! ## The books of one task -/

/-- The counts are made up for by descriptors of the task, and an entry in use that it has
no descriptor of keeps its count. -/
structure Fair (ft : FileTable) (current : Task) (r : FileTable × Task) : Prop where
  even : ∀ f, (r.1 f).f_count.toNat + refs current.filp f
    = (ft f).f_count.toNat + refs r.2.filp f
  other : ∀ f, (ft f).f_count ≠ 0 → (∀ fd, current.filp fd ≠ some f) →
    (r.1 f).f_count = (ft f).f_count

/-- The descriptors of the task are among those counted, and no count is at its end. -/
def Covers (ft : FileTable) (current : Task) : Prop :=
  ∀ f, refs current.filp f ≤ (ft f).f_count.toNat ∧ (ft f).f_count.toNat < 65535

/-- What holds where a task has stopped. -/
def PcOk (ft : FileTable) (current : Task) : Prop :=
  match current.pc with
  | .opening fd f _ => current.filp fd = some f ∧ (ft f).f_count = 1
  | .piping fd₀ fd₁ f₀ f₁ => fd₀ ≠ fd₁ ∧ f₀ ≠ f₁ ∧
      current.filp fd₀ = some f₀ ∧ current.filp fd₁ = some f₁ ∧
      (ft f₀).f_count = 1 ∧ (ft f₁).f_count = 1
  | .exiting i => ∀ fd : Fd, fd.val < i → current.filp fd = none
  | .zombie => ∀ fd, current.filp fd = none
  | _ => True

variable {ft : FileTable} {current : Task} {r : FileTable × Task} {fd : Fd} {f : File}

theorem FileTable.inc_self (ft : FileTable) (f : File) :
    (ft.inc f f).f_count = (ft f).f_count + 1 := by
  simp [FileTable.inc]

theorem FileTable.inc_ne {g : File} (h : g ≠ f) : ft.inc f g = ft g := by
  simp [FileTable.inc, h]

theorem FileTable.setCount_self (ft : FileTable) (f : File) (n : UInt16) :
    (ft.setCount f n f).f_count = n := by
  simp [FileTable.setCount]

theorem FileTable.setCount_ne {g : File} {n : UInt16} (h : g ≠ f) :
    ft.setCount f n g = ft g := by
  simp [FileTable.setCount, h]

@[simp] theorem Task.setFilp_filp (p : Task) (fd : Fd) (f : Option File) :
    (p.setFilp fd f).filp = update p.filp fd f := rfl

@[simp] theorem Task.setClose_filp (p : Task) (fd : Fd) (b : Bool) :
    (p.setClose fd b).filp = p.filp := rfl

@[simp] theorem Task.setClose_pc (p : Task) (fd : Fd) (b : Bool) :
    (p.setClose fd b).pc = p.pc := rfl

@[simp] theorem Task.setFilp_pc (p : Task) (fd : Fd) (f : Option File) :
    (p.setFilp fd f).pc = p.pc := rfl

@[simp] theorem Task.goto_filp (p : Task) (pc : Pc) : (p.goto pc).filp = p.filp := rfl

@[simp] theorem Task.goto_pc (p : Task) (pc : Pc) : (p.goto pc).pc = pc := rfl

theorem toNat_inc {c : UInt16} (h : c.toNat < 65535) : (c + 1).toNat = c.toNat + 1 := by
  have h1 : (1 : UInt16).toNat = 1 := rfl
  rw [UInt16.toNat_add, h1]
  exact Nat.mod_eq_of_lt (Nat.succ_lt_succ h)

theorem toNat_dec {c : UInt16} (h : c ≠ 0) : (c - 1).toNat + 1 = c.toNat := by
  have h1 : 1 ≤ c.toNat := Nat.one_le_iff_ne_zero.mpr fun e => h (UInt16.toNat_inj.mp e)
  have hle : (1 : UInt16) ≤ c := UInt16.le_iff_toNat_le.mpr h1
  rw [UInt16.toNat_sub_of_le c 1 hle]
  exact Nat.sub_add_cancel h1

/-- Only the place of the task and what is not counted have changed. -/
theorem Fair.same (hc : ∀ f, (r.1 f).f_count = (ft f).f_count)
    (hf : r.2.filp = current.filp) : Fair ft current r where
  even f := by rw [hc f, hf]
  other f _ _ := hc f

theorem Fair.inc (hfree : current.filp fd = none) (hlt : (ft f).f_count.toNat < 65535)
    (how : (ft f).f_count = 0 ∨ ∃ fd', current.filp fd' = some f) :
    Fair ft current (ft.inc f, current.setFilp fd (some f)) where
  even g := by
    have hrefs := refs_update current.filp fd (some f) g
    rw [hfree, names_none, names_some] at hrefs
    rcases eq_or_ne f g with rfl | hne
    · rw [if_pos rfl] at hrefs
      simp only [FileTable.inc_self, toNat_inc hlt, Task.setFilp_filp]
      omega
    · rw [if_neg hne] at hrefs
      simp only [FileTable.inc_ne hne.symm, Task.setFilp_filp]
      omega
  other g hg hno := by
    refine congrArg _ (FileTable.inc_ne fun e => ?_)
    subst e
    rcases how with h0 | ⟨fd', hfd'⟩
    · exact hg h0
    · exact hno fd' hfd'

theorem Fair.dec (hfd : current.filp fd = some f) (hc : (ft f).f_count ≠ 0) :
    Fair ft current (ft.setCount f ((ft f).f_count - 1), current.setFilp fd none) where
  even g := by
    have hrefs := refs_update current.filp fd none g
    rw [hfd, names_none, names_some] at hrefs
    rcases eq_or_ne f g with rfl | hne
    · rw [if_pos rfl] at hrefs
      have := toNat_dec hc
      simp only [FileTable.setCount_self, Task.setFilp_filp]
      omega
    · rw [if_neg hne] at hrefs
      simp only [FileTable.setCount_ne hne.symm, Task.setFilp_filp]
      omega
  other g hg hno := by
    refine congrArg _ (FileTable.setCount_ne fun e => ?_)
    subst e
    exact hno fd hfd

theorem Fair.trans {r' : FileTable × Task} (h₁ : Fair ft current r) (h₂ : Fair r.1 r.2 r') :
    Fair ft current r' where
  even f := by
    have := h₁.even f
    have := h₂.even f
    omega
  other f hf hno := by
    have h := h₁.other f hf hno
    have heven := h₁.even f
    rw [h, refs_eq_zero hno] at heven
    rw [← h]
    refine h₂.other f (by rwa [h]) fun fd hfd => ?_
    have := one_le_refs hfd
    omega

/-- The place of the task and its `close_on_exec` do not count. -/
theorem Fair.congr {p : Task} (h : Fair ft current r) (hp : p.filp = r.2.filp) :
    Fair ft current (r.1, p) where
  even f := by
    rw [h.even f]
    exact congrArg _ (congrArg (refs · f) hp.symm)
  other := h.other

theorem Fair.of_filp {p : Task} (h : Fair ft p r) (hp : p.filp = current.filp) :
    Fair ft current r where
  even f := by rw [← hp, h.even f]
  other f hf hno := h.other f hf fun fd => by rw [hp]; exact hno fd

/-! ## What is free -/

theorem firstFd_spec {arg : Nat} (h : firstFd current arg = some fd) :
    current.filp fd = none := by
  have h := List.find?_some h
  rw [Bool.and_eq_true] at h
  exact Option.isNone_iff_eq_none.mp h.2

theorem firstFile_spec (h : firstFile ft = some f) : (ft f).f_count = 0 := by
  have h := List.find?_some h
  exact of_decide_eq_true h

/-- The first two of the members of a type that are free. -/
theorem free_two {n : Nat} {p : Fin n → Bool} {i j : Fin n} {l : List (Fin n)}
    (h : (List.finRange n).filter p = i :: j :: l) : p i = true ∧ p j = true ∧ i ≠ j := by
  have hmem : ∀ k ∈ i :: j :: l, p k = true := fun k hk => by
    rw [← h] at hk
    exact (List.mem_filter.mp hk).2
  have hnd : (i :: j :: l).Nodup := h ▸ (List.nodup_finRange n).filter p
  refine ⟨hmem i (by simp), hmem j (by simp), fun e => ?_⟩
  simp [e] at hnd

/-! ## What each function does -/

theorem pcOk_user {p : Task} (h : p.pc = .user) : PcOk ft p := by
  simp [PcOk, h]

theorem sys_open_spec (hcov : Covers ft current) (hpc : current.pc = .user) (flag : UInt16) :
    Fair ft current (sys_open ft current flag).2 ∧
      PcOk (sys_open ft current flag).2.1 (sys_open ft current flag).2.2 := by
  unfold sys_open
  cases hfd : firstFd current 0 with
  | none => exact ⟨Fair.same (fun _ => rfl) rfl, pcOk_user hpc⟩
  | some fd =>
      cases hf : firstFile ft with
      | none => exact ⟨Fair.same (fun _ => rfl) rfl, pcOk_user hpc⟩
      | some f =>
          have h0 := firstFile_spec hf
          have hinc := Fair.inc (firstFd_spec hfd) (hcov f).2 (Or.inl h0)
          refine ⟨hinc.congr rfl, ?_, ?_⟩
          · exact update_self ..
          · have hself := FileTable.inc_self ft f
            rw [h0] at hself
            exact hself

theorem sys_open_rest_spec {flag : UInt16} (hpc : current.pc = .opening fd f flag)
    (hok : PcOk ft current) (inode : Except Int (Nat × UInt16)) :
    Fair ft current (sys_open_rest ft current fd f flag inode).2 ∧
      (sys_open_rest ft current fd f flag inode).2.2.pc = .user := by
  rw [PcOk, hpc] at hok
  obtain ⟨hfd, hc⟩ := hok
  cases inode with
  | error i =>
      have hdec := Fair.dec hfd (by rw [hc]; decide)
      rw [hc] at hdec
      exact ⟨hdec.congr rfl, rfl⟩
  | ok x =>
      refine ⟨Fair.same (fun g => ?_) rfl, rfl⟩
      rcases eq_or_ne g f with rfl | hne
      · simp only [sys_open_rest, update_self, hc]
      · simp only [sys_open_rest, update_of_ne hne]

/-- A `sys_close` that goes through, whatever the descriptor. -/
theorem sys_close_spec {n : Nat} {x : Int × FileTable × Task}
    (h : sys_close ft current n = some x) :
    Fair ft current x.2 ∧ x.2.2.pc = current.pc ∧
      ∀ fd : Fd, fd.val = n ∨ current.filp fd = none → x.2.2.filp fd = none := by
  unfold sys_close at h
  split at h
  · rename_i hn
    cases hfd : (current.setClose ⟨n, hn⟩ false).filp ⟨n, hn⟩ with
    | none =>
        simp only [hfd, Option.some.injEq] at h
        subst h
        refine ⟨Fair.same (fun _ => rfl) rfl, rfl, fun fd hor => ?_⟩
        rcases hor with rfl | hnone
        · exact hfd
        · exact hnone
    | some f =>
        simp only [hfd] at h
        obtain ⟨hc, h⟩ := Option.ite_none_left_eq_some.mp h
        obtain rfl := Option.some.inj h
        have hfd : current.filp ⟨n, hn⟩ = some f := hfd
        refine ⟨(Fair.dec hfd hc).congr rfl, rfl, fun fd hor => ?_⟩
        rcases eq_or_ne fd ⟨n, hn⟩ with rfl | hne
        · exact update_self ..
        · rcases hor with e | hnone
          · exact absurd (Fin.ext e) hne
          · exact (update_of_ne hne ..).trans hnone
  · rename_i hn
    obtain rfl := Option.some.inj h
    refine ⟨Fair.same (fun _ => rfl) rfl, rfl, fun fd hor => ?_⟩
    rcases hor with rfl | hnone
    · exact absurd fd.isLt hn
    · exact hnone

/-- The panic of `sys_close` needs a descriptor of an entry with no count. -/
theorem sys_close_ne_none (h : ∀ fd f, current.filp fd = some f → (ft f).f_count ≠ 0) (n : Nat) :
    sys_close ft current n ≠ none := by
  unfold sys_close
  split
  · rename_i hn
    dsimp only [Task.setClose_filp]
    cases hfd : current.filp ⟨n, hn⟩ with
    | none => exact Option.some_ne_none _
    | some f =>
        dsimp only
        rw [if_neg (h _ f hfd)]
        exact Option.some_ne_none _
  · exact Option.some_ne_none _

theorem dupfd_spec (hcov : Covers ft current) (n arg : Nat) :
    Fair ft current (dupfd ft current n arg).2 ∧
      (dupfd ft current n arg).2.2.pc = current.pc := by
  have hsame : Fair ft current (ft, current) := Fair.same (fun _ => rfl) rfl
  unfold dupfd
  split
  · rename_i hn
    cases hfd : current.filp ⟨n, hn⟩ with
    | none => exact ⟨hsame, rfl⟩
    | some f =>
        dsimp only
        split
        · exact ⟨hsame, rfl⟩
        · cases harg : firstFd current arg with
          | none => exact ⟨hsame, rfl⟩
          | some arg =>
              have hinc := Fair.inc (firstFd_spec harg) (hcov f).2 (Or.inr ⟨_, hfd⟩)
              exact ⟨hinc.congr rfl, rfl⟩
  · exact ⟨hsame, rfl⟩

theorem sys_fcntl_spec (hcov : Covers ft current) (n cmd : Nat) (arg : UInt32) :
    Fair ft current (sys_fcntl ft current n cmd arg).2 ∧
      (sys_fcntl ft current n cmd arg).2.2.pc = current.pc := by
  have hsame : Fair ft current (ft, current) := Fair.same (fun _ => rfl) rfl
  unfold sys_fcntl
  split
  · rename_i hn
    cases hfd : current.filp ⟨n, hn⟩ with
    | none => exact ⟨hsame, rfl⟩
    | some f =>
        dsimp only
        split
        · exact dupfd_spec hcov n arg.toNat
        · split
          · exact ⟨hsame, rfl⟩
          · split
            · exact ⟨Fair.same (fun _ => rfl) rfl, rfl⟩
            · split
              · exact ⟨hsame, rfl⟩
              · split
                · refine ⟨Fair.same (fun g => ?_) rfl, rfl⟩
                  rcases eq_or_ne g f with rfl | hne
                  · simp only [update_self]
                  · simp only [update_of_ne hne]
                · exact ⟨hsame, rfl⟩
  · exact ⟨hsame, rfl⟩

/-- What is taken from an entry and given back leaves its count as it was. -/
theorem inc_setCount (h0 : (ft f).f_count = 0) (g : File) :
    ((ft.inc f).setCount f 0 g).f_count = (ft g).f_count := by
  rcases eq_or_ne g f with rfl | hne
  · rw [FileTable.setCount_self, h0]
  · rw [FileTable.setCount_ne hne, FileTable.inc_ne hne]

theorem inc_inc_setCount {f₀ f₁ : File} (h₀ : (ft f₀).f_count = 0) (h₁ : (ft f₁).f_count = 0)
    (g : File) :
    ((((ft.inc f₀).inc f₁).setCount f₁ 0).setCount f₀ 0 g).f_count = (ft g).f_count := by
  rcases eq_or_ne g f₀ with rfl | hne
  · rw [FileTable.setCount_self, h₀]
  · rw [FileTable.setCount_ne hne]
    rcases eq_or_ne g f₁ with rfl | hne'
    · rw [FileTable.setCount_self, h₁]
    · rw [FileTable.setCount_ne hne', FileTable.inc_ne hne', FileTable.inc_ne hne]

theorem sys_pipe_spec (hcov : Covers ft current) (hpc : current.pc = .user) :
    Fair ft current (sys_pipe ft current).2 ∧
      PcOk (sys_pipe ft current).2.1 (sys_pipe ft current).2.2 := by
  unfold sys_pipe
  split
  · exact ⟨Fair.same (fun _ => rfl) rfl, pcOk_user hpc⟩
  · rename_i f₀ hfree
    have h₀ : (ft f₀).f_count = 0 := by
      have hmem : f₀ ∈ (List.finRange NR_FILE).filter fun f => decide ((ft f).f_count = 0) := by
        rw [hfree]
        exact List.mem_singleton_self f₀
      exact of_decide_eq_true (List.mem_filter.mp hmem).2
    exact ⟨Fair.same (inc_setCount h₀) rfl, pcOk_user hpc⟩
  · rename_i f₀ f₁ _ hfree
    obtain ⟨h₀, h₁, hne⟩ := free_two hfree
    have h₀ := of_decide_eq_true h₀
    have h₁ := of_decide_eq_true h₁
    dsimp only
    split
    · exact ⟨Fair.same (inc_inc_setCount h₀ h₁) rfl, pcOk_user hpc⟩
    · rename_i fd₀ hfds
      have hfd₀ : current.filp fd₀ = none := by
        have hmem : fd₀ ∈ (List.finRange NR_OPEN).filter fun fd => (current.filp fd).isNone := by
          rw [hfds]
          exact List.mem_singleton_self fd₀
        exact Option.isNone_iff_eq_none.mp (List.mem_filter.mp hmem).2
      refine ⟨Fair.same (inc_inc_setCount h₀ h₁) ?_, pcOk_user hpc⟩
      simp only [Task.setFilp_filp, update_idem]
      rw [← hfd₀, update_eq_self]
    · rename_i fd₀ fd₁ _ hfds
      obtain ⟨hfd₀, hfd₁, hnefd⟩ := free_two hfds
      have hfd₀ := Option.isNone_iff_eq_none.mp hfd₀
      have hfd₁ : (current.setFilp fd₀ (some f₀)).filp fd₁ = none :=
        (update_of_ne hnefd.symm ..).trans (Option.isNone_iff_eq_none.mp hfd₁)
      have h₁' : (ft.inc f₀ f₁).f_count = 0 := by rw [FileTable.inc_ne hne.symm, h₁]
      have hinc₀ := Fair.inc hfd₀ (hcov f₀).2 (Or.inl h₀)
      have hlt₁ : (ft.inc f₀ f₁).f_count.toNat < 65535 := by rw [h₁']; decide
      have hinc₁ := Fair.inc hfd₁ hlt₁ (Or.inl h₁')
      refine ⟨(hinc₀.trans hinc₁).congr rfl, hnefd, hne, ?_, ?_, ?_, ?_⟩
      · exact (update_of_ne hnefd ..).trans (update_self ..)
      · exact update_self ..
      · dsimp only
        rw [FileTable.inc_ne hne, FileTable.inc_self, h₀]
        rfl
      · dsimp only
        rw [FileTable.inc_self, h₁']
        rfl

theorem sys_pipe_rest_spec {fd₀ fd₁ : Fd} {f₀ f₁ : File}
    (hpc : current.pc = .piping fd₀ fd₁ f₀ f₁) (hok : PcOk ft current) (pipe : Option Nat) :
    Fair ft current (sys_pipe_rest ft current fd₀ fd₁ f₀ f₁ pipe).2 ∧
      (sys_pipe_rest ft current fd₀ fd₁ f₀ f₁ pipe).2.2.pc = .user := by
  rw [PcOk, hpc] at hok
  obtain ⟨hnefd, hne, hfd₀, hfd₁, h₀, h₁⟩ := hok
  cases pipe with
  | none =>
      have hdec₁ := Fair.dec hfd₁ (by rw [h₁]; decide)
      have hfd₀' : (current.setFilp fd₁ none).filp fd₀ = some f₀ :=
        (update_of_ne hnefd ..).trans hfd₀
      have h₀' : (ft.setCount f₁ 0 f₀).f_count = 1 := by rw [FileTable.setCount_ne hne, h₀]
      have hpos₀ : (ft.setCount f₁ 0 f₀).f_count ≠ 0 := by rw [h₀']; decide
      have hdec₀ := Fair.dec hfd₀' hpos₀
      rw [h₁] at hdec₁
      rw [h₀'] at hdec₀
      exact ⟨(hdec₁.trans hdec₀).congr rfl, rfl⟩
  | some inode =>
      refine ⟨Fair.same (fun g => ?_) rfl, rfl⟩
      rcases eq_or_ne g f₁ with rfl | hne₁
      · simp only [sys_pipe_rest, update_self, update_of_ne hne.symm]
      · rcases eq_or_ne g f₀ with rfl | hne₀
        · simp only [sys_pipe_rest, update_self, update_of_ne hne₁]
        · simp only [sys_pipe_rest, update_of_ne hne₁, update_of_ne hne₀]

theorem exec_close_spec {i : Nat} (h : exec_close ft current i = some r) :
    Fair ft current r ∧ PcOk r.1 r.2 := by
  unfold exec_close at h
  split at h
  · split at h
    · obtain ⟨x, hx, rfl⟩ := Option.map_eq_some_iff.mp h
      exact ⟨(sys_close_spec hx).1.congr rfl, trivial⟩
    · obtain rfl := Option.some.inj h
      exact ⟨Fair.same (fun _ => rfl) rfl, trivial⟩
  · obtain rfl := Option.some.inj h
    exact ⟨Fair.same (fun _ => rfl) rfl, trivial⟩

/-- The loop of `do_exit` leaves no descriptor behind it. -/
theorem exit_close_spec {i : Nat} (hpc : current.pc = .exiting i) (hok : PcOk ft current)
    (h : exit_close ft current i = some r) : Fair ft current r ∧ PcOk r.1 r.2 := by
  rw [PcOk, hpc] at hok
  unfold exit_close at h
  split at h
  · rename_i hi
    cases hfd : current.filp ⟨i, hi⟩ with
    | some f =>
        simp only [hfd] at h
        obtain ⟨x, hx, rfl⟩ := Option.map_eq_some_iff.mp h
        obtain ⟨hfair, -, hnone⟩ := sys_close_spec hx
        refine ⟨hfair.congr rfl, fun fd hlt => hnone fd ?_⟩
        rcases Nat.lt_succ_iff_lt_or_eq.mp hlt with hlt | heq
        · exact Or.inr (hok fd hlt)
        · exact Or.inl heq
    | none =>
        simp only [hfd] at h
        obtain rfl := Option.some.inj h
        refine ⟨Fair.same (fun _ => rfl) rfl, fun fd hlt => ?_⟩
        rcases Nat.lt_succ_iff_lt_or_eq.mp hlt with hlt | heq
        · exact hok fd hlt
        · obtain rfl : fd = ⟨i, hi⟩ := Fin.ext heq
          exact hfd
  · rename_i hi
    obtain rfl := Option.some.inj h
    exact ⟨Fair.same (fun _ => rfl) rfl, fun fd =>
      hok fd (Nat.lt_of_lt_of_le fd.isLt (Nat.le_of_not_lt hi))⟩

/-- Every step of a task keeps its books, and it stops where it may. -/
theorem call_spec {c : Call} (hcov : Covers ft current) (hok : PcOk ft current)
    (h : call ft current current.pc c = some r) : Fair ft current r ∧ PcOk r.1 r.2 := by
  have hgoto : ∀ pc, Fair ft current (ft, current.goto pc) := fun _ =>
    Fair.same (fun _ => rfl) rfl
  have huser : ∀ {x : Int × FileTable × Task}, Fair ft current x.2 ∧ x.2.2.pc = .user →
      some x.2 = some r → Fair ft current r ∧ PcOk r.1 r.2 := fun hx h => by
    obtain rfl := Option.some.inj h
    exact ⟨hx.1, pcOk_user hx.2⟩
  unfold call at h
  split at h
  case h_1 flag hpc =>
      obtain rfl := Option.some.inj h
      exact sys_open_spec hcov hpc flag
  case h_2 fd hpc =>
      obtain ⟨x, hx, rfl⟩ := Option.map_eq_some_iff.mp h
      exact ⟨(sys_close_spec hx).1.congr rfl, trivial⟩
  case h_3 fildes hpc =>
      have hspec := dupfd_spec hcov fildes 0
      exact huser ⟨hspec.1, hspec.2.trans hpc⟩ h
  case h_4 oldfd newfd hpc =>
      obtain ⟨x, hx, rfl⟩ := Option.map_eq_some_iff.mp h
      exact ⟨(sys_close_spec hx).1.congr rfl, trivial⟩
  case h_5 fd cmd arg hpc =>
      have hspec := sys_fcntl_spec hcov fd cmd arg
      exact huser ⟨hspec.1, hspec.2.trans hpc⟩ h
  case h_6 hpc =>
      obtain rfl := Option.some.inj h
      exact sys_pipe_spec hcov hpc
  case h_7 hpc =>
      obtain rfl := Option.some.inj h
      exact ⟨hgoto _, trivial⟩
  case h_8 hpc =>
      obtain rfl := Option.some.inj h
      exact ⟨hgoto _, fun _ hlt => absurd hlt (Nat.not_lt_zero _)⟩
  case h_9 fd f flag hpc =>
      obtain rfl := Option.some.inj h
      exact ⟨hgoto _, fun _ hlt => absurd hlt (Nat.not_lt_zero _)⟩
  case h_10 fd f flag inode pipe hpc =>
      exact huser (sys_open_rest_spec hpc hok inode) h
  case h_11 inode pipe hpc =>
      obtain rfl := Option.some.inj h
      exact ⟨hgoto _, trivial⟩
  case h_12 oldfd newfd inode pipe hpc =>
      have hcov' : Covers ft (current.goto .user) := hcov
      have hspec := dupfd_spec hcov' oldfd newfd
      exact huser ⟨hspec.1.of_filp rfl, hspec.2⟩ h
  case h_13 fd₀ fd₁ f₀ f₁ inode pipe hpc =>
      exact huser (sys_pipe_rest_spec hpc hok pipe) h
  case h_14 i inode pipe hpc => exact exec_close_spec h
  case h_15 i inode pipe hpc => exact exit_close_spec hpc hok h
  case h_16 => cases h

/-! ## The books of all tasks -/

/-- The descriptors of a task that point to the entry. -/
def weight (f : File) : Option Task → Nat
  | none => 0
  | some p => refs p.filp f

/-- The counts are those of the descriptors of all tasks, and each task has what it needs at
its place. -/
structure Consistent (s : State) : Prop where
  count : ∀ f, (s.file_table f).f_count.toNat = tally (weight f) s.task
  places : ∀ t p, s.task t = some p → PcOk s.file_table p

variable {s s' : State} {t nr : Fin NR_TASKS} {p : Task}

theorem weight_le (f : File) (x : Option Task) : weight f x ≤ NR_OPEN := by
  cases x with
  | none => exact Nat.zero_le _
  | some p =>
      have hle : refs p.filp f ≤ (Finset.univ : Finset Fd).card :=
        refs_le_card (fun fd => Finset.mem_univ (id fd)) fun _ _ _ _ h => h
      rwa [Finset.card_univ, Fintype.card_fin] at hle

theorem tally_weight_lt (f : File) (task : Fin NR_TASKS → Option Task) :
    tally (weight f) task < 65535 := by
  have hle := Finset.sum_le_card_nsmul Finset.univ (fun t => weight f (task t)) NR_OPEN
    fun t _ => weight_le f (task t)
  rw [Finset.card_univ, Fintype.card_fin] at hle
  exact Nat.lt_of_le_of_lt hle (by decide)

theorem Consistent.covers (h : Consistent s) (ht : s.task t = some p) :
    Covers s.file_table p := fun f => by
  have hle := le_tally (weight f) s.task t
  rw [ht, ← h.count f] at hle
  exact ⟨hle, (h.count f).trans_lt (tally_weight_lt f s.task)⟩

/-- An entry with one count has its descriptor in one task only. -/
theorem Consistent.alone {t' : Fin NR_TASKS} {p' : Task} (h : Consistent s)
    (ht : s.task t = some p) (ht' : s.task t' = some p') (hne : t' ≠ t)
    (hc : (s.file_table f).f_count = 1) (hfd : p'.filp fd = some f) (fd' : Fd) :
    p.filp fd' ≠ some f := fun hfd' => by
  have hle := add_le_tally (w := weight f) (f := s.task) hne
  rw [ht, ht', ← h.count f, hc] at hle
  have h₁ : 1 ≤ weight f (some p) := one_le_refs hfd'
  have h₂ : 1 ≤ weight f (some p') := one_le_refs hfd
  have h₃ : (1 : UInt16).toNat = 1 := rfl
  omega

/-- Where a task has stopped does not depend on the entries of the others. -/
theorem PcOk.frame {ft' : FileTable} (h : PcOk ft p)
    (heq : ∀ fd f, p.filp fd = some f → (ft f).f_count = 1 →
      (ft' f).f_count = (ft f).f_count) : PcOk ft' p := by
  unfold PcOk at h ⊢
  cases hpc : p.pc with
  | opening fd f flag =>
      simp only [hpc] at h
      exact ⟨h.1, (heq fd f h.1 h.2).trans h.2⟩
  | piping fd₀ fd₁ f₀ f₁ =>
      simp only [hpc] at h
      obtain ⟨hnefd, hne, hfd₀, hfd₁, h₀, h₁⟩ := h
      exact ⟨hnefd, hne, hfd₀, hfd₁, (heq fd₀ f₀ hfd₀ h₀).trans h₀,
        (heq fd₁ f₁ hfd₁ h₁).trans h₁⟩
  | exiting i =>
      simp only [hpc] at h
      exact h
  | zombie =>
      simp only [hpc] at h
      exact h
  | _ => trivial

theorem Consistent.call (h : Consistent s) (ht : s.task t = some p)
    (hfair : Fair s.file_table p r) (hok : PcOk r.1 r.2) :
    Consistent ⟨r.1, update s.task t (some r.2)⟩ where
  count f := by
    have heven := hfair.even f
    have htally := tally_update (weight f) s.task t (some r.2)
    have hcount := h.count f
    rw [ht] at htally
    simp only [weight] at htally
    simp only
    omega
  places t' p' ht' := by
    dsimp only at ht' ⊢
    rcases eq_or_ne t' t with rfl | hne
    · rw [update_self] at ht'
      obtain rfl := Option.some.inj ht'
      exact hok
    · rw [update_of_ne hne] at ht'
      refine (h.places t' p' ht').frame fun fd f hfd hc => hfair.other f ?_ ?_
      · rw [hc]
        decide
      · exact h.alone ht ht' hne hc hfd

/-- The loop of `copy_process` adds as many counts to an entry as the child has descriptors
of it. -/
theorem countFiles_count (ft : FileTable) (p : Task) (f : File) :
    (countFiles ft p f).f_count = (ft f).f_count + UInt16.ofNat (refs p.filp f) := by
  have hloop : ∀ (l : List Fd) (ft : FileTable),
      (l.foldl (fun ft i => match p.filp i with | none => ft | some f => ft.inc f) ft f).f_count
        = (ft f).f_count + UInt16.ofNat (l.map fun i => names f (p.filp i)).sum := by
    intro l
    induction l with
    | nil => intro ft; simp
    | cons i l ih =>
        intro ft
        rw [List.foldl_cons, ih, List.map_cons, List.sum_cons, UInt16.ofNat_add,
          ← UInt16.add_assoc]
        refine congrArg (· + _) ?_
        cases hi : p.filp i with
        | none => simp
        | some g =>
            rw [names_some]
            rcases eq_or_ne g f with rfl | hne
            · rw [if_pos rfl]
              exact FileTable.inc_self ft g
            · rw [if_neg hne]
              dsimp only
              rw [FileTable.inc_ne hne.symm]
              simp
  have hsum : refs p.filp f = ((List.finRange NR_OPEN).map fun i => names f (p.filp i)).sum :=
    Fin.sum_univ_def _
  rw [hsum]
  exact hloop _ ft

theorem Consistent.fork {p' : Task} (h : Consistent s) (ht : s.task t = some p)
    (hpc : p.pc = .user) (hnr : s.task nr = none) (hfilp : p'.filp = p.filp)
    (hpc' : p'.pc = .user) :
    Consistent ⟨countFiles s.file_table p', update s.task nr (some p')⟩ where
  count f := by
    have htally := tally_update (weight f) s.task nr (some p')
    rw [hnr] at htally
    simp only [weight, Nat.add_zero] at htally
    have hlt := tally_weight_lt f (update s.task nr (some p'))
    rw [countFiles_count, UInt16.toNat_add, UInt16.toNat_ofNat', Nat.add_mod_mod, h.count f,
      ← htally]
    exact Nat.mod_eq_of_lt (Nat.lt_succ_of_lt hlt)
  places t' q ht' := by
    dsimp only at ht' ⊢
    rcases eq_or_ne t' nr with rfl | hne
    · rw [update_self] at ht'
      obtain rfl := Option.some.inj ht'
      exact pcOk_user hpc'
    · rw [update_of_ne hne] at ht'
      rcases eq_or_ne t' t with rfl | hnet
      · obtain rfl := Option.some.inj (ht.symm.trans ht')
        exact pcOk_user hpc
      · refine (h.places t' q ht').frame fun fd f hfd hc => ?_
        have h0 : refs p'.filp f = 0 := by
          rw [hfilp]
          exact refs_eq_zero (h.alone ht ht' hnet hc hfd)
        rw [countFiles_count, h0]
        simp

theorem Consistent.release (h : Consistent s) (hnr : s.task nr = some p)
    (hpc : p.pc = .zombie) : Consistent { s with task := update s.task nr none } where
  count f := by
    have hok := h.places nr p hnr
    rw [PcOk, hpc] at hok
    have hnone : refs p.filp f = 0 := refs_eq_zero fun fd => by
      rw [hok fd]
      exact (Option.some_ne_none f).symm
    have htally := tally_update (weight f) s.task nr none
    rw [hnr] at htally
    simp only [weight, hnone, Nat.add_zero] at htally
    rw [htally]
    exact h.count f
  places t q ht := by
    dsimp only at ht
    rcases eq_or_ne t nr with rfl | hne
    · rw [update_self] at ht
      cases ht
    · rw [update_of_ne hne] at ht
      exact h.places t q ht

theorem find_empty_process_spec (h : find_empty_process s = some nr) : s.task nr = none := by
  have h := List.find?_some h
  rw [Bool.and_eq_true] at h
  exact Option.isNone_iff_eq_none.mp h.2

theorem Consistent.step {a : Act} (h : Consistent s) (hs : step s a = some s') :
    Consistent s' := by
  cases a with
  | call t c =>
      obtain ⟨p, ht, hs⟩ := Option.bind_eq_some_iff.mp hs
      obtain ⟨r, hr, rfl⟩ := Option.map_eq_some_iff.mp hs
      obtain ⟨hfair, hok⟩ := call_spec (h.covers ht) (h.places t p ht) hr
      exact h.call ht hfair hok
  | fork t page memory =>
      obtain ⟨p, ht, hs⟩ := Option.bind_eq_some_iff.mp hs
      split at hs
      · rename_i nr hpc hfind
        have hnr := find_empty_process_spec hfind
        obtain rfl := Option.some.inj hs
        unfold copy_process
        split
        · exact h
        · split
          · dsimp only
            rw [update_idem, ← hnr, update_eq_self]
            exact h
          · exact h.fork ht hpc hnr rfl rfl
      · obtain rfl := Option.some.inj hs
        exact h
      · cases hs
  | release nr =>
      obtain ⟨p, hnr, hs⟩ := Option.bind_eq_some_iff.mp hs
      split at hs
      · rename_i hpc
        obtain ⟨-, hs⟩ := Option.ite_none_left_eq_some.mp hs
        obtain rfl := Option.some.inj hs
        exact h.release hnr hpc
      · cases hs

theorem Consistent.init : Consistent start where
  count f := by
    have h0 : tally (weight f) start.task = 0 := tally_eq_zero fun t => by
      unfold start
      dsimp only
      split
      · exact refs_eq_zero fun fd => (Option.some_ne_none f).symm
      · rfl
    rw [h0]
    rfl
  places t p ht := by
    refine pcOk_user ?_
    obtain ⟨-, ht⟩ := Option.ite_none_right_eq_some.mp ht
    obtain rfl := Option.some.inj ht
    rfl

theorem card_filp (s : State) (f : File) :
    (Finset.univ.filter fun x : Fin NR_TASKS × Fd => s.filp x.1 x.2 = some f).card
      = tally (weight f) s.task := by
  rw [Finset.card_filter, Fintype.sum_prod_type]
  refine Finset.sum_congr rfl fun t _ => ?_
  change (∑ fd, if (s.task t).bind (fun p => p.filp fd) = some f then 1 else 0) = _
  generalize s.task t = x
  cases x with
  | none => exact Finset.sum_eq_zero fun fd _ => if_neg (Option.some_ne_none f).symm
  | some p => rfl

theorem Consistent.accounted (h : Consistent s) : Accounted s := by
  have hpos : ∀ t fd f, s.filp t fd = some f → (s.file_table f).f_count ≠ 0 := by
    intro t fd f hfd h0
    obtain ⟨p, ht, hfd⟩ := Option.bind_eq_some_iff.mp hfd
    have hle : 1 ≤ weight f (some p) := one_le_refs hfd
    have htally := le_tally (weight f) s.task t
    rw [ht, ← h.count f, h0] at htally
    exact absurd (hle.trans htally) (by decide)
  constructor
  · intro f
    rw [card_filp, h.count f]
  · intro f h0 t fd hfd
    exact hpos t fd f hfd h0
  · intro t p ht
    refine sys_close_ne_none fun fd f hfd => hpos t fd f ?_
    exact Option.bind_eq_some_iff.mpr ⟨p, ht, hfd⟩

/-- In every state of every run of any tasks, through opens, closes, duplicates, pipes,
forks, `execve` and exits with their sleeps, the count of an entry of the file table is
the number of descriptors that point to it. So an entry that may be taken has no
descriptor, and no `sys_close` finds a count of 0 and stops the machine. -/
theorem file_counts (h : Reach step Free start s) : Accounted s :=
  Consistent.accounted <| h.invariant Consistent.init fun _ _ _ hc _ hs => hc.step hs

/-- Task 0 opens a file, duplicates its descriptor and forks. -/
def openDupFork : List Act := [
  .call task0 (.sys_open 0), .call task0 (.go (.ok (7, 0)) none), .call task0 (.sys_dup 0),
  .fork task0 true true]

theorem file_counts_openDupFork : ∃ s, exec step start openDupFork = some s ∧
    (s.file_table file0).f_count.toNat = 4 ∧ Accounted s := by
  obtain ⟨s, hs, hc⟩ : ∃ s, exec step start openDupFork = some s ∧
      (s.file_table file0).f_count.toNat = 4 := exec_any (by decide +kernel)
  exact ⟨s, hs, hc, file_counts (exec_reach hs)⟩

end Files

end Linux011
