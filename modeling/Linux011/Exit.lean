import Linux011.Runs
import Linux011.Scheduler
import Linux011.Tally

/-!
# The end of a process

`kernel/exit.c` with the part of `fork` that gives a task its slot, its pid and its father. A task
is named by its slot. `do_exit` can sleep while it closes the files of its task, so it is cut
there: `exitBegin` gives the children to task 1, `exitEnd` makes a zombie of the task and tells its
father. `sys_waitpid` is cut where it sleeps.

Which task `schedule` switches to is left open, but it is one that can run, or task 0. What
`fork` and `do_exit` do to pages, files and inodes is not here.

The two histories, the pids and codes of the tasks that have ended and of those that were
reported, are written in `step` from the action and the answer of `sys_waitpid`, and no function
reads them. The loops over the tasks are recursions over the list of slots in the order of the
source, and a round is a definition of its own, so that what a signal, an adoption or a scan does
to one task can be said about one task. `Supervised` is what the results assume about two
programs: task 0 forks once and idles, and `init` does not end. Everybody else may do what it
likes, in any order.
-/

namespace Linux011

open Function Runs Tally

namespace Exit

abbrev Slot := Fin Sched.NR_TASKS

-- with the zero of the numerals of `Fin`
instance : @NeZero Nat Zero.ofOfNat0 Sched.NR_TASKS := ⟨Nat.succ_ne_zero 63⟩

def EPERM : Int := 1
def ESRCH : Int := 3
def EINTR : Int := 4
def ECHILD : Int := 10
def EINVAL : Int := 22

def SIGHUP : BitVec 32 := 1
def SIGCHLD : BitVec 32 := 17

def WNOHANG : BitVec 32 := 1
def WUNTRACED : BitVec 32 := 2

/-- Where in the kernel a task has given up the processor. -/
inductive Doing where
  | user
  /-- behind the `schedule` of `sys_waitpid` -/
  | waiting (pid options : BitVec 32)
  /-- in `do_exit`, while it gives back what the task holds -/
  | exiting (code : BitVec 32)
deriving DecidableEq

def Doing.inWait : Doing → Bool
  | .waiting _ _ => true
  | _ => false

structure Task extends SchedTask where
  exit_code : BitVec 32
  pid : BitVec 32
  father : BitVec 32
  pgrp : BitVec 32
  session : BitVec 32
  leader : Bool
  euid : BitVec 16
  utime : BitVec 32
  stime : BitVec 32
  cutime : BitVec 32
  cstime : BitVec 32
  start_time : BitVec 32
  tty : Int
  doing : Doing
deriving DecidableEq

/-- `exited` and `reaped` are history, and only `step` writes them: the pids and codes of the tasks
that have ended, and those that `sys_waitpid` has told a father. -/
structure State where
  task : Slot → Option Task
  current : Slot
  last_pid : BitVec 32
  jiffies : BitVec 32
  /-- `tty_table[].pgrp` -/
  ttyPgrp : Nat → BitVec 32
  exited : List (BitVec 32 × BitVec 32)
  reaped : List (BitVec 32 × BitVec 32)

/-- All tasks but task 0, from `LAST_TASK` on. -/
def others : List Slot := (List.finRange Sched.NR_TASKS).tail.reverse

def State.modify (s : State) (i : Slot) (f : Task → Task) : State :=
  { s with task := update s.task i ((s.task i).map f) }

/-! ## schedule -/

def checkSignals (jiffies : BitVec 32) (p : Task) : Task :=
  { p with toSchedTask := Sched.checkSignals jiffies p.toSchedTask }

/-- A loop over all tasks but task 0. -/
def State.forOthers (s : State) (f : Task → Task) : State :=
  { s with task := fun i => if i ∈ others then (s.task i).map f else s.task i }

/-- `schedule`, when it switches to `next`. -/
def schedule (s : State) (next : Slot) : Option State :=
  let s := s.forOthers (checkSignals s.jiffies)
  if next = 0 ∨ (s.task next).any fun p => p.state = .running then some { s with current := next }
  else none

/-! ## Signals -/

def Task.signalled (p : Task) (sig : BitVec 32) : Task :=
  { p with signal := p.signal ||| sigBit sig.toNat }

/-- `send_sig` of the task `me`. -/
def sendSig (me : Task) (s : State) (sig : BitVec 32) (i : Slot) (priv : Bool) : Int × State :=
  match s.task i with
  | none => (-EINVAL, s)
  | some p =>
      if sig.slt 1 ∨ (32 : BitVec 32).slt sig then (-EINVAL, s)
      else if priv ∨ me.euid = p.euid ∨ me.euid = 0 then (0, s.modify i (·.signalled sig))
      else (-EPERM, s)

/-- A round of a loop of `sys_kill`. -/
def killOne (me : Task) (sig : BitVec 32) (priv : Bool) (r : Int × State) (i : Slot) :
    Int × State :=
  let (err, s) := sendSig me r.2 sig i priv
  (if err ≠ 0 then err else r.1, s)

/-- The tasks that `sys_kill` sends a signal to. A call for -1 does not ask if there is a task. -/
def Addressed (me : Task) (pid : BitVec 32) (p : Option Task) : Bool :=
  if pid = 0 then p.any fun p => p.pgrp = me.pid
  else if (0 : BitVec 32).slt pid then p.any fun p => p.pid = pid
  else if pid = -1 then true
  else p.any fun p => p.pgrp = -pid

def sysKill (me : Task) (s : State) (pid sig : BitVec 32) : Int × State :=
  others.foldl (fun r i => if Addressed me pid (r.2.task i) then killOne me sig (pid = 0) r i
    else r) (0, s)

def killSession (me : Task) (s : State) : State :=
  s.forOthers fun p => if p.session = me.session then p.signalled SIGHUP else p

/-! ## do_exit -/

/-- `release`: the slot is empty, and the page of the task free. Task 0 is not found. -/
def release (s : State) (i : Slot) : Option State :=
  if i = 0 then none else some { s with task := update s.task i none }

/-- The first task with a pid. -/
def findTask (s : State) (pid : BitVec 32) : Option Slot :=
  (List.finRange Sched.NR_TASKS).find? fun i => (s.task i).any fun p => p.pid = pid

/-- `tell_father`: a task without a father releases itself. -/
def tellFather (s : State) (pid : BitVec 32) : Option State :=
  match (if pid = 0 then none else findTask s pid) with
  | some i => some (s.modify i (·.signalled SIGCHLD))
  | none => release s s.current

/-- A round of the loop over the children. -/
def adopt (me : Task) (s : State) (i : Slot) : State :=
  match s.task i with
  | none => s
  | some p =>
      if p.father = me.pid then
        let s := s.modify i fun p => { p with father := 1 }
        if p.state = .zombie then (sendSig me s SIGCHLD 1 true).2 else s
      else s

/-- `do_exit`, up to the files. -/
def exitBegin (me : Task) (s : State) (code : BitVec 32) : State :=
  ((List.finRange Sched.NR_TASKS).foldl (adopt me) s).modify s.current fun p =>
    { p with doing := .exiting code }

/-- `do_exit`, behind the inodes and up to `schedule`. -/
def exitEnd (me : Task) (s : State) (code : BitVec 32) : Option State :=
  let s := if me.leader ∧ 0 ≤ me.tty then
      { s with ttyPgrp := update s.ttyPgrp me.tty.toNat 0 }
    else s
  let s := if me.leader then killSession me s else s
  tellFather (s.modify s.current fun p => { p with state := .zombie, exit_code := code }) me.father

/-! ## sys_waitpid -/

/-- The tests of a task that is not the current one. -/
def Awaited (me : Task) (pid : BitVec 32) (p : Task) : Prop :=
  p.father = me.pid ∧
    if (0 : BitVec 32).slt pid then p.pid = pid
    else if pid = 0 then p.pgrp = me.pgrp
    else pid = -1 ∨ p.pgrp = -pid

instance (me : Task) (pid : BitVec 32) (p : Task) : Decidable (Awaited me pid p) :=
  inferInstanceAs (Decidable (_ ∧ _))

/-- How the scan ends: with a child, or with `flag`. -/
inductive Scanned where
  | stopped (i : Slot)
  | zombie (i : Slot)
  | flag (alive : Bool)
deriving DecidableEq

/-- The scan of `sys_waitpid` over the slots that are left. -/
def scan (me : Task) (s : State) (pid options : BitVec 32) : List Slot → Bool → Scanned
  | [], flag => .flag flag
  | i :: is, flag =>
      match s.task i with
      | none => scan me s pid options is flag
      | some p =>
          if i = s.current ∨ ¬Awaited me pid p then scan me s pid options is flag
          else match p.state with
            | .stopped =>
                if options &&& WUNTRACED = 0 then scan me s pid options is flag else .stopped i
            | .zombie => .zombie i
            | _ => scan me s pid options is true

/-- The zombie `q` in slot `i` is gone, and its times and its code are with its father. -/
def reap (s : State) (i : Slot) (q : Task) : Option State :=
  release (s.modify s.current fun p =>
    { p with cutime := p.cutime + q.utime, cstime := p.cstime + q.stime, doing := .user }) i

/-- How a call of `sys_waitpid` ends. For a child it returns the pid, and stores the code through
`stat_addr`, or 0x7f if the child is stopped. -/
inductive Answer where
  | stopped (pid : BitVec 32)
  | ended (pid code : BitVec 32)
  | zero
  | error (err : Int)

def returns (s : State) (answer : Answer) : State × Option Answer :=
  (s.modify s.current fun p => { p with doing := .user }, some answer)

/-- `sys_waitpid` from `repeat` on, with `next` for the call of `schedule`. It has no answer as long
as it sleeps. -/
def waitRepeat (me : Task) (s : State) (pid options : BitVec 32) (next : Slot) :
    Option (State × Option Answer) :=
  match scan me s pid options others false with
  | .stopped i => (s.task i).map fun q => returns s (.stopped q.pid)
  | .zombie i =>
      match s.task i with
      | none => none
      | some q => (reap s i q).bind fun s =>
          (schedule s next).map fun s => (s, some (.ended q.pid q.exit_code))
  | .flag false => some (returns s (.error (-ECHILD)))
  | .flag true =>
      if options &&& WNOHANG ≠ 0 then some (returns s .zero)
      else (schedule (s.modify s.current fun p =>
        { p with state := .interruptible, doing := .waiting pid options }) next).map fun s =>
          (s, none)

/-- `sys_waitpid` behind `schedule`: another signal interrupts it. -/
def waitResume (me : Task) (s : State) (pid options : BitVec 32) (next : Slot) :
    Option (State × Option Answer) :=
  let signal := me.signal &&& ~~~sigBit SIGCHLD.toNat
  let s := s.modify s.current fun p => { p with signal := signal }
  if signal = 0 then waitRepeat { me with signal := signal } s pid options next
  else some (returns s (.error (-EINTR)))

/-! ## find_empty_process -/

/-- `if ((++last_pid)<0) last_pid=1;` -/
def nextPid (pid : BitVec 32) : BitVec 32 := if (pid + 1).slt 0 then 1 else pid + 1

def Used (s : State) (pid : BitVec 32) : Bool := (findTask s pid).isSome

/-- The loop for a pid that no task has, with a bound for its rounds. -/
def freshPid (s : State) : Nat → BitVec 32 → Option (BitVec 32)
  | 0, _ => none
  | n + 1, last =>
      if Used s (nextPid last) then freshPid s n (nextPid last) else some (nextPid last)

/-- `find_empty_process`: the new `last_pid`, and the slot if there is one. -/
def findEmptyProcess (s : State) : Option (BitVec 32 × Option Slot) :=
  (freshPid s (Sched.NR_TASKS + 1) s.last_pid).map fun pid =>
    (pid, (List.finRange Sched.NR_TASKS).tail.find? fun i => (s.task i).isNone)

/-- What `copy_process` writes into the copy of the current task. -/
def child (s : State) (me : Task) : Task :=
  { me with
    toSchedTask := Sched.copyProcess me.toSchedTask
    pid := s.last_pid, father := me.pid, leader := false
    utime := 0, stime := 0, cutime := 0, cstime := 0, start_time := s.jiffies, doing := .user }

/-- `sys_fork`; `memory` says if there is memory for `copy_process`. -/
def sysFork (me : Task) (s : State) (memory : Bool) : Option State :=
  (findEmptyProcess s).map fun (pid, nr) =>
    let s := { s with last_pid := pid }
    match nr, memory with
    | some nr, true => { s with task := update s.task nr (some (child s me)) }
    | _, _ => s

/-! ## Sessions -/

def sysSetpgid (me : Task) (s : State) (pid pgid : BitVec 32) : Int × State :=
  let pid := if pid = 0 then me.pid else pid
  let pgid := if pgid = 0 then me.pid else pgid
  match findTask s pid with
  | none => (-ESRCH, s)
  | some i =>
      if (s.task i).any fun p => p.leader then (-EPERM, s)
      else if (s.task i).any fun p => p.session ≠ me.session then (-EPERM, s)
      else (0, s.modify i fun p => { p with pgrp := pgid })

def sysSetsid (me : Task) (s : State) : Int × State :=
  if me.leader ∧ me.euid ≠ 0 then (-EPERM, s)
  else (0, s.modify s.current fun p =>
    { p with leader := true, session := p.pid, pgrp := p.pid, tty := -1 })

/-! ## Runs -/

/-- What the current task does, up to the next switch; `wakeUp` and `tick` come from interrupts and
from what other parts of the kernel do. `deliver` is a signal that `ret_from_sys_call` takes from
the pending ones, `mask` and `become` are a new `blocked` and a new effective user. -/
inductive Act where
  | fork (memory : Bool)
  | exit (code : BitVec 32)
  | exitEnd (next : Slot)
  | waitpid (pid options : BitVec 32) (next : Slot)
  | resume (next : Slot)
  | kill (pid sig : BitVec 32)
  | setpgid (pid pgid : BitVec 32)
  | setsid
  | deliver (nr : Fin 32)
  | mask (blocked : BitVec 32)
  | alarm (seconds : BitVec 32)
  | become (euid : BitVec 16)
  | pause (next : Slot)
  | sleep (state : TaskState) (next : Slot)
  | preempt (next : Slot)
  | tick (cpl : Bool)
  | wakeUp (i : Slot)

/-- The states of `sleep_on` and `interruptible_sleep_on`. -/
def Asleep (state : TaskState) : Prop := state = .interruptible ∨ state = .uninterruptible

instance (state : TaskState) : Decidable (Asleep state) := inferInstanceAs (Decidable (_ ∨ _))

/-- What a task does that is outside of `do_exit` and `sys_waitpid`. -/
def userStep (me : Task) (s : State) : Act → Option State
  | .fork memory => sysFork me s memory
  | .exit code => some (exitBegin me s code)
  | .kill pid sig => some (sysKill me s pid sig).2
  | .setpgid pid pgid => some (sysSetpgid me s pid pgid).2
  | .setsid => some (sysSetsid me s).2
  | .deliver nr => some (s.modify s.current fun p =>
      { p with signal := p.signal &&& ~~~sigBit (nr + 1) })
  | .mask blocked => some (s.modify s.current fun p => { p with blocked := blocked })
  | .alarm seconds => some (s.modify s.current fun p =>
      { p with toSchedTask := Sched.sysAlarm s.jiffies seconds p.toSchedTask })
  | .become euid => some (s.modify s.current fun p => { p with euid := euid })
  | .pause next => schedule (s.modify s.current fun p => { p with state := .interruptible }) next
  | _ => none

/-- The end that an answer tells a father. -/
def reports : Option Answer → List (BitVec 32 × BitVec 32)
  | some (.ended pid code) => [(pid, code)]
  | _ => []

/-- The state behind a call of `sys_waitpid`, with its answer in the history. -/
def answered (r : State × Option Answer) : State := { r.1 with reaped := reports r.2 ++ r.1.reaped }

def step (s : State) (a : Act) : Option State :=
  match s.task s.current with
  | none => none
  | some me =>
      match a with
      | .exitEnd next =>
          match me.doing with
          | .exiting code => (exitEnd me s code).bind fun s =>
              schedule { s with exited := (me.pid, code) :: s.exited } next
          | _ => none
      | .waitpid pid options next =>
          if me.doing = .user then (waitRepeat me s pid options next).map answered else none
      | .resume next =>
          match me.doing with
          | .waiting pid options => (waitResume me s pid options next).map answered
          | _ => none
      | .sleep state next =>
          if Asleep state ∧ me.doing.inWait = false then
            schedule (s.modify s.current fun p => { p with state := state }) next
          else none
      | .preempt next => schedule s next
      | .tick cpl => some ({ s with jiffies := s.jiffies + 1 }.modify s.current fun p =>
          { p with
            toSchedTask := Sched.countTick p.toSchedTask
            utime := if cpl then p.utime + 1 else p.utime
            stime := if cpl then p.stime else p.stime + 1 })
      | .wakeUp i =>
          if (s.task i).any fun p => decide (Asleep p.state) then
            some (s.modify i fun p => { p with state := .running })
          else none
      | a => if me.doing = .user then userStep me s a else none

/-- `INIT_TASK`. -/
def initTask : Task where
  toSchedTask := Sched.initTask
  exit_code := 0
  pid := 0
  father := -1
  pgrp := 0
  session := 0
  leader := false
  euid := 0
  utime := 0
  stime := 0
  cutime := 0
  cstime := 0
  start_time := 0
  tty := -1
  doing := .user

def boot : State where
  task i := if i = 0 then some initTask else none
  current := 0
  last_pid := 0
  jiffies := 0
  ttyPgrp _ := 0
  exited := []
  reaped := []

/-- What task 0 does in `init/main.c`: it forks once, and then only pauses. -/
def Idles (s : State) : Act → Bool
  | .fork _ => s.last_pid = 0
  | .pause _ | .preempt _ | .tick _ | .wakeUp _ => true
  | _ => false

/-- What `init` does in `init/main.c`: it does not return. -/
def StaysOn : Act → Bool
  | .exit _ => false
  | _ => true

def Supervised (s : State) (a : Act) : Prop :=
  (s.current = 0 → Idles s a = true) ∧ (s.current = 1 → StaysOn a = true)

instance (s : State) (a : Act) : Decidable (Supervised s a) := inferInstanceAs (Decidable (_ ∧ _))

end Exit

end Linux011
