import Linux011.Runs
import Linux011.WaitQueue
import Mathlib.Logic.Function.Basic
import Mathlib.Tactic.Common

/-!
# The scheduler

`schedule` and what moves the counters of tasks: the timer, `sys_nice` and `fork`. The
selection takes the runnable task with the largest counter, and when all of those are used
up, gives every task half of its counter and its priority. As long as that sum fits into
a word, a runnable task is always served (`scheduler_serves`); nothing bounds the priority,
and a counter that wraps is below the -1 that the search starts from.

Interrupts do not come in the middle of `schedule`, and the switch is the end of a step.

The words of the source are kept, and the results are read through `toInt`. The selection is a
fold over the slots in the order in which the source visits them; `pick_cases` says what it ends
with, the largest counter of a runnable task together with its slot, or -1 and task 0.
`recharged_toInt` is the one place where the overflow matters: with a sum that fits, the recharge
is the sum of numbers. As `Ok` then says that no counter is negative and every priority is
positive, a recharge leaves a runnable task with a positive counter, so that the second selection
ends the loop; this is why two of them are enough fuel (`schedule_cases`). `Ok` is kept by the
calls, the timer and `fork` one after the other, where `sys_nice` does not go below 1 and the
timer stops at 0. A sum that does not fit leaves a negative counter at once
(`overflow_negative`).
-/

namespace Linux011

open Function Runs

def SIGKILL : Nat := 9
def SIGALRM : Nat := 14
def SIGSTOP : Nat := 19
def HZ : BitVec 32 := 100

/-- `_S(nr)`, the bit of a signal. -/
def sigBit (nr : Nat) : BitVec 32 := (1 : BitVec 32) <<< (nr - 1)

def _BLOCKABLE : BitVec 32 := ~~~(sigBit SIGKILL ||| sigBit SIGSTOP)

/-- The fields of a task that `schedule` reads. -/
structure SchedTask where
  state : TaskState
  counter : BitVec 32
  priority : BitVec 32
  signal : BitVec 32
  blocked : BitVec 32
  alarm : BitVec 32
deriving DecidableEq

/-- `task` has a null pointer where there is no task; `current` is a slot. -/
structure Sched where
  task : Nat → Option SchedTask
  current : Nat
  jiffies : BitVec 32

namespace Sched

def NR_TASKS : Nat := 64

/-- The slots from `LAST_TASK` down to the one behind `FIRST_TASK`. -/
def others : List Nat := (List.range' 1 (NR_TASKS - 1)).reverse

/-- The loop over all tasks but task 0. -/
def forOthers (s : Sched) (f : SchedTask → SchedTask) : Sched :=
  { s with task := fun i => if i ∈ others then (s.task i).map f else s.task i }

/-! ## `schedule` -/

/-- The alarm of a task, and what a signal does to its sleep. -/
def checkSignals (jiffies : BitVec 32) (p : SchedTask) : SchedTask :=
  let p := if p.alarm ≠ 0 ∧ p.alarm.slt jiffies then
      { p with signal := p.signal ||| sigBit SIGALRM, alarm := 0 }
    else p
  if p.signal &&& ~~~(_BLOCKABLE &&& p.blocked) ≠ 0 ∧ p.state = .interruptible then
    { p with state := .running }
  else p

/-- The variables of the selection; `pnext` is the slot of the task it points at. -/
structure Pick where
  c : BitVec 32
  next : Nat
  pnext : Nat

/-- One round of the selection. -/
def pickOne (s : Sched) (r : Pick) (i : Nat) : Pick :=
  match s.task i with
  | none => r
  | some p => if p.state = .running ∧ r.c.slt p.counter then ⟨p.counter, i, i⟩ else r

/-- The selection; `pnext` keeps what an earlier one left there. -/
def pick (s : Sched) (pnext : Nat) : Pick := others.foldl s.pickOne ⟨-1, 0, pnext⟩

def recharge (s : Sched) : Sched :=
  s.forOthers fun p => { p with counter := p.counter.sshiftRight 1 + p.priority }

/-- The loop of selections, at most `fuel` of them: the last selection, and how often the
counters were recharged. -/
def select : Nat → Sched → Nat → Nat → Option (Sched × Pick × Nat)
  | 0, _, _, _ => none
  | fuel + 1, s, pnext, recharges =>
    let r := s.pick pnext
    if r.c ≠ 0 then some (s, r, recharges)
    else select fuel s.recharge r.pnext (recharges + 1)

/-- `schedule` up to `switch_too`, with at most two selections. -/
def schedule (s : Sched) : Option (Sched × Pick × Nat) :=
  select 2 (s.forOthers (checkSignals s.jiffies)) 0 0

/-! ## The other functions -/

/-- What the current task does to itself. -/
def onCurrent (s : Sched) (f : SchedTask → SchedTask) : Option Sched :=
  (s.task s.current).map fun p => { s with task := update s.task s.current (some (f p)) }

def sysNice (increment : BitVec 32) (p : SchedTask) : SchedTask :=
  if (0 : BitVec 32).slt (p.priority - increment) then
    { p with priority := p.priority - increment }
  else p

def sysAlarm (jiffies seconds : BitVec 32) (p : SchedTask) : SchedTask :=
  { p with alarm := if (0 : BitVec 32).slt seconds then jiffies + HZ * seconds else 0 }

def sysSsetmask (newmask : BitVec 32) (p : SchedTask) : SchedTask :=
  { p with blocked := newmask &&& ~~~sigBit SIGKILL }

/-- What `copy_process` makes of a copy of the current task. -/
def copyProcess (p : SchedTask) : SchedTask :=
  { p with state := .running, counter := p.priority, signal := 0, alarm := 0 }

/-- The part of `do_timer` that counts. -/
def countTick (p : SchedTask) : SchedTask :=
  if (0 : BitVec 32).slt (p.counter - 1) then { p with counter := p.counter - 1 }
  else { p with counter := 0 }

/-- What happens: calls of the current task, the timer, what wakes a task up or sends it a
signal, and the end of a task. `sleep` is any way to set the state and call `schedule`,
`do_exit` among them; `fork` names the slot that `find_empty_process` found. -/
inductive Act where
  | nice (increment : BitVec 32)
  | alarm (seconds : BitVec 32)
  | ssetmask (newmask : BitVec 32)
  | fork (nr : Nat)
  | timer (cpl : Bool)
  | sleep (state : TaskState)
  | reschedule
  | wakeUp (i : Nat)
  | sendSig (sig i : Nat)
  | release (i : Nat)

/-- The state in which an action calls `schedule`, if it does. -/
def entry (s : Sched) : Act → Option Sched
  | .timer cpl =>
      match s.task s.current with
      | none => none
      | some p =>
        if (0 : BitVec 32).slt (p.counter - 1) ∨ cpl = false then none
        else ({ s with jiffies := s.jiffies + 1 } : Sched).onCurrent countTick
  | .sleep state => s.onCurrent fun p => { p with state := state }
  | .reschedule => some s
  | _ => none

/-- An action that does not call `schedule`. -/
def quiet (s : Sched) : Act → Option Sched
  | .nice increment => s.onCurrent (sysNice increment)
  | .alarm seconds => s.onCurrent (sysAlarm s.jiffies seconds)
  | .ssetmask newmask => s.onCurrent (sysSsetmask newmask)
  | .fork nr =>
      if nr ∈ others ∧ s.task nr = none then
        (s.task s.current).map fun p =>
          { s with task := update s.task nr (some (copyProcess p)) }
      else none
  | .timer _ => ({ s with jiffies := s.jiffies + 1 } : Sched).onCurrent countTick
  | .wakeUp i =>
      (s.task i).map fun p =>
        { s with task := update s.task i (some { p with state := .running }) }
  | .sendSig sig i =>
      (s.task i).map fun p =>
        { s with task := update s.task i (some { p with signal := p.signal ||| sigBit sig }) }
  | .release i =>
      if (s.task i).map SchedTask.state = some .zombie ∧ i ∈ others then
        some { s with task := update s.task i none }
      else none
  | .sleep _ | .reschedule => none

/-- After the switch, `current` is the task that was selected. -/
def step (s : Sched) (a : Act) : Option Sched :=
  match s.entry a with
  | some t => t.schedule.map fun (t, r, _) => { t with current := r.pnext }
  | none => s.quiet a

/-- `INIT_TASK`. -/
def initTask : SchedTask := ⟨.running, 15, 15, 0, 0, 0⟩

def boot : Sched := ⟨fun i => if i = 0 then some initTask else none, 0, 0⟩

/-! ## The condition -/

/-- The counter is not negative, and the priority is positive. -/
def Good (p : SchedTask) : Prop := 0 ≤ p.counter.toInt ∧ 0 < p.priority.toInt

def Ok (s : Sched) : Prop := ∀ i, ∀ p ∈ s.task i, Good p

/-- `schedule` recharges the counters: the largest one of a runnable task is 0. -/
def Recharges (s : Sched) : Prop := ((s.forOthers (checkSignals s.jiffies)).pick 0).c = 0

instance (s : Sched) : Decidable s.Recharges := inferInstanceAs (Decidable (_ = _))

/-- When the counters are recharged, the sums fit into a word. -/
def NoOverflow (s : Sched) (a : Act) : Prop :=
  ∀ t ∈ s.entry a, t.Recharges → ∀ i ∈ others, ∀ p ∈ t.task i,
    p.counter.toInt / 2 + p.priority.toInt < 0x80000000

instance (s : Sched) (a : Act) : Decidable (s.NoOverflow a) :=
  inferInstanceAs (Decidable (∀ t ∈ s.entry a, _))

/-- What a call of `schedule` is for: it ends, recharges the counters at most once and
selects a runnable task with the largest counter, if there is a runnable task but task 0. -/
def Serves (s : Sched) : Prop :=
  ∃ t r recharges, s.schedule = some (t, r, recharges) ∧ recharges ≤ 1 ∧
    ((∃ i ∈ others, ∃ p ∈ t.task i, p.state = .running) →
      r.next ∈ others ∧ r.pnext = r.next ∧ ∃ p ∈ t.task r.next, p.state = .running ∧
        ∀ i ∈ others, ∀ q ∈ t.task i, q.state = .running →
          q.counter.toInt ≤ p.counter.toInt)

variable {s s' t : Sched} {p : SchedTask}

/-! ## The selection -/

theorem slt_iff {x y : BitVec 32} : x.slt y ↔ x.toInt < y.toInt := by
  rw [BitVec.slt_iff_toInt_lt]

/-- The selection over some slots, from an earlier result on: `c` is at least every
counter it passed, and it is still the earlier result or that of a runnable task. -/
theorem foldl_pickOne (s : Sched) (l : List Nat) (r : Pick) :
    r.c.toInt ≤ (l.foldl s.pickOne r).c.toInt ∧
    (∀ i ∈ l, ∀ p ∈ s.task i, p.state = .running →
      p.counter.toInt ≤ (l.foldl s.pickOne r).c.toInt) ∧
    (l.foldl s.pickOne r = r ∨ ∃ i ∈ l, ∃ p ∈ s.task i, p.state = .running ∧
      r.c.toInt < p.counter.toInt ∧ l.foldl s.pickOne r = ⟨p.counter, i, i⟩) := by
  induction l generalizing r with
  | nil => exact ⟨Int.le_refl _, fun i hi => absurd hi List.not_mem_nil, Or.inl rfl⟩
  | cons j l ih =>
      obtain ⟨hle, hall, hfrom⟩ := ih (s.pickOne r j)
      rw [List.foldl_cons]
      -- what one round does
      have hone : (s.pickOne r j = r ∨ ∃ p ∈ s.task j, p.state = .running ∧
          r.c.toInt < p.counter.toInt ∧ s.pickOne r j = ⟨p.counter, j, j⟩) ∧
          ∀ p ∈ s.task j, p.state = .running → p.counter.toInt ≤ (s.pickOne r j).c.toInt := by
        unfold pickOne
        split
        · rename_i hnone
          exact ⟨Or.inl rfl, fun p hp => by rw [hnone] at hp; cases hp⟩
        · rename_i p hp
          split
          · rename_i hpick
            refine ⟨Or.inr ⟨p, hp, hpick.1, slt_iff.mp hpick.2, rfl⟩, fun q hq _ => ?_⟩
            obtain rfl := Option.some.inj (hp.symm.trans hq)
            exact Int.le_refl _
          · rename_i hpick
            refine ⟨Or.inl rfl, fun q hq hrun => ?_⟩
            obtain rfl := Option.some.inj (hp.symm.trans hq)
            exact Int.not_lt.mp fun hlt => hpick ⟨hrun, slt_iff.mpr hlt⟩
      obtain ⟨hone, hj⟩ := hone
      have hstart : r.c.toInt ≤ (s.pickOne r j).c.toInt := by
        rcases hone with e | ⟨p, -, -, hlt, e⟩
        · exact Int.le_of_eq (congrArg (fun r => r.c.toInt) e.symm)
        · rw [e]
          exact Int.le_of_lt hlt
      refine ⟨Int.le_trans hstart hle, ?_, ?_⟩
      · intro i hi p hp hrun
        rcases List.mem_cons.mp hi with rfl | hi
        · exact Int.le_trans (hj p hp hrun) hle
        · exact hall i hi p hp hrun
      · rcases hfrom with e | ⟨i, hi, p, hp, hrun, hlt, e⟩
        · rw [e]
          rcases hone with e' | ⟨p, hp, hrun, hlt, e'⟩
          · exact Or.inl e'
          · exact Or.inr ⟨j, List.mem_cons_self, p, hp, hrun, hlt, e'⟩
        · exact Or.inr ⟨i, List.mem_cons_of_mem _ hi, p, hp, hrun,
            Int.lt_of_le_of_lt hstart hlt, e⟩

/-- The selection finds a runnable task with the largest counter, unless all counters of
runnable tasks are negative. -/
theorem pick_cases (s : Sched) (pnext : Nat) :
    (s.pick pnext = ⟨-1, 0, pnext⟩ ∧
      ∀ i ∈ others, ∀ p ∈ s.task i, p.state = .running → p.counter.toInt < 0) ∨
    ∃ i ∈ others, ∃ p ∈ s.task i, p.state = .running ∧ 0 ≤ p.counter.toInt ∧
      s.pick pnext = ⟨p.counter, i, i⟩ ∧
      ∀ j ∈ others, ∀ q ∈ s.task j, q.state = .running →
        q.counter.toInt ≤ p.counter.toInt := by
  have hminus : (-1 : BitVec 32).toInt = -1 := by decide
  obtain ⟨-, hall, hfrom⟩ := foldl_pickOne s others ⟨-1, 0, pnext⟩
  rcases hfrom with e | ⟨i, hi, p, hp, hrun, hlt, e⟩
  · rw [e] at hall
    refine Or.inl ⟨e, fun i hi p hp hrun => ?_⟩
    have := hall i hi p hp hrun
    rw [hminus] at this
    omega
  · rw [e] at hall
    rw [hminus] at hlt
    exact Or.inr ⟨i, hi, p, hp, hrun, by omega, e, hall⟩

/-! ## What keeps the counters -/

theorem mem_forOthers {f : SchedTask → SchedTask} {i : Nat} {q : SchedTask}
    (h : q ∈ (s.forOthers f).task i) :
    ∃ p ∈ s.task i, i ∈ others ∧ q = f p ∨ i ∉ others ∧ q = p := by
  simp only [forOthers] at h
  split at h
  · rename_i hi
    obtain ⟨p, hp, rfl⟩ := Option.map_eq_some_iff.mp h
    exact ⟨p, hp, Or.inl ⟨hi, rfl⟩⟩
  · rename_i hi
    exact ⟨q, h, Or.inr ⟨hi, rfl⟩⟩

theorem forOthers_task {f : SchedTask → SchedTask} {i : Nat} (hi : i ∈ others)
    (hp : p ∈ s.task i) : f p ∈ (s.forOthers f).task i := by
  simp only [forOthers, if_pos hi]
  rw [Option.mem_def.mp hp]
  rfl

@[simp] theorem checkSignals_counter (jiffies : BitVec 32) (p : SchedTask) :
    (checkSignals jiffies p).counter = p.counter := by
  unfold checkSignals
  dsimp only
  split <;> split <;> rfl

@[simp] theorem checkSignals_priority (jiffies : BitVec 32) (p : SchedTask) :
    (checkSignals jiffies p).priority = p.priority := by
  unfold checkSignals
  dsimp only
  split <;> split <;> rfl

theorem forall_forOthers {P : SchedTask → Prop} {f : SchedTask → SchedTask}
    (h : ∀ i, ∀ p ∈ s.task i, P p) (hf : ∀ p, P p → P (f p)) :
    ∀ i, ∀ p ∈ (s.forOthers f).task i, P p := by
  intro i q hq
  obtain ⟨p, hp, ⟨-, rfl⟩ | ⟨-, rfl⟩⟩ := mem_forOthers hq
  · exact hf p (h i p hp)
  · exact h i _ hp

theorem Ok.checkSignals (h : Ok s) (jiffies : BitVec 32) :
    Ok (s.forOthers (checkSignals jiffies)) :=
  forall_forOthers h fun p hp => by simpa [Good] using hp

/-- The sum of half of the counter and the priority, when it fits. -/
theorem recharged_toInt {c pr : BitVec 32} (h0 : 0 ≤ c.toInt) (hpr : 0 < pr.toInt) :
    (c.toInt / 2 + pr.toInt < 0x80000000 →
      (c.sshiftRight 1 + pr).toInt = c.toInt / 2 + pr.toInt) ∧
    (¬c.toInt / 2 + pr.toInt < 0x80000000 → (c.sshiftRight 1 + pr).toInt < 0) := by
  have hc := BitVec.toInt_lt (x := c)
  have hp := BitVec.toInt_lt (x := pr)
  have hhalf : (c.sshiftRight 1).toInt = c.toInt / 2 := by
    rw [BitVec.toInt_sshiftRight, Int.shiftRight_eq_div_pow]
    rfl
  have hword : 2 ^ 32 = 0x100000000 := rfl
  rw [BitVec.toInt_add, hhalf, hword, Int.bmod_def]
  constructor <;> intro h <;> split <;> omega

theorem Ok.recharge (h : Ok s)
    (hfit : ∀ i ∈ others, ∀ p ∈ s.task i, p.counter.toInt / 2 + p.priority.toInt < 0x80000000) :
    Ok s.recharge := by
  intro i q hq
  obtain ⟨p, hp, ⟨hi, rfl⟩ | ⟨-, rfl⟩⟩ := mem_forOthers hq
  · obtain ⟨hcounter, hpriority⟩ := h i p hp
    unfold Good
    rw [(recharged_toInt hcounter hpriority).1 (hfit i hi p hp)]
    exact ⟨by omega, hpriority⟩
  · exact h i _ hp

/-- A task that is runnable with a used up counter has its priority after a recharge. -/
theorem recharge_zero {i : Nat} (hi : i ∈ others) (hp : p ∈ s.task i) (hc : p.counter = 0) :
    { p with counter := p.priority } ∈ s.recharge.task i := by
  have hq : _ ∈ s.recharge.task i := forOthers_task hi hp
  rw [hc] at hq
  have hzero : (0 : BitVec 32).sshiftRight 1 = 0#32 := by decide
  rwa [hzero, BitVec.zero_add] at hq

/-- The selection that follows a recharge does not lead to another one. -/
theorem pick_recharge {pnext : Nat} (h : ∀ i, ∀ p ∈ s.task i, 0 < p.priority.toInt)
    (hzero : (s.pick pnext).c = 0) (pnext' : Nat) : (s.recharge.pick pnext').c ≠ 0 := by
  have hminus : (-1 : BitVec 32) ≠ 0 := by decide
  rcases s.pick_cases pnext with ⟨e, -⟩ | ⟨i, hi, p, hp, hrun, -, e, -⟩
  · rw [e] at hzero
    exact absurd hzero hminus
  · rw [e] at hzero
    have hq := recharge_zero hi hp hzero
    have hpos := h i p hp
    intro hagain
    rcases s.recharge.pick_cases pnext' with ⟨e', -⟩ | ⟨j, -, q, -, -, -, e', hmax⟩
    · rw [e'] at hagain
      exact absurd hagain hminus
    · rw [e'] at hagain
      have := hmax i hi _ hq hrun
      dsimp only at this hagain
      rw [hagain] at this
      have h0 : (0 : BitVec 32).toInt = 0 := by decide
      omega

theorem select_done {fuel pnext recharges : Nat} (hc : (s.pick pnext).c ≠ 0) :
    select (fuel + 1) s pnext recharges = some (s, s.pick pnext, recharges) := if_pos hc

theorem select_again {fuel pnext recharges : Nat} (hc : (s.pick pnext).c = 0) :
    select (fuel + 1) s pnext recharges
      = select fuel s.recharge (s.pick pnext).pnext (recharges + 1) := if_neg (not_not.mpr hc)

/-- What `schedule` does: one selection, or a recharge and a second one. -/
theorem schedule_cases (h : ∀ i, ∀ p ∈ s.task i, 0 < p.priority.toInt) :
    (¬s.Recharges ∧ s.schedule = some (s.forOthers (checkSignals s.jiffies),
      (s.forOthers (checkSignals s.jiffies)).pick 0, 0)) ∨
    (s.Recharges ∧ ∃ pnext, s.schedule = some ((s.forOthers (checkSignals s.jiffies)).recharge,
      (s.forOthers (checkSignals s.jiffies)).recharge.pick pnext, 1)) := by
  by_cases hc : s.Recharges
  · refine Or.inr ⟨hc, ((s.forOthers (checkSignals s.jiffies)).pick 0).pnext, ?_⟩
    have hpos : ∀ i, ∀ p ∈ (s.forOthers (checkSignals s.jiffies)).task i,
        0 < p.priority.toInt :=
      forall_forOthers h fun p hp => by rwa [checkSignals_priority]
    have hagain := pick_recharge hpos hc ((s.forOthers (checkSignals s.jiffies)).pick 0).pnext
    rw [schedule, select_again hc, select_done hagain]
  · refine Or.inl ⟨hc, ?_⟩
    rw [schedule, select_done hc]

theorem Ok.update (h : Ok s) {i : Nat} (hp : Good p) :
    Ok { s with task := update s.task i (some p) } := by
  intro j q hq
  dsimp only at hq
  rcases eq_or_ne j i with rfl | hji
  · rw [update_self] at hq
    obtain rfl := Option.some.inj hq
    exact hp
  · rw [update_of_ne hji] at hq
    exact h j q hq

theorem Ok.onCurrent (h : Ok s) {f : SchedTask → SchedTask} {jiffies : BitVec 32}
    (hs : ({ s with jiffies := jiffies } : Sched).onCurrent f = some s')
    (hf : ∀ p, Good p → Good (f p)) : Ok s' := by
  obtain ⟨p, hp, rfl⟩ := Option.map_eq_some_iff.mp hs
  exact h.update (hf p (h _ p hp))

theorem Good.sysNice (h : Good p) (increment : BitVec 32) : Good (sysNice increment p) := by
  unfold Sched.sysNice
  split
  · rename_i hpos
    exact ⟨h.1, slt_iff.mp hpos⟩
  · exact h

theorem Good.countTick (h : Good p) : Good (countTick p) := by
  unfold Sched.countTick
  split
  · rename_i hpos
    exact ⟨Int.le_of_lt (slt_iff.mp hpos), h.2⟩
  · exact ⟨Int.le_refl 0, h.2⟩

theorem Good.copyProcess (h : Good p) : Good (copyProcess p) := ⟨Int.le_of_lt h.2, h.2⟩

theorem Ok.entry {a : Act} (h : Ok s) (ht : s.entry a = some t) : Ok t := by
  cases a with
  | timer cpl =>
      simp only [Sched.entry] at ht
      split at ht
      · cases ht
      · split at ht
        · cases ht
        · exact h.onCurrent ht fun _ => Good.countTick
  | sleep state => exact h.onCurrent ht fun _ hp => hp
  | reschedule =>
      obtain rfl := Option.some.inj ht
      exact h
  | _ => cases ht

theorem Ok.quiet {a : Act} (h : Ok s) (hs : s.quiet a = some s') : Ok s' := by
  cases a with
  | nice increment => exact h.onCurrent hs fun _ hp => hp.sysNice increment
  | alarm seconds => exact h.onCurrent hs fun _ hp => hp
  | ssetmask newmask => exact h.onCurrent hs fun _ hp => hp
  | fork nr =>
      obtain ⟨-, hs⟩ := Option.ite_none_right_eq_some.mp hs
      obtain ⟨p, hp, rfl⟩ := Option.map_eq_some_iff.mp hs
      exact h.update (h _ p hp).copyProcess
  | timer cpl => exact h.onCurrent hs fun _ => Good.countTick
  | wakeUp i =>
      obtain ⟨p, hp, rfl⟩ := Option.map_eq_some_iff.mp hs
      exact h.update (h i p hp)
  | sendSig sig i =>
      obtain ⟨p, hp, rfl⟩ := Option.map_eq_some_iff.mp hs
      exact h.update (h i p hp)
  | release i =>
      obtain ⟨-, hs⟩ := Option.ite_none_right_eq_some.mp hs
      obtain rfl := Option.some.inj hs
      intro j q hq
      dsimp only at hq
      rcases eq_or_ne j i with rfl | hji
      · rw [update_self] at hq
        cases hq
      · rw [update_of_ne hji] at hq
        exact h j q hq
  | sleep state => cases hs
  | reschedule => cases hs

/-- A call of `schedule` whose sums fit into a word keeps the counters and serves. -/
theorem Ok.schedule (h : Ok t)
    (hfit : t.Recharges → ∀ i ∈ others, ∀ p ∈ t.task i,
      p.counter.toInt / 2 + p.priority.toInt < 0x80000000) :
    ∃ t' r recharges, t.schedule = some (t', r, recharges) ∧ Ok t' ∧ recharges ≤ 1 ∧
      ((∃ i ∈ others, ∃ p ∈ t'.task i, p.state = .running) →
        r.next ∈ others ∧ r.pnext = r.next ∧ ∃ p ∈ t'.task r.next, p.state = .running ∧
          ∀ i ∈ others, ∀ q ∈ t'.task i, q.state = .running →
            q.counter.toInt ≤ p.counter.toInt) := by
  have hchecked := h.checkSignals t.jiffies
  -- a selection among counters that are not negative
  have hserve : ∀ {t' : Sched} (pnext : Nat), Ok t' →
      (∃ i ∈ others, ∃ p ∈ t'.task i, p.state = .running) →
      (t'.pick pnext).next ∈ others ∧ (t'.pick pnext).pnext = (t'.pick pnext).next ∧
        ∃ p ∈ t'.task (t'.pick pnext).next, p.state = .running ∧
          ∀ i ∈ others, ∀ q ∈ t'.task i, q.state = .running →
            q.counter.toInt ≤ p.counter.toInt := by
    rintro t' pnext hok ⟨i, hi, p, hp, hrun⟩
    rcases t'.pick_cases pnext with ⟨-, hneg⟩ | ⟨j, hj, q, hq, hqrun, -, e, hmax⟩
    · have := (hok i p hp).1
      have := hneg i hi p hp hrun
      omega
    · rw [e]
      exact ⟨hj, rfl, q, hq, hqrun, hmax⟩
  rcases schedule_cases fun i p hp => (h i p hp).2 with ⟨-, e⟩ | ⟨hre, pnext, e⟩
  · exact ⟨_, _, 0, e, hchecked, Nat.zero_le 1, hserve 0 hchecked⟩
  · have hrecharged : Ok (t.forOthers (Sched.checkSignals t.jiffies)).recharge := by
      refine hchecked.recharge fun i hi q hq => ?_
      obtain ⟨p, hp, ⟨-, rfl⟩ | ⟨hi', -⟩⟩ := mem_forOthers hq
      · rw [checkSignals_counter, checkSignals_priority]
        exact hfit hre i hi p hp
      · exact absurd hi hi'
    exact ⟨_, _, 1, e, hrecharged, Nat.le_refl 1, hserve pnext hrecharged⟩

theorem Ok.step {a : Act} (h : Ok s) (hfit : s.NoOverflow a) (hs : s.step a = some s') :
    Ok s' := by
  unfold Sched.step at hs
  split at hs
  · rename_i t ht
    obtain ⟨t', r, recharges, e, hok, -⟩ := (h.entry ht).schedule (hfit t ht)
    rw [e] at hs
    obtain rfl := Option.some.inj hs
    exact hok
  · exact h.quiet hs

/-- A call of `schedule` that recharges a counter past the end of the word leaves it
negative. -/
theorem overflow_negative {r : Pick} {recharges i : Nat} (h : Ok t) (hre : t.Recharges)
    (hi : i ∈ others) (hp : p ∈ t.task i)
    (hbig : ¬p.counter.toInt / 2 + p.priority.toInt < 0x80000000)
    (hs : t.schedule = some (s', r, recharges)) : ∃ q ∈ s'.task i, q.counter.toInt < 0 := by
  rcases schedule_cases fun i p hp => (h i p hp).2 with ⟨hnot, -⟩ | ⟨-, pnext, e⟩
  · exact absurd hre hnot
  · rw [e] at hs
    obtain ⟨rfl, -⟩ := Prod.mk.inj (Option.some.inj hs)
    refine ⟨_, forOthers_task hi (forOthers_task hi hp), ?_⟩
    obtain ⟨hcounter, hpriority⟩ := h i p hp
    dsimp only
    rw [checkSignals_counter, checkSignals_priority]
    exact (recharged_toInt hcounter hpriority).2 hbig

theorem ok_boot : Ok boot := by
  intro i p hp
  simp only [boot] at hp
  split at hp
  · obtain rfl := Option.some.inj hp
    exact ⟨by decide, by decide⟩
  · cases hp

/-- **Runnable tasks are served.** In every run whose recharges fit into a word no counter
is negative, and the next call of `schedule` recharges at most once and selects a runnable
task with the largest counter. The first recharge that does not fit leaves a negative
counter. -/
theorem scheduler_serves (h : Reach step NoOverflow boot s) :
    (∀ i, ∀ p ∈ s.task i, 0 ≤ p.counter.toInt) ∧
    (∀ a, s.NoOverflow a → ∀ t ∈ s.entry a, t.Serves) ∧
    ∀ a, ¬s.NoOverflow a → ∀ s', s.step a = some s' →
      ∃ i, ∃ p ∈ s'.task i, p.counter.toInt < 0 := by
  have hok : Ok s := h.invariant ok_boot fun _ _ _ hok hfit hs => hok.step hfit hs
  refine ⟨fun i p hp => (hok i p hp).1, fun a hfit t ht => ?_, fun a hover s' hs => ?_⟩
  · obtain ⟨t', r, recharges, e, -, hserves⟩ := (hok.entry ht).schedule (hfit t ht)
    exact ⟨t', r, recharges, e, hserves⟩
  · simp only [NoOverflow, not_forall] at hover
    obtain ⟨t, ht, hre, i, hi, p, hp, hbig⟩ := hover
    unfold Sched.step at hs
    rw [Option.mem_def.mp ht] at hs
    obtain ⟨⟨t', r, recharges⟩, e, rfl⟩ := Option.map_eq_some_iff.mp hs
    obtain ⟨q, hq, hneg⟩ := overflow_negative (hok.entry ht) hre hi hp hbig e
    exact ⟨i, q, hq, hneg⟩

/-- Task 0 forks task 1 and waits. -/
def forked : List Act := [.fork 1, .sleep .interruptible]

theorem scheduler_serves_forked :
    ∃ s, exec (checked step NoOverflow) boot forked = some s ∧
      ∀ t ∈ s.entry (.sleep .uninterruptible), t.Serves := by
  obtain ⟨s, hs, hfit⟩ : ∃ s, exec (checked step NoOverflow) boot forked = some s ∧
      s.NoOverflow (.sleep .uninterruptible) := exec_any (by decide +kernel)
  exact ⟨s, hs, (scheduler_serves (exec_checked hs)).2.1 _ hfit⟩

/-- Task 1 takes the largest priority and forks task 2, which goes to sleep. When task 1 has
used up its counter, that of task 2 wraps, and task 2 is not selected when it is woken up
and task 1 sleeps. -/
def niced : List Act :=
  forked ++ [.nice (-0x7FFFFFF0), .fork 2, .sleep .interruptible, .sleep .interruptible,
    .wakeUp 1, .sleep .interruptible] ++ List.replicate 15 (.timer true) ++
    [.wakeUp 2, .sleep .interruptible]

theorem not_scheduler_serves :
    ∃ s, exec step boot niced = some s ∧ s.current = 0 ∧
      ∃ p, s.task 2 = some p ∧ p.state = .running ∧ p.counter.toInt < 0 := by
  obtain ⟨s, hs, hcurrent, htask⟩ : ∃ s, exec step boot niced = some s ∧ s.current = 0 ∧
      (s.task 2).any fun p => p.state == .running && decide (p.counter.toInt < 0) :=
    exec_any (by decide +kernel)
  obtain ⟨p, hp, hrun⟩ := (Option.any_eq_true _ _).mp htask
  rw [Bool.and_eq_true, beq_iff_eq, decide_eq_true_eq] at hrun
  exact ⟨s, hs, hcurrent, p, hp, hrun⟩

end Sched

end Linux011
