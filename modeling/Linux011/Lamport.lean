import Linux011.Runs
import Mathlib.Logic.Function.Basic
import Mathlib.Tactic.Common

/-!
# The bakery lock

`lamportLock` and `lamportUnlock` of `include/linux/lamport.h`, with every
single read or write of a `choosing` or `num` field as one step: the program
counter `Pc` names the access that comes next, and carries the value that the
evaluation of the current expression holds in a register.

The maximum step reads `lamparray[j].num` twice, once to compare it and once to
take it. When another task unlocks in between, the second read can be smaller
than the running maximum, and what is stored then is too small. So the lock does
not exclude (`lamport_not_exclusive`); it does in every run in which no second
read falls below the running maximum (`lamport_exclusive`).

The proof follows the tasks one slot at a time. `SlotOk` says that a task that
is somewhere in the lock code works on the slot that carries its pid, so that
two of them never share a slot; `OwnOk` says what the fields of one slot hold at
each program counter; and `Ordered` looks at two tasks, of which the first one
has its number and goes through the waiting loop. Everything that this loop has
established about the second task is `Behind`: it has not begun to draw, or
every value that it has in hand since it looked at the slot of the first task is
at least the number of the first, or it has drawn a number that comes later. A
step of the second task keeps `Behind` as long as a running maximum does not
shrink, which is the one place where the second read of `num` is needed; a step
of any third task does not change it at all. Inside the lock a task has been at
all slots, so that two tasks inside would be behind one another, and
`Behind.asymm` excludes that.

The run in which two tasks are inside needs many accesses to slots that nobody
uses. It is given in `Quick` actions, which pass a stretch of such slots at
once, and `quick_reach` shows that each of them stands for a run of single
accesses.
-/

namespace Linux011

open Function Runs

def NR_TASKS : Nat := 64

structure Lamport where
  pid : Nat
  choosing : Bool
  num : Nat
deriving Repr, DecidableEq

abbrev LampArray := Nat → Lamport

namespace Bakery

/-- The next access of a task to a `choosing` or `num` field. `That` is slot `j`,
`This` and `Own` the slot `nulltask` of the task; `r` is a value already read. -/
inductive Pc where
  | idle
  | setChoosing
  | zeroNum
  | cmpThat (j : Nat)
  | cmpThis (j r : Nat)
  | takeThat (j : Nat)
  | takeThis (j : Nat)
  | store (j r : Nat)
  | incRead
  | incWrite (r : Nat)
  | clearChoosing
  | testChoosing (j : Nat)
  | testZero (j : Nat)
  | testLess (j : Nat)
  | testLessOwn (j r : Nat)
  | testEq (j : Nat)
  | testEqOwn (j r : Nat)
  | critical
deriving Repr, DecidableEq

structure State where
  lamparray : LampArray
  /-- the local `nulltask` of each task, by pid -/
  nulltask : Nat → Nat
  pc : Nat → Pc

/-! ## The two functions -/

/-- The slots 1 .. `NR_TASKS - 1` that both functions search. -/
def slots : List Nat := List.range' 1 (NR_TASKS - 1)

/-- The first slot that carries `pid`. -/
def findPid (arr : LampArray) (pid : Nat) : Option Nat :=
  slots.find? fun i => (arr i).pid == pid

/-- The slot of the task, and the table in which it is registered: the first slot
with its pid, or else the last empty slot (0 when there is none). -/
def register (arr : LampArray) (pid : Nat) : Nat × LampArray :=
  match findPid arr pid with
  | some i => (i, arr)
  | none =>
    let nulltask := ((slots.filter fun i => (arr i).pid == 0).getLast?).getD 0
    (nulltask, update arr nulltask { arr nulltask with pid := pid })

/-- The maximum loop at index `j`. -/
def maxFrom (me j : Nat) : Pc :=
  if NR_TASKS ≤ j then .incRead
  else if j ≠ me then .cmpThat j
  else if NR_TASKS ≤ j + 1 then .incRead
  else .cmpThat (j + 1)

/-- The waiting loop at index `j`. -/
def testFrom (j : Nat) : Pc :=
  if j < NR_TASKS then .testChoosing j else .critical

/-- One access of `lamportLock` by the task of slot `me`: where it goes next, and
what its own slot, the only one it writes, then holds. -/
def move (arr : LampArray) (me : Nat) : Pc → Pc × Lamport
  | .setChoosing => (.zeroNum, { arr me with choosing := true })
  | .zeroNum => (maxFrom me 1, { arr me with num := 0 })
  | .cmpThat j => (.cmpThis j (arr j).num, arr me)
  | .cmpThis j r => (if r > (arr me).num then .takeThat j else .takeThis j, arr me)
  | .takeThat j => (.store j (arr j).num, arr me)
  | .takeThis j => (.store j (arr me).num, arr me)
  | .store j r => (maxFrom me (j + 1), { arr me with num := r })
  | .incRead => (.incWrite (arr me).num, arr me)
  | .incWrite r => (.clearChoosing, { arr me with num := r + 1 })
  | .clearChoosing => (testFrom 0, { arr me with choosing := false })
  | .testChoosing j => (if (arr j).choosing then .testChoosing j else .testZero j, arr me)
  | .testZero j => (if (arr j).num ≠ 0 then .testLess j else testFrom (j + 1), arr me)
  | .testLess j => (.testLessOwn j (arr j).num, arr me)
  | .testLessOwn j r => (if r < (arr me).num then .testZero j else .testEq j, arr me)
  | .testEq j => (.testEqOwn j (arr j).num, arr me)
  | .testEqOwn j r =>
      (if r = (arr me).num ∧ j < me then .testZero j else testFrom (j + 1), arr me)
  | .idle => (.idle, arr me)
  | .critical => (.critical, arr me)

/-- One step of the task with number `pid`: it enters `lamportLock`, performs the
next access of it, or runs `lamportUnlock`. -/
def step (s : State) (pid : Nat) : Option State :=
  match s.pc pid with
  | .idle =>
    let (nulltask, arr) := register s.lamparray pid
    some ⟨arr, update s.nulltask pid nulltask, update s.pc pid .setChoosing⟩
  | .critical =>
    match findPid s.lamparray pid with
    | none => some { s with pc := update s.pc pid .idle }
    | some i =>
      some ⟨update s.lamparray i { s.lamparray i with num := 0 }, s.nulltask,
        update s.pc pid .idle⟩
  | pc =>
    let (pc', own) := move s.lamparray (s.nulltask pid) pc
    some ⟨update s.lamparray (s.nulltask pid) own, s.nulltask, update s.pc pid pc'⟩

/-- Nobody holds or wants the lock; the tasks with the given pids are registered. -/
def start (pids : Nat → Nat) : State :=
  ⟨fun i => ⟨pids i, false, 0⟩, fun _ => 0, fun _ => .idle⟩

/-- The pid already occupies a slot. -/
def Occupies (s : State) (pid : Nat) : Prop := findPid s.lamparray pid ≠ none

/-- The second read of `lamparray[j].num` in a maximum step does not fall below
the running maximum that the task keeps in its own `num`. -/
def KeepsMax (s : State) (pid : Nat) : Prop :=
  ∀ j, s.pc pid = .takeThat j →
    (s.lamparray (s.nulltask pid)).num ≤ (s.lamparray j).num

/-- Past `lamportLock` and before `lamportUnlock`. -/
def Inside (s : State) (pid : Nat) : Prop := s.pc pid = .critical

def Exclusive (s : State) : Prop := ∀ x m, Inside s x → Inside s m → x = m

/-! ## Slots of active tasks -/

theorem findPid_some {arr : LampArray} {pid i : Nat} (h : findPid arr pid = some i) :
    (arr i).pid = pid ∧ 1 ≤ i ∧ i < NR_TASKS := by
  have hmem := List.mem_of_find?_eq_some h
  have hpid := List.find?_some h
  simp only [slots, List.mem_range'_1] at hmem
  refine ⟨by simpa using hpid, hmem.1, ?_⟩
  have : NR_TASKS = 64 := rfl
  omega

theorem findPid_congr {arr arr' : LampArray} (h : ∀ i, (arr' i).pid = (arr i).pid)
    (pid : Nat) : findPid arr' pid = findPid arr pid := by
  simp [findPid, h]

/-- The number held in the slot of a task. -/
def drawn (s : State) (p : Nat) : Nat := (s.lamparray (s.nulltask p)).num

/-- The lock code of an active task works on the slot found for its pid. -/
def SlotOk (s : State) : Prop :=
  ∀ p, s.pc p ≠ .idle → findPid s.lamparray p = some (s.nulltask p)

theorem SlotOk.inj {s : State} (h : SlotOk s) {x m : Nat} (hx : s.pc x ≠ .idle)
    (hm : s.pc m ≠ .idle) (he : s.nulltask x = s.nulltask m) : x = m := by
  rw [← (findPid_some (h x hx)).1, ← (findPid_some (h m hm)).1, he]

@[simp] theorem move_pid (arr : LampArray) (me : Nat) (pc : Pc) :
    (move arr me pc).2.pid = (arr me).pid := by
  cases pc <;> rfl

/-- What a step of the registered task `a` does, read off once: it enters, it
unlocks, or it makes the next move of the lock code. In all cases only its own
slot is written, and no `pid`. -/
theorem step_cases {s s' : State} {a : Nat} (hslot : SlotOk s) (hreg : Occupies s a)
    (h : step s a = some s') :
    (s.pc a = .idle ∧ ∃ i, findPid s.lamparray a = some i ∧
      s' = ⟨s.lamparray, update s.nulltask a i, update s.pc a .setChoosing⟩) ∨
    (s.pc a = .critical ∧ s' = ⟨update s.lamparray (s.nulltask a)
        { s.lamparray (s.nulltask a) with num := 0 }, s.nulltask, update s.pc a .idle⟩) ∨
    (s.pc a ≠ .idle ∧ s.pc a ≠ .critical ∧
      s' = ⟨update s.lamparray (s.nulltask a)
          (move s.lamparray (s.nulltask a) (s.pc a)).2, s.nulltask,
        update s.pc a (move s.lamparray (s.nulltask a) (s.pc a)).1⟩) := by
  unfold step at h
  split at h
  · rename_i hpc
    obtain ⟨i, hi⟩ := Option.ne_none_iff_exists'.mp hreg
    refine Or.inl ⟨hpc, i, hi, ?_⟩
    simpa [register, hi] using h.symm
  · rename_i hpc
    refine Or.inr (Or.inl ⟨hpc, ?_⟩)
    rw [hslot a (by rw [hpc]; simp)] at h
    simpa using h.symm
  · rename_i hidle hcrit
    exact Or.inr (Or.inr ⟨hidle, hcrit, by simpa using h.symm⟩)

/-- A step leaves the other active tasks and their slots alone. -/
theorem step_other {s s' : State} {a : Nat} (hslot : SlotOk s) (hreg : Occupies s a)
    (h : step s a = some s') {p : Nat} (hp : p ≠ a) :
    s'.pc p = s.pc p ∧ s'.nulltask p = s.nulltask p ∧
      (s.pc p ≠ .idle → drawn s' p = drawn s p) := by
  rcases step_cases hslot hreg h with ⟨-, i, -, rfl⟩ | ⟨hc, rfl⟩ | ⟨hi, -, rfl⟩
  · exact ⟨by simp [hp], by simp [hp], fun _ => by simp [drawn, hp]⟩
  · refine ⟨by simp [hp], rfl, fun hpi => ?_⟩
    have : s.nulltask p ≠ s.nulltask a := fun e =>
      hp (hslot.inj hpi (by rw [hc]; simp) e)
    simp [drawn, this]
  · refine ⟨by simp [hp], rfl, fun hpi => ?_⟩
    have : s.nulltask p ≠ s.nulltask a := fun e => hp (hslot.inj hpi hi e)
    simp [drawn, this]

theorem step_pid {s s' : State} {a : Nat} (hslot : SlotOk s) (hreg : Occupies s a)
    (h : step s a = some s') (i : Nat) : (s'.lamparray i).pid = (s.lamparray i).pid := by
  rcases step_cases hslot hreg h with ⟨-, j, -, rfl⟩ | ⟨-, rfl⟩ | ⟨-, -, rfl⟩
  · rfl
  · rcases eq_or_ne i (s.nulltask a) with rfl | hi
    · simp
    · simp [hi]
  · rcases eq_or_ne i (s.nulltask a) with rfl | hi
    · simp
    · simp [hi]

theorem SlotOk.step {s s' : State} {a : Nat} (hslot : SlotOk s) (hreg : Occupies s a)
    (h : step s a = some s') : SlotOk s' := by
  intro p hp
  rw [findPid_congr (step_pid hslot hreg h)]
  rcases eq_or_ne p a with rfl | hpa
  · rcases step_cases hslot hreg h with ⟨-, i, hi, rfl⟩ | ⟨-, rfl⟩ | ⟨hi, -, rfl⟩
    · simpa using hi
    · simp at hp
    · exact hslot p hi
  · obtain ⟨hpc, hnull, -⟩ := step_other hslot hreg h hpa
    rw [hnull]
    exact hslot p (hpc ▸ hp)

/-! ## Numbers and flags of one task -/

/-- The task has drawn its number and cleared `choosing`. -/
def Ticket : Pc → Prop
  | .testChoosing _ | .testZero _ | .testLess _ | .testLessOwn _ _ | .testEq _
  | .testEqOwn _ _ | .critical => True
  | _ => False

/-- `choosing` is set. -/
def Choosing : Pc → Prop
  | .zeroNum | .cmpThat _ | .cmpThis _ _ | .takeThat _ | .takeThis _ | .store _ _
  | .incRead | .incWrite _ | .clearChoosing => True
  | _ => False

/-- What the fields of an active task hold: `choosing` is set while the number is
drawn, and a drawn number is not 0. -/
structure OwnOk (s : State) (p : Nat) : Prop where
  choosing : Choosing (s.pc p) → (s.lamparray (s.nulltask p)).choosing = true
  ticket : Ticket (s.pc p) ∨ s.pc p = .clearChoosing → 1 ≤ drawn s p

theorem maxFrom_cases (me j : Nat) :
    maxFrom me j = .incRead ∧ NR_TASKS ≤ j + 1 ∧ (NR_TASKS = j + 1 → j = me) ∨
      maxFrom me j = .cmpThat j ∨ maxFrom me j = .cmpThat (j + 1) ∧ j = me := by
  unfold maxFrom
  split
  · exact Or.inl ⟨rfl, by omega, by omega⟩
  · split
    · exact Or.inr (Or.inl rfl)
    · rename_i hj
      have hj' : j = me := not_not.mp hj
      split
      · exact Or.inl ⟨rfl, by omega, fun _ => hj'⟩
      · exact Or.inr (Or.inr ⟨rfl, hj'⟩)

theorem maxFrom_choosing (me j : Nat) : Choosing (maxFrom me j) ∧
    ¬Ticket (maxFrom me j) ∧ maxFrom me j ≠ .clearChoosing := by
  rcases maxFrom_cases me j with ⟨h, -, -⟩ | h | ⟨h, -⟩ <;> simp [h, Choosing, Ticket]

theorem testFrom_cases (j : Nat) :
    testFrom j = .testChoosing j ∨ testFrom j = .critical ∧ NR_TASKS ≤ j := by
  unfold testFrom
  split
  · exact Or.inl rfl
  · exact Or.inr ⟨rfl, by omega⟩

theorem testFrom_ticket (j : Nat) : Ticket (testFrom j) ∧ ¬Choosing (testFrom j) := by
  rcases testFrom_cases j with h | ⟨h, -⟩ <;> simp [h, Choosing, Ticket]

theorem Ticket.not_choosing {pc : Pc} (h : Ticket pc) :
    ¬Choosing pc ∧ pc ≠ .clearChoosing ∧ pc ≠ .idle := by
  cases pc <;> simp_all [Ticket, Choosing]

/-- In the waiting loop a task writes nothing and stays in the loop or leaves it
for the critical section. -/
theorem move_ticket (arr : LampArray) (me : Nat) {pc : Pc} (h : Ticket pc) :
    Ticket (move arr me pc).1 ∧ (move arr me pc).2 = arr me := by
  cases pc <;> simp only [Ticket] at h <;> refine ⟨?_, rfl⟩ <;> simp only [move]
  case testChoosing j => split <;> trivial
  case testZero j => split; exacts [trivial, (testFrom_ticket _).1]
  case testLess j => trivial
  case testLessOwn j r => split <;> trivial
  case testEq j => trivial
  case testEqOwn j r => split; exacts [trivial, (testFrom_ticket _).1]
  case critical => trivial

/-- The waiting loop is only entered at slot 0. -/
theorem move_enter (arr : LampArray) (me : Nat) {pc : Pc} (h : ¬Ticket pc)
    (h' : Ticket (move arr me pc).1) : (move arr me pc).1 = .testChoosing 0 := by
  cases pc with
  | zeroNum => exact absurd h' (maxFrom_choosing me 1).2.1
  | store j r => exact absurd h' (maxFrom_choosing me (j + 1)).2.1
  | cmpThis j r =>
      simp only [move] at h'
      split at h' <;> simp [Ticket] at h'
  | clearChoosing => rfl
  | _ => simp_all [Ticket, move]

theorem OwnOk.move {s : State} {p : Nat} (h : OwnOk s p) (hi : s.pc p ≠ .idle) :
    (Choosing (move s.lamparray (s.nulltask p) (s.pc p)).1 →
        (move s.lamparray (s.nulltask p) (s.pc p)).2.choosing = true) ∧
      (Ticket (move s.lamparray (s.nulltask p) (s.pc p)).1 ∨
          (move s.lamparray (s.nulltask p) (s.pc p)).1 = .clearChoosing →
        1 ≤ (move s.lamparray (s.nulltask p) (s.pc p)).2.num) := by
  obtain ⟨hch, ht⟩ := h
  by_cases htick : Ticket (s.pc p)
  · obtain ⟨h₁, h₂⟩ := move_ticket s.lamparray (s.nulltask p) htick
    rw [h₂]
    exact ⟨fun h => absurd h h₁.not_choosing.1, fun _ => ht (Or.inl htick)⟩
  cases hpc : s.pc p with
  | idle => exact absurd hpc hi
  | zeroNum | store j r =>
      simp only [hpc, Choosing] at hch
      simp [Bakery.move, hch, maxFrom_choosing]
  | cmpThis j r =>
      simp only [hpc, Choosing] at hch
      refine ⟨fun _ => by simpa [Bakery.move] using hch, fun ht' => ?_⟩
      simp only [Bakery.move] at ht'
      split at ht' <;> simp [Ticket] at ht'
  | clearChoosing =>
      simp only [hpc, drawn] at ht
      exact ⟨fun hch' => absurd hch' (testFrom_ticket 0).2,
        fun _ => by simpa [Bakery.move] using ht⟩
  | setChoosing | cmpThat j | takeThat j | takeThis j | incRead | incWrite r =>
      simp_all [Bakery.move, Choosing, Ticket, drawn]
  | _ => simp [hpc, Ticket] at htick

/-- A step leaves the slots of the other active tasks alone. -/
theorem step_row {s s' : State} {a : Nat} (hslot : SlotOk s) (hreg : Occupies s a)
    (h : step s a = some s') {p : Nat} (hp : p ≠ a) (hpi : s.pc p ≠ .idle) :
    s'.lamparray (s.nulltask p) = s.lamparray (s.nulltask p) := by
  have hne : s.pc a ≠ .idle → s.nulltask p ≠ s.nulltask a :=
    fun ha e => hp (hslot.inj hpi ha e)
  rcases step_cases hslot hreg h with ⟨-, i, -, rfl⟩ | ⟨hc, rfl⟩ | ⟨hi, -, rfl⟩
  · rfl
  · simp [hne (by rw [hc]; simp)]
  · simp [hne hi]

theorem OwnOk.step {s s' : State} {a : Nat} (hslot : SlotOk s) (hreg : Occupies s a)
    (hown : ∀ p, OwnOk s p) (h : step s a = some s') (p : Nat) : OwnOk s' p := by
  rcases eq_or_ne p a with rfl | hpa
  · rcases step_cases hslot hreg h with ⟨-, i, -, rfl⟩ | ⟨-, rfl⟩ | ⟨hi, -, rfl⟩
    · exact ⟨by simp [Choosing], by simp [Ticket]⟩
    · exact ⟨by simp [Choosing], by simp [Ticket]⟩
    · exact ⟨by simpa using ((hown p).move hi).1, by simpa [drawn] using ((hown p).move hi).2⟩
  · obtain ⟨hpc, hnull, hdrawn⟩ := step_other hslot hreg h hpa
    refine ⟨fun hch => ?_, fun ht => ?_⟩
    · rw [hpc] at hch
      have hpi : s.pc p ≠ .idle := fun e => by rw [e] at hch; exact hch
      rw [hnull, step_row hslot hreg h hpa hpi]
      exact (hown p).choosing hch
    · rw [hpc] at ht
      have hpi : s.pc p ≠ .idle := fun e => by simp [e, Ticket] at ht
      rw [hdrawn hpi]
      exact (hown p).ticket ht

/-! ## The order of two tasks

`Behind s x m`, for a task `x` whose number stands: `m` has not begun to draw, or
every value it has in hand since it looked at the slot of `x` is at least the
number of `x`, or it has drawn a number that comes after that of `x`. -/

/-- `m` cannot overtake the number that `x` holds now. -/
def Behind (s : State) (x m : Nat) : Prop :=
  match s.pc m with
  | .idle | .setChoosing | .zeroNum => True
  | .cmpThat j | .takeThat j => s.nulltask x < j → drawn s x ≤ drawn s m
  | .cmpThis j r =>
      (s.nulltask x < j → drawn s x ≤ drawn s m) ∧ (s.nulltask x = j → r = drawn s x)
  | .takeThis j => s.nulltask x ≤ j → drawn s x ≤ drawn s m
  | .store j r => s.nulltask x ≤ j → drawn s x ≤ r
  | .incRead => drawn s x ≤ drawn s m
  | .incWrite r => drawn s x ≤ r
  | _ => drawn s x < drawn s m ∨ drawn s x = drawn s m ∧ s.nulltask x < s.nulltask m

/-- `x`, at slot `j` of the waiting loop, is done with the slots below `j`; at the
slot of `m` itself, `m` is behind or holds a number of which `P` is known. -/
def Past (s : State) (x m j : Nat) (P : Prop) : Prop :=
  (s.nulltask m < j → Behind s x m) ∧
    (s.nulltask m = j → Behind s x m ∨ Ticket (s.pc m) ∧ P)

/-- What the progress of `x` through the waiting loop says about `m`. -/
def Ordered (s : State) (x m : Nat) : Prop :=
  match s.pc x with
  | .testChoosing j => s.nulltask m < j → Behind s x m
  | .testZero j | .testLess j => Past s x m j True
  | .testLessOwn j r => Past s x m j (r = drawn s m)
  | .testEq j => Past s x m j (drawn s x ≤ drawn s m)
  | .testEqOwn j r => Past s x m j (drawn s x ≤ drawn s m ∧ r = drawn s m)
  | .critical => Behind s x m
  | _ => True

theorem behind_idle {s : State} {x m : Nat} (h : s.pc m = .idle) : Behind s x m := by
  simp [Behind, h]

/-- Among tasks with a number, behind is the order of numbers, then of slots. -/
theorem behind_ticket {s : State} {x m : Nat} (hm : Ticket (s.pc m)) :
    Behind s x m ↔
      drawn s x < drawn s m ∨ drawn s x = drawn s m ∧ s.nulltask x < s.nulltask m := by
  unfold Behind
  split <;> simp_all [Ticket]

/-- Two tasks with a number cannot both be behind the other. -/
theorem Behind.asymm {s : State} {x m : Nat} (hx : Ticket (s.pc x)) (hm : Ticket (s.pc m))
    (hxm : Behind s x m) (hmx : Behind s m x) : False := by
  have h₁ := (behind_ticket hm).mp hxm
  have h₂ := (behind_ticket hx).mp hmx
  omega

/-- A drawing task that passes the slot of `x` has its number in hand from then on. -/
theorem behind_maxFrom {s : State} {x m j : Nat} (hpc : s.pc m = maxFrom (s.nulltask m) (j + 1))
    (hne : s.nulltask x ≠ s.nulltask m) (hlt : s.nulltask x < NR_TASKS)
    (h : s.nulltask x ≤ j → drawn s x ≤ drawn s m) : Behind s x m := by
  unfold Behind
  rcases maxFrom_cases (s.nulltask m) (j + 1) with ⟨e, hj, hj'⟩ | e | ⟨e, hj⟩ <;>
    rw [hpc, e] <;> dsimp only
  · exact h (by omega)
  · exact fun hxj => h (by omega)
  · exact fun hxj => h (by omega)

/-- The move of `m` in the lock code keeps `m` behind `x`: this is where a second
read below the running maximum would do harm. -/
theorem Behind.move {s s' : State} {x m : Nat} (hb : Behind s x m)
    (hi : s.pc m ≠ .idle) (hkeep : KeepsMax s m)
    (hne : s.nulltask x ≠ s.nulltask m) (hpos : 1 ≤ s.nulltask x)
    (hlt : s.nulltask x < NR_TASKS)
    (hnull : s'.nulltask = s.nulltask) (hdrawn : drawn s' x = drawn s x)
    (hpc : s'.pc m = (move s.lamparray (s.nulltask m) (s.pc m)).1)
    (hown : s'.lamparray (s.nulltask m) = (move s.lamparray (s.nulltask m) (s.pc m)).2) :
    Behind s' x m := by
  have hm : drawn s' m = (Bakery.move s.lamparray (s.nulltask m) (s.pc m)).2.num := by
    rw [drawn, hnull, hown]
  have hx : (s.lamparray (s.nulltask x)).num = drawn s x := rfl
  have hm0 : (s.lamparray (s.nulltask m)).num = drawn s m := rfl
  have hnext : ∀ j, s'.pc m = maxFrom (s.nulltask m) (j + 1) →
      (s.nulltask x ≤ j → drawn s x ≤ drawn s' m) → Behind s' x m := fun j hj hle =>
    behind_maxFrom (by rw [hnull]; exact hj) (by rwa [hnull]) (by rwa [hnull])
      (by rwa [hnull, hdrawn])
  by_cases htick : Ticket (s.pc m)
  · obtain ⟨h₁, h₂⟩ := move_ticket s.lamparray (s.nulltask m) htick
    rw [h₂] at hm
    have hold : drawn s x < drawn s m ∨ drawn s x = drawn s m ∧ s.nulltask x < s.nulltask m :=
      (behind_ticket htick).mp hb
    rw [← hpc] at h₁
    exact (behind_ticket h₁).mpr (by rwa [hnull, hdrawn, hm])
  unfold Behind at hb
  cases hpm : s.pc m with
  | idle => exact absurd hpm hi
  | setChoosing => simp [Behind, hpc, hpm, Bakery.move]
  | zeroNum =>
      rw [hpm] at hpc
      exact hnext 0 hpc fun h0 => absurd h0 (by omega)
  | cmpThat j =>
      simp only [hpm] at hb
      simp only [Behind, hpc, hpm, hm, hnull, hdrawn, Bakery.move]
      exact ⟨hb, fun e => by rw [← e, hx]⟩
  | cmpThis j r =>
      simp only [hpm] at hb hpc hm
      simp only [Bakery.move, hm0] at hpc hm
      obtain ⟨hb₁, hb₂⟩ := hb
      rcases Nat.lt_or_ge (drawn s m) r with hr | hr
      · rw [if_pos hr] at hpc
        simpa only [Behind, hpc, hm, hnull, hdrawn] using hb₁
      · rw [if_neg (by omega)] at hpc
        simp only [Behind, hpc, hm, hnull, hdrawn]
        intro hj
        rcases Nat.lt_or_eq_of_le hj with h | h
        · exact hb₁ h
        · have := hb₂ h
          omega
  | takeThat j =>
      -- the second read of the number of slot `j`
      simp only [hpm] at hb hpc hm
      simp only [Behind, hpc, hnull, hdrawn, Bakery.move]
      intro hj
      rcases Nat.lt_or_eq_of_le hj with h | h
      · exact Nat.le_trans (hb h) (hkeep j hpm)
      · exact Nat.le_of_eq (by rw [← h, hx])
  | takeThis j =>
      simp only [hpm] at hb hpc
      simpa only [Behind, hpc, hnull, hdrawn, Bakery.move, hm0] using hb
  | store j r =>
      simp only [hpm] at hb hpc hm
      exact hnext j hpc (by rwa [hm])
  | incRead =>
      simp only [hpm] at hb hpc
      simpa only [Behind, hpc, hdrawn, Bakery.move, hm0] using hb
  | incWrite r =>
      simp only [hpm] at hb hpc hm
      simp only [Behind, hpc, hm, hdrawn, Bakery.move]
      exact Or.inl (by omega)
  | clearChoosing =>
      simp only [hpm] at hb hpc hm
      rw [behind_ticket (by rw [hpc]; exact (testFrom_ticket 0).1), hnull, hdrawn, hm]
      exact hb
  | _ => simp [hpm, Ticket] at htick

/-- What a step of the task `m` itself leaves of its place behind `x`. -/
theorem Behind.step {s s' : State} {x m : Nat} (hslot : SlotOk s) (hreg : Occupies s m)
    (hkeep : KeepsMax s m) (h : step s m = some s') (hxm : x ≠ m)
    (hx : s.pc x ≠ .idle) (hb : Behind s x m) : Behind s' x m := by
  obtain ⟨hpcx, hnullx, hdrawn⟩ := step_other hslot hreg h hxm
  rcases step_cases hslot hreg h with ⟨-, i, -, rfl⟩ | ⟨-, rfl⟩ | ⟨hi, -, rfl⟩
  · simp [Behind]
  · simp [Behind]
  · obtain ⟨-, hpos, hlt⟩ := findPid_some (hslot x hx)
    exact hb.move hi hkeep (fun e => hxm (hslot.inj hx hi e)) hpos hlt rfl (hdrawn hx)
      (by simp) (by simp)

/-- A step of a task with a number leaves its number, or ends the task's turn. -/
theorem Ticket.step {s s' : State} {x m : Nat} (hslot : SlotOk s) (hreg : Occupies s m)
    (h : step s m = some s') (ht : Ticket (s.pc m)) :
    Behind s' x m ∨ Ticket (s'.pc m) ∧ drawn s' m = drawn s m ∧
      s'.nulltask m = s.nulltask m := by
  rcases step_cases hslot hreg h with ⟨hi, -⟩ | ⟨-, rfl⟩ | ⟨hi, hc, rfl⟩
  · exact absurd hi ht.not_choosing.2.2
  · exact Or.inl (by simp [Behind])
  · obtain ⟨h₁, h₂⟩ := move_ticket s.lamparray (s.nulltask m) ht
    exact Or.inr ⟨by simpa using h₁, by simp [drawn, h₂], rfl⟩

theorem Behind.congr {s s' : State} {x m : Nat} (hb : Behind s x m)
    (hpc : s'.pc m = s.pc m) (hx : s'.nulltask x = s.nulltask x)
    (hm : s'.nulltask m = s.nulltask m) (hdx : drawn s' x = drawn s x)
    (hdm : s.pc m ≠ .idle → drawn s' m = drawn s m) : Behind s' x m := by
  unfold Behind at hb ⊢
  rw [hpc, hx, hm, hdx]
  cases hpm : s.pc m with
  | idle | setChoosing | zeroNum => trivial
  | _ =>
      have hd := hdm (by rw [hpm]; simp)
      simpa only [hpm, hd] using hb

theorem Behind.past {s : State} {x m j : Nat} {P : Prop} (h : Behind s x m) :
    Past s x m j P :=
  ⟨fun _ => h, fun _ => Or.inl h⟩

/-- `Past` survives whatever leaves `m` behind and its number standing. -/
theorem Past.imp {s s' : State} {x m j : Nat} {P P' : Prop} (h : Past s x m j P)
    (hb : Behind s x m → Behind s' x m)
    (ht : Ticket (s.pc m) → P → Behind s' x m ∨ Ticket (s'.pc m) ∧ P')
    (hnull : s'.nulltask m = s.nulltask m) : Past s' x m j P' := by
  refine ⟨fun hj => hb (h.1 (hnull ▸ hj)), fun hj => ?_⟩
  rcases h.2 (hnull ▸ hj) with h | ⟨h₁, h₂⟩
  · exact Or.inl (hb h)
  · exact ht h₁ h₂

/-- A task outside the waiting loop owes nothing to the order. -/
theorem ordered_of_not_ticket {s : State} {x m : Nat} (h : ¬Ticket (s.pc x)) :
    Ordered s x m := by
  unfold Ordered
  split <;> simp_all [Ticket]

/-- What keeps `m` behind `x`, and the number of a waiting `m`, keeps the order. -/
theorem Ordered.imp {s s' : State} {x m : Nat} (h : Ordered s x m)
    (hpc : s'.pc x = s.pc x) (hdx : drawn s' x = drawn s x)
    (hb : Behind s x m → Behind s' x m)
    (ht : Ticket (s.pc m) → Behind s' x m ∨
      Ticket (s'.pc m) ∧ drawn s' m = drawn s m ∧ s'.nulltask m = s.nulltask m)
    (hnull : s'.nulltask m = s.nulltask m ∨ Behind s' x m) : Ordered s' x m := by
  by_cases hbeh : Behind s' x m
  · unfold Ordered
    split
    all_goals first
      | exact fun _ => hbeh
      | exact hbeh.past
      | exact hbeh
      | trivial
  have hnull := hnull.resolve_right hbeh
  have ht' : ∀ {P P' : Prop}, (drawn s' m = drawn s m → P → P') →
      Ticket (s.pc m) → P → Behind s' x m ∨ Ticket (s'.pc m) ∧ P' := fun hP h hp =>
    let ⟨h₁, h₂, _⟩ := (ht h).resolve_left hbeh
    Or.inr ⟨h₁, hP h₂ hp⟩
  unfold Ordered at h ⊢
  rw [hpc]
  cases hpx : s.pc x with
  | testChoosing j =>
      simp only [hpx] at h
      exact fun hlt => hb (h (hnull ▸ hlt))
  | testZero j | testLess j =>
      simp only [hpx] at h
      exact h.imp hb (ht' fun _ h => h) hnull
  | testLessOwn j r =>
      simp only [hpx] at h
      exact h.imp hb (ht' fun hd h => by rwa [hd]) hnull
  | testEq j =>
      simp only [hpx] at h
      exact h.imp hb (ht' fun hd h => by rwa [hd, hdx]) hnull
  | testEqOwn j r =>
      simp only [hpx] at h
      exact h.imp hb (ht' fun hd h => by rwa [hd, hdx]) hnull
  | critical =>
      simp only [hpx] at h
      exact hb h
  | _ => trivial

/-- Going on to slot `j + 1` of the waiting loop, or out of it. -/
theorem ordered_testFrom {s : State} {x m j : Nat} (hpc : s.pc x = testFrom (j + 1))
    (hm : s.pc m ≠ .idle → s.nulltask m < NR_TASKS)
    (h : s.nulltask m ≤ j → Behind s x m) : Ordered s x m := by
  unfold Ordered
  rcases testFrom_cases (j + 1) with e | ⟨e, hj⟩ <;> rw [hpc, e] <;> dsimp only
  · exact fun hlt => h (by omega)
  · by_cases hi : s.pc m = .idle
    · exact behind_idle hi
    · exact h (by have := hm hi; omega)

/-- The own move of `x` in the waiting loop: each test it gets past leaves the
task of that slot behind it. -/
theorem Ordered.move {s : State} {x m : Nat} (hxm : m ≠ x) (hslot : SlotOk s)
    (hown : OwnOk s m) (hx : Ticket (s.pc x)) (hc : s.pc x ≠ .critical)
    (h : Ordered s x m) :
    Ordered { s with
      pc := update s.pc x (move s.lamparray (s.nulltask x) (s.pc x)).1 } x m := by
  set s' : State :=
    { s with pc := update s.pc x (Bakery.move s.lamparray (s.nulltask x) (s.pc x)).1 }
    with hs'
  have hpcm : s'.pc m = s.pc m := by simp [hs', hxm]
  have hb : Behind s x m → Behind s' x m := fun hb =>
    hb.congr hpcm rfl rfl rfl fun _ => rfl
  have ht : ∀ {P P' : Prop}, (P → P') → Ticket (s.pc m) → P →
      Behind s' x m ∨ Ticket (s'.pc m) ∧ P' := fun hP h hp =>
    Or.inr ⟨by rwa [hpcm], hP hp⟩
  have hlt : s'.pc m ≠ .idle → s'.nulltask m < NR_TASKS := fun hi =>
    (findPid_some (hslot m (by rwa [← hpcm]))).2.2
  have hne : Ticket (s.pc m) → s.nulltask m ≠ s.nulltask x := fun hm e =>
    hxm (hslot.inj hm.not_choosing.2.2 hx.not_choosing.2.2 e)
  have hpcx : s'.pc x = (Bakery.move s.lamparray (s.nulltask x) (s.pc x)).1 := by
    simp [hs']
  have hown0 : (s.lamparray (s.nulltask x)).num = drawn s x := rfl
  have hthat : ∀ {j}, s.nulltask m = j → (s.lamparray j).num = drawn s m := fun e => by
    rw [← e]; rfl
  unfold Ordered at h
  cases hpx : s.pc x with
  | critical => exact absurd hpx hc
  | testChoosing j =>
      simp only [hpx] at h
      by_cases hch : (s.lamparray j).choosing = true
      · have hpc' : s'.pc x = .testChoosing j := by rw [hpcx, hpx]; simp [Bakery.move, hch]
        simp only [Ordered, hpc']
        exact fun hj => hb (h hj)
      · have hpc' : s'.pc x = .testZero j := by rw [hpcx, hpx]; simp [Bakery.move, hch]
        simp only [Ordered, hpc']
        refine ⟨fun hj => hb (h hj), fun hj => ?_⟩
        -- `choosing` of `m` is clear: it has not begun to draw, or has its number
        have hnot : ¬Choosing (s.pc m) := fun hm => by
          rw [← hj] at hch
          exact hch (hown.choosing hm)
        by_cases hm : Ticket (s.pc m)
        · exact Or.inr ⟨by rwa [hpcm], trivial⟩
        · refine Or.inl (hb ?_)
          unfold Behind
          cases hpm : s.pc m <;> simp_all [Choosing, Ticket]
  | testZero j =>
      simp only [hpx] at h
      by_cases hz : (s.lamparray j).num = 0
      · have hpc' : s'.pc x = testFrom (j + 1) := by rw [hpcx, hpx]; simp [Bakery.move, hz]
        refine ordered_testFrom hpc' hlt fun (hj : s.nulltask m ≤ j) => hb ?_
        rcases Nat.lt_or_eq_of_le hj with hj | hj
        · exact h.1 hj
        · refine (h.2 hj).resolve_right fun ⟨hm, _⟩ => ?_
          have := hown.ticket (Or.inl hm)
          rw [hthat hj] at hz
          omega
      · have hpc' : s'.pc x = .testLess j := by rw [hpcx, hpx]; simp [Bakery.move, hz]
        simp only [Ordered, hpc']
        exact h.imp hb (ht id) rfl
  | testLess j =>
      simp only [hpx] at h
      have hpc' : s'.pc x = .testLessOwn j (s.lamparray j).num := by
        rw [hpcx, hpx]; simp [Bakery.move]
      simp only [Ordered, hpc']
      refine ⟨fun hj => hb (h.1 hj), fun hj => (h.2 hj).imp hb fun ⟨hm, _⟩ => ?_⟩
      exact ⟨by rwa [hpcm], hthat hj⟩
  | testLessOwn j r =>
      simp only [hpx] at h
      by_cases hr : r < drawn s x
      · have hpc' : s'.pc x = .testZero j := by
          rw [hpcx, hpx]; simp [Bakery.move, hown0, hr]
        simp only [Ordered, hpc']
        exact h.imp hb (ht fun _ => trivial) rfl
      · have hpc' : s'.pc x = .testEq j := by
          rw [hpcx, hpx]; simp [Bakery.move, hown0, hr]
        simp only [Ordered, hpc']
        refine h.imp hb (ht fun (hrm : r = drawn s m) => ?_) rfl
        show drawn s x ≤ drawn s m
        omega
  | testEq j =>
      simp only [hpx] at h
      have hpc' : s'.pc x = .testEqOwn j (s.lamparray j).num := by
        rw [hpcx, hpx]; simp [Bakery.move]
      simp only [Ordered, hpc']
      refine ⟨fun hj => hb (h.1 hj), fun hj => (h.2 hj).imp hb fun ⟨hm, hle⟩ => ?_⟩
      exact ⟨by rwa [hpcm], hle, hthat hj⟩
  | testEqOwn j r =>
      simp only [hpx] at h
      by_cases hr : r = drawn s x ∧ j < s.nulltask x
      · have hpc' : s'.pc x = .testZero j := by
          rw [hpcx, hpx]; simp [Bakery.move, hown0, hr]
        simp only [Ordered, hpc']
        exact h.imp hb (ht fun _ => trivial) rfl
      · have hpc' : s'.pc x = testFrom (j + 1) := by
          rw [hpcx, hpx]; simp only [Bakery.move, hown0, if_neg hr]
        refine ordered_testFrom hpc' hlt fun (hj : s.nulltask m ≤ j) => hb ?_
        rcases Nat.lt_or_eq_of_le hj with hj | hj
        · exact h.1 hj
        · rcases h.2 hj with h | ⟨hm, hle, hrm⟩
          · exact h
          · have := hne hm
            exact (behind_ticket hm).mpr (by omega)
  | _ => simp [hpx, Ticket] at hx

/-! ## Mutual exclusion -/

/-- All of what is kept by the runs in which no second read goes wrong. -/
structure Inv (s : State) : Prop where
  slot : SlotOk s
  own : ∀ p, OwnOk s p
  order : ∀ x m, x ≠ m → Ordered s x m

theorem inv_start (pids : Nat → Nat) : Inv (start pids) := by
  refine ⟨fun p hp => absurd rfl hp, fun p => ⟨fun h => ?_, fun h => ?_⟩, fun x m _ => ?_⟩
  · simp [start, Choosing] at h
  · simp [start, Ticket] at h
  · exact ordered_of_not_ticket (by simp [start, Ticket])

theorem Inv.step {s s' : State} {a : Nat} (hs : Inv s) (hreg : Occupies s a)
    (hkeep : KeepsMax s a) (h : step s a = some s') : Inv s' := by
  obtain ⟨hslot, hown, hord⟩ := hs
  refine ⟨hslot.step hreg h, OwnOk.step hslot hreg hown h, fun x m hxm => ?_⟩
  have hold := hord x m hxm
  by_cases hx : Ticket (s.pc x)
  · have hxi := hx.not_choosing.2.2
    rcases eq_or_ne m a with rfl | hma
    · -- `m` moves
      obtain ⟨hpcx, hnullx, hdx⟩ := step_other hslot hreg h hxm
      refine hold.imp hpcx (hdx hxi) (Behind.step hslot hreg hkeep h hxm hxi)
        (Ticket.step hslot hreg h) ?_
      rcases step_cases hslot hreg h with ⟨-, i, -, rfl⟩ | ⟨-, rfl⟩ | ⟨-, -, rfl⟩
      · exact Or.inr (by simp [Behind])
      · exact Or.inl rfl
      · exact Or.inl rfl
    · obtain ⟨hpcm, hnullm, hdm⟩ := step_other hslot hreg h hma
      rcases eq_or_ne x a with rfl | hxa
      · -- `x` moves
        rcases step_cases hslot hreg h with ⟨hi, -⟩ | ⟨-, rfl⟩ | ⟨-, hc, rfl⟩
        · exact absurd hi hxi
        · exact ordered_of_not_ticket (by simp [Ticket])
        · have := (move_ticket s.lamparray (s.nulltask x) hx).2
          simpa [this] using hold.move hma hslot (hown m) hx hc
      · obtain ⟨hpcx, hnullx, hdx⟩ := step_other hslot hreg h hxa
        refine hold.imp hpcx (hdx hxi)
          (fun hb => hb.congr hpcm hnullx hnullm (hdx hxi) hdm) (fun ht => ?_) (Or.inl hnullm)
        have hmi := ht.not_choosing.2.2
        exact Or.inr ⟨by rwa [hpcm], hdm hmi, hnullm⟩
  · by_cases hx' : Ticket (s'.pc x)
    · have hxa : x = a := Decidable.byContradiction fun hxa =>
        hx ((step_other hslot hreg h hxa).1 ▸ hx')
      subst hxa
      have hpc : s'.pc x = .testChoosing 0 := by
        rcases step_cases hslot hreg h with ⟨-, i, -, rfl⟩ | ⟨-, rfl⟩ | ⟨-, -, rfl⟩
        · simp [Ticket] at hx'
        · simp [Ticket] at hx'
        · simpa using move_enter _ _ hx (by simpa using hx')
      simp [Ordered, hpc]
    · exact ordered_of_not_ticket hx'

/-- What the steps of a run are asked for: the acting task already occupies a slot,
and its second read in a maximum step does not fall below the running maximum. -/
def Sound (s : State) (a : Nat) : Prop := Occupies s a ∧ KeepsMax s a

/-- **Mutual exclusion of the bakery lock**, at the granularity of single reads and
writes, for any number of tasks that keep their slots and in every run in which no
second read of `lamparray[j].num` falls below the running maximum. The invariant is
`Inv`; its last part, `Ordered`, puts two tasks inside the lock behind one another. -/
theorem lamport_exclusive (pids : Nat → Nat) {s : State}
    (h : Reach step Sound (start pids) s) : Exclusive s := by
  have hinv : Inv s := h.invariant (inv_start pids) fun s a s' hs ⟨hreg, hkeep⟩ hstep =>
    hs.step hreg hkeep hstep
  intro x m hx hm
  by_contra hxm
  have hord : ∀ {x m}, x ≠ m → Inside s x → Behind s x m := fun hxm hx => by
    simpa [Ordered, show s.pc _ = .critical from hx] using hinv.order _ _ hxm
  have htick : ∀ {x}, Inside s x → Ticket (s.pc x) := fun hx => by
    rw [show s.pc _ = .critical from hx]; trivial
  exact (hord hxm hx).asymm (htick hx) (htick hm) (hord (Ne.symm hxm) hm)

instance (s : State) (p : Nat) : Decidable (Occupies s p) :=
  inferInstanceAs (Decidable (_ ≠ _))

instance (s : State) (p : Nat) : Decidable (KeepsMax s p) :=
  match h : s.pc p with
  | .takeThat j =>
    decidable_of_iff ((s.lamparray (s.nulltask p)).num ≤ (s.lamparray j).num)
      ⟨fun hle i hi => by cases h.symm.trans hi; exact hle, fun hk => hk j h⟩
  | .idle | .setChoosing | .zeroNum | .cmpThat _ | .cmpThis _ _ | .takeThis _ | .store _ _
  | .incRead | .incWrite _ | .clearChoosing | .testChoosing _ | .testZero _ | .testLess _
  | .testLessOwn _ _ | .testEq _ | .testEqOwn _ _ | .critical =>
    isTrue fun i hi => by cases h.symm.trans hi

instance (s : State) (p : Nat) : Decidable (Sound s p) :=
  inferInstanceAs (Decidable (_ ∧ _))

/-- Task 1 takes the lock and task 2 begins to draw its number. -/
def oneInside : List Nat := List.replicate 386 1 ++ List.replicate 8 2

theorem lamport_exclusive_inside : ∃ s, exec (checked step Sound) (start id) oneInside = some s ∧
    Inside s 1 ∧ ¬Inside s 2 ∧ Exclusive s := by
  obtain ⟨s, hs, h₁, h₂⟩ : ∃ s, exec (checked step Sound) (start id) oneInside = some s ∧
      s.pc 1 = .critical ∧ s.pc 2 ≠ .critical := exec_any (by decide +kernel)
  exact ⟨s, hs, h₁, h₂, lamport_exclusive id (exec_checked hs)⟩

/-! ## A run in which a second read goes wrong

In the run below the tasks 1 .. 5 have the slots 1 .. 5. Its length comes from
the slots in between that nobody uses, so it is given in `Quick` actions, which
pass a stretch of unused slots at once; each stands for a run of steps. -/

inductive Quick where
  /-- one step of the task -/
  | one (p : Nat)
  /-- the maximum loop over slots with number 0, up to slot `j` -/
  | scan (p j : Nat)
  /-- the waiting loop over slots with number 0 and `choosing` clear, up to slot `j` -/
  | wait (p j : Nat)

def quick (s : State) : Quick → Option State
  | .one p => if Occupies s p then step s p else none
  | .scan p j =>
    match s.pc p with
    | .cmpThat i =>
      if Occupies s p ∧ i ≠ s.nulltask p ∧ i < j ∧ j ≤ NR_TASKS ∧
          ∀ k ∈ List.range' i (j - i), k = s.nulltask p ∨ (s.lamparray k).num = 0 then
        some { s with pc := update s.pc p (maxFrom (s.nulltask p) j) }
      else none
    | _ => none
  | .wait p j =>
    match s.pc p with
    | .testChoosing i =>
      if Occupies s p ∧ i < j ∧ j ≤ NR_TASKS ∧ ∀ k ∈ List.range' i (j - i),
          (s.lamparray k).choosing = false ∧ (s.lamparray k).num = 0 then
        some { s with pc := update s.pc p (testFrom j) }
      else none
    | _ => none

theorem maxFrom_self (me : Nat) : maxFrom me me = maxFrom me (me + 1) := by
  unfold maxFrom
  split
  · rw [if_pos (by omega)]
  · simp

/-- Where the loops of `lamportLock` go round once more instead of leaving. -/
def Waits (arr : LampArray) (me : Nat) : Pc → Prop
  | .testChoosing j => (arr j).choosing = true
  | .testLessOwn _ r => r < (arr me).num
  | .testEqOwn j r => r = (arr me).num ∧ j < me
  | _ => False

section Passing

variable {ok : State → Nat → Prop} {s : State} {p j : Nat}

/-- The side condition of a run holds at the accesses of `p` that do not wait. -/
def Passable (ok : State → Nat → Prop) (s : State) (p : Nat) : Prop :=
  ∀ pc, ¬Waits s.lamparray (s.nulltask p) pc → ok { s with pc := update s.pc p pc } p

theorem Passable.self (h : Passable ok s p) (hw : ¬Waits s.lamparray (s.nulltask p) (s.pc p)) :
    ok s p := by
  have := h _ hw
  rwa [update_eq_self] at this

theorem Passable.goto (h : Passable ok s p) (pc : Pc) :
    Passable ok { s with pc := update s.pc p pc } p := by
  intro pc' hw
  have := h pc' hw
  simpa using this

/-- Passing one slot with number 0 in the maximum loop changes nothing else. -/
theorem scan_one (hp : Passable ok s p) (hpc : s.pc p = .cmpThat j)
    (hz : (s.lamparray j).num = 0) :
    Reach step ok s { s with pc := update s.pc p (maxFrom (s.nulltask p) (j + 1)) } := by
  let at_ (pc : Pc) : State := { s with pc := update s.pc p pc }
  have h₁ : step s p = some (at_ (.cmpThis j 0)) := by simp [step, hpc, move, hz, at_]
  have h₂ : step (at_ (.cmpThis j 0)) p = some (at_ (.takeThis j)) := by
    simp [step, move, at_]
  have h₃ : step (at_ (.takeThis j)) p
      = some (at_ (.store j (s.lamparray (s.nulltask p)).num)) := by
    simp [step, move, at_]
  have h₄ : step (at_ (.store j (s.lamparray (s.nulltask p)).num)) p
      = some (at_ (maxFrom (s.nulltask p) (j + 1))) := by
    simp [step, move, at_]
  exact (((Reach.one (hp.self (by rw [hpc]; exact id)) h₁).next (hp _ id) h₂).next
    (hp _ id) h₃).next (hp _ id) h₄

theorem wait_one (hp : Passable ok s p) (hpc : s.pc p = .testChoosing j)
    (hc : (s.lamparray j).choosing = false) (hz : (s.lamparray j).num = 0) :
    Reach step ok s { s with pc := update s.pc p (testFrom (j + 1)) } := by
  let at_ (pc : Pc) : State := { s with pc := update s.pc p pc }
  have h₁ : step s p = some (at_ (.testZero j)) := by simp [step, hpc, move, hc, at_]
  have h₂ : step (at_ (.testZero j)) p = some (at_ (testFrom (j + 1))) := by
    simp [step, move, hz, at_]
  exact (Reach.one (hp.self (by rw [hpc]; simp [Waits, hc])) h₁).next (hp _ id) h₂

theorem scan_reach {p j : Nat} (hj : j ≤ NR_TASKS) : ∀ {n i : Nat} {s : State},
    i + n = j → Passable ok s p → s.pc p = maxFrom (s.nulltask p) i →
    (∀ k, i ≤ k → k < j → k = s.nulltask p ∨ (s.lamparray k).num = 0) →
    Reach step ok s { s with pc := update s.pc p (maxFrom (s.nulltask p) j) }
  | 0, i, s, hn, _, hpc, _ => by
      obtain rfl : i = j := by omega
      rw [← hpc, update_eq_self]
      exact .start
  | n + 1, i, s, hn, hp, hpc, hz => by
      rcases eq_or_ne i (s.nulltask p) with hi | hi
      · refine scan_reach hj (n := n) (i := i + 1) (by omega) hp ?_ fun k h₁ h₂ =>
          hz k (by omega) h₂
        rw [hpc, hi, maxFrom_self]
      · have hpc' : s.pc p = .cmpThat i := by
          rw [hpc, maxFrom, if_neg (by omega), if_pos hi]
        have hnext := scan_one hp hpc' ((hz i (by omega) (by omega)).resolve_left hi)
        have := scan_reach (p := p) hj (n := n) (i := i + 1)
          (s := { s with pc := update s.pc p (maxFrom (s.nulltask p) (i + 1)) })
          (by omega) (hp.goto _) (by simp) fun k h₁ h₂ => hz k (by omega) h₂
        simpa using hnext.trans this

theorem wait_reach {p j : Nat} (hj : j ≤ NR_TASKS) : ∀ {n i : Nat} {s : State},
    i + n = j → Passable ok s p → s.pc p = testFrom i →
    (∀ k, i ≤ k → k < j → (s.lamparray k).choosing = false ∧ (s.lamparray k).num = 0) →
    Reach step ok s { s with pc := update s.pc p (testFrom j) }
  | 0, i, s, hn, _, hpc, _ => by
      obtain rfl : i = j := by omega
      rw [← hpc, update_eq_self]
      exact .start
  | n + 1, i, s, hn, hp, hpc, hz => by
      have hpc' : s.pc p = .testChoosing i := by rw [hpc, testFrom, if_pos (by omega)]
      obtain ⟨hc, hnum⟩ := hz i (by omega) (by omega)
      have hnext := wait_one hp hpc' hc hnum
      have := wait_reach (p := p) hj (n := n) (i := i + 1)
        (s := { s with pc := update s.pc p (testFrom (i + 1)) })
        (by omega) (hp.goto _) (by simp) fun k h₁ h₂ => hz k (by omega) h₂
      simpa using hnext.trans this

end Passing

/-- Every quick action stands for a run of steps. -/
theorem quick_reach {s s' : State} {a : Quick} (h : quick s a = some s') :
    Reach step Occupies s s' := by
  cases a with
  | one p =>
      simp only [quick, Option.ite_none_right_eq_some] at h
      exact Reach.one h.1 h.2
  | scan p j =>
      simp only [quick] at h
      split at h
      · rename_i i hpc
        simp only [Option.ite_none_right_eq_some, Option.some.injEq] at h
        obtain ⟨⟨hp, hi, hij, hj, hz⟩, rfl⟩ := h
        refine scan_reach hj (n := j - i) (i := i) (by omega) (fun _ _ => hp) ?_ fun k h₁ h₂ =>
          hz k (List.mem_range'_1.mpr ⟨h₁, by omega⟩)
        rw [hpc, maxFrom, if_neg (by omega), if_pos hi]
      · cases h
  | wait p j =>
      simp only [quick] at h
      split at h
      · rename_i i hpc
        simp only [Option.ite_none_right_eq_some, Option.some.injEq] at h
        obtain ⟨⟨hp, hij, hj, hz⟩, rfl⟩ := h
        refine wait_reach hj (n := j - i) (i := i) (by omega) (fun _ _ => hp) ?_ fun k h₁ h₂ =>
          hz k (List.mem_range'_1.mpr ⟨h₁, by omega⟩)
        rw [hpc, testFrom, if_pos (by omega)]
      · cases h

theorem exec_quick {as : List Quick} {s s' : State} (h : exec quick s as = some s') :
    Reach step Occupies s s' :=
  exec_refines (fun _ _ _ => quick_reach) h

/-- `n` steps of one task. -/
def steps (p n : Nat) : List Quick := List.replicate n (.one p)

/-- Task 2 has the lock; tasks 4 and 5 draw the numbers 2 and 3 and go in and out
one after the other. Meanwhile task 2 draws again and sees their slots only after
both are back at 0, so that it holds number 1. Task 3 had taken 2 from task 4 and
compared it with the 3 of task 5, and reads again: 0. Task 1, which starts after
task 2 has passed it, takes 1 from task 2, finds the 2 of task 3 larger, and reads
again: 0. So it draws number 1 too, and its slot comes first. -/
def overtaking : List Quick := List.flatten [
  steps 2 3, [.scan 2 64], steps 2 3, [.wait 2 2], steps 2 6, [.wait 2 64],
  steps 4 3, [.scan 4 2], steps 4 4, [.scan 4 64], steps 4 3, [.wait 4 2],
  steps 5 3, [.scan 5 2], steps 5 4, [.scan 5 4], steps 5 4, [.scan 5 64],
  steps 5 3, [.wait 5 2],
  steps 2 1,
  [.wait 4 4], steps 4 12, [.wait 4 64],
  [.wait 5 4], steps 5 1,
  steps 2 3, [.scan 2 4],
  steps 3 3, [.scan 3 4], steps 3 6,
  steps 4 1,
  steps 5 7, [.wait 5 64], steps 5 1,
  [.scan 2 64], steps 2 3, [.wait 2 2], steps 2 6,
  steps 1 9,
  steps 3 2,
  steps 1 2, [.scan 1 64], steps 1 3,
  [.scan 3 64], steps 3 3,
  steps 2 6, [.wait 2 64],
  [.wait 1 1], steps 1 18, [.wait 1 64]]

/-- The lock does not exclude: after this run of five registered tasks, tasks 1 and 2
are both past `lamportLock` and before `lamportUnlock`. -/
theorem lamport_not_exclusive :
    ∃ s, Reach step Occupies (start id) s ∧ ¬Exclusive s := by
  obtain ⟨s, hs, h₁, h₂⟩ : ∃ s, exec quick (start id) overtaking = some s ∧
      s.pc 1 = .critical ∧ s.pc 2 = .critical := exec_any (by decide +kernel)
  refine ⟨s, exec_quick hs, fun h => ?_⟩
  have : (1 : Nat) = 2 := h 1 2 h₁ h₂
  omega

end Bakery

end Linux011
