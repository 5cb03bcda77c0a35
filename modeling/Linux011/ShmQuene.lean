import Linux011.Ring
import Linux011.Runs

/-!
# The queue in the shared segment

`getQueneValue` and `putQueneValue` of `test6/sem_shm.c`: a ring of `QUENE_NUM`
cells with the indices `head` and `tail`, in which 0 marks a free cell. The
queue keeps one cell free, so it holds at most `QUENE_NUM - 1` values.

`Ring` has the general facts about an array that is read as a ring: the cells
from `tail` on hold a list, a value is appended at its end and taken at its
front, and the indices go round. The source marks a free cell by 0 and looks for
this mark besides comparing the indices; `Holds` keeps the cells outside of the
list at 0 and one of them always free, and then the tests for empty and full are
tests of the length of the list, whatever the values are. `Refines` relates a
ring to a bounded list with the books of all values that were ever accepted and
taken, every call keeps it, and the induction over a sequence of calls is
`Runs.answers`. A put into a full ring is dropped on both sides, and a get from
an empty one answers -1 on both.
-/

namespace Linux011

open Function

def CONSUM_NUM : Nat := 8

def SHMDATA : Nat := 300

abbrev QUENE_NUM : Nat := 20

/-- `shmadrtype`. -/
structure Shmadrtype where
  head : Nat
  tail : Nat
  shmad : Nat → Int
  iniflag : Nat
  endflag : Nat

namespace Shmadrtype

def isQueneEmpty (quene : Shmadrtype) : Prop :=
  quene.head = quene.tail ∧ quene.shmad quene.head = 0

instance (quene : Shmadrtype) : Decidable quene.isQueneEmpty :=
  inferInstanceAs (Decidable (_ ∧ _))

def isQueneFull (quene : Shmadrtype) : Prop :=
  (quene.head + 1) % QUENE_NUM = quene.tail

instance (quene : Shmadrtype) : Decidable quene.isQueneFull :=
  inferInstanceAs (Decidable (_ = _))

def getQueneValue (quene : Shmadrtype) : Int × Shmadrtype :=
  if quene.isQueneEmpty then (-1, quene)
  else
    (quene.shmad quene.tail,
      { quene with
        shmad := update quene.shmad quene.tail 0
        tail := (quene.tail + 1) % QUENE_NUM })

def putQueneValue (quene : Shmadrtype) (value : Int) : Shmadrtype :=
  if quene.isQueneFull then quene
  else
    { quene with
      shmad := update quene.shmad quene.head value
      head := (quene.head + 1) % QUENE_NUM }

/-! ## The queue as a list -/

/-- The ring holds exactly `vals`, oldest first. -/
structure Holds (quene : Shmadrtype) (vals : List Int) : Prop where
  ring : Ring.Holds 0 QUENE_NUM quene.shmad quene.tail vals
  head : quene.head = (quene.tail + vals.length) % QUENE_NUM
  room : vals.length < QUENE_NUM

variable {quene : Shmadrtype} {vals : List Int}

theorem Holds.isQueneEmpty_iff (h : quene.Holds vals) : quene.isQueneEmpty ↔ vals = [] := by
  obtain ⟨hring, hhead, hroom⟩ := h
  have hbound := hring.bound
  constructor
  · intro ⟨he, _⟩
    refine List.length_eq_zero_iff.mp ?_
    simp only [QUENE_NUM] at *
    omega
  · rintro rfl
    have hhead' : quene.head = quene.tail := by
      simpa [Nat.mod_eq_of_lt hbound] using hhead
    refine ⟨hhead', ?_⟩
    have := hring.behind hroom
    rwa [← hhead] at this

theorem Holds.isQueneFull_iff (h : quene.Holds vals) :
    quene.isQueneFull ↔ vals.length = QUENE_NUM - 1 := by
  obtain ⟨hring, hhead, hroom⟩ := h
  have hbound := hring.bound
  simp only [isQueneFull, QUENE_NUM] at *
  omega

theorem Holds.putQueneValue (h : quene.Holds vals) (hlt : vals.length < QUENE_NUM - 1)
    (value : Int) : (quene.putQueneValue value).Holds (vals ++ [value]) := by
  have hfull : ¬quene.isQueneFull := fun hf => by
    have := h.isQueneFull_iff.mp hf
    omega
  obtain ⟨hring, hhead, hroom⟩ := h
  have hput := hring.push hroom value
  rw [← hhead] at hput
  rw [Shmadrtype.putQueneValue, if_neg hfull]
  refine ⟨hput, ?_, by simp; omega⟩
  simp only [List.length_append, List.length_singleton, QUENE_NUM] at *
  omega

theorem Holds.getQueneValue {v : Int} (h : quene.Holds (v :: vals)) :
    quene.getQueneValue.1 = v ∧ quene.getQueneValue.2.Holds vals := by
  have hempty : ¬quene.isQueneEmpty := fun he => by
    simpa using h.isQueneEmpty_iff.mp he
  obtain ⟨hring, hhead, hroom⟩ := h
  rw [Shmadrtype.getQueneValue, if_neg hempty]
  refine ⟨hring.first, hring.pop, ?_, ?_⟩
  · simp only [List.length_cons] at hhead
    simp only [QUENE_NUM] at *
    omega
  · simp only [List.length_cons] at hroom
    exact Nat.lt_of_succ_lt hroom

/-- Taking from the empty ring answers -1 and changes nothing. -/
theorem Holds.getQueneValue_nil (h : quene.Holds []) :
    quene.getQueneValue = (-1, quene) := by
  rw [Shmadrtype.getQueneValue, if_pos (h.isQueneEmpty_iff.mpr rfl)]

@[simp] theorem putQueneValue_endflag (quene : Shmadrtype) (value : Int) :
    (quene.putQueneValue value).endflag = quene.endflag := by
  unfold putQueneValue; split <;> rfl

@[simp] theorem getQueneValue_endflag (quene : Shmadrtype) :
    quene.getQueneValue.2.endflag = quene.endflag := by
  unfold getQueneValue; split <;> rfl

/-! ## Every sequence of calls -/

inductive Call where
  | getQueneValue
  | putQueneValue (value : Int)

/-- One call, and the value that it returns. -/
def call (quene : Shmadrtype) : Call → Option Int × Shmadrtype
  | .getQueneValue => (some quene.getQueneValue.1, quene.getQueneValue.2)
  | .putQueneValue value => (none, quene.putQueneValue value)

/-- What the queue is for: a bounded list of values, oldest first, with the books of what
was ever put and taken. -/
structure Fifo where
  vals : List Int
  accepted : List Int
  taken : List Int

def Fifo.empty : Fifo := ⟨[], [], []⟩

def Fifo.call (q : Fifo) : Call → Option Int × Fifo
  | .getQueneValue =>
    match q.vals with
    | [] => (some (-1), q)
    | v :: vals => (some v, { q with vals := vals, taken := q.taken ++ [v] })
  | .putQueneValue value =>
    if q.vals.length < QUENE_NUM - 1 then
      (none, { q with vals := q.vals ++ [value], accepted := q.accepted ++ [value] })
    else (none, q)

/-- The ring holds the values of the queue, and every accepted value was taken or is there
still, once and in order. -/
structure Refines (quene : Shmadrtype) (q : Fifo) : Prop where
  holds : quene.Holds q.vals
  balance : q.accepted = q.taken ++ q.vals

theorem Holds.putQueneValue_full (h : quene.Holds vals) (hfull : ¬vals.length < QUENE_NUM - 1)
    (value : Int) : quene.putQueneValue value = quene := by
  have hroom := h.room
  exact if_pos (h.isQueneFull_iff.mpr (by omega))

theorem Refines.call {q : Fifo} (h : quene.Refines q) (c : Call) :
    (quene.call c).1 = (q.call c).1 ∧ (quene.call c).2.Refines (q.call c).2 := by
  obtain ⟨hholds, hbalance⟩ := h
  cases c with
  | getQueneValue =>
      simp only [Shmadrtype.call, Fifo.call]
      split
      · rename_i hnil
        rw [hnil] at hholds
        rw [hholds.getQueneValue_nil]
        exact ⟨rfl, hnil ▸ hholds, hbalance⟩
      · rename_i v vals hcons
        rw [hcons] at hholds hbalance
        obtain ⟨hv, hrest⟩ := hholds.getQueneValue
        refine ⟨congrArg some hv, hrest, ?_⟩
        rw [hbalance, List.append_assoc, List.singleton_append]
  | putQueneValue value =>
      simp only [Shmadrtype.call, Fifo.call]
      split
      · rename_i hlt
        refine ⟨rfl, hholds.putQueneValue hlt value, ?_⟩
        rw [hbalance, List.append_assoc]
      · rename_i hfull
        rw [hholds.putQueneValue_full hfull]
        exact ⟨rfl, hholds, hbalance⟩

/-- The segment as `shmget` leaves it. -/
structure Zeroed (quene : Shmadrtype) : Prop where
  head : quene.head = 0
  tail : quene.tail = 0
  shmad : ∀ i < QUENE_NUM, quene.shmad i = 0

theorem Zeroed.holds (h : quene.Zeroed) : quene.Holds [] :=
  ⟨h.tail ▸ Ring.holds_nil (by decide) h.shmad, by rw [h.head, h.tail]; rfl, by decide⟩

/-- What every call finds: the ring holds the values of the queue, each accepted value was
taken or is still there, and the ring is empty, or full, exactly when the queue is. -/
structure Serves (quene : Shmadrtype) (q : Fifo) : Prop where
  holds : quene.Holds q.vals
  balance : q.accepted = q.taken ++ q.vals
  empty : quene.isQueneEmpty ↔ q.vals = []
  nothing : q.vals = [] → quene.getQueneValue = (-1, quene)
  full : quene.isQueneFull ↔ q.vals.length = QUENE_NUM - 1
  refused : q.vals.length = QUENE_NUM - 1 → ∀ value, quene.putQueneValue value = quene

theorem Refines.serves {q : Fifo} (h : quene.Refines q) : quene.Serves q where
  holds := h.holds
  balance := h.balance
  empty := h.holds.isQueneEmpty_iff
  nothing hnil := (hnil ▸ h.holds).getQueneValue_nil
  full := h.holds.isQueneFull_iff
  refused hfull := h.holds.putQueneValue_full (by omega)

/-- **The ring is a bounded queue.** Every sequence of puts and gets on a zeroed ring,
of any length and with any values, answers as the bounded list does, and ends in a ring
that holds the list: each accepted value was taken or is still there, once and in order.
-/
theorem quene_fifo (h : quene.Zeroed) (cs : List Call) :
    (Runs.answers Shmadrtype.call quene cs).1 = (Runs.answers Fifo.call Fifo.empty cs).1 ∧
      (Runs.answers Shmadrtype.call quene cs).2.Serves
        (Runs.answers Fifo.call Fifo.empty cs).2 := by
  obtain ⟨hanswers, hend⟩ := Runs.answers_simulate (R := Refines) (fun _ _ c h => h.call c) cs
    (t := Fifo.empty) ⟨h.holds, rfl⟩
  exact ⟨hanswers, hend.serves⟩

/-- A zero is put, and taken again. -/
theorem quene_fifo_zero : (Runs.answers Shmadrtype.call ⟨0, 0, fun _ => 0, 0, 0⟩
    [.putQueneValue 0, .getQueneValue, .getQueneValue]).1 = [none, some 0, some (-1)] :=
  (quene_fifo (show Zeroed ⟨0, 0, fun _ => 0, 0, 0⟩ from ⟨rfl, rfl, fun _ _ => rfl⟩)
    [.putQueneValue 0, .getQueneValue, .getQueneValue]).1.trans (by decide)

end Shmadrtype

end Linux011
