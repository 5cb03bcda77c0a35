import Linux011.Lamport
import Mathlib.Data.Finset.Card
import Mathlib.Order.Interval.Finset.Nat

/-!
# The bakery lock without contention

`lamportLock` and `lamportUnlock` run one after the other, each from its beginning to its end
(`lamportLock_reach` connects this with the single accesses). A pid claims a slot the first time
it locks and never gives it back. With 63 distinct pids the table is full; the next new pid is
put into slot 0, which `lamportUnlock` does not search, so that its number stays (`granted_iff`).

With nobody else in the lock code the numbers are all 0 when a task arrives: the maximum loop
comes to 1, both waiting loops are left at their first test, and only the registration of the pid
is left to look at. `Registered` is the invariant over the locks and unlocks of a sequence of
pids: all fields are 0, and the pids seen so far occupy one slot each of the slots from 1 on. A
pid that was seen finds its slot again, and a new one claims the last empty slot, of which there
is one as long as fewer than 63 pids were seen (`Registered.card_le`, `Registered.claim`). The
other direction of `granted_iff` counts in the same way: behind the 63rd pid every slot is
claimed, and the next one leaves its number in slot 0 (`Registered.stuck`).
-/

namespace Linux011

open Function Runs

namespace Bakery

/-- The maximum loop, and the addition after it. -/
def drawNumber (arr : LampArray) (nulltask : Nat) : Nat :=
  slots.foldl (fun num j =>
    if j ≠ nulltask then if (arr j).num > num then (arr j).num else num else num) 0 + 1

/-- The two waiting loops at index `j` are left at their first test. -/
def Passes (arr : LampArray) (nulltask j : Nat) : Prop :=
  (arr j).choosing = false ∧ ¬((arr j).num ≠ 0 ∧ ((arr j).num < (arr nulltask).num ∨
    (arr j).num = (arr nulltask).num ∧ j < nulltask))

instance (arr : LampArray) (nulltask j : Nat) : Decidable (Passes arr nulltask j) :=
  inferInstanceAs (Decidable (_ ∧ _))

/-- `lamportLock`, when nobody else runs; `none` where it has to wait. -/
def lamportLock (arr : LampArray) (pid : Nat) : Option LampArray :=
  let (nulltask, arr) := register arr pid
  let arr := update arr nulltask { arr nulltask with choosing := true }
  let arr := update arr nulltask { arr nulltask with num := 0 }
  let arr := update arr nulltask { arr nulltask with num := drawNumber arr nulltask }
  let arr := update arr nulltask { arr nulltask with choosing := false }
  if ∀ j < NR_TASKS, Passes arr nulltask j then some arr else none

def lamportUnlock (arr : LampArray) (pid : Nat) : LampArray :=
  match findPid arr pid with
  | none => arr
  | some i => update arr i { arr i with num := 0 }

/-- Every number and every `choosing` field is 0. -/
def AllZero (arr : LampArray) : Prop :=
  ∀ i < NR_TASKS, (arr i).choosing = false ∧ (arr i).num = 0

/-- Each pid in turn gets the lock without waiting, and releases it completely. -/
def Granted : LampArray → List Nat → Prop
  | _, [] => True
  | arr, pid :: pids => ∃ arr', lamportLock arr pid = some arr' ∧
      AllZero (lamportUnlock arr' pid) ∧ Granted (lamportUnlock arr' pid) pids

/-! ## One lock alone -/

variable {arr : LampArray} {pid : Nat}

theorem mem_slots {i : Nat} : i ∈ slots ↔ 1 ≤ i ∧ i < NR_TASKS := by
  have : NR_TASKS = 64 := rfl
  simp only [slots, List.mem_range'_1]
  omega

theorem findPid_unique {k : Nat} (hk : k ∈ slots) (hpid : (arr k).pid = pid)
    (hu : ∀ i ∈ slots, (arr i).pid = pid → i = k) : findPid arr pid = some k := by
  cases hf : findPid arr pid with
  | none =>
      have := List.find?_eq_none.mp hf k hk
      exact absurd hpid (by simpa using this)
  | some i =>
      obtain ⟨hi, h1, hlt⟩ := findPid_some hf
      rw [hu i (mem_slots.mpr ⟨h1, hlt⟩) hi]

theorem findPid_none (h : findPid arr pid = none) {i : Nat} (hi : i ∈ slots) :
    (arr i).pid ≠ pid := by
  have := List.find?_eq_none.mp h i hi
  simpa using this

theorem register_cases (arr : LampArray) (pid : Nat) :
    (∃ i, findPid arr pid = some i ∧ register arr pid = (i, arr)) ∨
    findPid arr pid = none ∧ ∃ k, register arr pid = (k, update arr k { arr k with pid := pid }) ∧
      (k ∈ slots ∧ (arr k).pid = 0 ∨ k = 0 ∧ ∀ i ∈ slots, (arr i).pid ≠ 0) := by
  unfold register
  cases hf : findPid arr pid with
  | some i => exact Or.inl ⟨i, rfl, rfl⟩
  | none =>
      refine Or.inr ⟨rfl, _, rfl, ?_⟩
      cases hl : (slots.filter fun i => (arr i).pid == 0).getLast? with
      | none =>
          right
          refine ⟨rfl, fun i hi h0 => ?_⟩
          have hnil := List.getLast?_eq_none_iff.mp hl
          have hmem : i ∈ slots.filter fun i => (arr i).pid == 0 :=
            List.mem_filter.mpr ⟨hi, by simpa using h0⟩
          rw [hnil] at hmem
          exact List.not_mem_nil hmem
      | some k =>
          left
          have hmem := List.mem_of_getLast? hl
          obtain ⟨hk, h0⟩ := List.mem_filter.mp hmem
          exact ⟨hk, by simpa using h0⟩

theorem register_lt (arr : LampArray) (pid : Nat) : (register arr pid).1 < NR_TASKS := by
  rcases register_cases arr pid with ⟨i, hf, hr⟩ | ⟨-, k, hr, hk⟩
  · rw [hr]
    exact (findPid_some hf).2.2
  · rw [hr]
    rcases hk with ⟨hk, -⟩ | ⟨hk, -⟩
    · exact (mem_slots.mp hk).2
    · exact hk ▸ (by decide : 0 < NR_TASKS)

theorem AllZero.register (h : AllZero arr) (pid : Nat) : AllZero (register arr pid).2 := by
  rcases register_cases arr pid with ⟨i, -, hr⟩ | ⟨-, k, hr, -⟩
  · rwa [hr]
  · rw [hr]
    intro j hj
    rcases eq_or_ne j k with rfl | hne
    · simpa using h j hj
    · simpa [hne] using h j hj

theorem drawNumber_eq {nulltask : Nat} (h : ∀ j < NR_TASKS, j = nulltask ∨ (arr j).num = 0) :
    drawNumber arr nulltask = 1 := by
  have hfold : ∀ l : List Nat, (∀ j ∈ l, j = nulltask ∨ (arr j).num = 0) →
      l.foldl (fun num j => if j ≠ nulltask then if (arr j).num > num then (arr j).num
        else num else num) 0 = 0 := by
    intro l
    induction l with
    | nil => intro _; rfl
    | cons a l ih =>
        intro hl
        have ha : (if a ≠ nulltask then if (arr a).num > 0 then (arr a).num else 0 else 0) = 0 := by
          rcases hl a (List.mem_cons_self ..) with rfl | h0
          · simp
          · simp [h0]
        rw [List.foldl_cons, ha]
        exact ih fun j hj => hl j (List.mem_cons_of_mem _ hj)
  rw [drawNumber, hfold slots fun j hj => h j (mem_slots.mp hj).2]

/-- Without contention the lock is granted, with number 1. -/
theorem lamportLock_eq (h : AllZero arr) (pid : Nat) :
    lamportLock arr pid = some (update (register arr pid).2 (register arr pid).1
      { (register arr pid).2 (register arr pid).1 with choosing := false, num := 1 }) := by
  have hz := h.register pid
  generalize hr : register arr pid = r at hz ⊢
  obtain ⟨me, arr'⟩ := r
  have hdraw : ∀ l : Lamport, drawNumber (update arr' me l) me = 1 := fun l =>
    drawNumber_eq fun j hj => by
      rcases eq_or_ne j me with rfl | hne
      · exact Or.inl rfl
      · exact Or.inr (by rw [update_of_ne hne]; exact (hz j hj).2)
  have hpass : ∀ j < NR_TASKS, Passes (update arr' me
      { arr' me with choosing := false, num := 1 }) me j := by
    intro j hj
    rcases eq_or_ne j me with rfl | hne
    · simp [Passes]
    · obtain ⟨hc, h0⟩ := hz j hj
      rw [Passes, update_of_ne hne]
      exact ⟨hc, fun h => h.1 h0⟩
  simp only [lamportLock, hr, update_self, update_idem, hdraw]
  rw [if_pos hpass]

/-! ## Any sequence of pids -/

/-- Nobody holds the lock, and the pids that have locked occupy one slot each. -/
structure Registered (arr : LampArray) (seen : Finset Nat) : Prop where
  zero : AllZero arr
  mem : ∀ p, p ∈ seen ↔ p ≠ 0 ∧ ∃ i ∈ slots, (arr i).pid = p
  inj : ∀ i ∈ slots, ∀ j ∈ slots, (arr i).pid = (arr j).pid → (arr i).pid ≠ 0 → i = j

variable {seen : Finset Nat}

theorem Registered.card_le (h : Registered arr seen) : seen.card ≤ 63 := by
  have hsub : seen ⊆ (Finset.Ico 1 64).image fun i => (arr i).pid := fun p hp => by
    obtain ⟨-, i, hi, hip⟩ := (h.mem p).mp hp
    exact Finset.mem_image.mpr ⟨i, Finset.mem_Ico.mpr (mem_slots.mp hi), hip⟩
  exact (Finset.card_le_card hsub).trans (Finset.card_image_le.trans (by simp))

theorem Registered.card_full (h : Registered arr seen) (hfull : ∀ i ∈ slots, (arr i).pid ≠ 0) :
    seen.card = 63 := by
  have heq : seen = (Finset.Ico 1 64).image fun i => (arr i).pid := by
    ext p
    rw [h.mem, Finset.mem_image]
    constructor
    · rintro ⟨-, i, hi, hip⟩
      exact ⟨i, Finset.mem_Ico.mpr (mem_slots.mp hi), hip⟩
    · rintro ⟨i, hi, rfl⟩
      have hi := mem_slots.mpr (Finset.mem_Ico.mp hi)
      exact ⟨hfull i hi, i, hi, rfl⟩
  rw [heq, Finset.card_image_of_injOn, Nat.card_Ico]
  intro i hi j hj he
  have hi := mem_slots.mpr (Finset.mem_Ico.mp hi)
  have hj := mem_slots.mpr (Finset.mem_Ico.mp hj)
  exact h.inj i hi j hj he (hfull i hi)

/-- After the lock code worked on slot `k` and gave it number 1, unlocking puts all
numbers back when it finds that slot. -/
theorem AllZero.unlock (h : AllZero arr) {k : Nat} (hf : findPid (update arr k
      { arr k with choosing := false, num := 1 }) pid = some k) :
    AllZero (lamportUnlock (update arr k { arr k with choosing := false, num := 1 }) pid) ∧
      ∀ i, (lamportUnlock (update arr k { arr k with choosing := false, num := 1 }) pid i).pid
        = (arr i).pid := by
  rw [lamportUnlock, hf]
  dsimp only
  rw [update_self, update_idem]
  constructor
  · intro i hi
    rcases eq_or_ne i k with rfl | hne
    · simp
    · simpa [hne] using h i hi
  · intro i
    rcases eq_or_ne i k with rfl | hne
    · simp
    · simp [hne]

theorem update_pid (arr : LampArray) (k : Nat) (l : Lamport) (hl : l.pid = (arr k).pid) (i : Nat) :
    (update arr k l i).pid = (arr i).pid := by
  rcases eq_or_ne i k with rfl | hne
  · simp [hl]
  · simp [hne]

theorem Registered.of_pid {arr' : LampArray} (h : Registered arr seen) (hz : AllZero arr')
    (hp : ∀ i, (arr' i).pid = (arr i).pid) : Registered arr' seen :=
  ⟨hz, fun p => by simp only [hp]; exact h.mem p, fun i hi j hj => by
    rw [hp, hp]
    exact h.inj i hi j hj⟩

theorem Registered.add {arr' : LampArray} (h : Registered arr seen) (hpos : pid ≠ 0)
    (hf : findPid arr pid = none) {k : Nat} (hk : k ∈ slots) (h0 : (arr k).pid = 0)
    (hz : AllZero arr') (hp : ∀ i, (arr' i).pid = if i = k then pid else (arr i).pid) :
    Registered arr' (insert pid seen) := by
  refine ⟨hz, fun p => ?_, fun i hi j hj he hne => ?_⟩
  · rw [Finset.mem_insert, h.mem]
    simp only [hp]
    constructor
    · rintro (rfl | ⟨hp0, i, hi, hip⟩)
      · exact ⟨hpos, k, hk, if_pos rfl⟩
      · refine ⟨hp0, i, hi, ?_⟩
        rw [if_neg fun e => hp0 (by rw [← hip, e, h0])]
        exact hip
    · rintro ⟨hp0, i, hi, hip⟩
      split at hip
      · exact Or.inl hip.symm
      · exact Or.inr ⟨hp0, i, hi, hip⟩
  · rw [hp, hp] at he
    rw [hp] at hne
    rcases eq_or_ne i k with rfl | hik
    · rcases eq_or_ne j i with rfl | hjk
      · rfl
      · rw [if_pos rfl, if_neg hjk] at he
        exact absurd he.symm (findPid_none hf hj)
    · rw [if_neg hik] at he hne
      rcases eq_or_ne j k with rfl | hjk
      · rw [if_pos rfl] at he
        exact absurd he (findPid_none hf hi)
      · rw [if_neg hjk] at he
        exact h.inj i hi j hj he hne

/-- A pid that has a slot locks and unlocks; nothing changes. -/
theorem Registered.again (h : Registered arr seen) {k : Nat} (hf : findPid arr pid = some k) :
    ∃ arr', lamportLock arr pid = some arr' ∧ Registered (lamportUnlock arr' pid) seen := by
  have hr : register arr pid = (k, arr) := by
    rw [register, hf]
  refine ⟨_, lamportLock_eq h.zero pid, ?_⟩
  rw [hr]
  have hpids := update_pid arr k { arr k with choosing := false, num := 1 } rfl
  have hfound : findPid (update arr k { arr k with choosing := false, num := 1 }) pid
      = some k := by
    rw [findPid_congr hpids, hf]
  obtain ⟨hz, hp⟩ := h.zero.unlock hfound
  exact h.of_pid hz hp

/-- A new pid that finds an empty slot locks and unlocks, and keeps that slot. -/
theorem Registered.claim (h : Registered arr seen) (hpos : pid ≠ 0)
    (hf : findPid arr pid = none) {k : Nat}
    (hr : register arr pid = (k, update arr k { arr k with pid := pid })) (hk : k ∈ slots)
    (h0 : (arr k).pid = 0) :
    ∃ arr', lamportLock arr pid = some arr' ∧
      Registered (lamportUnlock arr' pid) (insert pid seen) := by
  refine ⟨_, lamportLock_eq h.zero pid, ?_⟩
  have hzero := h.zero.register pid
  have hpid : ∀ i, ((register arr pid).2 i).pid = if i = k then pid else (arr i).pid := fun i => by
    rw [hr]
    rcases eq_or_ne i k with rfl | hne
    · simp
    · simp [hne]
  have hfst : (register arr pid).1 = k := by rw [hr]
  have hfound : findPid (register arr pid).2 pid = some k := by
    refine findPid_unique hk (by rw [hpid, if_pos rfl]) fun i hi he => ?_
    rcases eq_or_ne i k with hik | hik
    · exact hik
    · rw [hpid, if_neg hik] at he
      exact absurd he (findPid_none hf hi)
  generalize (register arr pid).2 = arr₁ at hzero hpid hfound ⊢
  rw [hfst]
  have hpids := update_pid arr₁ k { arr₁ k with choosing := false, num := 1 } rfl
  have hfound' : findPid (update arr₁ k { arr₁ k with choosing := false, num := 1 }) pid
      = some k := by
    rw [findPid_congr hpids, hfound]
  obtain ⟨hz, hp⟩ := hzero.unlock hfound'
  exact h.add hpos hf hk h0 hz fun i => by rw [hp, hpid]

/-- When the table is full, a new pid goes to slot 0 and its number stays. -/
theorem Registered.stuck (h : Registered arr seen) (hf : findPid arr pid = none)
    (hr : register arr pid = (0, update arr 0 { arr 0 with pid := pid })) {arr' : LampArray}
    (hl : lamportLock arr pid = some arr') : ¬AllZero (lamportUnlock arr' pid) := by
  rw [lamportLock_eq h.zero pid, hr] at hl
  obtain rfl := Option.some.inj hl
  dsimp only
  rw [update_self, update_idem]
  intro hz
  have hnone : findPid (update arr 0 ⟨pid, false, 1⟩) pid = none := by
    rw [findPid, List.find?_eq_none]
    intro i hi
    have hne : i ≠ 0 := by
      have := (mem_slots.mp hi).1
      omega
    rw [update_of_ne hne]
    simpa using findPid_none hf hi
  rw [lamportUnlock, hnone] at hz
  have := (hz 0 (by decide)).2
  simp at this

theorem Registered.granted_of_seen : ∀ {pids : List Nat} {arr : LampArray} {seen : Finset Nat},
    Registered arr seen → (∀ p ∈ pids, p ≠ 0) →
      (Granted arr pids ↔ (seen ∪ pids.toFinset).card ≤ 63)
  | [], _, seen, h, _ => by simpa [Granted] using h.card_le
  | pid :: pids, arr, seen, h, hpos => by
      have hp := hpos pid (List.mem_cons_self ..)
      have hrest : ∀ p ∈ pids, p ≠ 0 := fun p hp => hpos p (List.mem_cons_of_mem _ hp)
      have hset : seen ∪ (pid :: pids).toFinset = insert pid seen ∪ pids.toFinset := by
        rw [List.toFinset_cons, Finset.union_insert, Finset.insert_union]
      have hgo : ∀ {seen'}, (∃ arr', lamportLock arr pid = some arr' ∧
          Registered (lamportUnlock arr' pid) seen') → insert pid seen = seen' →
          (Granted arr (pid :: pids) ↔ (seen ∪ (pid :: pids).toFinset).card ≤ 63) := by
        rintro seen' ⟨arr', hl, h'⟩ hseen
        rw [hset, hseen, ← h'.granted_of_seen hrest, Granted]
        constructor
        · rintro ⟨arr'', hl', -, hg⟩
          rw [hl] at hl'
          exact Option.some.inj hl' ▸ hg
        · exact fun hg => ⟨arr', hl, h'.zero, hg⟩
      rcases register_cases arr pid with ⟨i, hf, -⟩ | ⟨hf, k, hr, ⟨hk, h0⟩ | ⟨rfl, hfull⟩⟩
      · obtain ⟨hi, h1, hlt⟩ := findPid_some hf
        exact hgo (h.again hf) (Finset.insert_eq_of_mem
          ((h.mem pid).mpr ⟨hp, i, mem_slots.mpr ⟨h1, hlt⟩, hi⟩))
      · exact hgo (h.claim hp hf hr hk h0) rfl
      · have hnot : pid ∉ seen := fun hmem => by
          obtain ⟨-, i, hi, hip⟩ := (h.mem pid).mp hmem
          exact findPid_none hf hi hip
        constructor
        · rintro ⟨arr', hl, hz, -⟩
          exact absurd hz (h.stuck hf hr hl)
        · intro hle
          have hsub : insert pid seen ⊆ seen ∪ (pid :: pids).toFinset := by
            rw [hset]
            exact Finset.subset_union_left
          have := Finset.card_le_card hsub
          rw [Finset.card_insert_of_notMem hnot, h.card_full hfull] at this
          omega

/-- The table as the kernel is loaded. -/
def zero : LampArray := fun _ => ⟨0, false, 0⟩

theorem registered_zero : Registered zero ∅ :=
  ⟨fun _ _ => ⟨rfl, rfl⟩, fun p => ⟨fun h => absurd h (Finset.notMem_empty p),
    fun ⟨hp, _, _, hip⟩ => absurd hip.symm hp⟩, fun _ _ _ _ _ h => absurd rfl h⟩

/-- **Uncontended locks**: a sequence of lock and unlock pairs, each from its beginning
to its end, is granted without waiting and released completely exactly when no more than
63 distinct pids take part. The table holds one pid in each of the slots from 1 to 63,
and a pid that finds them all claimed is left with slot 0, which the unlock does not
search. -/
theorem granted_iff (pids : List Nat) (hpos : ∀ p ∈ pids, p ≠ 0) :
    Granted zero pids ↔ pids.toFinset.card ≤ 63 := by
  rw [registered_zero.granted_of_seen hpos, Finset.empty_union]

theorem granted_three : Granted zero [1, 2, 1] :=
  (granted_iff [1, 2, 1] (by decide)).mpr (by decide)

/-- The pids from 1 to 64. -/
def manyPids : List Nat := List.range' 1 64

theorem not_granted : ¬∀ pids : List Nat, (∀ p ∈ pids, p ≠ 0) → Granted zero pids := by
  intro h
  have hpos : ∀ p ∈ manyPids, p ≠ 0 := by decide
  have := (registered_zero.granted_of_seen hpos).mp (h manyPids hpos)
  exact absurd this (by decide)

/-! ## The single accesses -/

/-- Only `pid` moves, and it leaves the waiting loops at the first test. -/
def Alone (pid : Nat) (s : State) (a : Nat) : Prop :=
  a = pid ∧ ¬Waits s.lamparray (s.nulltask pid) (s.pc pid)

theorem passable_alone (pid : Nat) (s : State) : Passable (Alone pid) s pid := by
  intro pc hw
  refine ⟨rfl, ?_⟩
  simpa using hw

/-- The single accesses of `pid` alone lead through the lock code, without a second test
in a waiting loop, and leave the table that `lamportLock` leaves. -/
theorem lamportLock_reach {s : State} (h : AllZero s.lamparray) (hidle : s.pc pid = .idle) :
    ∃ s', Reach step (Alone pid) s s' ∧ s'.pc pid = .critical ∧
      lamportLock s.lamparray pid = some s'.lamparray := by
  have hz := h.register pid
  have hme := register_lt s.lamparray pid
  have hlock := lamportLock_eq h pid
  generalize hr : register s.lamparray pid = r at hz hme hlock
  obtain ⟨me, arr⟩ := r
  dsimp only at hz hme hlock
  have h64 : NR_TASKS = 64 := rfl
  let at_ (l : Lamport) (pc : Pc) : State :=
    ⟨update arr me l, update s.nulltask pid me, update s.pc pid pc⟩
  have hall : ∀ l pc, Passable (Alone pid) (at_ l pc) pid := fun l pc => passable_alone pid _
  have hnull : ∀ l pc, (at_ l pc).nulltask pid = me := fun l pc => by simp [at_]
  have hpc : ∀ l pc, (at_ l pc).pc pid = pc := fun l pc => by simp [at_]
  have hown : ∀ l pc, (at_ l pc).lamparray me = l := fun l pc => by simp [at_]
  have hgoto : ∀ l pc pc', { at_ l pc with pc := update (at_ l pc).pc pid pc' } = at_ l pc' :=
    fun l pc pc' => by simp [at_]
  have hslot : ∀ l pc j, j < NR_TASKS → j ≠ me → ((at_ l pc).lamparray j).choosing = false ∧
      ((at_ l pc).lamparray j).num = 0 := fun l pc j hj hne => by
    simpa [at_, hne] using hz j hj
  -- one access of the lock code
  have hmove : ∀ l pc, (pc ≠ .idle ∧ pc ≠ .critical) → ¬Waits (at_ l pc).lamparray me pc →
      Reach step (Alone pid) (at_ l pc) (at_ (move (update arr me l) me pc).2
        (move (update arr me l) me pc).1) := by
    intro l pc hne hw
    refine Reach.one ⟨rfl, ?_⟩ ?_
    · rw [hnull, hpc]
      exact hw
    · cases pc <;> simp_all [step, at_]
  let choosing : Lamport := { arr me with choosing := true, num := 0 }
  let drawn : Lamport := { arr me with choosing := false, num := 1 }
  have henter : step s pid = some (at_ (arr me) .setChoosing) := by
    simp [step, hidle, hr, at_]
  have hstart : Reach step (Alone pid) s (at_ choosing (maxFrom me 1)) := by
    have hok : Alone pid s pid := ⟨rfl, by rw [hidle]; exact id⟩
    have h₁ := hmove (arr me) .setChoosing (by simp) id
    have h₂ := hmove { arr me with choosing := true } .zeroNum (by simp) id
    simp only [move, update_self] at h₁ h₂
    exact ((Reach.one hok henter).trans h₁).trans h₂
  have hscan : Reach step (Alone pid) (at_ choosing (maxFrom me 1)) (at_ choosing .incRead) := by
    have := scan_reach (p := pid) (j := 64) (Nat.le_refl 64) (n := 63) (i := 1) (by omega)
      (hall choosing (maxFrom me 1)) (by rw [hpc, hnull]) fun k _ hk => by
        rcases eq_or_ne k me with rfl | hne
        · exact Or.inl (hnull _ _).symm
        · exact Or.inr (hslot _ _ k hk hne).2
    rwa [hgoto, hnull, show maxFrom me 64 = .incRead from if_pos (Nat.le_refl 64)] at this
  have hdraw : Reach step (Alone pid) (at_ choosing .incRead) (at_ drawn (testFrom 0)) := by
    have h₁ := hmove choosing .incRead (by simp) id
    have h₂ := hmove choosing (.incWrite 0) (by simp) id
    have h₃ := hmove { choosing with num := 1 } .clearChoosing (by simp) id
    simp only [move, update_self] at h₁ h₂ h₃
    exact (h₁.trans h₂).trans h₃
  have hwait : ∀ i j, i ≤ j → j ≤ 64 → (∀ k, i ≤ k → k < j → k ≠ me) →
      Reach step (Alone pid) (at_ drawn (testFrom i)) (at_ drawn (testFrom j)) := by
    intro i j hij hj hne
    have := wait_reach (p := pid) (j := j) hj (n := j - i) (i := i) (by omega)
      (hall drawn (testFrom i)) (by rw [hpc]) fun k hik hkj =>
        hslot _ _ k (Nat.lt_of_lt_of_le hkj hj) (hne k hik hkj)
    rwa [hgoto] at this
  -- the tests of the own slot compare the number with itself
  have hself :
      Reach step (Alone pid) (at_ drawn (testFrom me)) (at_ drawn (testFrom (me + 1))) := by
    have hw : ∀ l pc, (at_ l pc).lamparray me = l := hown
    have h₁ := hmove drawn (.testChoosing me) (by simp) (by simp [Waits, hw, drawn])
    have h₂ := hmove drawn (.testZero me) (by simp) id
    have h₃ := hmove drawn (.testLess me) (by simp) id
    have h₄ := hmove drawn (.testLessOwn me 1) (by simp) (by simp [Waits, hw, drawn])
    have h₅ := hmove drawn (.testEq me) (by simp) id
    have h₆ := hmove drawn (.testEqOwn me 1) (by simp) (by simp [Waits])
    simp only [move, update_self, drawn, Nat.lt_irrefl, and_false, if_false] at h₁ h₂ h₃ h₄ h₅ h₆
    rw [show testFrom me = .testChoosing me from if_pos hme]
    exact ((((h₁.trans h₂).trans h₃).trans h₄).trans h₅).trans h₆
  refine ⟨at_ drawn .critical, ?_, hpc _ _, hlock⟩
  have hrun := (((hstart.trans hscan).trans hdraw).trans
    (hwait 0 me (Nat.zero_le _) (Nat.le_of_lt hme) fun k _ hk => Nat.ne_of_lt hk)).trans hself
  exact hrun.trans (hwait (me + 1) 64 hme (Nat.le_refl 64) fun k hk _ => by omega)

end Bakery

end Linux011
