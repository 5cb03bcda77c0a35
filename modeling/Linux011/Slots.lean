import Mathlib.Data.Finset.Card
import Mathlib.Data.Finset.Range
import Mathlib.Tactic.Common

/-!
# Maps in tables of slots

A map with at most `cap` keys (`BoundedMap`), and a table whose slots are free or hold a key with
its value. `Holds` says that the table holds just the entries of the map, no key in two slots;
filling a free slot, changing the value of a slot and clearing a slot are then what `put`,
`modify` and `erase` are on the map, and the table has a free slot exactly when the map is not
full.

The bound is part of the map, so that a map with more keys than slots cannot be written down.
That the table holds a map determines the map, and a search for a key in the table finds its one
slot or none; the lemmas for the operations say what storing into one slot does to the map. The
last part counts the slots with a property, and how the count moves when one slot is stored.
-/

namespace Linux011

namespace Slots

open Function

variable {κ ν : Type*} {cap n : Nat}

/-- Finitely many keys, at most `cap` of them, each with a value. -/
structure BoundedMap (κ ν : Type*) (cap : Nat) where
  keys : Finset κ
  get : κ → Option ν
  mem_keys : ∀ k, k ∈ keys ↔ get k ≠ none
  card_le : keys.card ≤ cap

namespace BoundedMap

def empty : BoundedMap κ ν cap where
  keys := ∅
  get _ := none
  mem_keys _ := by simp
  card_le := by simp

variable [DecidableEq κ]

def put (m : BoundedMap κ ν cap) (k : κ) (v : ν) (h : m.keys.card < cap) :
    BoundedMap κ ν cap where
  keys := insert k m.keys
  get := update m.get k (some v)
  mem_keys k' := by
    rcases eq_or_ne k' k with rfl | hk
    · simp
    · simp [hk, m.mem_keys]
  card_le := (Finset.card_insert_le ..).trans h

def modify (m : BoundedMap κ ν cap) (k : κ) (f : ν → ν) : BoundedMap κ ν cap where
  keys := m.keys
  get := update m.get k ((m.get k).map f)
  mem_keys k' := by
    rcases eq_or_ne k' k with rfl | hk
    · simp [m.mem_keys]
    · simp [hk, m.mem_keys]
  card_le := m.card_le

def erase (m : BoundedMap κ ν cap) (k : κ) : BoundedMap κ ν cap where
  keys := m.keys.erase k
  get := update m.get k none
  mem_keys k' := by
    rcases eq_or_ne k' k with rfl | hk
    · simp
    · simp [hk, m.mem_keys]
  card_le := (Finset.card_erase_le ..).trans m.card_le

end BoundedMap

/-- The first `n` slots hold the entries of the map, and no key is in two of them. -/
structure Holds (slot : Nat → Option (κ × ν)) (m : BoundedMap κ ν n) : Prop where
  get : ∀ k v, m.get k = some v ↔ ∃ i < n, slot i = some (k, v)
  inj : ∀ {i j k v w}, i < n → j < n → slot i = some (k, v) → slot j = some (k, w) → i = j

namespace Holds

variable {slot : Nat → Option (κ × ν)} {m : BoundedMap κ ν n} {i : Nat} {k : κ} {v : ν}

theorem empty (h : ∀ i < n, slot i = none) :
    Holds slot (BoundedMap.empty : BoundedMap κ ν n) := by
  refine ⟨fun k v => ⟨fun hv => (by cases hv), ?_⟩, fun {i j k v w} hi _ hs _ => ?_⟩
  · rintro ⟨i, hi, hs⟩
    rw [h i hi] at hs
    cases hs
  · rw [h i hi] at hs
    cases hs

theorem get_slot (h : Holds slot m) (hi : i < n) (hs : slot i = some (k, v)) :
    m.get k = some v :=
  (h.get k v).mpr ⟨i, hi, hs⟩

variable [DecidableEq κ]

theorem put (h : Holds slot m) (hi : i < n) (hfree : slot i = none) (hk : m.get k = none)
    (hc : m.keys.card < n) : Holds (update slot i (some (k, v))) (m.put k v hc) := by
  have hother : ∀ {j k' v'}, j < n → update slot i (some (k, v)) j = some (k', v') →
      (j = i ∧ k' = k ∧ v' = v) ∨ (j ≠ i ∧ k' ≠ k ∧ slot j = some (k', v')) := by
    intro j k' v' hj hs
    rcases eq_or_ne j i with rfl | hji
    · rw [update_self] at hs
      cases hs
      exact Or.inl ⟨rfl, rfl, rfl⟩
    · rw [update_of_ne hji] at hs
      refine Or.inr ⟨hji, fun e => ?_, hs⟩
      have hg := h.get_slot hj hs
      rw [e, hk] at hg
      cases hg
  constructor
  · intro k' v'
    constructor
    · intro hg
      rcases eq_or_ne k' k with rfl | hne
      · have hv : v = v' := by simpa [BoundedMap.put] using hg
        exact ⟨i, hi, by simp [hv]⟩
      · have hg' : m.get k' = some v' := by simpa [BoundedMap.put, hne] using hg
        obtain ⟨j, hj, hs⟩ := (h.get k' v').mp hg'
        have hji : j ≠ i := fun e => by
          rw [e, hfree] at hs
          cases hs
        exact ⟨j, hj, by rw [update_of_ne hji, hs]⟩
    · rintro ⟨j, hj, hs⟩
      rcases hother hj hs with ⟨-, rfl, rfl⟩ | ⟨-, hne, hs'⟩
      · simp [BoundedMap.put]
      · simpa [BoundedMap.put, hne] using h.get_slot hj hs'
  · intro j j' k' v' w' hj hj' hs hs'
    rcases hother hj hs with ⟨rfl, hk₁, -⟩ | ⟨-, hk₁, hs₁⟩
    · rcases hother hj' hs' with ⟨rfl, -, -⟩ | ⟨-, hk₂, -⟩
      · rfl
      · exact absurd hk₁ hk₂
    · rcases hother hj' hs' with ⟨-, hk₂, -⟩ | ⟨-, -, hs₂⟩
      · exact absurd hk₂ hk₁
      · exact h.inj hj hj' hs₁ hs₂

theorem modify (h : Holds slot m) (hi : i < n) (hs : slot i = some (k, v)) (f : ν → ν) :
    Holds (update slot i (some (k, f v))) (m.modify k f) := by
  have hold : ∀ {j k' v'}, update slot i (some (k, f v)) j = some (k', v') →
      ∃ w, slot j = some (k', w) := by
    intro j k' v' hj
    rcases eq_or_ne j i with rfl | hji
    · rw [update_self] at hj
      cases hj
      exact ⟨v, hs⟩
    · exact ⟨v', by rwa [update_of_ne hji] at hj⟩
  constructor
  · intro k' v'
    rcases eq_or_ne k' k with rfl | hne
    · have hget : (m.modify k' f).get k' = some (f v) := by
        simp [BoundedMap.modify, h.get_slot hi hs]
      rw [hget]
      constructor
      · intro hv
        exact ⟨i, hi, by rw [update_self, Option.some.inj hv]⟩
      · rintro ⟨j, hj, hs'⟩
        obtain ⟨w, hw⟩ := hold hs'
        obtain rfl : j = i := h.inj hj hi hw hs
        rw [update_self] at hs'
        cases hs'
        rfl
    · have hget : (m.modify k f).get k' = m.get k' := by simp [BoundedMap.modify, hne]
      rw [hget, h.get k' v']
      refine exists_congr fun j => and_congr_right fun _ => ?_
      rcases eq_or_ne j i with rfl | hji
      · simp [hs, Ne.symm hne]
      · rw [update_of_ne hji]
  · intro j j' k' v' w' hj hj' hs₁ hs₂
    obtain ⟨w₁, h₁⟩ := hold hs₁
    obtain ⟨w₂, h₂⟩ := hold hs₂
    exact h.inj hj hj' h₁ h₂

theorem erase (h : Holds slot m) (hi : i < n) (hs : slot i = some (k, v)) :
    Holds (update slot i none) (m.erase k) := by
  have hold : ∀ {j k' v'}, update slot i none j = some (k', v') →
      j ≠ i ∧ slot j = some (k', v') := by
    intro j k' v' hj
    have hji : j ≠ i := fun e => by
      rw [e, update_self] at hj
      cases hj
    exact ⟨hji, by rwa [update_of_ne hji] at hj⟩
  constructor
  · intro k' v'
    constructor
    · intro hg
      have hne : k' ≠ k := fun e => by simp [BoundedMap.erase, e] at hg
      have hg' : m.get k' = some v' := by simpa [BoundedMap.erase, hne] using hg
      obtain ⟨j, hj, hs'⟩ := (h.get k' v').mp hg'
      have hji : j ≠ i := fun e => by
        rw [e, hs] at hs'
        cases hs'
        exact hne rfl
      exact ⟨j, hj, by rw [update_of_ne hji, hs']⟩
    · rintro ⟨j, hj, hs'⟩
      obtain ⟨hji, hs''⟩ := hold hs'
      have hne : k' ≠ k := fun e => hji (h.inj hj hi (e ▸ hs'') hs)
      simpa [BoundedMap.erase, hne] using h.get_slot hj hs''
  · intro j j' k' v' w' hj hj' hs₁ hs₂
    exact h.inj hj hj' (hold hs₁).2 (hold hs₂).2

omit [DecidableEq κ] in
/-- The table has a free slot exactly when the map is not full. -/
theorem card_lt_iff (h : Holds slot m) : m.keys.card < n ↔ ∃ i < n, slot i = none := by
  classical
  have hcard : m.keys.card = ((Finset.range n).filter fun i => slot i ≠ none).card := by
    refine (Finset.card_bij (fun i hi => ((slot i).get (by
      simpa [Option.isSome_iff_ne_none] using (Finset.mem_filter.mp hi).2)).1) ?_ ?_ ?_).symm
    · intro i hi
      obtain ⟨hi, hs⟩ := Finset.mem_filter.mp hi
      obtain ⟨⟨k, v⟩, hkv⟩ := Option.ne_none_iff_exists'.mp hs
      have hg := h.get_slot (Finset.mem_range.mp hi) hkv
      rw [m.mem_keys]
      simp [hkv, hg]
    · intro i hi j hj hij
      obtain ⟨hi, hs⟩ := Finset.mem_filter.mp hi
      obtain ⟨hj, hs'⟩ := Finset.mem_filter.mp hj
      obtain ⟨⟨k, v⟩, hkv⟩ := Option.ne_none_iff_exists'.mp hs
      obtain ⟨⟨k', v'⟩, hkv'⟩ := Option.ne_none_iff_exists'.mp hs'
      obtain rfl : k = k' := by simpa [hkv, hkv'] using hij
      exact h.inj (Finset.mem_range.mp hi) (Finset.mem_range.mp hj) hkv hkv'
    · intro k hk
      obtain ⟨v, hv⟩ := Option.ne_none_iff_exists'.mp ((m.mem_keys k).mp hk)
      obtain ⟨i, hi, hs⟩ := (h.get k v).mp hv
      exact ⟨i, Finset.mem_filter.mpr ⟨Finset.mem_range.mpr hi, by simp [hs]⟩, by simp [hs]⟩
  have hle := Finset.card_filter_le (Finset.range n) fun i => slot i ≠ none
  rw [Finset.card_range] at hle
  constructor
  · intro hlt
    by_contra hnot
    push Not at hnot
    have hall : (Finset.range n).filter (fun i => slot i ≠ none) = Finset.range n :=
      Finset.filter_true_of_mem fun i hi => hnot i (Finset.mem_range.mp hi)
    rw [hcard, hall, Finset.card_range] at hlt
    exact lt_irrefl n hlt
  · rintro ⟨i, hi, hs⟩
    rw [hcard]
    have hsub : (Finset.range n).filter (fun i => slot i ≠ none) ⊂ Finset.range n :=
      Finset.filter_ssubset.mpr ⟨i, Finset.mem_range.mpr hi, by simp [hs]⟩
    simpa using Finset.card_lt_card hsub

end Holds

/-! ## Counting slots -/

/-- Changing one slot changes the number of slots with a property by that slot. -/
theorem countP_update {n j : Nat} {p q : Nat → Bool} (hj : j < n) (h : ∀ i, i ≠ j → q i = p i) :
    (List.range n).countP q + (p j).toNat = (List.range n).countP p + (q j).toNat := by
  induction n with
  | zero => exact absurd hj (Nat.not_lt_zero j)
  | succ n ih =>
      rw [List.range_succ, List.countP_append, List.countP_append, List.countP_singleton,
        List.countP_singleton]
      rcases Nat.lt_succ_iff_lt_or_eq.mp hj with hlt | rfl
      · rw [h n (Nat.ne_of_gt hlt)]
        have := ih hlt
        omega
      · have hsame : (List.range j).countP q = (List.range j).countP p := by
          refine List.countP_congr fun i hi => ?_
          rw [h i (Nat.ne_of_lt (List.mem_range.mp hi))]
        rw [hsame]
        cases p j <;> cases q j <;> simp

theorem countP_pos {n j : Nat} {p : Nat → Bool} (hj : j < n) (h : p j = true) :
    0 < (List.range n).countP p :=
  List.countP_pos_iff.mpr ⟨j, List.mem_range.mpr hj, h⟩

theorem exists_of_countP {n : Nat} {p : Nat → Bool} (h : 0 < (List.range n).countP p) :
    ∃ j < n, p j = true := by
  obtain ⟨j, hj, hp⟩ := List.countP_pos_iff.mp h
  exact ⟨j, List.mem_range.mp hj, hp⟩

end Slots

end Linux011
