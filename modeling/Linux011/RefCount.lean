import Linux011.Tally
import Mathlib.Algebra.GroupWithZero.Nat

/-!
# Reference counts

A finite family of references, each of which names an object or nothing; for each
object a count, and the number of its other holders. The books are balanced when
every managed object has as many counts as references and holders. A reference
that is set takes over the share of a holder or adds a count of its own; one that
is cleared leaves its share to a holder.

Nothing is said about what the objects are. The rules are one for each thing
that a program does with a count: an object that is allocated gets its first
holder, a holder sets a reference or drops out, a reference is copied, cleared,
or replaced by another. Each of them keeps the books if the count moves with it,
and the sum over the references is `Tally`, so that only the one that has
changed is looked at. From balanced books follows what the counts are for: an
object whose count is 0 is named by nobody, and one with a count of 1 by one at
most.
-/

namespace RefCount

open Function Tally

variable {ρ α : Type*} [Fintype ρ] [DecidableEq α]

/-- 1 if the reference names the object. -/
def names (p : α) (r : Option α) : Nat := if r = some p then 1 else 0

/-- How many references name the object. -/
def refs (ref : ρ → Option α) (p : α) : Nat := tally (names p) ref

/-- Every managed object is counted once for each reference and each holder. -/
def Balanced (managed : α → Prop) (ref : ρ → Option α) (held count : α → Nat) : Prop :=
  ∀ p, managed p → count p = refs ref p + held p

variable {managed : α → Prop} {ref ref' : ρ → Option α} {held held' count count' : α → Nat}
  {p q : α} {r r' : ρ}

@[simp] theorem names_none (p : α) : names p none = 0 := by simp [names]

@[simp] theorem names_self (p : α) : names p (some p) = 1 := by simp [names]

theorem names_some (p q : α) : names p (some q) = if q = p then 1 else 0 := by
  simp [names]

theorem one_le_refs (h : ref r = some p) : 1 ≤ refs ref p := by
  have := le_tally (names p) ref r
  rwa [h, names_self] at this

theorem two_le_refs (hne : r ≠ r') (h : ref r = some p) (h' : ref r' = some p) :
    2 ≤ refs ref p := by
  have := add_le_tally (w := names p) (f := ref) hne
  rwa [h, h', names_self] at this

theorem refs_eq_zero (h : ∀ r, ref r ≠ some p) : refs ref p = 0 :=
  tally_eq_zero fun r => if_neg (h r)

/-- References that are told apart by their values in a finite set are no more than
that set has elements. -/
theorem refs_le_card {β : Type*} {f : ρ → β} {s : Finset β} (hmaps : ∀ r, f r ∈ s)
    (hinj : ∀ r r', ref r = some p → ref r' = some p → f r = f r' → r = r') :
    refs ref p ≤ s.card := by
  have hcard : refs ref p = (Finset.univ.filter fun r => ref r = some p).card := by
    rw [Finset.card_filter]
    rfl
  rw [hcard]
  refine Finset.card_le_card_of_injOn f (fun r _ => hmaps r) fun r hr r' hr' => ?_
  exact hinj r r' (Finset.mem_filter.mp hr).2 (Finset.mem_filter.mp hr').2

/-- Exactly one reference names the object. -/
theorem refs_eq_one (h : ref r = some p) (hu : ∀ r', ref r' = some p → r' = r) :
    refs ref p = 1 := by
  refine le_antisymm ?_ (one_le_refs h)
  refine (refs_le_card (f := fun _ => ()) (s := {()}) (fun _ => Finset.mem_singleton_self _)
    fun r₁ r₂ h₁ h₂ _ => ?_).trans_eq (Finset.card_singleton ())
  exact (hu r₁ h₁).trans (hu r₂ h₂).symm

/-- The references of a list without repetitions are among all of them. -/
theorem sum_names_le {l : List ρ} (h : l.Nodup) (ref : ρ → Option α) (p : α) :
    (l.map fun r => names p (ref r)).sum ≤ refs ref p := by
  classical
  rw [← List.sum_toFinset _ h]
  exact Finset.sum_le_univ_sum_of_nonneg fun _ => Nat.zero_le _

/-- The references of two families. -/
theorem refs_sum {ρ₁ ρ₂ : Type*} [Fintype ρ₁] [Fintype ρ₂] (ref : ρ₁ ⊕ ρ₂ → Option α) (p : α) :
    refs ref p = (Finset.univ.filter fun r => ref (.inl r) = some p).card
      + (Finset.univ.filter fun r => ref (.inr r) = some p).card := by
  rw [Finset.card_filter, Finset.card_filter]
  exact Fintype.sum_sum_type _

/-- An object that is not counted is not referred to and not held. -/
theorem Balanced.unused (h : Balanced managed ref held count) (hp : managed p)
    (h0 : count p = 0) : (∀ r, ref r ≠ some p) ∧ held p = 0 := by
  have heq := h p hp
  refine ⟨fun r hr => ?_, by omega⟩
  have := one_le_refs hr
  omega

/-- An object counted once has one reference only, and no holder besides it. -/
theorem Balanced.unique (h : Balanced managed ref held count) (hp : managed p)
    (h1 : count p = 1) (hr : ref r = some p) :
    (∀ r', ref r' = some p → r' = r) ∧ held p = 0 := by
  have heq := h p hp
  have hle := one_le_refs hr
  refine ⟨fun r' hr' => ?_, by omega⟩
  by_contra hne
  have := two_le_refs hne hr' hr
  omega

theorem Balanced.pos_of_ref (h : Balanced managed ref held count) (hp : managed p)
    (hr : ref r = some p) : 1 ≤ count p := by
  have := h p hp
  have := one_le_refs hr
  omega

theorem Balanced.pos_of_held (h : Balanced managed ref held count) (hp : managed p)
    (hh : 1 ≤ held p) : 1 ≤ count p := by
  have := h p hp
  omega

/-- The books of another state, compared object by object. -/
theorem Balanced.of_eq (h : Balanced managed ref held count)
    (heq : ∀ p, managed p → count' p + refs ref p + held p = count p + refs ref' p + held' p) :
    Balanced managed ref' held' count' := fun p hp => by
  have := h p hp
  have := heq p hp
  omega

/-- An unused object is handed out to a holder. -/
theorem Balanced.alloc (h : Balanced managed ref held count) (h0 : count p = 0) :
    Balanced managed ref (update held p 1) (update count p 1) :=
  h.of_eq fun q hq => by
    rcases eq_or_ne q p with rfl | hne
    · have := (h.unused hq h0).2
      simp only [update_self]
      omega
    · simp [hne]

/-- A holder gives up its share. -/
theorem Balanced.drop (h : Balanced managed ref held count) (hh : 1 ≤ held p)
    (hc : 1 ≤ count p) :
    Balanced managed ref (update held p (held p - 1)) (update count p (count p - 1)) :=
  h.of_eq fun q _ => by
    rcases eq_or_ne q p with rfl | hne
    · simp only [update_self]
      omega
    · simp [hne]

/-! ## One reference changes -/

variable [DecidableEq ρ]

theorem refs_update (ref : ρ → Option α) (r : ρ) (o : Option α) (p : α) :
    refs (update ref r o) p + names p (ref r) = refs ref p + names p o :=
  tally_update (names p) ref r o

/-- Setting one reference: what it named and what it names is made up for by counts
and holders. -/
theorem Balanced.set (h : Balanced managed ref held count) {o : Option α}
    (heq : ∀ p, managed p → count' p + names p (ref r) + held p
      = count p + names p o + held' p) :
    Balanced managed (update ref r o) held' count' :=
  h.of_eq fun p hp => by
    have := refs_update ref r o p
    have := heq p hp
    omega

/-- A reference takes over the share of a holder. -/
theorem Balanced.attach (h : Balanced managed ref held count) (hr : ref r = none)
    (hh : 1 ≤ held p) :
    Balanced managed (update ref r (some p)) (update held p (held p - 1)) count :=
  h.set fun q _ => by
    rw [hr, names_none, names_some]
    rcases eq_or_ne p q with rfl | hne
    · simp only [update_self, if_true]
      omega
    · simp [hne, hne.symm]

/-- A reference is cleared and its share left to a holder. -/
theorem Balanced.detach (h : Balanced managed ref held count) (hr : ref r = some p) :
    Balanced managed (update ref r none) (update held p (held p + 1)) count :=
  h.set fun q _ => by
    rw [hr, names_none, names_some]
    rcases eq_or_ne p q with rfl | hne
    · simp only [update_self, if_true]
      omega
    · simp [hne, hne.symm]

/-- A second reference with a count of its own. -/
theorem Balanced.share (h : Balanced managed ref held count) (hr : ref r = none) :
    Balanced managed (update ref r (some p)) held (update count p (count p + 1)) :=
  h.set fun q _ => by
    rw [hr, names_none, names_some]
    rcases eq_or_ne p q with rfl | hne
    · simp only [update_self, if_true]
    · simp [hne, hne.symm]

/-- A reference is cleared together with its count. -/
theorem Balanced.release (h : Balanced managed ref held count) (hr : ref r = some p)
    (hc : 1 ≤ count p) :
    Balanced managed (update ref r none) held (update count p (count p - 1)) :=
  h.set fun q _ => by
    rw [hr, names_none, names_some]
    rcases eq_or_ne p q with rfl | hne
    · simp only [update_self, if_true]
      omega
    · simp [hne, hne.symm]

end RefCount
