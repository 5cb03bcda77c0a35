import Mathlib.Algebra.BigOperators.Group.Finset.Basic
import Mathlib.Algebra.BigOperators.Group.Finset.Piecewise
import Mathlib.Algebra.Order.BigOperators.Group.Finset
import Mathlib.Data.Fintype.BigOperators

/-!
# Tallies

How many tokens the members of a finite family hold together, when each member
holds the weight of its own state; and how the total moves when one member does.

The rules are those that an invariant with a total needs. A step that moves one
member takes the weight of its old state out of the total and puts that of the
new one in (`tally_update`, stated without a subtraction, so that `omega` can go
on from it); a member with a weight is in the total (`le_tally`), and two
members are in it together (`add_le_tally`), so that a total of 1 is the
exclusion of all others.
-/

namespace Tally

open Function

variable {ι β : Type*} [Fintype ι]

/-- The tokens held by all members of the family. -/
def tally (weight : β → Nat) (f : ι → β) : Nat := ∑ i, weight (f i)

theorem le_tally (weight : β → Nat) (f : ι → β) (a : ι) : weight (f a) ≤ tally weight f :=
  Finset.single_le_sum (f := fun i => weight (f i)) (fun _ _ => Nat.zero_le _)
    (Finset.mem_univ a)

theorem tally_eq_zero {weight : β → Nat} {f : ι → β} (h : ∀ i, weight (f i) = 0) :
    tally weight f = 0 :=
  Finset.sum_eq_zero fun i _ => h i

theorem tally_congr {weight : β → Nat} {f g : ι → β}
    (h : ∀ i, weight (f i) = weight (g i)) : tally weight f = tally weight g :=
  Finset.sum_congr rfl fun i _ => h i

/-- One member moves: its old weight goes out of the total and its new one in. -/
theorem tally_update [DecidableEq ι] (weight : β → Nat) (f : ι → β) (a : ι) (x : β) :
    tally weight (update f a x) + weight (f a) = tally weight f + weight x := by
  have hcomp : ∀ g : ι → β, tally weight g = ∑ i, weight (g i) := fun _ => rfl
  have hother : ∑ i ∈ Finset.univ.erase a, weight (update f a x i)
      = ∑ i ∈ Finset.univ.erase a, weight (f i) :=
    Finset.sum_congr rfl fun i hi => by rw [update_of_ne (Finset.ne_of_mem_erase hi)]
  rw [hcomp, hcomp, ← Finset.add_sum_erase _ _ (Finset.mem_univ a), hother,
    ← Finset.add_sum_erase _ (fun i => weight (f i)) (Finset.mem_univ a), update_self]
  omega

/-- Two members are not both heavier than half of the total. -/
theorem add_le_tally {w : β → Nat} {f : ι → β} {a b : ι} (hab : a ≠ b) :
    w (f a) + w (f b) ≤ tally w f := by
  classical
  have hb : b ∈ Finset.univ.erase a := Finset.mem_erase.mpr ⟨hab.symm, Finset.mem_univ b⟩
  have hle : w (f b) ≤ ∑ i ∈ Finset.univ.erase a, w (f i) :=
    Finset.single_le_sum (f := fun i => w (f i)) (fun _ _ => Nat.zero_le _) hb
  have hsum : tally w f = ∑ i, w (f i) := rfl
  rw [hsum, ← Finset.add_sum_erase _ _ (Finset.mem_univ a)]
  omega

end Tally
