import Mathlib.Data.Option.Basic
import Mathlib.Logic.Function.Basic
import Mathlib.Tactic.Common

/-!
# Views of shared cells

Positions that name cells, or nothing; what a position shows is the contents of its
cell. Several positions may name one cell, but one with the right to write is the
only one that names its cell: then a store changes what one position shows.

The two rules are those of sharing. Before somebody stores, its position gets a
cell of its own or turns out to be the only one that names its cell, and then
nobody else sees the store; and a position that comes to share a cell loses its
right to write together with the one it shares with.
-/

namespace Views

open Function

variable {ι α β : Type*} {dom : ι → Prop} {ref ref' : ι → Option α} {writable writable' : ι → Prop}
  {cell cell' : α → β} {blank : β} {i j : ι} {p : α}

/-- What a position shows. -/
def view (ref : ι → Option α) (cell : α → β) (blank : β) (i : ι) : β := (ref i).elim blank cell

/-- A position of `dom` with the right to write is the only one that names its cell. -/
def Exclusive (dom : ι → Prop) (ref : ι → Option α) (writable : ι → Prop) : Prop :=
  ∀ i j p, dom i → dom j → writable i → ref i = some p → ref j = some p → j = i

theorem view_some (h : ref i = some p) : view ref cell blank i = cell p := by
  simp [view, h]

theorem view_none (h : ref i = none) : view ref cell blank i = blank := by
  simp [view, h]

theorem view_congr (href : ref' i = ref i) (hcell : ∀ p, ref i = some p → cell' p = cell p) :
    view ref' cell' blank i = view ref cell blank i := by
  cases h : ref i with
  | none => rw [view_none h, view_none (href.trans h)]
  | some p => rw [view_some h, view_some (href.trans h), hcell p h]

/-- A position that names a cell with the same contents shows the same. -/
theorem view_moved {q : α} (h : ref i = some p) (h' : ref' i = some q) (hcell : cell' q = cell p) :
    view ref' cell' blank i = view ref cell blank i := by
  rw [view_some h, view_some h', hcell]

/-- A store through a position with the right to write is seen there only. -/
theorem Exclusive.view_store [DecidableEq α] (h : Exclusive dom ref writable) (hi : dom i)
    (hw : writable i) (hp : ref i = some p) (b : β) (hj : dom j) (hne : j ≠ i) :
    view ref (update cell p b) blank j = view ref cell blank j :=
  view_congr rfl fun q hq => update_of_ne (fun e : q = p => hne (h i j p hi hj hw hp (e ▸ hq))) _ _

/-- New names are given only to cells that lost their right to write. -/
theorem Exclusive.share (h : Exclusive dom ref writable)
    (hw : ∀ i p, dom i → writable' i → ref' i = some p → writable i ∧ ref i = some p)
    (hr : ∀ j p, dom j → ref' j = some p → ref j = some p ∨
      ∃ k, dom k ∧ ref k = some p ∧ ¬writable' k) :
    Exclusive dom ref' writable' := by
  intro i j p hi hj hwi hip hjp
  obtain ⟨hw₁, hip₁⟩ := hw i p hi hwi hip
  rcases hr j p hj hjp with hjp₁ | ⟨k, hk, hkp, hnot⟩
  · exact h i j p hi hj hw₁ hip₁ hjp₁
  · have hki : k = i := h i k p hi hk hw₁ hip₁ hkp
    exact absurd hwi (hki ▸ hnot)

/-- The right to write at `i`, the only position that now names its cell. -/
theorem Exclusive.grant (h : Exclusive dom ref writable)
    (hother : ∀ j, j ≠ i → ref' j = ref j ∧ (writable' j → writable j))
    (hsole : ∀ j p, dom j → j ≠ i → ref' i = some p → ref j ≠ some p) :
    Exclusive dom ref' writable' := by
  intro a b p ha hb hwa hap hbp
  rcases eq_or_ne a i with rfl | hai
  · rcases eq_or_ne b a with hba | hba
    · exact hba
    · rw [(hother b hba).1] at hbp
      exact absurd hbp (hsole b p hb hba hap)
  · rw [(hother a hai).1] at hap
    rcases eq_or_ne b i with rfl | hbi
    · exact absurd hap (hsole a p ha hai hbp)
    · rw [(hother b hbi).1] at hbp
      exact h a b p ha hb ((hother a hai).2 hwa) hap hbp

end Views
