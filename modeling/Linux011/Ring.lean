import Mathlib.Data.List.GetD
import Mathlib.Data.Nat.ModEq
import Mathlib.Logic.Function.Basic
import Mathlib.Tactic.Common

/-!
# Ring buffers

`cap` cells used in a circle: the queued values fill the window that begins at
`tail`, oldest first, and every other cell holds a blank. Writing behind the
window appends, blanking its first cell and moving `tail` removes the oldest.

Indices are taken modulo the number of cells, and `index_inj` is the one fact
about this that the operations need: two places of the window are different
cells. What lies outside of the window is known too, so that a program that
looks at a cell to see whether it is free is right to do so.
-/

namespace Ring

open Function

variable {α : Type*} {blank v : α} {cap tail : Nat} {cells : Nat → α} {vals : List α}

/-- The cells hold `vals` in the window from `tail`, and `blank` outside of it. -/
structure Holds (blank : α) (cap : Nat) (cells : Nat → α) (tail : Nat) (vals : List α) :
    Prop where
  bound : tail < cap
  room : vals.length ≤ cap
  cell : ∀ k < cap, cells ((tail + k) % cap) = vals.getD k blank

theorem index_inj {i j : Nat} (hi : i < cap) (hj : j < cap)
    (h : (tail + i) % cap = (tail + j) % cap) : i = j := by
  have hij : Nat.ModEq cap i j := Nat.ModEq.add_left_cancel' tail h
  exact hij.eq_of_lt_of_lt hi hj

/-- An empty window behind blank cells. -/
theorem holds_nil (ht : tail < cap) (hc : ∀ i < cap, cells i = blank) :
    Holds blank cap cells tail [] :=
  ⟨ht, by simp, fun _ _ => by simpa using hc _ (Nat.mod_lt _ (by omega))⟩

theorem Holds.first (h : Holds blank cap cells tail (v :: vals)) : cells tail = v := by
  have hc := h.cell 0 (by have := h.bound; omega)
  simpa [Nat.mod_eq_of_lt h.bound] using hc

/-- The cell behind the window is blank. -/
theorem Holds.behind (h : Holds blank cap cells tail vals) (hlt : vals.length < cap) :
    cells ((tail + vals.length) % cap) = blank := by
  simpa using h.cell vals.length hlt

theorem Holds.push (h : Holds blank cap cells tail vals) (hlt : vals.length < cap) (v : α) :
    Holds blank cap (update cells ((tail + vals.length) % cap) v) tail (vals ++ [v]) := by
  refine ⟨h.bound, by simp; omega, fun k hk => ?_⟩
  rcases eq_or_ne k vals.length with rfl | hne
  · simp
  · have hidx : (tail + k) % cap ≠ (tail + vals.length) % cap :=
      fun e => hne (index_inj hk hlt e)
    rw [update_of_ne hidx, h.cell k hk]
    rcases Nat.lt_or_gt_of_ne hne with hlt' | hgt
    · simp [List.getD_eq_getElem?_getD, List.getElem?_append_left hlt']
    · rw [List.getD_eq_default _ _ (Nat.le_of_lt hgt),
        List.getD_eq_default _ _ (by rw [List.length_append]; exact hgt)]

theorem Holds.pop (h : Holds blank cap cells tail (v :: vals)) :
    Holds blank cap (update cells tail blank) ((tail + 1) % cap) vals := by
  have hroom : vals.length + 1 ≤ cap := by simpa using h.room
  refine ⟨Nat.mod_lt _ (by omega), by omega, fun k hk => ?_⟩
  have hmod : ((tail + 1) % cap + k) % cap = (tail + (k + 1)) % cap := by
    rw [Nat.mod_add_mod, Nat.add_assoc, Nat.add_comm 1]
  rw [hmod]
  rcases Nat.lt_or_ge (k + 1) cap with hk1 | hk1
  · have hidx : (tail + (k + 1)) % cap ≠ tail := fun e => by
      have := index_inj (j := 0) hk1 (by omega)
        (e.trans (Nat.mod_eq_of_lt h.bound).symm)
      omega
    rw [update_of_ne hidx, h.cell _ hk1, List.getD_cons_succ]
  · -- the last cell of the circle is the one that was blanked
    obtain rfl : cap = k + 1 := by omega
    rw [Nat.add_mod_right, Nat.mod_eq_of_lt h.bound, update_self]
    simp [List.getD_eq_getElem?_getD, List.getElem?_eq_none (show vals.length ≤ k by omega)]

end Ring
