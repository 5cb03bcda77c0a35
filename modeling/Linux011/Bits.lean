import Mathlib.Tactic.Common

/-!
# Single bits

What setting, clearing or flipping a bit of a word leaves of each bit.
-/

namespace Bits

variable {w i : Nat}

theorem getLsbD_set (x : BitVec w) (hi : i < w) (j : Nat) :
    (x ||| BitVec.twoPow w i).getLsbD j = if j = i then true else x.getLsbD j := by
  rw [BitVec.getLsbD_or, BitVec.getLsbD_twoPow, decide_eq_true hi, Bool.true_and]
  by_cases hj : j = i
  · rw [if_pos hj, decide_eq_true hj.symm, Bool.or_true]
  · rw [if_neg hj, decide_eq_false (Ne.symm hj), Bool.or_false]

theorem getLsbD_clear (x : BitVec w) (hi : i < w) (j : Nat) :
    (x &&& ~~~BitVec.twoPow w i).getLsbD j = if j = i then false else x.getLsbD j := by
  rw [BitVec.getLsbD_and, BitVec.getLsbD_not, BitVec.getLsbD_twoPow, decide_eq_true hi,
    Bool.true_and]
  by_cases hj : j = i
  · rw [if_pos hj, decide_eq_true hj.symm, Bool.not_true, Bool.and_false, Bool.and_false]
  · rw [if_neg hj, decide_eq_false (Ne.symm hj), Bool.not_false, Bool.and_true]
    by_cases hlt : j < w
    · rw [decide_eq_true hlt, Bool.and_true]
    · rw [BitVec.getLsbD_of_ge x j (Nat.le_of_not_lt hlt), Bool.false_and]

theorem getLsbD_flip (x : BitVec w) (hi : i < w) (j : Nat) :
    (x ^^^ BitVec.twoPow w i).getLsbD j = if j = i then !x.getLsbD j else x.getLsbD j := by
  rw [BitVec.getLsbD_xor, BitVec.getLsbD_twoPow, decide_eq_true hi, Bool.true_and]
  by_cases hj : j = i
  · rw [if_pos hj, decide_eq_true hj.symm, Bool.xor_true]
  · rw [if_neg hj, decide_eq_false (Ne.symm hj), Bool.xor_false]

/-- The bit is asked for with a mask. -/
theorem twoPow_and_ne_zero (x : BitVec w) (hi : i < w) :
    BitVec.twoPow w i &&& x ≠ 0 ↔ x.getLsbD i = true := by
  rw [← not_iff_not, not_not, Bool.not_eq_true]
  refine ⟨fun h => ?_, fun h => BitVec.eq_of_getLsbD_eq fun j hj => ?_⟩
  · have hbit : (BitVec.twoPow w i &&& x).getLsbD i = (0#w).getLsbD i := congrArg (·.getLsbD i) h
    rwa [BitVec.getLsbD_and, BitVec.getLsbD_twoPow, decide_eq_true hi, decide_eq_true rfl,
      Bool.true_and, Bool.true_and, BitVec.getLsbD_zero] at hbit
  · show (BitVec.twoPow w i &&& x).getLsbD j = (0#w).getLsbD j
    rw [BitVec.getLsbD_and, BitVec.getLsbD_twoPow, BitVec.getLsbD_zero]
    by_cases hij : i = j
    · rw [← hij, h, Bool.and_false]
    · rw [decide_eq_false hij, Bool.and_false, Bool.false_and]

end Bits
