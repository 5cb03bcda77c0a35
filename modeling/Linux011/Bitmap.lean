import Mathlib.Logic.Function.Basic

/-!
# Bitmaps of machine words

A bitmap is a sequence of words of `w` bits; bit `nr` is bit `nr % w` of word
`nr / w`. Setting and clearing a bit are described by what every bit is
afterwards, and the scan for a clear bit, one word at a time with a bit scan
inside the word, by `FirstClear`: the least clear bit of a range, or the end of
the range.

The scan of a word is a search for its lowest clear bit, and a word that is all
ones is passed as a whole. The two are put together by rules for `FirstClear`
that extend a range at its end and prepend one that has no clear bit, so that
the proof of a scan follows its loop and does not count bits. A bit of the map
is always spoken of by its number in the whole map.
-/

namespace Bitmap

open Function

variable {w : Nat}

/-- Bit `nr` of a bitmap. -/
def bit (m : Nat → BitVec w) (nr : Nat) : Bool := (m (nr / w)).getLsbD (nr % w)

def setBit (m : Nat → BitVec w) (nr : Nat) : Nat → BitVec w :=
  update m (nr / w) (m (nr / w) ||| BitVec.twoPow w (nr % w))

def clearBit (m : Nat → BitVec w) (nr : Nat) : Nat → BitVec w :=
  update m (nr / w) (m (nr / w) &&& ~~~ BitVec.twoPow w (nr % w))

/-- The least bit that is set in a word. -/
def bsf (x : BitVec w) : Option Nat := (List.range w).find? fun k => x.getLsbD k

/-- Scan `words` words from the bit `at_` on for the first that is not all ones. -/
def scan (m : Nat → BitVec w) : Nat → Nat → Nat
  | 0, at_ => at_
  | words + 1, at_ =>
      match bsf (~~~ m (at_ / w)) with
      | some k => at_ + k
      | none => scan m words (at_ + w)

theorem same_bit {nr k : Nat} (hdiv : k / w = nr / w) (hmod : k % w = nr % w) : k = nr := by
  rw [← Nat.div_add_mod k w, ← Nat.div_add_mod nr w, hdiv, hmod]

theorem bit_setBit (m : Nat → BitVec w) (hw : 0 < w) (nr k : Nat) :
    bit (setBit m nr) k = if k = nr then true else bit m k := by
  have hlt := Nat.mod_lt k hw
  unfold bit setBit
  by_cases hdiv : k / w = nr / w
  · rw [hdiv, update_self, BitVec.getLsbD_or, BitVec.getLsbD_twoPow, ← hdiv]
    by_cases hmod : k % w = nr % w
    · rw [if_pos (same_bit hdiv hmod), hmod]
      simp [Nat.mod_lt nr hw]
    · have hne : k ≠ nr := fun h => hmod (h ▸ rfl)
      rw [if_neg hne]
      simp [Ne.symm hmod]
  · have hne : k ≠ nr := fun h => hdiv (h ▸ rfl)
    rw [update_of_ne hdiv, if_neg hne]

theorem bit_clearBit (m : Nat → BitVec w) (hw : 0 < w) (nr k : Nat) :
    bit (clearBit m nr) k = if k = nr then false else bit m k := by
  have hlt := Nat.mod_lt k hw
  unfold bit clearBit
  by_cases hdiv : k / w = nr / w
  · rw [hdiv, update_self, BitVec.getLsbD_and, BitVec.getLsbD_not, BitVec.getLsbD_twoPow, ← hdiv]
    by_cases hmod : k % w = nr % w
    · rw [if_pos (same_bit hdiv hmod), hmod]
      simp [Nat.mod_lt nr hw]
    · have hne : k ≠ nr := fun h => hmod (h ▸ rfl)
      rw [if_neg hne]
      simp [Ne.symm hmod, hlt]
  · have hne : k ≠ nr := fun h => hdiv (h ▸ rfl)
    rw [update_of_ne hdiv, if_neg hne]

/-! ## The scan -/

/-- `j` is the least index from `lo` on where `p` is false, or `hi` when there is none
below `hi`. -/
structure FirstClear (p : Nat → Bool) (lo hi j : Nat) : Prop where
  le : j ≤ hi
  set : ∀ i, lo ≤ i → i < j → p i = true
  clear : j < hi → p j = false

theorem FirstClear.nil (p : Nat → Bool) (lo : Nat) : FirstClear p lo lo lo :=
  ⟨Nat.le_refl _, fun _ hlo hlt => absurd hlo (Nat.not_le_of_lt hlt),
    fun h => absurd h (Nat.lt_irrefl _)⟩

/-- A range without a clear bit in front of a scanned one. -/
theorem FirstClear.prepend {p : Nat → Bool} {lo mid hi j : Nat}
    (hset : ∀ i, lo ≤ i → i < mid → p i = true) (h : FirstClear p mid hi j) :
    FirstClear p lo hi j := by
  refine ⟨h.le, fun i hlo hlt => ?_, h.clear⟩
  rcases Nat.lt_or_ge i mid with hi | hi
  · exact hset i hlo hi
  · exact h.set i hi hlt

/-- A scan that has found its bit ends nowhere else in a longer range. -/
theorem FirstClear.extend {p : Nat → Bool} {lo mid hi j : Nat} (h : FirstClear p lo mid j)
    (hj : j < mid) (hmid : mid ≤ hi) : FirstClear p lo hi j :=
  ⟨Nat.le_trans h.le hmid, h.set, fun _ => h.clear hj⟩

theorem bsf_some {x : BitVec w} {k : Nat} (h : bsf x = some k) :
    k < w ∧ x.getLsbD k = true ∧ ∀ i < k, x.getLsbD i = false := by
  obtain ⟨hk, hset, hbefore⟩ := List.find?_range_eq_some.mp h
  refine ⟨List.mem_range.mp hset, hk, fun i hi => ?_⟩
  have hi := hbefore i hi
  simpa using hi

theorem bsf_none {x : BitVec w} (h : bsf x = none) : ∀ i < w, x.getLsbD i = false := by
  intro i hi
  simpa using List.find?_eq_none.mp h i (List.mem_range.mpr hi)

theorem word_div {k i : Nat} (hi : i < w) : (k * w + i) / w = k := by
  have hw : 0 < w := Nat.lt_of_le_of_lt (Nat.zero_le i) hi
  rw [Nat.mul_comm, Nat.mul_add_div hw, Nat.div_eq_of_lt hi, Nat.add_zero]

theorem word_mod {k i : Nat} (hi : i < w) : (k * w + i) % w = i := by
  rw [Nat.mul_comm, Nat.mul_add_mod, Nat.mod_eq_of_lt hi]

theorem bit_word (m : Nat → BitVec w) {k i : Nat} (hi : i < w) :
    bit m (k * w + i) = (m k).getLsbD i := by
  rw [bit, word_div hi, word_mod hi]

theorem not_bit {x : BitVec w} {i : Nat} (hi : i < w) {b : Bool}
    (h : (~~~ x).getLsbD i = b) : x.getLsbD i = !b := by
  rw [BitVec.getLsbD_not, decide_eq_true hi, Bool.true_and] at h
  rw [← h, Bool.not_not]

/-- The scan finds the least clear bit of its words. -/
theorem scan_firstClear (m : Nat → BitVec w) (hw : 0 < w) (words : Nat) :
    ∀ k, FirstClear (bit m) (k * w) ((k + words) * w) (scan m words (k * w)) := by
  induction words with
  | zero => exact fun k => FirstClear.nil _ _
  | succ words ih =>
      intro k
      have hword : k * w / w = k := Nat.mul_div_cancel k hw
      unfold scan
      rw [hword]
      cases hbsf : bsf (~~~ m k) with
      | some i =>
          obtain ⟨hi, hone, hzero⟩ := bsf_some hbsf
          have hend : (k + 1) * w ≤ (k + (words + 1)) * w := Nat.mul_le_mul_right w (by omega)
          rw [Nat.add_one_mul] at hend
          dsimp only
          refine ⟨by omega, fun j hlo hlt => ?_, fun _ => ?_⟩
          · obtain ⟨i', rfl⟩ := Nat.exists_eq_add_of_le hlo
            have hi' : i' < i := by omega
            rw [bit_word m (Nat.lt_trans hi' hi)]
            exact not_bit (Nat.lt_trans hi' hi) (hzero i' hi')
          · rw [bit_word m hi]
            exact not_bit hi hone
      | none =>
          have hrest := ih (k + 1)
          rw [show k + 1 + words = k + (words + 1) by omega, Nat.add_one_mul] at hrest
          refine FirstClear.prepend (fun j hlo hlt => ?_) hrest
          obtain ⟨i, rfl⟩ := Nat.exists_eq_add_of_le hlo
          have hi : i < w := by omega
          rw [bit_word m hi]
          exact not_bit hi (bsf_none hbsf i hi)

end Bitmap
