import Mathlib.Data.Nat.Bitwise
import Mathlib.Tactic.Common

/-!
# Page directory and page table entries

The 32-bit entries of the i386 and the masks that `mm/memory.c` applies to them:
bit 0 present, bit 1 writable, bits 5 and 6 accessed and dirty (set by the
processor), bits 12 to 31 the page frame. Page frames are named by their number,
so the address `0xfffff000 & e` is the frame `frame e`.

Every mask of the source has a lemma on its bits, and what a mask does to an
entry is derived from the bits: `entry` and `wrprotect` are the only ways to
build one, and the processor adds `accessBits`. The lemmas say for each of them
whether the result is present, whether it is writable and which frame it has,
and are in the simp set, so that the functions of `mm/memory.c` need not go down
to the bits. Two comparisons of the source are made with whole entries and not
with frames: the test for a clean page, and that for the low memory
(`lowMem_lt_iff`).
-/

namespace Linux011

abbrev Word := BitVec 32

/-- `1 & e` -/
def Present (e : Word) : Prop := e &&& 1 ≠ 0

/-- `2 & e` -/
def Writable (e : Word) : Prop := e &&& 2 ≠ 0

instance (e : Word) : Decidable (Present e) := inferInstanceAs (Decidable (_ ≠ _))

instance (e : Word) : Decidable (Writable e) := inferInstanceAs (Decidable (_ ≠ _))

/-- The page at `0xfffff000 & e`. -/
def frame (e : Word) : Nat := ((e &&& 0xfffff000) >>> 12).toNat

/-- The address of a page. -/
def pageAddr (page : Nat) : Word := BitVec.ofNat 32 page <<< 12

/-- `page | 7`: present, writable, for user mode. -/
def entry (page : Nat) : Word := pageAddr page ||| 7

/-- Page numbers fit into the frame bits. -/
def PAGES : Nat := 2 ^ 20

/-! ## The bits of the masks -/

theorem getLsbD_mask {k : Word} {p : Nat → Prop} [DecidablePred p]
    (h : ∀ i : Fin 32, k.getLsbD i = decide (p i)) (hp : ∀ i, p i → i < 32) (i : Nat) :
    k.getLsbD i = decide (p i) := by
  rcases Nat.lt_or_ge i 32 with hi | hi
  · exact h ⟨i, hi⟩
  · rw [BitVec.getLsbD_of_ge _ _ hi]
    exact (decide_eq_false fun h => absurd (hp i h) (by omega)).symm

theorem getLsbD_one (i : Nat) : (1 : Word).getLsbD i = decide (i = 0) :=
  getLsbD_mask (p := (· = 0)) (by decide) (by omega) i

theorem getLsbD_two (i : Nat) : (2 : Word).getLsbD i = decide (i = 1) :=
  getLsbD_mask (p := (· = 1)) (by decide) (by omega) i

theorem getLsbD_seven (i : Nat) : (7 : Word).getLsbD i = decide (i < 3) :=
  getLsbD_mask (p := (· < 3)) (by decide) (by omega) i

theorem getLsbD_frameMask (i : Nat) :
    (0xfffff000 : Word).getLsbD i = decide (12 ≤ i ∧ i < 32) :=
  getLsbD_mask (p := fun i => 12 ≤ i ∧ i < 32) (by decide) (by omega) i

theorem and_ne_zero_iff {e mask : Word} {k : Nat}
    (hm : ∀ i, mask.getLsbD i = decide (i = k)) : e &&& mask ≠ 0 ↔ e.getLsbD k = true := by
  rw [ne_eq, not_iff_comm, Bool.not_eq_true]
  constructor
  · intro h
    apply BitVec.eq_of_getLsbD_eq
    intro i hi
    rcases eq_or_ne i k with rfl | hne
    · simp [h]
    · simp [hm, hne]
  · intro h
    have := congrArg (fun w : Word => w.getLsbD k) h
    simpa [hm] using this

theorem present_iff {e : Word} : Present e ↔ e.getLsbD 0 = true :=
  and_ne_zero_iff getLsbD_one

theorem writable_iff {e : Word} : Writable e ↔ e.getLsbD 1 = true :=
  and_ne_zero_iff getLsbD_two

theorem frame_eq (e : Word) : frame e = (e >>> 12).toNat := by
  unfold frame
  congr 1
  apply BitVec.eq_of_getLsbD_eq
  intro i hi
  rw [BitVec.getLsbD_ushiftRight, BitVec.getLsbD_ushiftRight, BitVec.getLsbD_and,
    getLsbD_frameMask]
  rcases Nat.lt_or_ge (12 + i) 32 with h | h
  · simp [h]
  · simp [BitVec.getLsbD_of_ge e (12 + i) h]

/-- The frame is read off the bits from 12 on. -/
theorem frame_congr {e e' : Word} (h : ∀ i, 12 ≤ i → e.getLsbD i = e'.getLsbD i) :
    frame e = frame e' := by
  rw [frame_eq, frame_eq]
  congr 1
  apply BitVec.eq_of_getLsbD_eq
  intro i _
  simpa using h (12 + i) (by omega)

theorem frame_lt (e : Word) : frame e < PAGES := by
  rw [frame_eq, BitVec.toNat_ushiftRight, Nat.shiftRight_eq_div_pow]
  have := e.isLt
  simp only [PAGES]
  omega

/-! ## Entries as the source builds them -/

@[simp] theorem not_present_zero : ¬Present 0 := by simp [present_iff]

@[simp] theorem present_entry (page : Nat) : Present (entry page) := by
  rw [present_iff, entry, BitVec.getLsbD_or, getLsbD_seven]
  simp

@[simp] theorem writable_entry (page : Nat) : Writable (entry page) := by
  rw [writable_iff, entry, BitVec.getLsbD_or, getLsbD_seven]
  simp

theorem frame_or {e mask : Word} (hm : ∀ i, 12 ≤ i → mask.getLsbD i = false) :
    frame (e ||| mask) = frame e := by
  apply frame_congr
  intro i hi
  rw [BitVec.getLsbD_or, hm i hi, Bool.or_false]

theorem frame_pageAddr {page : Nat} (h : page < PAGES) : frame (pageAddr page) = page := by
  rw [frame_eq]
  simp only [pageAddr, PAGES, BitVec.toNat_ushiftRight, BitVec.toNat_shiftLeft,
    BitVec.toNat_ofNat, Nat.shiftRight_eq_div_pow, Nat.shiftLeft_eq] at *
  omega

theorem frame_entry {page : Nat} (h : page < PAGES) : frame (entry page) = page := by
  have hseven : ∀ i, 12 ≤ i → (7 : Word).getLsbD i = false := fun i hi => by
    rw [getLsbD_seven]
    exact decide_eq_false (by omega)
  exact (frame_or hseven).trans (frame_pageAddr h)

/-- `e &= ~2` -/
def wrprotect (e : Word) : Word := e &&& ~~~2

theorem getLsbD_wrprotect (e : Word) {i : Nat} (hi : i ≠ 1) :
    (wrprotect e).getLsbD i = e.getLsbD i := by
  rw [wrprotect, BitVec.getLsbD_and, BitVec.getLsbD_not, getLsbD_two]
  rcases Nat.lt_or_ge i 32 with h | h
  · simp [h, hi]
  · rw [BitVec.getLsbD_of_ge e i h, Bool.false_and]

@[simp] theorem present_wrprotect (e : Word) : Present (wrprotect e) ↔ Present e := by
  rw [present_iff, present_iff, getLsbD_wrprotect e (by omega)]

@[simp] theorem not_writable_wrprotect (e : Word) : ¬Writable (wrprotect e) := by
  rw [writable_iff, wrprotect, BitVec.getLsbD_and, BitVec.getLsbD_not, getLsbD_two]
  simp

@[simp] theorem frame_wrprotect (e : Word) : frame (wrprotect e) = frame e :=
  frame_congr fun _ hi => getLsbD_wrprotect e (by omega)

@[simp] theorem frame_or_two (e : Word) : frame (e ||| 2) = frame e :=
  frame_or fun i hi => by
    rw [getLsbD_two]
    exact decide_eq_false (by omega)

@[simp] theorem present_or_two (e : Word) : Present (e ||| 2) ↔ Present e := by
  rw [present_iff, present_iff, BitVec.getLsbD_or, getLsbD_two]
  simp

@[simp] theorem writable_or_two (e : Word) : Writable (e ||| 2) := by
  rw [writable_iff, BitVec.getLsbD_or, getLsbD_two]
  simp

/-- Accessed and dirty bits of an entry. -/
def accessBits (dirty : Bool) : Word := if dirty then 0x60 else 0x20

theorem frame_access (e : Word) (dirty : Bool) : frame (e ||| accessBits dirty) = frame e := by
  refine frame_or fun i hi => ?_
  have h20 := getLsbD_mask (k := 0x20) (p := fun i => i = 5) (by decide) (by omega) i
  have h60 := getLsbD_mask (k := 0x60) (p := fun i => i = 5 ∨ i = 6) (by decide) (by omega) i
  cases dirty
  · exact h20.trans (decide_eq_false (by omega))
  · exact h60.trans (decide_eq_false (by omega))

theorem present_access {e : Word} (h : Present e) (dirty : Bool) :
    Present (e ||| accessBits dirty) := by
  rw [present_iff, BitVec.getLsbD_or, present_iff.mp h, Bool.true_or]

theorem writable_access (e : Word) (dirty : Bool) :
    Writable (e ||| accessBits dirty) ↔ Writable e := by
  have hbit : (accessBits dirty).getLsbD 1 = false := by cases dirty <;> rfl
  rw [writable_iff, writable_iff, BitVec.getLsbD_or, hbit, Bool.or_false]

/-- The test of `try_to_share` for a clean page: bits 0 and 6. -/
theorem present_of_clean {e : Word} (h : e &&& 0x41 = 0x01) : Present e := by
  have hmask : (0x41 : Word).getLsbD 0 = true := rfl
  have hbit := congrArg (fun w : Word => w.getLsbD 0) h
  rw [present_iff]
  simpa only [BitVec.getLsbD_and, hmask, Bool.and_true, getLsbD_one, decide_true] using hbit

theorem toNat_div (e : Word) : e.toNat / 4096 = frame e := by
  rw [frame_eq, BitVec.toNat_ushiftRight, Nat.shiftRight_eq_div_pow]

/-- `this_page > LOW_MEM` compares a whole entry word with the address 1 MB; the
present bit makes it the comparison of the frames. -/
theorem lowMem_lt_iff {e : Word} (h : Present e) : 0x100000 < e ↔ 0x100 ≤ frame e := by
  have hodd : e.toNat % 2 = 1 := by
    have := present_iff.mp h
    simpa [BitVec.getLsbD, Nat.testBit_zero] using this
  rw [← toNat_div, BitVec.lt_def]
  show 0x100000 < e.toNat ↔ _
  omega

end Linux011
