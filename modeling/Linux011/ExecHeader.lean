import Linux011.Exec

/-!
# The header of an executable

The checks of `do_execve` add in 32 bits. They keep text, data and bss below 0x3000000, and the
file as long as its header says, unless one of the sums reaches `2 ^ 32` (`header_validated`).

The sums of the source are taken in natural numbers once, `sizeSum` and `fileSum`, and the checks
compare their remainders (`headerOk_iff`). Without a wrap the remainders are the sums, and what
the checks are for follows; where a sum reaches `2 ^ 32` and its remainder passes, the header is
accepted although its parts are too large, so that the equivalence is exact. The ends of the
parts in the new task are words that `setBrk` computes from the header, and the zero-fill loop
stays within a page of the end of the data in both cases.
-/

namespace Linux011

namespace Exec

variable {ex : Header} {i_size : Word}

/-! ## The sums as integers -/

/-- Text, data and bss. -/
def sizeSum (ex : Header) : Nat := ex.a_text.toNat + ex.a_data.toNat + ex.a_bss.toNat

/-- What the file is to hold. -/
def fileSum (ex : Header) : Nat := ex.a_text.toNat + ex.a_data.toNat + ex.a_syms.toNat + 1024

/-- A sum reaches `2 ^ 32`, and nothing that is left of it is refused. -/
structure Wraps (ex : Header) (i_size : Word) : Prop where
  magic : ex.a_magic = ZMAGIC
  relocation : ex.a_trsize = 0 ∧ ex.a_drsize = 0
  size : sizeSum ex % 0x100000000 ≤ 0x3000000
  file : fileSum ex % 0x100000000 ≤ i_size.toNat
  wraps : 0x100000000 ≤ sizeSum ex ∨ 0x100000000 ≤ fileSum ex

/-- What the checks are for: the sizes, the ends of the parts of the new task `t`, and the
zero-fill loop. -/
structure Validated (ex : Header) (i_size : Word) (t : Task) : Prop where
  size : sizeSum ex ≤ 0x3000000
  file : fileSum ex ≤ i_size.toNat
  ends : t.end_code ≤ t.end_data ∧ t.end_data ≤ t.brk ∧ t.brk ≤ 0x3000000
  fill : ∀ a ∈ fillAddrs PAGE_SIZE (ex.a_text + ex.a_data),
    t.end_data ≤ a ∧ a.toNat < t.end_data.toNat + PAGE_SIZE

theorem headerOk_iff : HeaderOk ex i_size ↔ ex.a_magic = ZMAGIC ∧
    (ex.a_trsize = 0 ∧ ex.a_drsize = 0) ∧ sizeSum ex % 0x100000000 ≤ 0x3000000 ∧
    fileSum ex % 0x100000000 ≤ i_size.toNat := by
  unfold HeaderOk sizeSum fileSum
  by_cases hmagic : ex.a_magic = ZMAGIC
  · have hoff : txtOff ex = 1024 := if_pos hmagic
    have hsize : ex.a_text + ex.a_data + ex.a_bss > 0x3000000 ↔
        0x3000000 < (ex.a_text.toNat + ex.a_data.toNat + ex.a_bss.toNat) % 0x100000000 := by
      rw [gt_iff_lt, BitVec.lt_def]
      simp
    have hfile : i_size < ex.a_text + ex.a_data + ex.a_syms + 1024 ↔ i_size.toNat <
        (ex.a_text.toNat + ex.a_data.toNat + ex.a_syms.toNat + 1024) % 0x100000000 := by
      rw [BitVec.lt_def]
      simp
    rw [hoff, hsize, hfile]
    have hblock : ¬(1024 : Word).toNat ≠ BLOCK_SIZE := by decide
    simp only [not_or, not_not, not_lt, and_assoc, hblock, not_false_eq_true, and_true]
  · simp [hmagic]

theorem and_page (i : Word) : i &&& 0xfff ≠ 0 ↔ i.toNat % 4096 ≠ 0 := by
  have hmask : (i &&& 0xfff).toNat = i.toNat % 4096 := by
    rw [BitVec.toNat_and]
    exact Nat.and_two_pow_sub_one_eq_mod i.toNat 12
  rw [← hmask, Ne, Ne, ← BitVec.toNat_inj]
  rfl

/-- The addresses of the loop: one after the other, up to the end of the page. -/
theorem mem_fillAddrs {n : Nat} {i a : Word} (h : a ∈ fillAddrs n i) :
    i.toNat % 4096 ≠ 0 ∧ ∃ k < n, a = i + BitVec.ofNat 32 k ∧ i.toNat % 4096 + k < 4096 := by
  induction n generalizing i with
  | zero => cases h
  | succ n ih =>
      unfold fillAddrs at h
      split at h
      · rename_i hpage
        have hpage := (and_page i).mp hpage
        refine ⟨hpage, ?_⟩
        rcases List.mem_cons.mp h with rfl | h
        · exact ⟨0, Nat.zero_lt_succ n, by simp, by omega⟩
        · obtain ⟨hnext, k, hk, rfl, hlt⟩ := ih h
          exact ⟨k + 1, Nat.succ_lt_succ hk, by bv_omega, by bv_omega⟩
      · cases h

/-- **Headers are validated**, for all values of their fields and of the size of the
file, exactly if no sum wraps around unnoticed: what is accepted then has at most
0x3000000 bytes of text, data and bss in a file that is long enough, the ends of its
parts are in order, and the zeros behind the data are written within a page. -/
theorem header_validated (ex : Header) (i_size : Word) (t : Task) :
    (HeaderOk ex i_size → Validated ex i_size (setBrk t ex)) ↔ ¬Wraps ex i_size := by
  rw [headerOk_iff]
  refine ⟨fun h hw => ?_, fun hw ⟨hmagic, hreloc, hsize, hfile⟩ => ?_⟩
  · have hv := h ⟨hw.magic, hw.relocation, hw.size, hw.file⟩
    have hsize := hv.size
    have hfile := hv.file
    rcases hw.wraps with hlarge | hlarge <;> omega
  · have hnot : sizeSum ex < 0x100000000 ∧ fileSum ex < 0x100000000 := by
      by_contra hlarge
      exact hw ⟨hmagic, hreloc, hsize, hfile, by omega⟩
    rw [Nat.mod_eq_of_lt hnot.1] at hsize
    rw [Nat.mod_eq_of_lt hnot.2] at hfile
    have hsum := hsize
    unfold sizeSum at hsum
    have hdata : (ex.a_data + ex.a_text).toNat = ex.a_data.toNat + ex.a_text.toNat := by bv_omega
    have hbrk : (ex.a_bss + (ex.a_data + ex.a_text)).toNat
        = ex.a_bss.toNat + (ex.a_data.toNat + ex.a_text.toNat) := by bv_omega
    refine ⟨hsize, hfile, ⟨?_, ?_, ?_⟩, fun a ha => ?_⟩
    · show ex.a_text ≤ ex.a_data + ex.a_text
      rw [BitVec.le_def, hdata]
      omega
    · show ex.a_data + ex.a_text ≤ ex.a_bss + (ex.a_data + ex.a_text)
      rw [BitVec.le_def, hdata, hbrk]
      omega
    · show ex.a_bss + (ex.a_data + ex.a_text) ≤ 0x3000000
      rw [BitVec.le_def, hbrk]
      show _ ≤ 0x3000000
      omega
    · obtain ⟨-, k, hk, rfl, hlt⟩ := mem_fillAddrs ha
      have hk : k < 4096 := hk
      have haddr : (ex.a_text + ex.a_data + BitVec.ofNat 32 k).toNat
          = ex.a_data.toNat + ex.a_text.toNat + k := by bv_omega
      constructor
      · show ex.a_data + ex.a_text ≤ _
        rw [BitVec.le_def, hdata, haddr]
        omega
      · show _ < (ex.a_data + ex.a_text).toNat + 4096
        rw [hdata, haddr]
        omega

def noHeader : Header := ⟨ZMAGIC, 0, 0, 0, 0, 0, 0, 0⟩

def noTask : Task where
  euid := 0
  egid := 0
  executable := none
  sa_handler _ := 0
  close_on_exec := 0
  used_math := false
  codeBase := 0x4000000
  codeLimit := 0x1000
  dataBase := 0x4000000
  dataLimit := 0x4000000
  end_code := 0
  end_data := 0
  brk := 0
  start_stack := 0

/-- Text and data of 2 GB each, in a file of one block. -/
theorem not_header_validated :
    ¬ ∀ (ex : Header) (i_size : Word) (t : Task),
      HeaderOk ex i_size → Validated ex i_size (setBrk t ex) := by
  intro h
  have hv := h { noHeader with a_text := 0x80000000, a_data := 0x80000000 } 1024 noTask (by decide)
  exact absurd hv.size (by decide)

end Exec

end Linux011
