import Mathlib.Logic.Function.Basic
import Mathlib.Tactic.Common

/-!
# String instructions

Memory with a record of the addresses stored to, and `rep stosw` and `rep movsl` upwards (`cld`)
or downwards (`std`). `Within lo hi` says that every store so far was to `[lo, hi)`; a
repeated instruction keeps it when the first and the last place that it stores to are there.

Nothing is said of the values that are stored; the bounds are what the users need. Going upwards,
the elements must end before `hi`, and going downwards, the last one must begin at `lo` or later,
where an index register may pass below `lo` behind the last element and must not wrap: that is
what the bounds on `lo` and `hi` are for. `movsl` gives `%edi` too, since a user goes on from
there. Each rule is an induction over the count in `%ecx`.
-/

namespace StringOps

open Function

structure Ram where
  byte : UInt32 → UInt8
  /-- the addresses stored to, the latest first -/
  stored : List UInt32

theorem toNat_add_of_lt {a b : UInt32} {n : Nat} (hb : b.toNat = n)
    (h : a.toNat + n < 4294967296) : (a + b).toNat = a.toNat + n := by
  rw [UInt32.toNat_add, hb]
  exact Nat.mod_eq_of_lt h

theorem toNat_sub_of_le {a b : UInt32} {n : Nat} (hb : b.toNat = n) (h : n ≤ a.toNat) :
    (a - b).toNat = a.toNat - n := by
  have hle : b ≤ a := UInt32.le_iff_toNat_le.mpr (hb ▸ h)
  rw [UInt32.toNat_sub_of_le a b hle, hb]

/-- The direction flag. -/
inductive Dir where
  | cld
  | std

/-- The index register after an element of `size` bytes. -/
def Dir.next (d : Dir) (size a : UInt32) : UInt32 :=
  match d with
  | .cld => a + size
  | .std => a - size

namespace Ram

def storeb (a : UInt32) (b : UInt8) (m : Ram) : Ram where
  byte := update m.byte a b
  stored := a :: m.stored

def storew (a : UInt32) (w : UInt16) (m : Ram) : Ram :=
  (m.storeb a w.toUInt8).storeb (a + 1) (w >>> 8).toUInt8

def loadw (m : Ram) (a : UInt32) : UInt16 :=
  (m.byte (a + 1)).toUInt16 <<< 8 ||| (m.byte a).toUInt16

/-- The words of `src` are loaded before they are stored. -/
def copyl (dst src : UInt32) (m : Ram) : Ram :=
  (m.storew dst (m.loadw src)).storew (dst + 2) (m.loadw (src + 2))

/-- `rep stosw`. -/
def stosw (d : Dir) (ax : UInt16) : Nat → UInt32 → Ram → Ram
  | 0, _, m => m
  | ecx + 1, edi, m => stosw d ax ecx (d.next 2 edi) (m.storew edi ax)

/-- `rep movsl`, with `%edi` after it. -/
def movsl (d : Dir) : Nat → UInt32 → UInt32 → Ram → UInt32 × Ram
  | 0, edi, _, m => (edi, m)
  | ecx + 1, edi, esi, m => movsl d ecx (d.next 4 edi) (d.next 4 esi) (m.copyl edi esi)

/-- Nothing else was stored to. -/
def Within (lo hi : Nat) (m : Ram) : Prop := ∀ a ∈ m.stored, lo ≤ a.toNat ∧ a.toNat < hi

variable {lo hi : Nat} {m : Ram}

theorem Within.storeb (h : m.Within lo hi) {a : UInt32} (hlo : lo ≤ a.toNat) (hhi : a.toNat < hi)
    (b : UInt8) : (m.storeb a b).Within lo hi := by
  intro a' ha'
  rcases List.mem_cons.mp ha' with rfl | ha'
  · exact ⟨hlo, hhi⟩
  · exact h a' ha'

section Sized

variable (h32 : hi < 4294967296)

include h32

theorem Within.storew (h : m.Within lo hi) {a : UInt32} (hlo : lo ≤ a.toNat)
    (hhi : a.toNat + 2 ≤ hi) (w : UInt16) : (m.storew a w).Within lo hi := by
  have ha : (a + 1).toNat = a.toNat + 1 := toNat_add_of_lt rfl (by omega)
  refine (h.storeb hlo (by omega) _).storeb ?_ ?_ _
  · omega
  · omega

theorem Within.copyl (h : m.Within lo hi) {a : UInt32} (hlo : lo ≤ a.toNat)
    (hhi : a.toNat + 4 ≤ hi) (src : UInt32) : (m.copyl a src).Within lo hi := by
  have ha : (a + 2).toNat = a.toNat + 2 := toNat_add_of_lt rfl (by omega)
  refine (h.storew h32 hlo (by omega) _).storew h32 ?_ ?_ _
  · omega
  · omega

theorem Within.stosw_cld (ax : UInt16) : ∀ (n : Nat) {d : UInt32} {m : Ram}, m.Within lo hi →
    lo ≤ d.toNat → d.toNat + 2 * n ≤ hi → (m.stosw .cld ax n d).Within lo hi
  | 0, _, _, h, _, _ => h
  | n + 1, d, m, h, hlo, hhi => by
      have hnext : (Dir.cld.next 2 d).toNat = d.toNat + 2 :=
        toNat_add_of_lt rfl (by omega)
      refine stosw_cld ax n (h.storew h32 hlo (by omega) ax) ?_ ?_
      · omega
      · omega

theorem Within.movsl_cld : ∀ (n : Nat) {d e : UInt32} {m : Ram}, m.Within lo hi →
    lo ≤ d.toNat → d.toNat + 4 * n ≤ hi →
    (m.movsl .cld n d e).1.toNat = d.toNat + 4 * n ∧
      (m.movsl .cld n d e).2.Within lo hi
  | 0, _, _, _, h, _, _ => ⟨rfl, h⟩
  | n + 1, d, e, m, h, hlo, hhi => by
      have hnext : (Dir.cld.next 4 d).toNat = d.toNat + 4 :=
        toNat_add_of_lt rfl (by omega)
      obtain ⟨hedi, hw⟩ := movsl_cld n (e := Dir.cld.next 4 e)
        (h.copyl h32 hlo (by omega) e) (d := Dir.cld.next 4 d) (by omega) (by omega)
      refine ⟨?_, hw⟩
      rw [Ram.movsl, hedi, hnext]
      omega

variable (hlow : 4 ≤ lo)

include hlow

theorem Within.stosw_std (ax : UInt16) : ∀ (n : Nat) {d : UInt32} {m : Ram}, m.Within lo hi →
    lo + 2 * n ≤ d.toNat + 2 → d.toNat + 2 ≤ hi → (m.stosw .std ax n d).Within lo hi
  | 0, _, _, h, _, _ => h
  | n + 1, d, m, h, hlo, hhi => by
      have hnext : (Dir.std.next 2 d).toNat = d.toNat - 2 :=
        toNat_sub_of_le rfl (by omega)
      refine stosw_std ax n (h.storew h32 (by omega) hhi ax) ?_ ?_
      · omega
      · omega

theorem Within.movsl_std : ∀ (n : Nat) {d e : UInt32} {m : Ram}, m.Within lo hi →
    lo + 4 * n ≤ d.toNat + 4 → d.toNat + 4 ≤ hi →
    (m.movsl .std n d e).1.toNat + 4 * n = d.toNat ∧
      (m.movsl .std n d e).2.Within lo hi
  | 0, _, _, _, h, _, _ => ⟨rfl, h⟩
  | n + 1, d, e, m, h, hlo, hhi => by
      have hnext : (Dir.std.next 4 d).toNat = d.toNat - 4 :=
        toNat_sub_of_le rfl (by omega)
      obtain ⟨hedi, hw⟩ := movsl_std n (e := Dir.std.next 4 e)
        (h.copyl h32 (by omega) hhi e) (d := Dir.std.next 4 d) (by omega) (by omega)
      refine ⟨?_, hw⟩
      rw [Ram.movsl]
      omega

end Sized

end Ram

end StringOps
