import Linux011.TaskPages
import Linux011.Views

/-!
# Loads and stores of the tasks

What the processor does for a task: it finds the page of an address in the tables,
calls the page fault handlers of `mm/memory.c` where an entry is absent or forbids
the store, marks the entry and reads or writes a byte of the page.

A load and a store are what the processor does with one byte, with the page
faults in between as calls of the handlers of `mm/memory.c`. A word holds four
bytes, the lowest one first, and a byte of a page is one of its words; `setByte`
changes one of them. What a task reads does not depend on the marks in its
entries, so that they can be set by any access.
-/

namespace Linux011

open Function Views

abbrev Byte := BitVec 8

/-! ## The bytes of a word -/

/-- Byte `k` of a word, the lowest one first. -/
def byteOf (w : Word) (k : Nat) : Byte := (w >>> (8 * k)).setWidth 8

def setByte (w : Word) (k : Nat) (v : Byte) : Word :=
  w &&& ~~~((0xff : Word) <<< (8 * k)) ||| v.setWidth 32 <<< (8 * k)

theorem getLsbD_byteMask (i : Nat) : (0xff : Word).getLsbD i = decide (i < 8) :=
  getLsbD_mask (p := (· < 8)) (by decide) (by omega) i

theorem getLsbD_setByte (w : Word) (v : Byte) {k : Nat} (hk : k < 4) (i : Nat) :
    (setByte w k v).getLsbD i
      = if 8 * k ≤ i ∧ i < 8 * k + 8 then v.getLsbD (i - 8 * k) else w.getLsbD i := by
  rw [setByte, BitVec.getLsbD_or, BitVec.getLsbD_and, BitVec.getLsbD_not,
    BitVec.getLsbD_shiftLeft, BitVec.getLsbD_shiftLeft, getLsbD_byteMask,
    BitVec.getLsbD_setWidth]
  rcases Nat.lt_or_ge i 32 with hi | hi
  · rcases Nat.lt_or_ge i (8 * k) with h₁ | h₁
    · simp [hi, h₁, show ¬(8 * k ≤ i ∧ i < 8 * k + 8) by omega]
    · rcases Nat.lt_or_ge i (8 * k + 8) with h₂ | h₂
      · simp [hi, h₁, h₂, show ¬i < 8 * k by omega, show i - 8 * k < 8 by omega,
          show i - 8 * k < 32 by omega]
      · simp [hi, show ¬(8 * k ≤ i ∧ i < 8 * k + 8) by omega, show ¬i - 8 * k < 8 by omega,
          show v.getLsbD (i - 8 * k) = false from BitVec.getLsbD_of_ge _ _ (by omega)]
  · simp [show ¬i < 32 by omega, show ¬(8 * k ≤ i ∧ i < 8 * k + 8) by omega,
      show w.getLsbD i = false from BitVec.getLsbD_of_ge _ _ hi]

theorem getLsbD_byteOf (w : Word) (k i : Nat) :
    (byteOf w k).getLsbD i = (decide (i < 8) && w.getLsbD (8 * k + i)) := by
  rw [byteOf, BitVec.getLsbD_setWidth, BitVec.getLsbD_ushiftRight]

theorem byteOf_setByte (w : Word) (v : Byte) {k : Nat} (hk : k < 4) :
    byteOf (setByte w k v) k = v := by
  apply BitVec.eq_of_getLsbD_eq
  intro i hi
  rw [getLsbD_byteOf, getLsbD_setByte w v hk, if_pos (by omega)]
  simp [hi]

theorem byteOf_setByte_ne (w : Word) (v : Byte) {k j : Nat} (hk : k < 4) (hne : j ≠ k) :
    byteOf (setByte w k v) j = byteOf w j := by
  apply BitVec.eq_of_getLsbD_eq
  intro i hi
  rw [getLsbD_byteOf, getLsbD_byteOf, getLsbD_setByte w v hk, if_neg (by omega)]

theorem byteOf_zero (k : Nat) : byteOf 0 k = 0 := by
  apply BitVec.eq_of_getLsbD_eq
  intro i _
  simp [getLsbD_byteOf]

/-! ## Accesses -/

/-- The word of a page that holds the byte at an address. -/
def wordSlot (address : Nat) : Slot := ⟨address % 0x1000 / 4, by omega⟩

namespace Mem

/-- The byte that a task reads at a linear address; a page that is not there is filled
with zeros on the way. -/
def byteAt (m : Mem) (address : Nat) : Byte :=
  match m.page (posOf address) with
  | none => 0
  | some p => byteOf (m.phys p (wordSlot address)) (address % 4)

def storeByte (m : Mem) (address : Nat) (value : Byte) : Mem :=
  match m.page (posOf address) with
  | none => m
  | some p =>
    m.write p (wordSlot address) (setByte (m.phys p (wordSlot address)) (address % 4) value)

/-- The entry of the address is marked as accessed, and as dirty. -/
def mark (m : Mem) (address : Nat) (dirty : Bool) : Mem :=
  let table := m.table (dirSlot address)
  m.write table (tableSlot address) (m.phys table (tableSlot address) ||| accessBits dirty)

/-- The entry is present and has its write bit. -/
def WritableAt (m : Mem) (x : Pos) : Prop := ∃ e, m.ent x = some e ∧ Writable e

/-- The words that a position of the tables shows. -/
def view (m : Mem) (x : Pos) : Slot → Word := Views.view m.page m.phys (fun _ => 0) x

end Mem

/-- The page faults of an access. The flag says whether the access then goes through;
otherwise the task is killed. -/
def pageFault (m : Mem) (address : Nat) (store : Bool) : Except Panic (Bool × Mem) :=
  match m.ent (posOf address) with
  | none => getEmptyPage m address
  | some e =>
    if store ∧ ¬Writable e then
      match doWpPage m address with
      | none => .ok (false, m)
      | some m => .ok (true, m)
    else .ok (true, m)

def userStore (m : Mem) (address : Nat) (value : Byte) : Except Panic (Bool × Mem) := do
  let (there, m) ← pageFault m address true
  pure (there, if there then (m.mark address true).storeByte address value else m)

def userLoad (m : Mem) (address : Nat) : Except Panic (Bool × Mem) := do
  let (there, m) ← pageFault m address false
  pure (there, if there then m.mark address false else m)

theorem Mem.byteAt_eq (m : Mem) (address : Nat) :
    m.byteAt address = byteOf (m.view (posOf address) (wordSlot address)) (address % 4) := by
  unfold Mem.byteAt Mem.view
  cases h : m.page (posOf address) with
  | none =>
      rw [view_none h]
      exact (byteOf_zero _).symm
  | some p => rw [view_some h]

end Linux011
