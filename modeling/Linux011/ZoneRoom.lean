import Linux011.VolumeGrowth
import Mathlib.Order.Interval.Finset.Nat

/-!
# How many zones are free

`create_block` gets a block exactly when as many zones are free as blocks are missing on the way
to it, and `add_entry` gets an entry unless it needs such a block in vain.

`room` is the number of free zones of the map, and taking a zone makes it one less. On the way to
a block at most three slots have to be filled, and each one that is empty has only empty ones
below it; so the number of blocks that are missing is known before the call, and an induction
down the way compares it with `room`. On a shortage the call has used up what there was and
returns 0. For a directory only the last entry can need a block, since all the others are in
blocks that are there.
-/

namespace Linux011

open Function Super SuperBlock Zones Bmap

/-! ## Free zones -/

namespace Super.SuperBlock

variable {sb sb' : SuperBlock} {z : Nat}

def freeZones (sb : SuperBlock) : Finset Nat :=
  {z ∈ Finset.Ico sb.s_firstdatazone sb.s_nzones | sb.allocated z = false}

theorem mem_freeZones : z ∈ sb.freeZones ↔ sb.InRange z ∧ sb.allocated z = false := by
  unfold freeZones InRange
  rw [Finset.mem_filter, Finset.mem_Ico]

/-- How many zones are free. -/
def room (sb : SuperBlock) : Nat := sb.freeZones.card

theorem room_congr (hrange : ∀ z, sb'.InRange z ↔ sb.InRange z)
    (hsame : ∀ z, sb.InRange z → sb'.allocated z = sb.allocated z) : sb'.room = sb.room := by
  refine congrArg Finset.card (Finset.ext fun z => ?_)
  rw [mem_freeZones, mem_freeZones, hrange]
  exact and_congr_right fun hz => by rw [hsame z hz]

theorem Takes.room (h : Takes sb z sb') (hrange : ∀ z, sb'.InRange z ↔ sb.InRange z) :
    sb'.room + 1 = sb.room := by
  have herase : sb'.freeZones = sb.freeZones.erase z := by
    refine Finset.ext fun b => ?_
    rw [Finset.mem_erase, mem_freeZones, mem_freeZones, hrange]
    by_cases hb : b = z
    · subst hb
      rw [h.taken]
      exact iff_of_false (fun hc => Bool.false_ne_true hc.2.symm) fun hc => hc.1 rfl
    · rw [and_iff_right hb]
      exact and_congr_right fun hr => by rw [h.others b hr hb]
  unfold SuperBlock.room
  rw [herase]
  exact Finset.card_erase_add_one (mem_freeZones.mpr ⟨h.inRange, h.free⟩)

theorem Full.room (h : Full sb sb') : sb.room = 0 := by
  refine Finset.card_eq_zero.mpr (Finset.eq_empty_of_forall_notMem fun z hz => ?_)
  obtain ⟨hrange, hfree⟩ := mem_freeZones.mp hz
  exact Bool.false_ne_true (hfree.symm.trans (h.all z hrange))

end Super.SuperBlock

variable {d : DSuperBlock} {inode inode' : MInode} {s s' : Disk} {i k n r z : Nat}

theorem newBlock_room (hc : Covers s.sb d) (h : s.newBlock = .ok (s', z)) :
    (z ≠ 0 ↔ 1 ≤ s.sb.room) ∧ s'.sb.room = s.sb.room - 1 := by
  obtain ⟨s₁, ret, hnew, hcovers, hspec⟩ := Disk.newBlock_spec hc
  obtain ⟨rfl, rfl⟩ := Prod.mk.inj (Except.ok.inj (hnew.symm.trans h))
  have hrange := Covers.inRange_iff hc hcovers
  cases hspec with
  | zone _ sb hpos htakes =>
      have hroom : sb.room + 1 = s.sb.room := htakes.room hrange
      exact ⟨iff_of_true hpos (by omega), by dsimp only; omega⟩
  | full sb hfull =>
      have hzero := hfull.room
      have hsame : sb.room = s.sb.room := room_congr hrange hfull.same
      exact ⟨iff_of_false (fun h => h rfl) (by omega), by dsimp only; omega⟩

/-! ## create_block -/

namespace Bmap

/-- 1 for a slot that is empty. -/
def absent (inode : MInode) (s : Disk) (x : Slot) : Nat := if value inode s x = 0 then 1 else 0

/-- How many blocks there are not on the way to the block of a slot. -/
def missing (inode : MInode) (s : Disk) : Slot → Nat
  | .direct i => absent inode s (.direct i)
  | .single k => absent inode s (.direct 7) + absent inode s (.single k)
  | .double a => absent inode s (.direct 8) + absent inode s (.double a)
  | .leaf a b => absent inode s (.direct 8) + absent inode s (.double a) + absent inode s (.leaf a b)

variable {x p : Slot}

theorem zone_room (h : Tree d inode s) (hz : zone true inode s i = .ok (inode', s', r)) :
    (r ≠ 0 ↔ absent inode s (.direct i) ≤ s.sb.room) ∧
      s'.sb.room = s.sb.room - absent inode s (.direct i) := by
  unfold absent value
  unfold zone at hz
  by_cases hi : inode.i_zone i = 0
  · rw [if_pos ⟨rfl, hi⟩] at hz
    rw [if_pos hi]
    obtain ⟨s₁, z, hnew, hcovers, hspec⟩ := Disk.newBlock_spec h.covers
    obtain ⟨hpos, hroom⟩ := newBlock_room h.covers hnew
    rw [hnew] at hz
    dsimp only at hz
    by_cases hzero : z = 0
    · rw [if_pos hzero] at hz
      obtain ⟨-, hz⟩ := Prod.mk.inj (Except.ok.inj hz)
      obtain ⟨rfl, rfl⟩ := Prod.mk.inj hz
      exact ⟨hzero ▸ hpos, hroom⟩
    · rw [if_neg hzero] at hz
      obtain ⟨-, hz⟩ := Prod.mk.inj (Except.ok.inj hz)
      obtain ⟨rfl, rfl⟩ := Prod.mk.inj hz
      have hlt : z < 0x10000 := by
        cases hspec with
        | zone _ sb _ htakes => exact h.zone_lt htakes
        | full sb _ => decide
      rw [Nat.mod_eq_of_lt hlt]
      exact ⟨hpos, hroom⟩
  · rw [if_neg fun hc => hi hc.2] at hz
    obtain ⟨-, hz⟩ := Prod.mk.inj (Except.ok.inj hz)
    obtain ⟨rfl, rfl⟩ := Prod.mk.inj hz
    rw [if_neg hi]
    exact ⟨iff_of_true hi (Nat.zero_le _), rfl⟩

theorem entry_room (h : Tree d inode s) (hp : x.parent = some p) (hpos : value inode s p ≠ 0)
    (he : entry true s (value inode s p) x.idx = .ok (s', r)) :
    (r ≠ 0 ↔ absent inode s x ≤ s.sb.room) ∧ s'.sb.room = s.sb.room - absent inode s x := by
  have hword : word (s.b_data (value inode s p)) x.idx = value inode s x := by
    rw [value_child inode s hp, below, if_neg hpos]
  unfold absent
  unfold entry at he
  rw [hword] at he
  dsimp only at he
  by_cases hx : value inode s x = 0
  · rw [if_pos ⟨rfl, hx⟩] at he
    rw [if_pos hx]
    obtain ⟨s₁, z, hnew, -, -⟩ := Disk.newBlock_spec h.covers
    obtain ⟨hpos, hroom⟩ := newBlock_room h.covers hnew
    rw [hnew] at he
    dsimp only at he
    by_cases hzero : z = 0
    · rw [if_pos hzero] at he
      obtain ⟨rfl, rfl⟩ := Prod.mk.inj (Except.ok.inj he)
      exact ⟨hzero ▸ hpos, hroom⟩
    · rw [if_neg hzero] at he
      obtain ⟨rfl, rfl⟩ := Prod.mk.inj (Except.ok.inj he)
      exact ⟨hpos, hroom⟩
  · rw [if_neg fun hc => hx hc.2] at he
    obtain ⟨rfl, rfl⟩ := Prod.mk.inj (Except.ok.inj he)
    rw [if_neg hx]
    exact ⟨iff_of_true hx (Nat.zero_le _), rfl⟩

/-- The slots of other blocks are as they were. -/
theorem Ensures.absent {y : Slot} (he : Ensures d inode s x inode' s' r) (hy : y.Valid)
    (hne : y ≠ x) : Bmap.absent inode' s' y = Bmap.absent inode s y := by
  unfold Bmap.absent
  rw [he.others y hy hne]

/-- `create_block` of any block of a file gets a block exactly when as many zones are
free as are missing on the way to it: the block itself and the one or two index blocks
in front of it. -/
theorem bmap_room (h : Tree d inode s) (hk : k < MAXBLOCK)
    (hb : bmap true inode s k = .ok (inode', s', r)) :
    r ≠ 0 ↔ missing inode s (slotOf k) ≤ s.sb.room := by
  have hx := (slotOf_valid hk).1
  rw [MAXBLOCK] at hk
  unfold bmap at hb
  rw [if_neg (by omega)] at hb
  by_cases h1 : k < 7
  · rw [if_pos h1] at hb
    rw [slotOf, if_pos h1]
    exact (zone_room h hb).1
  rw [if_neg h1] at hb
  dsimp only at hb
  by_cases h2 : k - 7 < 512
  · rw [if_pos h2] at hb
    rw [slotOf, if_neg h1, if_pos h2] at hx ⊢
    obtain ⟨inode₁, s₁, r₁, hzone, he⟩ := zone_create h (i := 7) (by omega)
    obtain ⟨hpos₁, hroom₁⟩ := zone_room h hzone
    rw [hzone] at hb
    dsimp only at hb
    have hmissing : missing inode s (.single (k - 7)) =
        absent inode s (.direct 7) + absent inode s (.single (k - 7)) := rfl
    rw [hmissing]
    by_cases hr₁ : r₁ = 0
    · rw [if_pos hr₁] at hb
      obtain ⟨-, hb⟩ := Prod.mk.inj (Except.ok.inj hb)
      obtain ⟨-, rfl⟩ := Prod.mk.inj hb
      have hno := fun hle => hpos₁.mpr hle hr₁
      exact iff_of_false (fun h => h rfl) fun hle => hno (by omega)
    · rw [if_neg hr₁] at hb
      have hval : value inode₁ s₁ (.direct 7) ≠ 0 := he.result.trans_ne hr₁
      obtain ⟨⟨s₂, r₂⟩, hentry, heq⟩ := Loops.map_eq_ok hb
      obtain ⟨-, heq⟩ := Prod.mk.inj heq
      obtain ⟨-, rfl⟩ := Prod.mk.inj heq
      rw [← he.result] at hentry
      have hroom₂ := (entry_room (x := .single (k - 7)) he.tree rfl hval hentry).1
      rw [he.absent hx (by rintro ⟨⟩), hroom₁] at hroom₂
      have hle := hpos₁.mp hr₁
      rw [hroom₂]
      omega
  · rw [if_neg h2] at hb
    have hsub : k - 7 - 512 = k - 519 := by omega
    rw [slotOf, if_neg h1, if_neg h2] at hx ⊢
    rw [hsub] at hb
    generalize (k - 519) / 512 = a at hx hb ⊢
    generalize (k - 519) % 512 = b at hx hb ⊢
    have hmissing : missing inode s (.leaf a b) = absent inode s (.direct 8) +
        absent inode s (.double a) + absent inode s (.leaf a b) := rfl
    rw [hmissing]
    obtain ⟨inode₁, s₁, r₁, hzone, he⟩ := zone_create h (i := 8) (by omega)
    obtain ⟨hpos₁, hroom₁⟩ := zone_room h hzone
    rw [hzone] at hb
    dsimp only at hb
    by_cases hr₁ : r₁ = 0
    · rw [if_pos hr₁] at hb
      obtain ⟨-, hb⟩ := Prod.mk.inj (Except.ok.inj hb)
      obtain ⟨-, rfl⟩ := Prod.mk.inj hb
      have hno := fun hle => hpos₁.mpr hle hr₁
      exact iff_of_false (fun h => h rfl) fun hle => hno (by omega)
    rw [if_neg hr₁] at hb
    have hle₁ := hpos₁.mp hr₁
    have hval₁ : value inode₁ s₁ (.direct 8) ≠ 0 := he.result.trans_ne hr₁
    obtain ⟨s₂, r₂, hentry₂, he₂⟩ := entry_create (x := .double a) he.tree hx.1 rfl hval₁
    obtain ⟨hpos₂, hroom₂⟩ := entry_room (x := .double a) he.tree rfl hval₁ hentry₂
    rw [he.absent (y := .double a) hx.1 (by rintro ⟨⟩), hroom₁] at hpos₂ hroom₂
    rw [he.result] at hentry₂
    rw [show entry true s₁ r₁ a = _ from hentry₂] at hb
    dsimp only at hb
    by_cases hr₂ : r₂ = 0
    · rw [if_pos hr₂] at hb
      obtain ⟨-, hb⟩ := Prod.mk.inj (Except.ok.inj hb)
      obtain ⟨-, rfl⟩ := Prod.mk.inj hb
      have hno := fun hle => hpos₂.mpr hle hr₂
      exact iff_of_false (fun h => h rfl) fun hle => hno (by omega)
    rw [if_neg hr₂] at hb
    have hle₂ := hpos₂.mp hr₂
    have hval₂ : value inode₁ s₂ (.double a) ≠ 0 := he₂.result.trans_ne hr₂
    obtain ⟨⟨s₃, r₃⟩, hentry₃, heq⟩ := Loops.map_eq_ok hb
    obtain ⟨-, heq⟩ := Prod.mk.inj heq
    obtain ⟨-, rfl⟩ := Prod.mk.inj heq
    rw [← he₂.result] at hentry₃
    have hpos₃ := (entry_room (x := .leaf a b) he₂.tree rfl hval₂ hentry₃).1
    rw [he₂.absent (y := .leaf a b) hx (by rintro ⟨⟩),
      he.absent (y := .leaf a b) hx (by rintro ⟨⟩), hroom₂] at hpos₃
    rw [hpos₃]
    omega

/-- The block and its index block take two of the zones of an empty disk. -/
theorem bmap_room_floppy : ∃ inode' s' r, bmap true emptyFile emptyDisk 7 = .ok (inode', s', r) ∧
    (r ≠ 0 ↔ 2 ≤ emptyDisk.sb.room) := by
  have h7 : 7 < MAXBLOCK := by decide
  obtain ⟨inode', s', r, hbmap, -⟩ := createBlock_spec emptyFile_tree h7
  exact ⟨inode', s', r, hbmap, bmap_room emptyFile_tree h7 hbmap⟩

end Bmap

/-! ## add_entry -/

namespace Dir

/-- Entry `j` of the directory is in use. -/
def InUse (inode : MInode) (s : Disk) (j : Nat) : Prop :=
  getInode (s.b_data (blockNr inode s (j / DIR_ENTRIES_PER_BLOCK)))
    (j % DIR_ENTRIES_PER_BLOCK * ENTRY) ≠ 0

/-- The `n` entries of the directory fill its blocks, and there are no zones for another one. -/
def Ends (inode : MInode) (s : Disk) (n : Nat) : Prop :=
  n % DIR_ENTRIES_PER_BLOCK = 0 ∧ 0 < n ∧
    s.sb.room < missing inode s (slotOf (n / DIR_ENTRIES_PER_BLOCK))

variable {name : List UInt8} {o : Option (Nat × Nat)}

theorem addLoop_room (h : Directory d inode s n) (m : Nat) :
    ∀ {i block de : Nat}, i + m = n → Place inode s i block de →
      addLoop name (m + 1) inode s i block de = .ok (inode', s', o) →
      (o = none ↔ (∀ j, i ≤ j → j < n → InUse inode s j) ∧ Ends inode s n) := by
  have hd : DIR_ENTRIES_PER_BLOCK = 64 := rfl
  induction m with
  | zero =>
      intro n' block de hm hp hadd
      obtain rfl : n' = n := hm
      have hall : ∀ j, n' ≤ j → j < n' → InUse inode s j := fun j hle hlt =>
        absurd hlt (Nat.not_lt_of_le hle)
      rw [and_iff_right hall]
      unfold addLoop nextBlock at hadd
      rcases hp with ⟨rfl, rfl, hstart⟩ | ⟨rfl, hmod, hpos⟩
      · -- the block of the last entry goes on
        rw [if_neg (Nat.not_le_of_lt (offset_lt n'))] at hadd
        dsimp only at hadd
        rw [if_neg (h.open_block hstart).2,
          if_pos (DirScan.extend_free (Nat.le_of_eq h.size) _ _)] at hadd
        obtain ⟨-, hadd⟩ := Prod.mk.inj (Except.ok.inj hadd)
        obtain ⟨-, rfl⟩ := Prod.mk.inj hadd
        refine iff_of_false (Option.some_ne_none _) fun hend => ?_
        have hmod := hend.1
        have hpos := hend.2.1
        omega
      · have hlt := h.end_lt
        obtain ⟨inode₁, s₁, r₁, hbmap, hc⟩ := createBlock_spec h.tree hlt
        have hroom := bmap_room h.tree hlt hbmap
        have hend : Ends inode s n' ↔ r₁ = 0 := by
          unfold Ends
          rw [and_iff_right hmod, and_iff_right hpos, ← Nat.not_le, ← hroom, not_not]
        rw [if_pos (Nat.le_refl _), hbmap] at hadd
        dsimp only at hadd
        rw [hend]
        by_cases hr₁ : r₁ = 0
        · rw [if_pos hr₁] at hadd
          obtain ⟨-, hadd⟩ := Prod.mk.inj (Except.ok.inj hadd)
          obtain ⟨-, rfl⟩ := Prod.mk.inj hadd
          exact iff_of_true rfl hr₁
        · have hsize : inode₁.i_size ≤ n' * ENTRY := by
            rw [hc.size, h.size]
          rw [if_neg hr₁, if_pos (DirScan.extend_free hsize _ _)] at hadd
          obtain ⟨-, hadd⟩ := Prod.mk.inj (Except.ok.inj hadd)
          obtain ⟨-, rfl⟩ := Prod.mk.inj hadd
          exact iff_of_false (Option.some_ne_none _) hr₁
  | succ m ih =>
      intro i block de hm hp hadd
      have hi : i < n := by omega
      unfold addLoop at hadd
      rw [nextBlock_keeps h.tree hp (h.block_lt hi) (h.blocks i hi)] at hadd
      dsimp only at hadd
      rw [if_neg (h.blocks i hi), extend_lt h hi] at hadd
      dsimp only at hadd
      by_cases hfree : getInode (s.b_data (blockNr inode s (i / DIR_ENTRIES_PER_BLOCK)))
          (i % DIR_ENTRIES_PER_BLOCK * ENTRY) = 0
      · rw [if_pos hfree] at hadd
        obtain ⟨-, hadd⟩ := Prod.mk.inj (Except.ok.inj hadd)
        obtain ⟨-, rfl⟩ := Prod.mk.inj hadd
        exact iff_of_false (Option.some_ne_none _) fun hall => hall.1 i (Nat.le_refl i) hi hfree
      · rw [if_neg hfree] at hadd
        rw [ih (by omega) (Place.next inode s i) hadd]
        refine and_congr_left fun _ => ⟨fun hall j hle hlt => ?_, fun hall j hle hlt => ?_⟩
        · rcases Nat.eq_or_lt_of_le hle with rfl | hlt'
          · exact hfree
          · exact hall j hlt' hlt
        · exact hall j (Nat.le_of_succ_le hle) hlt

/-- `add_entry` finds no place exactly when every entry of the directory is in use, they
fill its blocks, and there are not enough free zones for another one with its index
blocks. -/
theorem addEntry_room (h : Directory d inode s n) (hname : name.take NAME_LEN ≠ [])
    (hadd : addEntry inode s name = .ok (inode', s', o)) :
    o = none ↔ (∀ j < n, InUse inode s j) ∧ Ends inode s n := by
  rw [h.addEntry_eq hname] at hadd
  rw [addLoop_room h n (Nat.zero_add n) (Place.first inode s) hadd]
  exact and_congr_left fun _ => ⟨fun hall j => hall j (Nat.zero_le j), fun hall j _ => hall j⟩

theorem addEntry_room_floppy : ∃ inode' s' o,
    addEntry emptyDir emptyDisk [97] = .ok (inode', s', o) ∧ o ≠ none := by
  have hsome : (addEntry emptyDir emptyDisk [97]).toOption.isSome = true := by decide
  cases hadd : addEntry emptyDir emptyDisk [97] with
  | error e =>
      rw [hadd] at hsome
      cases hsome
  | ok r =>
      obtain ⟨inode', s', o⟩ := r
      refine ⟨inode', s', o, rfl, fun hnone => ?_⟩
      have hends := ((addEntry_room emptyDir_directory (by decide) hadd).mp hnone).2
      exact absurd hends.2.1 (Nat.lt_irrefl 0)

end Dir

end Linux011
