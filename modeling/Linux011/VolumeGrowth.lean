import Linux011.DirScan
import Linux011.FileDev
import Mathlib.Data.Finset.Card

/-!
# Blocks got on a device

On a volume that can be read, and none of whose free zones is held, `create_block` does to the
disk what it does without buffers, and to the buffers nothing. So `add_entry` leaves other files
alone, and holds the block of its entry behind it.

The module is a bridge. `Disk` and `Bmap` have what `create_block` does where nobody looks at
buffers, and `Volume` has the same code with errors and counts; on a quiet volume the second is
the first with the buffers carried along unchanged (`withDisk`, `bmap_quiet`). So the facts about
the slots of a directory need not be proved again: `Grown` says what `add_entry` has done to the
volume in terms of the tree of the directory and of the blocks of all other files, and its proof
is an induction over the loop with one block at a time. Besides it follows the map of the inodes,
which none of this touches.
-/

namespace Linux011

open Function Super SuperBlock Zones Bmap

namespace Vol

variable {v : Vol} {d : DSuperBlock} {inode : MInode} {s' : Disk} {b z k : Nat}

/-- Every block can be read, and nobody holds a free zone. -/
structure Quiet (v : Vol) : Prop where
  good : ∀ b, v.bad b = false
  unheld : ∀ z, v.sb.InRange z → v.sb.allocated z = false → v.b_count z = 0

/-- The same buffers with another disk. -/
def withDisk (v : Vol) (s : Disk) : Vol := { v with toDisk := s }

@[simp] theorem withDisk_self (v : Vol) : v.withDisk v.toDisk = v := rfl

@[simp] theorem withDisk_withDisk (v : Vol) (s s' : Disk) :
    (v.withDisk s).withDisk s' = v.withDisk s' := rfl

@[simp] theorem withDisk_disk (v : Vol) (s : Disk) : (v.withDisk s).toDisk = s := rfl

theorem Quiet.withDisk (h : v.Quiet) (hc : Covers v.sb d) (hc' : Covers s'.sb d)
    (hkept : ∀ b, v.sb.InRange b → v.sb.allocated b = true → s'.sb.allocated b = true) :
    (v.withDisk s').Quiet where
  good := h.good
  unheld := fun z hz hfree => by
    have hrange := (Covers.inRange_iff hc hc' z).mp hz
    refine h.unheld z hrange (Bool.eq_false_iff.mpr fun halloc => ?_)
    exact Bool.false_ne_true (hfree.symm.trans (hkept z hrange halloc))

theorem Quiet.hold (h : v.Quiet) (halloc : v.sb.allocated b = true) : (v.hold b).Quiet where
  good := h.good
  unheld := fun z hz hfree => by
    have hne : z ≠ b := by
      rintro rfl
      exact Bool.false_ne_true (hfree.symm.trans halloc)
    exact (update_of_ne hne _ _).trans (h.unheld z hz hfree)

theorem newBlock_quiet (h : v.Quiet) (hc : Covers v.sb d) :
    v.newBlock = v.toDisk.newBlock.map fun r => (v.withDisk r.1, r.2) := by
  obtain ⟨s₁, ret, hnew, -, hspec⟩ := Disk.newBlock_spec (s := v.toDisk) hc
  unfold newBlock
  rw [hnew]
  cases hspec with
  | full sb hfull => exact if_pos rfl
  | zone _ sb hpos htakes =>
      have hcount := h.unheld ret htakes.inRange htakes.free
      dsimp only
      rw [if_neg hpos, if_neg (not_not.mpr hcount)]
      have hbad : update v.bad ret false = v.bad := by
        rw [← h.good ret, update_eq_self]
      rw [hbad]
      rfl

theorem zone_quiet (h : v.Quiet) (hc : Covers v.sb d) (inode : MInode) (i : Nat) :
    zone true inode v i =
      (Bmap.zone true inode v.toDisk i).map fun r => (r.1, v.withDisk r.2.1, r.2.2) := by
  unfold zone Bmap.zone
  by_cases hi : true = true ∧ inode.i_zone i = 0
  · rw [if_pos hi, if_pos hi, newBlock_quiet h hc]
    cases v.toDisk.newBlock with
    | error e => rfl
    | ok r =>
        by_cases hr : r.2 = 0
        · show (if r.2 = 0 then _ else _) = Except.map _ (if r.2 = 0 then _ else _)
          rw [if_pos hr, if_pos hr]
          rfl
        · show (if r.2 = 0 then _ else _) = Except.map _ (if r.2 = 0 then _ else _)
          rw [if_neg hr, if_neg hr]
          rfl
  · rw [if_neg hi, if_neg hi]
    rfl

theorem brelse_withDisk (v : Vol) (b : Nat) (s : Disk) :
    ((v.hold b).withDisk s).brelse b = .ok (v.withDisk s) := brelse_hold (v.withDisk s) b

theorem entry_quiet (h : v.Quiet) (hc : Covers v.sb d) (halloc : v.sb.allocated z = true)
    (k : Nat) :
    entry true v z k = (Bmap.entry true v.toDisk z k).map fun r => (v.withDisk r.1, r.2) := by
  unfold entry Bmap.entry
  rw [bread_of_good (h.good z)]
  dsimp only
  show (if true = true ∧ word (v.b_data z) k = 0 then _ else _) = _
  by_cases hk : true = true ∧ word (v.b_data z) k = 0
  · rw [if_pos hk, if_pos hk, newBlock_quiet (h.hold halloc) hc, hold_disk]
    cases v.toDisk.newBlock with
    | error e => rfl
    | ok r =>
        obtain ⟨s, i⟩ := r
        show Except.map _ (Vol.brelse (if i = 0 then _ else _) z) =
          Except.map _ (if i = 0 then _ else _)
        by_cases hi : i = 0
        · rw [if_pos hi, if_pos hi, brelse_withDisk, hi]
          rfl
        · rw [if_neg hi, if_neg hi]
          exact congrArg (Except.map _) (brelse_withDisk v z (s.store z (setWord (s.b_data z) k i)))
  · rw [if_neg hk, if_neg hk, brelse_hold]
    rfl

theorem Quiet.ensures (h : v.Quiet) (htree : Tree d inode v.toDisk) {x : Bmap.Slot}
    {inode' : MInode} {r : Nat} (he : Ensures d inode v.toDisk x inode' s' r) :
    (v.withDisk s').Quiet :=
  h.withDisk htree.covers he.tree.covers fun b hb halloc => (he.blocks b hb halloc).2.1

theorem bmap_quiet (h : v.Quiet) (htree : Tree d inode v.toDisk) (hk : k < MAXBLOCK) :
    bmap true inode v k =
      (Bmap.bmap true inode v.toDisk k).map fun r => (r.1, v.withDisk r.2.1, r.2.2) := by
  have hx := (slotOf_valid hk).1
  have h7 : (Bmap.Slot.direct 7).Valid := (by decide : 7 < 9)
  have h8 : (Bmap.Slot.direct 8).Valid := (by decide : 8 < 9)
  rw [MAXBLOCK] at hk
  unfold bmap Bmap.bmap
  have hbig : ¬k ≥ 7 + 512 + 512 * 512 := by omega
  rw [if_neg hbig, if_neg hbig]
  by_cases h1 : k < 7
  · rw [if_pos h1, if_pos h1, zone_quiet h htree.covers]
  rw [if_neg h1, if_neg h1]
  dsimp only
  by_cases h2 : k - 7 < 512
  · rw [if_pos h2, if_pos h2, zone_quiet h htree.covers]
    obtain ⟨inode₁, s₁, r₁, hzone, he⟩ := zone_create htree (i := 7) (by omega)
    rw [hzone]
    dsimp only [Except.map]
    by_cases hr₁ : r₁ = 0
    · rw [if_pos hr₁, if_pos hr₁]
    · have halloc := (he.tree.used _ h7 (he.result.trans_ne hr₁)).2
      rw [he.result] at halloc
      rw [if_neg hr₁, if_neg hr₁, entry_quiet (h.ensures htree he) he.tree.covers halloc,
        withDisk_disk]
      cases Bmap.entry true s₁ r₁ (k - 7) <;> rfl
  · rw [if_neg h2, if_neg h2, zone_quiet h htree.covers]
    have hsub : k - 7 - 512 = k - 519 := by omega
    have hslot : slotOf k = .leaf ((k - 519) / 512) ((k - 519) % 512) := by
      rw [slotOf, if_neg h1, if_neg h2]
    rw [hslot] at hx
    rw [hsub]
    generalize (k - 519) / 512 = a at hx ⊢
    generalize (k - 519) % 512 = b
    obtain ⟨inode₁, s₁, r₁, hzone, he⟩ := zone_create htree (i := 8) (by omega)
    rw [hzone]
    dsimp only [Except.map]
    by_cases hr₁ : r₁ = 0
    · rw [if_pos hr₁, if_pos hr₁]
    have hpos : value inode₁ s₁ (.direct 8) ≠ 0 := he.result.trans_ne hr₁
    have halloc := (he.tree.used _ h8 hpos).2
    have hquiet₁ := h.ensures htree he
    obtain ⟨s₂, r₂, hentry, he₂⟩ := entry_create (x := .double a) he.tree hx.1 rfl hpos
    rw [he.result] at halloc hentry
    rw [if_neg hr₁, if_neg hr₁, entry_quiet hquiet₁ he.tree.covers halloc]
    rw [withDisk_disk, show Bmap.entry true s₁ r₁ a = .ok (s₂, r₂) from hentry]
    dsimp only [Except.map]
    by_cases hr₂ : r₂ = 0
    · rw [if_pos hr₂, if_pos hr₂, withDisk_withDisk]
    · have halloc₂ := (he₂.tree.used (.double a) hx.1 (he₂.result.trans_ne hr₂)).2
      rw [he₂.result] at halloc₂
      rw [if_neg hr₂, if_neg hr₂,
        entry_quiet (hquiet₁.ensures he.tree he₂) he₂.tree.covers halloc₂, withDisk_disk]
      cases Bmap.entry true s₂ r₂ b <;> rfl

/-! ## The map of the inodes -/

end Vol

theorem takeZone_imap {sb sb' : SuperBlock} {r : Option Nat} (h : takeZone sb = .ok (sb', r)) :
    sb'.s_imap = sb.s_imap := by
  unfold takeZone at h
  dsimp only at h
  split at h
  · obtain ⟨rfl, -⟩ := Prod.mk.inj (Except.ok.inj h)
    rfl
  · split at h
    · obtain ⟨rfl, -⟩ := Prod.mk.inj (Except.ok.inj h)
      rfl
    · split at h
      · cases h
      · split at h
        · obtain ⟨rfl, -⟩ := Prod.mk.inj (Except.ok.inj h)
          rfl
        · obtain ⟨rfl, -⟩ := Prod.mk.inj (Except.ok.inj h)
          rfl

theorem Disk.newBlock_imap {s s' : Disk} {z : Nat} (h : s.newBlock = .ok (s', z)) :
    s'.sb.s_imap = s.sb.s_imap := by
  unfold Disk.newBlock at h
  split at h
  · cases h
  · rename_i htake
    obtain ⟨rfl, -⟩ := Prod.mk.inj (Except.ok.inj h)
    exact takeZone_imap htake
  · rename_i htake
    obtain ⟨rfl, -⟩ := Prod.mk.inj (Except.ok.inj h)
    exact takeZone_imap htake

namespace Bmap

variable {inode inode' : MInode} {s s' : Disk} {z k : Nat}

theorem zone_imap {create : Bool} {i : Nat} (h : zone create inode s i = .ok (inode', s', z)) :
    s'.sb.s_imap = s.sb.s_imap := by
  unfold zone at h
  split at h
  · split at h
    · cases h
    · rename_i hnew
      split at h
      · obtain ⟨-, h⟩ := Prod.mk.inj (Except.ok.inj h)
        obtain ⟨rfl, -⟩ := Prod.mk.inj h
        exact Disk.newBlock_imap hnew
      · obtain ⟨-, h⟩ := Prod.mk.inj (Except.ok.inj h)
        obtain ⟨rfl, -⟩ := Prod.mk.inj h
        exact Disk.newBlock_imap hnew
  · obtain ⟨-, h⟩ := Prod.mk.inj (Except.ok.inj h)
    obtain ⟨rfl, -⟩ := Prod.mk.inj h
    rfl

theorem entry_imap {create : Bool} {b : Nat} (h : entry create s b k = .ok (s', z)) :
    s'.sb.s_imap = s.sb.s_imap := by
  unfold entry at h
  dsimp only at h
  split at h
  · split at h
    · cases h
    · rename_i hnew
      have himap := Disk.newBlock_imap hnew
      split at h
      · obtain ⟨rfl, -⟩ := Prod.mk.inj (Except.ok.inj h)
        exact himap
      · obtain ⟨rfl, -⟩ := Prod.mk.inj (Except.ok.inj h)
        exact himap
  · obtain ⟨rfl, -⟩ := Prod.mk.inj (Except.ok.inj h)
    rfl

theorem bmap_imap {create : Bool} (h : bmap create inode s k = .ok (inode', s', z)) :
    s'.sb.s_imap = s.sb.s_imap := by
  unfold bmap at h
  split at h
  · cases h
  split at h
  · exact zone_imap h
  dsimp only at h
  split at h
  · split at h
    · cases h
    · rename_i hzone
      split at h
      · obtain ⟨-, h⟩ := Prod.mk.inj (Except.ok.inj h)
        obtain ⟨rfl, -⟩ := Prod.mk.inj h
        exact zone_imap hzone
      · obtain ⟨p, hentry, hp⟩ := Loops.map_eq_ok h
        obtain ⟨-, hp⟩ := Prod.mk.inj hp
        obtain ⟨rfl, -⟩ := Prod.mk.inj hp
        exact (entry_imap hentry).trans (zone_imap hzone)
  · split at h
    · cases h
    · rename_i hzone
      split at h
      · obtain ⟨-, h⟩ := Prod.mk.inj (Except.ok.inj h)
        obtain ⟨rfl, -⟩ := Prod.mk.inj h
        exact zone_imap hzone
      · split at h
        · cases h
        · rename_i hfirst
          split at h
          · obtain ⟨-, h⟩ := Prod.mk.inj (Except.ok.inj h)
            obtain ⟨rfl, -⟩ := Prod.mk.inj h
            exact (entry_imap hfirst).trans (zone_imap hzone)
          · obtain ⟨p, hentry, hp⟩ := Loops.map_eq_ok h
            obtain ⟨-, hp⟩ := Prod.mk.inj hp
            obtain ⟨rfl, -⟩ := Prod.mk.inj hp
            exact (entry_imap hentry).trans ((entry_imap hfirst).trans (zone_imap hzone))

end Bmap

namespace Vol

variable {v : Vol} {d : DSuperBlock} {inode : MInode} {k : Nat}

/-- `create_block` on a quiet volume: only the disk changes. -/
theorem createBlock_quiet (h : v.Quiet) (htree : Tree d inode v.toDisk) (hk : k < MAXBLOCK) :
    ∃ inode' s' r, bmap true inode v k = .ok (inode', v.withDisk s', r) ∧
      Bmap.bmap true inode v.toDisk k = .ok (inode', s', r) ∧
      CreateBlock d inode v.toDisk k inode' s' r ∧ (v.withDisk s').Quiet ∧
      s'.sb.s_imap = v.sb.s_imap := by
  obtain ⟨inode', s', r, hbmap, hc⟩ := bmap_create htree hk
  obtain ⟨inode₁, s₁, r₁, hbmap₁, hblock⟩ := createBlock_spec htree hk
  obtain ⟨rfl, heq⟩ := Prod.mk.inj (Except.ok.inj (hbmap.symm.trans hbmap₁))
  obtain ⟨rfl, rfl⟩ := Prod.mk.inj heq
  refine ⟨inode', s', r, ?_, hbmap, hblock, ?_, bmap_imap hbmap⟩
  · rw [bmap_quiet h htree hk, hbmap]
    rfl
  · exact h.withDisk htree.covers hc.tree.covers fun b hb halloc => (hc.blocks b hb halloc).2.1

/-- The blocks of a file, where all can be read. -/
theorem blockOf_good (h : ∀ b, v.bad b = false) (inode : MInode) (k : Nat) :
    blockOf inode v k = blockNr inode v.toDisk k := by
  have hindex : ∀ z k, v.index z k = below v.toDisk z k := by
    intro z k
    unfold index below
    rw [h]
    exact if_congr (or_iff_left Bool.false_ne_true) rfl rfl
  unfold blockOf blockNr value
  cases slotOf k with
  | direct i => rfl
  | single k => exact hindex _ _
  | double a => exact hindex _ _
  | leaf a b =>
      dsimp only
      rw [hindex, hindex]

end Vol

namespace Dir

/-- A device has not as many zones as a file may have blocks. -/
theorem Directory.end_lt {d : DSuperBlock} {inode : MInode} {s : Disk} {n : Nat}
    (h : Directory d inode s n) : n / DIR_ENTRIES_PER_BLOCK < MAXBLOCK := by
  have hd : DIR_ENTRIES_PER_BLOCK = 64 := rfl
  by_contra hle
  rw [hd] at hle
  have hblock : ∀ k < MAXBLOCK, blockNr inode s k ≠ 0 := fun k hk => by
    have hne := h.blocks (k * 64) (by omega)
    rwa [hd, Nat.mul_div_cancel k (by decide)] at hne
  have hmaps : ∀ k ∈ Finset.range MAXBLOCK, blockNr inode s k ∈ Finset.range 0x10000 := by
    intro k hk
    have hlt := Finset.mem_range.mp hk
    obtain ⟨hrange, -⟩ := h.tree.used _ (slotOf_valid hlt).1 (hblock k hlt)
    have hz := hrange.2
    rw [h.tree.covers.nz] at hz
    exact Finset.mem_range.mpr (Nat.lt_trans hz h.tree.short)
  have hinj : Set.InjOn (blockNr inode s) (Finset.range MAXBLOCK) := by
    intro k hk k' hk' heq
    have hlt := Finset.mem_range.mp (Finset.mem_coe.mp hk)
    exact h.tree.blockNr_inj hlt (Finset.mem_range.mp (Finset.mem_coe.mp hk')) heq (hblock k hlt)
  have hcard := Finset.card_le_card_of_injOn _ hmaps hinj
  rw [Finset.card_range, Finset.card_range] at hcard
  exact absurd hcard (by decide)

end Dir

namespace DirScan

open Dir (getInode setInode setName extend extend_lt extend_last Directory NAME_LEN ENTRY
  DIR_ENTRIES_PER_BLOCK key Name)
open FileDev (Leaves leaves_store)

variable {d : DSuperBlock} {inode inode₁ inode' : MInode} {v v₁ v' : Vol} {name : List UInt8}
  {r : Option (Nat × Nat)} {n i b de k : Nat}

/-! ## add_entry -/

/-- What `add_entry` has done to the volume: only the directory and its blocks have changed, and
the buffer of the entry is in hand. -/
structure Grown (d : DSuperBlock) (inode : MInode) (v : Vol) (inode' : MInode) (v' : Vol)
    (r : Option (Nat × Nat)) : Prop where
  tree : Tree d inode' v'.toDisk
  leaves : Leaves inode v.toDisk inode' v'.toDisk
  imap : v'.sb.s_imap = v.sb.s_imap
  bad : v'.bad = v.bad
  count : v'.b_count = match r with
    | none => v.b_count
    | some (b, _) => (v.hold b).b_count
  own : ∀ b de, r = some (b, de) → b ≠ 0 ∧ ∃ k < MAXBLOCK, blockNr inode' v'.toDisk k = b

theorem Grown.after {s₁ : Disk} (h : Grown d inode₁ (v.withDisk s₁) inode' v' r)
    (hleaves : Leaves inode v.toDisk inode₁ s₁) (himap : s₁.sb.s_imap = v.sb.s_imap) :
    Grown d inode v inode' v' r where
  tree := h.tree
  leaves := hleaves.trans h.leaves
  imap := h.imap.trans himap
  bad := h.bad
  count := h.count
  own := h.own

/-- The step that makes the entry in block `b` of the directory. -/
theorem addStep_grown {s₁ : Disk} (htree : Tree d inode v.toDisk) (hk : k < MAXBLOCK)
    (hb : blockNr inode v.toDisk k = b) (hne : b ≠ 0)
    (hext : extend inode v.toDisk i b de = (inode₁, s₁)) (hfree : getInode (s₁.b_data b) de = 0)
    (name : List UInt8) :
    ∃ v', (∀ n, addStep name n inode (v.hold b) i b de = .ok (inode₁, v', some (b, de))) ∧
      v'.toDisk = s₁.store b (setName (s₁.b_data b) de name) ∧
      Grown d inode v inode₁ v' (some (b, de)) := by
  have hpos : blockNr inode v.toDisk k ≠ 0 := hb.trans_ne hne
  have hgrown : ∀ (data : Zones.Bytes) (size : Nat) (dirt : Bool),
      Grown d inode v { inode with i_size := size, i_dirt := dirt }
        ((v.hold b).store b data) (some (b, de)) := by
    intro data size dirt
    have htree' := htree.store hk hpos data
    have hleaves := leaves_store htree hk hpos data size dirt
    have hblock := htree.blockNr_store hk hpos data hk
    rw [hb] at htree' hleaves hblock
    refine {
      tree := { htree' with }
      leaves := hleaves
      imap := rfl
      bad := rfl
      count := rfl
      own := fun b' de' heq => ?_ }
    obtain ⟨rfl, -⟩ := Prod.mk.inj (Option.some.inj heq)
    exact ⟨hne, k, hk, hblock⟩
  refine ⟨{ v.hold b with toDisk := s₁.store b (setName (s₁.b_data b) de name) },
    fun n => ?_, rfl, ?_⟩
  · unfold addStep
    rw [Vol.hold_disk, hext]
    exact if_pos hfree
  · unfold Dir.extend at hext
    split at hext
    · obtain ⟨rfl, rfl⟩ := Prod.mk.inj hext
      rw [Dir.store_store]
      exact hgrown _ _ true
    · obtain ⟨rfl, rfl⟩ := Prod.mk.inj hext
      exact hgrown _ inode.i_size inode.i_dirt

theorem addLoop_grown (hq : v.Quiet) (hdir : Directory d inode v.toDisk n) (name : List UInt8)
    (m : Nat) : ∀ {i b de : Nat}, i + m = n → Dir.Place inode v.toDisk i b de →
      ∃ inode' v' r, addLoop name (m + 3) inode (v.hold b) i (some b) de = .ok (inode', v', r) ∧
        Dir.addLoop name (m + 1) inode v.toDisk i b de = .ok (inode', v'.toDisk, r) ∧
        Grown d inode v inode' v' r := by
  have hd : DIR_ENTRIES_PER_BLOCK = 64 := rfl
  induction m with
  | zero =>
      intro n' b de hm hp
      obtain rfl : n' = n := hm
      unfold addLoop Dir.addLoop Dir.nextBlock
      rcases hp with ⟨hb, rfl, hstart⟩ | ⟨rfl, hmod, hpos⟩
      · -- the block of the last entry goes on
        obtain ⟨hlt, hne⟩ := hdir.open_block hstart
        rw [← hb] at hne
        rw [nextBlock_inside _ _ _ _ _ (Dir.offset_lt n'),
          if_neg (Nat.not_le_of_lt (Dir.offset_lt n'))]
        have hfree := extend_free (s := v.toDisk) (Nat.le_of_eq hdir.size) b
          (n' % DIR_ENTRIES_PER_BLOCK * ENTRY)
        cases hext : extend inode v.toDisk n' b (n' % DIR_ENTRIES_PER_BLOCK * ENTRY) with
        | mk inode₁ s₁ =>
            rw [hext] at hfree
            obtain ⟨v', hstep, hdisk, hgrown⟩ :=
              addStep_grown hdir.tree hlt hb.symm hne hext hfree name
            refine ⟨inode₁, v', _, hstep 2, ?_, hgrown⟩
            dsimp only
            rw [if_neg hne, hext]
            dsimp only
            rw [if_pos hfree, hdisk]
      · obtain ⟨k, rfl⟩ : ∃ k, n' = k * DIR_ENTRIES_PER_BLOCK :=
          ⟨n' / 64, by rw [hd] at hmod ⊢; omega⟩
        have hdiv : k * DIR_ENTRIES_PER_BLOCK / DIR_ENTRIES_PER_BLOCK = k :=
          Nat.mul_div_cancel k (by decide)
        have hlt := hdir.end_lt
        rw [hdiv] at hlt
        obtain ⟨inode₁, s₁, r₁, hbmap, hbmap', hc, hq₁, himap⟩ :=
          Vol.createBlock_quiet hq hdir.tree hlt
        rw [nextBlock_end, hbmap, if_pos (Nat.le_refl _), hdiv, hbmap']
        dsimp only
        by_cases hr₁ : r₁ = 0
        · rw [if_pos hr₁, if_pos hr₁]
          exact ⟨inode₁, v.withDisk s₁, none, rfl, rfl, hc.tree, hc.foreign, himap, rfl, rfl,
            fun _ _ h => by cases h⟩
        · have hsize : inode₁.i_size ≤ k * DIR_ENTRIES_PER_BLOCK * ENTRY := by
            rw [hc.size, hdir.size]
          have hgood : ¬(v.withDisk s₁).bad r₁ = true := by
            rw [hq₁.good]
            exact Bool.false_ne_true
          have hfree := extend_free (s := s₁) hsize r₁ 0
          rw [if_neg hr₁, if_neg hr₁, if_neg hgood]
          cases hext : extend inode₁ s₁ (k * DIR_ENTRIES_PER_BLOCK) r₁ 0 with
          | mk inode₂ s₂ =>
              rw [hext] at hfree
              obtain ⟨v', hstep, hdisk, hgrown⟩ := addStep_grown (v := v.withDisk s₁) hc.tree hlt
                hc.result hr₁ hext hfree name
              refine ⟨inode₂, v', _, hstep 2, ?_, hgrown.after hc.foreign himap⟩
              dsimp only
              rw [if_pos hfree, hdisk]
  | succ m ih =>
      intro i b de hm hp
      have hi : i < n := by omega
      have hlt := hdir.block_lt hi
      have hne := hdir.blocks i hi
      unfold addLoop Dir.addLoop
      rw [Dir.nextBlock_keeps hdir.tree hp hlt hne]
      dsimp only
      rw [if_neg hne]
      have hhead : nextBlock true inode (v.hold b) i (some b) de =
          .ok (inode, v.hold (blockNr inode v.toDisk (i / DIR_ENTRIES_PER_BLOCK)),
            .entry (blockNr inode v.toDisk (i / DIR_ENTRIES_PER_BLOCK))
              (i % DIR_ENTRIES_PER_BLOCK * ENTRY)) := by
        rcases hp with ⟨rfl, rfl, -⟩ | ⟨rfl, hmod, -⟩
        · exact nextBlock_inside _ _ _ _ _ (Dir.offset_lt i)
        · obtain ⟨k, rfl⟩ : ∃ k, i = k * DIR_ENTRIES_PER_BLOCK :=
            ⟨i / 64, by rw [hd] at hmod ⊢; omega⟩
          have hdiv : k * DIR_ENTRIES_PER_BLOCK / DIR_ENTRIES_PER_BLOCK = k :=
            Nat.mul_div_cancel k (by decide)
          rw [hdiv] at hlt hne ⊢
          have hgood : ¬v.bad (blockNr inode v.toDisk k) = true := by
            rw [hq.good]
            exact Bool.false_ne_true
          rw [nextBlock_end, Vol.bmap_quiet hq hdir.tree hlt,
            Dir.createBlock_keeps hdir.tree hlt hne]
          dsimp only [Except.map]
          rw [if_neg hne, Vol.withDisk_self, if_neg hgood, hmod, Nat.zero_mul]
      rw [hhead]
      dsimp only
      have hnext := Dir.Place.next inode v.toDisk i
      generalize hb : blockNr inode v.toDisk (i / DIR_ENTRIES_PER_BLOCK) = b at hne hnext ⊢
      generalize i % DIR_ENTRIES_PER_BLOCK * ENTRY = de at hnext ⊢
      have hext : extend inode v.toDisk i b de = (inode, v.toDisk) := extend_lt hdir hi _ _
      rw [Vol.hold_disk, hext]
      dsimp only
      by_cases hfree : getInode (v.b_data b) de = 0
      · obtain ⟨v', hstep, hdisk, hgrown⟩ := addStep_grown hdir.tree hlt hb hne hext hfree name
        have hscan := hstep m
        unfold addStep at hscan
        rw [Vol.hold_disk, hext] at hscan
        dsimp only at hscan
        rw [if_pos hfree] at hscan ⊢
        rw [if_pos hfree]
        exact ⟨inode, v', _, hscan, by rw [hdisk], hgrown⟩
      · rw [if_neg hfree, if_neg hfree]
        exact ih (by omega) hnext

/-- `add_entry` of a directory without holes: what it does to the disk is what it does without
buffers. -/
theorem addEntry_grown (hq : v.Quiet) (hdir : Directory d inode v.toDisk n)
    (name : List UInt8) : ∃ inode' v' r, addEntry inode v name = .ok (inode', v', r) ∧
      Dir.addEntry inode v.toDisk name = .ok (inode', v'.toDisk, r) ∧
      Grown d inode v inode' v' r := by
  have hsize : inode.i_size / ENTRY = n := by
    rw [hdir.size, Nat.mul_div_cancel n (by decide)]
  have hfirst : ¬inode.i_zone 0 = 0 := hdir.first
  unfold addEntry Dir.addEntry
  dsimp only
  rw [hsize, if_neg hfirst, if_neg hfirst, Vol.bread_of_good (hq.good _)]
  by_cases hname : (name.take NAME_LEN).length = 0
  · rw [if_pos hname, if_pos hname]
    exact ⟨inode, v, none, rfl, rfl, hdir.tree, FileDev.Leaves.refl _ _, rfl, rfl, rfl,
      fun _ _ h => by cases h⟩
  · rw [if_neg hname, if_neg hname]
    exact addLoop_grown hq hdir _ n (Nat.zero_add n) (Dir.Place.first inode v.toDisk)

/-! ## empty_dir -/

theorem emptyLoop_quiet (hgood : ∀ b, v.bad b = false) {len : Nat}
    (hdense : ∀ k, k * DIR_ENTRIES_PER_BLOCK < len → Vol.blockOf inode v k ≠ 0 ∧ k < MAXBLOCK)
    (m : Nat) : ∀ {i b de : Nat}, Place inode v i b de →
      ∃ found, emptyLoop inode len m (v.hold b) i (some b) de = .ok (v, found) := by
  have hdone : ∀ b found, answer (v.hold b) (some b) found = .ok (v, found) := by
    intro b found
    show (release (v.hold b) b).map _ = _
    rw [release_hold]
    rfl
  have hgone : ∀ {k}, k * DIR_ENTRIES_PER_BLOCK < len → ¬Gone inode v k := fun hk =>
    not_or.mpr ⟨(hdense _ hk).1, by rw [hgood]; exact Bool.false_ne_true⟩
  induction m with
  | zero => exact fun _ => ⟨true, hdone _ true⟩
  | succ m ih =>
      intro i b de hplace
      unfold emptyLoop
      by_cases hi : i < len
      swap
      · rw [if_neg hi]
        exact ⟨true, hdone b true⟩
      rw [if_pos hi]
      dsimp only
      rcases hplace with ⟨rfl, rfl, -, hthere⟩ | ⟨rfl, k, hk, rfl⟩
      · rw [if_neg (Nat.not_le_of_lt (offset_lt i))]
        split
        · exact ⟨false, hdone _ false⟩
        · exact ih (Place.next hthere)
      · have hdiv : k * DIR_ENTRIES_PER_BLOCK / DIR_ENTRIES_PER_BLOCK = k :=
          Nat.mul_div_cancel k (by decide)
        obtain ⟨hne, hmax⟩ := hdense k hi
        have hthere : ¬Gone inode v (k * DIR_ENTRIES_PER_BLOCK / DIR_ENTRIES_PER_BLOCK) :=
          hdiv.symm ▸ hgone hi
        have hnext := Place.next hthere
        rw [hdiv, offset_end, Nat.zero_add] at hnext
        rw [if_pos (Nat.le_refl _), release_hold]
        dsimp only
        rw [hdiv, Vol.bmap_read _ _ hmax]
        dsimp only
        rw [if_neg hne, Vol.bread_of_good (hgood _)]
        dsimp only
        split
        · exact ⟨false, hdone _ false⟩
        · exact ih hnext

/-- `empty_dir` of a directory with `.` and `..` and without holes changes nothing. -/
theorem emptyDir_quiet (hgood : ∀ b, v.bad b = false) {i_num : Nat}
    (hdense : ∀ k, k * DIR_ENTRIES_PER_BLOCK < inode.i_size / ENTRY →
      Vol.blockOf inode v k ≠ 0 ∧ k < MAXBLOCK)
    (hdots : Dots i_num (dataOf inode v 0)) :
    ∃ found, emptyDir i_num inode v = .ok (v, found) := by
  unfold emptyDir
  dsimp only
  split
  · exact ⟨false, rfl⟩
  · rename_i hsmall
    obtain ⟨hlen, hzero⟩ := not_or.mp hsmall
    have hthere : ¬Gone inode v 0 := not_or.mpr ⟨hzero, by
      rw [hgood]
      exact Bool.false_ne_true⟩
    have hdots' : Dots i_num ((v.hold (inode.i_zone 0)).b_data (inode.i_zone 0)) := hdots
    rw [Vol.bread_of_good (hgood _)]
    dsimp only
    rw [if_pos hdots']
    exact emptyLoop_quiet hgood hdense _ (.inl ⟨rfl, rfl, .inr (by decide), hthere⟩)

end DirScan

end Linux011
