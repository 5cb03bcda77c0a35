import Linux011.Disk

/-!
# The block map of an inode

`_bmap` of `fs/inode.c`: the zones of an inode, directly, through one indirect block and
through two. A `Slot` is a place that holds a block number: an element of `i_zone` or a
word of an indirect block. `Tree` says that the blocks of an inode are allocated and that
no two slots share one; `bmap_create` says what `create_block` does to the slots.

The proofs see an inode as a tree of slots of height at most three. `value` is the number that a
slot holds, read through the blocks of the slots above it, and `Tree` says that the numbers of
all slots are different zones that are allocated. So a store into one slot changes the value of
this slot and of those below it, which were all 0 if it was 0, and of no other. `create_block`
then is a walk down the slots of a block: `Ensures` says what making sure of one slot does,
`Ensures.andThen` puts the next slot behind it, and `Creates` is the result for the whole walk,
also where it stops because no zone is left. At the end the slots are forgotten again, and
`CreateBlock` speaks of the blocks of the file alone: the one that was asked for is there, and
the others are what they were.
-/

namespace Linux011

open Function Super SuperBlock Zones

namespace Bmap

/-- The fields of `struct m_inode` that are about the blocks of the file. -/
structure MInode where
  i_size : Nat
  i_zone : Nat → Nat
  i_dirt : Bool

/-- `((unsigned short *) b_data)[k]`. -/
def word (b_data : Bytes) (k : Nat) : Nat :=
  (b_data (2 * k)).toNat + 256 * (b_data (2 * k + 1)).toNat

def setWord (b_data : Bytes) (k v : Nat) : Bytes :=
  update (update b_data (2 * k) (UInt8.ofNat v)) (2 * k + 1) (UInt8.ofNat (v / 256))

/-- `i_zone[i]`, with the block that is created for it. -/
def zone (create : Bool) (inode : MInode) (s : Disk) (i : Nat) :
    Except String (MInode × Disk × Nat) :=
  if create ∧ inode.i_zone i = 0 then
    match s.newBlock with
    | .error e => .error e
    | .ok (s, z) =>
        if z = 0 then .ok (inode, s, 0)
        else
          let z := z % 0x10000
          .ok ({ inode with i_zone := update inode.i_zone i z, i_dirt := true }, s, z)
  else .ok (inode, s, inode.i_zone i)

/-- Word `k` of the indirect block `b`, with the block that is created for it. -/
def entry (create : Bool) (s : Disk) (b k : Nat) : Except String (Disk × Nat) :=
  let i := word (s.b_data b) k
  if create ∧ i = 0 then
    match s.newBlock with
    | .error e => .error e
    | .ok (s, i) => if i = 0 then .ok (s, 0) else .ok (s.store b (setWord (s.b_data b) k i), i)
  else .ok (s, i)

/-- `_bmap`; the readings of the indirect blocks succeed. -/
def bmap (create : Bool) (inode : MInode) (s : Disk) (block : Nat) :
    Except String (MInode × Disk × Nat) :=
  if block ≥ 7 + 512 + 512 * 512 then .error "_bmap: block>big"
  else if block < 7 then zone create inode s block
  else
    let block := block - 7
    if block < 512 then
      match zone create inode s 7 with
      | .error e => .error e
      | .ok (inode, s, z) =>
          if z = 0 then .ok (inode, s, 0)
          else (entry create s z block).map fun (s, i) => (inode, s, i)
    else
      let block := block - 512
      match zone create inode s 8 with
      | .error e => .error e
      | .ok (inode, s, z) =>
          if z = 0 then .ok (inode, s, 0)
          else
            match entry create s z (block / 512) with
            | .error e => .error e
            | .ok (s, i) =>
                if i = 0 then .ok (inode, s, 0)
                else (entry create s i (block % 512)).map fun (s, i) => (inode, s, i)

theorem word_setWord (b_data : Bytes) {k v : Nat} (hv : v < 0x10000) (j : Nat) :
    word (setWord b_data k v) j = if j = k then v else word b_data j := by
  unfold word setWord
  by_cases hjk : j = k
  · subst hjk
    have hne : 2 * j ≠ 2 * j + 1 := by omega
    rw [if_pos rfl, update_self, update_of_ne hne, update_self, UInt8.toNat_ofNat',
      UInt8.toNat_ofNat']
    omega
  · have h1 : 2 * j ≠ 2 * k := by omega
    have h2 : 2 * j ≠ 2 * k + 1 := by omega
    have h3 : 2 * j + 1 ≠ 2 * k := by omega
    have h4 : 2 * j + 1 ≠ 2 * k + 1 := by omega
    rw [if_neg hjk, update_of_ne h2, update_of_ne h1, update_of_ne h4, update_of_ne h3]

theorem word_zeroes (k : Nat) : word zeroes k = 0 := rfl

/-! ## Slots -/

/-- A place that holds a block number. -/
inductive Slot where
  | direct (i : Nat)
  | single (k : Nat)
  | double (a : Nat)
  | leaf (a b : Nat)
  deriving DecidableEq

namespace Slot

def Valid : Slot → Prop
  | direct i => i < 9
  | single k => k < 512
  | double a => a < 512
  | leaf a b => a < 512 ∧ b < 512

/-- The slots of the indirect blocks. -/
def Index : Slot → Prop
  | direct i => 7 ≤ i
  | double _ => True
  | single _ | leaf _ _ => False

/-- The slot whose block holds a slot. -/
def parent : Slot → Option Slot
  | direct _ => none
  | single _ => some (direct 7)
  | double _ => some (direct 8)
  | leaf a _ => some (double a)

def idx : Slot → Nat
  | direct i => i
  | single k => k
  | double a => a
  | leaf _ b => b

theorem parent_index {x p : Slot} (h : x.parent = some p) : p.Index := by
  cases x with
  | direct i => cases h
  | single k =>
      obtain rfl := Option.some.inj h
      exact Nat.le_refl 7
  | double a =>
      obtain rfl := Option.some.inj h
      exact Nat.le_succ 7
  | leaf a b =>
      obtain rfl := Option.some.inj h
      trivial

theorem parent_valid {x p : Slot} (hx : x.Valid) (h : x.parent = some p) : p.Valid := by
  cases x with
  | direct i => cases h
  | single k =>
      obtain rfl := Option.some.inj h
      exact (by decide : 7 < 9)
  | double a =>
      obtain rfl := Option.some.inj h
      exact (by decide : 8 < 9)
  | leaf a b =>
      obtain rfl := Option.some.inj h
      exact hx.1

/-- A slot is known by the block that holds it and its place in the block. -/
theorem eq_of_parent {x y : Slot} (h : x.parent = y.parent) (hidx : x.idx = y.idx) : x = y := by
  cases x <;> cases y <;> simp_all [parent, idx]

end Slot

/-- Word `k` of the block `z`, 0 when there is no block. -/
def below (s : Disk) (z k : Nat) : Nat := if z = 0 then 0 else word (s.b_data z) k

/-- The block number that a slot holds. -/
def value (inode : MInode) (s : Disk) : Slot → Nat
  | .direct i => inode.i_zone i
  | .single k => below s (inode.i_zone 7) k
  | .double a => below s (inode.i_zone 8) a
  | .leaf a b => below s (below s (inode.i_zone 8) a) b

theorem value_child {x p : Slot} (inode : MInode) (s : Disk) (h : x.parent = some p) :
    value inode s x = below s (value inode s p) x.idx := by
  cases x with
  | direct i => cases h
  | _ =>
      obtain rfl := Option.some.inj h
      rfl

/-- The slot of a block of the file. -/
def slotOf (block : Nat) : Slot :=
  if block < 7 then .direct block
  else if block - 7 < 512 then .single (block - 7)
  else .leaf ((block - 519) / 512) ((block - 519) % 512)

def MAXBLOCK : Nat := 7 + 512 + 512 * 512

theorem slotOf_valid {block : Nat} (h : block < MAXBLOCK) :
    (slotOf block).Valid ∧ ¬ (slotOf block).Index := by
  rw [MAXBLOCK] at h
  unfold slotOf
  split
  · constructor
    · dsimp only [Slot.Valid]
      omega
    · dsimp only [Slot.Index]
      omega
  · split
    · exact ⟨by assumption, id⟩
    · refine ⟨⟨?_, ?_⟩, id⟩ <;> omega

theorem slotOf_inj {block block' : Nat} (h : slotOf block = slotOf block') : block = block' := by
  unfold slotOf at h
  split at h
  · split at h
    · exact Slot.direct.inj h
    · split at h <;> cases h
  · split at h
    · split at h
      · cases h
      · split at h
        · have := Slot.single.inj h
          omega
        · cases h
    · split at h
      · cases h
      · split at h
        · cases h
        · obtain ⟨hdiv, hmod⟩ := Slot.leaf.inj h
          have := Nat.div_add_mod (block - 519) 512
          have := Nat.div_add_mod (block' - 519) 512
          omega

theorem bmap_big (create : Bool) (inode : MInode) (s : Disk) {block : Nat}
    (h : ¬ block < MAXBLOCK) : bmap create inode s block = .error "_bmap: block>big" :=
  if_pos (Nat.le_of_not_lt h)

/-- `bmap` without `create` reads the slot of the block. -/
theorem bmap_read (inode : MInode) (s : Disk) {block : Nat} (h : block < MAXBLOCK) :
    bmap false inode s block = .ok (inode, s, value inode s (slotOf block)) := by
  rw [MAXBLOCK] at h
  have hzone : ∀ i, zone false inode s i = .ok (inode, s, inode.i_zone i) := fun i =>
    if_neg fun hc => Bool.false_ne_true hc.1
  have hentry : ∀ b k, entry false s b k = .ok (s, word (s.b_data b) k) := by
    intro b k
    unfold entry
    exact if_neg fun hc => Bool.false_ne_true hc.1
  unfold bmap slotOf
  rw [if_neg (by omega)]
  by_cases h1 : block < 7
  · rw [if_pos h1, if_pos h1, hzone]
    rfl
  · rw [if_neg h1, if_neg h1]
    by_cases h2 : block - 7 < 512
    · dsimp only
      rw [if_pos h2, if_pos h2, hzone]
      dsimp only [value, below]
      split
      · rfl
      · rw [hentry]
        rfl
    · dsimp only
      rw [if_neg h2, if_neg h2, hzone]
      dsimp only [value, below]
      have hsub : block - 7 - 512 = block - 519 := by omega
      split
      · rename_i hz
        rw [if_pos rfl]
      · rw [hentry]
        dsimp only
        split
        · rw [hsub] at *
          rename_i hi
          rw [hi, if_pos rfl]
        · rename_i hi
          rw [hsub] at hi
          rw [hentry, hsub, if_neg hi]
          rfl

/-! ## The blocks of an inode -/

/-- The slots hold different blocks, all of them allocated. -/
structure Tree (d : DSuperBlock) (inode : MInode) (s : Disk) : Prop where
  covers : Covers s.sb d
  /-- `s_nzones` is an `unsigned short` -/
  short : d.s_nzones < 0x10000
  inj : ∀ x y, x.Valid → y.Valid → value inode s x = value inode s y → value inode s x ≠ 0 → x = y
  used : ∀ x, x.Valid → value inode s x ≠ 0 →
    s.sb.InRange (value inode s x) ∧ s.sb.allocated (value inode s x) = true

/-- The block that holds a slot, 0 for those of the inode. -/
def holder (inode : MInode) (s : Disk) (x : Slot) : Nat :=
  match x.parent with
  | some p => value inode s p
  | none => 0

/-- An allocated block that is not one of the inode. -/
structure Foreign (inode : MInode) (s : Disk) (b : Nat) : Prop where
  inRange : s.sb.InRange b
  allocated : s.sb.allocated b = true
  slots : ∀ x, x.Valid → value inode s x ≠ b

/-- `s'` is `s` with the slot `x` made sure of, and holding `r`. -/
structure Ensures (d : DSuperBlock) (inode : MInode) (s : Disk) (x : Slot) (inode' : MInode)
    (s' : Disk) (r : Nat) : Prop where
  tree : Tree d inode' s'
  result : value inode' s' x = r
  others : ∀ y, y.Valid → y ≠ x → value inode' s' y = value inode s y
  kept : value inode s x ≠ 0 → inode' = inode ∧ s' = s
  fresh : value inode s x = 0 → r ≠ 0 → s'.b_data r = zeroes ∧ s.sb.allocated r = false
  blocks : ∀ b, s.sb.InRange b → s.sb.allocated b = true →
    s'.sb.InRange b ∧ s'.sb.allocated b = true ∧
      (b ≠ holder inode s x → s'.b_data b = s.b_data b)
  size : inode'.i_size = inode.i_size

variable {d : DSuperBlock} {inode inode' : MInode} {s s' : Disk} {x : Slot}

theorem Tree.ensured (h : Tree d inode s) (hx : value inode s x ≠ 0) :
    Ensures d inode s x inode s (value inode s x) where
  tree := h
  result := rfl
  others := fun _ _ _ => rfl
  kept := fun _ => ⟨rfl, rfl⟩
  fresh := fun hzero => absurd hzero hx
  blocks := fun _ hb halloc => ⟨hb, halloc, fun _ => rfl⟩
  size := rfl

theorem Covers.inRange_iff {sb sb' : SuperBlock} (h : Covers sb d) (h' : Covers sb' d) (b : Nat) :
    sb'.InRange b ↔ sb.InRange b := by
  rw [InRange, InRange, h.fdz, h.nz, h'.fdz, h'.nz]

theorem Tree.full (h : Tree d inode s) {sb : SuperBlock} (hfull : Full s.sb sb)
    (hcovers : Covers sb d) (hx : value inode s x = 0) :
    Ensures d inode s x inode { s with sb := sb } 0 where
  tree := {
    covers := hcovers
    short := h.short
    inj := h.inj
    used := fun y hy hne => by
      obtain ⟨hb, halloc⟩ := h.used y hy hne
      exact ⟨(Covers.inRange_iff h.covers hcovers _).mpr hb, (hfull.same _ hb).trans halloc⟩ }
  result := hx
  others := fun _ _ _ => rfl
  kept := fun hne => absurd hx hne
  fresh := fun _ hr => absurd rfl hr
  blocks := fun b hb halloc => ⟨(Covers.inRange_iff h.covers hcovers b).mpr hb,
    (hfull.same b hb).trans halloc, fun _ => rfl⟩
  size := rfl

/-- The slots once `x` holds the new block `z`. -/
structure Filled (inode : MInode) (s : Disk) (x : Slot) (z : Nat) (inode' : MInode)
    (s' : Disk) : Prop where
  direct : ∀ i, inode'.i_zone i = if x = .direct i then z else inode.i_zone i
  below : ∀ y p, y.Valid → y.parent = some p → value inode s p ≠ 0 →
    Bmap.below s' (value inode s p) y.idx = if y = x then z else value inode s y
  empty : ∀ k, Bmap.below s' z k = 0

/-- Filling an empty slot changes no other slot: by the depth of the slots. -/
theorem Filled.value {z : Nat} (h : Filled inode s x z inode' s') (hx : value inode s x = 0)
    (hholder : ∀ p, x.parent = some p → value inode s p ≠ 0) :
    ∀ y, y.Valid → value inode' s' y = if y = x then z else value inode s y := by
  have hdirect : ∀ i, Bmap.value inode' s' (.direct i) =
      if Slot.direct i = x then z else Bmap.value inode s (.direct i) := by
    intro i
    dsimp only [Bmap.value]
    rw [h.direct]
    exact if_congr eq_comm rfl rfl
  -- one level down from a slot that is known
  have hchild : ∀ y p, y.Valid → y.parent = some p →
      Bmap.value inode' s' p = (if p = x then z else Bmap.value inode s p) →
      Bmap.value inode' s' y = if y = x then z else Bmap.value inode s y := by
    intro y p hy hp hval
    rw [value_child inode' s' hp, hval]
    by_cases hpx : p = x
    · have hyx : y ≠ x := by
        rintro rfl
        subst hpx
        cases p <;> cases hp
      rw [if_pos hpx, if_neg hyx, h.empty, value_child inode s hp, hpx, hx]
      rfl
    · rw [if_neg hpx]
      by_cases hzero : Bmap.value inode s p = 0
      · have hyx : y ≠ x := by
          rintro rfl
          exact hholder p hp hzero
        rw [if_neg hyx, value_child inode s hp, hzero]
        rfl
      · exact h.below y p hy hp hzero
  intro y hy
  cases y with
  | direct i => exact hdirect i
  | single k => exact hchild _ _ hy rfl (hdirect 7)
  | double a => exact hchild _ _ hy rfl (hdirect 8)
  | leaf a b => exact hchild _ _ hy rfl (hchild _ _ hy.1 rfl (hdirect 8))

/-- A slot that was filled with a zone that has just been taken. -/
theorem Tree.filled (h : Tree d inode s) {z : Nat} {sb : SuperBlock} (hpos : z ≠ 0)
    (htakes : Takes s.sb z sb) (hcovers : Covers sb d) (hsb : s'.sb = sb)
    (hfilled : Filled inode s x z inode' s') (hvalid : x.Valid) (hx : value inode s x = 0)
    (hholder : ∀ p, x.parent = some p → value inode s p ≠ 0) (hzero : s'.b_data z = zeroes)
    (hblocks : ∀ b, b ≠ z → b ≠ holder inode s x → s'.b_data b = s.b_data b)
    (hsize : inode'.i_size = inode.i_size) : Ensures d inode s x inode' s' z := by
  have hval := hfilled.value hx hholder
  have hkeep : ∀ b, s.sb.InRange b → s.sb.allocated b = true →
      s'.sb.InRange b ∧ s'.sb.allocated b = true ∧ b ≠ z := by
    intro b hb halloc
    have hne : b ≠ z := by
      rintro rfl
      exact Bool.false_ne_true (htakes.free.symm.trans halloc)
    rw [hsb]
    exact ⟨(Covers.inRange_iff h.covers hcovers b).mpr hb, (htakes.others b hb hne).trans halloc,
      hne⟩
  have hold : ∀ y, y.Valid → value inode s y ≠ z := by
    intro y hy hyz
    exact (hkeep _ (h.used y hy (hyz ▸ hpos)).1 (h.used y hy (hyz ▸ hpos)).2).2.2 hyz
  refine {
    tree := {
      covers := hsb ▸ hcovers
      short := h.short
      inj := fun y y' hy hy' heq hne => ?_
      used := fun y hy hne => ?_ }
    result := by rw [hval x hvalid, if_pos rfl]
    others := fun y hy hne => by rw [hval y hy, if_neg hne]
    kept := fun hne => absurd hx hne
    fresh := fun _ _ => ⟨hzero, htakes.free⟩
    blocks := fun b hb halloc => ?_
    size := hsize }
  · rw [hval y hy, hval y' hy'] at heq
    rw [hval y hy] at hne
    by_cases h1 : y = x
    · by_cases h2 : y' = x
      · rw [h1, h2]
      · rw [if_pos h1, if_neg h2] at heq
        exact absurd heq.symm (hold y' hy')
    · by_cases h2 : y' = x
      · rw [if_neg h1, if_pos h2] at heq
        exact absurd heq (hold y hy)
      · rw [if_neg h1, if_neg h2] at heq
        rw [if_neg h1] at hne
        exact h.inj y y' hy hy' heq hne
  · rw [hval y hy] at hne ⊢
    by_cases h1 : y = x
    · rw [if_pos h1, hsb]
      exact ⟨(Covers.inRange_iff h.covers hcovers z).mpr htakes.inRange, htakes.taken⟩
    · rw [if_neg h1] at hne ⊢
      obtain ⟨hb, halloc⟩ := h.used y hy hne
      exact ⟨(hkeep _ hb halloc).1, (hkeep _ hb halloc).2.1⟩
  · obtain ⟨hrange, hused, hne⟩ := hkeep b hb halloc
    exact ⟨hrange, hused, hblocks b hne⟩

/-- An allocated block is not the one that has just been taken. -/
theorem Tree.ne_taken (h : Tree d inode s) {z : Nat} {sb : SuperBlock} (htakes : Takes s.sb z sb)
    (hvalid : x.Valid) (hx : value inode s x ≠ 0) : value inode s x ≠ z := by
  intro heq
  have halloc := (h.used x hvalid hx).2
  rw [heq] at halloc
  exact Bool.false_ne_true (htakes.free.symm.trans halloc)

theorem Tree.zone_lt (h : Tree d inode s) {z : Nat} {sb : SuperBlock}
    (htakes : Takes s.sb z sb) : z < 0x10000 := by
  have hlt := htakes.inRange.2
  have hshort := h.short
  rw [h.covers.nz] at hlt
  omega

theorem below_zeroes {k z : Nat} (hz : s.b_data z = zeroes) : below s z k = 0 := by
  unfold below
  split
  · rfl
  · rw [hz]
    exact word_zeroes k

theorem below_congr {z : Nat} (hz : s'.b_data z = s.b_data z) (k : Nat) :
    below s' z k = below s z k := by
  unfold below
  rw [hz]

theorem zone_create (h : Tree d inode s) {i : Nat} (hi : i < 9) :
    ∃ inode' s' r, zone true inode s i = .ok (inode', s', r) ∧
      Ensures d inode s (.direct i) inode' s' r := by
  unfold zone
  by_cases hx : inode.i_zone i = 0
  · obtain ⟨s₁, ret, hnew, hcovers, hspec⟩ := Disk.newBlock_spec h.covers
    rw [if_pos ⟨rfl, hx⟩, hnew]
    cases hspec with
    | full sb hfull => exact ⟨_, _, _, rfl, h.full hfull hcovers hx⟩
    | zone _ sb hpos htakes =>
        have hlt := h.zone_lt htakes
        dsimp only
        rw [if_neg hpos, Nat.mod_eq_of_lt hlt]
        refine ⟨_, _, _, rfl, h.filled hpos htakes hcovers rfl ⟨fun j => ?_, ?_, ?_⟩ hi hx
          (fun p hp => nomatch hp) (update_self _ _ _) (fun b hb _ => update_of_ne hb _ _) rfl⟩
        · dsimp only
          rcases eq_or_ne j i with rfl | hne
          · rw [update_self, if_pos rfl]
          · rw [update_of_ne hne, if_neg fun heq => hne (Slot.direct.inj heq).symm]
        · intro y p hy hp hne
          have hyx : y ≠ .direct i := by
            rintro rfl
            cases hp
          have hpz := h.ne_taken htakes (Slot.parent_valid hy hp) hne
          rw [if_neg hyx, value_child inode s hp]
          exact below_congr (update_of_ne hpz _ _) _
        · exact fun k => below_zeroes (update_self _ _ _)
  · rw [if_neg fun hc => hx hc.2]
    exact ⟨_, _, _, rfl, h.ensured hx⟩

/-- A word of an indirect block with `create`. -/
theorem entry_create (h : Tree d inode s) {p : Slot} (hvalid : x.Valid) (hp : x.parent = some p)
    (hpos : value inode s p ≠ 0) :
    ∃ s' r, entry true s (value inode s p) x.idx = .ok (s', r) ∧
      Ensures d inode s x inode s' r := by
  have hword : word (s.b_data (value inode s p)) x.idx = value inode s x := by
    rw [value_child inode s hp, below, if_neg hpos]
  have hholder : ∀ q, x.parent = some q → value inode s q ≠ 0 := by
    intro q hq
    rw [hp] at hq
    obtain rfl := Option.some.inj hq
    exact hpos
  have hpvalid := Slot.parent_valid hvalid hp
  unfold entry
  rw [hword]
  dsimp only
  by_cases hx : value inode s x = 0
  · obtain ⟨s₁, ret, hnew, hcovers, hspec⟩ := Disk.newBlock_spec h.covers
    rw [if_pos ⟨rfl, hx⟩, hnew]
    cases hspec with
    | full sb hfull => exact ⟨_, _, rfl, h.full hfull hcovers hx⟩
    | zone _ sb hzpos htakes =>
        have hlt := h.zone_lt htakes
        have hhz : value inode s p ≠ ret := h.ne_taken htakes hpvalid hpos
        have hz : ∀ k, (Disk.store ⟨sb, update s.b_data ret zeroes⟩ (value inode s p) k).b_data ret
            = zeroes := fun k => by
          rw [Disk.store_data_ne _ _ hhz.symm]
          exact update_self _ _ _
        dsimp only
        rw [if_neg hzpos, update_of_ne hhz]
        refine ⟨_, _, rfl, h.filled hzpos htakes hcovers rfl ⟨fun j => ?_, ?_, ?_⟩ hvalid hx hholder
          (hz _) (fun b hb hbh => ?_) rfl⟩
        · rw [if_neg]
          rintro rfl
          cases hp
        · intro y q hy hq hne
          have hqz := h.ne_taken htakes (Slot.parent_valid hy hq) hne
          by_cases hqp : q = p
          · subst hqp
            have hyx : y = x ↔ y.idx = x.idx :=
              ⟨fun heq => by rw [heq], Slot.eq_of_parent (hq.trans hp.symm)⟩
            rw [below, if_neg hne, Disk.store_data, word_setWord _ hlt, value_child inode s hq,
              below, if_neg hne]
            exact if_congr hyx.symm rfl rfl
          · have hqne : value inode s q ≠ value inode s p := fun heq =>
              hqp (h.inj q p (Slot.parent_valid hy hq) hpvalid heq hne)
            have hyx : y ≠ x := by
              rintro rfl
              exact hqp (Option.some.inj (hq.symm.trans hp))
            rw [if_neg hyx, value_child inode s hq]
            refine below_congr ?_ _
            rw [Disk.store_data_ne _ _ hqne]
            exact update_of_ne hqz _ _
        · exact fun k => below_zeroes (hz _)
        · rw [holder, hp] at hbh
          rw [Disk.store_data_ne _ _ hbh]
          exact update_of_ne hb _ _
  · rw [if_neg fun hc => hx hc.2]
    exact ⟨_, _, rfl, h.ensured hx⟩

theorem Tree.pos_of_inRange (h : Tree d inode s) {b : Nat} (hb : s.sb.InRange b) : b ≠ 0 := by
  have hlow := hb.1
  have hboot := h.covers.boot
  rw [h.covers.fdz] at hlow
  omega

theorem Ensures.foreign (h : Tree d inode s) {r : Nat} (he : Ensures d inode s x inode' s' r)
    {b : Nat} (hb : Foreign inode s b) (hvalid : x.Valid) : Foreign inode' s' b := by
  obtain ⟨hrange, hused, -⟩ := he.blocks b hb.inRange hb.allocated
  refine ⟨hrange, hused, fun y hy => ?_⟩
  by_cases hyx : y = x
  · subst hyx
    rw [he.result]
    by_cases hold : value inode s y = 0
    · by_cases hr : r = 0
      · rw [hr]
        exact (h.pos_of_inRange hb.inRange).symm
      · rintro rfl
        exact Bool.false_ne_true ((he.fresh hold hr).2.symm.trans hb.allocated)
    · obtain ⟨rfl, rfl⟩ := he.kept hold
      rw [← he.result]
      exact hb.slots y hvalid
  · rw [he.others y hy hyx]
    exact hb.slots y hy

/-! ## `create_block` -/

/-- What `create_block` does to the slot `x` of a block of the file. -/
structure Creates (d : DSuperBlock) (inode : MInode) (s : Disk) (x : Slot) (inode' : MInode)
    (s' : Disk) (r : Nat) : Prop where
  tree : Tree d inode' s'
  result : value inode' s' x = r
  others : ∀ y, y.Valid → ¬ y.Index → y ≠ x → value inode' s' y = value inode s y
  kept : value inode s x ≠ 0 → inode' = inode ∧ s' = s
  fresh : value inode s x = 0 → r ≠ 0 → s'.b_data r = zeroes ∧ s.sb.allocated r = false
  blocks : ∀ b, s.sb.InRange b → s.sb.allocated b = true →
    s'.sb.InRange b ∧ s'.sb.allocated b = true ∧
      ((∀ y, y.Valid → y.Index → value inode s y ≠ b) → s'.b_data b = s.b_data b)
  foreign : ∀ b, Foreign inode s b → Foreign inode' s' b
  size : inode'.i_size = inode.i_size

variable {inode₁ : MInode} {s₁ : Disk} {r r₁ : Nat} {p : Slot}

theorem holder_ne {b : Nat} (hvalid : x.Valid) (hb : b ≠ 0)
    (h : ∀ y, y.Valid → y.Index → value inode s y ≠ b) : b ≠ holder inode s x := by
  unfold holder
  cases hp : x.parent with
  | none => exact hb
  | some p => exact (h p (Slot.parent_valid hvalid hp) (Slot.parent_index hp)).symm

theorem Ensures.creates (h : Tree d inode s) (he : Ensures d inode s x inode' s' r)
    (hvalid : x.Valid) : Creates d inode s x inode' s' r where
  tree := he.tree
  result := he.result
  others := fun y hy _ hne => he.others y hy hne
  kept := he.kept
  fresh := he.fresh
  blocks := fun b hb halloc => by
    obtain ⟨hrange, hused, hdata⟩ := he.blocks b hb halloc
    exact ⟨hrange, hused, fun hindex => hdata (holder_ne hvalid (h.pos_of_inRange hb) hindex)⟩
  foreign := fun _ hb => he.foreign h hb hvalid
  size := he.size

/-- The slot `p` above `x` was made sure of first; `x` is empty where `p` is. -/
theorem Ensures.andThen (h : Tree d inode s) (he : Ensures d inode s p inode₁ s₁ r₁)
    (hc : Creates d inode₁ s₁ x inode' s' r) (hvalid : p.Valid) (hindex : p.Index)
    (hx : x.Valid) (hxi : ¬ x.Index) (hempty : value inode s p = 0 → value inode s x = 0) :
    Creates d inode s x inode' s' r := by
  have hxp : x ≠ p := fun heq => hxi (heq ▸ hindex)
  have hval : value inode₁ s₁ x = value inode s x := he.others x hx hxp
  refine {
    tree := hc.tree
    result := hc.result
    others := fun y hy hyi hne => ?_
    kept := fun hne => ?_
    fresh := fun hzero hr => ?_
    blocks := fun b hb halloc => ?_
    foreign := fun b hb => hc.foreign b (he.foreign h hb hvalid)
    size := hc.size.trans he.size }
  · rw [hc.others y hy hyi hne]
    exact he.others y hy fun heq => hyi (heq ▸ hindex)
  · obtain ⟨rfl, rfl⟩ := he.kept fun hp => hne (hempty hp)
    exact hc.kept hne
  · obtain ⟨hdata, hfree⟩ := hc.fresh (hval.trans hzero) hr
    refine ⟨hdata, ?_⟩
    by_contra halloc
    -- a block that was allocated before stays so
    have hused := hc.tree.used x hx (by rw [hc.result]; exact hr)
    rw [hc.result] at hused
    have hrange := (Covers.inRange_iff h.covers hc.tree.covers r).mp hused.1
    have hstays := (he.blocks r hrange (Bool.not_eq_false _ ▸ halloc)).2.1
    exact Bool.false_ne_true (hfree.symm.trans hstays)
  · obtain ⟨hrange, hused, hdata⟩ := he.blocks b hb halloc
    obtain ⟨hrange', hused', hdata'⟩ := hc.blocks b hrange hused
    refine ⟨hrange', hused', fun hne => ?_⟩
    rw [hdata' fun y hy hyi => ?_]
    · exact hdata (holder_ne hvalid (h.pos_of_inRange hb) hne)
    · by_cases hyp : y = p
      · subst hyp
        rw [he.result]
        by_cases hold : value inode s y = 0
        · by_cases hr₁ : r₁ = 0
          · rw [hr₁]
            exact (h.pos_of_inRange hb).symm
          · rintro rfl
            exact Bool.false_ne_true ((he.fresh hold hr₁).2.symm.trans halloc)
        · obtain ⟨rfl, rfl⟩ := he.kept hold
          rw [← he.result]
          exact hne y hy hyi
      · rw [he.others y hy hyp]
        exact hne y hy hyi

/-- No block could be had for the slot `p` above `x`. -/
theorem Ensures.stop (h : Tree d inode s) (he : Ensures d inode s p inode' s' 0)
    (hvalid : p.Valid) (hindex : p.Index) (hx : x.Valid) (hxi : ¬ x.Index)
    (hempty : value inode s p = 0 → value inode s x = 0) : Creates d inode s x inode' s' 0 := by
  have hxp : x ≠ p := fun heq => hxi (heq ▸ hindex)
  have hp : value inode s p = 0 := by
    by_contra hne
    obtain ⟨rfl, rfl⟩ := he.kept hne
    exact hne he.result
  have hc := he.creates h hvalid
  exact {
    tree := he.tree
    result := (he.others x hx hxp).trans (hempty hp)
    others := fun y hy hyi _ => he.others y hy fun heq => hyi (heq ▸ hindex)
    kept := fun hne => absurd (hempty hp) hne
    fresh := fun _ hr => absurd rfl hr
    blocks := hc.blocks
    foreign := hc.foreign
    size := he.size }

theorem value_parent_zero (hp : x.parent = some p) (h : value inode s p = 0) :
    value inode s x = 0 := by
  rw [value_child inode s hp, h]
  rfl

/-- `create_block`: the slot of the block is made sure of, with the indirect blocks above. -/
theorem bmap_create (h : Tree d inode s) {block : Nat} (hblock : block < MAXBLOCK) :
    ∃ inode' s' r, bmap true inode s block = .ok (inode', s', r) ∧
      Creates d inode s (slotOf block) inode' s' r := by
  obtain ⟨hx, hxi⟩ := slotOf_valid hblock
  have h7 : (Slot.direct 7).Valid := (by decide : 7 < 9)
  have h8 : (Slot.direct 8).Valid := (by decide : 8 < 9)
  rw [MAXBLOCK] at hblock
  unfold bmap
  rw [if_neg (by omega)]
  by_cases h1 : block < 7
  · obtain ⟨inode', s', r, hzone, he⟩ := zone_create h (i := block) (by omega)
    have hslot : slotOf block = .direct block := if_pos h1
    rw [hslot] at hx ⊢
    rw [if_pos h1]
    exact ⟨inode', s', r, hzone, he.creates h hx⟩
  · rw [if_neg h1]
    dsimp only
    by_cases h2 : block - 7 < 512
    · have hslot : slotOf block = .single (block - 7) := by
        rw [slotOf, if_neg h1, if_pos h2]
      rw [hslot] at hx hxi ⊢
      have hempty : value inode s (.direct 7) = 0 → value inode s (.single (block - 7)) = 0 :=
        fun hz => value_parent_zero (x := .single (block - 7)) rfl hz
      obtain ⟨inode₁, s₁, r₁, hzone, he⟩ := zone_create h (i := 7) (by omega)
      rw [if_pos h2, hzone]
      dsimp only
      by_cases hr₁ : r₁ = 0
      · subst hr₁
        rw [if_pos rfl]
        exact ⟨_, _, _, rfl, he.stop h h7 (Nat.le_refl 7) hx hxi hempty⟩
      · have hpos : value inode₁ s₁ (.direct 7) ≠ 0 := by rwa [he.result]
        obtain ⟨s', r, hentry, he'⟩ := entry_create (x := .single (block - 7)) he.tree hx rfl hpos
        rw [he.result] at hentry
        rw [if_neg hr₁, show block - 7 = (Slot.single (block - 7)).idx from rfl, hentry]
        exact ⟨_, _, _, rfl, he.andThen h (he'.creates he.tree hx) h7 (Nat.le_refl 7) hx hxi
          hempty⟩
    · have hsub : block - 7 - 512 = block - 519 := by omega
      have hslot : slotOf block = .leaf ((block - 519) / 512) ((block - 519) % 512) := by
        rw [slotOf, if_neg h1, if_neg h2]
      rw [hslot] at hx hxi ⊢
      rw [if_neg h2, hsub]
      generalize (block - 519) / 512 = a at hx hxi ⊢
      generalize (block - 519) % 512 = b at hx hxi ⊢
      have hempty₂ : ∀ {inode s}, value inode s (.double a) = 0 → value inode s (.leaf a b) = 0 :=
        fun hz => value_parent_zero (x := .leaf a b) rfl hz
      have hempty₁ : value inode s (.direct 8) = 0 → value inode s (.leaf a b) = 0 :=
        fun hz => hempty₂ (value_parent_zero (x := .double a) rfl hz)
      obtain ⟨inode₁, s₁, r₁, hzone, he⟩ := zone_create h (i := 8) (by omega)
      rw [hzone]
      dsimp only
      by_cases hr₁ : r₁ = 0
      · subst hr₁
        rw [if_pos rfl]
        exact ⟨_, _, _, rfl, he.stop h h8 (Nat.le_succ 7) hx hxi hempty₁⟩
      · have hpos : value inode₁ s₁ (.direct 8) ≠ 0 := by rwa [he.result]
        obtain ⟨s₂, r₂, hentry₂, he₂⟩ := entry_create (x := .double a) he.tree hx.1 rfl hpos
        rw [he.result] at hentry₂
        rw [if_neg hr₁, show a = (Slot.double a).idx from rfl, hentry₂]
        dsimp only
        by_cases hr₂ : r₂ = 0
        · subst hr₂
          rw [if_pos rfl]
          exact ⟨_, _, _, rfl, he.andThen h (he₂.stop he.tree hx.1 trivial hx hxi hempty₂) h8
            (Nat.le_succ 7) hx hxi hempty₁⟩
        · have hpos₂ : value inode₁ s₂ (.double a) ≠ 0 := by rwa [he₂.result]
          obtain ⟨s', r, hentry, he'⟩ := entry_create (x := .leaf a b) he₂.tree hx rfl hpos₂
          rw [he₂.result] at hentry
          rw [if_neg hr₂, show b = (Slot.leaf a b).idx from rfl, hentry]
          exact ⟨_, _, _, rfl, he.andThen h
            (he₂.andThen he.tree (he'.creates he₂.tree hx) hx.1 trivial
            hx hxi hempty₂) h8 (Nat.le_succ 7) hx hxi hempty₁⟩

/-! ## The file as a sequence of blocks -/

/-- The block number of a block of the file, 0 when there is none. -/
def blockNr (inode : MInode) (s : Disk) (block : Nat) : Nat := value inode s (slotOf block)

/-- The bytes of a block of the file. -/
def fileBlock (inode : MInode) (s : Disk) (block : Nat) : Bytes :=
  s.b_data (blockNr inode s block)

theorem Tree.blockNr_inj (h : Tree d inode s) {k k' : Nat} (hk : k < MAXBLOCK) (hk' : k' < MAXBLOCK)
    (heq : blockNr inode s k = blockNr inode s k') (hne : blockNr inode s k ≠ 0) : k = k' :=
  slotOf_inj (h.inj _ _ (slotOf_valid hk).1 (slotOf_valid hk').1 heq hne)

/-- A block of the file is not an indirect block. -/
theorem Tree.index_ne (h : Tree d inode s) {k : Nat} (hk : k < MAXBLOCK)
    (hne : blockNr inode s k ≠ 0) {y : Slot} (hy : y.Valid) (hyi : y.Index) :
    value inode s y ≠ blockNr inode s k := by
  intro heq
  have hslot := h.inj _ _ hy (slotOf_valid hk).1 heq (heq ▸ hne)
  exact (slotOf_valid hk).2 (hslot ▸ hyi)

/-- Writing a block of the file leaves the slots alone. -/
theorem Tree.value_store (h : Tree d inode s) {k : Nat} (hk : k < MAXBLOCK)
    (hne : blockNr inode s k ≠ 0) (data : Bytes) {y : Slot} (hy : y.Valid) :
    value inode (s.store (blockNr inode s k) data) y = value inode s y := by
  have hchild : ∀ y p, y.Valid → y.parent = some p →
      value inode (s.store (blockNr inode s k) data) p = value inode s p →
      value inode (s.store (blockNr inode s k) data) y = value inode s y := by
    intro y p hy hp hval
    have hindex := h.index_ne hk hne (Slot.parent_valid hy hp) (Slot.parent_index hp)
    rw [value_child _ _ hp, value_child _ _ hp, hval]
    exact below_congr (Disk.store_data_ne _ _ hindex) _
  cases y with
  | direct i => rfl
  | single k => exact hchild _ _ hy rfl rfl
  | double a => exact hchild _ _ hy rfl rfl
  | leaf a b => exact hchild _ _ hy rfl (hchild _ _ hy.1 rfl rfl)

theorem Tree.store (h : Tree d inode s) {k : Nat} (hk : k < MAXBLOCK)
    (hne : blockNr inode s k ≠ 0) (data : Bytes) :
    Tree d inode (s.store (blockNr inode s k) data) where
  covers := h.covers
  short := h.short
  inj := fun x y hx hy heq hxne => by
    rw [h.value_store hk hne data hx, h.value_store hk hne data hy] at heq
    rw [h.value_store hk hne data hx] at hxne
    exact h.inj x y hx hy heq hxne
  used := fun x hx hxne => by
    rw [h.value_store hk hne data hx] at hxne ⊢
    exact h.used x hx hxne

theorem Tree.blockNr_store (h : Tree d inode s) {k : Nat} (hk : k < MAXBLOCK)
    (hne : blockNr inode s k ≠ 0) (data : Bytes) {k' : Nat} (hk' : k' < MAXBLOCK) :
    blockNr inode (s.store (blockNr inode s k) data) k' = blockNr inode s k' :=
  h.value_store hk hne data (slotOf_valid hk').1

theorem Tree.fileBlock_store (h : Tree d inode s) {k : Nat} (hk : k < MAXBLOCK)
    (hne : blockNr inode s k ≠ 0) (data : Bytes) {k' : Nat} (hk' : k' < MAXBLOCK) :
    fileBlock inode (s.store (blockNr inode s k) data) k' =
      if k' = k then data else fileBlock inode s k' := by
  unfold fileBlock
  rw [h.blockNr_store hk hne data hk']
  by_cases hkk : k' = k
  · rw [hkk, if_pos rfl, Disk.store_data]
  · rw [if_neg hkk, Disk.store_data_ne]
    exact fun heq => hkk (h.blockNr_inj hk' hk heq (heq ▸ hne))

/-- `create_block` on the sequence of blocks. -/
structure CreateBlock (d : DSuperBlock) (inode : MInode) (s : Disk) (block : Nat)
    (inode' : MInode) (s' : Disk) (r : Nat) : Prop where
  tree : Tree d inode' s'
  result : blockNr inode' s' block = r
  others : ∀ k < MAXBLOCK, k ≠ block → blockNr inode' s' k = blockNr inode s k
  kept : blockNr inode s block ≠ 0 → inode' = inode ∧ s' = s
  fresh : blockNr inode s block = 0 → r ≠ 0 → fileBlock inode' s' block = zeroes
  data : ∀ k < MAXBLOCK, blockNr inode s k ≠ 0 → fileBlock inode' s' k = fileBlock inode s k
  foreign : ∀ b, Foreign inode s b → Foreign inode' s' b ∧ s'.b_data b = s.b_data b
  size : inode'.i_size = inode.i_size

theorem createBlock_spec (h : Tree d inode s) {block : Nat} (hblock : block < MAXBLOCK) :
    ∃ inode' s' r, bmap true inode s block = .ok (inode', s', r) ∧
      CreateBlock d inode s block inode' s' r := by
  obtain ⟨inode', s', r, hbmap, hc⟩ := bmap_create h hblock
  have hothers : ∀ k < MAXBLOCK, k ≠ block → blockNr inode' s' k = blockNr inode s k :=
    fun k hk hne => hc.others _ (slotOf_valid hk).1 (slotOf_valid hk).2 fun heq =>
      hne (slotOf_inj heq)
  refine ⟨inode', s', r, hbmap, hc.tree, hc.result, hothers, hc.kept, fun hzero hr => ?_,
    fun k hk hne => ?_, fun b hb => ⟨hc.foreign b hb, ?_⟩, hc.size⟩
  · unfold fileBlock blockNr
    rw [hc.result]
    exact (hc.fresh hzero hr).1
  · by_cases hkb : k = block
    · subst hkb
      obtain ⟨rfl, rfl⟩ := hc.kept hne
      rfl
    · unfold fileBlock
      rw [hothers k hk hkb]
      obtain ⟨hrange, halloc⟩ := h.used _ (slotOf_valid hk).1 hne
      exact (hc.blocks _ hrange halloc).2.2 fun y hy hyi => h.index_ne hk hne hy hyi
  · exact (hc.blocks b hb.inRange hb.allocated).2.2 fun y hy _ => hb.slots y hy

/-! ## `bmap` behind `create_block` -/

/-- `bmap` gives `n` for the block, and changes nothing. -/
def Maps (inode : MInode) (s : Disk) (block n : Nat) : Prop :=
  bmap false inode s block = .ok (inode, s, n)

theorem maps_blockNr (inode : MInode) (s : Disk) {block : Nat} (hblock : block < MAXBLOCK) :
    Maps inode s block (blockNr inode s block) := bmap_read inode s hblock

/-- A block that was not there is a zone that was free. -/
theorem Creates.taken (h : Tree d inode s) (hc : Creates d inode s x inode' s' r)
    (hvalid : x.Valid) (hx : value inode s x = 0) (hr : r ≠ 0) :
    s.sb.InRange r ∧ s.sb.allocated r = false := by
  have hused := hc.tree.used x hvalid
  rw [hc.result] at hused
  exact ⟨(Covers.inRange_iff h.covers hc.tree.covers r).mp (hused hr).1, (hc.fresh hx hr).2⟩

/-- `create_block` of any block of a file comes to its end, through one or two indirect
blocks. When it gives a block, `bmap` gives this block from then on, and for every other
block what it gave before; the block was there or is a zone that was free, and the slots
of the inode hold different zones again, all of them allocated. -/
theorem create_block_frame (h : Tree d inode s) {block : Nat} (hblock : block < MAXBLOCK) :
    ∃ inode' s' n, bmap true inode s block = .ok (inode', s', n) ∧ (n ≠ 0 →
      Maps inode' s' block n ∧
      (∀ block' < MAXBLOCK, block' ≠ block →
        ∃ n', Maps inode s block' n' ∧ Maps inode' s' block' n') ∧
      (Maps inode s block n ∨
        Maps inode s block 0 ∧ s.sb.InRange n ∧ s.sb.allocated n = false) ∧
      Tree d inode' s') := by
  obtain ⟨inode', s', n, hbmap, hc⟩ := bmap_create h hblock
  refine ⟨inode', s', n, hbmap, fun hn => ⟨?_, fun block' hblock' hne => ?_, ?_, hc.tree⟩⟩
  · have hmaps := maps_blockNr inode' s' hblock
    rwa [show blockNr inode' s' block = n from hc.result] at hmaps
  · obtain ⟨hvalid, hindex⟩ := slotOf_valid hblock'
    have hsame : blockNr inode' s' block' = blockNr inode s block' :=
      hc.others _ hvalid hindex fun heq => hne (slotOf_inj heq)
    have hmaps := maps_blockNr inode' s' hblock'
    rw [hsame] at hmaps
    exact ⟨_, maps_blockNr inode s hblock', hmaps⟩
  · have hmaps := maps_blockNr inode s hblock
    by_cases hzero : blockNr inode s block = 0
    · rw [hzero] at hmaps
      exact .inr ⟨hmaps, hc.taken h (slotOf_valid hblock).1 hzero hn⟩
    · have hresult : blockNr inode' s' block = n := hc.result
      obtain ⟨hinode, hs⟩ := hc.kept hzero
      rw [hinode, hs] at hresult
      rw [hresult] at hmaps
      exact .inl hmaps

section Floppy

/-- An inode without blocks. -/
def emptyFile : MInode := ⟨0, fun _ => 0, false⟩

theorem emptyFile_value (x : Slot) : value emptyFile emptyDisk x = 0 := by
  cases x <;> rfl

theorem emptyFile_tree : Tree floppy emptyFile emptyDisk where
  covers := oneZone_covers
  short := by decide
  inj := fun x _ _ _ _ hne => absurd (emptyFile_value x) hne
  used := fun x _ hne => absurd (emptyFile_value x) hne

/-- The first block behind the direct ones: an index block is made for it. -/
theorem create_block_frame_floppy : ∃ inode' s',
    bmap true emptyFile emptyDisk 7 = .ok (inode', s', 7) ∧ Maps inode' s' 7 7 ∧
      Maps inode' s' 6 0 := by
  have h7 : 7 < MAXBLOCK := by decide
  obtain ⟨inode', s', n, hbmap, hn⟩ := create_block_frame emptyFile_tree h7
  have hvalue : (bmap true emptyFile emptyDisk 7).toOption.map (fun r => r.2.2) = some 7 := by
    decide +kernel
  rw [hbmap] at hvalue
  obtain rfl : n = 7 := Option.some.inj hvalue
  obtain ⟨hmaps, hothers, -⟩ := hn (by decide)
  obtain ⟨n', hn₀, hn'⟩ := hothers 6 (by decide) (by decide)
  obtain rfl : 0 = n' := (Prod.mk.inj (Prod.mk.inj (Except.ok.inj hn₀)).2).2
  exact ⟨inode', s', hbmap, hmaps, hn'⟩

end Floppy

end Bmap

end Linux011
