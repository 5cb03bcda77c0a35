import Linux011.Runs
import Linux011.ZoneMap

/-!
# Allocating zones

`new_block` and `free_block` of `fs/bitmap.c` on one device whose super block is loaded. The
buffers are those of `fs/buffer.c` by their block number: a block has one buffer at most, and
`getblk` for a block without one takes the buffer of another block that nobody holds.

The maps are `ZoneMap` over `Bitmap`, where the search for a clear bit and the two bit operations
are exact; `Covers` says that the bits of a loaded map belong to the zones of the device, and the
bits that stand for no zone are set, because `read_super` sets the first one and the hypotheses
say how long the map is. What a call does is then read off: the zone that `new_block` gives is
the first whose bit is clear, and `free_block` clears one bit that was set. The panics of both
calls are those of the source, and the theorem says that none of them is met. The buffers take
part in it because `new_block` panics when somebody holds the buffer of its zone and `free_block`
then gives up; `getblk` may meet any buffers on its way (`Recycle`).
-/

namespace Linux011

open Function Runs Super SuperBlock

namespace Zones

abbrev Bytes : Type := Nat → UInt8

structure BufferHead where
  b_data : Bytes
  b_uptodate : Bool
  b_dirt : Bool
  b_count : Nat

/-- The buffers of one device, and the device. -/
structure Device where
  bh : Nat → Option BufferHead
  disk : Nat → Bytes

/-- What `getblk` meets when the block has no buffer: whether it calls `sync_dev`, the block
whose buffer it takes and the bytes that are left in it. -/
structure Recycle where
  sync : Bool
  victim : Nat
  junk : Bytes

structure Fs where
  sb : SuperBlock
  dev : Device

/-- `sync_dev`: every dirty buffer is written. -/
def Device.sync (d : Device) : Device where
  bh := fun b => (d.bh b).map fun bh => { bh with b_dirt := false }
  disk := fun b =>
    match d.bh b with
    | some bh => if bh.b_dirt then bh.b_data else d.disk b
    | none => d.disk b

/-- The buffer of `victim` is taken, if it is clean and nobody holds it. -/
def Device.drop (d : Device) (victim : Nat) : Device :=
  match d.bh victim with
  | some bh =>
      if bh.b_count = 0 ∧ bh.b_dirt = false then { d with bh := update d.bh victim none } else d
  | none => d

def Device.setBh (d : Device) (b : Nat) (bh : BufferHead) : Device :=
  { d with bh := update d.bh b (some bh) }

def getHashTable (d : Device) (b : Nat) : Option (Device × BufferHead) :=
  (d.bh b).map fun bh =>
    let bh := { bh with b_count := bh.b_count + 1 }
    (d.setBh b bh, bh)

def getblk (d : Device) (r : Recycle) (b : Nat) : Device × BufferHead :=
  match getHashTable d b with
  | some found => found
  | none =>
      let d := (if r.sync then d.sync else d).drop r.victim
      let bh : BufferHead := ⟨r.junk, false, false, 1⟩
      (d.setBh b bh, bh)

/-- `brelse` of a buffer that is held, as it is at the end. -/
def brelse (d : Device) (b : Nat) (bh : BufferHead) : Device :=
  d.setBh b { bh with b_count := bh.b_count - 1 }

def zeroes : Bytes := fun _ => 0

def freeBlock (s : Fs) (block : Nat) : Except String Fs :=
  if block < s.sb.s_firstdatazone ∨ block ≥ s.sb.s_nzones then
    .error "trying to free block not in datazone"
  else
    match getHashTable s.dev block with
    | none => (freeZone s.sb block).map fun sb => { s with sb := sb }
    | some (dev, bh) =>
        if bh.b_count ≠ 1 then .ok { s with dev := dev }
        else
          let dev := brelse dev block { bh with b_dirt := false, b_uptodate := false }
          (freeZone s.sb block).map fun sb => ⟨sb, dev⟩

/-- The end of `new_block`: the buffer of the zone it has found. -/
def zeroBlock (s : Fs) (r : Recycle) (j : Nat) : Except String (Fs × Nat) :=
  let (dev, bh) := getblk s.dev r j
  if bh.b_count ≠ 1 then .error "new block: count is != 1"
  else
    let bh := { bh with b_data := zeroes, b_uptodate := true, b_dirt := true }
    .ok ({ s with dev := brelse dev j bh }, j)

def newBlock (s : Fs) (r : Recycle) : Except String (Fs × Nat) :=
  match takeZone s.sb with
  | .error e => .error e
  | .ok (sb, none) => .ok ({ s with sb := sb }, 0)
  | .ok (sb, some j) => zeroBlock { s with sb := sb } r j

/-! ## Runs -/

inductive Act where
  | newBlock (r : Recycle)
  | freeBlock (block : Nat)
  /-- whatever else is done with the buffers of the device -/
  | others (dev : Device)

/-- One call; `none` when it ends in `panic`. -/
def step (s : Fs) : Act → Option Fs
  | .newBlock r => (newBlock s r).toOption.map Prod.fst
  | .freeBlock block => (freeBlock s block).toOption
  | .others dev => some { s with dev := dev }

def Fs.Unheld (s : Fs) (z : Nat) : Prop := ∀ bh ∈ s.dev.bh z, bh.b_count = 0

/-- A zone is freed only when it is allocated, and nobody holds the buffers that the calls
meet. -/
def Proper (s : Fs) : Act → Prop
  | .newBlock _ => ∀ z, s.sb.InRange z → s.Unheld z
  | .freeBlock z => s.sb.InRange z ∧ s.sb.allocated z = true ∧ s.Unheld z
  | .others _ => True

variable {s s' : Fs} {d : DSuperBlock}

/-! ## One call -/

theorem getblk_count {dev : Device} {b : Nat} (r : Recycle)
    (h : ∀ bh ∈ dev.bh b, bh.b_count = 0) : (getblk dev r b).2.b_count = 1 := by
  unfold getblk getHashTable
  cases hbh : dev.bh b with
  | none => rfl
  | some bh =>
      dsimp only [Option.map_some]
      rw [h bh hbh]

theorem zeroBlock_eq {b : Nat} (r : Recycle) (h : s.Unheld b) :
    zeroBlock s r b = .ok ({ s with
      dev := (getblk s.dev r b).1.setBh b ⟨zeroes, true, true, 0⟩ }, b) := by
  have hcount := getblk_count r h
  unfold zeroBlock
  generalize getblk s.dev r b = p at hcount
  obtain ⟨dev, bh⟩ := p
  dsimp only at hcount ⊢
  rw [if_neg (not_not.mpr hcount), brelse, hcount]

/-- What a call of `new_block` does: a free zone is taken and its buffer is zeroed, or there
is none. -/
theorem newBlock_spec (h : Covers s.sb d) (r : Recycle)
    (hunheld : ∀ z, s.sb.InRange z → s.Unheld z) :
    ∃ s' ret, newBlock s r = .ok (s', ret) ∧ Covers s'.sb d ∧
      (ret ≠ 0 ∧ Takes s.sb ret s'.sb ∧ s'.dev.bh ret = some ⟨zeroes, true, true, 0⟩ ∨
        ret = 0 ∧ Full s.sb s'.sb) := by
  obtain ⟨sb', ret, htake, hcovers, hspec⟩ := takeZone_spec h
  unfold newBlock
  rw [htake]
  cases ret with
  | none => exact ⟨_, 0, rfl, hcovers, .inr ⟨rfl, hspec⟩⟩
  | some z =>
      have hpos : z ≠ 0 := by
        have hlow := hspec.inRange.1
        have hboot := h.boot
        rw [h.fdz] at hlow
        omega
      have hz : Fs.Unheld { s with sb := sb' } z := hunheld z hspec.inRange
      refine ⟨_, z, zeroBlock_eq r hz, hcovers, .inl ⟨hpos, hspec, ?_⟩⟩
      exact update_self _ _ _

theorem freeBlock_spec (h : Covers s.sb d) {z : Nat} (hz : s.sb.InRange z)
    (halloc : s.sb.allocated z = true) (hunheld : s.Unheld z) :
    ∃ s', freeBlock s z = .ok s' ∧ Covers s'.sb d ∧ Frees s.sb z s'.sb := by
  obtain ⟨sb', hfree, hspec⟩ := freeZone_spec h hz halloc
  have hrange : ¬ (z < s.sb.s_firstdatazone ∨ z ≥ s.sb.s_nzones) := by
    rintro (hlt | hge)
    · exact absurd hz.1 (Nat.not_le_of_lt hlt)
    · exact absurd hz.2 (Nat.not_lt_of_le hge)
  unfold freeBlock getHashTable
  rw [if_neg hrange]
  cases hbh : s.dev.bh z with
  | none =>
      dsimp only [Option.map_none]
      rw [hfree]
      exact ⟨_, rfl, hspec⟩
  | some bh =>
      dsimp only [Option.map_some]
      rw [hunheld bh hbh, if_neg (not_not.mpr (Nat.zero_add 1)), hfree]
      exact ⟨_, rfl, hspec⟩

/-! ## Every run -/

theorem step_covers {a : Act} (h : Covers s.sb d) (hok : Proper s a)
    (hs : step s a = some s') : Covers s'.sb d := by
  cases a with
  | others dev =>
      obtain rfl := Option.some.inj hs
      exact h
  | newBlock r =>
      obtain ⟨s₁, ret, hnew, hcovers, -⟩ := newBlock_spec h r hok
      dsimp only [step] at hs
      rw [hnew] at hs
      obtain rfl := Option.some.inj hs
      exact hcovers
  | freeBlock block =>
      obtain ⟨hz, halloc, hunheld⟩ := hok
      obtain ⟨s₁, hfree, hcovers, -⟩ := freeBlock_spec h hz halloc hunheld
      dsimp only [step] at hs
      rw [hfree] at hs
      obtain rfl := Option.some.inj hs
      exact hcovers

/-- A device with a loaded super block, after any number of calls of `new_block` and
`free_block`, the latter on allocated zones, with anything done to the buffers in
between as long as nobody holds those that the calls meet. A call of `new_block` comes
to its end, takes a zone that was free and zeroes its buffer, and fails exactly when all
zones are allocated; `free_block` frees its zone and nothing else. -/
theorem zone_allocation {bread : Nat → Option (Nat → BitVec 32)} {sb : SuperBlock} {dev : Device}
    (hload : readSuper d bread = some sb) (hboot : 0 < d.s_firstdatazone)
    (hmaps : d.s_zmap_blocks ≤ Z_MAP_SLOTS)
    (hzones : d.s_nzones < 8192 * d.s_zmap_blocks + d.s_firstdatazone)
    (h : Reach step Proper ⟨sb, dev⟩ s) :
    (∀ r, (∀ z, s.sb.InRange z → s.Unheld z) →
      ∃ s' ret, newBlock s r = .ok (s', ret) ∧
        (ret ≠ 0 → Takes s.sb ret s'.sb ∧ s'.dev.bh ret = some ⟨zeroes, true, true, 0⟩) ∧
        (ret = 0 ↔ ∀ z, s.sb.InRange z → s.sb.allocated z = true) ∧
        ∀ z, s.sb.InRange z → z ≠ ret → s'.sb.allocated z = s.sb.allocated z) ∧
      ∀ z, s.sb.InRange z → s.sb.allocated z = true → s.Unheld z →
        ∃ s', freeBlock s z = .ok s' ∧ Frees s.sb z s'.sb := by
  obtain ⟨hfields, hbit0, hslots⟩ := readSuper_zmap hload
  have hcovers : Covers s.sb d := h.invariant (I := fun s => Covers s.sb d)
    ⟨hfields, hbit0, hslots, hboot, hmaps, hzones⟩ fun _ _ _ hi hok hs => step_covers hi hok hs
  refine ⟨fun r hunheld => ?_, fun z hz halloc hunheld => ?_⟩
  · obtain ⟨s', ret, hnew, -, ⟨hne, htake, hbuffer⟩ | ⟨hzero, hfull⟩⟩ :=
      newBlock_spec hcovers r hunheld
    · refine ⟨s', ret, hnew, fun _ => ⟨htake, hbuffer⟩, ⟨fun h0 => absurd h0 hne, ?_⟩,
        htake.others⟩
      intro hall
      exact absurd ((hall ret htake.inRange).symm.trans htake.free) Bool.true_eq_false.mp
    · exact ⟨s', ret, hnew, fun hne => absurd hzero hne, ⟨fun _ => hfull.all, fun _ => hzero⟩,
        fun z hz _ => hfull.same z hz⟩
  · obtain ⟨s', hfree, -, hspec⟩ := freeBlock_spec hcovers hz halloc hunheld
    exact ⟨s', hfree, hspec⟩

/-! ## A small device -/

section Floppy

def floppy : DSuperBlock := ⟨32, 8, 1, 1, 5, SUPER_MAGIC⟩

def blank : Device := ⟨fun _ => none, fun _ => zeroes⟩

theorem zone_allocation_floppy : ∃ (s s' : Fs) (ret : Nat),
    readSuper floppy (fun _ => some fun _ => 0) = some s.sb ∧
      newBlock s ⟨false, 0, zeroes⟩ = .ok (s', ret) ∧ ret ≠ 0 ∧ Takes s.sb ret s'.sb := by
  have hload : (readSuper floppy fun _ => some fun _ => 0).isSome = true := rfl
  obtain ⟨sb, hsb⟩ := Option.isSome_iff_exists.mp hload
  have hd := (readSuper_zmap hsb).1
  have hstart : Reach step Proper ⟨sb, blank⟩ ⟨sb, blank⟩ := .start
  obtain ⟨s', ret, hnew, hzone, hfull, -⟩ := (zone_allocation hsb (by decide) (by decide)
    (by decide) hstart).1 ⟨false, 0, zeroes⟩ fun _ _ _ hbh => nomatch hbh
  have hfree : sb.allocated 5 = false := by
    obtain rfl := Option.some.inj hsb
    decide
  have hret : ret ≠ 0 := by
    intro hzero
    have hall := hfull.mp hzero 5 (by rw [InRange, hd]; decide)
    exact absurd (hfree.symm.trans hall) Bool.false_ne_true
  exact ⟨⟨sb, blank⟩, s', ret, hsb, hnew, hret, (hzone hret).1⟩

end Floppy

end Zones

end Linux011
