import Linux011.Buffer
import Linux011.ZoneMap

/-!
# The references of `free_block`

`free_block` of `fs/bitmap.c` over the buffer heads of `fs/buffer.c`, with `get_hash_table` and
`brelse` run by one task: a wait for a locked buffer ends with the buffer unlocked and with
whatever the interrupt has found, and nobody gives a buffer that is held to another block.

The way out for a buffer that is in use keeps the reference that `get_hash_table` has taken
(`free_block_balanced`).

A call has four ways through the source: the zone has no buffer, its buffer is free, somebody
holds it, or the block is no zone at all. For a zone in range each of the others is followed to
its end (`freeBlock_absent`, `freeBlock_cached`, `freeBlock_held`) with the reference that
`get_hash_table` has taken: `brelse` gives it back where the buffer was free, and the way out for
a buffer in use does not. What the call does to the map is `freeZone`, whose panic for a zone
that is free already is the other half of the condition. A wait for a lock changes the flags of
the buffer and nothing that is counted.
-/

namespace Linux011

open Function Super SuperBlock

namespace FreeBlock

/-- The super block of the device and the buffer heads. -/
structure State (n : Nat) where
  sb : SuperBlock
  cache : Buffers n

/-- What an interrupt leaves in a buffer that was locked. -/
structure Wake where
  b_uptodate : Bool
  b_dirt : Bool

variable {n : Nat}

def waitOnBuffer (w : Wake) (s : Buffers n) (bh : Fin n) : Buffers n :=
  if s.b_lock bh then { s with
    b_uptodate := update s.b_uptodate bh w.b_uptodate
    b_dirt := update s.b_dirt bh w.b_dirt
    b_lock := update s.b_lock bh false }
  else s

/-- The test behind the wait succeeds: a buffer that is held keeps its block. -/
def getHashTable (w : Wake) (s : Buffers n) (dev : UInt16) (block : UInt32) :
    Buffers n × Option (Fin n) :=
  match s.findBuffer dev block with
  | none => (s, none)
  | some bh =>
    (waitOnBuffer w { s with b_count := update s.b_count bh (s.b_count bh + 1) } bh, some bh)

/-- `brelse` of a buffer that is not locked. -/
def brelse (s : Buffers n) (bh : Fin n) : Except String (Buffers n) :=
  if s.b_count bh = 0 then .error "Trying to free free buffer"
  else .ok { s with b_count := update s.b_count bh (s.b_count bh - 1) }

/-- `free_block` on a device that has a super block. -/
def freeBlock (w : Wake) (dev : UInt16) (s : State n) (block : Nat) : Except String (State n) :=
  if block < s.sb.s_firstdatazone ∨ block ≥ s.sb.s_nzones then
    .error "trying to free block not in datazone"
  else
    match getHashTable w s.cache dev (.ofNat block) with
    | (cache, none) => (freeZone s.sb block).map fun sb => ⟨sb, cache⟩
    | (cache, some bh) =>
      if cache.b_count bh ≠ 1 then .ok { s with cache := cache }
      else do
        let cache ← brelse { cache with
          b_dirt := update cache.b_dirt bh false
          b_uptodate := update cache.b_uptodate bh false } bh
        (freeZone s.sb block).map fun sb => ⟨sb, cache⟩

/-! ## Balance -/

/-- Nobody holds the buffer of the zone, if it has one. -/
def Unheld (dev : UInt16) (s : State n) (z : Nat) : Prop :=
  ∀ bh ∈ s.cache.findBuffer dev (.ofNat z), s.cache.b_count bh = 0

/-- The bit of zone `z` is clear afterwards, and no other bit of the map has changed. -/
def Clears (sb : SuperBlock) (z : Nat) (sb' : SuperBlock) : Prop :=
  ∀ g, used sb'.s_zmap g = if g = z + 1 - sb.s_firstdatazone then false else used sb.s_zmap g

/-- The call returns with the counts as they were, and has cleared the bit of the zone, or has
given up because the buffer is in use. -/
def Balanced (w : Wake) (dev : UInt16) (s : State n) (z : Nat) : Prop :=
  ∃ s', freeBlock w dev s z = .ok s' ∧ s'.cache.b_count = s.cache.b_count ∧
    (Clears s.sb z s'.sb ∨ ¬ Unheld dev s z ∧ s'.sb = s.sb)

variable {s : State n} {d : DSuperBlock} {z : Nat}

theorem getHashTable_found (w : Wake) {s : Buffers n} {dev : UInt16} {block : UInt32} {bh : Fin n}
    (hfind : s.findBuffer dev block = some bh) :
    ∃ cache, getHashTable w s dev block = (cache, some bh) ∧
      cache.b_count = update s.b_count bh (s.b_count bh + 1) := by
  unfold getHashTable waitOnBuffer
  rw [hfind]
  refine ⟨_, rfl, ?_⟩
  split <;> rfl

theorem succ_eq_one {a : UInt8} : a + 1 = 1 ↔ a = 0 := by
  rw [← UInt8.toNat_inj, ← UInt8.toNat_inj, UInt8.toNat_add]
  have hlt := a.toNat_lt
  change (_ + 1) % 256 = 1 ↔ _ = 0
  omega

theorem succ_ne_self (a : UInt8) : a + 1 ≠ a := by
  rw [ne_eq, ← UInt8.toNat_inj, UInt8.toNat_add]
  have hlt := a.toNat_lt
  change (_ + 1) % 256 ≠ _
  omega

theorem InRange.not_outside {sb : SuperBlock} (hz : sb.InRange z) :
    ¬ (z < sb.s_firstdatazone ∨ z ≥ sb.s_nzones) :=
  not_or.mpr ⟨Nat.not_lt_of_le hz.1, Nat.not_le_of_lt hz.2⟩

/-- An allocated zone has its bit cleared, and a free one is a panic. -/
theorem freeZone_cases (h : Covers s.sb d) (hz : s.sb.InRange z) :
    if s.sb.allocated z then ∃ sb, freeZone s.sb z = .ok sb ∧ Clears s.sb z sb
    else freeZone s.sb z = .error "free_block: bit already cleared" := by
  obtain ⟨bh, hslot⟩ := h.slot hz
  have halloc : s.sb.allocated z
      = Bitmap.bit bh.b_data ((z + 1 - s.sb.s_firstdatazone) % 8192) := by
    rw [allocated, used, hslot]
  unfold freeZone
  dsimp only
  rw [hslot, halloc]
  dsimp only
  cases Bitmap.bit bh.b_data ((z + 1 - s.sb.s_firstdatazone) % 8192) with
  | false => rfl
  | true => exact ⟨_, rfl, used_clearBit hslot⟩

theorem freeBlock_absent (w : Wake) (dev : UInt16) (hz : s.sb.InRange z)
    (hfind : s.cache.findBuffer dev (.ofNat z) = none) :
    freeBlock w dev s z = (freeZone s.sb z).map fun sb => ⟨sb, s.cache⟩ := by
  unfold freeBlock getHashTable
  rw [if_neg (InRange.not_outside hz), hfind]

/-- The buffer is in the cache and nobody holds it. -/
theorem freeBlock_cached (w : Wake) (dev : UInt16) (hz : s.sb.InRange z) {bh : Fin n}
    (hfind : s.cache.findBuffer dev (.ofNat z) = some bh) (hzero : s.cache.b_count bh = 0) :
    ∃ cache : Buffers n, cache.b_count = s.cache.b_count ∧
      freeBlock w dev s z = (freeZone s.sb z).map fun sb => ⟨sb, cache⟩ := by
  obtain ⟨cache, hget, hcount⟩ := getHashTable_found w hfind
  have hone : cache.b_count bh = 1 := by
    rw [hcount, update_self, succ_eq_one.mpr hzero]
  have hback : update cache.b_count bh (cache.b_count bh - 1) = s.cache.b_count := by
    rw [hone, hcount, update_idem, show (1 : UInt8) - 1 = 0 from rfl, ← hzero, update_eq_self]
  unfold freeBlock
  rw [if_neg (InRange.not_outside hz), hget]
  dsimp only
  rw [if_neg (not_not.mpr hone), brelse, if_neg (by dsimp only; rw [hone]; decide)]
  exact ⟨_, hback, rfl⟩

theorem freeBlock_held (w : Wake) (dev : UInt16) (hz : s.sb.InRange z) {bh : Fin n}
    (hfind : s.cache.findBuffer dev (.ofNat z) = some bh) (hheld : s.cache.b_count bh ≠ 0) :
    ∃ s', freeBlock w dev s z = .ok s' ∧
      s'.cache.b_count = update s.cache.b_count bh (s.cache.b_count bh + 1) := by
  obtain ⟨cache, hget, hcount⟩ := getHashTable_found w hfind
  have hmany : cache.b_count bh ≠ 1 := by
    rw [hcount, update_self]
    exact fun h => hheld (succ_eq_one.mp h)
  unfold freeBlock
  rw [if_neg (InRange.not_outside hz), hget]
  dsimp only
  rw [if_pos hmany]
  exact ⟨_, rfl, hcount⟩

/-- The end of the call: it is balanced exactly if the zone was allocated. -/
theorem balanced_of_freeZone (w : Wake) (dev : UInt16) (h : Covers s.sb d)
    (hz : s.sb.InRange z) {cache : Buffers n} (hcount : cache.b_count = s.cache.b_count)
    (hcall : freeBlock w dev s z = (freeZone s.sb z).map fun sb => ⟨sb, cache⟩) :
    Balanced w dev s z ↔ s.sb.allocated z = true := by
  have hfree := freeZone_cases h hz
  unfold Balanced
  rw [hcall]
  split at hfree
  · rename_i halloc
    obtain ⟨sb, hok, hclears⟩ := hfree
    rw [hok]
    exact ⟨fun _ => halloc, fun _ => ⟨_, rfl, hcount, .inl hclears⟩⟩
  · rename_i halloc
    rw [hfree]
    constructor
    · rintro ⟨s', hok, -⟩
      cases hok
    · exact fun h => absurd h halloc

/-- A call is balanced exactly for an allocated zone whose buffer nobody holds, for
every state of the buffers, every zone of the device and whatever an interrupt leaves in
a locked buffer: a free zone is a panic, and a buffer in use keeps a reference for good.
-/
theorem free_block_balanced (w : Wake) (dev : UInt16) (h : Covers s.sb d) (hz : s.sb.InRange z) :
    Balanced w dev s z ↔ Unheld dev s z ∧ s.sb.allocated z = true := by
  cases hfind : s.cache.findBuffer dev (.ofNat z) with
  | none =>
      have hunheld : Unheld dev s z := fun bh hbh => nomatch hfind.symm.trans hbh
      rw [balanced_of_freeZone w dev h hz rfl (freeBlock_absent w dev hz hfind),
        and_iff_right hunheld]
  | some bh =>
      have hunheld : Unheld dev s z ↔ s.cache.b_count bh = 0 := by
        constructor
        · exact fun hall => hall bh hfind
        · intro hzero bh' hbh'
          obtain rfl := Option.some.inj (hfind.symm.trans hbh')
          exact hzero
      rw [hunheld]
      by_cases hzero : s.cache.b_count bh = 0
      · obtain ⟨cache, hcount, hcall⟩ := freeBlock_cached w dev hz hfind hzero
        rw [balanced_of_freeZone w dev h hz hcount hcall, and_iff_right hzero]
      · obtain ⟨s', hcall, hcount⟩ := freeBlock_held w dev hz hfind hzero
        constructor
        · rintro ⟨s₁, hcall₁, hcount₁, -⟩
          obtain rfl := Except.ok.inj (hcall.symm.trans hcall₁)
          have hsame := congrFun (hcount.symm.trans hcount₁) bh
          rw [update_self] at hsame
          exact absurd hsame (succ_ne_self _)
        · exact fun h => absurd h.1 hzero

/-! ## One buffer -/

section Held

def small : DSuperBlock := ⟨32, 8, 1, 1, 5, SUPER_MAGIC⟩

/-- A super block whose zones are all allocated. -/
def full : SuperBlock where
  toDSuperBlock := small
  s_imap := fun _ => none
  s_zmap := fun i => if i < 1 then some ⟨fun _ => BitVec.allOnes 32, false⟩ else none

/-- The only buffer has zone 5, and `count` users. -/
def cached (count : UInt8) : Buffers 1 where
  b_blocknr _ := 5
  b_dev _ := 0x301
  b_uptodate _ := true
  b_dirt _ := false
  b_count _ := count
  b_lock _ := false
  b_prev _ := none
  b_next _ := none
  b_prev_free _ := some ⟨0, Nat.zero_lt_one⟩
  b_next_free _ := some ⟨0, Nat.zero_lt_one⟩
  hash_table _ := some ⟨0, Nat.zero_lt_one⟩
  free_list := ⟨0, Nat.zero_lt_one⟩

theorem full_covers : Covers full small where
  fields := rfl
  bit0 := by decide
  slots := fun i => by
    show (ite (i < 1) _ _ : Option MapBuffer).isSome = decide (i < 1)
    split
    · rename_i h
      exact (decide_eq_true h).symm
    · rename_i h
      exact (decide_eq_false h).symm
  boot := by decide
  maps := by decide
  zones := by decide

theorem full_inRange : full.InRange 5 := ⟨by decide, by decide⟩

theorem free_block_balanced_unheld :
    Balanced ⟨true, false⟩ 0x301 ⟨full, cached 0⟩ 5 :=
  (free_block_balanced ⟨true, false⟩ 0x301 full_covers full_inRange).mpr
    ⟨fun _ _ => rfl, by decide⟩

/-- The buffer has a user, and the call leaves it with two. -/
theorem not_free_block_balanced :
    Covers full small ∧ full.InRange 5 ∧ full.allocated 5 = true ∧
      ¬ Balanced ⟨true, false⟩ 0x301 ⟨full, cached 1⟩ 5 := by
  refine ⟨full_covers, full_inRange, by decide, ?_⟩
  rintro ⟨s', hcall, hcount, -⟩
  have hcalled : ((freeBlock ⟨true, false⟩ 0x301 ⟨full, cached 1⟩ 5).toOption.map
      fun s => s.cache.b_count 0) = some 2 := by decide
  rw [hcall] at hcalled
  have htwo : s'.cache.b_count 0 = 2 := Option.some.inj hcalled
  rw [hcount] at htwo
  exact absurd htwo (by decide)

end Held

end FreeBlock

end Linux011
