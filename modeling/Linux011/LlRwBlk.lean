import Linux011.Buffer

/-!
# Requests to block devices

`kernel/blk_drv/ll_rw_blk.c`: buffers with their data, the queues of requests and the
contents of the devices. `Move` is everything the kernel does to them that is not a write
to a block it has to leave alone: any task and any interrupt, one critical section each.
`Holds` says of a block that every way to read it leads to one content, and `Holds.move`
that no move changes this.

The data model has three places in which a block can be, a buffer, a request that is under way
and the device, and `Holds` is the invariant over all three: the buffer has the content when it
is up to date, dirty or being written, the device has it when nobody is about to write it, and no
read is under way while the buffer is dirty. `Move` has one constructor for each critical section
of the kernel, with the guards of the source and those of the run, and `Holds.move` is one lemma
for each of them. What ties a request to its buffer is `Locked`: a head with a request, or one
for which `make_request` waits, is locked and keeps its block, so that two requests for the same
head cannot meet. The proof that a read that ends fills the buffer with the content of its own
block goes through this.
-/

namespace Linux011

open Function DoubleLinks Buffers

def NR_BLK_DEV : Nat := 7
def NR_REQUEST : Nat := 32
def BLOCK_SIZE : Nat := 1024

/-- The bytes of a block; those from `BLOCK_SIZE` on are not used. -/
abbrev Block := Nat → UInt8

inductive Rw where
  | read
  | write
deriving DecidableEq

/-- A request with the number of its slot in `request`. -/
structure Request (n : Nat) where
  slot : Nat
  dev : UInt16
  cmd : Rw
  sector : UInt32
  bh : Fin n

/-- Buffers, queues and devices. -/
structure Blocks (n : Nat) where
  cache : Buffers n
  b_data : Fin n → Block
  /-- the two sectors from the given one on, which is even -/
  disk : UInt16 → UInt32 → Block
  /-- the requests that follow `current_request`, for each major number -/
  current_request : Nat → List (Request n)
  /-- the task in `make_request` that has locked the head has no request yet -/
  making : Fin n → Option (Nat × Rw)

def major (dev : UInt16) : Nat := dev.toNat / 256

/-- The drivers are those of the ram disk, the floppies and the hard disks. -/
def hasDriver (dev : UInt16) : Bool := 1 ≤ major dev && major dev ≤ 3

def sectorOf (block : UInt32) : UInt32 := block <<< 1

namespace Blocks

variable {n : Nat}

/-! ## The code -/

def inOrder (s₁ s₂ : Request n) : Bool :=
  (s₁.cmd = .read && s₂.cmd = .write) ||
    (s₁.cmd = s₂.cmd && (s₁.dev < s₂.dev || (s₁.dev = s₂.dev && s₁.sector < s₂.sector)))

/-- The elevator, behind the request that is being served. -/
def insertRequest (req : Request n) : List (Request n) → List (Request n)
  | [] => [req]
  | [tmp] => [tmp, req]
  | tmp :: next :: rest =>
      if (inOrder tmp req || !inOrder tmp next) && inOrder req next then
        tmp :: req :: next :: rest
      else tmp :: insertRequest req (next :: rest)

def slotUsed (s : Blocks n) (slot : Nat) : Bool :=
  (List.range NR_BLK_DEV).any fun m => (s.current_request m).any fun r => r.slot == slot

/-- The last free slot; writes leave the last third to the reads. -/
def freeSlot (s : Blocks n) (rw : Rw) : Option Nat :=
  let limit := match rw with
    | .read => NR_REQUEST
    | .write => NR_REQUEST * 2 / 3
  (List.range limit).reverse.find? fun slot => !s.slotUsed slot

/-- `make_request` up to the search for a slot; it waits for the lock of the head. -/
def lockRequest (s : Blocks n) (major : Nat) (rw : Rw) (bh : Fin n) : Option (Blocks n) :=
  if s.cache.b_lock bh then none
  else if (rw = .write ∧ s.cache.b_dirt bh = false) ∨ (rw = .read ∧ s.cache.b_uptodate bh) then
    some s
  else
    some { s with
      cache := { s.cache with b_lock := update s.cache.b_lock bh true }
      making := update s.making bh (some (major, rw)) }

/-- The rest of `make_request`, with `add_request`; it waits for a free slot. -/
def fillRequest (s : Blocks n) (bh : Fin n) : Option (Blocks n) := do
  let (major, rw) ← s.making bh
  let slot ← s.freeSlot rw
  let req : Request n := ⟨slot, s.cache.b_dev bh, rw, sectorOf (s.cache.b_blocknr bh), bh⟩
  some { s with
    cache := { s.cache with b_dirt := update s.cache.b_dirt bh false }
    current_request := update s.current_request major
      (insertRequest req (s.current_request major))
    making := update s.making bh none }

/-- `ll_rw_block(READA, bh)`, which does not wait. -/
def readAhead (s : Blocks n) (bh : Fin n) : Blocks n :=
  if hasDriver (s.cache.b_dev bh) then
    match s.lockRequest (major (s.cache.b_dev bh)) .read bh with
    | some s' => (s'.fillRequest bh).getD s
    | none => s
  else s

/-- The driver serves the current request and ends it; it panics when the request is for
another driver or its buffer is not locked. -/
def serveRequest (s : Blocks n) (m : Nat) (uptodate : Bool) : Option (Blocks n) :=
  match s.current_request m with
  | [] => none
  | r :: rest =>
      if major r.dev ≠ m ∨ s.cache.b_lock r.bh = false then none
      else
        some { s with
          cache := { s.cache with
            b_uptodate := update s.cache.b_uptodate r.bh uptodate
            b_lock := update s.cache.b_lock r.bh false }
          b_data := if uptodate ∧ r.cmd = .read then
            update s.b_data r.bh (s.disk r.dev r.sector) else s.b_data
          disk := if uptodate ∧ r.cmd = .write then
            update s.disk r.dev (update (s.disk r.dev) r.sector (s.b_data r.bh)) else s.disk
          current_request := update s.current_request m rest }

/-! ## Requests and locks -/

theorem insertRequest_perm (req : Request n) (l : List (Request n)) :
    (insertRequest req l).Perm (req :: l) := by
  induction l with
  | nil => exact .rfl
  | cons tmp l ih =>
      cases l with
      | nil => exact .swap ..
      | cons next rest =>
          rw [insertRequest]
          split
          · exact .swap ..
          · exact (ih.cons tmp).trans (.swap ..)

/-- Locks and requests belong together: a head that `make_request` has locked waits for a
slot or is in one request, which is for the block of the head. -/
structure Locked (s : Blocks n) : Prop where
  making : ∀ bh, s.making bh ≠ none → s.cache.b_lock bh = true
  lock : ∀ m, ∀ r ∈ s.current_request m, s.cache.b_lock r.bh = true ∧ s.making r.bh = none
  tags : ∀ m, ∀ r ∈ s.current_request m,
    r.dev = s.cache.b_dev r.bh ∧ r.sector = sectorOf (s.cache.b_blocknr r.bh)
  nodup : ∀ m, ((s.current_request m).map (·.bh)).Nodup
  apart : ∀ m m' r r', r ∈ s.current_request m → r' ∈ s.current_request m' → r.bh = r'.bh → m = m'

structure Sound (s : Blocks n) : Prop where
  cache : s.cache.Consistent
  blocks : ∀ bh, s.cache.b_dev bh ≠ 0 → (s.cache.b_blocknr bh).toNat < 0x80000000
  locked : s.Locked

/-- What the kernel may do while the blocks in `P` are not written: these are not changed in
memory, their requests do not fail, and none is read over a dirty buffer. -/
inductive Move (P : UInt16 → UInt32 → Prop) : Blocks n → Blocks n → Prop where
  | count (s : Blocks n) (b_count : Fin n → UInt8) :
      Move P s { s with cache := { s.cache with b_count := b_count } }
  | take {s : Blocks n} {c : Buffers n} {dev : UInt16} {block : UInt32} {bh : Fin n}
      (hlock : s.cache.b_lock bh = false) (hcount : s.cache.b_count bh = 0)
      (hdirt : s.cache.b_dirt bh = false) (hblock : block.toNat < 0x80000000)
      (hfind : s.cache.findBuffer dev block = none)
      (htake : s.cache.take dev block bh = some c) : Move P s { s with cache := c }
  | lockRequest {s s' : Blocks n} {m : Nat} {rw : Rw} {bh : Fin n}
      (hread : rw = .read → P (s.cache.b_dev bh) (s.cache.b_blocknr bh) →
        s.cache.b_uptodate bh = true ∨ s.cache.b_dirt bh = false)
      (h : s.lockRequest m rw bh = some s') : Move P s s'
  | fillRequest {s s' : Blocks n} {bh : Fin n} (h : s.fillRequest bh = some s') : Move P s s'
  | serveRequest {s s' : Blocks n} {m : Nat} {uptodate : Bool}
      (hok : ∀ r ∈ (s.current_request m).head?,
        P (s.cache.b_dev r.bh) (s.cache.b_blocknr r.bh) → uptodate = true)
      (h : s.serveRequest m uptodate = some s') : Move P s s'
  | touch (s : Blocks n) {bh : Fin n} (data : Block) (uptodate dirt : Bool)
      (hbh : ¬ P (s.cache.b_dev bh) (s.cache.b_blocknr bh)) :
      Move P s { s with
        cache := { s.cache with
          b_uptodate := update s.cache.b_uptodate bh uptodate
          b_dirt := update s.cache.b_dirt bh dirt }
        b_data := update s.b_data bh data }

variable {P : UInt16 → UInt32 → Prop} {s s' : Blocks n} {bh : Fin n} {m : Nat} {rw : Rw}
  {uptodate : Bool}

theorem lockRequest_cases (h : s.lockRequest m rw bh = some s') :
    (s' = s ∧ (rw = .read → s.cache.b_uptodate bh = true)) ∨
      (s.cache.b_lock bh = false ∧ (rw = .write → s.cache.b_dirt bh = true) ∧
      (rw = .read → s.cache.b_uptodate bh = false) ∧
      s' = { s with
        cache := { s.cache with b_lock := update s.cache.b_lock bh true }
        making := update s.making bh (some (m, rw)) }) := by
  unfold lockRequest at h
  split at h
  · cases h
  · next hlock =>
    split at h
    · next htest =>
      refine Or.inl ⟨(Option.some.inj h).symm, ?_⟩
      rintro rfl
      rcases htest with ⟨hw, -⟩ | ⟨-, hup⟩
      · cases hw
      · exact hup
    · next htest =>
      obtain rfl := Option.some.inj h
      rw [not_or, not_and, not_and] at htest
      exact Or.inr ⟨by simpa using hlock, fun hw => by simpa using htest.1 hw,
        fun hr => by simpa using htest.2 hr, rfl⟩

theorem fillRequest_cases (h : s.fillRequest bh = some s') :
    ∃ m rw slot, s.making bh = some (m, rw) ∧
      s' = { s with
        cache := { s.cache with b_dirt := update s.cache.b_dirt bh false }
        current_request := update s.current_request m (insertRequest
          ⟨slot, s.cache.b_dev bh, rw, sectorOf (s.cache.b_blocknr bh), bh⟩ (s.current_request m))
        making := update s.making bh none } := by
  obtain ⟨⟨m, rw⟩, hm, h⟩ := Option.bind_eq_some_iff.mp h
  obtain ⟨slot, -, h⟩ := Option.bind_eq_some_iff.mp h
  exact ⟨m, rw, slot, hm, (Option.some.inj h).symm⟩

theorem serveRequest_cases (h : s.serveRequest m uptodate = some s') :
    ∃ r rest, s.current_request m = r :: rest ∧
      s' = { s with
        cache := { s.cache with
          b_uptodate := update s.cache.b_uptodate r.bh uptodate
          b_lock := update s.cache.b_lock r.bh false }
        b_data := if uptodate ∧ r.cmd = .read then
          update s.b_data r.bh (s.disk r.dev r.sector) else s.b_data
        disk := if uptodate ∧ r.cmd = .write then
          update s.disk r.dev (update (s.disk r.dev) r.sector (s.b_data r.bh)) else s.disk
        current_request := update s.current_request m rest } := by
  unfold serveRequest at h
  split at h
  · cases h
  · next r rest hq =>
    split at h
    · cases h
    · exact ⟨r, rest, hq, (Option.some.inj h).symm⟩

theorem Locked.not_locked (h : s.Locked) (hlock : s.cache.b_lock bh = false) :
    s.making bh = none ∧ ∀ m, ∀ r ∈ s.current_request m, r.bh ≠ bh := by
  constructor
  · by_contra hm
    rw [h.making bh hm] at hlock
    cases hlock
  · rintro m r hr rfl
    rw [(h.lock m r hr).1] at hlock
    cases hlock

theorem Locked.lockRequest (h : s.Locked) (hlock : s.cache.b_lock bh = false) :
    Locked { s with
      cache := { s.cache with b_lock := update s.cache.b_lock bh true }
      making := update s.making bh (some (m, rw)) } := by
  have hfree := (h.not_locked hlock).2
  refine ⟨?_, ?_, h.tags, h.nodup, h.apart⟩
  · intro b hb
    by_cases hbb : b = bh
    · subst hbb
      exact update_self ..
    · dsimp only at hb ⊢
      rw [update_of_ne hbb] at hb ⊢
      exact h.making b hb
  · intro m' r hr
    have hne := hfree m' r hr
    dsimp only
    rw [update_of_ne hne, update_of_ne hne]
    exact h.lock m' r hr

theorem Locked.fillRequest (h : s.Locked) (hs : s.fillRequest bh = some s') : s'.Locked := by
  obtain ⟨m, rw, slot, hm, rfl⟩ := fillRequest_cases hs
  have hlock : s.cache.b_lock bh = true := h.making bh (by rw [hm]; exact nofun)
  have hfree : ∀ m', ∀ r ∈ s.current_request m', r.bh ≠ bh := by
    rintro m' r hr rfl
    rw [(h.lock m' r hr).2] at hm
    cases hm
  generalize hreq : (⟨slot, s.cache.b_dev bh, rw, sectorOf (s.cache.b_blocknr bh), bh⟩ :
    Request n) = req
  have hbh : req.bh = bh := by rw [← hreq]
  -- a request of the new queues is the new one or an old one
  have hmem : ∀ m' r, r ∈ update s.current_request m (insertRequest req (s.current_request m)) m' →
      r = req ∧ m' = m ∨ r ∈ s.current_request m' := by
    intro m' r hr
    by_cases hmm : m' = m
    · subst hmm
      rw [update_self, (insertRequest_perm req _).mem_iff, List.mem_cons] at hr
      exact hr.imp_left fun h => ⟨h, rfl⟩
    · rw [update_of_ne hmm] at hr
      exact Or.inr hr
  refine ⟨?_, ?_, ?_, ?_, ?_⟩
  · intro b hb
    have hbb : b ≠ bh := by
      rintro rfl
      exact hb (update_self ..)
    dsimp only at hb
    rw [update_of_ne hbb] at hb
    exact h.making b hb
  · intro m' r hr
    rcases hmem m' r hr with ⟨rfl, -⟩ | hr
    · dsimp only
      rw [hbh, update_self]
      exact ⟨hlock, rfl⟩
    · dsimp only
      rw [update_of_ne (hfree m' r hr)]
      exact h.lock m' r hr
  · intro m' r hr
    rcases hmem m' r hr with ⟨rfl, -⟩ | hr
    · rw [← hreq]
      exact ⟨rfl, rfl⟩
    · exact h.tags m' r hr
  · intro m'
    by_cases hmm : m' = m
    · subst hmm
      dsimp only
      rw [update_self, ((insertRequest_perm req _).map _).nodup_iff, List.map_cons,
        List.nodup_cons]
      refine ⟨fun hin => ?_, h.nodup m'⟩
      obtain ⟨r, hr, heq⟩ := List.mem_map.mp hin
      exact hfree m' r hr (heq.trans hbh)
    · dsimp only
      rw [update_of_ne hmm]
      exact h.nodup m'
  · intro m₁ m₂ r₁ r₂ h₁ h₂ heq
    rcases hmem m₁ r₁ h₁ with ⟨hr₁, hm₁⟩ | hold₁
    · rcases hmem m₂ r₂ h₂ with ⟨-, hm₂⟩ | hold₂
      · rw [hm₁, hm₂]
      · rw [hr₁, hbh] at heq
        exact (hfree m₂ r₂ hold₂ heq.symm).elim
    · rcases hmem m₂ r₂ h₂ with ⟨hr₂, -⟩ | hold₂
      · rw [hr₂, hbh] at heq
        exact (hfree m₁ r₁ hold₁ heq).elim
      · exact h.apart m₁ m₂ r₁ r₂ hold₁ hold₂ heq

/-- The request that is being served is the only one for its head. -/
theorem Locked.only (h : s.Locked) {r : Request n} {rest : List (Request n)}
    (hq : s.current_request m = r :: rest) {m' : Nat} {r' : Request n}
    (hr' : r' ∈ update s.current_request m rest m') :
    r' ∈ s.current_request m' ∧ r'.bh ≠ r.bh := by
  have hr : r ∈ s.current_request m := by rw [hq]; exact List.mem_cons_self ..
  by_cases hmm : m' = m
  · subst hmm
    rw [update_self] at hr'
    have hnd := h.nodup m'
    rw [hq, List.map_cons, List.nodup_cons] at hnd
    refine ⟨by rw [hq]; exact List.mem_cons_of_mem _ hr', fun heq => hnd.1 ?_⟩
    exact List.mem_map.mpr ⟨r', hr', heq⟩
  · rw [update_of_ne hmm] at hr'
    exact ⟨hr', fun heq => hmm (h.apart m' m r' r hr' hr heq)⟩

theorem Locked.serveRequest (h : s.Locked) (hs : s.serveRequest m uptodate = some s') :
    s'.Locked := by
  obtain ⟨r, rest, hq, rfl⟩ := serveRequest_cases hs
  have hr : r ∈ s.current_request m := by rw [hq]; exact List.mem_cons_self ..
  refine ⟨?_, ?_, ?_, ?_, ?_⟩
  · intro b hb
    have hbb : b ≠ r.bh := by
      rintro rfl
      exact hb (h.lock m r hr).2
    dsimp only
    rw [update_of_ne hbb]
    exact h.making b hb
  · intro m' r' hr'
    obtain ⟨hold, hne⟩ := h.only hq hr'
    dsimp only
    rw [update_of_ne hne]
    exact h.lock m' r' hold
  · intro m' r' hr'
    exact h.tags m' r' (h.only hq hr').1
  · intro m'
    by_cases hmm : m' = m
    · subst hmm
      have hnd := h.nodup m'
      rw [hq, List.map_cons, List.nodup_cons] at hnd
      dsimp only
      rw [update_self]
      exact hnd.2
    · dsimp only
      rw [update_of_ne hmm]
      exact h.nodup m'
  · intro m₁ m₂ r₁ r₂ h₁ h₂ heq
    exact h.apart m₁ m₂ r₁ r₂ (h.only hq h₁).1 (h.only hq h₂).1 heq

theorem Sound.take (h : s.Sound) {c : Buffers n} {dev : UInt16} {block : UInt32}
    (hlock : s.cache.b_lock bh = false) (hblock : block.toNat < 0x80000000)
    (hfind : s.cache.findBuffer dev block = none) (htake : s.cache.take dev block bh = some c) :
    Sound { s with cache := c } := by
  obtain ⟨c', hc', htaken, hcons⟩ := h.cache.take hfind bh
  obtain rfl := Option.some.inj (htake.symm.trans hc')
  refine ⟨hcons, ?_, ?_, ?_, ?_, h.locked.nodup, h.locked.apart⟩
  · intro b hb
    simp only [htaken.b_dev, htaken.b_blocknr] at hb ⊢
    by_cases hbb : b = bh
    · rw [hbb, update_self]
      exact hblock
    · rw [update_of_ne hbb] at hb ⊢
      exact h.blocks b hb
  · intro b hb
    rw [htaken.b_lock]
    exact h.locked.making b hb
  · intro m r hr
    rw [htaken.b_lock]
    exact h.locked.lock m r hr
  · intro m r hr
    have hne : r.bh ≠ bh := (h.locked.not_locked hlock).2 m r hr
    dsimp only
    rw [htaken.b_dev, htaken.b_blocknr, update_of_ne hne, update_of_ne hne]
    exact h.locked.tags m r hr

theorem Sound.move (h : s.Sound) (hm : Move P s s') : s'.Sound := by
  cases hm with
  | count b_count =>
      obtain ⟨hc, hb, hl⟩ := h
      exact ⟨hc.flags _ _ _ _, hb, hl.making, hl.lock, hl.tags, hl.nodup, hl.apart⟩
  | take hlock _ _ hblock hfind htake => exact h.take hlock hblock hfind htake
  | lockRequest hread hs =>
      rcases lockRequest_cases hs with ⟨rfl, -⟩ | ⟨hlock, -, -, rfl⟩
      · exact h
      · exact ⟨h.cache.flags _ _ _ _, h.blocks, h.locked.lockRequest hlock⟩
  | fillRequest hs =>
      have hl := h.locked.fillRequest hs
      obtain ⟨m, rw, slot, hm, rfl⟩ := fillRequest_cases hs
      exact ⟨h.cache.flags _ _ _ _, h.blocks, hl⟩
  | serveRequest hok hs =>
      have hl := h.locked.serveRequest hs
      obtain ⟨r, rest, hq, rfl⟩ := serveRequest_cases hs
      exact ⟨h.cache.flags _ _ _ _, h.blocks, hl⟩
  | touch data uptodate dirt hbh =>
      obtain ⟨hc, hb, hl⟩ := h
      exact ⟨hc.flags _ _ _ _, hb, hl.making, hl.lock, hl.tags, hl.nodup, hl.apart⟩

theorem Move.tags (hm : Move P s s') (hs : s.Sound) (hcount : s.cache.b_count bh ≠ 0) :
    s'.cache.b_dev bh = s.cache.b_dev bh ∧ s'.cache.b_blocknr bh = s.cache.b_blocknr bh := by
  cases hm with
  | count b_count => exact ⟨rfl, rfl⟩
  | take hlock hzero hdirt hblock hfind htake =>
      rename_i b
      obtain ⟨c', hc', htaken, -⟩ := hs.cache.take hfind b
      obtain rfl := Option.some.inj (htake.symm.trans hc')
      have hne : bh ≠ b := by
        rintro rfl
        exact hcount hzero
      rw [htaken.b_dev, htaken.b_blocknr]
      exact ⟨update_of_ne hne _ _, update_of_ne hne _ _⟩
  | lockRequest hread hl =>
      rcases lockRequest_cases hl with ⟨rfl, -⟩ | ⟨-, -, -, rfl⟩
      · exact ⟨rfl, rfl⟩
      · exact ⟨rfl, rfl⟩
  | fillRequest hf =>
      obtain ⟨m, rw, slot, hm, rfl⟩ := fillRequest_cases hf
      exact ⟨rfl, rfl⟩
  | serveRequest hok hsv =>
      obtain ⟨r, rest, hq, rfl⟩ := serveRequest_cases hsv
      exact ⟨rfl, rfl⟩
  | touch data uptodate dirt hbh => exact ⟨rfl, rfl⟩

/-- Locked or up to date: what a buffer stays once it was asked to be read. -/
def Ready (s : Blocks n) (bh : Fin n) : Prop :=
  s.cache.b_lock bh = true ∨ s.cache.b_uptodate bh = true

theorem Move.ready (hm : Move P s s') (hs : s.Sound) (hcount : s.cache.b_count bh ≠ 0)
    (hP : P (s.cache.b_dev bh) (s.cache.b_blocknr bh)) (h : s.Ready bh) : s'.Ready bh := by
  cases hm with
  | count b_count => exact h
  | take hlock hzero hdirt hblock hfind htake =>
      rename_i b
      obtain ⟨c', hc', htaken, -⟩ := hs.cache.take hfind b
      obtain rfl := Option.some.inj (htake.symm.trans hc')
      have hne : bh ≠ b := by
        rintro rfl
        exact hcount hzero
      rw [Ready, htaken.b_lock, htaken.b_uptodate, update_of_ne hne]
      exact h
  | lockRequest hread hl =>
      rcases lockRequest_cases hl with ⟨rfl, -⟩ | ⟨-, -, -, rfl⟩
      · exact h
      · rename_i rw b
        refine h.imp ?_ id
        intro hlock
        dsimp only
        rw [update_apply]
        split
        · rfl
        · exact hlock
  | fillRequest hf =>
      obtain ⟨m, rw, slot, hm, rfl⟩ := fillRequest_cases hf
      exact h
  | serveRequest hok hsv =>
      obtain ⟨r, rest, hq, rfl⟩ := serveRequest_cases hsv
      by_cases hb : bh = r.bh
      · subst hb
        obtain rfl := hok r (by rw [hq]; rfl) hP
        exact Or.inr (update_self ..)
      · refine h.imp ?_ ?_
        · intro hlock
          exact (update_of_ne hb _ _).trans hlock
        · intro hup
          exact (update_of_ne hb _ _).trans hup
  | touch data uptodate dirt hbh =>
      rename_i b
      refine h.imp id fun hup => ?_
      have hne : bh ≠ b := by
        rintro rfl
        exact hbh hP
      exact (update_of_ne hne _ _).trans hup

/-! ## The content of a block -/

/-- A request to write the buffer to the device is under way. -/
def Writing (s : Blocks n) (bh : Fin n) : Prop :=
  ∃ m, ∃ r ∈ s.current_request m, r.bh = bh ∧ r.cmd = .write

/-- A request to read the buffer is under way, or its task waits for a slot. -/
def Reading (s : Blocks n) (bh : Fin n) : Prop :=
  (∃ m, s.making bh = some (m, .read)) ∨
    ∃ m, ∃ r ∈ s.current_request m, r.bh = bh ∧ r.cmd = .read

/-- The block has the content `v`: in its buffer when that is up to date or to be written,
and on the device when it is not to be written. Nothing reads over a dirty buffer. -/
structure Holds (s : Blocks n) (dev : UInt16) (block : UInt32) (v : Block) : Prop where
  buffer : ∀ bh, s.cache.Carries dev block bh →
    s.cache.b_uptodate bh = true ∨ s.cache.b_dirt bh = true ∨ s.Writing bh → s.b_data bh = v
  disk : (∀ bh, s.cache.Carries dev block bh → s.cache.b_dirt bh = false ∧ ¬ s.Writing bh) →
    s.disk dev (sectorOf block) = v
  reading : ∀ bh, s.cache.Carries dev block bh → s.Reading bh → s.cache.b_dirt bh = false
  making : ∀ bh, s.cache.Carries dev block bh → ∀ m, s.making bh = some (m, .write) →
    s.cache.b_dirt bh = true

theorem sectorOf_inj {a b : UInt32} (ha : a.toNat < 0x80000000) (hb : b.toNat < 0x80000000)
    (h : sectorOf a = sectorOf b) : a = b := by
  have h := congrArg UInt32.toNat h
  simp [sectorOf, UInt32.toNat_shiftLeft, Nat.shiftLeft_eq] at h
  exact UInt32.toNat_inj.mp (by omega)

section Holds

variable {dev dev' : UInt16} {block block' : UInt32} {v : Block} {c : Buffers n}

theorem Sound.unique (h : s.Sound) (hdev : dev ≠ 0) {b b' : Fin n}
    (hb : s.cache.Carries dev block b) (hb' : s.cache.Carries dev block b') : b' = b := by
  obtain ⟨rfl, rfl⟩ := hb
  exact h.cache.unique b b' hdev hb'

theorem Sound.not_writing (h : s.Sound) (hlock : s.cache.b_lock bh = false) : ¬ s.Writing bh := by
  rintro ⟨m, r, hr, hbh, -⟩
  exact (h.locked.not_locked hlock).2 m r hr hbh

theorem Holds.take (h : s.Holds dev block v) (hs : s.Sound)
    (hlock : s.cache.b_lock bh = false) (hdirt : s.cache.b_dirt bh = false)
    (hfind : s.cache.findBuffer dev' block' = none) (htake : s.cache.take dev' block' bh = some c) :
    Holds { s with cache := c } dev block v := by
  obtain ⟨c', hc', htaken, -⟩ := hs.cache.take hfind bh
  obtain rfl := Option.some.inj (htake.symm.trans hc')
  have hwriting : ¬ s.Writing bh := hs.not_writing hlock
  -- a head that carries the block afterwards is `bh` with the new block, or it did before
  have hcarries : ∀ b, c.Carries dev block b →
      (b = bh ∧ dev' = dev ∧ block' = block) ∨ (b ≠ bh ∧ s.cache.Carries dev block b) := by
    rintro b ⟨hd, hb⟩
    rw [htaken.b_dev, update_apply] at hd
    rw [htaken.b_blocknr, update_apply] at hb
    by_cases hbb : b = bh
    · rw [if_pos hbb] at hd hb
      exact Or.inl ⟨hbb, hd, hb⟩
    · rw [if_neg hbb] at hd hb
      exact Or.inr ⟨hbb, hd, hb⟩
  refine ⟨?_, ?_, ?_, ?_⟩
  · intro b hb hfull
    dsimp only at hb hfull
    rw [htaken.b_uptodate, htaken.b_dirt] at hfull
    rcases hcarries b hb with ⟨rfl, -, -⟩ | ⟨hbb, hold⟩
    · rw [update_self, update_self] at hfull
      rcases hfull with hf | hf | hf
      · cases hf
      · cases hf
      · exact (hwriting hf).elim
    · rw [update_of_ne hbb, update_of_ne hbb] at hfull
      exact h.buffer b hold hfull
  · intro hclean
    refine h.disk fun b hb => ?_
    by_cases hbb : b = bh
    · rw [hbb]
      exact ⟨hdirt, hwriting⟩
    · have hb' : c.Carries dev block b := by
        rw [Carries, htaken.b_dev, htaken.b_blocknr, update_of_ne hbb, update_of_ne hbb]
        exact hb
      have hcl := hclean b hb'
      dsimp only at hcl
      rw [htaken.b_dirt, update_of_ne hbb] at hcl
      exact hcl
  · intro b hb hread
    dsimp only
    rw [htaken.b_dirt]
    rcases hcarries b hb with ⟨rfl, -, -⟩ | ⟨hbb, hold⟩
    · exact update_self ..
    · rw [update_of_ne hbb]
      exact h.reading b hold hread
  · intro b hb m hm
    rcases hcarries b hb with ⟨rfl, -, -⟩ | ⟨hbb, hold⟩
    · rw [show s.making b = none from (hs.locked.not_locked hlock).1] at hm
      cases hm
    · dsimp only
      rw [htaken.b_dirt, update_of_ne hbb]
      exact h.making b hold m hm

theorem Holds.lockRequest (h : s.Holds dev block v)
    (hdirt : s.cache.Carries dev block bh → s.cache.b_dirt bh = decide (rw = .write)) :
    Holds { s with
      cache := { s.cache with b_lock := update s.cache.b_lock bh true }
      making := update s.making bh (some (m, rw)) } dev block v := by
  refine ⟨h.buffer, h.disk, ?_, ?_⟩
  · intro b hb hread
    rcases hread with ⟨m', hm'⟩ | hread
    · dsimp only at hm'
      by_cases hbb : b = bh
      · subst hbb
        rw [update_self] at hm'
        cases hm'
        exact hdirt hb
      · rw [update_of_ne hbb] at hm'
        exact h.reading b hb (.inl ⟨m', hm'⟩)
    · exact h.reading b hb (.inr hread)
  · intro b hb m' hm'
    dsimp only at hm'
    by_cases hbb : b = bh
    · subst hbb
      rw [update_self] at hm'
      cases hm'
      exact hdirt hb
    · rw [update_of_ne hbb] at hm'
      exact h.making b hb m' hm'

theorem Holds.fillRequest (h : s.Holds dev block v) (hs : s.fillRequest bh = some s') :
    s'.Holds dev block v := by
  obtain ⟨m, rw, slot, hm, rfl⟩ := fillRequest_cases hs
  generalize hreq : (⟨slot, s.cache.b_dev bh, rw, sectorOf (s.cache.b_blocknr bh), bh⟩ :
    Request n) = req
  have hbh : req.bh = bh := by rw [← hreq]
  have hcmd : req.cmd = rw := by rw [← hreq]
  have hmem : ∀ m' r, r ∈ update s.current_request m (insertRequest req (s.current_request m)) m' →
      r = req ∨ r ∈ s.current_request m' := by
    intro m' r hr
    by_cases hmm : m' = m
    · subst hmm
      rw [update_self, (insertRequest_perm req _).mem_iff, List.mem_cons] at hr
      exact hr
    · rw [update_of_ne hmm] at hr
      exact Or.inr hr
  have hkeep : ∀ m' r, r ∈ s.current_request m' →
      r ∈ update s.current_request m (insertRequest req (s.current_request m)) m' := by
    intro m' r hr
    by_cases hmm : m' = m
    · subst hmm
      rw [update_self, (insertRequest_perm req _).mem_iff]
      exact List.mem_cons_of_mem _ hr
    · rwa [update_of_ne hmm]
  have hnew : req ∈ update s.current_request m (insertRequest req (s.current_request m)) m := by
    rw [update_self, (insertRequest_perm req _).mem_iff]
    exact List.mem_cons_self ..
  refine ⟨?_, ?_, ?_, ?_⟩
  · rintro b hb (hfull | hfull | ⟨m', r, hr, hrb, hw⟩)
    · exact h.buffer b hb (.inl hfull)
    · refine h.buffer b hb (.inr (.inl ?_))
      dsimp only at hfull
      by_cases hbb : b = bh
      · rw [hbb, update_self] at hfull
        cases hfull
      · rwa [update_of_ne hbb] at hfull
    · rcases hmem m' r hr with rfl | hold
      · -- the write request of a dirty buffer
        obtain rfl : b = bh := hrb.symm.trans hbh
        rw [hcmd] at hw
        exact h.buffer b hb (.inr (.inl (h.making b hb m (hm.trans (by rw [hw])))))
      · exact h.buffer b hb (.inr (.inr ⟨m', r, hold, hrb, hw⟩))
  · intro hclean
    refine h.disk fun b hb => ?_
    obtain ⟨hdirt, hwriting⟩ := hclean b hb
    have hwriting : ¬ s.Writing b := by
      rintro ⟨m', r, hr, hrb, hw⟩
      exact hwriting ⟨m', r, hkeep m' r hr, hrb, hw⟩
    refine ⟨?_, hwriting⟩
    by_cases hbb : b = bh
    · subst hbb
      cases hrw : rw with
      | read => exact h.reading b hb (.inl ⟨m, hrw ▸ hm⟩)
      | write => exact ((hclean b hb).2 ⟨m, req, hnew, hbh, hcmd.trans hrw⟩).elim
    · dsimp only at hdirt
      rwa [update_of_ne hbb] at hdirt
  · intro b hb hread
    dsimp only
    by_cases hbb : b = bh
    · rw [hbb, update_self]
    · rw [update_of_ne hbb]
      refine h.reading b hb ?_
      rcases hread with ⟨m', hm'⟩ | ⟨m', r, hr, hrb, hrd⟩
      · dsimp only at hm'
        rw [update_of_ne hbb] at hm'
        exact .inl ⟨m', hm'⟩
      · rcases hmem m' r hr with rfl | hold
        · exact (hbb (hrb.symm.trans hbh)).elim
        · exact .inr ⟨m', r, hold, hrb, hrd⟩
  · intro b hb m' hm'
    dsimp only at hm' ⊢
    have hbb : b ≠ bh := by
      rintro rfl
      rw [update_self] at hm'
      cases hm'
    rw [update_of_ne hbb] at hm' ⊢
    exact h.making b hb m' hm'

/-- The end of the request for the block itself. -/
theorem Holds.serve_own (h : s.Holds dev block v) (hsound : s.Sound) (hdev : dev ≠ 0)
    (hs : s.serveRequest m true = some s') {r : Request n} {rest : List (Request n)}
    (hq : s.current_request m = r :: rest) (hcarries : s.cache.Carries dev block r.bh) :
    s'.Holds dev block v := by
  obtain ⟨r', rest', hq', rfl⟩ := serveRequest_cases hs
  obtain ⟨rfl, rfl⟩ := List.cons.inj (hq.symm.trans hq')
  have hr : r ∈ s.current_request m := by rw [hq]; exact List.mem_cons_self ..
  obtain ⟨hrdev, hrsector⟩ := hsound.locked.tags m r hr
  rw [hcarries.1] at hrdev
  rw [hcarries.2] at hrsector
  have hnone : s.making r.bh = none := (hsound.locked.lock m r hr).2
  have hown : ∀ b, s.cache.Carries dev block b → b = r.bh := fun b hb =>
    hsound.unique hdev hcarries hb
  have hgone : ∀ m', ∀ r' ∈ update s.current_request m rest m', r'.bh ≠ r.bh := fun m' r' hr' =>
    (hsound.locked.only hq hr').2
  cases hcmd : r.cmd with
  | read =>
      have hdirt : s.cache.b_dirt r.bh = false :=
        h.reading r.bh hcarries (.inr ⟨m, r, hr, rfl, hcmd⟩)
      have hwriting : ¬ s.Writing r.bh := by
        rintro ⟨m', r', hr', heq, hw⟩
        obtain rfl := hsound.locked.apart m' m r' r hr' hr heq
        rw [hq] at hr'
        rcases List.mem_cons.mp hr' with rfl | hr'
        · rw [hcmd] at hw
          cases hw
        · have hnd := hsound.locked.nodup m'
          rw [hq, List.map_cons, List.nodup_cons] at hnd
          exact hnd.1 (List.mem_map.mpr ⟨r', hr', heq⟩)
      have hdisk : s.disk dev (sectorOf block) = v := by
        refine h.disk fun b hb => ?_
        rw [hown b hb]
        exact ⟨hdirt, hwriting⟩
      refine ⟨?_, ?_, ?_, ?_⟩
      · intro b hb _
        rw [hown b hb]
        simp [hrdev, hrsector, hdisk]
      · intro _
        simpa [hcmd] using hdisk
      · intro b hb _
        rw [hown b hb]
        exact hdirt
      · intro b hb m' hm'
        rw [hown b hb] at hm'
        exact absurd (hnone.symm.trans hm') nofun
  | write =>
      have hdata : s.b_data r.bh = v :=
        h.buffer r.bh hcarries (.inr (.inr ⟨m, r, hr, rfl, hcmd⟩))
      refine ⟨?_, ?_, ?_, ?_⟩
      · intro b hb _
        rw [hown b hb]
        simpa [hcmd] using hdata
      · intro _
        simp [hrdev, hrsector, hdata]
      · rintro b hb (⟨m', hm'⟩ | ⟨m', r', hr', heq, -⟩)
        · rw [hown b hb] at hm'
          exact absurd (hnone.symm.trans hm') nofun
        · exact (hgone m' r' hr' (heq.trans (hown b hb))).elim
      · intro b hb m' hm'
        rw [hown b hb] at hm'
        exact absurd (hnone.symm.trans hm') nofun

theorem Holds.serve_other (h : s.Holds dev block v) (hsound : s.Sound) (hdev : dev ≠ 0)
    (hblock : block.toNat < 0x80000000) (hs : s.serveRequest m uptodate = some s') {r : Request n}
    {rest : List (Request n)} (hq : s.current_request m = r :: rest)
    (hcarries : ¬ s.cache.Carries dev block r.bh) : s'.Holds dev block v := by
  obtain ⟨r', rest', hq', rfl⟩ := serveRequest_cases hs
  obtain ⟨rfl, rfl⟩ := List.cons.inj (hq.symm.trans hq')
  have hr : r ∈ s.current_request m := by rw [hq]; exact List.mem_cons_self ..
  obtain ⟨hrdev, hrsector⟩ := hsound.locked.tags m r hr
  have hne : ∀ b, s.cache.Carries dev block b → b ≠ r.bh := by
    rintro b hb rfl
    exact hcarries hb
  have hkeep : ∀ m' r', r' ∈ s.current_request m' → r'.bh ≠ r.bh →
      r' ∈ update s.current_request m rest m' := by
    intro m' r' hr' hbh
    by_cases hmm : m' = m
    · subst hmm
      rw [hq] at hr'
      rw [update_self]
      rcases List.mem_cons.mp hr' with rfl | hr'
      · exact absurd rfl hbh
      · exact hr'
    · rwa [update_of_ne hmm]
  have hdisk : (if uptodate = true ∧ r.cmd = .write then
      update s.disk r.dev (update (s.disk r.dev) r.sector (s.b_data r.bh)) else s.disk) dev
        (sectorOf block) = s.disk dev (sectorOf block) := by
    split
    · by_cases hd : dev = r.dev
      · have hsec : sectorOf block ≠ r.sector := by
          intro hsec
          have hbd : s.cache.b_dev r.bh ≠ 0 := by rwa [← hrdev, ← hd]
          have hb := sectorOf_inj hblock (hsound.blocks r.bh hbd) (hsec.trans hrsector)
          exact hcarries ⟨hrdev.symm.trans hd.symm, hb.symm⟩
        rw [hd, update_self, update_of_ne hsec]
      · rw [update_of_ne hd]
    · rfl
  refine ⟨?_, ?_, ?_, ?_⟩
  · intro b hb hfull
    have hbr := hne b hb
    have hdata : (if uptodate = true ∧ r.cmd = .read then
        update s.b_data r.bh (s.disk r.dev r.sector) else s.b_data) b = s.b_data b := by
      split
      · exact update_of_ne hbr _ _
      · rfl
    dsimp only
    rw [hdata]
    refine h.buffer b hb (hfull.imp ?_ (.imp id ?_))
    · intro hup
      dsimp only at hup
      rwa [update_of_ne hbr] at hup
    · rintro ⟨m', r', hr', heq, hw⟩
      exact ⟨m', r', (hsound.locked.only hq hr').1, heq, hw⟩
  · intro hclean
    refine hdisk.trans (h.disk fun b hb => ⟨(hclean b hb).1, ?_⟩)
    rintro ⟨m', r', hr', heq, hw⟩
    exact (hclean b hb).2 ⟨m', r', hkeep m' r' hr' (heq ▸ hne b hb), heq, hw⟩
  · intro b hb hread
    refine h.reading b hb (hread.imp id ?_)
    rintro ⟨m', r', hr', heq, hrd⟩
    exact ⟨m', r', (hsound.locked.only hq hr').1, heq, hrd⟩
  · exact h.making

theorem Holds.touch (h : s.Holds dev block v) (hbh : ¬ s.cache.Carries dev block bh)
    (data : Block) (b_uptodate dirt : Bool) :
    Holds { s with
      cache := { s.cache with
        b_uptodate := update s.cache.b_uptodate bh b_uptodate
        b_dirt := update s.cache.b_dirt bh dirt }
      b_data := update s.b_data bh data } dev block v := by
  have hne : ∀ b, s.cache.Carries dev block b → b ≠ bh := by
    rintro b hb rfl
    exact hbh hb
  refine ⟨?_, ?_, ?_, ?_⟩
  · intro b hb hfull
    dsimp only at hfull ⊢
    rw [update_of_ne (hne b hb), update_of_ne (hne b hb)] at hfull
    rw [update_of_ne (hne b hb)]
    exact h.buffer b hb hfull
  · intro hclean
    refine h.disk fun b hb => ?_
    have hcl := hclean b hb
    dsimp only at hcl
    rw [update_of_ne (hne b hb)] at hcl
    exact hcl
  · intro b hb hread
    dsimp only
    rw [update_of_ne (hne b hb)]
    exact h.reading b hb hread
  · intro b hb m' hm'
    dsimp only
    rw [update_of_ne (hne b hb)]
    exact h.making b hb m' hm'

theorem Holds.store (hs : s.Sound) (hdev : dev ≠ 0) (hlock : s.cache.b_lock bh = false)
    (hbh : s.cache.Carries dev block bh) (v : Block) :
    Holds { s with
      cache := { s.cache with b_dirt := update s.cache.b_dirt bh true }
      b_data := update s.b_data bh v } dev block v := by
  have hown : ∀ b, s.cache.Carries dev block b → b = bh := fun b hb => hs.unique hdev hbh hb
  refine ⟨?_, ?_, ?_, ?_⟩
  · intro b hb _
    rw [hown b hb]
    exact update_self ..
  · intro hclean
    have hdirt := (hclean bh hbh).1
    dsimp only at hdirt
    rw [update_self] at hdirt
    cases hdirt
  · rintro b hb (⟨m, hm⟩ | ⟨m, r, hr, heq, -⟩)
    · rw [hown b hb] at hm
      exact absurd ((hs.locked.not_locked hlock).1.symm.trans hm) nofun
    · exact ((hs.locked.not_locked hlock).2 m r hr (heq.trans (hown b hb))).elim
  · intro b hb m hm
    rw [hown b hb] at hm
    exact absurd ((hs.locked.not_locked hlock).1.symm.trans hm) nofun

/-- No move changes the content of a block that is not written. -/
theorem Holds.move (h : s.Holds dev block v) (hs : s.Sound) (hdev : dev ≠ 0)
    (hblock : block.toNat < 0x80000000) (hP : P dev block) (hm : Move P s s') :
    s'.Holds dev block v := by
  have htags : ∀ bh, s.cache.Carries dev block bh →
      P (s.cache.b_dev bh) (s.cache.b_blocknr bh) := by
    rintro bh ⟨rfl, rfl⟩
    exact hP
  cases hm with
  | count b_count => exact ⟨h.buffer, h.disk, h.reading, h.making⟩
  | take hlock _ hdirt _ hfind htake => exact h.take hs hlock hdirt hfind htake
  | lockRequest hread hl =>
      rcases lockRequest_cases hl with ⟨rfl, -⟩ | ⟨hlock, hw, hr, rfl⟩
      · exact h
      · refine h.lockRequest fun hc => ?_
        rename_i rw bh
        cases rw with
        | write => exact hw rfl
        | read =>
            rcases hread rfl (htags bh hc) with hup | hdirt
            · rw [hr rfl] at hup
              cases hup
            · exact hdirt
  | fillRequest hf => exact h.fillRequest hf
  | serveRequest hok hsv =>
      obtain ⟨r, rest, hq, -⟩ := serveRequest_cases hsv
      by_cases hc : s.cache.Carries dev block r.bh
      · obtain rfl := hok r (by rw [hq]; rfl) (htags r.bh hc)
        exact h.serve_own hs hdev hsv hq hc
      · exact h.serve_other hs hdev hblock hsv hq hc
  | touch data uptodate dirt hbh => exact h.touch (fun hc => hbh (htags _ hc)) data uptodate dirt

end Holds

end Blocks

end Linux011
