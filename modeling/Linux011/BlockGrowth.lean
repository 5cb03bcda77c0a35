import Linux011.FileDev
import Linux011.Runs

/-!
# Files that several processes write at once

`file_write` of `fs/file_dev.c` with `create_block` of `fs/inode.c` and `new_block` of
`fs/bitmap.c`, by processes that write to one inode. A process runs until it sleeps: in
`getblk` of `new_block`, when the bit of the zone is set and the zone is not yet in its
place, and in `bread` of an index block or of the block to write. The inode is not locked.

`marked` and `returned` keep what `new_block` has marked and what `create_block` has
returned. A bit that `new_block` sets behind the last zone is not one of a zone. The position
of a call is that of its `filp`, or the end of the file for `O_APPEND`.

`Sound` is the invariant of the writers, and says in particular where each marked zone is: in one
slot of the inode, or in the hand of one process that sleeps in `getblk` and is about to put it
there. A process that sleeps relies on the slots above the one it looks at; these are never
changed once they hold a zone (`Evolves`), so that it finds its way again whatever the others
have done in the meantime, except that the very slot that it is about to fill may have been
filled. This is the condition of the runs, at the one step where it matters. What the pieces of
`_bmap` and `new_block` do to the values of the slots is taken from `Bmap`, and the results of
`create_block` are kept in the history `returned`, against which the slots are compared at the
end.
-/

namespace Linux011

open Function Runs Super SuperBlock Zones Bmap FileDev

namespace Growth

/-! ## The way to a block -/

/-- The slots that `_bmap` looks at, in order. -/
def path (block : Nat) : List Bmap.Slot :=
  if block < 7 then [.direct block]
  else if block - 7 < 512 then [.direct 7, .single (block - 7)]
  else [.direct 8, .double ((block - 519) / 512), .leaf ((block - 519) / 512) ((block - 519) % 512)]

def first (block : Nat) : Bmap.Slot :=
  if block < 7 then .direct block else if block - 7 < 512 then .direct 7 else .direct 8

/-- The slot behind `x`, in the index block that `x` holds. -/
def next (block : Nat) (x : Bmap.Slot) : Option Bmap.Slot :=
  match x with
  | .direct _ =>
    if block < 7 then none
    else if block - 7 < 512 then some (.single (block - 7))
    else some (.double ((block - 519) / 512))
  | .double a => some (.leaf a ((block - 519) % 512))
  | .single _ | .leaf _ _ => none

/-! ## The processes -/

/-- The variables of `file_write`; `buf` is what is left. -/
structure Writer where
  pos : Nat
  buf : List UInt8
  i : Nat

def Writer.block (w : Writer) : Nat := w.pos / FileDev.BLOCK_SIZE

/-- Where a process is in `file_write`. -/
inductive Pc where
  /-- in no call; what the last one has returned -/
  | out (ret : Int)
  /-- in `getblk` of zone `z`, which is for the slot `x` in block `b` -/
  | getblk (w : Writer) (x : Bmap.Slot) (b z : Nat)
  /-- in `bread` of the index block `b`, for the slot `x` in it -/
  | index (w : Writer) (x : Bmap.Slot) (b : Nat)
  /-- in `bread` of the block that `create_block` has returned -/
  | bread (w : Writer) (block : Nat)

structure State (T : Type*) where
  inode : MInode
  disk : Disk
  pc : T → Pc
  /-- the zones that `new_block` has marked -/
  marked : List Nat
  /-- the blocks of the file and the zones that `create_block` has returned for them -/
  returned : List (Nat × Nat)

inductive Act (T : Type*) where
  | file_write (t : T) (append : Bool) (f_pos : Nat) (buf : List UInt8)
  /-- the process wakes up; `ok` is that there is no error in its `bread` -/
  | go (t : T) (ok : Bool)

variable {T : Type*}

/-- What the slot `x`, in block `b` unless it is one of the inode, holds. -/
def State.content (s : State T) (x : Bmap.Slot) (b : Nat) : Nat :=
  match x with
  | .direct i => s.inode.i_zone i
  | x => word (s.disk.b_data b) x.idx

/-- The end of `new_block`, and `z` is put in its slot. -/
def State.put (s : State T) (x : Bmap.Slot) (b z : Nat) : State T :=
  let disk := s.disk.store z zeroes
  match x with
  | .direct i =>
    { s with
      inode := { s.inode with i_zone := update s.inode.i_zone i (z % 0x10000), i_dirt := true }
      disk := disk }
  | x => { s with disk := disk.store b (setWord (disk.b_data b) x.idx z) }

section Step

variable [DecidableEq T]

def State.moveTo (s : State T) (t : T) (pc : Pc) : State T := { s with pc := update s.pc t pc }

/-- The end of `file_write`. -/
def State.finish (s : State T) (t : T) (w : Writer) : State T :=
  s.moveTo t (.out (if w.i = 0 then -1 else w.i))

/-- The slot `x` holds `z`: `_bmap` goes on in the index block `z`, or `create_block` returns. -/
def State.follow (s : State T) (t : T) (w : Writer) (x : Bmap.Slot) (z : Nat) : State T :=
  if z = 0 then s.finish t w
  else
    match next w.block x with
    | some y => s.moveTo t (.index w y z)
    | none => { s with returned := (w.block, z) :: s.returned }.moveTo t (.bread w z)

/-- The test of a slot, with `new_block` up to `getblk`; `none` is a panic. -/
def State.test (s : State T) (t : T) (w : Writer) (x : Bmap.Slot) (b : Nat) : Option (State T) :=
  if s.content x b = 0 then
    match takeZone s.disk.sb with
    | .error _ => none
    | .ok (sb, none) => some ({ s with disk := { s.disk with sb := sb } }.finish t w)
    | .ok (sb, some z) =>
      some ({ s with disk := { s.disk with sb := sb }, marked := z :: s.marked }.moveTo t
        (.getblk w x b z))
  else some (s.follow t w x (s.content x b))

/-- The head of the loop of `file_write`. -/
def State.loop (s : State T) (t : T) (w : Writer) : Option (State T) :=
  if w.buf = [] then some (s.finish t w)
  else if w.block ≥ MAXBLOCK then none
  else s.test t w (first w.block) 0

/-- The number of bytes that a round writes. -/
def Writer.c (w : Writer) : Nat :=
  min (FileDev.BLOCK_SIZE - w.pos % FileDev.BLOCK_SIZE) w.buf.length

def Writer.next (w : Writer) : Writer := ⟨w.pos + w.c, w.buf.drop w.c, w.i + w.c⟩

/-- The rest of a round, with the bytes. -/
def State.copy (s : State T) (w : Writer) (block : Nat) : State T :=
  let inode :=
    if w.pos + w.c > s.inode.i_size then
      { s.inode with i_size := w.pos + w.c, i_dirt := true }
    else s.inode
  { s with
    inode := inode
    disk := s.disk.store block
      (storeBytes (s.disk.b_data block) (w.pos % FileDev.BLOCK_SIZE) (w.buf.take w.c)) }

/-- A process goes on to the next place where it sleeps. -/
def State.go (s : State T) (t : T) (ok : Bool) : Pc → Option (State T)
  | .out _ => none
  | .getblk w x b z =>
    let s := s.put x b z
    some (s.follow t w x (match x with | .direct i => s.inode.i_zone i | _ => z))
  | .index w x b => if ok then s.test t w x b else some (s.finish t w)
  | .bread w block => if ok then (s.copy w block).loop t w.next else some (s.finish t w)

def step (s : State T) : Act T → Option (State T)
  | .file_write t append f_pos buf =>
    match s.pc t with
    | .out _ => s.loop t ⟨if append then s.inode.i_size else f_pos, buf, 0⟩
    | _ => none
  | .go t ok => s.go t ok (s.pc t)

end Step

def start (inode : MInode) (disk : Disk) : State T := ⟨inode, disk, fun _ => .out 0, [], []⟩

/-! ## The zones of the file -/

/-- While no call is in progress each zone that was marked is in one slot of the inode or its
index blocks, and `create_block` always returns the same zone for a block. -/
structure NothingLost (s : State T) : Prop where
  zones : (∀ t, ∃ ret, s.pc t = .out ret) → ∀ z ∈ s.marked,
    ∃! x : Bmap.Slot, x.Valid ∧ value s.inode s.disk x = z
  returned : ∀ block z z', (block, z) ∈ s.returned → (block, z') ∈ s.returned → z = z'

/-- The slot that a process puts a zone in when it goes on. -/
def Pc.slot : Pc → Option (Bmap.Slot × Nat)
  | .getblk _ x b _ => some (x, b)
  | _ => none

/-- A zone is put only in a slot that is still empty. -/
def StillEmpty (s : State T) : Act T → Prop
  | .go t _ => ∀ p ∈ (s.pc t).slot, s.content p.1 p.2 = 0
  | .file_write _ _ _ _ => True

instance (s : State T) : ∀ a : Act T, Decidable (StillEmpty s a)
  | .go t _ => inferInstanceAs (Decidable (∀ p ∈ (s.pc t).slot, s.content p.1 p.2 = 0))
  | .file_write _ _ _ _ => inferInstanceAs (Decidable True)

/-! ## Slots on the way -/

variable {block : Nat} {x y : Bmap.Slot}

theorem first_mem (block : Nat) : first block ∈ path block := by
  unfold first path
  split
  · exact List.mem_singleton.mpr rfl
  · split
    · exact List.mem_cons_self ..
    · exact List.mem_cons_self ..

theorem first_parent (block : Nat) : (first block).parent = none := by
  unfold first
  split
  · rfl
  · split <;> rfl

theorem path_valid (hb : block < MAXBLOCK) (hx : x ∈ path block) : x.Valid := by
  rw [MAXBLOCK] at hb
  unfold path at hx
  split at hx
  · obtain rfl := List.mem_singleton.mp hx
    dsimp only [Slot.Valid]
    omega
  · split at hx
    · rcases List.mem_cons.mp hx with rfl | hx
      · exact (by decide : 7 < 9)
      · obtain rfl := List.mem_singleton.mp hx
        dsimp only [Slot.Valid]
        omega
    · rcases List.mem_cons.mp hx with rfl | hx
      · exact (by decide : 8 < 9)
      · rcases List.mem_cons.mp hx with rfl | hx
        · dsimp only [Slot.Valid]
          omega
        · obtain rfl := List.mem_singleton.mp hx
          dsimp only [Slot.Valid]
          omega

theorem next_mem (hx : x ∈ path block) (hn : next block x = some y) :
    y ∈ path block ∧ y.parent = some x := by
  unfold path at hx ⊢
  unfold next at hn
  split at hx
  · rename_i h7
    obtain rfl := List.mem_singleton.mp hx
    dsimp only at hn
    rw [if_pos h7] at hn
    cases hn
  · rename_i h7
    rw [if_neg h7]
    split at hx
    · rename_i h512
      rw [if_pos h512]
      rcases List.mem_cons.mp hx with rfl | hx
      · dsimp only at hn
        rw [if_neg h7, if_pos h512] at hn
        obtain rfl := Option.some.inj hn
        exact ⟨List.mem_cons_of_mem _ (List.mem_singleton.mpr rfl), rfl⟩
      · obtain rfl := List.mem_singleton.mp hx
        cases hn
    · rename_i h512
      rw [if_neg h512]
      rcases List.mem_cons.mp hx with rfl | hx
      · dsimp only at hn
        rw [if_neg h7, if_neg h512] at hn
        obtain rfl := Option.some.inj hn
        exact ⟨List.mem_cons_of_mem _ (List.mem_cons_self ..), rfl⟩
      · rcases List.mem_cons.mp hx with rfl | hx
        · obtain rfl := Option.some.inj hn
          exact ⟨List.mem_cons_of_mem _ (List.mem_cons_of_mem _ (List.mem_singleton.mpr rfl)), rfl⟩
        · obtain rfl := List.mem_singleton.mp hx
          cases hn

/-- The way ends at the slot of the block. -/
theorem next_none (hx : x ∈ path block) (hn : next block x = none) : x = slotOf block := by
  unfold path at hx
  unfold next at hn
  unfold slotOf
  split at hx
  · rename_i h7
    rw [if_pos h7]
    exact List.mem_singleton.mp hx
  · rename_i h7
    rw [if_neg h7]
    split at hx
    · rename_i h512
      rw [if_pos h512]
      rcases List.mem_cons.mp hx with rfl | hx
      · dsimp only at hn
        rw [if_neg h7, if_pos h512] at hn
        cases hn
      · exact List.mem_singleton.mp hx
    · rename_i h512
      rw [if_neg h512]
      rcases List.mem_cons.mp hx with rfl | hx
      · dsimp only at hn
        rw [if_neg h7, if_neg h512] at hn
        cases hn
      · rcases List.mem_cons.mp hx with rfl | hx
        · cases hn
        · exact List.mem_singleton.mp hx

/-! ## The invariant -/

/-- The block `b` is the one that the slot `x` is in. -/
def Held (inode : MInode) (s : Disk) (x : Bmap.Slot) (b : Nat) : Prop :=
  ∀ p, x.parent = some p → value inode s p = b ∧ b ≠ 0

/-- What a process relies on while it sleeps. -/
def Pc.Fits (inode : MInode) (s : Disk) : Pc → Prop
  | .out _ => True
  | .getblk w x b z => w.block < MAXBLOCK ∧ x ∈ path w.block ∧ Held inode s x b ∧ s.sb.InRange z ∧
      s.sb.allocated z = true ∧ ∀ y : Bmap.Slot, y.Valid → value inode s y ≠ z
  | .index w x b => w.block < MAXBLOCK ∧ x ∈ path w.block ∧ Held inode s x b
  | .bread w block => w.block < MAXBLOCK ∧ block ≠ 0 ∧ blockNr inode s w.block = block

/-- The zone that is marked and not yet in its slot. -/
def Pc.zone : Pc → Option Nat
  | .getblk _ _ _ z => some z
  | _ => none

structure Sound (d : DSuperBlock) (s : State T) : Prop where
  tree : Tree d s.inode s.disk
  fits : ∀ t, (s.pc t).Fits s.inode s.disk
  apart : ∀ t t' z, (s.pc t).zone = some z → (s.pc t').zone = some z → t = t'
  marked : ∀ z ∈ s.marked, z ≠ 0 ∧
    ((∃ x : Bmap.Slot, x.Valid ∧ value s.inode s.disk x = z) ∨ ∃ t, (s.pc t).zone = some z)
  returned : ∀ p ∈ s.returned, p.1 < MAXBLOCK ∧ p.2 ≠ 0 ∧ blockNr s.inode s.disk p.1 = p.2

/-- Slots that hold a zone keep it, one that is empty may get `n`, and zones that are
allocated stay so. -/
structure Evolves (n : Nat) (inode : MInode) (s : Disk) (inode' : MInode) (s' : Disk) : Prop where
  values : ∀ y : Bmap.Slot, y.Valid → value inode' s' y = value inode s y ∨
    (value inode s y = 0 ∧ value inode' s' y = n)
  taken : ∀ z, s.sb.InRange z → s.sb.allocated z = true →
    s'.sb.InRange z ∧ s'.sb.allocated z = true

variable {n : Nat} {inode inode' : MInode} {s₁ s₁' : Disk} {d : DSuperBlock}

theorem Evolves.kept (h : Evolves n inode s₁ inode' s₁') (hy : y.Valid)
    (hne : value inode s₁ y ≠ 0) : value inode' s₁' y = value inode s₁ y := by
  rcases h.values y hy with heq | ⟨hzero, _⟩
  · exact heq
  · exact absurd hzero hne

/-- A block of the file that has a zone keeps it. -/
theorem Evolves.blockNr (h : Evolves n inode s₁ inode' s₁') {z : Nat} (hb : block < MAXBLOCK)
    (hz : z ≠ 0) (hval : blockNr inode s₁ block = z) : Bmap.blockNr inode' s₁' block = z := by
  have hne : value inode s₁ (slotOf block) ≠ 0 := fun h0 => hz (hval.symm.trans h0)
  exact (h.kept (slotOf_valid hb).1 hne).trans hval

theorem Held.evolve {b : Nat} (hx : x.Valid) (he : Evolves n inode s₁ inode' s₁')
    (h : Held inode s₁ x b) : Held inode' s₁' x b := by
  intro p hp
  obtain ⟨hval, hb⟩ := h p hp
  refine ⟨?_, hb⟩
  rw [he.kept (Slot.parent_valid hx hp) (hval ▸ hb), hval]

theorem Pc.Fits.evolve {pc : Pc} (he : Evolves n inode s₁ inode' s₁')
    (hn : ∀ z, pc.zone = some z → z ≠ n) (h : pc.Fits inode s₁) : pc.Fits inode' s₁' := by
  cases pc with
  | out ret => trivial
  | getblk w x b z =>
    obtain ⟨hw, hx, hb, hrange, halloc, hnot⟩ := h
    obtain ⟨hrange', halloc'⟩ := he.taken z hrange halloc
    refine ⟨hw, hx, hb.evolve (path_valid hw hx) he, hrange', halloc', fun y hy heq => ?_⟩
    rcases he.values y hy with hval | ⟨_, hval⟩
    · exact hnot y hy (hval.symm.trans heq)
    · exact hn z rfl (heq.symm.trans hval)
  | index w x b =>
    obtain ⟨hw, hx, hb⟩ := h
    exact ⟨hw, hx, hb.evolve (path_valid hw hx) he⟩
  | bread w block =>
    obtain ⟨hw, hne, hval⟩ := h
    exact ⟨hw, hne, he.blockNr hw hne hval⟩

/-! ## What is done to the zones -/

theorem Evolves.of_eq (hval : ∀ y : Bmap.Slot, y.Valid → value inode' s₁' y = value inode s₁ y)
    (htaken : ∀ z, s₁.sb.InRange z → s₁.sb.allocated z = true →
      s₁'.sb.InRange z ∧ s₁'.sb.allocated z = true) : Evolves n inode s₁ inode' s₁' :=
  ⟨fun y hy => Or.inl (hval y hy), htaken⟩

/-- A zone that has just been marked is in no slot. -/
theorem takes_spec (h : Tree d inode s₁) {z : Nat} {sb : SuperBlock} (htakes : Takes s₁.sb z sb)
    (hcovers : Covers sb d) : Tree d inode { s₁ with sb := sb } ∧
      Evolves n inode s₁ inode { s₁ with sb := sb } ∧
      ∀ y : Bmap.Slot, y.Valid → value inode s₁ y ≠ z := by
  have hkeep : ∀ z', s₁.sb.InRange z' → s₁.sb.allocated z' = true →
      sb.InRange z' ∧ sb.allocated z' = true := by
    intro z' hrange halloc
    have hne : z' ≠ z := by
      rintro rfl
      exact Bool.false_ne_true (htakes.free.symm.trans halloc)
    exact ⟨(Covers.inRange_iff h.covers hcovers z').mpr hrange,
      (htakes.others z' hrange hne).trans halloc⟩
  have hpos := h.pos_of_inRange htakes.inRange
  refine ⟨⟨hcovers, h.short, h.inj, fun y hy hne => ?_⟩, .of_eq (fun _ _ => rfl) hkeep, ?_⟩
  · obtain ⟨hrange, halloc⟩ := h.used y hy hne
    exact hkeep _ hrange halloc
  · rintro y hy rfl
    exact h.ne_taken htakes hy hpos rfl

theorem full_spec (h : Tree d inode s₁) {sb : SuperBlock} (hfull : Full s₁.sb sb)
    (hcovers : Covers sb d) : Tree d inode { s₁ with sb := sb } ∧
      Evolves n inode s₁ inode { s₁ with sb := sb } := by
  have hkeep : ∀ z', s₁.sb.InRange z' → s₁.sb.allocated z' = true →
      sb.InRange z' ∧ sb.allocated z' = true := fun z' hrange halloc =>
    ⟨(Covers.inRange_iff h.covers hcovers z').mpr hrange, (hfull.same z' hrange).trans halloc⟩
  refine ⟨⟨hcovers, h.short, h.inj, fun y hy hne => ?_⟩, .of_eq (fun _ _ => rfl) hkeep⟩
  obtain ⟨hrange, halloc⟩ := h.used y hy hne
  exact hkeep _ hrange halloc

/-- An allocated zone that is in no slot gets into an empty one. -/
theorem filled_spec (h : Tree d inode s₁) {z : Nat} (hrange : s₁.sb.InRange z)
    (halloc : s₁.sb.allocated z = true) (hnot : ∀ y : Bmap.Slot, y.Valid → value inode s₁ y ≠ z)
    (hsb : s₁'.sb = s₁.sb) (hfilled : Bmap.Filled inode s₁ x z inode' s₁') (hvalid : x.Valid)
    (hx : value inode s₁ x = 0) (hholder : ∀ p, x.parent = some p → value inode s₁ p ≠ 0) :
    Tree d inode' s₁' ∧ Evolves z inode s₁ inode' s₁' ∧ value inode' s₁' x = z := by
  have hval := hfilled.value hx hholder
  have hnew : value inode' s₁' x = z := by rw [hval x hvalid, if_pos rfl]
  refine ⟨⟨hsb ▸ h.covers, h.short, fun y y' hy hy' heq hne => ?_, fun y hy hne => ?_⟩,
    ⟨fun y hy => ?_, fun z' hr ha => ?_⟩, hnew⟩
  · rw [hval y hy, hval y' hy'] at heq
    rw [hval y hy] at hne
    by_cases h1 : y = x
    · by_cases h2 : y' = x
      · rw [h1, h2]
      · rw [if_pos h1, if_neg h2] at heq
        exact absurd heq.symm (hnot y' hy')
    · by_cases h2 : y' = x
      · rw [if_neg h1, if_pos h2] at heq
        exact absurd heq (hnot y hy)
      · rw [if_neg h1, if_neg h2] at heq
        rw [if_neg h1] at hne
        exact h.inj y y' hy hy' heq hne
  · rw [hsb]
    rw [hval y hy] at hne ⊢
    by_cases h1 : y = x
    · rw [if_pos h1]
      exact ⟨hrange, halloc⟩
    · rw [if_neg h1] at hne ⊢
      exact h.used y hy hne
  · by_cases h1 : y = x
    · rw [h1]
      exact Or.inr ⟨hx, hnew⟩
    · rw [hval y hy, if_neg h1]
      exact Or.inl rfl
  · rw [hsb]
    exact ⟨hr, ha⟩

theorem filled_direct {z i : Nat} (hz : z < 0x10000)
    (hnot : ∀ y : Bmap.Slot, y.Valid → value inode s₁ y ≠ z) :
    Bmap.Filled inode s₁ (.direct i) z
      { inode with i_zone := update inode.i_zone i (z % 0x10000), i_dirt := true }
      (s₁.store z zeroes) where
  direct j := by
    dsimp only
    rw [Nat.mod_eq_of_lt hz]
    rcases eq_or_ne j i with rfl | hne
    · rw [update_self, if_pos rfl]
    · rw [update_of_ne hne, if_neg fun heq => hne (Slot.direct.inj heq).symm]
  below y p hy hp _ := by
    have hyx : y ≠ .direct i := by
      rintro rfl
      cases hp
    rw [if_neg hyx, value_child inode s₁ hp]
    exact below_congr (Disk.store_data_ne _ _ (hnot p (Slot.parent_valid hy hp))) _
  empty k := below_zeroes (Disk.store_data ..)

/-- `put` in a word of an index block. -/
theorem filled_word (h : Tree d inode s₁) {z b : Nat} (hz : z < 0x10000)
    (hnot : ∀ y : Bmap.Slot, y.Valid → value inode s₁ y ≠ z) {p : Bmap.Slot} (hvalid : x.Valid)
    (hp : x.parent = some p) (hb : value inode s₁ p = b) (hpos : b ≠ 0) :
    Bmap.Filled inode s₁ x z inode
      ((s₁.store z zeroes).store b (setWord ((s₁.store z zeroes).b_data b) x.idx z)) := by
  subst hb
  have hpvalid := Slot.parent_valid hvalid hp
  have hbz : value inode s₁ p ≠ z := hnot p hpvalid
  refine ⟨fun j => ?_, fun y q hy hq hne => ?_, fun k => ?_⟩
  · rw [if_neg]
    rintro rfl
    cases hp
  · by_cases hqp : q = p
    · subst hqp
      have hyx : y = x ↔ y.idx = x.idx :=
        ⟨fun heq => by rw [heq], Slot.eq_of_parent (hq.trans hp.symm)⟩
      rw [below, if_neg hne, Disk.store_data, word_setWord _ hz, Disk.store_data_ne _ _ hbz,
        value_child inode s₁ hq, below, if_neg hne]
      exact if_congr hyx.symm rfl rfl
    · have hqne : value inode s₁ q ≠ value inode s₁ p := fun heq =>
        hqp (h.inj q p (Slot.parent_valid hy hq) hpvalid heq hne)
      have hyx : y ≠ x := by
        rintro rfl
        exact hqp (Option.some.inj (hq.symm.trans hp))
      rw [if_neg hyx, value_child inode s₁ hq]
      refine below_congr ?_ _
      rw [Disk.store_data_ne _ _ hqne]
      exact Disk.store_data_ne _ _ (hnot q (Slot.parent_valid hy hq))
  · refine below_zeroes ?_
    rw [Disk.store_data_ne _ _ hbz.symm]
    exact Disk.store_data ..

/-! ## Steps -/

section Step

variable [DecidableEq T] {s s' : State T} {t : T} {w : Writer}

/-- The process on the processor has nothing that the others must know. -/
def State.without (s : State T) (t : T) : State T := s.moveTo t (.out 0)

theorem Sound.without (h : Sound d s) (hz : (s.pc t).zone = none) : Sound d (s.without t) := by
  have hzone : ∀ u, ((s.without t).pc u).zone = (s.pc u).zone := by
    intro u
    by_cases hut : u = t
    · subst hut
      have hpc : (s.without u).pc u = .out 0 := update_self ..
      rw [hz, hpc]
      rfl
    · have hpc : (s.without t).pc u = s.pc u := update_of_ne hut ..
      rw [hpc]
  refine ⟨h.tree, fun u => ?_, fun u u' z hu hu' => ?_, fun z hm => ?_, h.returned⟩
  · by_cases hut : u = t
    · subst hut
      have hpc : (s.without u).pc u = .out 0 := update_self ..
      rw [hpc]
      trivial
    · have hpc : (s.without t).pc u = s.pc u := update_of_ne hut ..
      rw [hpc]
      exact h.fits u
  · rw [hzone] at hu hu'
    exact h.apart u u' z hu hu'
  · obtain ⟨hne, hslot | ⟨u, hu⟩⟩ := h.marked z hm
    · exact ⟨hne, Or.inl hslot⟩
    · exact ⟨hne, Or.inr ⟨u, (hzone u).trans hu⟩⟩

theorem Sound.moveTo (h : Sound d (s.without t)) {pc : Pc} (hfits : pc.Fits s.inode s.disk)
    (hapart : ∀ z, pc.zone = some z → ∀ u, u ≠ t → (s.pc u).zone ≠ some z) :
    Sound d (s.moveTo t pc) := by
  have hself : (s.moveTo t pc).pc t = pc := update_self ..
  have hother : ∀ u, u ≠ t → (s.moveTo t pc).pc u = s.pc u := fun u hu => update_of_ne hu ..
  have hbefore : ∀ u, u ≠ t → (s.without t).pc u = s.pc u := fun u hu => update_of_ne hu ..
  refine ⟨h.tree, fun u => ?_, fun u u' z hu hu' => ?_, fun z hm => ?_, h.returned⟩
  · by_cases hut : u = t
    · subst hut
      rw [hself]
      exact hfits
    · have hfit := h.fits u
      rw [hbefore u hut] at hfit
      rw [hother u hut]
      exact hfit
  · by_cases hut : u = t
    · by_cases hut' : u' = t
      · rw [hut, hut']
      · subst hut
        rw [hself] at hu
        rw [hother u' hut'] at hu'
        exact absurd hu' (hapart z hu u' hut')
    · by_cases hut' : u' = t
      · subst hut'
        rw [hself] at hu'
        rw [hother u hut] at hu
        exact absurd hu (hapart z hu' u hut)
      · rw [hother u hut] at hu
        rw [hother u' hut'] at hu'
        refine h.apart u u' z ?_ ?_
        · rw [hbefore u hut, hu]
        · rw [hbefore u' hut', hu']
  · obtain ⟨hne, hslot | ⟨u, hu⟩⟩ := h.marked z hm
    · exact ⟨hne, Or.inl hslot⟩
    · refine ⟨hne, Or.inr ⟨u, ?_⟩⟩
      by_cases hut : u = t
      · subst hut
        have hpc : (s.without u).pc u = .out 0 := update_self ..
        rw [hpc] at hu
        cases hu
      · rw [hbefore u hut] at hu
        rw [hother u hut, hu]

theorem Sound.finish (h : Sound d (s.without t)) (w : Writer) : Sound d (s.finish t w) :=
  h.moveTo trivial fun _ hz => by cases hz

omit [DecidableEq T] in
/-- The inode and the device change while no other process runs. -/
theorem Sound.evolve (h : Sound d s) {inode' : MInode} {disk' : Disk}
    (htree : Tree d inode' disk') (he : Evolves n s.inode s.disk inode' disk')
    (hn : ∀ u z, (s.pc u).zone = some z → z ≠ n) :
    Sound d { s with inode := inode', disk := disk' } where
  tree := htree
  fits u := (h.fits u).evolve he (hn u)
  apart := h.apart
  marked z hm := by
    obtain ⟨hne, ⟨y, hy, hval⟩ | hpend⟩ := h.marked z hm
    · exact ⟨hne, Or.inl ⟨y, hy, (he.kept hy (by rw [hval]; exact hne)).trans hval⟩⟩
    · exact ⟨hne, Or.inr hpend⟩
  returned p hp := by
    obtain ⟨hlt, hne, hval⟩ := h.returned p hp
    exact ⟨hlt, hne, he.blockNr hlt hne hval⟩

omit [DecidableEq T] in
theorem content_eq {b : Nat} (h : Held s.inode s.disk x b) :
    s.content x b = value s.inode s.disk x := by
  cases hp : x.parent with
  | none =>
    cases x with
    | direct i => rfl
    | _ => cases hp
  | some p =>
    obtain ⟨hval, hb⟩ := h p hp
    rw [value_child _ _ hp, hval, below, if_neg hb]
    cases x with
    | direct i => cases hp
    | _ => rfl

theorem Sound.follow (h : Sound d (s.without t)) (hw : w.block < MAXBLOCK)
    (hx : x ∈ path w.block) : Sound d (s.follow t w x (value s.inode s.disk x)) := by
  unfold State.follow
  split
  · exact h.finish w
  · rename_i hne
    split
    · rename_i y hy
      obtain ⟨hmem, hparent⟩ := next_mem hx hy
      refine h.moveTo ⟨hw, hmem, fun p hp => ?_⟩ (fun _ hz => by cases hz)
      obtain rfl := Option.some.inj (hparent.symm.trans hp)
      exact ⟨rfl, hne⟩
    · rename_i hlast
      have hslot := next_none hx hlast
      have hret : Sound d (State.without
          { s with returned := (w.block, value s.inode s.disk x) :: s.returned } t) :=
        { h with
          returned := fun p hp => by
            rcases List.mem_cons.mp hp with rfl | hp
            · refine ⟨hw, hne, ?_⟩
              rw [blockNr, ← hslot]
              rfl
            · exact h.returned p hp }
      refine hret.moveTo ⟨hw, hne, ?_⟩ fun _ hz => by cases hz
      rw [blockNr, ← hslot]

omit [DecidableEq T] in
/-- A zone on its way is allocated and in no slot. -/
theorem Sound.pending (h : Sound d s) {z : Nat} (hz : (s.pc t).zone = some z) :
    s.disk.sb.InRange z ∧ s.disk.sb.allocated z = true := by
  have hfits := h.fits t
  cases hpc : s.pc t with
  | getblk w x b z' =>
    rw [hpc] at hz hfits
    obtain rfl := Option.some.inj hz
    exact ⟨hfits.2.2.2.1, hfits.2.2.2.2.1⟩
  | _ =>
    rw [hpc] at hz
    cases hz

omit [DecidableEq T] in
theorem Sound.mark (h : Sound d s) {z : Nat} (hz : (s.pc t).zone = some z) :
    Sound d { s with marked := z :: s.marked } :=
  { h with
    marked := fun z' hm => by
      rcases List.mem_cons.mp hm with rfl | hm
      · exact ⟨h.tree.pos_of_inRange (h.pending hz).1, Or.inr ⟨t, hz⟩⟩
      · exact h.marked z' hm }

theorem Sound.test (h : Sound d (s.without t)) (hw : w.block < MAXBLOCK) (hx : x ∈ path w.block)
    {b : Nat} (hb : Held s.inode s.disk x b) (htest : s.test t w x b = some s') :
    Sound d s' := by
  unfold State.test at htest
  split at htest
  · obtain ⟨sb, ret, htake, hcovers, hspec⟩ := takeZone_spec h.tree.covers
    have htake' : takeZone s.disk.sb = .ok (sb, ret) := htake
    rw [htake'] at htest
    cases ret with
    | none =>
      obtain rfl := Option.some.inj htest
      obtain ⟨htree, he⟩ := full_spec (n := 0) h.tree hspec hcovers
      have hnext := h.evolve htree he fun u z hz => h.tree.pos_of_inRange (h.pending hz).1
      exact Sound.finish (s := { s with disk := { s.disk with sb := sb } }) hnext w
    | some z =>
      obtain rfl := Option.some.inj htest
      obtain ⟨htree, he, hnot⟩ := takes_spec (n := 0) h.tree hspec hcovers
      have hnext := h.evolve htree he fun u z hz => h.tree.pos_of_inRange (h.pending hz).1
      have hfits : (Pc.getblk w x b z).Fits s.inode { s.disk with sb := sb } :=
        ⟨hw, hx, hb, (Covers.inRange_iff h.tree.covers hcovers z).mpr hspec.inRange, hspec.taken,
          hnot⟩
      have hmoved := Sound.moveTo (s := { s with disk := { s.disk with sb := sb } }) hnext hfits
        fun z' hz' u hu hzone => by
          obtain rfl := Option.some.inj hz'
          have hbefore : (s.without t).pc u = s.pc u := update_of_ne hu ..
          have halloc := (h.pending (t := u) (by rw [hbefore]; exact hzone)).2
          exact Bool.false_ne_true (hspec.free.symm.trans halloc)
      have hself : (State.moveTo { s with disk := { s.disk with sb := sb } } t
          (.getblk w x b z)).pc t = .getblk w x b z := update_self ..
      exact hmoved.mark (t := t) (by rw [hself]; rfl)
  · obtain rfl := Option.some.inj htest
    rw [content_eq hb]
    exact h.follow hw hx

/-- The zone of a process gets into its slot. -/
theorem Sound.place (h : Sound d s) {z : Nat} (hz : (s.pc t).zone = some z) {inode' : MInode}
    {disk' : Disk} (htree : Tree d inode' disk') (he : Evolves z s.inode s.disk inode' disk')
    (hx : x.Valid) (hval : value inode' disk' x = z) :
    Sound d (State.without { s with inode := inode', disk := disk' } t) := by
  have hother : ∀ u, u ≠ t →
      (State.without { s with inode := inode', disk := disk' } t).pc u = s.pc u :=
    fun u hu => update_of_ne hu ..
  have hself : (State.without { s with inode := inode', disk := disk' } t).pc t = .out 0 :=
    update_self ..
  have hzone : ∀ u z', ((State.without { s with inode := inode', disk := disk' } t).pc u).zone
      = some z' → u ≠ t ∧ (s.pc u).zone = some z' := by
    intro u z' hu
    by_cases hut : u = t
    · subst hut
      rw [hself] at hu
      cases hu
    · rw [hother u hut] at hu
      exact ⟨hut, hu⟩
  refine ⟨htree, fun u => ?_, fun u u' z' hu hu' => ?_, fun z' hm => ?_, fun p hp => ?_⟩
  · by_cases hut : u = t
    · rw [hut, hself]
      trivial
    · rw [hother u hut]
      refine (h.fits u).evolve he fun z' hz' heq => hut ?_
      exact h.apart u t z (heq ▸ hz') hz
  · exact h.apart u u' z' (hzone u z' hu).2 (hzone u' z' hu').2
  · obtain ⟨hne, ⟨y, hy, hvy⟩ | ⟨u, hu⟩⟩ := h.marked z' hm
    · exact ⟨hne, Or.inl ⟨y, hy, (he.kept hy (by rw [hvy]; exact hne)).trans hvy⟩⟩
    · by_cases hut : u = t
      · subst hut
        obtain rfl := Option.some.inj (hz.symm.trans hu)
        exact ⟨hne, Or.inl ⟨x, hx, hval⟩⟩
      · refine ⟨hne, Or.inr ⟨u, ?_⟩⟩
        rw [hother u hut]
        exact hu
  · obtain ⟨hlt, hne, hvp⟩ := h.returned p hp
    exact ⟨hlt, hne, he.blockNr hlt hne hvp⟩

/-- The zone that `_bmap` goes on with behind `put`. -/
def State.placed (s : State T) (x : Bmap.Slot) (z : Nat) : Nat :=
  match x with
  | .direct i => s.inode.i_zone i
  | _ => z

/-- A process puts its zone in a slot that is still empty. -/
theorem Sound.put (h : Sound d s) {b z : Nat} (hpc : s.pc t = .getblk w x b z)
    (hempty : s.content x b = 0) :
    Sound d ((s.put x b z).without t) ∧
      (s.put x b z).placed x z = value (s.put x b z).inode (s.put x b z).disk x := by
  obtain ⟨hw, hx, hb, hrange, halloc, hnot⟩ : (Pc.getblk w x b z).Fits s.inode s.disk :=
    hpc ▸ h.fits t
  have hvalid := path_valid hw hx
  have hzone : (s.pc t).zone = some z := by
    rw [hpc]
    rfl
  have hzero : value s.inode s.disk x = 0 := (content_eq hb).symm.trans hempty
  have hlt : z < 0x10000 := by
    have hhigh := hrange.2
    have hshort := h.tree.short
    rw [h.tree.covers.nz] at hhigh
    omega
  have hholder : ∀ p, x.parent = some p → value s.inode s.disk p ≠ 0 := fun p hp => by
    obtain ⟨hval, hne⟩ := hb p hp
    rw [hval]
    exact hne
  have hfilled : Bmap.Filled s.inode s.disk x z (s.put x b z).inode (s.put x b z).disk := by
    cases hp : x.parent with
    | none =>
      cases x with
      | direct i => exact filled_direct hlt hnot
      | _ => cases hp
    | some p =>
      obtain ⟨hval, hne⟩ := hb p hp
      cases x with
      | direct i => cases hp
      | _ => exact filled_word h.tree hlt hnot hvalid hp hval hne
  have hsb : (s.put x b z).disk.sb = s.disk.sb := by
    cases x <;> rfl
  obtain ⟨htree, he, hval⟩ :=
    filled_spec h.tree hrange halloc hnot hsb hfilled hvalid hzero hholder
  have hplace := h.place hzone htree he hvalid hval
  constructor
  · cases x <;> exact hplace
  · rw [hval]
    cases x with
    | direct i => exact hval
    | _ => rfl

omit [DecidableEq T] in
/-- The values of the slots are those of `i_zone` and the blocks. -/
theorem value_congr (hzone : inode'.i_zone = inode.i_zone) (y : Bmap.Slot) :
    value inode' s₁ y = value inode s₁ y := by
  cases y <;> simp only [value, hzone]

theorem Sound.copy (h : Sound d (s.without t)) {block : Nat} (hw : w.block < MAXBLOCK)
    (hne : block ≠ 0) (hval : blockNr s.inode s.disk w.block = block) :
    Sound d ((s.copy w block).without t) := by
  subst hval
  have hzone : (s.copy w (blockNr s.inode s.disk w.block)).inode.i_zone = s.inode.i_zone := by
    unfold State.copy
    dsimp only
    split
    · rfl
    · rfl
  have hstore : Tree d s.inode (s.copy w (blockNr s.inode s.disk w.block)).disk :=
    h.tree.store hw hne _
  have hslots : ∀ y : Bmap.Slot, y.Valid → value s.inode
      (s.copy w (blockNr s.inode s.disk w.block)).disk y = value s.inode s.disk y :=
    fun y hy => h.tree.value_store hw hne _ hy
  have htree : Tree d (s.copy w (blockNr s.inode s.disk w.block)).inode
      (s.copy w (blockNr s.inode s.disk w.block)).disk := by
    refine ⟨hstore.covers, hstore.short, fun y y' hy hy' heq hne => ?_, fun y hy hne => ?_⟩
    · rw [value_congr hzone, value_congr hzone] at heq
      rw [value_congr hzone] at hne
      exact hstore.inj y y' hy hy' heq hne
    · rw [value_congr hzone] at hne ⊢
      exact hstore.used y hy hne
  have he : Evolves 0 s.inode s.disk (s.copy w (blockNr s.inode s.disk w.block)).inode
      (s.copy w (blockNr s.inode s.disk w.block)).disk := by
    refine .of_eq (fun y hy => ?_) fun z hr ha => ⟨hr, ha⟩
    rw [value_congr hzone]
    exact hslots y hy
  exact h.evolve htree he fun u z hz => h.tree.pos_of_inRange (h.pending hz).1

theorem Sound.loop (h : Sound d (s.without t)) (hloop : s.loop t w = some s') : Sound d s' := by
  unfold State.loop at hloop
  split at hloop
  · obtain rfl := Option.some.inj hloop
    exact h.finish w
  · split at hloop
    · cases hloop
    · rename_i hw
      refine h.test (Nat.lt_of_not_le hw) (first_mem _) (fun p hp => ?_) hloop
      rw [first_parent] at hp
      cases hp

theorem Sound.go (h : Sound d s) (hok : ∀ p ∈ (s.pc t).slot, s.content p.1 p.2 = 0) {ok : Bool}
    (hgo : s.go t ok (s.pc t) = some s') : Sound d s' := by
  have hfits := h.fits t
  cases hpc : s.pc t with
  | out ret =>
    rw [hpc] at hgo
    cases hgo
  | getblk w x b z =>
    rw [hpc] at hgo hok hfits
    obtain ⟨hw, hx, -⟩ := hfits
    obtain rfl := Option.some.inj hgo
    obtain ⟨hput, hplaced⟩ := h.put hpc (hok (x, b) rfl)
    have hfollow := hput.follow hw hx
    rw [← hplaced] at hfollow
    cases x <;> exact hfollow
  | index w x b =>
    rw [hpc] at hgo hfits
    obtain ⟨hw, hx, hb⟩ := hfits
    have hout := h.without (t := t) (by rw [hpc]; rfl)
    unfold State.go at hgo
    dsimp only at hgo
    split at hgo
    · exact hout.test hw hx hb hgo
    · obtain rfl := Option.some.inj hgo
      exact hout.finish w
  | bread w block =>
    rw [hpc] at hgo hfits
    obtain ⟨hw, hne, hval⟩ := hfits
    have hout := h.without (t := t) (by rw [hpc]; rfl)
    unfold State.go at hgo
    dsimp only at hgo
    split at hgo
    · exact (hout.copy hw hne hval).loop hgo
    · obtain rfl := Option.some.inj hgo
      exact hout.finish w

theorem Sound.step {a : Act T} (h : Sound d s) (hok : StillEmpty s a)
    (hstep : Growth.step s a = some s') : Sound d s' := by
  cases a with
  | file_write t append f_pos buf =>
    unfold Growth.step at hstep
    dsimp only at hstep
    split at hstep
    · rename_i ret hpc
      exact (h.without (t := t) (by rw [hpc]; rfl)).loop hstep
    · cases hstep
  | go t ok => exact h.go hok hstep

omit [DecidableEq T] in
theorem Sound.start {inode : MInode} {disk : Disk} (h : Tree d inode disk) :
    Sound d (start (T := T) inode disk) where
  tree := h
  fits _ := trivial
  apart _ _ _ hz := nomatch hz
  marked _ hz := nomatch hz
  returned _ hp := nomatch hp

omit [DecidableEq T] in
theorem Sound.nothingLost (h : Sound d s) : NothingLost s where
  zones hout z hz := by
    obtain ⟨hne, ⟨x, hx, hval⟩ | ⟨t, ht⟩⟩ := h.marked z hz
    · exact ⟨x, ⟨hx, hval⟩, fun y ⟨hy, hy'⟩ =>
        h.tree.inj y x hy hx (hy'.trans hval.symm) (by rw [hy']; exact hne)⟩
    · obtain ⟨ret, hret⟩ := hout t
      rw [hret] at ht
      cases ht
  returned block z z' hz hz' := (h.returned _ hz).2.2.symm.trans (h.returned _ hz').2.2

/-- In the runs of any number of processes that write to one file, in which no slot has
been filled while a process slept in `new_block` for it: each zone that was marked is in
one slot of the inode or in the hand of a process that is about to put it there, and
`create_block` always returns the same zone for the same block. -/
theorem growth_loses_nothing {inode : MInode} {disk : Disk} (htree : Tree d inode disk)
    (h : Reach Growth.step StillEmpty (Growth.start inode disk) s) : NothingLost s :=
  (h.invariant (Sound.start htree) fun _ _ _ hs hok hstep => hs.step hok hstep).nothingLost

end Step

/-! ## Two processes at the start of a file -/

/-- Both write a byte, and the second is the first to be back from `getblk`. -/
def bothAtOnce : List (Act Bool) := [
  .file_write false false 0 [1], .file_write true false 0 [2], .go true true, .go true true,
  .go false true, .go false true]

/-- The zone of one process takes the place of that of the other. -/
theorem not_growth_loses_nothing :
    ¬ ∀ s, Reach step Free (start (T := Bool) emptyFile.inode emptyDisk) s → NothingLost s := by
  intro h
  obtain ⟨s, hs, h6, h7⟩ : ∃ s, exec step (start emptyFile.inode emptyDisk) bothAtOnce = some s ∧
      (0, 6) ∈ s.returned ∧ (0, 7) ∈ s.returned := exec_any (by decide +kernel)
  exact absurd ((h s (exec_reach hs)).returned 0 6 7 h6 h7) (by decide)

def oneAfterTheOther : List (Act Bool) := [
  .file_write false false 0 [1], .go false true, .go false true,
  .file_write true false 0 [2], .go true true]

theorem growth_loses_nothing_oneAfterTheOther : ∃ s : State Bool,
    exec (checked step StillEmpty) (start emptyFile.inode emptyDisk) oneAfterTheOther = some s ∧
      s.marked = [6] ∧ NothingLost s := by
  obtain ⟨s, hs, hm⟩ : ∃ s, exec (checked step StillEmpty) (start emptyFile.inode emptyDisk)
      oneAfterTheOther = some s ∧ s.marked = [6] := exec_any (by decide +kernel)
  exact ⟨s, hs, hm, growth_loses_nothing emptyFile_holds.tree (exec_checked hs)⟩

end Growth

end Linux011
