import Linux011.SuperBlock

/-!
# The references of `read_super`

`read_super` of `fs/super.c` behind `check_disk_change`, with the table of super blocks, the
fields as they stand in block 1 and the references to the buffers of the device. The maps of a
super block are pointers to buffers, here their block numbers; each loop reads a block at most
once, and a block may be readable in one loop and not in the other. A store behind the end of
`s_imap` or `s_zmap` and an access through a null pointer end the call.

Nothing compares `s_imap_blocks` and `s_zmap_blocks` with the number of slots, or with 0
(`super_block_parsed`).

The proof goes along the call and turns each loop into a closed form. `loadMap_spec` says how far
a loop comes, up to the end of its array, the first block that cannot be read or the number that
was asked for, with the buffers that it holds then (`span`) and the slots that it has filled
(`loaded`); `release_spec` says what giving the slots back does to these. Whether the call is
balanced is then a matter of comparing the two: the way out releases all slots of both arrays,
and `Fits` lists the numbers for which nothing was stored behind an array and no null pointer was
followed. A number that is too large does no harm if a block that cannot be read comes first,
which is why the condition is about the blocks of the disk too.
-/

namespace Linux011

open Function Bitmap Super

namespace ReadSuper

def NR_SUPER : Nat := 8

/-- A block as 256 words. -/
abbrev Words : Type := Nat → BitVec 32

/-- `struct d_super_block` as it stands in a block. -/
def parse (b : Words) : DSuperBlock where
  s_ninodes := (b 0).toNat % 0x10000
  s_nzones := (b 0).toNat / 0x10000
  s_imap_blocks := (b 1).toNat % 0x10000
  s_zmap_blocks := (b 1).toNat / 0x10000
  s_firstdatazone := (b 2).toNat % 0x10000
  s_magic := (b 4).toNat % 0x10000

/-- The pointers of `s_imap` or `s_zmap`. -/
abbrev Slots : Type := Nat → Option Nat

/-- `struct super_block`. -/
structure Entry extends DSuperBlock where
  s_imap : Slots
  s_zmap : Slots
  s_dev : UInt16
  s_isup : Option Nat
  s_imount : Option Nat
  s_time : Nat
  s_lock : Bool
  s_rd_only : Bool
  s_dirt : Bool

structure State where
  super_block : Fin NR_SUPER → Entry
  /-- of the buffers of the device, by block -/
  b_count : Nat → Nat
  b_data : Nat → Words

/-- What `bread` finds: in block 1, and in the blocks of the maps in either loop. -/
structure Disk where
  super : Option Words
  imap : Nat → Option Words
  zmap : Nat → Option Words

inductive Fault where
  /-- a store to a slot that there is not -/
  | index
  /-- an access through a null pointer -/
  | null
  /-- "Trying to free free buffer" -/
  | free

def bread (s : State) (block : Nat) : Option Words → State × Option Nat
  | some b_data => ({ s with
      b_count := update s.b_count block (s.b_count block + 1)
      b_data := update s.b_data block b_data }, some block)
  | none => (s, none)

def brelse (s : State) : Option Nat → Except Fault State
  | none => .ok s
  | some block =>
    if s.b_count block = 0 then .error .free
    else .ok { s with b_count := update s.b_count block (s.b_count block - 1) }

def State.setEntry (s : State) (i : Fin NR_SUPER) (e : Entry) : State :=
  { s with super_block := update s.super_block i e }

/-- `get_super` -/
def getSuper (s : State) (dev : UInt16) : Option (Fin NR_SUPER) :=
  (List.finRange NR_SUPER).find? fun i => decide ((s.super_block i).s_dev = dev)

/-- The loop over the blocks of one map, with `n` blocks to go, into an array of `size` slots. -/
def loadMap (read : Nat → Option Words) (size : Nat) :
    Nat → Nat → Nat → Slots → State → Except Fault (Slots × Nat × State)
  | 0, _, block, map, s => .ok (map, block, s)
  | n + 1, i, block, map, s =>
    let (s, bh) := bread s block (read block)
    if size ≤ i then .error .index
    else
      let map := update map i bh
      match bh with
      | some _ => loadMap read size n (i + 1) (block + 1) map s
      | none => .ok (map, block, s)

/-- `brelse` of the first `n` slots. -/
def release (map : Slots) : Nat → State → Except Fault State
  | 0, s => .ok s
  | n + 1, s => (release map n s).bind fun s => brelse s (map n)

/-- `map[0]->b_data[0] |= 1` -/
def setFirst (map : Slots) (s : State) : Except Fault State :=
  match map 0 with
  | none => .error .null
  | some block => .ok { s with
      b_data := update s.b_data block (setBit (s.b_data block) 0) }

/-- The slot is taken for the device. -/
def State.take (s : State) (dev : UInt16) (i : Fin NR_SUPER) : State :=
  s.setEntry i { s.super_block i with
    s_dev := dev
    s_isup := none
    s_imount := none
    s_time := 0
    s_rd_only := false
    s_dirt := false
    s_lock := true }

/-- The slot gets free. -/
def giveUp (s : State) (i : Fin NR_SUPER) : State :=
  s.setEntry i { s.super_block i with s_dev := 0, s_lock := false }

/-- The rest of `read_super` for the slot `i` with the fields `d`. -/
def readMaps (disk : Disk) (i : Fin NR_SUPER) (d : DSuperBlock) (s : State) :
    Except Fault (Option (Fin NR_SUPER) × State) := do
  let (s_imap, block, s) ← loadMap disk.imap I_MAP_SLOTS d.s_imap_blocks 0 2 (fun _ => none) s
  let (s_zmap, block, s) ← loadMap disk.zmap Z_MAP_SLOTS d.s_zmap_blocks 0 block (fun _ => none) s
  let s := s.setEntry i { s.super_block i with
    toDSuperBlock := d, s_imap := s_imap, s_zmap := s_zmap }
  if block ≠ 2 + d.s_imap_blocks + d.s_zmap_blocks then
    let s ← release s_imap I_MAP_SLOTS s
    let s ← release s_zmap Z_MAP_SLOTS s
    .ok (none, giveUp s i)
  else
    let s ← setFirst s_imap s
    let s ← setFirst s_zmap s
    .ok (some i, s.setEntry i { s.super_block i with s_lock := false })

def readSuper (dev : UInt16) (disk : Disk) (s : State) :
    Except Fault (Option (Fin NR_SUPER) × State) :=
  if dev = 0 then .ok (none, s)
  else
    match getSuper s dev, getSuper s 0 with
    | some i, _ => .ok (some i, s)
    | none, none => .ok (none, s)
    | none, some i =>
      let s := s.take dev i
      match disk.super with
      | none => .ok (none, giveUp s i)
      | some b_data => do
        let s ← brelse (bread s 1 (some b_data)).1 (some 1)
        let d := parse b_data
        let s := s.setEntry i { s.super_block i with toDSuperBlock := d }
        if d.s_magic ≠ SUPER_MAGIC then .ok (none, giveUp s i)
        else readMaps disk i d s

/-! ## What is asked of it -/

/-- The maps that the entry announces are there. -/
structure Loaded (e : Entry) : Prop where
  imap : ∀ i < e.s_imap_blocks, (e.s_imap i).isSome
  zmap : ∀ i < e.s_zmap_blocks, (e.s_zmap i).isSome

/-- The entries in use are loaded, and those that are not are unlocked. -/
def Ready (s : State) : Prop :=
  ∀ i, if (s.super_block i).s_dev = 0 then (s.super_block i).s_lock = false
    else Loaded (s.super_block i)

/-- The call returns without a fault: with an entry whose maps are loaded, or with no buffer
and no entry taken. -/
def Parsed (dev : UInt16) (disk : Disk) (s : State) : Prop :=
  ∃ ret s', readSuper dev disk s = .ok (ret, s') ∧
    match ret with
    | some i => (s'.super_block i).s_dev = dev ∧ Loaded (s'.super_block i)
    | none => s'.b_count = s.b_count ∧ ∀ i,
        (s'.super_block i).s_dev = (s.super_block i).s_dev ∧
          (s'.super_block i).s_lock = (s.super_block i).s_lock

/-- The `n` blocks from `first` on can be read. -/
def Readable (read : Nat → Option Words) (first n : Nat) : Prop :=
  ∀ j < n, (read (first + j)).isSome

/-- Of the `n` blocks from `first` on, `k` can be read before the first that can not. -/
structure Stops (read : Nat → Option Words) (first n k : Nat) : Prop where
  le : k ≤ n
  readable : Readable read first k
  last : k < n → read (first + k) = none

/-- The numbers of blocks are in bounds, or a block that cannot be read comes before it
matters. -/
structure Fits (disk : Disk) (d : DSuperBlock) : Prop where
  imap : I_MAP_SLOTS < d.s_imap_blocks → ¬ Readable disk.imap 2 I_MAP_SLOTS
  zmap : Z_MAP_SLOTS < d.s_zmap_blocks →
    ∀ k, Stops disk.imap 2 d.s_imap_blocks k → ¬ Readable disk.zmap (2 + k) Z_MAP_SLOTS
  pos : d.s_imap_blocks = 0 ∨ d.s_zmap_blocks = 0 →
    ¬ (Readable disk.imap 2 d.s_imap_blocks ∧
      Readable disk.zmap (2 + d.s_imap_blocks) d.s_zmap_blocks)

/-- The call gets as far as the fields of block 1. -/
structure Reads (dev : UInt16) (disk : Disk) (s : State) (d : DSuperBlock) : Prop where
  nonzero : dev ≠ 0
  new : getSuper s dev = none
  room : (getSuper s 0).isSome
  super : ∃ b_data, disk.super = some b_data ∧ d = parse b_data
  magic : d.s_magic = SUPER_MAGIC

/-! ## The loops -/

/-- How often block `b` is among the `k` blocks from `first` on. -/
def span (first k b : Nat) : Nat := if first ≤ b ∧ b < first + k then 1 else 0

/-- The slots behind a loop that has started at slot `i` and has read `k` blocks. -/
def loaded (map : Slots) (i block k : Nat) : Slots := fun j =>
  if i ≤ j ∧ j < i + k then some (block + (j - i)) else map j

section Loops

variable {read : Nat → Option Words} {first n k : Nat}

theorem Stops.zero (h : read first = none) : Stops read first n 0 where
  le := Nat.zero_le n
  readable := nofun
  last := fun _ => h

theorem Stops.nil (read : Nat → Option Words) (first : Nat) : Stops read first 0 0 where
  le := Nat.le_refl 0
  readable := nofun
  last := nofun

theorem Stops.succ (hread : (read first).isSome) (h : Stops read (first + 1) n k) :
    Stops read first (n + 1) (k + 1) where
  le := Nat.succ_le_succ h.le
  readable := by
    intro j hj
    cases j with
    | zero => exact hread
    | succ j =>
        rw [show first + (j + 1) = first + 1 + j by omega]
        exact h.readable j (by omega)
  last := by
    intro hlt
    rw [show first + (k + 1) = first + 1 + k by omega]
    exact h.last (by omega)

theorem Stops.readable_iff (h : Stops read first n k) {m : Nat} (hm : m ≤ n) :
    Readable read first m ↔ m ≤ k := by
  constructor
  · intro hall
    by_contra hlt
    have hsome := hall k (by omega)
    rw [h.last (by omega)] at hsome
    cases hsome
  · exact fun hle j hj => h.readable j (by omega)

theorem Stops.unique {k' : Nat} (h : Stops read first n k) (h' : Stops read first n k') :
    k = k' :=
  Nat.le_antisymm ((h'.readable_iff h.le).mp h.readable) ((h.readable_iff h'.le).mp h'.readable)

theorem span_zero (first b : Nat) : span first 0 b = 0 := by
  unfold span
  rw [if_neg (by omega)]

theorem span_succ (first k b : Nat) :
    span first (k + 1) b = (if b = first then 1 else 0) + span (first + 1) k b := by
  unfold span
  repeat' split
  all_goals omega

theorem loaded_zero (map : Slots) (i block : Nat) : loaded map i block 0 = map := by
  funext j
  exact if_neg (by omega)

theorem loaded_succ (map : Slots) (i block k : Nat) :
    loaded (update map i (some block)) (i + 1) (block + 1) k = loaded map i block (k + 1) := by
  funext j
  unfold loaded
  rcases Nat.lt_trichotomy j i with hlt | rfl | hlt
  · rw [if_neg (by omega), if_neg (by omega), update_of_ne (by omega)]
  · rw [if_neg (by omega), if_pos (by omega), update_self, Nat.sub_self, Nat.add_zero]
  · by_cases hj : j < i + 1 + k
    · rw [if_pos (by omega), if_pos (by omega), show block + 1 + (j - (i + 1)) = block + (j - i)
        by omega]
    · rw [if_neg (by omega), if_neg (by omega), update_of_ne (by omega)]

/-- A loop takes the blocks up to the first that cannot be read, or stores behind the end of
the array before it gets there. -/
theorem loadMap_spec (read : Nat → Option Words) (size : Nat) : ∀ (n i block : Nat) (map : Slots)
    (s : State), i ≤ size → (∀ j, i ≤ j → map j = none) → ∃ k, Stops read block n k ∧
      if size < i + n ∧ size ≤ i + k then loadMap read size n i block map s = .error .index
      else ∃ s', loadMap read size n i block map s
          = .ok (loaded map i block k, block + k, s') ∧
        s'.super_block = s.super_block ∧ ∀ b, s'.b_count b = s.b_count b + span block k b
  | 0, i, block, map, s, hi, _ => by
      refine ⟨0, .nil read block, ?_⟩
      rw [if_neg (by omega), loaded_zero]
      exact ⟨s, rfl, rfl, fun b => by rw [span_zero, Nat.add_zero]⟩
  | n + 1, i, block, map, s, hi, hmap => by
      rw [loadMap]
      cases hread : read block with
      | none =>
          refine ⟨0, .zero hread, ?_⟩
          dsimp only [bread]
          by_cases hsize : size ≤ i
          · rw [if_pos (by omega), if_pos hsize]
          · rw [if_neg (by omega), if_neg hsize, loaded_zero,
              show update map i none = map by rw [← hmap i (Nat.le_refl i), update_eq_self]]
            exact ⟨s, rfl, rfl, fun b => by rw [span_zero, Nat.add_zero]⟩
      | some b_data =>
          dsimp only [bread]
          by_cases hsize : size ≤ i
          · obtain ⟨k, hstops⟩ : ∃ k, Stops read (block + 1) n k := by
              obtain ⟨k, hstops, -⟩ := loadMap_spec read i n i (block + 1) map s
                (Nat.le_refl i) hmap
              exact ⟨k, hstops⟩
            refine ⟨k + 1, .succ (by rw [hread]; rfl) hstops, ?_⟩
            rw [if_pos (by omega), if_pos hsize]
          · obtain ⟨k, hstops, hrest⟩ := loadMap_spec read size n (i + 1) (block + 1)
              (update map i (some block))
              { s with
                b_count := update s.b_count block (s.b_count block + 1)
                b_data := update s.b_data block b_data } (by omega) (fun j hj => by
                  rw [update_of_ne (by omega)]
                  exact hmap j (by omega))
            refine ⟨k + 1, .succ (by rw [hread]; rfl) hstops, ?_⟩
            rw [if_neg hsize]
            by_cases hover : size < i + 1 + n ∧ size ≤ i + 1 + k
            · rw [if_pos hover] at hrest
              rw [if_pos (by omega)]
              exact hrest
            · rw [if_neg hover] at hrest
              rw [if_neg (by omega)]
              obtain ⟨s', hload, hsuper, hcount⟩ := hrest
              refine ⟨s', ?_, hsuper, fun b => ?_⟩
              · rw [← loaded_succ, show block + (k + 1) = block + 1 + k by omega]
                exact hload
              · rw [hcount, span_succ, ← Nat.add_assoc]
                congr 1
                dsimp only
                rcases eq_or_ne b block with rfl | hne
                · rw [update_self, if_pos rfl]
                · rw [update_of_ne hne, if_neg hne, Nat.add_zero]

theorem release_spec {map : Slots} {first k : Nat} {count : Nat → Nat} {s : State}
    (hmap : ∀ j, map j = if j < k then some (first + j) else none)
    (hcount : ∀ b, s.b_count b = count b + span first k b) (n : Nat) :
    ∃ s', release map n s = .ok s' ∧ s'.super_block = s.super_block ∧
      ∀ b, s'.b_count b = count b + span (first + n) (k - n) b := by
  induction n with
  | zero => exact ⟨s, rfl, rfl, hcount⟩
  | succ n ih =>
      obtain ⟨s', hrelease, hsuper, hcount'⟩ := ih
      rw [release, hrelease]
      dsimp only [Except.bind]
      rw [hmap]
      by_cases hn : n < k
      · have hspan : ∀ b, span (first + n) (k - n) b
            = (if b = first + n then 1 else 0) + span (first + (n + 1)) (k - (n + 1)) b := by
          intro b
          rw [show k - n = k - (n + 1) + 1 by omega, span_succ]
          rfl
        rw [if_pos hn]
        dsimp only [brelse]
        have hself : s'.b_count (first + n) = count (first + n)
            + span (first + (n + 1)) (k - (n + 1)) (first + n) + 1 := by
          rw [hcount', hspan, if_pos rfl]
          omega
        rw [if_neg (by omega)]
        refine ⟨_, rfl, hsuper, fun b => ?_⟩
        dsimp only
        rcases eq_or_ne b (first + n) with rfl | hne
        · rw [update_self, hself, Nat.add_sub_cancel]
        · rw [update_of_ne hne, hcount', hspan, if_neg hne, Nat.zero_add]
      · rw [if_neg hn]
        refine ⟨s', rfl, hsuper, fun b => ?_⟩
        rw [hcount', show k - n = 0 by omega, show k - (n + 1) = 0 by omega, span_zero, span_zero]

end Loops

/-! ## The call -/

section Call

variable {dev : UInt16} {disk : Disk} {d : DSuperBlock} {i : Fin NR_SUPER} {s : State}

theorem loaded_none (block k : Nat) (j : Nat) :
    loaded (fun _ => none) 0 block k j = if j < k then some (block + j) else none := by
  unfold loaded
  by_cases hj : j < k
  · rw [if_pos ⟨Nat.zero_le j, by omega⟩, if_pos hj, Nat.sub_zero]
  · rw [if_neg (by omega), if_neg hj]

/-- The way out: nothing is held, and the slot is free. -/
def Undone (i : Fin NR_SUPER) (s s' : State) : Prop :=
  s'.b_count = s.b_count ∧ (s'.super_block i).s_dev = 0 ∧ (s'.super_block i).s_lock = false ∧
    ∀ j, j ≠ i → s'.super_block j = s.super_block j

theorem undone_giveUp {s' : State} (hcount : s'.b_count = s.b_count)
    (hother : ∀ j, j ≠ i → s'.super_block j = s.super_block j) : Undone i s (giveUp s' i) := by
  unfold giveUp State.setEntry
  refine ⟨hcount, ?_, ?_, fun j hj => ?_⟩
  · dsimp only
    rw [update_self]
  · dsimp only
    rw [update_self]
  · dsimp only
    rw [update_of_ne hj]
    exact hother j hj

/-- Both loops have ended with the slots in bounds. -/
theorem readMaps_loaded {k m : Nat} {s₁ s₂ : State}
    (himap : loadMap disk.imap I_MAP_SLOTS d.s_imap_blocks 0 2 (fun _ => none) s
      = .ok (loaded (fun _ => none) 0 2 k, 2 + k, s₁))
    (hsuper₁ : s₁.super_block = s.super_block)
    (hcount₁ : ∀ b, s₁.b_count b = s.b_count b + span 2 k b)
    (hzmap : loadMap disk.zmap Z_MAP_SLOTS d.s_zmap_blocks 0 (2 + k) (fun _ => none) s₁
      = .ok (loaded (fun _ => none) 0 (2 + k) m, 2 + k + m, s₂))
    (hsuper₂ : s₂.super_block = s₁.super_block)
    (hcount₂ : ∀ b, s₂.b_count b = s₁.b_count b + span (2 + k) m b) (hk : k ≤ I_MAP_SLOTS)
    (hm : m ≤ Z_MAP_SLOTS) :
    if k + m ≠ d.s_imap_blocks + d.s_zmap_blocks then
      ∃ s', readMaps disk i d s = .ok (none, s') ∧ Undone i s s'
    else if k = 0 ∨ m = 0 then readMaps disk i d s = .error .null
    else ∃ s', readMaps disk i d s = .ok (some i, s') ∧
      (s'.super_block i).s_dev = (s.super_block i).s_dev ∧
      (s'.super_block i).toDSuperBlock = d ∧
      (s'.super_block i).s_imap = loaded (fun _ => none) 0 2 k ∧
      (s'.super_block i).s_zmap = loaded (fun _ => none) 0 (2 + k) m := by
  have hentry : ∀ e : Entry, (s₂.setEntry i e).b_count = s₂.b_count := fun _ => rfl
  unfold readMaps
  rw [himap]
  dsimp only [bind, Except.bind]
  rw [hzmap]
  dsimp only
  split
  · rename_i hne
    rw [if_pos (by omega)]
    obtain ⟨s₃, hrel₁, hsuper₃, hcount₃⟩ := @release_spec _ 2 k
      (fun b => s.b_count b + span (2 + k) m b) _ (loaded_none 2 k) (fun b => by
        rw [hentry, hcount₂, hcount₁, Nat.add_right_comm]) I_MAP_SLOTS
    rw [hrel₁]
    dsimp only
    obtain ⟨s₄, hrel₂, hsuper₄, hcount₄⟩ := @release_spec _ (2 + k) m s.b_count _
      (loaded_none (2 + k) m) (fun b => by
        rw [hcount₃, Nat.sub_eq_zero_of_le hk, span_zero, Nat.add_zero]) Z_MAP_SLOTS
    rw [hrel₂]
    refine ⟨_, rfl, undone_giveUp ?_ fun j hj => ?_⟩
    · funext b
      rw [hcount₄, Nat.sub_eq_zero_of_le hm, span_zero, Nat.add_zero]
    · rw [hsuper₄, hsuper₃, State.setEntry]
      dsimp only
      rw [update_of_ne hj, hsuper₂, hsuper₁]
  · rename_i hall
    have hend : ¬ 2 + k + m ≠ 2 + d.s_imap_blocks + d.s_zmap_blocks := by omega
    split
    · rename_i hzero
      unfold setFirst
      rw [loaded_none, loaded_none]
      rcases hzero with rfl | rfl
      · rw [if_neg (Nat.lt_irrefl 0)]
      · rw [if_neg (Nat.lt_irrefl 0)]
        rcases Nat.eq_zero_or_pos k with rfl | hk0
        · rw [if_neg (Nat.lt_irrefl 0)]
        · rw [if_pos hk0]
    · rename_i hpos
      unfold setFirst
      rw [loaded_none, loaded_none, if_pos (by omega), if_pos (by omega)]
      refine ⟨_, rfl, ?_⟩
      dsimp only [State.setEntry]
      rw [update_self, update_self, hsuper₂, hsuper₁]
      exact ⟨rfl, rfl, rfl, rfl⟩

/-- With numbers that fit the maps are loaded or everything is undone, and otherwise there is a
fault. -/
theorem readMaps_spec (disk : Disk) (i : Fin NR_SUPER) (d : DSuperBlock) (s : State) :
    (Fits disk d → ∃ ret s', readMaps disk i d s = .ok (ret, s') ∧
      match ret with
      | some j => j = i ∧ (s'.super_block i).s_dev = (s.super_block i).s_dev ∧
          Loaded (s'.super_block i)
      | none => Undone i s s') ∧
    (¬ Fits disk d → ∃ f, readMaps disk i d s = .error f) := by
  obtain ⟨k, hk, himap⟩ := loadMap_spec disk.imap I_MAP_SLOTS d.s_imap_blocks 0 2
    (fun _ => none) s (Nat.zero_le _) fun _ _ => rfl
  by_cases hover : I_MAP_SLOTS < 0 + d.s_imap_blocks ∧ I_MAP_SLOTS ≤ 0 + k
  · have hunfit : ¬ Fits disk d := fun h =>
      h.imap (by omega) ((hk.readable_iff (by omega)).mpr (by omega))
    rw [if_pos hover] at himap
    refine ⟨fun h => absurd h hunfit, fun _ => ⟨.index, ?_⟩⟩
    unfold readMaps
    rw [himap]
    rfl
  · rw [if_neg hover] at himap
    obtain ⟨s₁, himap, hsuper₁, hcount₁⟩ := himap
    obtain ⟨m, hm, hzmap⟩ := loadMap_spec disk.zmap Z_MAP_SLOTS d.s_zmap_blocks 0 (2 + k)
      (fun _ => none) s₁ (Nat.zero_le _) fun _ _ => rfl
    by_cases hover₂ : Z_MAP_SLOTS < 0 + d.s_zmap_blocks ∧ Z_MAP_SLOTS ≤ 0 + m
    · have hunfit : ¬ Fits disk d := fun h =>
        h.zmap (by omega) k hk ((hm.readable_iff (by omega)).mpr (by omega))
      rw [if_pos hover₂] at hzmap
      refine ⟨fun h => absurd h hunfit, fun _ => ⟨.index, ?_⟩⟩
      unfold readMaps
      rw [himap]
      dsimp only [bind, Except.bind]
      rw [hzmap]
    · rw [if_neg hover₂] at hzmap
      obtain ⟨s₂, hzmap, hsuper₂, hcount₂⟩ := hzmap
      have hkle := hk.le
      have hmle := hm.le
      have hcases := @readMaps_loaded disk d i s k m s₁ s₂ himap hsuper₁ hcount₁ hzmap hsuper₂
        hcount₂ (by omega) (by omega)
      have himapFits : I_MAP_SLOTS < d.s_imap_blocks → ¬ Readable disk.imap 2 I_MAP_SLOTS :=
        fun hlt hread => hover ⟨by omega, by have := (hk.readable_iff (Nat.le_of_lt hlt)).mp hread; omega⟩
      have hzmapFits : Z_MAP_SLOTS < d.s_zmap_blocks → ∀ k', Stops disk.imap 2 d.s_imap_blocks k' →
          ¬ Readable disk.zmap (2 + k') Z_MAP_SLOTS := by
        intro hlt k' hk' hread
        obtain rfl := hk.unique hk'
        exact hover₂ ⟨by omega, by have := (hm.readable_iff (Nat.le_of_lt hlt)).mp hread; omega⟩
      have hall : (Readable disk.imap 2 d.s_imap_blocks ∧
          Readable disk.zmap (2 + d.s_imap_blocks) d.s_zmap_blocks) ↔
          k = d.s_imap_blocks ∧ m = d.s_zmap_blocks := by
        rw [hk.readable_iff (Nat.le_refl _)]
        constructor
        · rintro ⟨hi, hz⟩
          obtain rfl : k = d.s_imap_blocks := by omega
          have := (hm.readable_iff (Nat.le_refl _)).mp hz
          omega
        · rintro ⟨rfl, rfl⟩
          exact ⟨Nat.le_refl _, hm.readable⟩
      split at hcases
      · rename_i hne
        refine ⟨fun _ => ?_, fun hunfit => absurd ⟨himapFits, hzmapFits, fun _ hread => ?_⟩ hunfit⟩
        · obtain ⟨s', hcall, hundone⟩ := hcases
          exact ⟨none, s', hcall, hundone⟩
        · have := hall.mp hread
          omega
      · rename_i heq
        have hboth : k = d.s_imap_blocks ∧ m = d.s_zmap_blocks := by omega
        split at hcases
        · rename_i hzero
          refine ⟨fun h => absurd (hall.mpr hboth) (h.pos ?_), fun _ => ⟨_, hcases⟩⟩
          rwa [hboth.1, hboth.2] at hzero
        · rename_i hpos
          refine ⟨fun _ => ?_, fun hunfit => absurd ⟨himapFits, hzmapFits, fun hzero => ?_⟩ hunfit⟩
          · obtain ⟨s', hcall, hdev, hfields, hi, hz⟩ := hcases
            refine ⟨some i, s', hcall, rfl, hdev, ?_, ?_⟩
            · intro j hj
              rw [hfields, ← hboth.1] at hj
              rw [hi, loaded_none, if_pos hj]
              rfl
            · intro j hj
              rw [hfields, ← hboth.2] at hj
              rw [hz, loaded_none, if_pos hj]
              rfl
          · rw [← hboth.1, ← hboth.2] at hzero
            exact absurd hzero hpos

theorem getSuper_some (h : getSuper s dev = some i) : (s.super_block i).s_dev = dev := by
  unfold getSuper at h
  have hfound := List.find?_some h
  exact of_decide_eq_true hfound

theorem take_other (s : State) (dev : UInt16) {j : Fin NR_SUPER} (hj : j ≠ i) :
    (s.take dev i).super_block j = s.super_block j := by
  unfold State.take State.setEntry
  exact update_of_ne hj _ _

theorem Undone.parsed {s₁ s' : State} (h : Undone i s₁ s') (hcount : s₁.b_count = s.b_count)
    (hfree : (s.super_block i).s_dev = 0 ∧ (s.super_block i).s_lock = false)
    (hother : ∀ j, j ≠ i → s₁.super_block j = s.super_block j) : s'.b_count = s.b_count ∧ ∀ j,
      (s'.super_block j).s_dev = (s.super_block j).s_dev ∧
        (s'.super_block j).s_lock = (s.super_block j).s_lock := by
  obtain ⟨hcount', hdev, hlock, hother'⟩ := h
  refine ⟨hcount'.trans hcount, fun j => ?_⟩
  rcases eq_or_ne j i with rfl | hne
  · rw [hdev, hlock, hfree.1, hfree.2]
    exact ⟨rfl, rfl⟩
  · rw [hother' j hne, hother j hne]
    exact ⟨rfl, rfl⟩

theorem brelse_bread (s : State) (block : Nat) (b_data : Words) :
    ∃ s', brelse (bread s block (some b_data)).1 (some block) = .ok s' ∧
      s'.b_count = s.b_count ∧ s'.super_block = s.super_block := by
  dsimp only [bread, brelse]
  rw [if_neg (by rw [update_self]; exact Nat.succ_ne_zero _)]
  refine ⟨_, rfl, ?_, rfl⟩
  dsimp only
  rw [update_self, Nat.add_sub_cancel, update_idem, update_eq_self]

theorem Ready.free (hs : Ready s) (h : getSuper s 0 = some i) :
    (s.super_block i).s_dev = 0 ∧ (s.super_block i).s_lock = false := by
  have hdev := getSuper_some h
  have hready := hs i
  rw [if_pos hdev] at hready
  exact ⟨hdev, hready⟩

/-- The call ends before it looks at the maps. -/
theorem parsed_early (hs : Ready s) (h : ∀ d, ¬ Reads dev disk s d) : Parsed dev disk s := by
  unfold Parsed readSuper
  split
  · exact ⟨none, s, rfl, rfl, fun _ => ⟨rfl, rfl⟩⟩
  · rename_i hdev
    cases hfound : getSuper s dev with
    | some i =>
        have hsame := getSuper_some hfound
        have hready := hs i
        rw [if_neg (by rw [hsame]; exact hdev)] at hready
        exact ⟨some i, s, rfl, hsame, hready⟩
    | none =>
        cases hfree : getSuper s 0 with
        | none => exact ⟨none, s, rfl, rfl, fun _ => ⟨rfl, rfl⟩⟩
        | some i =>
            dsimp only
            cases hread : disk.super with
            | none =>
                have hundone : Undone i s (giveUp (s.take dev i) i) :=
                  undone_giveUp rfl fun j hj => take_other s dev hj
                exact ⟨none, _, rfl, hundone.parsed rfl (hs.free hfree) fun _ _ => rfl⟩
            | some b_data =>
                have hmagic : (parse b_data).s_magic ≠ SUPER_MAGIC := fun hm =>
                  h (parse b_data) ⟨hdev, hfound, by rw [hfree]; rfl, ⟨b_data, hread, rfl⟩, hm⟩
                obtain ⟨s', hrel, hcount, hsuper⟩ := brelse_bread (s.take dev i) 1 b_data
                have hundone : Undone i s (giveUp (s'.setEntry i { s'.super_block i with
                    toDSuperBlock := parse b_data }) i) := by
                  refine undone_giveUp hcount fun j hj => ?_
                  dsimp only [State.setEntry]
                  rw [update_of_ne hj, hsuper]
                  exact take_other s dev hj
                dsimp only
                rw [hrel]
                dsimp only [bind, Except.bind]
                rw [if_pos hmagic]
                exact ⟨none, _, rfl, hundone.parsed rfl (hs.free hfree) fun _ _ => rfl⟩

/-- The call gets to the maps with an entry of its own. -/
theorem Reads.readMaps (h : Reads dev disk s d) : ∃ i s₁, getSuper s 0 = some i ∧
    s₁.b_count = s.b_count ∧ (s₁.super_block i).s_dev = dev ∧
    (∀ j, j ≠ i → s₁.super_block j = s.super_block j) ∧
    readSuper dev disk s = readMaps disk i d s₁ := by
  obtain ⟨hdev, hnew, hroom, ⟨b_data, hread, rfl⟩, hmagic⟩ := h
  obtain ⟨i, hi⟩ := Option.isSome_iff_exists.mp hroom
  obtain ⟨s', hrel, hcount, hsuper⟩ := brelse_bread (s.take dev i) 1 b_data
  refine ⟨i, s'.setEntry i { s'.super_block i with toDSuperBlock := parse b_data }, hi, hcount, ?_,
    fun j hj => ?_, ?_⟩
  · dsimp only [State.setEntry]
    rw [update_self, hsuper, State.take, State.setEntry]
    dsimp only
    rw [update_self]
  · dsimp only [State.setEntry]
    rw [update_of_ne hj, hsuper]
    exact take_other s dev hj
  · unfold readSuper
    rw [if_neg hdev, hnew, hi]
    dsimp only
    rw [hread]
    dsimp only
    rw [hrel]
    dsimp only [bind, Except.bind]
    rw [if_neg (not_not.mpr hmagic)]

/-- A call keeps to the arrays and gives back what it took, or has loaded the maps,
exactly if the numbers of blocks in block 1 fit, should it get as far as these: for
every device, every pattern of blocks that cannot be read and every table whose entries
in use are loaded. -/
theorem super_block_parsed (hs : Ready s) :
    Parsed dev disk s ↔ ∀ d, Reads dev disk s d → Fits disk d := by
  constructor
  · intro hparsed d hreads
    by_contra hunfit
    obtain ⟨i, s₁, -, -, -, -, hcall⟩ := hreads.readMaps
    obtain ⟨f, herror⟩ := (readMaps_spec disk i d s₁).2 hunfit
    obtain ⟨ret, s', hok, -⟩ := hparsed
    rw [hcall, herror] at hok
    cases hok
  · intro hfits
    by_cases hreads : ∃ d, Reads dev disk s d
    · obtain ⟨d, hreads⟩ := hreads
      obtain ⟨i, s₁, hfree, hcount, hdev, hother, hcall⟩ := hreads.readMaps
      obtain ⟨ret, s', hok, hspec⟩ := (readMaps_spec disk i d s₁).1 (hfits d hreads)
      refine ⟨ret, s', hcall.trans hok, ?_⟩
      cases ret with
      | none => exact hspec.parsed hcount (hs.free hfree) hother
      | some j =>
          obtain ⟨rfl, hdev', hloaded⟩ := hspec
          exact ⟨hdev'.trans hdev, hloaded⟩
    · exact parsed_early hs fun d hd => hreads ⟨d, hd⟩

end Call

/-! ## A floppy, and a block with a large number -/

section Floppy

def empty : Entry where
  toDSuperBlock := ⟨0, 0, 0, 0, 0, 0⟩
  s_imap _ := none
  s_zmap _ := none
  s_dev := 0
  s_isup := none
  s_imount := none
  s_time := 0
  s_lock := false
  s_rd_only := false
  s_dirt := false

def unmounted : State := ⟨fun _ => empty, fun _ => 0, fun _ _ => 0⟩

/-- 1440 zones, with `imap` and `zmap` blocks of maps. -/
def block1 (imap zmap : Nat) : Words
  | 0 => .ofNat 32 (480 + 1440 * 0x10000)
  | 1 => .ofNat 32 (imap + zmap * 0x10000)
  | 2 => .ofNat 32 19
  | 4 => .ofNat 32 SUPER_MAGIC
  | _ => 0

/-- A disk without errors. -/
def sound (imap zmap : Nat) : Disk :=
  ⟨some (block1 imap zmap), fun _ => some fun _ => 0, fun _ => some fun _ => 0⟩

theorem unmounted_ready : Ready unmounted := by
  intro i
  rw [if_pos (show (unmounted.super_block i).s_dev = 0 from rfl)]
  rfl

theorem super_block_parsed_floppy : Parsed 0x21c (sound 1 1) unmounted := by
  refine (super_block_parsed unmounted_ready).mpr ?_
  rintro d ⟨-, -, -, ⟨b_data, hread, rfl⟩, -⟩
  obtain rfl := Option.some.inj hread
  exact ⟨fun h => absurd h (by decide), fun h => absurd h (by decide),
    fun h => absurd h (by decide)⟩

/-- Nine blocks are stored to eight slots. -/
theorem not_super_block_parsed : Ready unmounted ∧ ¬ Parsed 0x21c (sound 9 1) unmounted := by
  refine ⟨unmounted_ready, ?_⟩
  rintro ⟨ret, s', hcall, -⟩
  have hfault : (readSuper 0x21c (sound 9 1) unmounted).toOption.isSome = false := by decide
  rw [hcall] at hfault
  cases hfault

end Floppy

end ReadSuper

end Linux011
