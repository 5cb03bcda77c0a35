import Linux011.Bitmap

/-!
# The super block and its bitmaps

`read_super` of `fs/super.c` and the search for a free bit that `new_block` and `new_inode`
of `fs/bitmap.c` make over the maps of the super block. A map block is 256 words of 32 bits.

The maps are spread over buffers of 8192 bits, and the search goes through the slots one after
the other; `used` reads all of them as one bitmap, where a slot without a buffer has no free bit.
`Bitmap` then says which bit is found in one block, and `Found.skip` puts the blocks that were
searched in vain in front. Two properties of a map that `read_super` has loaded are needed by
those who allocate: which slots are filled, and that bit 0 is set, so that no search ever gives
the zone in front of the first one.
-/

namespace Linux011

open Function Bitmap

namespace Super

def I_MAP_SLOTS : Nat := 8
def Z_MAP_SLOTS : Nat := 8
def SUPER_MAGIC : Nat := 0x137F

/-- The buffer of a block of a bitmap, as the super block holds it. -/
structure MapBuffer where
  b_data : Nat → BitVec 32
  b_dirt : Bool

/-- `struct d_super_block`; the numbers are `unsigned short` and all arithmetic on them is
that of `int`. -/
structure DSuperBlock where
  s_ninodes : Nat
  s_nzones : Nat
  s_imap_blocks : Nat
  s_zmap_blocks : Nat
  s_firstdatazone : Nat
  s_magic : Nat

structure SuperBlock extends DSuperBlock where
  s_imap : Nat → Option MapBuffer
  s_zmap : Nat → Option MapBuffer

/-- The loop over the blocks of one bitmap, from block `block` on: the slots and the number
of the block behind. -/
def readMap (bread : Nat → Option (Nat → BitVec 32)) (block : Nat) :
    Nat → (Nat → Option MapBuffer) × Nat
  | 0 => (fun _ => none, block)
  | n + 1 =>
      let (slots, next) := readMap bread block n
      if next < block + n then (slots, next)
      else
        match bread next with
        | some b_data => (update slots n (some ⟨b_data, false⟩), next + 1)
        | none => (slots, next)

/-- `s_imap[0]->b_data[0] |= 1`, and the same for `s_zmap`. -/
def setFirst (slots : Nat → Option MapBuffer) : Nat → Option MapBuffer :=
  update slots 0 ((slots 0).map fun bh => { bh with b_data := setBit bh.b_data 0 })

/-- `read_super` once the slot of the table is there and block 1 is read. -/
def readSuper (d : DSuperBlock) (bread : Nat → Option (Nat → BitVec 32)) : Option SuperBlock :=
  if d.s_magic ≠ SUPER_MAGIC then none
  else
    let (s_imap, block) := readMap bread 2 d.s_imap_blocks
    let (s_zmap, block) := readMap bread block d.s_zmap_blocks
    if block ≠ 2 + d.s_imap_blocks + d.s_zmap_blocks then none
    else some { d with s_imap := setFirst s_imap, s_zmap := setFirst s_zmap }

/-- `find_first_zero`. -/
def findFirstZero (b_data : Nat → BitVec 32) : Nat := scan b_data 256 0

/-- The loop `for (i=0 ; i<8 ; i++)` over the maps: `i` and `j` behind it. -/
def search (map : Nat → Option MapBuffer) : Nat → Nat → Nat → Nat × Nat
  | 0, i, j => (i, j)
  | n + 1, i, j =>
      match map i with
      | none => search map n (i + 1) j
      | some bh =>
          let j := findFirstZero bh.b_data
          if j < 8192 then (i, j) else search map n (i + 1) j

/-! ## The maps as one bitmap -/

/-- Bit `g` of the bitmap in the slots `map`; the slots that are empty have no free bit. -/
def used (map : Nat → Option MapBuffer) (g : Nat) : Bool :=
  match map (g / 8192) with
  | some bh => bit bh.b_data (g % 8192)
  | none => true

/-- A map with one of its blocks replaced. -/
def setMap (map : Nat → Option MapBuffer) (i : Nat) (b_data : Nat → BitVec 32) :
    Nat → Option MapBuffer :=
  update map i (some ⟨b_data, true⟩)

theorem used_slot {map : Nat → Option MapBuffer} {i k : Nat} {bh : MapBuffer} (hk : k < 8192)
    (hmap : map i = some bh) : used map (i * 8192 + k) = bit bh.b_data k := by
  unfold used
  rw [word_div hk, hmap]
  dsimp only
  rw [word_mod hk]

theorem used_empty {map : Nat → Option MapBuffer} {i k : Nat} (hk : k < 8192)
    (hmap : map i = none) : used map (i * 8192 + k) = true := by
  unfold used
  rw [word_div hk, hmap]

theorem used_setBit {map : Nat → Option MapBuffer} {g : Nat} {bh : MapBuffer}
    (hmap : map (g / 8192) = some bh) (k : Nat) :
    used (setMap map (g / 8192) (setBit bh.b_data (g % 8192))) k =
      if k = g then true else used map k := by
  unfold used setMap
  by_cases hdiv : k / 8192 = g / 8192
  · rw [hdiv, update_self, hmap]
    dsimp only
    rw [bit_setBit _ (by decide)]
    by_cases hmod : k % 8192 = g % 8192
    · rw [if_pos hmod, if_pos (same_bit hdiv hmod)]
    · rw [if_neg hmod, if_neg fun h : k = g => hmod (h ▸ rfl)]
  · rw [update_of_ne hdiv, if_neg fun h : k = g => hdiv (h ▸ rfl)]

theorem used_clearBit {map : Nat → Option MapBuffer} {g : Nat} {bh : MapBuffer}
    (hmap : map (g / 8192) = some bh) (k : Nat) :
    used (setMap map (g / 8192) (clearBit bh.b_data (g % 8192))) k =
      if k = g then false else used map k := by
  unfold used setMap
  by_cases hdiv : k / 8192 = g / 8192
  · rw [hdiv, update_self, hmap]
    dsimp only
    rw [bit_clearBit _ (by decide)]
    by_cases hmod : k % 8192 = g % 8192
    · rw [if_pos hmod, if_pos (same_bit hdiv hmod)]
    · rw [if_neg hmod, if_neg fun h : k = g => hmod (h ▸ rfl)]
  · rw [update_of_ne hdiv, if_neg fun h : k = g => hdiv (h ▸ rfl)]

theorem findFirstZero_spec (b_data : Nat → BitVec 32) :
    FirstClear (bit b_data) 0 8192 (findFirstZero b_data) := by
  have h := scan_firstClear b_data (by decide) 256 0
  rwa [Nat.zero_mul] at h

/-- What the search leaves behind: the first free bit, or none in any slot. -/
inductive Found (map : Nat → Option MapBuffer) (lo hi : Nat) : Nat × Nat → Prop where
  | free (i j : Nat) (bh : MapBuffer) (lt : i < hi) (hj : j < 8192) (slot : map i = some bh)
      (first : FirstClear (used map) (lo * 8192) (hi * 8192) (i * 8192 + j))
      (clear : bit bh.b_data j = false) : Found map lo hi (i, j)
  | full (i j : Nat) (hi' : i = hi)
      (all : ∀ g, lo * 8192 ≤ g → g < hi * 8192 → used map g = true) : Found map lo hi (i, j)

theorem Found.skip {map : Nat → Option MapBuffer} {lo hi : Nat} {r : Nat × Nat}
    (hset : ∀ k < 8192, used map (lo * 8192 + k) = true) (h : Found map (lo + 1) hi r) :
    Found map lo hi r := by
  have hslot : ∀ g, lo * 8192 ≤ g → g < (lo + 1) * 8192 → used map g = true := by
    intro g hlo hlt
    obtain ⟨k, rfl⟩ := Nat.exists_eq_add_of_le hlo
    exact hset k (by omega)
  cases h with
  | free i j bh lt hj slot first clear =>
      exact .free i j bh lt hj slot (first.prepend hslot) clear
  | full i j hi' all =>
      refine .full i j hi' fun g hlo hlt => ?_
      rcases Nat.lt_or_ge g ((lo + 1) * 8192) with hg | hg
      · exact hslot g hlo hg
      · exact all g hg hlt

theorem search_found (map : Nat → Option MapBuffer) (n : Nat) :
    ∀ i j, Found map i (i + n) (search map n i j) := by
  induction n with
  | zero =>
      exact fun i j => .full i j rfl fun g hlo hlt => absurd hlt (Nat.not_lt_of_le hlo)
  | succ n ih =>
      intro i j
      have hrest : ∀ j, Found map (i + 1) (i + (n + 1)) (search map n (i + 1) j) := by
        intro j
        have h := ih (i + 1) j
        rwa [show i + 1 + n = i + (n + 1) by omega] at h
      unfold search
      cases hmap : map i with
      | none => exact (hrest j).skip fun k hk => used_empty hk hmap
      | some bh =>
          have hfirst := findFirstZero_spec bh.b_data
          have hbit : ∀ k < 8192, used map (i * 8192 + k) = bit bh.b_data k :=
            fun k hk => used_slot hk hmap
          dsimp only
          split
          · rename_i hj
            have hclear := hfirst.clear hj
            refine .free i _ bh (by omega) hj hmap ⟨by omega, fun g hlo hlt => ?_, fun _ => ?_⟩
              hclear
            · obtain ⟨k, rfl⟩ := Nat.exists_eq_add_of_le hlo
              rw [hbit k (by omega)]
              exact hfirst.set k (Nat.zero_le k) (by omega)
            · rw [hbit _ hj]
              exact hclear
          · rename_i hj
            refine (hrest _).skip fun k hk => ?_
            rw [hbit k hk]
            exact hfirst.set k (Nat.zero_le k) (by omega)

/-! ## What `read_super` leaves -/

theorem readMap_next (bread : Nat → Option (Nat → BitVec 32)) (block n : Nat) :
    (readMap bread block n).2 ≤ block + n := by
  induction n with
  | zero => exact Nat.le_refl _
  | succ n ih =>
      unfold readMap
      dsimp only
      split
      · omega
      · split
        · dsimp only
          omega
        · omega

/-- All blocks were readable: the slots in use are the first ones. -/
theorem readMap_slots {bread : Nat → Option (Nat → BitVec 32)} {block n : Nat}
    (h : (readMap bread block n).2 = block + n) (i : Nat) :
    ((readMap bread block n).1 i).isSome = decide (i < n) := by
  induction n with
  | zero => simp [readMap]
  | succ n ih =>
      have hnext := readMap_next bread block n
      unfold readMap at h ⊢
      dsimp only at h ⊢
      split at h
      · omega
      · rename_i hge
        have heq : (readMap bread block n).2 = block + n := by omega
        rw [if_neg hge]
        cases hread : bread (readMap bread block n).2 with
        | none =>
            rw [hread] at h
            dsimp only at h
            omega
        | some b_data =>
            dsimp only
            rcases eq_or_ne i n with rfl | hne
            · rw [update_self]
              simp
            · rw [update_of_ne hne, ih heq]
              exact decide_eq_decide.mpr (by omega)

theorem setFirst_isSome (slots : Nat → Option MapBuffer) (i : Nat) :
    (setFirst slots i).isSome = (slots i).isSome := by
  unfold setFirst
  rcases eq_or_ne i 0 with rfl | hne
  · rw [update_self, Option.isSome_map]
  · rw [update_of_ne hne]

theorem used_setFirst (slots : Nat → Option MapBuffer) : used (setFirst slots) 0 = true := by
  unfold used setFirst
  rw [show 0 / 8192 = 0 from rfl, update_self]
  cases slots 0 with
  | none => rfl
  | some bh =>
      dsimp only [Option.map_some]
      rw [bit_setBit _ (by decide), if_pos rfl]

/-- A super block that was loaded: its maps fill the first slots and bit 0 is set. -/
theorem readSuper_zmap {d : DSuperBlock} {bread : Nat → Option (Nat → BitVec 32)}
    {sb : SuperBlock} (h : readSuper d bread = some sb) :
    sb.toDSuperBlock = d ∧ used sb.s_zmap 0 = true ∧
      ∀ i, (sb.s_zmap i).isSome = decide (i < d.s_zmap_blocks) := by
  unfold readSuper at h
  split at h
  · cases h
  · dsimp only at h
    split at h
    · cases h
    · rename_i hblock
      obtain rfl := Option.some.inj h
      have hi := readMap_next bread 2 d.s_imap_blocks
      have hz := readMap_next bread (readMap bread 2 d.s_imap_blocks).2 d.s_zmap_blocks
      refine ⟨rfl, used_setFirst _, fun i => ?_⟩
      dsimp only
      rw [setFirst_isSome]
      exact readMap_slots (by omega) i

end Super

end Linux011
