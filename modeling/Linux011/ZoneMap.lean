import Linux011.SuperBlock

/-!
# The zone map

The part of `new_block` and `free_block` of `fs/bitmap.c` that is about the bitmap of the
zones: zone `z` has bit `z - (s_firstdatazone - 1)`, in slot `bit / 8192`.

`Covers` is the invariant of a loaded map: its fields are those of the super block, bit 0 is set,
and the slots up to the last zone are there. With it the search of `new_block` gives the first
free zone or finds that all are taken, and the arithmetic of the source, which counts bits from
one zone in front of the first, comes out right. A bit behind the last zone may be found and set
too; `new_block` then returns 0, as if the device were full (`Covers.takeBeyond`).
-/

namespace Linux011

open Function Bitmap

namespace Super

/-- `new_block` up to the zone number `j`; `none` where it returns 0. -/
def takeZone (sb : SuperBlock) : Except String (SuperBlock × Option Nat) :=
  let (i, j) := search sb.s_zmap 8 0 8192
  match sb.s_zmap i with
  | none => .ok (sb, none)
  | some bh =>
      if i ≥ 8 ∨ j ≥ 8192 then .ok (sb, none)
      else if bit bh.b_data j then .error "new_block: bit already set"
      else
        let sb := { sb with s_zmap := setMap sb.s_zmap i (setBit bh.b_data j) }
        let j := j + i * 8192 + sb.s_firstdatazone - 1
        if j ≥ sb.s_nzones then .ok (sb, none) else .ok (sb, some j)

/-- `free_block` behind `brelse`; `block -= s_firstdatazone - 1` is an `int`. -/
def freeZone (sb : SuperBlock) (block : Nat) : Except String SuperBlock :=
  let block := block + 1 - sb.s_firstdatazone
  match sb.s_zmap (block / 8192) with
  | none => .error "s_zmap"
  | some bh =>
      if bit bh.b_data (block % 8192) = false then .error "free_block: bit already cleared"
      else
        .ok { sb with
          s_zmap := setMap sb.s_zmap (block / 8192) (clearBit bh.b_data (block % 8192)) }

namespace SuperBlock

def InRange (sb : SuperBlock) (z : Nat) : Prop := sb.s_firstdatazone ≤ z ∧ z < sb.s_nzones

/-- The bit of zone `z` is set. -/
def allocated (sb : SuperBlock) (z : Nat) : Bool :=
  used sb.s_zmap (z + 1 - sb.s_firstdatazone)

/-- The super block as `read_super` leaves it: bit 0 is set and the slots in use cover the
zones. -/
structure Covers (sb : SuperBlock) (d : DSuperBlock) : Prop where
  fields : sb.toDSuperBlock = d
  bit0 : used sb.s_zmap 0 = true
  slots : ∀ i, (sb.s_zmap i).isSome = decide (i < d.s_zmap_blocks)
  /-- zone 0 is the boot block -/
  boot : 0 < d.s_firstdatazone
  maps : d.s_zmap_blocks ≤ Z_MAP_SLOTS
  zones : d.s_nzones < 8192 * d.s_zmap_blocks + d.s_firstdatazone

variable {sb sb' : SuperBlock} {d : DSuperBlock}

theorem Covers.fdz (h : Covers sb d) : sb.s_firstdatazone = d.s_firstdatazone := by
  rw [← h.fields]

theorem Covers.nz (h : Covers sb d) : sb.s_nzones = d.s_nzones := by
  rw [← h.fields]

/-- The bit of a zone lies in a slot that is in use. -/
theorem Covers.slot (h : Covers sb d) {z : Nat} (hz : sb.InRange z) :
    ∃ bh, sb.s_zmap ((z + 1 - sb.s_firstdatazone) / 8192) = some bh := by
  obtain ⟨hlow, hhigh⟩ := hz
  have hzones := h.zones
  rw [← h.nz, ← h.fdz] at hzones
  have hlt : (z + 1 - sb.s_firstdatazone) / 8192 < d.s_zmap_blocks := by
    rw [Nat.div_lt_iff_lt_mul (by decide), Nat.mul_comm]
    omega
  have hsome := h.slots ((z + 1 - sb.s_firstdatazone) / 8192)
  rw [decide_eq_true hlt] at hsome
  exact Option.isSome_iff_exists.mp hsome

/-- A slot beyond those of the array is empty. -/
theorem Covers.last (h : Covers sb d) {i : Nat} (hi : 8 ≤ i) : sb.s_zmap i = none := by
  have hsome := h.slots i
  have hmaps := h.maps
  rw [Z_MAP_SLOTS] at hmaps
  rw [decide_eq_false (by omega)] at hsome
  exact Option.not_isSome_iff_eq_none.mp (by rw [hsome]; exact Bool.false_ne_true)

theorem zone_bit_lt {z fdz nz maps : Nat} (hlow : fdz ≤ z) (hhigh : z < nz) (hmaps : maps ≤ 8)
    (hzones : nz < 8192 * maps + fdz) : z + 1 - fdz < 8 * 8192 := by omega

/-- The bit of a zone lies in one of the slots of the array. -/
theorem Covers.bit_lt (h : Covers sb d) {z : Nat} (hz : sb.InRange z) :
    z + 1 - sb.s_firstdatazone < 8 * 8192 := by
  have hzones := h.zones
  rw [← h.nz, ← h.fdz] at hzones
  exact zone_bit_lt hz.1 hz.2 h.maps hzones

theorem bit_inj {z z' : Nat} (hz : sb.InRange z) (hz' : sb.InRange z')
    (hbit : z + 1 - sb.s_firstdatazone = z' + 1 - sb.s_firstdatazone) : z = z' := by
  have h1 := hz.1
  have h2 := hz'.1
  omega

/-- The map with another block in the slot of bit `g`. -/
def setZmap (sb : SuperBlock) (g : Nat) (b_data : Nat → BitVec 32) : SuperBlock :=
  { sb with s_zmap := setMap sb.s_zmap (g / 8192) b_data }

/-- Replacing a block of the map keeps the layout, as long as bit 0 stays set. -/
theorem Covers.setZmap (h : Covers sb d) {g : Nat} {bh : MapBuffer} {b_data : Nat → BitVec 32}
    (hslot : sb.s_zmap (g / 8192) = some bh)
    (hbit0 : used (setMap sb.s_zmap (g / 8192) b_data) 0 = true) :
    Covers (sb.setZmap g b_data) d := by
  refine { h with fields := h.fields, bit0 := hbit0, slots := fun i => ?_ }
  dsimp only [SuperBlock.setZmap]
  rw [← h.slots i, setMap]
  rcases eq_or_ne i (g / 8192) with rfl | hne
  · rw [update_self, hslot]
    rfl
  · rw [update_of_ne hne]

/-- A zone was free and is taken. -/
structure Takes (sb : SuperBlock) (z : Nat) (sb' : SuperBlock) : Prop where
  inRange : sb.InRange z
  free : sb.allocated z = false
  taken : sb'.allocated z = true
  others : ∀ z', sb.InRange z' → z' ≠ z → sb'.allocated z' = sb.allocated z'

/-- No zone was free. -/
structure Full (sb sb' : SuperBlock) : Prop where
  all : ∀ z, sb.InRange z → sb.allocated z = true
  same : ∀ z, sb.InRange z → sb'.allocated z = sb.allocated z

/-- The zone `z` is free afterwards, and no other zone has changed. -/
structure Frees (sb : SuperBlock) (z : Nat) (sb' : SuperBlock) : Prop where
  free : sb'.allocated z = false
  others : ∀ z', sb.InRange z' → z' ≠ z → sb'.allocated z' = sb.allocated z'

/-- Setting the bit `g` of a free zone. -/
theorem Covers.take (h : Covers sb d) {g : Nat} {bh : MapBuffer}
    (hslot : sb.s_zmap (g / 8192) = some bh) (hg : 0 < g) (hclear : used sb.s_zmap g = false)
    (hz : sb.InRange (g + sb.s_firstdatazone - 1)) :
    Covers (sb.setZmap g (setBit bh.b_data (g % 8192))) d ∧
      Takes sb (g + sb.s_firstdatazone - 1) (sb.setZmap g (setBit bh.b_data (g % 8192))) := by
  have hboot := h.boot
  rw [← h.fdz] at hboot
  have hbit : g + sb.s_firstdatazone - 1 + 1 - sb.s_firstdatazone = g := by omega
  have hused := fun k => used_setBit hslot k
  refine ⟨h.setZmap hslot ?_, hz, ?_, ?_, fun z hz' hne => ?_⟩
  · rw [hused, if_neg (by omega)]
    exact h.bit0
  · rw [allocated, hbit, hclear]
  · dsimp only [allocated, SuperBlock.setZmap]
    rw [hbit, hused, if_pos rfl]
  · dsimp only [allocated, SuperBlock.setZmap]
    rw [hused, if_neg fun heq => hne (bit_inj hz' hz (heq.trans hbit.symm))]

theorem Covers.takeBeyond (h : Covers sb d) {g : Nat} {bh : MapBuffer}
    (hslot : sb.s_zmap (g / 8192) = some bh) (hg : 0 < g)
    (hset : ∀ k < g, used sb.s_zmap k = true) (hz : sb.s_nzones ≤ g + sb.s_firstdatazone - 1) :
    Covers (sb.setZmap g (setBit bh.b_data (g % 8192))) d ∧
      Full sb (sb.setZmap g (setBit bh.b_data (g % 8192))) := by
  have hused := fun k => used_setBit hslot k
  have hlt : ∀ z, sb.InRange z → z + 1 - sb.s_firstdatazone < g := by
    rintro z ⟨hlow, hhigh⟩
    omega
  refine ⟨h.setZmap hslot ?_, fun z hrange => hset _ (hlt z hrange), fun z hrange => ?_⟩
  · rw [hused, if_neg (by omega)]
    exact h.bit0
  · dsimp only [allocated, SuperBlock.setZmap]
    rw [hused, if_neg (Nat.ne_of_lt (hlt z hrange))]

end SuperBlock

open SuperBlock

variable {sb : SuperBlock} {d : DSuperBlock}

/-- The bit of the first free zone is set, or no zone is free. -/
theorem takeZone_spec (h : Covers sb d) :
    ∃ sb' ret, takeZone sb = .ok (sb', ret) ∧ Covers sb' d ∧
      match ret with
      | some z => Takes sb z sb'
      | none => Full sb sb' := by
  have hfound := search_found sb.s_zmap 8 0 8192
  unfold takeZone
  generalize search sb.s_zmap 8 0 8192 = ij at hfound
  cases hfound with
  | full i j hi hall =>
      dsimp only
      rw [h.last (by omega)]
      refine ⟨sb, none, rfl, h, fun z hz => ?_, fun _ _ => rfl⟩
      exact hall _ (by rw [Nat.zero_mul]; exact Nat.zero_le _) (h.bit_lt hz)
  | free i j bh hi hj hslot hfirst hclear =>
      have hdiv : (i * 8192 + j) / 8192 = i := word_div hj
      have hmod : (i * 8192 + j) % 8192 = j := word_mod hj
      have hslot' : sb.s_zmap ((i * 8192 + j) / 8192) = some bh := by rw [hdiv, hslot]
      have hused : used sb.s_zmap (i * 8192 + j) = false := by
        rw [used_slot hj hslot, hclear]
      have hg : 0 < i * 8192 + j := by
        refine Nat.pos_of_ne_zero fun hzero => ?_
        rw [hzero, h.bit0] at hused
        cases hused
      dsimp only
      rw [hslot]
      dsimp only
      rw [if_neg (by omega), if_neg (by rw [hclear]; exact Bool.false_ne_true),
        Nat.add_comm j (i * 8192)]
      by_cases hz : i * 8192 + j + sb.s_firstdatazone - 1 ≥ sb.s_nzones
      · have hset : ∀ k < i * 8192 + j, used sb.s_zmap k = true := fun k hk =>
          hfirst.set k (by rw [Nat.zero_mul]; exact Nat.zero_le _) hk
        have hfull := h.takeBeyond hslot' hg hset hz
        rw [SuperBlock.setZmap, hdiv, hmod] at hfull
        rw [if_pos hz]
        exact ⟨_, none, rfl, hfull⟩
      · have hrange : sb.InRange (i * 8192 + j + sb.s_firstdatazone - 1) :=
          ⟨by omega, by omega⟩
        have htake := h.take hslot' hg hused hrange
        rw [SuperBlock.setZmap, hdiv, hmod] at htake
        rw [if_neg hz]
        exact ⟨_, some _, rfl, htake⟩

theorem freeZone_spec (h : Covers sb d) {z : Nat} (hz : sb.InRange z)
    (halloc : sb.allocated z = true) :
    ∃ sb', freeZone sb z = .ok sb' ∧ Covers sb' d ∧ Frees sb z sb' := by
  obtain ⟨bh, hslot⟩ := h.slot hz
  have hboot := h.boot
  rw [← h.fdz] at hboot
  have hlow := hz.1
  have hbit : bit bh.b_data ((z + 1 - sb.s_firstdatazone) % 8192) = true := by
    rw [allocated, used, hslot] at halloc
    exact halloc
  have hused := fun k => used_clearBit hslot k
  unfold freeZone
  dsimp only
  rw [hslot]
  dsimp only
  rw [if_neg (by rw [hbit]; exact Bool.noConfusion)]
  refine ⟨_, rfl, h.setZmap hslot ?_, ?_, fun z' hz' hne => ?_⟩
  · rw [hused, if_neg (by omega)]
    exact h.bit0
  · dsimp only [allocated]
    rw [hused, if_pos rfl]
  · dsimp only [allocated]
    rw [hused, if_neg fun heq => hne (bit_inj hz' hz heq)]

/-- No bit other than that of the zone has changed. -/
theorem freeZone_used {z : Nat} {sb' : SuperBlock} (h : freeZone sb z = .ok sb') (g : Nat) :
    used sb'.s_zmap g =
      if g = z + 1 - sb.s_firstdatazone then false else used sb.s_zmap g := by
  unfold freeZone at h
  dsimp only at h
  split at h
  · cases h
  · rename_i bh hslot
    split at h
    · cases h
    · obtain rfl := Except.ok.inj h
      exact used_clearBit hslot g

theorem freeZone_imap {z : Nat} {sb' : SuperBlock} (h : freeZone sb z = .ok sb') :
    sb'.s_imap = sb.s_imap := by
  unfold freeZone at h
  dsimp only at h
  split at h
  · cases h
  · split at h
    · cases h
    · obtain rfl := Except.ok.inj h
      rfl

end Super

end Linux011
