import Linux011.Bmap
import Linux011.Loops

/-!
# A device some of whose blocks cannot be read

The blocks of a device as `bread` gives them, which of them it cannot give, and the holders of
the buffers, by block. A block that is held keeps its buffer, so `b_count` of a buffer is that of
its block. `_bmap` holds the index blocks that it reads while it looks at them.

A block that cannot be read makes an index block look empty, both where `_bmap` only reads and
where it creates; what it gives then is what the source gives. The lemmas of the first part say
what is read (`blockOf`) and that the buffers are held as before; those of the second part follow
`create_block`, where a zone that has just been taken can be read and is empty, so that the way
from a new index block on is known (`bmap_created`). The counts go through every function,
because what the callers are asked about is which buffers they still hold at their end.
-/

namespace Linux011

open Function Super SuperBlock Zones Bmap

structure Vol extends Disk where
  /-- `bread` returns `NULL` -/
  bad : Nat → Bool
  b_count : Nat → Nat

namespace Vol

/-- The block has one holder more. -/
def hold (v : Vol) (b : Nat) : Vol := { v with b_count := update v.b_count b (v.b_count b + 1) }

def bread (v : Vol) (b : Nat) : Option Vol := if v.bad b then none else some (v.hold b)

def brelse (v : Vol) (b : Nat) : Except String Vol :=
  if v.b_count b = 0 then .error "Trying to free free buffer"
  else .ok { v with b_count := update v.b_count b (v.b_count b - 1) }

/-- `bh->b_data` of block `b` is written. -/
def store (v : Vol) (b : Nat) (data : Bytes) : Vol := { v with toDisk := v.toDisk.store b data }

/-- `new_block`; the buffer of the zone it returns is up to date. -/
def newBlock (v : Vol) : Except String (Vol × Nat) :=
  match v.toDisk.newBlock with
  | .error e => .error e
  | .ok (disk, z) =>
      if z = 0 then .ok ({ v with toDisk := disk }, 0)
      else if v.b_count z ≠ 0 then .error "new block: count is != 1"
      else .ok ({ v with toDisk := disk, bad := update v.bad z false }, z)

/-- `i_zone[i]`, with the block that is created for it. -/
def zone (create : Bool) (inode : MInode) (v : Vol) (i : Nat) :
    Except String (MInode × Vol × Nat) :=
  if create ∧ inode.i_zone i = 0 then
    match v.newBlock with
    | .error e => .error e
    | .ok (v, z) =>
        if z = 0 then .ok (inode, v, 0)
        else
          let z := z % 0x10000
          .ok ({ inode with i_zone := update inode.i_zone i z, i_dirt := true }, v, z)
  else .ok (inode, v, inode.i_zone i)

/-- Word `k` of the index block `b`, with the block that is created for it. -/
def entry (create : Bool) (v : Vol) (b k : Nat) : Except String (Vol × Nat) :=
  match v.bread b with
  | none => .ok (v, 0)
  | some v =>
      let i := word (v.b_data b) k
      if create ∧ i = 0 then
        match v.newBlock with
        | .error e => .error e
        | .ok (v, i) =>
            let v := if i = 0 then v else v.store b (setWord (v.b_data b) k i)
            (v.brelse b).map fun v => (v, i)
      else (v.brelse b).map fun v => (v, i)

/-- `_bmap` -/
def bmap (create : Bool) (inode : MInode) (v : Vol) (block : Nat) :
    Except String (MInode × Vol × Nat) :=
  if block ≥ 7 + 512 + 512 * 512 then .error "_bmap: block>big"
  else if block < 7 then zone create inode v block
  else
    let block := block - 7
    if block < 512 then
      match zone create inode v 7 with
      | .error e => .error e
      | .ok (inode, v, z) =>
          if z = 0 then .ok (inode, v, 0)
          else (entry create v z block).map fun (v, i) => (inode, v, i)
    else
      let block := block - 512
      match zone create inode v 8 with
      | .error e => .error e
      | .ok (inode, v, z) =>
          if z = 0 then .ok (inode, v, 0)
          else
            match entry create v z (block / 512) with
            | .error e => .error e
            | .ok (v, i) =>
                if i = 0 then .ok (inode, v, 0)
                else (entry create v i (block % 512)).map fun (v, i) => (inode, v, i)

variable {v v' : Vol} {inode inode' : MInode} {b z block : Nat}

@[simp] theorem hold_disk (v : Vol) (b : Nat) : (v.hold b).toDisk = v.toDisk := rfl

@[simp] theorem hold_bad (v : Vol) (b : Nat) : (v.hold b).bad = v.bad := rfl

@[simp] theorem brelse_hold (v : Vol) (b : Nat) : (v.hold b).brelse b = .ok v := by
  have hcount : (v.hold b).b_count b = v.b_count b + 1 := update_self _ _ _
  unfold brelse
  rw [if_neg (by rw [hcount]; exact Nat.succ_ne_zero _), hcount]
  show Except.ok { v with b_count := update (update v.b_count b (v.b_count b + 1)) b (v.b_count b) }
    = _
  rw [update_idem, update_eq_self]

theorem bread_of_good (h : v.bad b = false) : v.bread b = some (v.hold b) := by
  rw [bread, h]
  rfl

theorem bread_of_bad (h : v.bad b = true) : v.bread b = none := if_pos h

/-! ## Reading the block map -/

/-- Word `k` of the index block `z`, 0 when it is not there or cannot be read. -/
def index (v : Vol) (z k : Nat) : Nat :=
  if z = 0 ∨ v.bad z = true then 0 else word (v.b_data z) k

/-- The block that `bmap` gives. -/
def blockOf (inode : MInode) (v : Vol) (block : Nat) : Nat :=
  match slotOf block with
  | .direct i => inode.i_zone i
  | .single k => v.index (inode.i_zone 7) k
  | .double a => v.index (inode.i_zone 8) a
  | .leaf a b => v.index (v.index (inode.i_zone 8) a) b

theorem entry_read (v : Vol) (hz : z ≠ 0) (k : Nat) :
    entry false v z k = .ok (v, v.index z k) := by
  unfold entry index
  cases hbad : v.bad z with
  | true =>
      rw [bread_of_bad hbad, if_pos (.inr rfl)]
  | false =>
      rw [bread_of_good hbad, if_neg (not_or.mpr ⟨hz, Bool.false_ne_true⟩)]
      dsimp only
      rw [if_neg fun hc => Bool.false_ne_true hc.1, brelse_hold]
      rfl

theorem index_zero (v : Vol) (k : Nat) : v.index 0 k = 0 := if_pos (.inl rfl)

/-- `bmap` changes nothing and holds nothing at its end. -/
theorem bmap_read (inode : MInode) (v : Vol) (h : block < MAXBLOCK) :
    bmap false inode v block = .ok (inode, v, blockOf inode v block) := by
  rw [MAXBLOCK] at h
  have hzone : ∀ i, zone false inode v i = .ok (inode, v, inode.i_zone i) := fun i =>
    if_neg fun hc => Bool.false_ne_true hc.1
  unfold bmap blockOf slotOf
  rw [if_neg (by omega)]
  by_cases h1 : block < 7
  · rw [if_pos h1, if_pos h1, hzone]
  rw [if_neg h1, if_neg h1]
  by_cases h2 : block - 7 < 512
  · dsimp only
    rw [if_pos h2, if_pos h2, hzone]
    dsimp only
    split
    · rename_i hz
      rw [hz, index_zero]
    · rename_i hz
      rw [entry_read v hz]
      rfl
  · dsimp only
    rw [if_neg h2, if_neg h2, hzone]
    dsimp only
    have hsub : block - 7 - 512 = block - 519 := by omega
    rw [hsub]
    split
    · rename_i hz
      rw [hz, index_zero, index_zero]
    · rename_i hz
      rw [entry_read v hz]
      dsimp only
      split
      · rename_i hi
        rw [hi, index_zero]
      · rename_i hi
        rw [entry_read v hi]
        rfl

theorem bmap_big (create : Bool) (inode : MInode) (v : Vol) (h : ¬block < MAXBLOCK) :
    bmap create inode v block = .error "_bmap: block>big" :=
  if_pos (Nat.le_of_not_lt h)

/-! ## Creating blocks -/

theorem newBlock_count (h : v.newBlock = .ok (v', z)) : v'.b_count = v.b_count := by
  unfold newBlock at h
  split at h
  · cases h
  · split at h
    · obtain ⟨rfl, -⟩ := Prod.mk.inj (Except.ok.inj h)
      rfl
    · split at h
      · cases h
      · obtain ⟨rfl, -⟩ := Prod.mk.inj (Except.ok.inj h)
        rfl

theorem zone_count {create : Bool} {i : Nat} (h : zone create inode v i = .ok (inode', v', z)) :
    v'.b_count = v.b_count := by
  unfold zone at h
  split at h
  · split at h
    · cases h
    · rename_i v₁ z₁ hnew
      split at h
      · obtain ⟨-, h⟩ := Prod.mk.inj (Except.ok.inj h)
        obtain ⟨rfl, -⟩ := Prod.mk.inj h
        exact newBlock_count hnew
      · obtain ⟨-, h⟩ := Prod.mk.inj (Except.ok.inj h)
        obtain ⟨rfl, -⟩ := Prod.mk.inj h
        exact newBlock_count hnew
  · obtain ⟨-, h⟩ := Prod.mk.inj (Except.ok.inj h)
    obtain ⟨rfl, -⟩ := Prod.mk.inj h
    rfl

theorem brelse_count {v₁ : Vol} (hcount : v₁.b_count = (v.hold b).b_count)
    (h : v₁.brelse b = .ok v') : v'.b_count = v.b_count := by
  have hself : (v.hold b).b_count b = v.b_count b + 1 := update_self _ _ _
  rw [brelse, hcount, hself, if_neg (Nat.succ_ne_zero _)] at h
  obtain rfl := Except.ok.inj h
  show update (update v.b_count b (v.b_count b + 1)) b (v.b_count b) = _
  rw [update_idem, update_eq_self]

theorem entry_count {create : Bool} {k : Nat} (h : entry create v b k = .ok (v', z)) :
    v'.b_count = v.b_count := by
  unfold entry at h
  cases hbad : v.bad b with
  | true =>
      rw [bread_of_bad hbad] at h
      obtain ⟨rfl, -⟩ := Prod.mk.inj (Except.ok.inj h)
      rfl
  | false =>
      rw [bread_of_good hbad] at h
      dsimp only at h
      split at h
      · split at h
        · cases h
        · rename_i v₁ i hnew
          obtain ⟨v₂, hrel, hret⟩ := Loops.map_eq_ok h
          obtain ⟨rfl, -⟩ := Prod.mk.inj hret
          refine brelse_count ?_ hrel
          rw [← newBlock_count hnew]
          split <;> rfl
      · rw [brelse_hold] at h
        obtain ⟨rfl, -⟩ := Prod.mk.inj (Except.ok.inj h)
        rfl

theorem bmap_count {create : Bool} (h : bmap create inode v block = .ok (inode', v', z)) :
    v'.b_count = v.b_count := by
  unfold bmap at h
  split at h
  · cases h
  split at h
  · exact zone_count h
  dsimp only at h
  split at h
  · split at h
    · cases h
    · rename_i inode₁ v₁ z₁ hzone
      rw [← zone_count hzone]
      split at h
      · obtain ⟨-, h⟩ := Prod.mk.inj (Except.ok.inj h)
        obtain ⟨rfl, -⟩ := Prod.mk.inj h
        rfl
      · obtain ⟨p, hentry, hp⟩ := Loops.map_eq_ok h
        obtain ⟨-, hp⟩ := Prod.mk.inj hp
        obtain ⟨rfl, -⟩ := Prod.mk.inj hp
        exact entry_count hentry
  · split at h
    · cases h
    · rename_i inode₁ v₁ z₁ hzone
      rw [← zone_count hzone]
      split at h
      · obtain ⟨-, h⟩ := Prod.mk.inj (Except.ok.inj h)
        obtain ⟨rfl, -⟩ := Prod.mk.inj h
        rfl
      · split at h
        · cases h
        · rename_i v₂ i hfirst
          rw [← entry_count hfirst]
          split at h
          · obtain ⟨-, h⟩ := Prod.mk.inj (Except.ok.inj h)
            obtain ⟨rfl, -⟩ := Prod.mk.inj h
            rfl
          · obtain ⟨p, hentry, hp⟩ := Loops.map_eq_ok h
            obtain ⟨-, hp⟩ := Prod.mk.inj hp
            obtain ⟨rfl, -⟩ := Prod.mk.inj hp
            exact entry_count hentry

theorem bmap_present (hlt : block < MAXBLOCK) (h : blockOf inode v block ≠ 0) :
    bmap true inode v block = .ok (inode, v, blockOf inode v block) := by
  have hzone : ∀ i, inode.i_zone i ≠ 0 → zone true inode v i = zone false inode v i := by
    intro i hi
    unfold zone
    rw [if_neg fun hc => hi hc.2, if_neg fun hc => Bool.false_ne_true hc.1]
  have hentry : ∀ z k, v.index z k ≠ 0 → entry true v z k = entry false v z k := by
    intro z k hk
    unfold entry
    cases hbad : v.bad z with
    | true => exact absurd (if_pos (.inr hbad)) hk
    | false =>
        have hword : word ((v.hold z).b_data z) k ≠ 0 := by
          unfold index at hk
          split at hk
          · exact absurd rfl hk
          · exact hk
        rw [bread_of_good hbad]
        dsimp only
        rw [if_neg fun hc => hword hc.2, if_neg fun hc => Bool.false_ne_true hc.1]
  have hindex : ∀ {z k}, v.index z k ≠ 0 → z ≠ 0 := by
    rintro z k hk rfl
    exact hk (index_zero v k)
  rw [← bmap_read inode v hlt]
  rw [MAXBLOCK] at hlt
  have hread : ∀ i, zone false inode v i = .ok (inode, v, inode.i_zone i) := fun i =>
    if_neg fun hc => Bool.false_ne_true hc.1
  unfold bmap
  unfold blockOf slotOf at h
  have hbig : ¬block ≥ 7 + 512 + 512 * 512 := by omega
  rw [if_neg hbig, if_neg hbig]
  by_cases h1 : block < 7
  · rw [if_pos h1] at h
    rw [if_pos h1, if_pos h1, hzone _ h]
  rw [if_neg h1] at h
  rw [if_neg h1, if_neg h1]
  by_cases h2 : block - 7 < 512
  · rw [if_pos h2] at h
    dsimp only at h ⊢
    rw [if_pos h2, if_pos h2, hzone _ (hindex h), hread]
    dsimp only
    rw [hentry _ _ h]
  · rw [if_neg h2] at h
    have hsub : block - 7 - 512 = block - 519 := by omega
    dsimp only at h ⊢
    rw [if_neg h2, if_neg h2, hzone _ (hindex (hindex h)), hread, hsub]
    dsimp only
    rw [hentry _ _ (hindex h), entry_read v (hindex (hindex h))]
    dsimp only
    rw [hentry _ _ h]

/-- A zone that has just been taken: it can be read, and it is empty. -/
structure Fresh (v : Vol) (z : Nat) : Prop where
  good : v.bad z = false
  zeroes : v.b_data z = zeroes

theorem takeZone_lt {sb sb' : SuperBlock} {j : Nat} (h : takeZone sb = .ok (sb', some j)) :
    j < sb.s_nzones := by
  unfold takeZone at h
  generalize search sb.s_zmap 8 0 8192 = p at h
  obtain ⟨i, k⟩ := p
  dsimp only at h
  split at h
  · cases h
  · split at h
    · cases h
    · split at h
      · cases h
      · split at h
        · cases h
        · rename_i hlt
          obtain ⟨rfl, hj⟩ := Prod.mk.inj (Except.ok.inj h)
          obtain rfl := Option.some.inj hj
          exact Nat.lt_of_not_le hlt

theorem newBlock_fresh (h : v.newBlock = .ok (v', z)) (hz : z ≠ 0) :
    v'.Fresh z ∧ z < v.sb.s_nzones ∧ v.b_count z = 0 := by
  unfold newBlock at h
  split at h
  · cases h
  · rename_i disk j hnew
    split at h
    · obtain ⟨-, rfl⟩ := Prod.mk.inj (Except.ok.inj h)
      exact absurd rfl hz
    · split at h
      · cases h
      · rename_i hcount
        obtain ⟨rfl, rfl⟩ := Prod.mk.inj (Except.ok.inj h)
        unfold Disk.newBlock at hnew
        split at hnew
        · cases hnew
        · obtain ⟨-, rfl⟩ := Prod.mk.inj (Except.ok.inj hnew)
          exact absurd rfl hz
        · rename_i htake
          obtain ⟨rfl, rfl⟩ := Prod.mk.inj (Except.ok.inj hnew)
          exact ⟨⟨update_self _ _ _, update_self _ _ _⟩, takeZone_lt htake, not_not.mp hcount⟩

/-- What `zone` gives is what was there, or fresh. -/
theorem zone_created {i : Nat} (hshort : v.sb.s_nzones < 0x10000)
    (h : zone true inode v i = .ok (inode', v', z)) (hz : z ≠ 0) :
    inode' = inode ∧ v' = v ∧ z = inode.i_zone i ∨
      inode.i_zone i = 0 ∧ v'.Fresh z := by
  unfold zone at h
  split at h
  · rename_i hzero
    split at h
    · cases h
    · rename_i v₁ z₁ hnew
      split at h
      · obtain ⟨-, h⟩ := Prod.mk.inj (Except.ok.inj h)
        obtain ⟨-, rfl⟩ := Prod.mk.inj h
        exact absurd rfl hz
      · rename_i hne
        obtain ⟨-, h⟩ := Prod.mk.inj (Except.ok.inj h)
        obtain ⟨rfl, rfl⟩ := Prod.mk.inj h
        obtain ⟨hfresh, hlt, -⟩ := newBlock_fresh hnew hne
        rw [Nat.mod_eq_of_lt (Nat.lt_trans hlt hshort)]
        exact .inr ⟨hzero.2, hfresh⟩
  · obtain ⟨hinode, h⟩ := Prod.mk.inj (Except.ok.inj h)
    obtain ⟨hv, hz⟩ := Prod.mk.inj h
    exact .inl ⟨hinode.symm, hv.symm, hz.symm⟩

/-- What `entry` gives is what was there, or fresh. -/
theorem entry_created {k : Nat} (hb : b ≠ 0) (h : entry true v b k = .ok (v', z)) (hz : z ≠ 0) :
    v' = v ∧ z = v.index b k ∨ v.index b k = 0 ∧ v'.Fresh z := by
  unfold entry at h
  unfold index
  cases hbad : v.bad b with
  | true =>
      rw [bread_of_bad hbad] at h
      obtain ⟨-, rfl⟩ := Prod.mk.inj (Except.ok.inj h)
      exact absurd rfl hz
  | false =>
      rw [bread_of_good hbad] at h
      rw [if_neg (not_or.mpr ⟨hb, Bool.false_ne_true⟩)]
      dsimp only at h
      split at h
      · rename_i hzero
        split at h
        · cases h
        · rename_i v₁ i hnew
          obtain ⟨v₂, hrel, hret⟩ := Loops.map_eq_ok h
          obtain ⟨rfl, rfl⟩ := Prod.mk.inj hret
          obtain ⟨hfresh, -, hcount⟩ := newBlock_fresh hnew hz
          have hne : i ≠ b := by
            rintro rfl
            have hheld : (v.hold i).b_count i = v.b_count i + 1 := update_self _ _ _
            rw [hheld] at hcount
            exact Nat.succ_ne_zero _ hcount
          rw [if_neg hz] at hrel
          unfold brelse at hrel
          split at hrel
          · cases hrel
          · obtain rfl := Except.ok.inj hrel
            refine .inr ⟨hzero.2, ⟨hfresh.good, ?_⟩⟩
            exact (Disk.store_data_ne _ _ hne).trans hfresh.zeroes
      · rw [brelse_hold] at h
        obtain ⟨rfl, rfl⟩ := Prod.mk.inj (Except.ok.inj h)
        exact .inl ⟨rfl, rfl⟩

theorem Fresh.index (h : v.Fresh z) (k : Nat) : v.index z k = 0 := by
  unfold Vol.index
  split
  · rfl
  · rw [h.zeroes, word_zeroes]

/-- A block that `create_block` has made can be read, and it is empty. -/
theorem bmap_created (hshort : v.sb.s_nzones < 0x10000) (h0 : blockOf inode v block = 0)
    (h : bmap true inode v block = .ok (inode', v', z)) (hz : z ≠ 0) : v'.Fresh z := by
  unfold bmap at h
  split at h
  · cases h
  unfold blockOf slotOf at h0
  by_cases h1 : block < 7
  · rw [if_pos h1] at h h0
    obtain ⟨-, -, hsame⟩ | ⟨-, hfresh⟩ := zone_created hshort h hz
    · exact absurd (hsame.trans h0) hz
    · exact hfresh
  rw [if_neg h1] at h h0
  by_cases h2 : block - 7 < 512
  · rw [if_pos h2] at h0
    dsimp only at h h0
    rw [if_pos h2] at h
    split at h
    · cases h
    · rename_i inode₁ v₁ z₁ hzone
      split at h
      · obtain ⟨-, h⟩ := Prod.mk.inj (Except.ok.inj h)
        obtain ⟨-, rfl⟩ := Prod.mk.inj h
        exact absurd rfl hz
      · rename_i hz₁
        obtain ⟨p, hentry, hp⟩ := Loops.map_eq_ok h
        obtain ⟨-, hp⟩ := Prod.mk.inj hp
        obtain ⟨rfl, rfl⟩ := Prod.mk.inj hp
        obtain ⟨-, hsame⟩ | ⟨-, hfresh⟩ := entry_created hz₁ hentry hz
        · obtain ⟨rfl, rfl, rfl⟩ | ⟨-, hfresh⟩ := zone_created hshort hzone hz₁
          · exact absurd (hsame.trans h0) hz
          · exact absurd (hsame.trans (hfresh.index _)) hz
        · exact hfresh
  · rw [if_neg h2] at h0
    have hsub : block - 7 - 512 = block - 519 := by omega
    dsimp only at h h0
    rw [if_neg h2, hsub] at h
    split at h
    · cases h
    · rename_i inode₁ v₁ z₁ hzone
      split at h
      · obtain ⟨-, h⟩ := Prod.mk.inj (Except.ok.inj h)
        obtain ⟨-, rfl⟩ := Prod.mk.inj h
        exact absurd rfl hz
      · rename_i hz₁
        split at h
        · cases h
        · rename_i v₂ i hfirst
          split at h
          · obtain ⟨-, h⟩ := Prod.mk.inj (Except.ok.inj h)
            obtain ⟨-, rfl⟩ := Prod.mk.inj h
            exact absurd rfl hz
          · rename_i hi
            obtain ⟨p, hentry, hp⟩ := Loops.map_eq_ok h
            obtain ⟨-, hp⟩ := Prod.mk.inj hp
            obtain ⟨rfl, rfl⟩ := Prod.mk.inj hp
            obtain ⟨-, hsame⟩ | ⟨-, hfresh⟩ := entry_created hi hentry hz
            · obtain ⟨rfl, rfl⟩ | ⟨-, hfresh⟩ := entry_created hz₁ hfirst hi
              · obtain ⟨rfl, rfl, rfl⟩ | ⟨-, hfresh⟩ := zone_created hshort hzone hz₁
                · exact absurd (hsame.trans h0) hz
                · exact absurd (hfresh.index _) hi
              · exact absurd (hsame.trans (hfresh.index _)) hz
            · exact hfresh

end Vol

end Linux011
