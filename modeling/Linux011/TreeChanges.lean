import Linux011.PathWalk
import Linux011.VolumeGrowth

/-!
# Changes of the tree

What `new_inode`, `add_entry`, `truncate`, the assignments to an inode in hand and an `iput` that
frees an inode do to the references in hand. `Whole` is a tree in which no two files share a
block, and nobody holds a block of a file.

`Walks` of the ledger says that no file has changed, and ends where a call begins to write. From
there on `Ledger` is kept alone, with `Edits` for the directory that is in hand: its inode may
have got a block and its entries may differ, but its blocks are still different from those of all
other files, so that an entry is still found where it was. `Made` is the state behind
`new_inode`, with an inode that no number stood for before. Freeing an inode needs most of
`Whole`: its blocks are its own, nobody holds them, and the bit of its number is set, so that
neither `truncate` nor `free_inode` panics. Behind `Whole.truncate` and `Edits.put` the calls
have nothing to prove about blocks.
-/

namespace Linux011

open Function Super SuperBlock Zones Bmap

namespace Namei

open Inodes (Entry NR_INODE ROOT_INO)
open Dir (NAME_LEN ENTRY DIR_ENTRIES_PER_BLOCK)
open Truncate (S_ISREG S_ISDIR)
open FileDev (Leaves Elsewhere)

variable {c : Current} {s s' s₀ : State} {i j dir : Entry} {dev nr m n : Nat} {name : List UInt8}
  {h : Handle} {hs hs' : List Handle} {bs bs' : List (Nat × Nat)}

/-! ## Assignments -/

/-- Fields of an inode are set that do not say which it is. -/
theorem Ledger.edit (hl : Ledger s₀ hs bs s) (i : Entry) {inode : Inode}
    (hkey : inode.key = (s.inode_table i).key)
    (hcount : inode.i_count = (s.inode_table i).i_count)
    (hmount : inode.i_mount = (s.inode_table i).i_mount)
    (hpipe : inode.i_pipe = (s.inode_table i).i_pipe)
    (hdirt : inode.i_dirt = true → inode.i_dev ≠ 0) : Ledger s₀ hs bs (s.set i inode) := by
  obtain ⟨hdev, hnum⟩ := Prod.mk.inj hkey
  have hslot : ∀ {α : Type} (f : Inode → α), f inode = f (s.inode_table i) → ∀ j,
      f ((s.set i inode).inode_table j) = f (s.inode_table j) := by
    intro α f hf j
    by_cases hj : j = i
    · rw [hj, set_self, hf]
    · rw [set_ne s inode hj]
  have hd := hslot Inode.i_dev hdev
  refine {
    sound := {
      mounted := fun j => ?_
      range := fun j => ?_
      imap := hl.sound.imap
      dirty := fun j hj => ?_
      pipe := fun j => ?_
      good := hl.sound.good }
    super_block := hl.super_block
    count := fun j => ?_
    hand := fun h hh => ?_
    ident := fun j hj => ?_
    mount := fun j => ?_
    buffers := hl.buffers }
  · rw [hd]
    exact hl.sound.mounted j
  · rw [hd, hslot Inode.i_num hnum]
    exact hl.sound.range j
  · by_cases hji : j = i
    · subst hji
      rw [set_self] at hj ⊢
      exact hdirt hj
    · rw [set_ne s inode hji] at hj ⊢
      exact hl.sound.dirty j hj
  · rw [hd, hslot Inode.i_pipe hpipe]
    exact hl.sound.pipe j
  · rw [hslot Inode.i_count hcount]
    exact hl.count j
  · rw [hslot Inode.key hkey, hslot Inode.i_pipe hpipe]
    exact hl.hand h hh
  · rw [hslot Inode.key hkey]
    exact hl.ident j hj
  · rw [hslot Inode.i_mount hmount]
    exact hl.mount j

theorem Imap.congr {sb sb' : SuperBlock} (h : Imap sb)
    (hfields : sb'.toDSuperBlock = sb.toDSuperBlock) (himap : sb'.s_imap = sb.s_imap) :
    Imap sb' where
  slots := by
    rw [himap, show sb'.s_ninodes = sb.s_ninodes from congrArg DSuperBlock.s_ninodes hfields]
    exact h.slots
  bit0 := by
    rw [himap]
    exact h.bit0

/-- A volume changes, but not the fields of its super block. -/
theorem Ledger.setVol {v : Vol} (hl : Ledger s₀ hs bs s)
    (hfields : v.sb.toDSuperBlock = (s.vol dev).sb.toDSuperBlock)
    (himap : Mounted s dev → Imap v.sb) (hgood : ∀ b, v.bad b = false)
    (hcount : ∀ dev' b, ((s.setVol dev v).vol dev').b_count b =
      (s₀.vol dev').b_count b + bs'.count (dev', b)) : Ledger s₀ hs bs' (s.setVol dev v) := by
  have hnin : ∀ dev', ((s.setVol dev v).vol dev').sb.s_ninodes = (s.vol dev').sb.s_ninodes := by
    intro dev'
    rw [setVol_vol]
    split
    · rename_i hdev
      rw [hdev]
      exact congrArg DSuperBlock.s_ninodes hfields
    · rfl
  exact {
    sound := {
      mounted := hl.sound.mounted
      range := fun i hi => by
        rw [hnin]
        exact hl.sound.range i hi
      imap := fun dev' hm => by
        rw [setVol_vol]
        split
        · rename_i hdev
          exact himap (hdev ▸ hm)
        · exact hl.sound.imap dev' hm
      dirty := hl.sound.dirty
      pipe := hl.sound.pipe
      good := fun dev' b => by
        rw [setVol_vol]
        split
        · exact hgood b
        · exact hl.sound.good dev' b }
    super_block := hl.super_block
    count := hl.count
    hand := hl.hand
    ident := hl.ident
    mount := hl.mount
    buffers := hcount }

theorem Ledger.kept {v : Vol} (hl : Ledger s₀ hs bs s) (hv : v.b_count = (s.vol dev).b_count)
    (dev' b : Nat) : ((s.setVol dev v).vol dev').b_count b =
      (s₀.vol dev').b_count b + bs.count (dev', b) := by
  rw [← hl.buffers dev' b, setVol_vol]
  split
  · rename_i hdev
    rw [hdev, hv]
  · rfl

theorem Walks.soil (hw : Walks s₀ hs bs s) (hi : (s.inode_table i).i_dev ≠ 0) :
    Walks s₀ hs bs (s.set i { s.inode_table i with i_dirt := true }) := by
  have hslot : ∀ {α : Type} (f : Inode → α), (∀ inode, f { inode with i_dirt := true } = f inode) →
      ∀ j, f ((s.set i { s.inode_table i with i_dirt := true }).inode_table j) =
        f (s.inode_table j) := by
    intro α f hf j
    by_cases hj : j = i
    · rw [hj, set_self, hf]
    · rw [set_ne s _ hj]
  have hkey := hslot Inode.key fun _ => rfl
  have hd := hslot Inode.i_dev fun _ => rfl
  have hnode := hslot Inode.toDInode fun _ => rfl
  have hdirt : ∀ {j}, ((s.set i { s.inode_table i with i_dirt := true }).inode_table j).i_dirt =
      false → (s.inode_table j).i_dirt = false := by
    intro j hj
    by_cases hji : j = i
    · rw [hji, set_self] at hj
      cases hj
    · rwa [set_ne s _ hji] at hj
  refine {
    toLedger := hw.toLedger.edit i rfl rfl rfl rfl fun _ => hi
    table := {
      unique := fun j j' hj hjj => ?_
      clean := fun j hj hclean => ?_ }
    disk := hw.disk
    node := fun dev nr hdev => ?_
    live := fun j => ?_ }
  · rw [hkey, hkey] at hjj
    rw [hd] at hj
    exact hw.table.unique j j' hj hjj
  · rw [hd] at hj
    rw [hnode, hd, hslot Inode.i_num fun _ => rfl]
    exact hw.table.clean j hj (hdirt hclean)
  · rw [← hw.node dev nr hdev]
    unfold Namei.node
    rw [findInode_congr hkey]
    cases findInode s.inode_table dev nr with
    | some j => exact hnode j
    | none => rfl
  · rw [hd, hslot Inode.i_num fun _ => rfl]
    exact hw.live j

/-! ## Inodes that are freed -/

/-- The inode has blocks that `truncate` frees. -/
def Blocks (d : DInode) : Prop := S_ISREG d.i_mode ∨ S_ISDIR d.i_mode

/-- `iput` of a reference in hand, which may free the inode. -/
theorem Ledger.put (hl : Ledger s₀ (h :: hs) bs s) (hm : Mounts s₀) (hdev : h.dev ≠ 0)
    (hfree : (s₀.inode_table h.slot).i_count = 0 → Blocks (s.inode_table h.slot).toDInode →
      Freeable (s.vol h.dev) (s.inode_table h.slot)) :
    ∃ s', Namei.iput s h.slot = .ok s' ∧ Ledger s₀ hs bs s' ∧
      ∀ j, j ≠ h.slot → (s'.inode_table j).toDInode = (s.inode_table j).toDInode := by
  obtain ⟨-, hpipe⟩ := hl.hand h (List.mem_cons_self ..)
  have hpos := hl.pos (List.mem_cons_self ..)
  by_cases hlast : (s.inode_table h.slot).i_count = 1 ∧ (s.inode_table h.slot).i_nlinks = 0
  · have hcount := hl.count h.slot
    rw [hlast.1, List.map_cons, List.count_cons_self] at hcount
    obtain ⟨s', hs', hfrees, hl'⟩ := hl.free hm hdev hlast.1 hlast.2 (hfree (by omega))
    exact ⟨s', hs', hl', hfrees.toDInode⟩
  · obtain ⟨s', hs', hputs⟩ := iput_keep hl.sound hpos hpipe fun hone _ hzero =>
      hlast ⟨by omega, hzero⟩
    exact ⟨s', hs', hl.puts hputs, fun j _ => hputs.calm.toDInode j⟩

/-- The same with the map of the inodes replaced. -/
def withImap (s : Disk) (s_imap : Nat → Option MapBuffer) : Disk :=
  { s with sb := { s.sb with s_imap := s_imap } }

theorem tree_withImap {d : DSuperBlock} {inode : MInode} {s : Disk} (h : Tree d inode s)
    (s_imap : Nat → Option MapBuffer) : Tree d inode (withImap s s_imap) where
  covers := ⟨h.covers.fields, h.covers.bit0, h.covers.slots, h.covers.boot, h.covers.maps,
    h.covers.zones⟩
  short := h.short
  inj := h.inj
  used := h.used

theorem leaves_withImap (inode : MInode) (s : Disk) (s_imap : Nat → Option MapBuffer) :
    Leaves inode s inode (withImap s s_imap) :=
  fun _ hb => ⟨⟨hb.inRange, hb.allocated, hb.slots⟩, rfl⟩

theorem tree_file {d : DSuperBlock} {inode inode' : MInode} {s : Disk} (h : Tree d inode s)
    (hz : inode'.i_zone = inode.i_zone) : Tree d inode' s := by
  obtain ⟨size, zone, dirt⟩ := inode
  obtain ⟨size', zone', dirt'⟩ := inode'
  obtain rfl : zone' = zone := hz
  exact { h with }

theorem leaves_tree {d : DSuperBlock} {inode inode' other : MInode} {s s' : Disk}
    (h : Leaves inode s inode' s') (htree : Tree d inode' s') (hother : Elsewhere inode s other)
    (ht : Tree d other s) : Tree d other s' where
  covers := htree.covers
  short := ht.short
  inj := fun x y hx hy => by
    rw [h.value hother hx, h.value hother hy]
    exact ht.inj x y hx hy
  used := fun x hx hne => by
    rw [h.value hother hx] at hne ⊢
    have hforeign := (h _ (hother x hx hne)).1
    exact ⟨hforeign.inRange, hforeign.allocated⟩

theorem emptyFile_freeable {d : DSuperBlock} {v : Vol} {inode : Inode} (hc : Covers v.sb d)
    (hshort : d.s_nzones < 0x10000) (hzone : inode.i_zone = fun _ => 0) : Freeable v inode := by
  have hvalue : ∀ x, value inode.file v.toDisk x = 0 := by
    intro x
    have hz : inode.file.i_zone = fun _ => 0 := hzone
    cases x <;> simp [value, below, hz]
  refine ⟨⟨d, hc, hshort, fun x y _ _ _ hne => absurd (hvalue x) hne,
    fun x _ hne => absurd (hvalue x) hne⟩, ?_⟩
  rintro z ⟨hne, x, -, rfl⟩
  exact absurd (hvalue x) hne

/-! ## A tree without common blocks -/

/-- The tree is tidy, no two files share a block, and nobody holds a zone of a device; a directory
has at least the links of its own and its parent's entry. -/
structure Whole (c : Current) (s : State) : Prop extends Tidy c s where
  tree : ∀ dev nr, Linked s dev nr → Blocks (Namei.node s dev nr) →
    Tree (s.vol dev).sb.toDSuperBlock (Namei.node s dev nr).file (s.vol dev).toDisk
  entries : ∀ dev nr, Linked s dev nr → S_ISDIR (Namei.node s dev nr).i_mode →
    Dir.Directory (s.vol dev).sb.toDSuperBlock (Namei.node s dev nr).file (s.vol dev).toDisk
      (Namei.entries s dev nr)
  apart : ∀ dev nr nr', Linked s dev nr → Linked s dev nr' → nr ≠ nr' →
    Blocks (Namei.node s dev nr) → Blocks (Namei.node s dev nr') →
    Elsewhere (Namei.node s dev nr).file (s.vol dev).toDisk (Namei.node s dev nr').file
  unheld : ∀ dev z, Mounted s dev → (s.vol dev).sb.InRange z → (s.vol dev).b_count z = 0
  links : ∀ dev nr, Linked s dev nr → S_ISDIR (Namei.node s dev nr).i_mode →
    2 ≤ (Namei.node s dev nr).i_nlinks
  topMode : ∀ k m, (s.super_block k).s_imount = some m →
    S_ISDIR (Namei.node s (s.super_block k).s_dev ROOT_INO).i_mode
  room₂ : ∀ i, (s.inode_table i).i_count + 2 < 0x10000

theorem Whole.roomFor (hw : Whole c s) {es : List Entry} (hes : es.length ≤ 1) : Room s es := by
  intro i
  have hi := hw.room₂ i
  have hle := List.count_le_length (a := i) (l := es)
  omega

theorem Whole.quiet (hw : Whole c s) (hdev : Mounted s dev) : (s.vol dev).Quiet :=
  ⟨hw.sound.good dev, fun z hz _ => hw.unheld dev z hdev hz⟩

/-! ## new_inode -/

/-- Behind the last block of the map no bit has been found. -/
theorem search_end (map : Nat → Option MapBuffer) (n : Nat) :
    ∀ {i j : Nat}, 8192 ≤ j → (search map n i j).1 = i + n → 8192 ≤ (search map n i j).2 := by
  induction n with
  | zero => exact fun hj _ => hj
  | succ n ih =>
      intro i j hj
      unfold search
      have hnext : ∀ {j}, 8192 ≤ j → (search map n (i + 1) j).1 = i + (n + 1) →
          8192 ≤ (search map n (i + 1) j).2 := fun hj h => ih hj (by omega)
      split
      · exact hnext hj
      · dsimp only
        split
        · exact fun h => absurd h (Nat.ne_of_lt (Nat.lt_add_of_pos_right (Nat.succ_pos n)))
        · rename_i hfull
          exact hnext (Nat.le_of_not_lt hfull)

/-- The bit that the search comes to is clear. -/
theorem search_clear {map : Nat → Option MapBuffer} {k j : Nat} {bh : MapBuffer}
    (h : search map 8 0 8192 = (k, j)) (hk : map k = some bh) (hj : j < 8192) :
    Bitmap.bit bh.b_data j = false := by
  have hfound := search_found map 8 0 8192
  have hend := search_end map 8 (i := 0) (Nat.le_refl 8192)
  rw [h] at hfound hend
  cases hfound with
  | free _ _ bh' _ _ hslot _ hclear =>
      obtain rfl := Option.some.inj (hslot.symm.trans hk)
      exact hclear
  | full _ _ hlast _ => exact absurd (hend hlast) (Nat.not_le_of_lt hj)

/-- A new inode in the table: it has a link and no blocks, and nobody has referred to its entry. -/
structure Made (s₀ : State) (hs : List Handle) (bs : List (Nat × Nat)) (i : Entry) (dev nr : Nat)
    (s : State) : Prop extends Ledger s₀ (⟨i, dev, nr⟩ :: hs) bs s where
  spare : Spare s₀ hs i
  hands : ∀ h ∈ hs, h.dev ≠ 0 → (s.inode_table h.slot).toDInode = Namei.node s₀ h.dev h.nr
  zone : (s.inode_table i).i_zone = fun _ => 0
  disk : ∃ s_imap, (s.vol dev).toDisk = withImap (s₀.vol dev).toDisk s_imap

theorem newInode_spec (hm : Mounts s₀) (hw : Walks s₀ hs bs s)
    (hspared : Spared s₀ (hs.map Handle.slot)) (hmounted : Mounted s₀ dev) (uid gid : Nat) :
    (∃ s', newInode s uid gid dev = .ok (s', none) ∧ Walks s₀ hs bs s') ∨
      ∃ s' i nr, newInode s uid gid dev = .ok (s', some i) ∧ Made s₀ hs bs i dev nr s' := by
  obtain ⟨s₁, e, hs₁, htaken, hw₁, hspare⟩ := getEmptyInode_ok hw hm hspared
  have hmounted₁ := hmounted.congr hw₁.super_block
  obtain ⟨m, hget⟩ := hmounted₁.get
  obtain ⟨s₂, hs₂, -, hw₂⟩ := hw₁.iput fun _ h0 => absurd rfl h0
  have himap := hw₁.sound.imap dev hmounted₁
  have hnone : (iput s₁ e).map (fun s => (s, none)) =
      (.ok (s₂, none) : Except Stop (State × Option Entry)) := by
    rw [hs₂]
    rfl
  unfold newInode
  rw [hs₁]
  dsimp only [bind, Except.bind]
  rw [hget]
  dsimp only
  have hclear := @search_clear (s₁.vol dev).sb.s_imap
  generalize search (s₁.vol dev).sb.s_imap 8 0 8192 = kj at hclear ⊢
  obtain ⟨k, j⟩ := kj
  cases hk : (s₁.vol dev).sb.s_imap k with
  | none => exact .inl ⟨s₂, hnone, hw₂⟩
  | some bh =>
      dsimp only
      by_cases hfull : j ≥ 8192 ∨ j + k * 8192 > (s₁.vol dev).sb.s_ninodes
      · rw [if_pos hfull]
        exact .inl ⟨s₂, hnone, hw₂⟩
      obtain ⟨hj, hle⟩ := not_or.mp hfull
      have hlt := Nat.lt_of_not_le hj
      have hbit : Bitmap.bit bh.b_data j = false := hclear rfl hk hlt
      rw [if_neg hfull, hbit, if_neg Bool.false_ne_true]
      -- bit 0 of the map is set
      have hdiv : (j + k * 8192) / 8192 = k := by omega
      have hmod : (j + k * 8192) % 8192 = j := by omega
      have hmap : (s₁.vol dev).sb.s_imap ((j + k * 8192) / 8192) = some bh := by rw [hdiv, hk]
      have hpos : 1 ≤ j + k * 8192 := by
        refine Nat.one_le_iff_ne_zero.mpr fun hzero => ?_
        have hused := himap.bit0
        unfold used at hused
        rw [← hzero, hmap, hmod] at hused
        exact Bool.false_ne_true (hbit.symm.trans hused)
      have hset := used_setBit hmap 0
      rw [hdiv, hmod, himap.bit0, ite_self] at hset
      have hvol : Ledger s₀ (⟨e, 0, 0⟩ :: hs) bs (s₁.setVol dev { s₁.vol dev with
          sb := { (s₁.vol dev).sb with
            s_imap := setMap (s₁.vol dev).sb.s_imap k (Bitmap.setBit bh.b_data j) } }) :=
        hw₁.toLedger.setVol rfl (fun _ => himap.setMap k _ hset) (hw₁.sound.good dev)
          (hw₁.toLedger.kept rfl)
      refine .inr ⟨_, e, j + k * 8192, rfl, {
        toLedger := hvol.name hspare rfl hmounted₁ ⟨hpos, ?_⟩ ?_ ?_ rfl
        spare := hspare
        hands := fun h hh hdev => ?_
        zone := ?_
        disk := ?_ }⟩
      · rw [setVol_vol, if_pos rfl]
        exact Nat.le_of_not_lt hle
      · rw [setVol_table, htaken]
        rfl
      · rw [htaken]
        rfl
      · rw [set_ne _ _ (hspare.slots h hh), setVol_table]
        exact hw₁.slot (List.mem_cons_of_mem _ hh) hdev
      · rw [set_self, htaken]
        rfl
      · rw [set_vol, setVol_vol, if_pos rfl, ← hw₁.disk dev]
        exact ⟨_, rfl⟩

/-! ## A directory in change -/

theorem leaves_file {inode inode' : MInode} (hz : inode'.i_zone = inode.i_zone) (s : Disk) :
    Leaves inode s inode' s := by
  obtain ⟨size, zone, dirt⟩ := inode
  obtain ⟨size', zone', dirt'⟩ := inode'
  obtain rfl : zone' = zone := hz
  exact fun b hb => ⟨⟨hb.inRange, hb.allocated, hb.slots⟩, rfl⟩

theorem directory_congr {d : DSuperBlock} {inode inode' : MInode} {s : Disk} {n : Nat}
    (h : Dir.Directory d inode s n) (hz : inode'.i_zone = inode.i_zone)
    (hsize : inode'.i_size = inode.i_size) (s_imap : Nat → Option MapBuffer) :
    Dir.Directory d inode' (withImap s s_imap) n := by
  have htree := tree_withImap (tree_file h.tree hz) s_imap
  obtain ⟨size, zone, dirt⟩ := inode
  obtain ⟨size', zone', dirt'⟩ := inode'
  obtain rfl : zone' = zone := hz
  obtain rfl : size' = size := hsize
  exact { h with tree := htree }

/-- The directory in hand may have got entries and blocks, and the blocks of no other file have
changed. -/
structure Edits (s₀ : State) (hs : List Handle) (bs : List (Nat × Nat)) (dir : Entry)
    (dev nr : Nat) (s : State) : Prop extends Ledger s₀ (⟨dir, dev, nr⟩ :: hs) bs s where
  nlinks : (s.inode_table dir).i_nlinks = (Namei.node s₀ dev nr).i_nlinks
  tree : Tree (s₀.vol dev).sb.toDSuperBlock (s.inode_table dir).file (s.vol dev).toDisk
  leaves : Leaves (Namei.node s₀ dev nr).file (s₀.vol dev).toDisk
    (s.inode_table dir).file (s.vol dev).toDisk

/-- The directory in hand has its entries as before. -/
structure Intact (s₀ : State) (hs : List Handle) (bs : List (Nat × Nat)) (dir : Entry)
    (dev nr : Nat) (s : State) : Prop extends Edits s₀ hs bs dir dev nr s where
  directory : ∃ n, Dir.Directory (s₀.vol dev).sb.toDSuperBlock (s.inode_table dir).file
    (s.vol dev).toDisk n

theorem Whole.intact (ht : Whole c s₀) (hlinked : Linked s₀ dev nr)
    (hmode : S_ISDIR (Namei.node s₀ dev nr).i_mode)
    (hl : Ledger s₀ (⟨dir, dev, nr⟩ :: hs) bs s)
    (hnode : (s.inode_table dir).toDInode = Namei.node s₀ dev nr)
    {s_imap : Nat → Option MapBuffer}
    (hdisk : (s.vol dev).toDisk = withImap (s₀.vol dev).toDisk s_imap) :
    Intact s₀ hs bs dir dev nr s := by
  have hz : (s.inode_table dir).file.i_zone = (Namei.node s₀ dev nr).file.i_zone :=
    congrArg DInode.i_zone hnode
  have hdir := directory_congr (ht.entries dev nr hlinked hmode) hz
    (congrArg DInode.i_size hnode) s_imap
  refine {
    toLedger := hl
    nlinks := congrArg DInode.i_nlinks hnode
    tree := ?_
    leaves := ?_
    directory := ⟨Namei.entries s₀ dev nr, ?_⟩ }
  · rw [hdisk]
    exact hdir.tree
  · rw [hdisk]
    exact (leaves_file hz _).trans (leaves_withImap _ _ s_imap)
  · rw [hdisk]
    exact hdir

theorem Looked.intact (ht : Whole c s₀) (h : Looked s₀ hs bs dir dev nr s) :
    Intact s₀ hs bs dir dev nr s := by
  have hdisk : (s.vol dev).toDisk = withImap (s₀.vol dev).toDisk (s₀.vol dev).sb.s_imap := h.disk dev
  exact ht.intact h.linked h.mode h.toLedger h.toDInode hdisk

/-- The directory in which a name is given to a new inode. -/
theorem Made.intact (ht : Whole c s₀) (hlinked : Linked s₀ dev nr)
    (hmode : S_ISDIR (Namei.node s₀ dev nr).i_mode)
    (h : Made s₀ (⟨dir, dev, nr⟩ :: hs) bs i dev m s) :
    Intact s₀ (⟨i, dev, m⟩ :: hs) bs dir dev nr s := by
  obtain ⟨s_imap, hdisk⟩ := h.disk
  exact ht.intact hlinked hmode (h.toLedger.perm (.swap ..))
    (h.hands _ (List.mem_cons_self ..) hlinked.mounted.ne_zero) hdisk

/-- The buffer is of a block of the directory. -/
def Within (s : State) (dir : Entry) (f : Found) : Prop :=
  f.bh ≠ 0 ∧ ∃ k < MAXBLOCK, blockNr (s.inode_table dir).file (s.vol f.dev).toDisk k = f.bh

theorem Edits.fields (h : Edits s₀ hs bs dir dev nr s) :
    (s.vol dev).sb.toDSuperBlock = (s₀.vol dev).sb.toDSuperBlock := h.tree.covers.fields

theorem Edits.i_dev (h : Edits s₀ hs bs dir dev nr s) : (s.inode_table dir).i_dev = dev :=
  congrArg Prod.fst (h.hand _ (List.mem_cons_self ..)).1

theorem Edits.unheld (ht : Whole c s₀) (h : Edits s₀ hs [] dir dev nr s) (hdev : Mounted s₀ dev)
    {z : Nat} (hz : (s.vol dev).sb.InRange z) : (s.vol dev).b_count z = 0 := by
  have hrange : (s₀.vol dev).sb.InRange z := by
    unfold SuperBlock.InRange at hz ⊢
    rwa [h.fields] at hz
  rw [h.buffers, ht.unheld dev z hdev hrange, List.count_nil]

/-- What another file is freed with is as before. -/
theorem Edits.freeable (ht : Whole c s₀) (h : Edits s₀ hs [] dir dev nr s)
    (hlinked : Linked s₀ dev nr) (hmode : S_ISDIR (Namei.node s₀ dev nr).i_mode)
    (hother : Linked s₀ dev m) (hne : nr ≠ m) (hblocks : Blocks (Namei.node s₀ dev m))
    {inode : Inode} (hz : inode.i_zone = (Namei.node s₀ dev m).i_zone) :
    Freeable (s.vol dev) inode := by
  have htree : Tree (s₀.vol dev).sb.toDSuperBlock inode.file (s.vol dev).toDisk :=
    tree_file (leaves_tree h.leaves h.tree
      (ht.apart dev nr m hlinked hother hne (.inr hmode) hblocks)
      (ht.tree dev m hother hblocks)) hz
  refine ⟨⟨_, htree⟩, ?_⟩
  rintro z ⟨hzero, x, hx, rfl⟩
  exact h.unheld ht hlinked.mounted (htree.used x hx hzero).1

/-- The blocks of a file as the disk has them now. -/
theorem Whole.freeable (ht : Whole c s₀) (hw : Walks s₀ hs [] s) (hlinked : Linked s₀ dev nr)
    (hblocks : Blocks (Namei.node s₀ dev nr)) {inode : Inode}
    (hz : inode.i_zone = (Namei.node s₀ dev nr).i_zone) : Freeable (s.vol dev) inode := by
  have htree : Tree (s₀.vol dev).sb.toDSuperBlock inode.file (s.vol dev).toDisk := by
    rw [hw.disk dev]
    exact tree_file (ht.tree dev nr hlinked hblocks) hz
  refine ⟨⟨_, htree⟩, ?_⟩
  rintro z ⟨hzero, x, hx, rfl⟩
  have hrange := (htree.used x hx hzero).1
  rw [hw.disk dev] at hrange
  rw [hw.buffers, List.count_nil, hw.disk dev, ht.unheld dev _ hlinked.mounted hrange]

theorem Ledger.brelse {f : Found} (hl : Ledger s₀ hs ((f.dev, f.bh) :: bs) s) :
    ∃ s', Namei.brelse s f = .ok s' ∧ Ledger s₀ hs bs s' ∧ s'.inode_table = s.inode_table ∧
      ∀ dev, (s'.vol dev).toDisk = (s.vol dev).toDisk := by
  obtain ⟨v, hv, hdisk, hbad, hcount⟩ := hl.released
  have hsb : v.sb = (s.vol f.dev).sb := congrArg Disk.sb hdisk
  refine ⟨s.setVol f.dev v, ?_, hl.setVol ?_ (fun hm => ?_) (fun b => ?_) hcount, rfl,
    fun dev => ?_⟩
  · unfold Namei.brelse
    rw [hv]
    rfl
  · rw [hsb]
  · rw [hsb]
    exact hl.sound.imap _ hm
  · rw [hbad]
    exact hl.sound.good _ b
  · rw [setVol_vol]
    split
    · rename_i hdev
      rw [hdisk, hdev]
    · rfl

theorem Edits.brelse {f : Found} (h : Edits s₀ hs ((f.dev, f.bh) :: bs) dir dev nr s) :
    ∃ s', Namei.brelse s f = .ok s' ∧ Edits s₀ hs bs dir dev nr s' ∧
      s'.inode_table = s.inode_table := by
  obtain ⟨s', hs', hl, htable, hdisk⟩ := h.toLedger.brelse
  refine ⟨s', hs', ⟨hl, ?_, ?_, ?_⟩, htable⟩
  · rw [htable]
    exact h.nlinks
  · rw [htable, hdisk]
    exact h.tree
  · rw [htable, hdisk]
    exact h.leaves

/-- The number in an entry of the directory is set. -/
theorem Edits.setInode {f : Found} (h : Edits s₀ hs bs dir f.dev nr s) (hf : Within s dir f)
    (m : Nat) : Edits s₀ hs bs dir f.dev nr (s.setInode f m) := by
  obtain ⟨hne, k, hk, hb⟩ := hf
  have hpos : blockNr (s.inode_table dir).file (s.vol f.dev).toDisk k ≠ 0 := hb.trans_ne hne
  generalize hdata : Dir.setInode ((s.vol f.dev).b_data f.bh) f.de m = data
  have htree := h.tree.store hk hpos data
  have hleaves := FileDev.leaves_store h.tree hk hpos data (s.inode_table dir).i_size
    (s.inode_table dir).i_dirt
  rw [hb] at htree hleaves
  unfold State.setInode
  rw [hdata]
  refine {
    toLedger := h.toLedger.setVol rfl (h.sound.imap f.dev) (h.sound.good f.dev)
      (h.toLedger.kept rfl)
    nlinks := h.nlinks
    tree := ?_
    leaves := ?_ }
  · rw [setVol_vol, if_pos rfl]
    exact htree
  · rw [setVol_vol, if_pos rfl]
    exact h.leaves.trans hleaves

/-- `add_entry`: the buffer of the entry is in hand, if there is one. -/
theorem Intact.addEntry (ht : Whole c s₀) (hmounted : Mounted s₀ dev)
    (h : Intact s₀ hs [] dir dev nr s) (name : List UInt8) :
    ∃ s' r, Namei.addEntry s dir name = .ok (s', r) ∧
      (∀ j, j ≠ dir → s'.inode_table j = s.inode_table j) ∧
      (∀ f ∈ r, f.dev = dev ∧ Within s' dir f) ∧
      Edits s₀ hs (r.toList.map fun f => (f.dev, f.bh)) dir dev nr s' := by
  obtain ⟨n, hdir⟩ := h.directory
  have hq : (s.vol dev).Quiet := ⟨h.sound.good dev, fun z hz _ => h.unheld ht hmounted hz⟩
  obtain ⟨file', v', r, hadd, -, hg⟩ := DirScan.addEntry_grown hq hdir name
  have hdev := h.i_dev
  have hvol : ((s.setVol dev v').vol dev) = v' := by
    rw [setVol_vol, if_pos rfl]
  refine ⟨_, r.map fun p => ⟨dev, p.1, p.2⟩, ?_, fun j hj => set_ne (s.setVol dev v')
    ((s.inode_table dir).withFile file') hj, fun f hf => ?_, ?_⟩
  · unfold Namei.addEntry
    dsimp only
    rw [hdev, hadd]
    rfl
  · obtain ⟨⟨b, de⟩, hr, rfl⟩ := Option.mem_map.mp hf
    obtain ⟨hne, k, hk, hb⟩ := hg.own b de hr
    refine ⟨rfl, hne, k, hk, ?_⟩
    rw [set_self, set_vol, hvol]
    exact hb
  · have hl : Ledger s₀ (⟨dir, dev, nr⟩ :: hs)
        ((r.map fun p => (⟨dev, p.1, p.2⟩ : Found)).toList.map fun f => (f.dev, f.bh))
        (s.setVol dev v') := by
      refine h.toLedger.setVol (hg.tree.covers.fields.trans h.fields.symm)
        (fun hm => (h.sound.imap dev hm).congr (hg.tree.covers.fields.trans h.fields.symm) hg.imap)
        (fun b => by rw [hg.bad]; exact h.sound.good dev b) ?_
      cases r with
      | none => exact h.toLedger.kept hg.count
      | some p => exact h.toLedger.held hg.count
    refine {
      toLedger := hl.edit dir rfl rfl rfl rfl fun _ => hdev.trans_ne hmounted.ne_zero
      nlinks := ?_
      tree := ?_
      leaves := ?_ }
    · rw [set_self]
      exact h.nlinks
    · rw [set_self, set_vol, hvol]
      exact hg.tree
    · rw [set_self, set_vol, hvol]
      exact h.leaves.trans hg.leaves

/-- The entry that `find_entry` has found is in a block of the directory. -/
theorem Looked.within (ht : Whole c s₀) {f : Found} (h : Looked s₀ hs bs dir f.dev nr s)
    (hm : m < Namei.entries s₀ f.dev nr)
    (hbh : f.bh = Vol.blockOf (Namei.node s₀ f.dev nr).file (s₀.vol f.dev)
      (m / DIR_ENTRIES_PER_BLOCK)) : Within s dir f := by
  have hd : DIR_ENTRIES_PER_BLOCK = 64 := rfl
  obtain ⟨hne, hmax⟩ := (h.directory ht.toTidy).dense (m / DIR_ENTRIES_PER_BLOCK) (by
    rw [hd]
    omega)
  rw [← hbh] at hne
  refine ⟨hne, _, hmax, ?_⟩
  have hz : (s.inode_table dir).file.i_zone = (Namei.node s₀ f.dev nr).file.i_zone :=
    congrArg DInode.i_zone h.toDInode
  rw [hbh, ← Vol.blockOf_good (h.sound.good f.dev),
    DirScan.blockOf_congr hz (h.disk f.dev) (h.bad ht.toTidy f.dev)]

/-! ## The inode and its directory -/

theorem Intact.edit (h : Intact s₀ hs bs dir dev nr s) (hi : dir ≠ i) {inode : Inode}
    (hl : Ledger s₀ (⟨dir, dev, nr⟩ :: hs) bs (s.set i inode)) :
    Intact s₀ hs bs dir dev nr (s.set i inode) := by
  have hslot := set_ne s inode hi
  refine ⟨⟨hl, ?_, ?_, ?_⟩, ?_⟩
  · rw [hslot]
    exact h.nlinks
  · rw [hslot]
    exact h.tree
  · rw [hslot]
    exact h.leaves
  · rw [hslot]
    exact h.directory

theorem Edits.put (h : Edits s₀ hs bs dir dev nr s) (hlinked : Linked s₀ dev nr) :
    ∃ s', iput s dir = .ok s' ∧ Ledger s₀ hs bs s' ∧ Puts s dir s' := by
  obtain ⟨s', hs', hputs, hl⟩ := h.toLedger.iput fun _ _ => by
    rw [h.nlinks]
    exact hlinked.nlinks
  exact ⟨s', hs', hl, hputs⟩

/-- An inode, which is freed if it has no link, and then its directory are given up. -/
theorem Edits.leave {α : Type} (h : Edits s₀ (⟨i, dev, m⟩ :: hs) bs dir dev nr s)
    (hm : Mounts s₀) (hlinked : Linked s₀ dev nr) (hi : dir ≠ i) {inode : Inode}
    (hl : Ledger s₀ (⟨dir, dev, nr⟩ :: ⟨i, dev, m⟩ :: hs) bs (s.set i inode))
    (hfree : Blocks inode.toDInode → Freeable (s.vol dev) inode) (r : α) :
    ∃ s', Namei.leave (s.set i inode) [i, dir] r = .ok (s', r) ∧ Ledger s₀ hs bs s' := by
  obtain ⟨s₁, hs₁, hl₁, hnode⟩ := (hl.perm (.swap ..)).put hm hlinked.mounted.ne_zero (by
    rw [set_self]
    exact fun _ => hfree)
  obtain ⟨s₂, hs₂, -, hl₂⟩ := hl₁.iput fun _ _ => by
    rw [show (s₁.inode_table dir).i_nlinks = _ from congrArg DInode.i_nlinks (hnode dir hi),
      set_ne s inode hi, h.nlinks]
    exact hlinked.nlinks
  refine ⟨s₂, ?_, hl₂⟩
  unfold Namei.leave
  rw [List.foldlM_cons, hs₁]
  show (([dir].foldlM iput s₁).map _ : Except Stop (State × α)) = _
  rw [List.foldlM_cons, hs₂]
  rfl

theorem Whole.truncate (ht : Whole c s₀) (hw : Walks s₀ (⟨i, dev, nr⟩ :: hs) [] s)
    (hlinked : Linked s₀ dev nr) :
    ∃ s', truncate s i = .ok s' ∧ Ledger s₀ (⟨i, dev, nr⟩ :: hs) [] s' := by
  have hd : (s.inode_table i).i_dev = dev :=
    congrArg Prod.fst (hw.hand _ (List.mem_cons_self ..)).1
  have hnode : (s.inode_table i).toDInode = Namei.node s₀ dev nr :=
    hw.slot (List.mem_cons_self ..) hlinked.mounted.ne_zero
  have hfree : Blocks (s.inode_table i).toDInode → Freeable (s.vol dev) (s.inode_table i) :=
    fun hblocks => ht.freeable hw hlinked (hnode ▸ hblocks) (congrArg DInode.i_zone hnode)
  obtain ⟨file', v', htrunc, hkept⟩ := truncate_kept (hw.sound.good dev) hfree
  have hl : Ledger s₀ (⟨i, dev, nr⟩ :: hs) [] (s.setVol dev v') :=
    hw.toLedger.setVol hkept.fields
      (fun hm => (hw.sound.imap dev hm).congr hkept.fields hkept.imap) hkept.good
      (hw.toLedger.kept hkept.b_count)
  have hl' : Ledger s₀ (⟨i, dev, nr⟩ :: hs) []
      ((s.setVol dev v').set i ((s.inode_table i).withFile file')) :=
    hl.edit i rfl rfl rfl rfl fun _ => hd.trans_ne hlinked.mounted.ne_zero
  refine ⟨_, ?_, hl'⟩
  unfold Namei.truncate
  dsimp only
  rw [hd, htrunc]
  rfl

end Namei

end Linux011
