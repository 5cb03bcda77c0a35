import Linux011.CoreInodes

/-!
# A ledger of references

`Ledger` says, of a state that one call has come to from `s₀`, that every inode of the table is
referred to as often as in `s₀` and once more for each reference in hand, and every buffer
likewise. `Walks` adds that no file has changed: whatever inode a number stands for is the same,
be it in the table or on its device, and so are the blocks.

The functions are specified from the small ones up. Writing an inode changes a device and the
mark that it is dirty, and `Calm` says that for everybody who asks for an inode by its number
nothing has happened. An `iput` that keeps the inode lowers one count (`Puts`), and one that
frees it empties the entry and clears a bit (`Frees`). `get_empty_inode` turns an entry nobody
refers to into one for the caller, after the inode that was in it has been written; `Walks.empty`
shows that no file has changed by it, since what was in the table is then on its device. With
this `iget` comes to the inode that the number stands for, or to the root of the device that is
mounted there (`cross`), and hands over one reference (`iget_ok`), unless the table has no place
(`iget_crowded`).

`Ledger` itself is arithmetic on the counts: a reference that is taken is one more handle, and
one that is given up is one less, in any order (`Ledger.perm`).
-/

namespace Linux011

open Function Super SuperBlock Zones Bmap

namespace Namei

open Inodes (Entry NR_INODE ROOT_INO)

/-! ## States -/

variable {s s' s₀ : State} {i j : Entry} {dev nr b : Nat}

@[simp] theorem set_self (s : State) (i : Entry) (inode : Inode) :
    (s.set i inode).inode_table i = inode := update_self _ _ _

theorem set_ne (s : State) (inode : Inode) (h : j ≠ i) :
    (s.set i inode).inode_table j = s.inode_table j := update_of_ne h _ _

@[simp] theorem set_vol (s : State) (i : Entry) (inode : Inode) : (s.set i inode).vol = s.vol := rfl

@[simp] theorem set_super (s : State) (i : Entry) (inode : Inode) :
    (s.set i inode).super_block = s.super_block := rfl

@[simp] theorem set_d_inode (s : State) (i : Entry) (inode : Inode) :
    (s.set i inode).d_inode = s.d_inode := rfl

@[simp] theorem setVol_table (s : State) (dev : Nat) (v : Vol) :
    (s.setVol dev v).inode_table = s.inode_table := rfl

@[simp] theorem setVol_super (s : State) (dev : Nat) (v : Vol) :
    (s.setVol dev v).super_block = s.super_block := rfl

@[simp] theorem setVol_d_inode (s : State) (dev : Nat) (v : Vol) :
    (s.setVol dev v).d_inode = s.d_inode := rfl

@[simp] theorem setVol_self (s : State) (dev : Nat) : s.setVol dev (s.vol dev) = s := by
  unfold State.setVol
  rw [update_eq_self]

theorem set_set (s : State) (i : Entry) (inode inode' : Inode) :
    (s.set i inode).set i inode' = s.set i inode' := by
  unfold State.set
  rw [update_idem]

theorem getSuper_congr (h : s'.super_block = s.super_block) (dev : Nat) :
    getSuper s' dev = getSuper s dev := by
  unfold getSuper
  rw [h]

/-- The device has a super block. -/
def Mounted (s : State) (dev : Nat) : Prop := (getSuper s dev).isSome = true

theorem Mounted.ne_zero (h : Mounted s dev) : dev ≠ 0 := by
  rintro rfl
  cases h

theorem Mounted.get (h : Mounted s dev) : ∃ k, getSuper s dev = some k :=
  Option.isSome_iff_exists.mp h

theorem Mounted.congr (h : Mounted s dev) (hs : s'.super_block = s.super_block) :
    Mounted s' dev := by
  unfold Mounted
  rw [getSuper_congr hs]
  exact h

/-! ## What an inode is -/

def Inode.key (inode : Inode) : Nat × Nat := (inode.i_dev, inode.i_num)

/-- The inode with number `nr`, in the table or on the device. -/
def node (s : State) (dev nr : Nat) : DInode :=
  match findInode s.inode_table dev nr with
  | some i => (s.inode_table i).toDInode
  | none => s.d_inode dev nr

theorem findInode_some {table : Entry → Inode} (h : findInode table dev nr = some i) :
    (table i).key = (dev, nr) := by
  have hi := List.find?_some h
  obtain ⟨hdev, hnum⟩ := of_decide_eq_true hi
  exact Prod.ext hdev hnum

theorem findInode_none {table : Entry → Inode} (h : findInode table dev nr = none) (i : Entry) :
    (table i).key ≠ (dev, nr) := by
  intro hi
  have hnone := List.find?_eq_none.mp h i (List.mem_finRange i)
  obtain ⟨hdev, hnum⟩ := Prod.mk.inj hi
  exact hnone (decide_eq_true ⟨hdev, hnum⟩)

/-- The map of the inodes has a bit for each number, and that of 0 is set. -/
structure Imap (sb : SuperBlock) : Prop where
  slots : ∀ nr ≤ sb.s_ninodes, (sb.s_imap (nr / 8192)).isSome = true
  bit0 : used sb.s_imap 0 = true

/-- What has to hold of the table whatever a call does. -/
structure Sound (s : State) : Prop where
  mounted : ∀ i, (s.inode_table i).i_dev ≠ 0 → Mounted s (s.inode_table i).i_dev
  /-- the number has a bit in the map of the device -/
  range : ∀ i, (s.inode_table i).i_dev ≠ 0 → 1 ≤ (s.inode_table i).i_num ∧
    (s.inode_table i).i_num ≤ (s.vol (s.inode_table i).i_dev).sb.s_ninodes
  imap : ∀ dev, Mounted s dev → Imap (s.vol dev).sb
  dirty : ∀ i, (s.inode_table i).i_dirt = true → (s.inode_table i).i_dev ≠ 0
  pipe : ∀ i, (s.inode_table i).i_pipe = true → (s.inode_table i).i_dev = 0
  good : ∀ dev b, (s.vol dev).bad b = false

/-- The table as it is while no file has changed. -/
structure Table (s : State) : Prop where
  unique : ∀ i j, (s.inode_table i).i_dev ≠ 0 →
    (s.inode_table i).key = (s.inode_table j).key → i = j
  /-- what is clean is as on the device -/
  clean : ∀ i, (s.inode_table i).i_dev ≠ 0 → (s.inode_table i).i_dirt = false →
    (s.inode_table i).toDInode = s.d_inode (s.inode_table i).i_dev (s.inode_table i).i_num

/-- No inode is in the table twice. -/
def Distinct (s : State) : Prop :=
  ∀ i j, (s.inode_table i).i_dev ≠ 0 → (s.inode_table i).key = (s.inode_table j).key → i = j

theorem Distinct.congr (h : Distinct s)
    (hkey : ∀ i, (s'.inode_table i).key = (s.inode_table i).key) : Distinct s' := by
  intro i j hi hij
  rw [hkey, hkey] at hij
  exact h i j ((congrArg Prod.fst (hkey i)).symm.trans_ne hi) hij

theorem Distinct.find (h : Distinct s) (hdev : dev ≠ 0)
    (hi : (s.inode_table i).key = (dev, nr)) : findInode s.inode_table dev nr = some i := by
  cases hfind : findInode s.inode_table dev nr with
  | none => exact absurd hi (findInode_none hfind i)
  | some j =>
      have hj := findInode_some hfind
      have hne : (s.inode_table j).i_dev ≠ 0 := (congrArg Prod.fst hj).trans_ne hdev
      rw [h j i hne (hj.trans hi.symm)]

theorem Distinct.node_eq (h : Distinct s) (hdev : dev ≠ 0)
    (hi : (s.inode_table i).key = (dev, nr)) : node s dev nr = (s.inode_table i).toDInode := by
  unfold node
  rw [h.find hdev hi]

theorem Table.distinct (h : Table s) : Distinct s := h.unique

theorem Table.find (h : Table s) (hdev : dev ≠ 0) (hi : (s.inode_table i).key = (dev, nr)) :
    findInode s.inode_table dev nr = some i := h.distinct.find hdev hi

theorem Table.node_eq (h : Table s) (hdev : dev ≠ 0) (hi : (s.inode_table i).key = (dev, nr)) :
    node s dev nr = (s.inode_table i).toDInode := h.distinct.node_eq hdev hi

/-! ## Writing inodes -/

theorem withBlock_eq (hgood : ∀ dev b, (s.vol dev).bad b = false) (dev b : Nat) :
    withBlock s dev b = .ok s := by
  unfold withBlock
  rw [Vol.bread_of_good (hgood dev b)]
  dsimp only
  rw [Vol.brelse_hold]
  exact congrArg Except.ok (setVol_self s dev)

/-- Some inodes have been written, and references have come and gone. -/
structure Calm (s s' : State) : Prop where
  vol : s'.vol = s.vol
  super_block : s'.super_block = s.super_block
  toDInode : ∀ i, (s'.inode_table i).toDInode = (s.inode_table i).toDInode
  key : ∀ i, (s'.inode_table i).key = (s.inode_table i).key
  mount : ∀ i, (s'.inode_table i).i_mount = (s.inode_table i).i_mount
  pipe : ∀ i, (s'.inode_table i).i_pipe = (s.inode_table i).i_pipe
  dirt : ∀ i, (s'.inode_table i).i_dirt = true → (s.inode_table i).i_dirt = true
  table : Table s → Table s'
  node : ∀ dev nr, node s' dev nr = node s dev nr

theorem Calm.refl (s : State) : Calm s s :=
  ⟨rfl, rfl, fun _ => rfl, fun _ => rfl, fun _ => rfl, fun _ => rfl, fun _ => id, id,
    fun _ _ => rfl⟩

theorem Calm.trans {s₁ s₂ : State} (h : Calm s s₁) (h' : Calm s₁ s₂) : Calm s s₂ where
  vol := h'.vol.trans h.vol
  super_block := h'.super_block.trans h.super_block
  toDInode := fun i => (h'.toDInode i).trans (h.toDInode i)
  key := fun i => (h'.key i).trans (h.key i)
  mount := fun i => (h'.mount i).trans (h.mount i)
  pipe := fun i => (h'.pipe i).trans (h.pipe i)
  dirt := fun i hi => h.dirt i (h'.dirt i hi)
  table := fun ht => h'.table (h.table ht)
  node := fun dev nr => (h'.node dev nr).trans (h.node dev nr)

theorem Calm.i_dev (h : Calm s s') (i : Entry) :
    (s'.inode_table i).i_dev = (s.inode_table i).i_dev := congrArg Prod.fst (h.key i)

theorem Calm.i_num (h : Calm s s') (i : Entry) :
    (s'.inode_table i).i_num = (s.inode_table i).i_num := congrArg Prod.snd (h.key i)

theorem Calm.sound (h : Calm s s') (hs : Sound s) : Sound s' where
  mounted := fun i => by
    rw [h.i_dev]
    exact fun hdev => (hs.mounted i hdev).congr h.super_block
  range := fun i => by
    rw [h.i_dev, h.i_num, h.vol]
    exact hs.range i
  imap := fun dev hdev => by
    rw [h.vol]
    exact hs.imap dev (hdev.congr h.super_block.symm)
  dirty := fun i hi => by
    rw [h.i_dev]
    exact hs.dirty i (h.dirt i hi)
  pipe := fun i => by
    rw [h.pipe, h.i_dev]
    exact hs.pipe i
  good := fun dev b => by
    rw [h.vol]
    exact hs.good dev b

theorem findInode_congr {table table' : Entry → Inode} (h : ∀ j, (table' j).key = (table j).key)
    (dev nr : Nat) : findInode table' dev nr = findInode table dev nr := by
  unfold findInode
  refine congrArg (List.find? · _) (funext fun j => decide_eq_decide.mpr ?_)
  obtain ⟨hdev, hnum⟩ := Prod.mk.inj (h j)
  rw [hdev, hnum]

theorem written_slot (s : State) (i j : Entry) :
    (s.written i).inode_table j =
      if j = i then { s.inode_table i with i_dirt := false } else s.inode_table j := by
  by_cases hj : j = i
  · rw [hj, if_pos rfl]
    exact update_self _ _ _
  · rw [if_neg hj]
    exact update_of_ne hj _ _

theorem written_d_inode (s : State) (i : Entry) (dev nr : Nat) :
    (s.written i).d_inode dev nr =
      if (s.inode_table i).key = (dev, nr) then (s.inode_table i).toDInode
      else s.d_inode dev nr := by
  unfold State.written
  dsimp only
  by_cases hdev : dev = (s.inode_table i).i_dev
  · subst hdev
    rw [update_self]
    by_cases hnr : nr = (s.inode_table i).i_num
    · subst hnr
      rw [update_self]
      exact (if_pos rfl).symm
    · rw [update_of_ne hnr, if_neg fun hkey => hnr (congrArg Prod.snd hkey).symm]
  · rw [update_of_ne hdev, if_neg fun hkey => hdev (congrArg Prod.fst hkey).symm]

theorem written_key (s : State) (i j : Entry) :
    ((s.written i).inode_table j).key = (s.inode_table j).key := by
  rw [written_slot]
  by_cases hj : j = i
  · rw [hj, if_pos rfl]
    rfl
  · rw [if_neg hj]

theorem written_toDInode (s : State) (i j : Entry) :
    ((s.written i).inode_table j).toDInode = (s.inode_table j).toDInode := by
  rw [written_slot]
  by_cases hj : j = i
  · rw [hj, if_pos rfl]
  · rw [if_neg hj]

theorem written_node (s : State) (i : Entry) (dev nr : Nat) :
    node (s.written i) dev nr = node s dev nr := by
  unfold node
  rw [findInode_congr (written_key s i)]
  cases hfind : findInode s.inode_table dev nr with
  | some j => exact written_toDInode s i j
  | none =>
      dsimp only
      rw [written_d_inode, if_neg (findInode_none hfind i)]

theorem Table.written (h : Table s) (i : Entry) : Table (s.written i) where
  unique := fun j j' hdev hkey => by
    rw [written_key, written_key] at hkey
    exact h.unique j j' ((congrArg Prod.fst (written_key s i j)).symm.trans_ne hdev) hkey
  clean := fun j hdev hdirt => by
    obtain ⟨hj, hn⟩ := Prod.mk.inj (written_key s i j)
    rw [hj] at hdev
    rw [hj, hn, written_toDInode, written_d_inode]
    by_cases hji : j = i
    · subst hji
      exact (if_pos rfl).symm
    · rw [if_neg fun hkey => hji (h.unique j i hdev hkey.symm)]
      rw [written_slot, if_neg hji] at hdirt
      exact h.clean j hdev hdirt

theorem written_calm (s : State) (i : Entry) : Calm s (s.written i) where
  vol := rfl
  super_block := rfl
  toDInode := written_toDInode s i
  key := written_key s i
  mount := fun j => by
    rw [written_slot]
    split
    · rename_i hj
      rw [hj]
    · rfl
  pipe := fun j => by
    rw [written_slot]
    split
    · rename_i hj
      rw [hj]
    · rfl
  dirt := fun j hj => by
    rw [written_slot] at hj
    split at hj
    · cases hj
    · exact hj
  table := fun ht => ht.written i
  node := written_node s i

theorem writeInode_spec (h : Sound s) (i : Entry) :
    ∃ s', writeInode s i = .ok s' ∧ Calm s s' ∧ (s'.inode_table i).i_dirt = false ∧
      ∀ j, (s'.inode_table j).i_count = (s.inode_table j).i_count := by
  unfold writeInode
  dsimp only
  by_cases hdirt : (s.inode_table i).i_dirt = true
  swap
  · have hclean := Bool.not_eq_true _ ▸ hdirt
    rw [if_pos (.inl hclean)]
    exact ⟨s, rfl, .refl s, hclean, fun _ => rfl⟩
  have hdev := h.dirty i hdirt
  obtain ⟨k, hk⟩ := (h.mounted i hdev).get
  have hno : ¬((s.inode_table i).i_dirt = false ∨ (s.inode_table i).i_dev = 0) := by
    rw [hdirt]
    exact not_or.mpr ⟨Bool.true_eq_false.mp, hdev⟩
  rw [if_neg hno, hk]
  dsimp only
  rw [withBlock_eq h.good]
  refine ⟨s.written i, rfl, written_calm s i, ?_, fun j => ?_⟩
  · rw [written_slot, if_pos rfl]
  · rw [written_slot]
    split
    · rename_i hj
      rw [hj]
    · rfl

theorem syncInodes_spec (h : Sound s) : ∃ s', syncInodes s = .ok s' ∧ Calm s s' ∧
    ∀ j, (s'.inode_table j).i_count = (s.inode_table j).i_count := by
  obtain ⟨s', hs', hcalm, hcount⟩ := Loops.foldlM_ok (l := List.finRange NR_INODE) (p := [])
    (f := syncInode)
    (fun _ s' => Calm s s' ∧ ∀ j, (s'.inode_table j).i_count = (s.inode_table j).i_count)
    ⟨.refl s, fun _ => rfl⟩ fun _ i _ s₁ _ hs₁ => by
      obtain ⟨hcalm, hcount⟩ := hs₁
      unfold syncInode
      split
      · obtain ⟨s₂, hs₂, hcalm₂, -, hcount₂⟩ := writeInode_spec (hcalm.sound h) i
        exact ⟨s₂, hs₂, hcalm.trans hcalm₂, fun j => (hcount₂ j).trans (hcount j)⟩
      · exact ⟨s₁, rfl, hcalm, hcount⟩
  exact ⟨s', hs', hcalm, hcount⟩

/-! ## iput -/

theorem setCount_slot (s : State) (i : Entry) (n : Nat) (j : Entry) :
    (s.setCount i n).inode_table j =
      if j = i then { s.inode_table i with i_count := n } else s.inode_table j := by
  by_cases hj : j = i
  · rw [hj, if_pos rfl]
    exact set_self s i _
  · rw [if_neg hj]
    exact set_ne s _ hj

theorem setCount_count (s : State) (i : Entry) (n : Nat) (j : Entry) :
    ((s.setCount i n).inode_table j).i_count =
      if j = i then n else (s.inode_table j).i_count := by
  rw [setCount_slot]
  split <;> rfl

theorem setCount_calm (s : State) (i : Entry) (n : Nat) : Calm s (s.setCount i n) := by
  have hslot : ∀ {α : Type} (f : Inode → α), (∀ inode n, f { inode with i_count := n } = f inode) →
      ∀ j, f ((s.setCount i n).inode_table j) = f (s.inode_table j) := by
    intro α f hf j
    rw [setCount_slot]
    split
    · rename_i hj
      rw [hf, hj]
    · rfl
  have hkey := hslot Inode.key fun _ _ => rfl
  have hnode : ∀ dev nr, node (s.setCount i n) dev nr = node s dev nr := by
    intro dev nr
    unfold node
    rw [findInode_congr hkey]
    cases findInode s.inode_table dev nr with
    | some j => exact hslot Inode.toDInode (fun _ _ => rfl) j
    | none => rfl
  refine ⟨rfl, rfl, hslot _ fun _ _ => rfl, hkey, hslot _ fun _ _ => rfl, hslot _ fun _ _ => rfl,
    fun j hj => ?_, fun ht => ⟨fun j j' hdev hj => ?_, fun j hdev hdirt => ?_⟩, hnode⟩
  · rwa [hslot Inode.i_dirt fun _ _ => rfl] at hj
  · rw [hkey, hkey] at hj
    rw [hslot Inode.i_dev fun _ _ => rfl] at hdev
    exact ht.unique j j' hdev hj
  · rw [hslot Inode.i_dev fun _ _ => rfl] at hdev
    rw [hslot Inode.i_dirt fun _ _ => rfl] at hdirt
    rw [hslot Inode.toDInode fun _ _ => rfl, hslot Inode.i_dev fun _ _ => rfl,
      hslot Inode.i_num fun _ _ => rfl]
    exact ht.clean j hdev hdirt

/-- A reference is given up, and the inode stays in the table. -/
structure Puts (s : State) (i : Entry) (s' : State) : Prop where
  calm : Calm s s'
  count : ∀ j, (s'.inode_table j).i_count =
    if j = i then (s.inode_table i).i_count - 1 else (s.inode_table j).i_count

theorem Calm.puts {s₁ : State} (h : Calm s s₁)
    (hcount : ∀ j, (s₁.inode_table j).i_count = (s.inode_table j).i_count) (i : Entry) :
    Puts s i (s₁.setCount i ((s₁.inode_table i).i_count - 1)) where
  calm := h.trans (setCount_calm _ _ _)
  count := fun j => by
    rw [setCount_count, hcount, hcount]

theorem putLast_keep (h : Sound s)
    (hlinks : (s.inode_table i).i_count ≤ 1 → (s.inode_table i).i_nlinks ≠ 0) :
    ∃ s', putLast s i = .ok s' ∧ Puts s i s' := by
  unfold putLast
  dsimp only
  by_cases hone : (s.inode_table i).i_count > 1
  · rw [if_pos hone]
    exact ⟨_, rfl, (Calm.refl s).puts (fun _ => rfl) i⟩
  · rw [if_neg hone, if_neg (hlinks (Nat.le_of_not_lt hone))]
    obtain ⟨s₁, hs₁, hcalm, -, hcount⟩ := writeInode_spec h i
    rw [hs₁]
    exact ⟨_, rfl, hcalm.puts hcount i⟩

/-- `iput` of an inode that others refer to, or that has a link. -/
theorem iput_keep (h : Sound s) (hpos : 0 < (s.inode_table i).i_count)
    (hpipe : (s.inode_table i).i_pipe = false)
    (hlinks : (s.inode_table i).i_count ≤ 1 → (s.inode_table i).i_dev ≠ 0 →
      (s.inode_table i).i_nlinks ≠ 0) :
    ∃ s', iput s i = .ok s' ∧ Puts s i s' := by
  unfold iput
  dsimp only
  rw [if_neg (Nat.ne_of_gt hpos), hpipe, if_neg Bool.false_ne_true]
  by_cases hdev : (s.inode_table i).i_dev = 0
  · rw [if_pos hdev]
    exact ⟨_, rfl, (Calm.refl s).puts (fun _ => rfl) i⟩
  rw [if_neg hdev]
  by_cases hblk : S_ISBLK (s.inode_table i).i_mode
  · obtain ⟨s₁, hs₁, hcalm, hcount⟩ := syncInodes_spec h
    have hlinks₁ : (s₁.inode_table i).i_count ≤ 1 → (s₁.inode_table i).i_nlinks ≠ 0 := by
      rw [hcount, hcalm.toDInode]
      exact fun hone => hlinks hone hdev
    obtain ⟨s', hs', hputs⟩ := putLast_keep (hcalm.sound h) hlinks₁
    rw [if_pos hblk, hs₁]
    refine ⟨s', hs', hcalm.trans hputs.calm, fun j => ?_⟩
    rw [hputs.count, hcount, hcount]
  · rw [if_neg hblk]
    exact putLast_keep h fun hone => hlinks hone hdev

/-! ## The ledger -/

/-- A reference in hand, and what it refers to. -/
structure Handle where
  slot : Entry
  dev : Nat
  nr : Nat

/-- The references to inodes in `hs` and to buffers in `bs` are in hand, beside those of `s₀`. -/
structure Ledger (s₀ : State) (hs : List Handle) (bs : List (Nat × Nat)) (s : State) : Prop where
  sound : Sound s
  super_block : s.super_block = s₀.super_block
  count : ∀ i, (s.inode_table i).i_count =
    (s₀.inode_table i).i_count + (hs.map Handle.slot).count i
  hand : ∀ h ∈ hs, (s.inode_table h.slot).key = (h.dev, h.nr) ∧
    (s.inode_table h.slot).i_pipe = false
  ident : ∀ i, 0 < (s₀.inode_table i).i_count →
    (s.inode_table i).key = (s₀.inode_table i).key
  mount : ∀ i, (s.inode_table i).i_mount = (s₀.inode_table i).i_mount
  buffers : ∀ dev b, (s.vol dev).b_count b = (s₀.vol dev).b_count b + bs.count (dev, b)

variable {h : Handle} {hs : List Handle} {bs : List (Nat × Nat)}

theorem Ledger.pos (hl : Ledger s₀ hs bs s) (hh : h ∈ hs) :
    0 < (s.inode_table h.slot).i_count := by
  have hmem := List.count_pos_iff.mpr (List.mem_map_of_mem (f := Handle.slot) hh)
  rw [hl.count]
  omega

theorem Ledger.puts (hl : Ledger s₀ (h :: hs) bs s) (hp : Puts s h.slot s') :
    Ledger s₀ hs bs s' where
  sound := hp.calm.sound hl.sound
  super_block := hp.calm.super_block.trans hl.super_block
  count := fun i => by
    have hi := hl.count i
    rw [List.map_cons, List.count_cons] at hi
    rw [hp.count]
    by_cases hslot : i = h.slot
    · subst hslot
      rw [if_pos rfl, hi, beq_self_eq_true, if_pos rfl]
      rfl
    · rw [if_neg hslot, hi, if_neg fun heq => hslot (beq_iff_eq.mp heq).symm, Nat.add_zero]
  hand := fun h' hh' => by
    rw [hp.calm.key, hp.calm.pipe]
    exact hl.hand h' (List.mem_cons_of_mem _ hh')
  ident := fun i hi => (hp.calm.key i).trans (hl.ident i hi)
  mount := fun i => (hp.calm.mount i).trans (hl.mount i)
  buffers := fun dev b => by
    rw [hp.calm.vol]
    exact hl.buffers dev b

theorem Ledger.calm (hl : Ledger s₀ hs bs s) (hc : Calm s s')
    (hcount : ∀ i, (s'.inode_table i).i_count = (s.inode_table i).i_count) :
    Ledger s₀ hs bs s' where
  sound := hc.sound hl.sound
  super_block := hc.super_block.trans hl.super_block
  count := fun i => (hcount i).trans (hl.count i)
  hand := fun h hh => by
    rw [hc.key, hc.pipe]
    exact hl.hand h hh
  ident := fun i hi => (hc.key i).trans (hl.ident i hi)
  mount := fun i => (hc.mount i).trans (hl.mount i)
  buffers := fun dev b => by
    rw [hc.vol]
    exact hl.buffers dev b

/-- No count of an inode comes to its end at the next reference, with the entries `es` in hand. -/
def Room (s : State) (es : List Entry) : Prop :=
  ∀ i, (s.inode_table i).i_count + es.count i + 1 < 0x10000

theorem Room.lt (hroom : Room s₀ (hs.map Handle.slot)) (hl : Ledger s₀ hs bs s) (i : Entry) :
    (s.inode_table i).i_count + 1 < 0x10000 := by
  rw [hl.count]
  exact hroom i

/-- The same of an entry that is not empty, with one that is in hand too. -/
theorem Room.lt_of_empty {e : Entry} (hroom : Room s₀ (hs.map Handle.slot))
    (hl : Ledger s₀ (⟨e, 0, 0⟩ :: hs) bs s) (hi : (s.inode_table i).i_dev ≠ 0) :
    (s.inode_table i).i_count + 1 < 0x10000 := by
  have hne : e ≠ i := by
    rintro rfl
    exact hi (congrArg Prod.fst (hl.hand _ (List.mem_cons_self ..)).1)
  rw [hl.count, List.map_cons, List.count_cons_of_ne hne]
  exact hroom i

theorem refer_calm (s : State) (i : Entry) : Calm s (s.refer i) := setCount_calm s i _

/-- A reference more to an inode of the table. -/
theorem Ledger.take (hl : Ledger s₀ hs bs s) (i : Entry) (hkey : (s.inode_table i).key = (dev, nr))
    (hpipe : (s.inode_table i).i_pipe = false) (hlt : (s.inode_table i).i_count + 1 < 0x10000) :
    Ledger s₀ (⟨i, dev, nr⟩ :: hs) bs (s.refer i) := by
  unfold State.refer
  rw [Nat.mod_eq_of_lt hlt]
  have hcalm := setCount_calm s i ((s.inode_table i).i_count + 1)
  refine {
    sound := hcalm.sound hl.sound
    super_block := hl.super_block
    count := fun j => ?_
    hand := fun h' hh' => ?_
    ident := fun j hj => (hcalm.key j).trans (hl.ident j hj)
    mount := fun j => (hcalm.mount j).trans (hl.mount j)
    buffers := hl.buffers }
  · rw [setCount_count, List.map_cons, List.count_cons]
    by_cases hj : j = i
    · subst hj
      rw [if_pos rfl, beq_self_eq_true, if_pos rfl, hl.count, Nat.add_assoc]
    · rw [if_neg hj, if_neg fun heq => hj (beq_iff_eq.mp heq).symm, hl.count, Nat.add_zero]
  · rw [hcalm.key, hcalm.pipe]
    rcases List.mem_cons.mp hh' with rfl | hh'
    · exact ⟨hkey, hpipe⟩
    · exact hl.hand h' hh'

theorem Ledger.perm {hs' : List Handle} (hl : Ledger s₀ hs bs s) (hperm : hs.Perm hs') :
    Ledger s₀ hs' bs s where
  sound := hl.sound
  super_block := hl.super_block
  count := fun i => by
    rw [← (hperm.map Handle.slot).count_eq]
    exact hl.count i
  hand := fun h hh => hl.hand h (hperm.mem_iff.mpr hh)
  ident := hl.ident
  mount := hl.mount
  buffers := hl.buffers

/-- `iput` of a reference in hand; without another reference the inode has to have a link. -/
theorem Ledger.iput (hl : Ledger s₀ (h :: hs) bs s)
    (hlinks : (s₀.inode_table h.slot).i_count = 0 → h.dev ≠ 0 →
      (s.inode_table h.slot).i_nlinks ≠ 0) :
    ∃ s', Namei.iput s h.slot = .ok s' ∧ Puts s h.slot s' ∧ Ledger s₀ hs bs s' := by
  obtain ⟨hkey, hpipe⟩ := hl.hand h (List.mem_cons_self ..)
  have hcount := hl.count h.slot
  rw [List.map_cons, List.count_cons_self] at hcount
  obtain ⟨s', hs', hputs⟩ := iput_keep hl.sound (hl.pos (List.mem_cons_self ..)) hpipe
    fun hone hdev => hlinks (by omega) ((congrArg Prod.fst hkey).symm.trans_ne hdev)
  exact ⟨s', hs', hputs, hl.puts hputs⟩

/-! ## No file has changed -/

/-- The inode has a set bit in the map of its device. -/
structure Live (s : State) (dev nr : Nat) : Prop where
  mounted : Mounted s dev
  pos : 1 ≤ nr
  le : nr ≤ (s.vol dev).sb.s_ninodes
  used : used (s.vol dev).sb.s_imap nr = true

/-- The table and the devices as they are while a path is walked from `s₀`. -/
structure Walks (s₀ : State) (hs : List Handle) (bs : List (Nat × Nat)) (s : State) : Prop extends
    Ledger s₀ hs bs s where
  table : Table s
  disk : ∀ dev, (s.vol dev).toDisk = (s₀.vol dev).toDisk
  node : ∀ dev nr, dev ≠ 0 → Namei.node s dev nr = Namei.node s₀ dev nr
  live : ∀ i, (s.inode_table i).i_dev ≠ 0 →
    Live s₀ (s.inode_table i).i_dev (s.inode_table i).i_num

theorem Walks.of_calm (hw : Walks s₀ hs bs s) (hc : Calm s s') {hs' : List Handle}
    (hl : Ledger s₀ hs' bs s') : Walks s₀ hs' bs s' where
  toLedger := hl
  table := hc.table hw.table
  disk := fun dev => by
    rw [hc.vol]
    exact hw.disk dev
  node := fun dev nr hdev => (hc.node dev nr).trans (hw.node dev nr hdev)
  live := fun i => by
    rw [hc.i_dev, hc.i_num]
    exact hw.live i

theorem Walks.perm {hs' : List Handle} (hw : Walks s₀ hs bs s) (hperm : hs.Perm hs') :
    Walks s₀ hs' bs s := hw.of_calm (.refl s) (hw.toLedger.perm hperm)

theorem Walks.slot (hw : Walks s₀ hs bs s) (hh : h ∈ hs) (hdev : h.dev ≠ 0) :
    (s.inode_table h.slot).toDInode = Namei.node s₀ h.dev h.nr := by
  rw [← hw.node _ _ hdev, hw.table.node_eq hdev (hw.hand h hh).1]

theorem Walks.iput (hw : Walks s₀ (h :: hs) bs s)
    (hlinks : (s₀.inode_table h.slot).i_count = 0 → h.dev ≠ 0 →
      (Namei.node s₀ h.dev h.nr).i_nlinks ≠ 0) :
    ∃ s', Namei.iput s h.slot = .ok s' ∧ Puts s h.slot s' ∧ Walks s₀ hs bs s' := by
  obtain ⟨s', hs', hputs, hl⟩ := hw.toLedger.iput fun hzero hdev => by
    have hnode := hw.slot (List.mem_cons_self ..) hdev
    rw [show (s.inode_table h.slot).i_nlinks = _ from congrArg DInode.i_nlinks hnode]
    exact hlinks hzero hdev
  exact ⟨s', hs', hputs, hw.of_calm hputs.calm hl⟩

theorem Walks.take (hw : Walks s₀ hs bs s) (i : Entry) (hkey : (s.inode_table i).key = (dev, nr))
    (hpipe : (s.inode_table i).i_pipe = false) (hlt : (s.inode_table i).i_count + 1 < 0x10000) :
    Walks s₀ (⟨i, dev, nr⟩ :: hs) bs (s.refer i) :=
  hw.of_calm (refer_calm s i) (hw.toLedger.take i hkey hpipe hlt)

/-! ## get_empty_inode -/

theorem searchEmpty_unused {table : Entry → Inode} :
    ∀ {n : Nat} {last last' : Entry} {inode : Option Entry},
      (∀ j ∈ inode, (table j).i_count = 0) → searchEmpty table n last inode = (last', some i) →
      (table i).i_count = 0
  | 0, last, last', inode, hinode, h => by
      obtain ⟨-, rfl⟩ := Prod.mk.inj h
      exact hinode i rfl
  | n + 1, last, last', inode, hinode, h => by
      unfold searchEmpty at h
      dsimp only at h
      split at h
      · rename_i hzero
        split at h
        · obtain ⟨-, heq⟩ := Prod.mk.inj h
          obtain rfl := Option.some.inj heq
          exact hzero
        · refine searchEmpty_unused (fun j hj => ?_) h
          obtain rfl := Option.some.inj hj
          exact hzero
      · exact searchEmpty_unused hinode h

theorem searchEmpty_none {table : Entry → Inode} :
    ∀ {n : Nat} {last last' : Entry} {inode : Option Entry},
      searchEmpty table n last inode = (last', none) →
      inode = none ∧ ∀ k < n, (table (Entry.next^[k + 1] last)).i_count ≠ 0
  | 0, last, last', inode, h => ⟨(Prod.mk.inj h).2, fun _ hk => absurd hk (Nat.not_lt_zero _)⟩
  | n + 1, last, last', inode, h => by
      unfold searchEmpty at h
      dsimp only at h
      split at h
      · split at h
        · cases (Prod.mk.inj h).2
        · cases (searchEmpty_none h).1
      · rename_i hcount
        obtain ⟨hinode, hall⟩ := searchEmpty_none h
        refine ⟨hinode, fun k hk => ?_⟩
        cases k with
        | zero => exact hcount
        | succ k => exact hall k (Nat.lt_of_succ_lt_succ hk)

theorem searchEmpty_full {table : Entry → Inode} (h : ∀ i, (table i).i_count ≠ 0) :
    ∀ (n : Nat) (last : Entry), ∃ last', searchEmpty table n last none = (last', none)
  | 0, last => ⟨last, rfl⟩
  | n + 1, last => by
      unfold searchEmpty
      dsimp only
      rw [if_neg (h last.next)]
      exact searchEmpty_full h n last.next

theorem val_next_iterate (k : Nat) (last : Entry) :
    (Entry.next^[k] last).val = (last.val + k) % 32 := by
  induction k with
  | zero => exact (Nat.mod_eq_of_lt last.isLt).symm
  | succ k ih =>
      rw [iterate_succ_apply']
      show ((Entry.next^[k] last).val + 1) % 32 = _
      rw [ih]
      omega

theorem next_reaches (last i : Entry) : ∃ k < NR_INODE, Entry.next^[k + 1] last = i := by
  have hlast : last.val < 32 := last.isLt
  have hi : i.val < 32 := i.isLt
  refine ⟨(i.val + 31 - last.val) % 32, Nat.mod_lt _ (by decide), Fin.ext ?_⟩
  rw [val_next_iterate]
  omega

theorem findInode_eq_none {table : Entry → Inode} (h : ∀ i, (table i).key ≠ (dev, nr)) :
    findInode table dev nr = none := by
  cases hfind : findInode table dev nr with
  | none => rfl
  | some i => exact absurd (findInode_some hfind) (h i)

/-- An inode that is clean and not referred to makes place for another, which is empty. -/
theorem Table.evict (ht : Table s) (inode : Inode) (hclean : (s.inode_table i).i_dirt = false)
    (hzero : inode.i_dev = 0) :
    Table (s.set i inode) ∧
      ∀ dev nr, dev ≠ 0 → Namei.node (s.set i inode) dev nr = Namei.node s dev nr := by
  have hne : ∀ {j}, ((s.set i inode).inode_table j).i_dev ≠ 0 → j ≠ i := by
    rintro j hj rfl
    rw [set_self] at hj
    exact hj hzero
  have htable : Table (s.set i inode) := by
    refine ⟨fun j j' hdev hkey => ?_, fun j hdev hdirt => ?_⟩
    · have hj := hne hdev
      have hdev' : ((s.set i inode).inode_table j').i_dev ≠ 0 :=
        (congrArg Prod.fst hkey).symm.trans_ne hdev
      rw [set_ne s inode hj] at hdev hkey
      rw [set_ne s inode (hne hdev')] at hkey
      exact ht.unique j j' hdev hkey
    · have hj := hne hdev
      rw [set_ne s inode hj] at hdev hdirt ⊢
      exact ht.clean j hdev hdirt
  refine ⟨htable, fun dev nr hdev => ?_⟩
  cases hfind : findInode s.inode_table dev nr with
  | none =>
      have hnone : findInode (s.set i inode).inode_table dev nr = none := by
        refine findInode_eq_none fun j hkey => ?_
        have hj := hne ((congrArg Prod.fst hkey).trans_ne hdev)
        rw [set_ne s inode hj] at hkey
        exact findInode_none hfind j hkey
      unfold node
      rw [hfind, hnone]
      rfl
  | some j =>
      have hkey := findInode_some hfind
      by_cases hj : j = i
      · subst hj
        have hnone : findInode (s.set j inode).inode_table dev nr = none := by
          refine findInode_eq_none fun j' hkey' => ?_
          have hj' := hne ((congrArg Prod.fst hkey').trans_ne hdev)
          rw [set_ne s inode hj'] at hkey'
          exact hj' (ht.unique j' j ((congrArg Prod.fst hkey').trans_ne hdev)
            (hkey'.trans hkey.symm))
        obtain ⟨hd, hn⟩ := Prod.mk.inj hkey
        have hslot := ht.clean j (hd.trans_ne hdev) hclean
        rw [hd, hn] at hslot
        unfold node
        rw [hfind, hnone]
        exact hslot.symm
      · have hkey' : ((s.set i inode).inode_table j).key = (dev, nr) := by
          rw [set_ne s inode hj, hkey]
        rw [htable.node_eq hdev hkey', ht.node_eq hdev hkey, set_ne s inode hj]

/-- An entry that nobody refers to is emptied and taken. -/
theorem Walks.empty (hw : Walks s₀ hs bs s) (hmounts : ∀ i, (s₀.inode_table i).i_mount = true →
    0 < (s₀.inode_table i).i_count) (hcount : (s.inode_table i).i_count = 0)
    (hclean : (s.inode_table i).i_dirt = false) :
    Walks s₀ (⟨i, 0, 0⟩ :: hs) bs (s.set i Inode.taken) := by
  obtain ⟨htable, hnode⟩ := hw.table.evict .taken hclean rfl
  have hi := hw.count i
  rw [hcount] at hi
  have hother : ∀ h ∈ hs, h.slot ≠ i := by
    rintro h hh rfl
    exact absurd (hw.pos hh) (by omega)
  have hdev : ∀ {j}, ((s.set i Inode.taken).inode_table j).i_dev ≠ 0 →
      j ≠ i := by
    rintro j hj rfl
    rw [set_self] at hj
    exact hj rfl
  refine {
    sound := {
      mounted := fun j hj => ?_
      range := fun j hj => ?_
      imap := hw.sound.imap
      dirty := fun j hj => ?_
      pipe := fun j hj => ?_
      good := hw.sound.good }
    super_block := hw.super_block
    count := fun j => ?_
    hand := fun h hh => ?_
    ident := fun j hj => ?_
    mount := fun j => ?_
    buffers := hw.buffers
    table := htable
    disk := hw.disk
    node := fun dev nr hdev => (hnode dev nr hdev).trans (hw.node dev nr hdev)
    live := fun j hj => ?_ }
  · have hji := hdev hj
    rw [set_ne s _ hji] at hj ⊢
    exact hw.sound.mounted j hj
  · have hji := hdev hj
    rw [set_ne s _ hji] at hj ⊢
    exact hw.sound.range j hj
  · by_cases hji : j = i
    · subst hji
      rw [set_self] at hj
      cases hj
    · rw [set_ne s _ hji] at hj ⊢
      exact hw.sound.dirty j hj
  · by_cases hji : j = i
    · subst hji
      rw [set_self]
      rfl
    · rw [set_ne s _ hji] at hj ⊢
      exact hw.sound.pipe j hj
  · rw [List.map_cons, List.count_cons]
    by_cases hji : j = i
    · subst hji
      rw [set_self, beq_self_eq_true, if_pos rfl]
      show 1 = _
      omega
    · rw [set_ne s _ hji, if_neg fun heq => hji (beq_iff_eq.mp heq).symm, Nat.add_zero]
      exact hw.count j
  · rcases List.mem_cons.mp hh with rfl | hh
    · rw [set_self]
      exact ⟨rfl, rfl⟩
    · rw [set_ne s _ (hother h hh)]
      exact hw.hand h hh
  · have hji : j ≠ i := by
      rintro rfl
      omega
    rw [set_ne s _ hji]
    exact hw.ident j hj
  · by_cases hji : j = i
    · subst hji
      rw [set_self]
      cases hm : (s₀.inode_table j).i_mount with
      | false => rfl
      | true => exact absurd (hmounts j hm) (by omega)
    · rw [set_ne s _ hji]
      exact hw.mount j
  · have hji := hdev hj
    rw [set_ne s _ hji] at hj ⊢
    exact hw.live j hj

/-! ## iget -/

/-- The device that is mounted on the inode with number `nr`. -/
def mountAt (s : State) (dev nr : Nat) : Option (Fin NR_SUPER) :=
  (List.finRange NR_SUPER).find? fun k => (s.super_block k).s_imount.any fun m =>
    (s.inode_table m).i_mount = true ∧ (s.inode_table m).key = (dev, nr)

/-- Where `iget` comes to: in the root of the device, if there is one. -/
def cross (s : State) (dev nr : Nat) : Nat × Nat :=
  match mountAt s dev nr with
  | some k => ((s.super_block k).s_dev, ROOT_INO)
  | none => (dev, nr)

/-- What `mount_root` and `sys_mount` see to; the first leaves `i_mount` of the root clear. -/
structure Mounts (s : State) : Prop where
  held : ∀ k m, (s.super_block k).s_imount = some m → 0 < (s.inode_table m).i_count ∧
    (s.inode_table m).i_dev ≠ 0
  point : ∀ i, (s.inode_table i).i_mount = true → 0 < (s.inode_table i).i_count ∧
    (s.inode_table i).i_num ≠ ROOT_INO
  root : ∀ k m, (s.super_block k).s_imount = some m → Live s (s.super_block k).s_dev ROOT_INO

theorem mountAt_some {k : Fin NR_SUPER} (h : mountAt s dev nr = some k) :
    ∃ m, (s.super_block k).s_imount = some m ∧ (s.inode_table m).i_mount = true ∧
      (s.inode_table m).key = (dev, nr) := by
  have hany := List.find?_some (p := fun k : Fin NR_SUPER => (s.super_block k).s_imount.any fun m =>
    (s.inode_table m).i_mount = true ∧ (s.inode_table m).key = (dev, nr)) h
  obtain ⟨m, hm, hkey⟩ := (Option.any_eq_true _ _).mp hany
  exact ⟨m, hm, of_decide_eq_true hkey⟩

/-- No device is mounted on the root of one. -/
theorem Mounts.root_none (hm : Mounts s) (dev : Nat) : mountAt s dev ROOT_INO = none := by
  cases h : mountAt s dev ROOT_INO with
  | none => rfl
  | some k =>
      obtain ⟨m, -, hmark, hkey⟩ := mountAt_some h
      exact absurd (congrArg Prod.snd hkey) (hm.point m hmark).2

theorem Ledger.mountAt (hl : Ledger s₀ hs bs s) (hm : Mounts s₀) (dev nr : Nat) :
    Namei.mountAt s dev nr = Namei.mountAt s₀ dev nr := by
  unfold Namei.mountAt
  refine congrArg (List.find? · _) (funext fun k => ?_)
  rw [hl.super_block]
  cases hk : (s₀.super_block k).s_imount with
  | none => rfl
  | some m =>
      dsimp only [Option.any_some]
      rw [hl.ident m (hm.held k m hk).1, hl.mount]

/-- The device that is mounted on an inode of the table. -/
theorem Walks.mountedOn (hw : Walks s₀ hs bs s) (hm : Mounts s₀) (hdev : dev ≠ 0)
    (hkey : (s.inode_table i).key = (dev, nr)) (hmark : (s.inode_table i).i_mount = true) :
    Namei.mountedOn (s.refer i) i = Namei.mountAt s₀ dev nr := by
  rw [← hw.mountAt hm]
  unfold Namei.mountedOn Namei.mountAt
  refine congrArg (List.find? · _) (funext fun k => ?_)
  show decide ((s.super_block k).s_imount = some i) = _
  cases hk : (s.super_block k).s_imount with
  | none => rfl
  | some m =>
      dsimp only [Option.any_some]
      refine decide_eq_decide.mpr ⟨fun hmi => ?_, fun hmkey => ?_⟩
      · rw [Option.some.inj hmi]
        exact ⟨hmark, hkey⟩
      · have hm := hmkey.2
        rw [hw.table.unique m i ((congrArg Prod.fst hm).trans_ne hdev) (hm.trans hkey.symm)]

theorem lastInode_calm (s : State) (last : Entry) : Calm s { s with last_inode := last } where
  vol := rfl
  super_block := rfl
  toDInode := fun _ => rfl
  key := fun _ => rfl
  mount := fun _ => rfl
  pipe := fun _ => rfl
  dirt := fun _ => id
  table := fun ht => ⟨ht.unique, ht.clean⟩
  node := fun _ _ => rfl

/-- The entry has been nobody's. -/
structure Spare (s₀ : State) (hs : List Handle) (e : Entry) : Prop where
  count : (s₀.inode_table e).i_count = 0
  slots : ∀ h ∈ hs, h.slot ≠ e

/-- Nobody refers to one of the entries, and it is not among those in hand. -/
def Spared (s : State) (es : List Entry) : Prop :=
  ∃ i, (s.inode_table i).i_count + es.count i = 0

theorem getEmptyInode_crowded (hl : Ledger s₀ hs bs s) (hfull : ¬Spared s₀ (hs.map Handle.slot)) :
    getEmptyInode s = .error (.panic "No free inodes in mem") := by
  have hall : ∀ i, (s.inode_table i).i_count ≠ 0 := fun i hi =>
    hfull ⟨i, (hl.count i).symm.trans hi⟩
  obtain ⟨last, hsearch⟩ := searchEmpty_full hall NR_INODE s.last_inode
  unfold getEmptyInode
  rw [hsearch]

theorem getEmptyInode_ok (hw : Walks s₀ hs bs s) (hm : Mounts s₀)
    (hspared : Spared s₀ (hs.map Handle.slot)) :
    ∃ s' e, getEmptyInode s = .ok (s', e) ∧ s'.inode_table e = .taken ∧
      Walks s₀ (⟨e, 0, 0⟩ :: hs) bs s' ∧ Spare s₀ hs e := by
  unfold getEmptyInode
  cases hsearch : searchEmpty s.inode_table NR_INODE s.last_inode none with
  | mk last o =>
      cases o with
      | none =>
          -- the search has come to the entry that nobody refers to
          obtain ⟨i, hi⟩ := hspared
          obtain ⟨k, hk, hnext⟩ := next_reaches s.last_inode i
          have hcount := (searchEmpty_none hsearch).2 k hk
          rw [hnext, hw.count, hi] at hcount
          exact absurd rfl hcount
      | some i =>
          have hzero : (s.inode_table i).i_count = 0 :=
            searchEmpty_unused (fun j hj => by cases hj) hsearch
          have hw₁ := hw.of_calm (lastInode_calm s last)
            (hw.toLedger.calm (lastInode_calm s last) fun _ => rfl)
          obtain ⟨s₂, hs₂, hcalm, hclean, hcount⟩ := writeInode_spec hw₁.sound i
          have hw₂ := hw₁.of_calm hcalm (hw₁.toLedger.calm hcalm hcount)
          have hzero₂ : (s₂.inode_table i).i_count = 0 := (hcount i).trans hzero
          have hi := hw₂.count i
          rw [hzero₂] at hi
          have hspare : Spare s₀ hs i := ⟨by omega, fun h hh heq => by
            have hpos := hw₂.pos hh
            rw [heq] at hpos
            omega⟩
          refine ⟨s₂.set i .taken, i, ?_, set_self s₂ i _,
            hw₂.empty (fun j hj => (hm.point j hj).1) hzero₂ hclean, hspare⟩
          dsimp only
          rw [hs₂]
          show (if (s₂.inode_table i).i_dirt = true then _ else _) = _
          rw [hclean, if_neg Bool.false_ne_true]

/-- The entry from `get_empty_inode` gets a device and a number. -/
theorem Ledger.name {e : Entry} {inode : Inode} (hl : Ledger s₀ (⟨e, 0, 0⟩ :: hs) bs s)
    (hspare : Spare s₀ hs e) (hkey : inode.key = (dev, nr)) (hmounted : Mounted s dev)
    (hrange : 1 ≤ nr ∧ nr ≤ (s.vol dev).sb.s_ninodes)
    (hcount : inode.i_count = (s.inode_table e).i_count) (hpipe : inode.i_pipe = false)
    (hmount : inode.i_mount = (s.inode_table e).i_mount) :
    Ledger s₀ (⟨e, dev, nr⟩ :: hs) bs (s.set e inode) := by
  obtain ⟨hd, hn⟩ := Prod.mk.inj hkey
  refine {
    sound := {
      mounted := fun j hj => ?_
      range := fun j hj => ?_
      imap := hl.sound.imap
      dirty := fun j hj => ?_
      pipe := fun j hj => ?_
      good := hl.sound.good }
    super_block := hl.super_block
    count := fun j => ?_
    hand := fun h hh => ?_
    ident := fun j hj => ?_
    mount := fun j => ?_
    buffers := hl.buffers }
  · by_cases hje : j = e
    · subst hje
      rw [set_self, hd]
      exact hmounted
    · rw [set_ne s _ hje] at hj ⊢
      exact hl.sound.mounted j hj
  · by_cases hje : j = e
    · subst hje
      rw [set_self, hd, hn, set_vol]
      exact hrange
    · rw [set_ne s _ hje] at hj ⊢
      exact hl.sound.range j hj
  · by_cases hje : j = e
    · subst hje
      rw [set_self, hd]
      exact hmounted.ne_zero
    · rw [set_ne s _ hje] at hj ⊢
      exact hl.sound.dirty j hj
  · by_cases hje : j = e
    · subst hje
      rw [set_self, hpipe] at hj
      cases hj
    · rw [set_ne s _ hje] at hj ⊢
      exact hl.sound.pipe j hj
  · refine Eq.trans ?_ (hl.count j)
    by_cases hje : j = e
    · rw [hje, set_self, hcount]
    · rw [set_ne s _ hje]
  · rcases List.mem_cons.mp hh with rfl | hh
    · rw [set_self]
      exact ⟨hkey, hpipe⟩
    · rw [set_ne s _ (hspare.slots h hh)]
      exact hl.hand h (List.mem_cons_of_mem _ hh)
  · have hje : j ≠ e := by
      rintro rfl
      exact absurd hj (Nat.not_lt_of_le (Nat.le_of_eq hspare.count))
    rw [set_ne s _ hje]
    exact hl.ident j hj
  · refine Eq.trans ?_ (hl.mount j)
    by_cases hje : j = e
    · rw [hje, set_self, hmount]
    · rw [set_ne s _ hje]

/-- The entry from `get_empty_inode` gets an inode that is not in the table. -/
theorem Walks.fill {e : Entry} {inode : Inode} (hw : Walks s₀ (⟨e, 0, 0⟩ :: hs) bs s)
    (hlive : Live s₀ dev nr) (hspare : Spare s₀ hs e)
    (hnone : findInode s.inode_table dev nr = none) (hnode : inode.toDInode = s.d_inode dev nr)
    (hkey : inode.key = (dev, nr)) (hcount : inode.i_count = (s.inode_table e).i_count)
    (hpipe : inode.i_pipe = false) (hmount : inode.i_mount = (s.inode_table e).i_mount) :
    Walks s₀ (⟨e, dev, nr⟩ :: hs) bs (s.set e inode) := by
  have hdev := hlive.mounted.ne_zero
  obtain ⟨hd, hn⟩ := Prod.mk.inj hkey
  obtain ⟨he, -⟩ := hw.hand _ (List.mem_cons_self ..)
  have hsb : (s.vol dev).sb = (s₀.vol dev).sb := congrArg Disk.sb (hw.disk dev)
  have htable : Table (s.set e inode) := by
    refine ⟨fun j j' hj hkj => ?_, fun j hj hdirt => ?_⟩
    · by_cases hje : j = e
      · subst hje
        by_cases hje' : j' = j
        · exact hje'.symm
        · rw [set_self, set_ne s _ hje', hkey] at hkj
          exact absurd hkj.symm (findInode_none hnone j')
      · rw [set_ne s _ hje] at hj hkj
        by_cases hje' : j' = e
        · subst hje'
          rw [set_self, hkey] at hkj
          exact absurd hkj (findInode_none hnone j)
        · rw [set_ne s _ hje'] at hkj
          exact hw.table.unique j j' hj hkj
    · by_cases hje : j = e
      · subst hje
        rw [set_self, hnode, hd, hn]
        rfl
      · rw [set_ne s _ hje] at hj hdirt ⊢
        exact hw.table.clean j hj hdirt
  refine {
    toLedger := hw.toLedger.name hspare hkey (hlive.mounted.congr hw.super_block) ?_ hcount hpipe
      hmount
    table := htable
    disk := hw.disk
    node := fun dev' nr' hdev' => ?_
    live := fun j hj => ?_ }
  · rw [hsb]
    exact ⟨hlive.pos, hlive.le⟩
  · rw [← hw.node dev' nr' hdev']
    cases hfind : findInode s.inode_table dev' nr' with
    | some j =>
        have hj := findInode_some hfind
        have hje : j ≠ e := by
          rintro rfl
          exact hdev' (congrArg Prod.fst (hj.symm.trans he))
        have hj' : ((s.set e inode).inode_table j).key = (dev', nr') := by
          rw [set_ne s _ hje, hj]
        rw [htable.node_eq hdev' hj', hw.table.node_eq hdev' hj, set_ne s _ hje]
    | none =>
        have hold : Namei.node s dev' nr' = s.d_inode dev' nr' := by
          unfold Namei.node
          rw [hfind]
        rw [hold]
        by_cases hsame : (dev', nr') = (dev, nr)
        · obtain ⟨rfl, rfl⟩ := Prod.mk.inj hsame
          have hj' : ((s.set e inode).inode_table e).key = (dev', nr') := by
            rw [set_self, hkey]
          rw [htable.node_eq hdev' hj', set_self, hnode]
        · have hnone' : findInode (s.set e inode).inode_table dev' nr' = none := by
            refine findInode_eq_none fun j hj => ?_
            by_cases hje : j = e
            · rw [hje, set_self, hkey] at hj
              exact hsame hj.symm
            · rw [set_ne s _ hje] at hj
              exact findInode_none hfind j hj
          unfold Namei.node
          rw [hnone']
          rfl
  · by_cases hje : j = e
    · subst hje
      rw [set_self, hd, hn]
      exact hlive
    · rw [set_ne s _ hje] at hj ⊢
      exact hw.live j hj

theorem readInode_set {inode : Inode} (hgood : ∀ dev b, (s.vol dev).bad b = false)
    (hmounted : Mounted s inode.i_dev) :
    readInode (s.set i inode) i = .ok (s.set i { inode with
      toDInode := s.d_inode inode.i_dev inode.i_num }) := by
  obtain ⟨k, hk⟩ := hmounted.get
  unfold readInode
  rw [set_self]
  dsimp only
  rw [getSuper_congr (set_super s i inode), hk]
  dsimp only
  rw [withBlock_eq (s := s.set i inode) hgood]
  exact congrArg Except.ok (set_set s i inode _)

/-- `iget` without a device that is mounted there. -/
theorem igetLoop_here {e : Entry} (n : Nat) (hw : Walks s₀ (⟨e, 0, 0⟩ :: hs) bs s) (hm : Mounts s₀)
    (hroom : Room s₀ (hs.map Handle.slot)) (hlive : Live s₀ dev nr)
    (hat : mountAt s₀ dev nr = none) (hspare : Spare s₀ hs e) :
    ∃ s' i, igetLoop (n + 1) s e dev nr = .ok (s', i) ∧ Walks s₀ (⟨i, dev, nr⟩ :: hs) bs s' := by
  have hdev := hlive.mounted.ne_zero
  unfold igetLoop
  cases hfind : findInode s.inode_table dev nr with
  | none =>
      dsimp only
      rw [readInode_set hw.sound.good (hlive.mounted.congr hw.super_block)]
      exact ⟨_, e, rfl, hw.fill hlive hspare hfind rfl rfl rfl
        (hw.hand _ (List.mem_cons_self ..)).2 rfl⟩
  | some i =>
      have hkey := findInode_some hfind
      have hpipe : (s.inode_table i).i_pipe = false := Bool.eq_false_iff.mpr fun hp =>
        hdev ((congrArg Prod.fst hkey).symm.trans (hw.sound.pipe i hp))
      have hw₁ := hw.take i hkey hpipe
        (hroom.lt_of_empty hw.toLedger ((congrArg Prod.fst hkey).trans_ne hdev))
      obtain ⟨s', hs', -, hw'⟩ := (hw₁.perm (.swap ..)).iput fun _ h0 => absurd rfl h0
      refine ⟨s', i, ?_, hw'⟩
      dsimp only
      by_cases hmark : (s.inode_table i).i_mount = true
      · rw [if_pos ((hw₁.mount i).trans ((hw.mount i).symm.trans hmark)),
          hw.mountedOn hm hdev hkey hmark, hat]
        dsimp only
        rw [hs']
        rfl
      · rw [if_neg fun h => hmark ((hw.mount i).trans ((hw₁.mount i).symm.trans h)), hs']
        rfl

/-- `iget` of an inode on which a device is mounted. -/
theorem igetLoop_root {e : Entry} (n : Nat) (hw : Walks s₀ (⟨e, 0, 0⟩ :: hs) bs s) (hm : Mounts s₀)
    (hroom : Room s₀ (hs.map Handle.slot)) (hdev : dev ≠ 0) {k : Fin NR_SUPER}
    (hat : mountAt s₀ dev nr = some k) (hspare : Spare s₀ hs e) :
    ∃ s' i, igetLoop (n + 2) s e dev nr = .ok (s', i) ∧
      Walks s₀ (⟨i, (s₀.super_block k).s_dev, ROOT_INO⟩ :: hs) bs s' := by
  obtain ⟨i, hk, hmark, hkey₀⟩ := mountAt_some hat
  obtain ⟨hpos, -⟩ := hm.held k i hk
  have hkey : (s.inode_table i).key = (dev, nr) := (hw.ident i hpos).trans hkey₀
  have hpipe : (s.inode_table i).i_pipe = false := Bool.eq_false_iff.mpr fun hp =>
    hdev ((congrArg Prod.fst hkey).symm.trans (hw.sound.pipe i hp))
  have hw₁ := hw.take i hkey hpipe
    (hroom.lt_of_empty hw.toLedger ((congrArg Prod.fst hkey).trans_ne hdev))
  obtain ⟨s₂, hs₂, hputs, hw₂⟩ := hw₁.iput fun hzero _ => absurd hpos (by
    rw [hzero]
    exact Nat.lt_irrefl 0)
  obtain ⟨s', j, hs', hw'⟩ := igetLoop_here n hw₂ hm hroom (hm.root k i hk) (hm.root_none _) hspare
  refine ⟨s', j, ?_, hw'⟩
  unfold igetLoop
  rw [hw.table.find hdev hkey]
  dsimp only
  rw [hw₁.mount, hmark, if_pos rfl, hw.mountedOn hm hdev hkey ((hw.mount i).trans hmark), hat]
  dsimp only
  rw [hs₂]
  show igetLoop (n + 1) s₂ e (s₂.super_block k).s_dev ROOT_INO = _
  rw [hw₂.super_block, hs']

/-- `iget` needs an entry that nobody refers to, even for an inode that is in the table. -/
theorem iget_crowded (hl : Ledger s₀ hs bs s) (hdev : dev ≠ 0)
    (hfull : ¬Spared s₀ (hs.map Handle.slot)) :
    iget s dev nr = .error (.panic "No free inodes in mem") := by
  unfold iget
  rw [if_neg hdev, getEmptyInode_crowded hl hfull]
  rfl

theorem iget_ok (hw : Walks s₀ hs bs s) (hm : Mounts s₀) (hroom : Room s₀ (hs.map Handle.slot))
    (hlive : Live s₀ dev nr) (hspared : Spared s₀ (hs.map Handle.slot)) :
    ∃ s' i, iget s dev nr = .ok (s', i) ∧
      Walks s₀ (⟨i, (cross s₀ dev nr).1, (cross s₀ dev nr).2⟩ :: hs) bs s' := by
  have hdev := hlive.mounted.ne_zero
  obtain ⟨s₁, e, hs₁, -, hw₁, hspare⟩ := getEmptyInode_ok hw hm hspared
  unfold iget cross
  rw [if_neg hdev, hs₁]
  cases hat : mountAt s₀ dev nr with
  | none => exact igetLoop_here NR_SUPER hw₁ hm hroom hlive hat hspare
  | some k => exact igetLoop_root 7 hw₁ hm hroom hdev hat hspare

/-! ## free_inode -/

theorem Imap.setMap {sb : SuperBlock} (h : Imap sb) (k : Nat) (b_data : Nat → BitVec 32)
    (hbit : used (setMap sb.s_imap k b_data) 0 = true) :
    Imap { sb with s_imap := setMap sb.s_imap k b_data } where
  slots := fun nr hnr => by
    show (Super.setMap sb.s_imap k b_data (nr / 8192)).isSome = true
    unfold Super.setMap
    rcases eq_or_ne (nr / 8192) k with heq | hne
    · rw [heq, update_self]
      rfl
    · rw [update_of_ne hne]
      exact h.slots nr hnr
  bit0 := hbit

/-- What a call leaves of a volume: the holders, the fields of the super block and its map of the
inodes. -/
structure Kept (v v' : Vol) : Prop where
  b_count : v'.b_count = v.b_count
  fields : v'.sb.toDSuperBlock = v.sb.toDSuperBlock
  imap : v'.sb.s_imap = v.sb.s_imap
  good : ∀ b, v'.bad b = false

/-- The blocks of a file that `truncate` frees are its own, and nobody holds them. -/
structure Freeable (v : Vol) (inode : Inode) : Prop where
  tree : ∃ d, Tree d inode.file v.toDisk
  unheld : ∀ z, Truncate.IsBlock inode.file v.toDisk z → v.b_count z = 0

theorem truncate_kept {v : Vol} {inode : Inode} (hgood : ∀ b, v.bad b = false)
    (hfree : Truncate.S_ISREG inode.i_mode ∨ Truncate.S_ISDIR inode.i_mode → Freeable v inode) :
    ∃ file' v', Vol.ops.truncate inode.i_mode inode.file v = .ok (file', v') ∧ Kept v v' := by
  by_cases hmode : Truncate.S_ISREG inode.i_mode ∨ Truncate.S_ISDIR inode.i_mode
  · obtain ⟨⟨d, htree⟩, hunheld⟩ := hfree hmode
    have hspec : ∃ file' v', Vol.ops.truncate inode.i_mode inode.file v = .ok (file', v') ∧
        Truncate.Truncated Vol.view inode.file v file' v' :=
      Truncate.truncate_spec htree (fun x hx hne => hunheld _ ⟨hne, x, hx, rfl⟩) hmode hgood
    obtain ⟨file', v', htrunc, h⟩ := hspec
    exact ⟨file', v', htrunc, h.count, h.fields, h.imap, h.good⟩
  · exact ⟨_, v, if_pos hmode, rfl, rfl, rfl, hgood⟩

/-- An inode is freed: its entry is empty then, and the bit of its number is clear. -/
structure Frees (s : State) (i : Entry) (s' : State) : Prop where
  super_block : s'.super_block = s.super_block
  zero : s'.inode_table i = .zero
  toDInode : ∀ j, j ≠ i → (s'.inode_table j).toDInode = (s.inode_table j).toDInode
  key : ∀ j, j ≠ i → (s'.inode_table j).key = (s.inode_table j).key
  count : ∀ j, j ≠ i → (s'.inode_table j).i_count = (s.inode_table j).i_count
  mount : ∀ j, j ≠ i → (s'.inode_table j).i_mount = (s.inode_table j).i_mount
  pipe : ∀ j, j ≠ i → (s'.inode_table j).i_pipe = (s.inode_table j).i_pipe
  sound : Sound s'
  b_count : ∀ dev, (s'.vol dev).b_count = (s.vol dev).b_count

theorem setVol_vol (s : State) (dev : Nat) (v : Vol) (dev' : Nat) :
    (s.setVol dev v).vol dev' = if dev' = dev then v else s.vol dev' := by
  by_cases h : dev' = dev
  · rw [h, if_pos rfl]
    exact update_self _ _ _
  · rw [if_neg h]
    exact update_of_ne h _ _

theorem freeInode_eq (file' : MInode) {v' : Vol} (h : Sound s)
    (hdev : (s.inode_table i).i_dev ≠ 0) (hcount : (s.inode_table i).i_count = 1)
    (hlinks : (s.inode_table i).i_nlinks = 0) (hkept : Kept (s.vol (s.inode_table i).i_dev) v') :
    ∃ sb, Imap sb ∧ sb.toDSuperBlock = (s.vol (s.inode_table i).i_dev).sb.toDSuperBlock ∧
      freeInode ((s.setVol (s.inode_table i).i_dev v').set i
        ((s.inode_table i).withFile file')) i =
        .ok ((s.setVol (s.inode_table i).i_dev { v' with sb := sb }).set i .zero) := by
  have hmounted := h.mounted i hdev
  obtain ⟨k, hk⟩ := hmounted.get
  obtain ⟨hpos, hle⟩ := h.range i hdev
  have himap := h.imap _ hmounted
  obtain ⟨bh, hbh⟩ := Option.isSome_iff_exists.mp (himap.slots _ hle)
  have hnin : v'.sb.s_ninodes = (s.vol (s.inode_table i).i_dev).sb.s_ninodes :=
    congrArg DSuperBlock.s_ninodes hkept.fields
  have himap' : Imap v'.sb := ⟨by rw [hnin, hkept.imap]; exact himap.slots,
    by rw [hkept.imap]; exact himap.bit0⟩
  rw [← hkept.imap] at hbh
  refine ⟨_, himap'.setMap ((s.inode_table i).i_num / 8192)
    (Bitmap.clearBit bh.b_data ((s.inode_table i).i_num % 8192)) ?_, hkept.fields, ?_⟩
  · rw [used_clearBit hbh, if_neg (Nat.ne_of_lt hpos)]
    exact himap'.bit0
  · unfold freeInode
    rw [set_self]
    dsimp only [Inode.withFile]
    rw [if_neg hdev, hcount, if_neg (Nat.lt_irrefl 1), hlinks, if_neg (not_not.mpr rfl)]
    have hsuper : ∀ inode, getSuper ((s.setVol (s.inode_table i).i_dev v').set i inode)
        (s.inode_table i).i_dev = some k := fun _ => (getSuper_congr rfl _).trans hk
    rw [hsuper]
    dsimp only
    rw [set_vol, setVol_vol, if_pos rfl]
    have hrange : ¬((s.inode_table i).i_num < 1 ∨ (s.inode_table i).i_num > v'.sb.s_ninodes) := by
      rw [hnin]
      omega
    rw [if_neg hrange, hbh]
    dsimp only
    refine congrArg Except.ok ?_
    unfold State.setVol State.set
    dsimp only
    rw [update_idem, update_idem]

theorem putLast_free (h : Sound s) (hdev : (s.inode_table i).i_dev ≠ 0)
    (hcount : (s.inode_table i).i_count = 1) (hlinks : (s.inode_table i).i_nlinks = 0)
    (hfree : Truncate.S_ISREG (s.inode_table i).i_mode ∨
      Truncate.S_ISDIR (s.inode_table i).i_mode →
      Freeable (s.vol (s.inode_table i).i_dev) (s.inode_table i)) :
    ∃ s', putLast s i = .ok s' ∧ Frees s i s' := by
  obtain ⟨file', v', htrunc, hkept⟩ := truncate_kept (h.good _) hfree
  obtain ⟨sb, himap, hfields, heq⟩ := freeInode_eq file' h hdev hcount hlinks hkept
  generalize hs' : (s.setVol (s.inode_table i).i_dev { v' with sb := sb }).set i .zero = s' at heq
  have hslot : ∀ j, j ≠ i → s'.inode_table j = s.inode_table j := fun j hj => by
    rw [← hs', set_ne _ _ hj]
    rfl
  have hzero : s'.inode_table i = .zero := by
    rw [← hs', set_self]
  have hvol : ∀ dev, s'.vol dev =
      if dev = (s.inode_table i).i_dev then { v' with sb := sb } else s.vol dev := by
    intro dev
    rw [← hs', set_vol, setVol_vol]
  have hsuper : s'.super_block = s.super_block := by
    rw [← hs']
    rfl
  have hne : ∀ {j}, (s'.inode_table j).i_dev ≠ 0 → j ≠ i := by
    rintro j hj rfl
    rw [hzero] at hj
    exact hj rfl
  have hfields' : ∀ dev, (s'.vol dev).sb.toDSuperBlock = (s.vol dev).sb.toDSuperBlock := by
    intro dev
    rw [hvol]
    split
    · rename_i hd
      rw [hd]
      exact hfields
    · rfl
  refine ⟨s', ?_, hsuper, hzero, fun j hj => by rw [hslot j hj], fun j hj => by rw [hslot j hj],
    fun j hj => by rw [hslot j hj], fun j hj => by rw [hslot j hj], fun j hj => by rw [hslot j hj],
    ?_, fun dev => ?_⟩
  · unfold putLast
    dsimp only
    rw [hcount, if_neg (Nat.lt_irrefl 1), if_pos hlinks]
    unfold Namei.truncate
    dsimp only
    rw [htrunc]
    exact heq
  · refine ⟨fun j hj => ?_, fun j hj => ?_, fun dev hdev' => ?_, fun j hj => ?_, fun j hj => ?_,
      fun dev b => ?_⟩
    · have hji := hne hj
      rw [hslot j hji] at hj ⊢
      exact (h.mounted j hj).congr hsuper
    · have hji := hne hj
      rw [hslot j hji] at hj ⊢
      rw [show (s'.vol _).sb.s_ninodes = _ from congrArg DSuperBlock.s_ninodes (hfields' _)]
      exact h.range j hj
    · rw [hvol]
      split
      · exact himap
      · exact h.imap dev (hdev'.congr hsuper.symm)
    · by_cases hji : j = i
      · rw [hji, hzero] at hj
        cases hj
      · rw [hslot j hji] at hj ⊢
        exact h.dirty j hj
    · by_cases hji : j = i
      · rw [hji, hzero]
        rfl
      · rw [hslot j hji] at hj ⊢
        exact h.pipe j hj
    · rw [hvol]
      split
      · exact hkept.good b
      · exact h.good dev b
  · rw [hvol]
    split
    · rename_i hd
      rw [hd]
      exact hkept.b_count
    · rfl

/-- `iput` of an inode that nobody else refers to and that has no link. -/
theorem iput_free (h : Sound s) (hdev : (s.inode_table i).i_dev ≠ 0)
    (hcount : (s.inode_table i).i_count = 1) (hlinks : (s.inode_table i).i_nlinks = 0)
    (hfree : Truncate.S_ISREG (s.inode_table i).i_mode ∨
      Truncate.S_ISDIR (s.inode_table i).i_mode →
      Freeable (s.vol (s.inode_table i).i_dev) (s.inode_table i)) :
    ∃ s', iput s i = .ok s' ∧ Frees s i s' := by
  have hpipe : (s.inode_table i).i_pipe = false := Bool.eq_false_iff.mpr fun hp =>
    hdev (h.pipe i hp)
  unfold iput
  dsimp only
  rw [hcount, if_neg Nat.one_ne_zero, hpipe, if_neg Bool.false_ne_true, if_neg hdev]
  by_cases hblk : S_ISBLK (s.inode_table i).i_mode
  · obtain ⟨s₁, hs₁, hcalm, hcount₁⟩ := syncInodes_spec h
    rw [if_pos hblk, hs₁]
    have hmode : ¬(Truncate.S_ISREG (s₁.inode_table i).i_mode ∨
        Truncate.S_ISDIR (s₁.inode_table i).i_mode) := by
      rw [hcalm.toDInode]
      unfold S_ISBLK at hblk
      unfold Truncate.S_ISREG Truncate.S_ISDIR
      rw [hblk]
      decide
    obtain ⟨s', hs', hfrees⟩ := putLast_free (i := i) (hcalm.sound h)
      ((hcalm.i_dev i).trans_ne hdev) ((hcount₁ i).trans hcount)
      (by rw [hcalm.toDInode]; exact hlinks) fun hm => absurd hm hmode
    exact ⟨s', hs', {
      super_block := hfrees.super_block.trans hcalm.super_block
      zero := hfrees.zero
      toDInode := fun j hj => (hfrees.toDInode j hj).trans (hcalm.toDInode j)
      key := fun j hj => (hfrees.key j hj).trans (hcalm.key j)
      count := fun j hj => (hfrees.count j hj).trans (hcount₁ j)
      mount := fun j hj => (hfrees.mount j hj).trans (hcalm.mount j)
      pipe := fun j hj => (hfrees.pipe j hj).trans (hcalm.pipe j)
      sound := hfrees.sound
      b_count := fun dev => by rw [hfrees.b_count, hcalm.vol] }⟩
  · rw [if_neg hblk]
    exact putLast_free h hdev hcount hlinks hfree

/-- The reference in hand is the only one, and the inode goes. -/
theorem Ledger.free (hl : Ledger s₀ (h :: hs) bs s) (hm : Mounts s₀) (hdev : h.dev ≠ 0)
    (hone : (s.inode_table h.slot).i_count = 1) (hlinks : (s.inode_table h.slot).i_nlinks = 0)
    (hfree : Truncate.S_ISREG (s.inode_table h.slot).i_mode ∨
      Truncate.S_ISDIR (s.inode_table h.slot).i_mode →
      Freeable (s.vol h.dev) (s.inode_table h.slot)) :
    ∃ s', Namei.iput s h.slot = .ok s' ∧ Frees s h.slot s' ∧ Ledger s₀ hs bs s' := by
  have hd : (s.inode_table h.slot).i_dev = h.dev :=
    congrArg Prod.fst (hl.hand h (List.mem_cons_self ..)).1
  obtain ⟨s', hs', hf⟩ := iput_free hl.sound (hd.trans_ne hdev) hone hlinks (by rwa [hd])
  have hcount := hl.count h.slot
  rw [hone, List.map_cons, List.count_cons_self] at hcount
  have hother : ∀ h' ∈ hs, h'.slot ≠ h.slot := by
    intro h' hh' heq
    have hmem := List.count_pos_iff.mpr (List.mem_map_of_mem (f := Handle.slot) hh')
    rw [heq] at hmem
    omega
  refine ⟨s', hs', hf, {
    sound := hf.sound
    super_block := hf.super_block.trans hl.super_block
    count := fun i => ?_
    hand := fun h' hh' => ?_
    ident := fun i hi => ?_
    mount := fun i => ?_
    buffers := fun dev b => ?_ }⟩
  · by_cases hi : i = h.slot
    · rw [hi, hf.zero]
      show 0 = _
      omega
    · have hci := hl.count i
      rw [List.map_cons, List.count_cons_of_ne (Ne.symm hi)] at hci
      rw [hf.count i hi, hci]
  · rw [hf.key _ (hother h' hh'), hf.pipe _ (hother h' hh')]
    exact hl.hand h' (List.mem_cons_of_mem _ hh')
  · have hne : i ≠ h.slot := by
      rintro rfl
      omega
    rw [hf.key i hne]
    exact hl.ident i hi
  · by_cases hi : i = h.slot
    · rw [hi, hf.zero]
      cases hmount : (s₀.inode_table h.slot).i_mount with
      | false => rfl
      | true => exact absurd (hm.point _ hmount).1 (by omega)
    · rw [hf.mount i hi]
      exact hl.mount i
  · rw [hf.b_count]
    exact hl.buffers dev b

end Namei

end Linux011
