import Linux011.Outcome
import Linux011.TreeChanges

/-!
# The references of the path calls

`open_namei`, `namei`, `sys_unlink`, `sys_link` and `sys_rmdir` give up every reference that they
take, but that to an inode that they return. They stop only in `get_empty_inode`, which they call
with one reference in hand.

Each call gets one lemma of the form `Ends`: it comes to its end in a state where the references
are balanced, or stops because the table is full. The lemmas follow the branches of the source,
each with what is in hand there, a directory, an inode, an entry with its buffer, and give it up
by `leave_one`, `leave_two` and `leaveEntry_two` in the order of the source. What the calls
change on their way is taken from `TreeChanges`: an entry is added or cleared, a link count goes
up or down, and an inode whose last link is gone is freed by the `iput` at the end.

That the only way to stop is the panic of `get_empty_inode` is part of the result, and so is that
the table is full then: `Crowded` says that all entries but at most one are in use, since a call
that needs an inode has another one in hand. The other panics of the source, such as those of
`free_inode`, do not come in a tree that is whole.
-/

namespace Linux011

open Function Super SuperBlock Zones Bmap
open Outcome (Ends)

namespace Namei

open Inodes (Entry NR_INODE ROOT_INO)
open Truncate (S_ISREG S_ISDIR)

/-- No two entries of the table are unused. -/
def Few (s : State) : Prop :=
  ∀ i j, (s.inode_table i).i_count = 0 → (s.inode_table j).i_count = 0 → i = j

/-- `get_empty_inode` has found the table full. -/
def Crowded (s : State) (stop : Stop) : Prop := stop = .panic "No free inodes in mem" ∧ Few s

/-- The references to inodes and to buffers are the same, but for one to the inode `r`; an entry
that has been referred to is of the same inode. -/
structure Balanced (s : State) (r : Option Entry) (s' : State) : Prop where
  inodes : ∀ i, (s'.inode_table i).i_count =
    (s.inode_table i).i_count + if r = some i then 1 else 0
  same : ∀ i, 0 < (s.inode_table i).i_count → (s'.inode_table i).key = (s.inode_table i).key
  buffers : ∀ dev b, (s'.vol dev).b_count b = (s.vol dev).b_count b

variable {c : Current} {s s' s₀ : State} {i j dir : Entry} {dev nr m n : Nat} {name : List UInt8}
  {h : Handle} {hs hs' : List Handle} {bs bs' : List (Nat × Nat)} {f : Found}

theorem Ledger.balanced (hl : Ledger s₀ [] [] s) : Balanced s₀ none s where
  inodes := hl.count
  same := hl.ident
  buffers := hl.buffers

theorem Ledger.balanced_some (hl : Ledger s₀ [⟨i, dev, nr⟩] [] s) : Balanced s₀ (some i) s where
  inodes := fun j => by
    rw [hl.count]
    refine congrArg _ ?_
    by_cases hij : i = j
    · rw [if_pos (congrArg some hij), hij]
      exact List.count_singleton_self
    · rw [if_neg fun heq => hij (Option.some.inj heq)]
      exact List.count_eq_zero_of_not_mem fun hmem => hij (List.mem_singleton.mp hmem).symm
  same := hl.ident
  buffers := hl.buffers

/-! ## A table that is full -/

theorem few_of_not_spared {es : List Entry} (hlen : es.length ≤ 1) (h : ¬Spared s es) : Few s := by
  have hmem : ∀ i, (s.inode_table i).i_count = 0 → i ∈ es := by
    intro i hi
    refine List.count_pos_iff.mp (Nat.pos_of_ne_zero fun hzero => h ⟨i, ?_⟩)
    rw [hi, hzero]
  intro i j hi hj
  have hi' := hmem i hi
  have hj' := hmem j hj
  match es, hlen with
  | [], _ => exact absurd hi' List.not_mem_nil
  | [e], _ => rw [List.mem_singleton.mp hi', List.mem_singleton.mp hj']

theorem lookTo_crowded {es : List Entry} (h : lookTo c s es dev nr name = .crowded) :
    ¬Spared s es := by
  unfold lookTo at h
  split at h
  · cases h
  · unfold enterTo at h
    split at h
    · cases h
    · assumption

theorem walkTo_crowded {es : List Entry} (names : List (List UInt8)) :
    ∀ {dev nr : Nat}, walkTo c s es names dev nr = .crowded → ¬Spared s es := by
  induction names with
  | nil =>
      intro dev nr h
      unfold walkTo at h
      split at h <;> cases h
  | cons name names ih =>
      intro dev nr h
      unfold walkTo at h
      split at h
      · cases hlook : lookTo c s es dev nr name with
        | lost =>
            rw [hlook] at h
            cases h
        | leads dev' nr' =>
            rw [hlook] at h
            exact ih h
        | crowded => exact lookTo_crowded hlook
      · cases h

theorem dirTo_crowded {es : List Entry} {path : List UInt8} (h : dirTo c s es path = .crowded) :
    ¬Spared s es := by
  unfold dirTo at h
  cases hstart : start c path with
  | none =>
      rw [hstart] at h
      cases h
  | some r =>
      rw [hstart] at h
      exact walkTo_crowded _ h

/-! ## The steps of the calls -/

theorem slots_length (hs : List Handle) : (hs.map Handle.slot).length = hs.length :=
  List.length_map ..

/-- The directory that a path leads to is in hand, or nothing is. -/
theorem dirNamei_ends (ht : Whole c s₀) (hlen : hs.length ≤ 1) (hw : Walks s₀ hs bs s)
    (path : List UInt8) :
    Ends (Crowded s₀) (fun r => r.2 = none ∧ Walks s₀ hs bs r.1 ∨
      ∃ dir dev nr, r.2 = some dir ∧ Looked s₀ hs bs dir dev nr r.1 ∧
        dirTo c s₀ (hs.map Handle.slot) path = .leads dev nr) (dirNamei c s path) := by
  have hes := (slots_length hs).trans_le hlen
  have harrives := getDir_arrives ht.toTidy (ht.roomFor hes) hw path
  unfold dirNamei
  cases hdir : dirTo c s₀ (hs.map Handle.slot) path with
  | lost =>
      rw [hdir] at harrives
      obtain ⟨s', r, hs', hr, hw'⟩ := harrives
      rw [hs']
      exact .inl ⟨hr, hw'⟩
  | leads dev nr =>
      rw [hdir] at harrives
      obtain ⟨s', dir, hs', hw', ha⟩ := harrives
      have hsearch := dirTo_leads hdir
      rw [hs']
      exact .inr ⟨dir, dev, nr, rfl, ⟨hw', hsearch.linked ha.live, hsearch.1⟩, rfl⟩
  | crowded =>
      rw [hdir] at harrives
      rw [show getDir c s path = _ from harrives]
      exact ⟨rfl, few_of_not_spared hes (dirTo_crowded hdir)⟩

theorem iget_ends (ht : Whole c s₀) (hlen : hs.length ≤ 1) (hw : Walks s₀ hs bs s)
    (hlinked : Linked s₀ dev nr) :
    Ends (Crowded s₀) (fun r => Walks s₀ (⟨r.2, (cross s₀ dev nr).1, (cross s₀ dev nr).2⟩ :: hs)
      bs r.1) (iget s dev nr) := by
  have hes := (slots_length hs).trans_le hlen
  by_cases hspared : Spared s₀ (hs.map Handle.slot)
  · obtain ⟨s', i, hs', hw'⟩ := iget_ok hw ht.mounts (ht.roomFor hes) hlinked.toLive hspared
    rw [hs']
    exact hw'
  · rw [iget_crowded hw.toLedger hlinked.mounted.ne_zero hspared]
    exact ⟨rfl, few_of_not_spared hes hspared⟩

theorem newInode_ends (ht : Whole c s₀) (hlen : hs.length ≤ 1) (hw : Walks s₀ hs bs s)
    (hmounted : Mounted s₀ dev) (uid gid : Nat) :
    Ends (Crowded s₀) (fun r => r.2 = none ∧ Walks s₀ hs bs r.1 ∨
      ∃ i nr, r.2 = some i ∧ Made s₀ hs bs i dev nr r.1) (newInode s uid gid dev) := by
  have hes := (slots_length hs).trans_le hlen
  by_cases hspared : Spared s₀ (hs.map Handle.slot)
  · rcases newInode_spec ht.mounts hw hspared hmounted uid gid with ⟨s', hs', hw'⟩ |
      ⟨s', i, nr, hs', hmade⟩
    · rw [hs']
      exact .inl ⟨rfl, hw'⟩
    · rw [hs']
      exact .inr ⟨i, nr, rfl, hmade⟩
  · unfold newInode
    rw [getEmptyInode_crowded hw.toLedger hspared]
    exact ⟨rfl, few_of_not_spared hes hspared⟩

/-- One reference is given up, and the inode is not freed. -/
theorem leave_one {α : Type} {E : Stop → Prop} (hw : Walks s₀ (⟨i, dev, nr⟩ :: hs) bs s)
    (ha : Anchored s₀ ⟨i, dev, nr⟩) (r : α) :
    Ends E (fun r' => r'.2 = r ∧ Walks s₀ hs bs r'.1) (leave s [i] r) := by
  obtain ⟨s', hs', hw'⟩ := hw.leave ha r
  rw [hs']
  exact ⟨rfl, hw'⟩

theorem leave_two {α : Type} {E : Stop → Prop} {h' : Handle}
    (hw : Walks s₀ (h :: h' :: hs) bs s) (ha : Anchored s₀ h) (ha' : Anchored s₀ h') (r : α) :
    Ends E (fun r' => r'.2 = r ∧ Walks s₀ hs bs r'.1) (leave s [h.slot, h'.slot] r) := by
  obtain ⟨s', hs', hw'⟩ := Walks.iputs [h, h'] hw (by
    rw [List.forall_mem_cons, List.forall_mem_singleton]
    exact ⟨ha, ha'⟩)
  unfold leave
  rw [show [h.slot, h'.slot].foldlM iput s = _ from hs']
  exact ⟨rfl, hw'⟩

theorem leave_single {α : Type} (h : iput s i = .ok s') (r : α) : leave s [i] r = .ok (s', r) := by
  unfold leave
  rw [List.foldlM_cons, h]
  rfl

theorem balanced_of_error {e : Int} {r : State × Except Int Entry}
    (h : r.2 = .error e ∧ Walks s₀ [] [] r.1) : Balanced s₀ r.2.toOption r.1 := by
  rw [h.1]
  exact h.2.toLedger.balanced

/-! ## open_namei -/

theorem create_ends (ht : Whole c s₀) (hl : Looked s₀ [] [] dir dev nr s) (name : List UInt8)
    (flag mode : Nat) :
    Ends (Crowded s₀) (fun r => Balanced s₀ r.2.toOption r.1) (create c s dir name flag mode) := by
  have ha := hl.linked.anchored dir
  have hd : (s.inode_table dir).i_dev = dev :=
    congrArg Prod.fst (hl.hand _ (List.mem_cons_self ..)).1
  unfold create
  by_cases hcreat : flag &&& O_CREAT = 0
  · rw [if_pos hcreat]
    exact (leave_one hl.toWalks ha _).mono fun _ => balanced_of_error
  rw [if_neg hcreat]
  by_cases hperm : permission c (s.inode_table dir) MAY_WRITE = false
  · rw [if_pos hperm]
    exact (leave_one hl.toWalks ha _).mono fun _ => balanced_of_error
  rw [if_neg hperm, hd]
  have hlen : [(⟨dir, dev, nr⟩ : Handle)].length ≤ 1 := Nat.le_refl 1
  refine (newInode_ends ht hlen hl.toWalks hl.linked.mounted c.euid c.egid).bind ?_
  rintro ⟨s₁, r₁⟩ h₁
  dsimp only at h₁
  rcases h₁ with ⟨rfl, hw₁⟩ | ⟨i, m, rfl, hmade⟩
  · exact (leave_one hw₁ ha _).mono fun _ => balanced_of_error
  dsimp only
  have hi : dir ≠ i := hmade.spare.slots _ (List.mem_cons_self ..)
  have hdev : (s₁.inode_table i).i_dev ≠ 0 :=
    (congrArg Prod.fst (hmade.hand _ (List.mem_cons_self ..)).1).trans_ne
      hl.linked.mounted.ne_zero
  have h₁ := hmade.intact ht hl.linked hl.mode
  have hl₂ : Ledger s₀ [⟨dir, dev, nr⟩, ⟨i, dev, m⟩] [] (s₁.set i { s₁.inode_table i with
      i_uid := c.euid, i_mode := masked c mode ||| I_REGULAR, i_dirt := true }) :=
    h₁.toLedger.edit i rfl rfl rfl rfl fun _ => hdev
  have h₂ := h₁.edit hi hl₂
  obtain ⟨s₃, r₃, hs₃, hslot, hf, h₃⟩ := h₂.addEntry ht hl.linked.mounted name
  have hi₃ := hslot i hi.symm
  rw [set_self] at hi₃
  rw [hs₃]
  cases r₃ with
  | none =>
      -- the new inode has no blocks, and is freed
      have hl₃ : Ledger s₀ [⟨dir, dev, nr⟩, ⟨i, dev, m⟩] [] (s₃.set i { s₃.inode_table i with
          i_nlinks := (s₃.inode_table i).i_nlinks - 1 }) :=
        h₃.toLedger.edit i rfl rfl rfl rfl (h₃.sound.dirty i)
      have hzone : (s₃.inode_table i).i_zone = fun _ => 0 := by
        rw [hi₃]
        exact hmade.zone
      obtain ⟨s₄, hs₄, hl₄⟩ := h₃.leave ht.mounts hl.linked hi hl₃
        (fun _ => emptyFile_freeable h₃.tree.covers h₃.tree.short hzone)
        (.error (-ENOSPC) : Except Int Entry)
      dsimp only [bind, Except.bind]
      rw [hs₄]
      exact hl₄.balanced
  | some f =>
      obtain ⟨rfl, hwithin⟩ := hf f rfl
      obtain ⟨s₄, hs₄, h₄, -⟩ := (h₃.setInode hwithin (s₃.inode_table i).i_num).brelse
      obtain ⟨s₅, hs₅, hl₅, -⟩ := h₄.put hl.linked
      dsimp only [bind, Except.bind]
      rw [hs₄]
      dsimp only
      rw [leave_single hs₅]
      exact hl₅.balanced_some

theorem openInode_ends (ht : Whole c s₀) (hw : Walks s₀ [⟨i, dev, nr⟩] [] s)
    (hlinked : Linked s₀ dev nr) (flag : Nat) :
    Ends (Crowded s₀) (fun r => Balanced s₀ r.2.toOption r.1) (openInode c s i flag) := by
  unfold openInode
  split
  · exact (leave_one hw (hlinked.anchored i) _).mono fun _ => balanced_of_error
  · split
    · obtain ⟨s', hs', hl'⟩ := ht.truncate hw hlinked
      rw [hs']
      exact hl'.balanced_some
    · exact hw.toLedger.balanced_some

theorem openNamei_ends (ht : Whole c s) (path : List UInt8) (flag mode : Nat) :
    Ends (Crowded s) (fun r => Balanced s r.2.toOption r.1) (openNamei c s path flag mode) := by
  have hlen : ([] : List Handle).length ≤ 1 := Nat.zero_le 1
  have hroom : Room s (([] : List Handle).map Handle.slot) := ht.room
  unfold openNamei
  dsimp only
  generalize (if flag &&& O_TRUNC ≠ 0 ∧ flag &&& O_ACCMODE = 0 then flag ||| O_WRONLY else flag) =
    flag
  refine (dirNamei_ends ht hlen ht.start path).bind ?_
  rintro ⟨s₁, r₁⟩ h₁
  dsimp only at h₁
  rcases h₁ with ⟨rfl, hw₁⟩ | ⟨dir, dev, nr, rfl, hl, -⟩
  · exact hw₁.toLedger.balanced
  dsimp only
  by_cases hbase : basename path = []
  · rw [if_pos hbase]
    split
    · exact hl.toLedger.balanced_some
    · exact (leave_one hl.toWalks (hl.linked.anchored dir) _).mono fun _ => balanced_of_error
  rw [if_neg hbase]
  rcases findEntry_spec ht.toTidy hroom hl (basename path) with
    ⟨-, s₂, dir₂, hs₂, hl₂⟩ | ⟨s₂, dir₂, nr₂, m, f, -, hs₂, hsees⟩
  · rw [hs₂]
    exact create_ends ht hl₂ _ _ _
  · obtain ⟨hd, s₃, s₄, hs₃, hs₄, hw₄⟩ := hsees.drop
    rw [hs₂]
    dsimp only [bind, Except.bind]
    rw [hs₃, hd, hsees.inode]
    dsimp only
    rw [hs₄]
    dsimp only
    split
    · exact hw₄.toLedger.balanced
    · refine (iget_ends ht hlen hw₄ hsees.target).bind ?_
      rintro ⟨s₅, i⟩ hw₅
      exact openInode_ends ht hw₅ (ht.cross hsees.target) flag

/-! ## namei -/

theorem namei_ends (ht : Whole c s) (path : List UInt8) :
    Ends (Crowded s) (fun r => r.2 = none ∧ Walks s [] [] r.1 ∨
      ∃ i dev nr, r.2 = some i ∧ Walks s [⟨i, dev, nr⟩] [] r.1 ∧ Anchored s ⟨i, dev, nr⟩)
      (namei c s path) := by
  have hlen : ([] : List Handle).length ≤ 1 := Nat.zero_le 1
  have hroom : Room s (([] : List Handle).map Handle.slot) := ht.room
  unfold namei
  refine (dirNamei_ends ht hlen ht.start path).bind ?_
  rintro ⟨s₁, r₁⟩ h₁
  dsimp only at h₁
  rcases h₁ with ⟨rfl, hw₁⟩ | ⟨dir, dev, nr, rfl, hl, -⟩
  · exact .inl ⟨rfl, hw₁⟩
  dsimp only
  by_cases hbase : basename path = []
  · rw [if_pos hbase]
    exact .inr ⟨dir, dev, nr, rfl, hl.toWalks, hl.linked.anchored dir⟩
  rw [if_neg hbase]
  rcases findEntry_spec ht.toTidy hroom hl (basename path) with
    ⟨-, s₂, dir₂, hs₂, hl₂⟩ | ⟨s₂, dir₂, nr₂, m, f, -, hs₂, hsees⟩
  · rw [hs₂]
    exact (leave_one hl₂.toWalks (hl₂.linked.anchored dir₂) none).mono fun r h => .inl h
  · obtain ⟨hd, s₃, s₄, hs₃, hs₄, hw₄⟩ := hsees.drop
    have hcross := ht.cross hsees.target
    rw [hs₂]
    dsimp only [bind, Except.bind]
    rw [hs₃, hd, hsees.inode]
    dsimp only
    rw [hs₄]
    refine (iget_ends ht hlen hw₄ hsees.target).bind ?_
    rintro ⟨s₅, i⟩ hw₅
    have hdev : (s₅.inode_table i).i_dev ≠ 0 :=
      (congrArg Prod.fst (hw₅.hand _ (List.mem_cons_self ..)).1).trans_ne
        hcross.mounted.ne_zero
    exact .inr ⟨i, _, _, rfl, hw₅.soil hdev, hcross.anchored i⟩

/-! ## sys_unlink and sys_rmdir -/

/-- The entry `f` of the directory is in hand, and its inode. -/
structure Targeted (s₀ : State) (dir inode : Entry) (nr dev' nr' : Nat) (f : Found) (s : State) :
    Prop extends Looked s₀ [⟨inode, dev', nr'⟩] [(f.dev, f.bh)] dir f.dev nr s where
  within : Within s dir f
  target : Linked s₀ dev' nr'
  /-- the root of a mounted device is a directory -/
  cross : ¬S_ISDIR (Namei.node s₀ dev' nr').i_mode → dev' = f.dev

theorem Whole.cross_dir (ht : Whole c s) (h : ¬S_ISDIR (node s (cross s dev nr).1
    (cross s dev nr).2).i_mode) : (cross s dev nr).1 = dev := by
  unfold Namei.cross at h ⊢
  cases hat : mountAt s dev nr with
  | none => rfl
  | some k =>
      rw [hat] at h
      obtain ⟨m, hk, -⟩ := mountAt_some hat
      exact absurd (ht.topMode k m hk) h

theorem target_ends (ht : Whole c s) (path : List UInt8) :
    Ends (Crowded s) (fun r => (∃ e, r.2 = .error e) ∧ Walks s [] [] r.1 ∨
      ∃ dir inode nr dev' nr' f, r.2 = .ok (dir, inode, f) ∧
        Targeted s dir inode nr dev' nr' f r.1) (target c s path) := by
  have hlen : ([] : List Handle).length ≤ 1 := Nat.zero_le 1
  have hroom : Room s (([] : List Handle).map Handle.slot) := ht.room
  unfold target
  refine (dirNamei_ends ht hlen ht.start path).bind ?_
  rintro ⟨s₁, r₁⟩ h₁
  dsimp only at h₁
  rcases h₁ with ⟨rfl, hw₁⟩ | ⟨dir, dev, nr, rfl, hl, -⟩
  · exact .inl ⟨⟨_, rfl⟩, hw₁⟩
  dsimp only
  have ha := hl.linked.anchored dir
  by_cases hbase : basename path = []
  · rw [if_pos hbase]
    exact (leave_one hl.toWalks ha _).mono fun r h => .inl ⟨⟨_, h.1⟩, h.2⟩
  rw [if_neg hbase]
  by_cases hperm : permission c (s₁.inode_table dir) MAY_WRITE = false
  · rw [if_pos hperm]
    exact (leave_one hl.toWalks ha _).mono fun r h => .inl ⟨⟨_, h.1⟩, h.2⟩
  rw [if_neg hperm]
  rcases findEntry_spec ht.toTidy hroom hl (basename path) with
    ⟨-, s₂, dir₂, hs₂, hl₂⟩ | ⟨s₂, dir₂, nr₂, m, f, -, hs₂, hsees⟩
  · rw [hs₂]
    exact (leave_one hl₂.toWalks (hl₂.linked.anchored dir₂) _).mono fun r h =>
      .inl ⟨⟨_, h.1⟩, h.2⟩
  · have hd : (s₂.inode_table dir₂).i_dev = f.dev :=
      congrArg Prod.fst (hsees.hand _ (List.mem_cons_self ..)).1
    have hone : [(⟨dir₂, f.dev, nr₂⟩ : Handle)].length ≤ 1 := Nat.le_refl 1
    rw [hs₂]
    dsimp only [bind, Except.bind]
    rw [hd, hsees.inode]
    refine (iget_ends ht hone hsees.toWalks hsees.target).bind ?_
    rintro ⟨s₃, i⟩ hw₃
    have hl₃ : Looked s [⟨i, _, _⟩] [(f.dev, f.bh)] dir₂ f.dev nr₂ s₃ :=
      ⟨hw₃.perm (.swap ..), hsees.linked, hsees.mode⟩
    exact .inr ⟨dir₂, i, nr₂, _, _, f, rfl, hl₃, hl₃.within ht hsees.lt hsees.bh,
      ht.cross hsees.target, ht.cross_dir⟩

/-- Two references and the buffer of the entry are given up. -/
theorem leaveEntry_two {E : Stop → Prop} {h' : Handle}
    (hw : Walks s₀ [h, h'] [(f.dev, f.bh)] s) (ha : Anchored s₀ h) (ha' : Anchored s₀ h')
    (r : Int) :
    Ends E (fun r' => Balanced s₀ none r'.1) (leaveEntry s [h.slot, h'.slot] f r) := by
  obtain ⟨s₁, hs₁, hw₁⟩ := Walks.iputs [h, h'] hw (by
    rw [List.forall_mem_cons, List.forall_mem_singleton]
    exact ⟨ha, ha'⟩)
  obtain ⟨s₂, hs₂, hw₂, -⟩ := hw₁.brelse
  unfold leaveEntry
  rw [show [h.slot, h'.slot].foldlM iput s = _ from hs₁]
  dsimp only [bind, Except.bind]
  rw [hs₂]
  exact hw₂.toLedger.balanced

theorem Targeted.leaveEntry {E : Stop → Prop} {inode : Entry} {dev' nr' : Nat}
    (h : Targeted s₀ dir inode nr dev' nr' f s) (r : Int) :
    Ends E (fun r' => Balanced s₀ none r'.1) (leaveEntry s [dir, inode] f r) ∧
      Ends E (fun r' => Balanced s₀ none r'.1) (leaveEntry s [inode, dir] f r) :=
  ⟨leaveEntry_two h.toWalks (h.linked.anchored dir) (h.target.anchored inode) r,
    leaveEntry_two (h.toWalks.perm (.swap ..)) (h.target.anchored inode) (h.linked.anchored dir) r⟩

theorem Targeted.toDInode {inode : Entry} {dev' nr' : Nat}
    (h : Targeted s₀ dir inode nr dev' nr' f s) :
    (s.inode_table inode).toDInode = Namei.node s₀ dev' nr' ∧
      (s.inode_table inode).i_dev = dev' := by
  have hmem : (⟨inode, dev', nr'⟩ : Handle) ∈ [⟨dir, f.dev, nr⟩, ⟨inode, dev', nr'⟩] :=
    List.mem_cons_of_mem _ (List.mem_cons_self ..)
  exact ⟨h.slot hmem h.target.mounted.ne_zero, congrArg Prod.fst (h.hand _ hmem).1⟩

/-- The entry is cleared, and its buffer given up. -/
theorem Targeted.clear {inode : Entry} {dev' nr' : Nat} (ht : Whole c s₀)
    (h : Targeted s₀ dir inode nr dev' nr' f s) :
    ∃ s', brelse (s.setInode f 0) f = .ok s' ∧
      Edits s₀ [⟨inode, dev', nr'⟩] [] dir f.dev nr s' ∧ s'.inode_table = s.inode_table :=
  ((h.toLooked.intact ht).toEdits.setInode h.within 0).brelse

theorem sysUnlink_ends (ht : Whole c s) (path : List UInt8) :
    Ends (Crowded s) (fun r => Balanced s none r.1) (sysUnlink c s path) := by
  unfold sysUnlink
  refine (target_ends ht path).bind ?_
  rintro ⟨s₁, r₁⟩ h₁
  dsimp only at h₁
  rcases h₁ with ⟨⟨e, rfl⟩, hw₁⟩ | ⟨dir, inode, nr, dev', nr', f, rfl, h⟩
  · exact hw₁.toLedger.balanced
  dsimp only
  obtain ⟨hnode, hdev⟩ := h.toDInode
  split
  · exact (h.leaveEntry _).1
  by_cases hisdir : S_ISDIR (s₁.inode_table inode).i_mode
  · rw [if_pos hisdir]
    exact (h.leaveEntry _).2
  rw [if_neg hisdir]
  -- the inode is no directory, and so not that which the entry is in
  have hmode : ¬S_ISDIR (node s dev' nr').i_mode := by
    rw [← hnode]
    exact hisdir
  obtain rfl := h.cross hmode
  have hne : nr ≠ nr' := by
    rintro rfl
    exact hmode h.mode
  have hi : dir ≠ inode := by
    rintro rfl
    rw [h.toLooked.toDInode] at hisdir
    exact hisdir h.mode
  obtain ⟨s₂, hs₂, h₂, htable⟩ := h.clear ht
  have hnode₂ : (s₂.inode_table inode).toDInode = node s f.dev nr' := by
    rw [htable]
    exact hnode
  rw [← htable] at hdev
  dsimp only [bind, Except.bind]
  rw [hs₂]
  dsimp only
  generalize (if (s₁.inode_table inode).i_nlinks = 0 then 1
    else (s₁.inode_table inode).i_nlinks) - 1 = i_nlinks
  have hl₃ : Ledger s [⟨dir, f.dev, nr⟩, ⟨inode, f.dev, nr'⟩] [] (s₂.set inode
      { s₂.inode_table inode with i_nlinks := i_nlinks, i_dirt := true }) :=
    h₂.toLedger.edit inode rfl rfl rfl rfl fun _ => hdev.trans_ne h.target.mounted.ne_zero
  have hz : (s₂.inode_table inode).i_zone = (node s f.dev nr').i_zone :=
    congrArg DInode.i_zone hnode₂
  have hblocks : Blocks (s₂.inode_table inode).toDInode → Blocks (node s f.dev nr') := fun h =>
    hnode₂ ▸ h
  obtain ⟨s₄, hs₄, hl₄⟩ := h₂.leave ht.mounts h.linked hi hl₃ (fun hb =>
    h₂.freeable ht h.linked h.mode h.target hne (hblocks hb) hz) (0 : Int)
  rw [hs₄]
  exact hl₄.balanced

/-- `empty_dir` of a directory in hand changes nothing. -/
theorem Walks.emptyDir (ht : Tidy c s₀) (hw : Walks s₀ hs bs s) (hh : ⟨i, dev, nr⟩ ∈ hs)
    (hlinked : Linked s₀ dev nr) (hmode : S_ISDIR (Namei.node s₀ dev nr).i_mode) :
    ∃ found, DirScan.emptyDir (s.inode_table i).i_num (s.inode_table i).file (s.vol dev) =
      .ok (s.vol dev, found) := by
  have hdir := ht.directory dev nr hlinked hmode
  have hnode : (s.inode_table i).toDInode = Namei.node s₀ dev nr :=
    hw.slot hh hlinked.mounted.ne_zero
  have hnum : (s.inode_table i).i_num = nr := congrArg Prod.snd (hw.hand _ hh).1
  have hz : (s.inode_table i).file.i_zone = (Namei.node s₀ dev nr).file.i_zone :=
    congrArg DInode.i_zone hnode
  have hsize : (s.inode_table i).file.i_size / Dir.ENTRY = entries s₀ dev nr :=
    congrArg (· / Dir.ENTRY) (congrArg DInode.i_size hnode)
  refine DirScan.emptyDir_quiet (hw.sound.good dev) (fun k hk => ?_) ?_
  · rw [hsize] at hk
    rw [DirScan.blockOf_congr hz (hw.disk dev) (hw.bad ht dev)]
    exact hdir.dense k hk
  · rw [hnum, DirScan.dataOf_congr hz (hw.disk dev) (hw.bad ht dev)]
    exact hdir.dots

theorem pred_ne_zero {n : UInt8} (h : 2 ≤ n) : n - 1 ≠ 0 := by
  intro hzero
  have hone : n = 1 := by
    rw [← UInt8.sub_add_cancel n 1, hzero]
    rfl
  rw [hone] at h
  exact absurd h (by decide)

/-- The directory loses a link, and the inode the last one. -/
theorem Edits.remove {inode : Entry} {nr' : Nat} (ht : Whole c s₀)
    (h : Edits s₀ [⟨inode, dev, nr'⟩] [] dir dev nr s)
    (hdir : Linked s₀ dev nr ∧ S_ISDIR (Namei.node s₀ dev nr).i_mode)
    (hinode : Linked s₀ dev nr' ∧ S_ISDIR (Namei.node s₀ dev nr').i_mode) (hne : nr ≠ nr')
    (hi : inode ≠ dir) (hnode : (s.inode_table inode).toDInode = Namei.node s₀ dev nr')
    {s₁ s₂ : State} (hs₁ : s₁ = s.set inode { s.inode_table inode with
      i_nlinks := 0, i_dirt := true })
    (hs₂ : s₂ = s₁.set dir { s₁.inode_table dir with
      i_nlinks := (s₁.inode_table dir).i_nlinks - 1, i_dirt := true }) :
    ∃ s', Namei.leave s₂ [dir, inode] (0 : Int) = .ok (s', 0) ∧ Ledger s₀ [] [] s' := by
  have hdev := hdir.1.mounted.ne_zero
  have hslot₁ : s₁.inode_table dir = s.inode_table dir := by
    rw [hs₁, set_ne _ _ hi.symm]
  have hzone₁ : (s₁.inode_table inode).i_zone = (Namei.node s₀ dev nr').i_zone := by
    rw [hs₁, set_self, ← hnode]
  have hd : (s.inode_table inode).i_dev = dev :=
    congrArg Prod.fst (h.hand _ (List.mem_cons_of_mem _ (List.mem_cons_self ..))).1
  have hl₁ : Ledger s₀ [⟨dir, dev, nr⟩, ⟨inode, dev, nr'⟩] [] s₁ :=
    hs₁ ▸ h.toLedger.edit inode rfl rfl rfl rfl fun _ => hd.trans_ne hdev
  have hlinks₂ : (s₂.inode_table dir).i_nlinks ≠ 0 := by
    rw [hs₂, set_self, hslot₁, h.nlinks]
    exact pred_ne_zero (ht.links dev nr hdir.1 hdir.2)
  have hslot₂ : s₂.inode_table inode = s₁.inode_table inode := by
    rw [hs₂, set_ne _ _ hi]
  have hl₂ : Ledger s₀ [⟨dir, dev, nr⟩, ⟨inode, dev, nr'⟩] [] s₂ := by
    have hd₁ : (s₁.inode_table dir).i_dev = dev := by
      rw [hslot₁]
      exact h.i_dev
    exact hs₂ ▸ hl₁.edit dir rfl rfl rfl rfl fun _ => hd₁.trans_ne hdev
  obtain ⟨s₃, hs₃, hputs, hl₃⟩ := hl₂.iput fun _ _ => hlinks₂
  have hvol₃ : s₃.vol = s.vol := by
    rw [hputs.calm.vol, hs₂, hs₁]
    rfl
  have hzone₃ : (s₃.inode_table inode).i_zone = (Namei.node s₀ dev nr').i_zone := by
    rw [show (s₃.inode_table inode).i_zone = _ from
      congrArg DInode.i_zone (hputs.calm.toDInode inode), hslot₂, hzone₁]
  obtain ⟨s₄, hs₄, hl₄, -⟩ := hl₃.put ht.mounts hdev fun _ _ => by
    rw [hvol₃]
    exact h.freeable ht hdir.1 hdir.2 hinode.1 hne (.inr hinode.2) hzone₃
  refine ⟨s₄, ?_, hl₄⟩
  unfold Namei.leave
  rw [List.foldlM_cons, hs₃]
  show ([inode].foldlM iput s₃).map _ = _
  rw [List.foldlM_cons, hs₄]
  rfl

theorem sysRmdir_ends (ht : Whole c s) (path : List UInt8) :
    Ends (Crowded s) (fun r => Balanced s none r.1) (sysRmdir c s path) := by
  unfold sysRmdir
  split
  · exact ht.start.toLedger.balanced
  refine (target_ends ht path).bind ?_
  rintro ⟨s₁, r₁⟩ h₁
  dsimp only at h₁
  rcases h₁ with ⟨⟨e, rfl⟩, hw₁⟩ | ⟨dir, inode, nr, dev', nr', f, rfl, h⟩
  · exact hw₁.toLedger.balanced
  dsimp only
  obtain ⟨hnode, hdev⟩ := h.toDInode
  split
  · exact (h.leaveEntry _).1
  by_cases hother : (s₁.inode_table inode).i_dev ≠ (s₁.inode_table dir).i_dev ∨
      (s₁.inode_table inode).i_count > 1
  · rw [if_pos hother]
    exact (h.leaveEntry _).1
  rw [if_neg hother]
  have hkey := (h.hand _ (List.mem_cons_self ..)).1
  obtain rfl : dev' = f.dev := hdev.symm.trans
    ((not_not.mp (not_or.mp hother).1).trans (congrArg Prod.fst hkey))
  by_cases hself : inode = dir
  · rw [if_pos hself]
    exact (h.leaveEntry _).2
  rw [if_neg hself]
  by_cases hnotdir : ¬S_ISDIR (s₁.inode_table inode).i_mode
  · rw [if_pos hnotdir]
    exact (h.leaveEntry _).2
  rw [if_neg hnotdir]
  have hmode : S_ISDIR (node s f.dev nr').i_mode := by
    rw [← hnode]
    exact not_not.mp hnotdir
  have hne : nr ≠ nr' := by
    rintro rfl
    have hkey' := (h.hand _ (List.mem_cons_of_mem _ (List.mem_cons_self ..))).1
    exact hself (h.table.unique inode dir (hdev.trans_ne h.target.mounted.ne_zero)
      (hkey'.trans hkey.symm))
  obtain ⟨found, hempty⟩ := h.toWalks.emptyDir ht.toTidy
    (List.mem_cons_of_mem _ (List.mem_cons_self ..)) h.target hmode
  rw [hdev, hempty]
  dsimp only [Except.mapError, bind, Except.bind]
  rw [setVol_self]
  cases found with
  | false => exact (h.leaveEntry _).2
  | true =>
      obtain ⟨s₂, hs₂, h₂, htable⟩ := h.clear ht
      rw [if_neg Bool.true_eq_false.mp, hs₂]
      dsimp only
      have hnode₂ : (s₂.inode_table inode).toDInode = node s f.dev nr' := by
        rw [htable]
        exact hnode
      obtain ⟨s₃, hs₃, hl₃⟩ := h₂.remove ht ⟨h.linked, h.mode⟩ ⟨h.target, hmode⟩ hne hself hnode₂
        rfl rfl
      rw [hs₃]
      exact hl₃.balanced

/-! ## sys_link -/

/-- An inode gets a name in a directory of its device. -/
theorem link_ends (ht : Whole c s₀) (hl : Looked s₀ [⟨i, dev, m⟩] [] dir dev nr s)
    (ha : Anchored s₀ ⟨i, dev, m⟩) (hmode : ¬S_ISDIR (node s₀ dev m).i_mode)
    (name : List UInt8) :
    Ends (Crowded s₀) (fun r => Balanced s₀ none r.1) (addEntry s dir name >>= fun r =>
      match r.2 with
      | none => leave r.1 [dir, i] (-ENOSPC)
      | some f => do
          let s := r.1.setInode f (r.1.inode_table i).i_num
          let s ← brelse s f
          let s ← iput s dir
          let s := s.set i { s.inode_table i with
            i_nlinks := (s.inode_table i).i_nlinks + 1, i_dirt := true }
          leave s [i] (0 : Int)) := by
  have hmem : (⟨i, dev, m⟩ : Handle) ∈ [⟨dir, dev, nr⟩, ⟨i, dev, m⟩] :=
    List.mem_cons_of_mem _ (List.mem_cons_self ..)
  have hdev := hl.linked.mounted.ne_zero
  have hnode : (s.inode_table i).toDInode = node s₀ dev m := hl.slot hmem hdev
  have hne : nr ≠ m := by
    rintro rfl
    exact hmode hl.mode
  have hi : i ≠ dir := by
    rintro rfl
    rw [← hnode, hl.toDInode] at hmode
    exact hmode hl.mode
  obtain ⟨s₁, r₁, hs₁, hslot, hf, h₁⟩ := (hl.intact ht).addEntry ht hl.linked.mounted name
  have hnode₁ : (s₁.inode_table i).toDInode = node s₀ dev m := by
    rw [hslot i hi]
    exact hnode
  rw [hs₁]
  dsimp only [bind, Except.bind]
  cases r₁ with
  | none =>
      obtain ⟨s₂, hs₂, hl₂, hputs⟩ := h₁.put hl.linked
      obtain ⟨s₃, hs₃, -, hl₃⟩ := hl₂.iput fun hzero _ => by
        rw [show (s₂.inode_table i).i_nlinks = _ from
          congrArg DInode.i_nlinks ((hputs.calm.toDInode i).trans hnode₁)]
        exact (ha.linked hzero).nlinks
      dsimp only
      unfold leave
      rw [List.foldlM_cons, hs₂]
      show Ends _ _ (([i].foldlM iput s₂).map _)
      rw [List.foldlM_cons, hs₃]
      exact hl₃.balanced
  | some f =>
      obtain ⟨rfl, hwithin⟩ := hf f rfl
      obtain ⟨s₂, hs₂, h₂, htable⟩ := (h₁.setInode hwithin (s₁.inode_table i).i_num).brelse
      obtain ⟨s₃, hs₃, hl₃, hputs⟩ := h₂.put hl.linked
      have hnode₃ : (s₃.inode_table i).toDInode = node s₀ f.dev m := by
        rw [hputs.calm.toDInode, htable]
        exact hnode₁
      have hd₃ : (s₃.inode_table i).i_dev = f.dev :=
        congrArg Prod.fst (hl₃.hand _ (List.mem_cons_self ..)).1
      have hl₄ : Ledger s₀ [⟨i, f.dev, m⟩] [] (s₃.set i { s₃.inode_table i with
          i_nlinks := (s₃.inode_table i).i_nlinks + 1, i_dirt := true }) :=
        hl₃.edit i rfl rfl rfl rfl fun _ => hd₃.trans_ne hdev
      have hz : (s₃.inode_table i).i_zone = (node s₀ f.dev m).i_zone :=
        congrArg DInode.i_zone hnode₃
      have hblocks : Blocks (s₃.inode_table i).toDInode → Blocks (node s₀ f.dev m) := fun h =>
        hnode₃ ▸ h
      -- the count of links may come to its end
      obtain ⟨s₅, hs₅, hl₅, -⟩ := hl₄.put ht.mounts hdev fun hzero hb => by
        rw [set_self] at hb ⊢
        rw [set_vol, hputs.calm.vol]
        exact h₂.freeable ht hl.linked hl.mode (ha.linked hzero) hne (hblocks hb) hz
      dsimp only
      rw [hs₂]
      dsimp only
      rw [hs₃]
      dsimp only
      rw [leave_single hs₅]
      exact hl₅.balanced

theorem sysLink_ends (ht : Whole c s) (oldname newname : List UInt8) :
    Ends (Crowded s) (fun r => Balanced s none r.1) (sysLink c s oldname newname) := by
  unfold sysLink
  refine (namei_ends ht oldname).bind ?_
  rintro ⟨s₁, r₁⟩ h₁
  dsimp only at h₁
  rcases h₁ with ⟨rfl, hw₁⟩ | ⟨i, dev, nr, rfl, hw₁, ha⟩
  · exact hw₁.toLedger.balanced
  dsimp only
  by_cases hisdir : S_ISDIR (s₁.inode_table i).i_mode
  · rw [if_pos hisdir]
    exact (leave_one hw₁ ha _).mono fun r h => h.2.toLedger.balanced
  rw [if_neg hisdir]
  have hmode : ¬S_ISDIR (node s dev nr).i_mode := by
    rw [← hw₁.slot (List.mem_cons_self ..) ha.live.mounted.ne_zero]
    exact hisdir
  have hlen : [(⟨i, dev, nr⟩ : Handle)].length ≤ 1 := Nat.le_refl 1
  have hroom : Room s ([(⟨i, dev, nr⟩ : Handle)].map Handle.slot) := ht.roomFor (Nat.le_refl 1)
  refine (dirNamei_ends ht hlen hw₁ newname).bind ?_
  rintro ⟨s₂, r₂⟩ h₂
  dsimp only at h₂
  rcases h₂ with ⟨rfl, hw₂⟩ | ⟨dir, dev₂, nr₂, rfl, hl, -⟩
  · exact (leave_one hw₂ ha _).mono fun r h => h.2.toLedger.balanced
  dsimp only
  have hleave : ∀ {s₃ dir₃ dev₃ nr₃} (e : Int), Walks s [⟨dir₃, dev₃, nr₃⟩, ⟨i, dev, nr⟩] [] s₃ →
      Linked s dev₃ nr₃ → Ends (Crowded s) (fun r => Balanced s none r.1) (leave s₃ [dir₃, i] e) :=
    fun e h₃ hlinked => (leave_two h₃ (hlinked.anchored _) ha e).mono fun r h =>
      h.2.toLedger.balanced
  by_cases hbase : basename newname = []
  · rw [if_pos hbase]
    exact (leave_two (hl.toWalks.perm (.swap ..)) ha (hl.linked.anchored dir) _).mono fun r h =>
      h.2.toLedger.balanced
  rw [if_neg hbase]
  by_cases hother : (s₂.inode_table dir).i_dev ≠ (s₂.inode_table i).i_dev
  · rw [if_pos hother]
    exact hleave _ hl.toWalks hl.linked
  rw [if_neg hother]
  obtain rfl : dev₂ = dev := by
    have hi := (hl.hand _ (List.mem_cons_of_mem _ (List.mem_cons_self ..))).1
    have hdir := (hl.hand _ (List.mem_cons_self ..)).1
    exact (congrArg Prod.fst hdir).symm.trans ((not_not.mp hother).trans (congrArg Prod.fst hi))
  by_cases hperm : permission c (s₂.inode_table dir) MAY_WRITE = false
  · rw [if_pos hperm]
    exact hleave _ hl.toWalks hl.linked
  rw [if_neg hperm]
  rcases findEntry_spec ht.toTidy hroom hl (basename newname) with
    ⟨-, s₃, dir₃, hs₃, hl₃⟩ | ⟨s₃, dir₃, nr₃, m, f, -, hs₃, hsees⟩
  · rw [hs₃]
    exact link_ends ht hl₃ ha hmode (basename newname)
  · obtain ⟨s₄, hs₄, hw₄, -⟩ := hsees.toWalks.brelse
    rw [hs₃]
    dsimp only [bind, Except.bind]
    rw [hs₄]
    exact hleave _ hw₄ hsees.linked

/-- The calls give up what they take: for every path, flag and mode, in a tree that is
whole, each of the five comes to its end with the references to inodes and buffers as
they were, but for one to the inode that `open_namei` or `namei` returns; or it stops in
`get_empty_inode` because the table is full. The blocks of other files are not changed.
-/
theorem path_calls_balance (h : Whole c s) :
    (∀ path flag mode, Ends (Crowded s) (fun r => Balanced s r.2.toOption r.1)
      (openNamei c s path flag mode)) ∧
    (∀ path, Ends (Crowded s) (fun r => Balanced s r.2 r.1) (namei c s path)) ∧
    (∀ path, Ends (Crowded s) (fun r => Balanced s none r.1) (sysUnlink c s path)) ∧
    (∀ oldname newname, Ends (Crowded s) (fun r => Balanced s none r.1)
      (sysLink c s oldname newname)) ∧
    ∀ path, Ends (Crowded s) (fun r => Balanced s none r.1) (sysRmdir c s path) := by
  refine ⟨openNamei_ends h, fun path => ?_, sysUnlink_ends h, sysLink_ends h, sysRmdir_ends h⟩
  refine (namei_ends h path).mono ?_
  rintro ⟨s', r⟩ hr
  dsimp only at hr ⊢
  rcases hr with ⟨rfl, hw⟩ | ⟨i, dev, nr, rfl, hw, -⟩
  · exact hw.toLedger.balanced
  · exact hw.toLedger.balanced_some

section Root

/-- The directory of the root: `.` and `..` in zone 5. -/
def rootInode : DInode := ⟨0o040755, 0, 32, 0, 2, fun i => if i = 0 then 5 else 0⟩

theorem inode_table_pos : 0 < NR_INODE := Nat.zero_lt_succ 31

def rootEntry : Entry := ⟨0, inode_table_pos⟩

/-- A map of one block, in which the bits 0 and 1 are set. -/
def firstBits (i : Nat) : Option MapBuffer :=
  if i = 0 then some ⟨fun w => if w = 0 then 3 else 0, false⟩ else none

/-- One device, with the root in the first entry of the table, as `mount_root` leaves it, and the
inode `other` in each of the others. -/
def rootWith (other : Inode) : State where
  inode_table := fun i => if i.val = 0 then ⟨rootInode, 1, 1, 4, false, false, false⟩ else other
  last_inode := rootEntry
  super_block := fun k => if k.val = 0 then ⟨1, some rootEntry⟩ else ⟨0, none⟩
  vol := fun _ => {
    sb := { toDSuperBlock := Zones.floppy, s_imap := firstBits, s_zmap := firstBits }
    b_data := fun b => if b = 5 then DirScan.dots else Zones.zeroes
    bad := fun _ => false
    b_count := fun _ => 0 }
  d_inode := fun _ nr => if nr = 1 then rootInode else Inode.zero.toDInode

/-- The table with nothing but the root. -/
def rootState : State := rootWith .zero

/-- The table with a pipe in every other entry. -/
def pipeState : State := rootWith { Inode.zero with i_count := 2, i_pipe := true }

def rootTask : Current := ⟨rootEntry, rootEntry, 0, 0, 0⟩

/-- The inode is of no device. -/
structure Nowhere (inode : Inode) : Prop where
  i_dev : inode.i_dev = 0
  i_dirt : inode.i_dirt = false
  i_mount : inode.i_mount = false
  i_count : inode.i_count + 2 < 0x10000

variable {other : Inode} {k : Fin NR_SUPER}

theorem rootWith_root (other : Inode) (hi : i.val = 0) :
    (rootWith other).inode_table i = ⟨rootInode, 1, 1, 4, false, false, false⟩ := if_pos hi

theorem rootWith_other (other : Inode) (hi : ¬i.val = 0) : (rootWith other).inode_table i = other :=
  if_neg hi

theorem rootWith_slot (h : Nowhere other) (hi : ((rootWith other).inode_table i).i_dev ≠ 0) :
    i = rootEntry := by
  by_contra hne
  rw [rootWith_other other fun hzero => hne (Fin.ext hzero)] at hi
  exact hi h.i_dev

theorem rootWith_imount {i : Entry} (h : ((rootWith other).super_block k).s_imount = some i) :
    ((rootWith other).super_block k).s_dev = 1 ∧ i = rootEntry := by
  by_cases hk : k.val = 0
  · have hsuper : (rootWith other).super_block k = ⟨1, some rootEntry⟩ := if_pos hk
    rw [hsuper] at h ⊢
    exact ⟨rfl, (Option.some.inj h).symm⟩
  · have hsuper : (rootWith other).super_block k = ⟨0, none⟩ := if_neg hk
    rw [hsuper] at h
    cases h

theorem rootWith_mounted (h : Mounted (rootWith other) dev) : dev = 1 := by
  obtain ⟨k, hk⟩ := h.get
  have hne := h.ne_zero
  unfold getSuper at hk
  rw [if_neg hne] at hk
  have hfound := List.find?_some hk
  have hdev : ((rootWith other).super_block k).s_dev = dev := of_decide_eq_true hfound
  rw [← hdev]
  by_cases hzero : k.val = 0
  · exact congrArg Super.s_dev (if_pos hzero)
  · exact absurd (hdev.symm.trans (congrArg Super.s_dev (if_neg hzero))) hne

theorem rootWith_live (other : Inode) : Live (rootWith other) 1 1 where
  mounted := rfl
  pos := Nat.le_refl 1
  le := (by decide : 1 ≤ Zones.floppy.s_ninodes)
  used := (by decide : Super.used firstBits 1 = true)

theorem rootWith_node (other : Inode) : node (rootWith other) 1 1 = rootInode := by
  have hfind : findInode (rootWith other).inode_table 1 1 = some rootEntry := rfl
  unfold node
  rw [hfind]
  rfl

/-- The root is the only inode with a link. -/
theorem rootWith_linked (h : Nowhere other) (hl : Linked (rootWith other) dev nr) :
    dev = 1 ∧ nr = 1 := by
  have hdev := rootWith_mounted hl.mounted
  refine ⟨hdev, ?_⟩
  by_contra hne
  have hnone : findInode (rootWith other).inode_table dev nr = none := by
    refine findInode_eq_none fun i hkey => ?_
    have hi := rootWith_slot h ((congrArg Prod.fst hkey).trans_ne hl.mounted.ne_zero)
    rw [hi] at hkey
    exact hne (congrArg Prod.snd hkey).symm
  have hnode : node (rootWith other) dev nr = Inode.zero.toDInode := by
    unfold node
    rw [hnone]
    exact if_neg hne
  exact hl.nlinks (congrArg DInode.i_nlinks hnode)

theorem rootWith_top (other : Inode) : Linked (rootWith other) 1 1 := by
  refine ⟨rootWith_live other, ?_⟩
  rw [rootWith_node]
  decide

theorem rootWith_directory (other : Inode) : Directory (rootWith other) 1 1 where
  two := by
    unfold entries
    rw [rootWith_node]
    decide
  dense := fun k hk => by
    unfold entries at hk
    rw [rootWith_node] at hk ⊢
    have hsize : rootInode.i_size / Dir.ENTRY = 2 := rfl
    have hd : Dir.DIR_ENTRIES_PER_BLOCK = 64 := rfl
    rw [hsize, hd] at hk
    obtain rfl : k = 0 := by omega
    exact ⟨(by decide : (5 : Nat) ≠ 0), by decide⟩
  dots := by
    rw [rootWith_node]
    exact (by decide : DirScan.Dots 1 DirScan.dots)
  linked := fun m hm _ => by
    unfold entries at hm
    unfold entryInode
    rw [rootWith_node] at hm ⊢
    have hsize : rootInode.i_size / Dir.ENTRY = 2 := rfl
    rw [hsize] at hm
    have hino : ∀ m < 2, Dir.getInode (DirScan.dataOf rootInode.file (rootState.vol 1) m)
        (DirScan.offset m) = 1 := by
      decide
    rw [show Dir.getInode (DirScan.dataOf rootInode.file ((rootWith other).vol 1) m)
      (DirScan.offset m) = 1 from hino m hm]
    exact rootWith_top other

theorem rootWith_all {P : Inode → Prop} (hroot : P ⟨rootInode, 1, 1, 4, false, false, false⟩)
    (hother : P other) (i : Entry) : P ((rootWith other).inode_table i) := by
  by_cases hi : i.val = 0
  · rw [rootWith_root other hi]
    exact hroot
  · rw [rootWith_other other hi]
    exact hother

theorem rootWith_tidy (h : Nowhere other) : Tidy rootTask (rootWith other) where
  sound := {
    mounted := fun i hi => by
      rw [rootWith_slot h hi]
      exact (rootWith_live other).mounted
    range := fun i hi => by
      rw [rootWith_slot h hi]
      exact ⟨(rootWith_live other).pos, (rootWith_live other).le⟩
    imap := fun dev _ => by
      refine ⟨fun nr hnr => ?_, (by decide : Super.used firstBits 0 = true)⟩
      have hle : nr ≤ 32 := hnr
      show (firstBits (nr / 8192)).isSome = true
      rw [Nat.div_eq_of_lt (by omega)]
      rfl
    dirty := rootWith_all (P := fun inode => inode.i_dirt = true → inode.i_dev ≠ 0)
      (fun hi => absurd hi Bool.false_ne_true)
      fun hi => absurd (h.i_dirt.symm.trans hi) Bool.false_ne_true
    pipe := rootWith_all (P := fun inode => inode.i_pipe = true → inode.i_dev = 0)
      (fun hi => absurd hi Bool.false_ne_true) fun _ => h.i_dev
    good := fun _ _ => rfl }
  table := {
    unique := fun i j hi hkey => by
      have hj : ((rootWith other).inode_table j).i_dev ≠ 0 :=
        (congrArg Prod.fst hkey).symm.trans_ne hi
      rw [rootWith_slot h hi, rootWith_slot h hj]
    clean := fun i hi _ => by
      rw [rootWith_slot h hi]
      rfl }
  mounts := {
    held := fun k m hk => by
      rw [(rootWith_imount hk).2, rootWith_root other rfl]
      decide
    point := rootWith_all
      (P := fun inode => inode.i_mount = true → 0 < inode.i_count ∧ inode.i_num ≠ ROOT_INO)
      (fun hi => absurd hi Bool.false_ne_true)
      fun hi => absurd (h.i_mount.symm.trans hi) Bool.false_ne_true
    root := fun k m hk => by
      rw [(rootWith_imount hk).1]
      exact rootWith_live other }
  room := rootWith_all (P := fun inode => inode.i_count + 0 + 1 < 0x10000) (by decide)
    (Nat.lt_of_succ_lt h.i_count)
  live := fun i hi => by
    rw [rootWith_slot h hi]
    exact rootWith_live other
  root := by
    rw [rootWith_root other rfl]
    decide
  pwd := by
    rw [rootWith_root other rfl]
    decide
  directory := fun dev nr hl _ => by
    obtain ⟨rfl, rfl⟩ := rootWith_linked h hl
    exact rootWith_directory other
  point := fun k m hk => by
    rw [(rootWith_imount hk).2, rootWith_root other rfl]
    decide
  top := fun k m hk => by
    rw [(rootWith_imount hk).1]
    exact rootWith_top other

/-! The blocks of the root -/

def rootDisk : Disk := (rootState.vol 1).toDisk

theorem rootInode_value {x : Bmap.Slot} (hx : value rootInode.file rootDisk x ≠ 0) :
    x = .direct 0 := by
  cases x with
  | direct i =>
      by_contra hne
      exact hx (if_neg fun hi => hne (congrArg _ hi))
  | single k => exact absurd rfl hx
  | double a => exact absurd rfl hx
  | leaf a b => exact absurd rfl hx

theorem rootInode_tree : Tree Zones.floppy rootInode.file rootDisk where
  covers := {
    fields := rfl
    bit0 := (by decide : Super.used firstBits 0 = true)
    slots := fun i => by
      show (firstBits i).isSome = decide (i < 1)
      unfold firstBits
      by_cases hi : i = 0
      · rw [hi]
        rfl
      · rw [if_neg hi, decide_eq_false (by omega)]
        rfl
    boot := by decide
    maps := by decide
    zones := by decide }
  short := by decide
  inj := fun x y _ _ heq hne => by
    have hy : value rootInode.file rootDisk y ≠ 0 := heq ▸ hne
    rw [rootInode_value hne, rootInode_value hy]
  used := fun x _ hne => by
    rw [rootInode_value hne]
    exact ⟨(by decide : Zones.floppy.s_firstdatazone ≤ 5 ∧ 5 < Zones.floppy.s_nzones),
      (by decide : Super.used firstBits 1 = true)⟩

theorem rootWith_whole (h : Nowhere other) : Whole rootTask (rootWith other) where
  toTidy := rootWith_tidy h
  tree := fun dev nr hl _ => by
    obtain ⟨rfl, rfl⟩ := rootWith_linked h hl
    rw [rootWith_node]
    exact rootInode_tree
  entries := fun dev nr hl _ => by
    obtain ⟨rfl, rfl⟩ := rootWith_linked h hl
    have hentries : entries (rootWith other) 1 1 = 2 := by
      unfold entries
      rw [rootWith_node]
      rfl
    rw [hentries, rootWith_node]
    refine ⟨rootInode_tree, rfl, (by decide : (5 : Nat) ≠ 0), fun i hi => ?_, by decide⟩
    have hd : Dir.DIR_ENTRIES_PER_BLOCK = 64 := rfl
    rw [hd, Nat.div_eq_of_lt (by omega)]
    exact (by decide : (5 : Nat) ≠ 0)
  apart := fun dev nr nr' hl hl' hne => by
    exact absurd ((rootWith_linked h hl).2.trans (rootWith_linked h hl').2.symm) hne
  unheld := fun _ _ _ _ => rfl
  links := fun dev nr hl _ => by
    obtain ⟨rfl, rfl⟩ := rootWith_linked h hl
    rw [rootWith_node]
    decide
  topMode := fun k m hk => by
    rw [(rootWith_imount hk).1, show node (rootWith other) 1 ROOT_INO = _ from rootWith_node other]
    decide
  room₂ := rootWith_all (P := fun inode => inode.i_count + 2 < 0x10000) (by decide) h.i_count

theorem rootState_whole : Whole rootTask rootState := rootWith_whole ⟨rfl, rfl, rfl, by decide⟩

/-- A file is made in the root, and its inode is in the next entry of the table. -/
theorem path_calls_balance_create : ∃ s' i, i.val = 1 ∧
    openNamei rootTask rootState [47, 120] (O_CREAT ||| 2) 0o644 = .ok (s', .ok i) ∧
      Balanced rootState (some i) s' := by
  have hends := (path_calls_balance rootState_whole).1 [47, 120] (O_CREAT ||| 2) 0o644
  have hmap : (openNamei rootTask rootState [47, 120] (O_CREAT ||| 2) 0o644).map (fun r =>
      r.2.toOption.map Fin.val) = .ok (some 1) := by
    decide +kernel
  obtain ⟨⟨s', r⟩, hopen, hr⟩ := Loops.map_eq_ok hmap
  rw [hopen] at hends
  cases r with
  | error e => cases hr
  | ok i => exact ⟨s', i, Option.some.inj hr, hopen, hends⟩

/-- A table of pipes has no place for `namei("/.")`. -/
theorem not_path_calls_balance : Whole rootTask pipeState ∧
    ¬∃ s' r, namei rootTask pipeState [47, 46] = .ok (s', r) ∧ Balanced pipeState r s' := by
  refine ⟨rootWith_whole ⟨rfl, rfl, rfl, by decide⟩, ?_⟩
  rintro ⟨s', r, hs', -⟩
  have hstop : (namei rootTask pipeState [47, 46]).map (fun r => r.2) =
      .error (.panic "No free inodes in mem") := by
    decide +kernel
  rw [hs'] at hstop
  cases hstop

end Root

end Namei

end Linux011
