import Linux011.PathCalls

/-!
# ftok

`sys_ftok` of `mm/shm.c` opens the file of its path to learn the number of its inode, and never
gives up the reference that `open_namei` hands over. The calls that keep no reference are those
that open nothing.

What `open_namei` does to the references is known from the modules on paths: it leaves everything
as it was, or hands over one reference to the inode that the path leads to (`openNamei_arrives`).
`sys_ftok` adds nothing to this, so that a call keeps a reference just if the inode is found and
may be read (`sysFtok_keeps`, `sysFtok_leaks`). For a run the first call that opens something has
kept one at the end, since no later call gives it up, and the other direction is an induction
over the calls, each of which leaves the counts as they are.
-/

namespace Linux011

open Function

namespace Namei

open Inodes (Entry)

/-- `sys_ftok`; a null pointer is `none`, and a negative result of `open_namei` an error. -/
def sysFtok (c : Current) (s : State) (pathname : Option (List UInt8)) (proj_id : UInt32) :
    Except Stop (State × UInt32) :=
  match pathname with
  | none => .ok (s, -1)
  | some pathname =>
      if proj_id = 0 then .ok (s, -1)
      else do
        let (s, r) ← openNamei c s pathname O_RDONLY 0o770
        match r with
        | .error _ => .ok (s, -1)
        | .ok inode =>
            .ok (s, (UInt32.ofNat (s.inode_table inode).i_num <<< 8 &&& 0x00FFFF00) |||
              (proj_id &&& 0x000000FF))

/-- A call of `sys_ftok`. -/
structure Call where
  task : Current
  pathname : Option (List UInt8)
  proj_id : UInt32

/-- The same references to inodes and to buffers. -/
structure SameCounts (s s' : State) : Prop where
  inodes : ∀ i, (s'.inode_table i).i_count = (s.inode_table i).i_count
  buffers : ∀ dev b, (s'.vol dev).b_count b = (s.vol dev).b_count b

/-- Each call of a run returns, and has kept no reference. -/
def KeepsNone (s : State) : List Call → Prop
  | [] => True
  | call :: calls => ∃ s' r, sysFtok call.task s call.pathname call.proj_id = .ok (s', r) ∧
      SameCounts s s' ∧ KeepsNone s' calls

/-- The call opens nothing: there is no path, `proj_id` is 0, or there is no inode that may be
read where the path leads. -/
def OpensNothing (s : State) (call : Call) : Prop :=
  call.proj_id = 0 ∨ ∀ path ∈ call.pathname, readTo call.task s path = .lost

variable {c : Current} {s s' s₀ : State} {hs : List Handle} {bs : List (Nat × Nat)}

theorem openNamei_arrives (ht : Tidy c s₀) (hw : Walks s₀ [] bs s) (path : List UInt8)
    (mode : Nat) : Arrives s₀ [] bs (fun r => ∃ e, r = .error e) .ok (readTo c s₀ path)
      (openNamei c s path O_RDONLY mode) := by
  have hroom : Room s₀ (([] : List Handle).map Handle.slot) := ht.room
  unfold openNamei readTo dirNamei
  rw [if_neg (by decide)]
  refine (getDir_arrives ht hroom hw path).bind
    (fun s₁ r hr hw₁ => hr ▸ ⟨s₁, _, rfl, ⟨-ENOENT, rfl⟩, hw₁⟩) ?_
  intro dev nr s₁ dir hdir hw₁ ha₁
  dsimp only
  by_cases hbase : basename path = []
  · rw [if_pos hbase, if_pos hbase, if_pos (by decide)]
    exact ⟨s₁, dir, rfl, hw₁, ha₁⟩
  rw [if_neg hbase, if_neg hbase]
  have hsearch := dirTo_leads hdir
  have hl : Looked s₀ [] bs dir dev nr s₁ := ⟨hw₁, hsearch.linked ha₁.live, hsearch.1⟩
  unfold lookTo
  rcases findEntry_spec ht hroom hl (basename path) with
    ⟨hlook, s₂, dir₂, hs₂, hl₂⟩ | ⟨s₂, dir₂, nr₂, m, f, hlook, hs₂, hsees⟩
  · obtain ⟨s', hs', hw'⟩ := hl₂.toWalks.leave (hl₂.linked.anchored dir₂)
      (.error (-ENOENT) : Except Int Entry)
    rw [hlook, hs₂]
    refine ⟨s', _, ?_, ⟨-ENOENT, rfl⟩, hw'⟩
    dsimp only [bind, Except.bind]
    unfold create
    rw [if_pos (by decide)]
    exact hs'
  · obtain ⟨hd, s₃, s₄, hs₃, hs₄, hw₄⟩ := hsees.drop
    rw [hlook, hs₂]
    dsimp only [bind, Except.bind]
    rw [hs₃, hd, hsees.inode]
    dsimp only
    rw [hs₄]
    dsimp only
    rw [if_neg (by decide)]
    refine (iget_arrives ht hroom hw₄ hsees.target).bind (fun _ _ hr => hr.elim) ?_
    intro dev' nr' s' i _ hw' ha'
    have hmask := hw'.permission ha'.live c (ACC_MODE O_RDONLY)
    show Arrives s₀ [] bs _ _ _ (openInode c s' i O_RDONLY)
    unfold openInode
    rw [hmask]
    by_cases hperm : permission c (inodeAt s₀ dev' nr') (ACC_MODE O_RDONLY) = true
    · rw [if_pos hperm, if_neg ?_, if_neg (by decide)]
      · exact ⟨s', i, rfl, hw', ha'⟩
      · rintro (⟨-, hacc⟩ | hno)
        · exact absurd hacc (by decide)
        · exact Bool.false_ne_true (hno.symm.trans hperm)
    · rw [if_neg hperm, if_pos (.inr (Bool.not_eq_true _ ▸ hperm))]
      obtain ⟨s'', hs'', hw''⟩ := hw'.leave ha' (.error (-EPERM) : Except Int Entry)
      exact ⟨s'', _, hs'', ⟨-EPERM, rfl⟩, hw''⟩

/-- Two states of a walk with nothing in hand. -/
theorem Walks.sameCounts (hw : Walks s₀ [] [] s) (hw' : Walks s₀ [] [] s') : SameCounts s s' where
  inodes := fun i => (hw'.count i).trans (hw.count i).symm
  buffers := fun dev b => (hw'.buffers dev b).trans (hw.buffers dev b).symm

theorem sysFtok_keeps (ht : Tidy c s₀) (hw : Walks s₀ [] [] s) {call : Call}
    (hc : call.task = c) (h : OpensNothing s₀ call) :
    ∃ s' r, sysFtok call.task s call.pathname call.proj_id = .ok (s', r) ∧
      Walks s₀ [] [] s' := by
  subst hc
  obtain ⟨task, pathname, proj_id⟩ := call
  unfold sysFtok
  cases pathname with
  | none => exact ⟨s, -1, rfl, hw⟩
  | some path =>
      dsimp only
      by_cases hproj : proj_id = 0
      · rw [if_pos hproj]
        exact ⟨s, -1, rfl, hw⟩
      · have hlost : readTo task s₀ path = .lost := (h.resolve_left hproj) path rfl
        have harrives := openNamei_arrives ht hw path 0o770
        rw [hlost] at harrives
        obtain ⟨s', r, hs', ⟨e, rfl⟩, hw'⟩ := harrives
        rw [if_neg hproj, hs']
        exact ⟨s', -1, rfl, hw'⟩

theorem sysFtok_leaks (ht : Tidy c s₀) (hw : Walks s₀ [] [] s) {call : Call}
    (hc : call.task = c) (h : ¬OpensNothing s₀ call) {r : UInt32}
    (hs' : sysFtok call.task s call.pathname call.proj_id = .ok (s', r)) :
    ∃ i, (s'.inode_table i).i_count = (s.inode_table i).i_count + 1 := by
  subst hc
  obtain ⟨task, pathname, proj_id⟩ := call
  obtain ⟨hproj, hread⟩ := not_or.mp h
  cases pathname with
  | none => exact absurd (fun _ hp => by cases hp) hread
  | some path =>
      have hlost : readTo task s₀ path ≠ .lost := fun hlost => hread fun _ hp =>
        (Option.mem_some_iff.mp hp) ▸ hlost
      have harrives := openNamei_arrives ht hw path 0o770
      unfold sysFtok at hs'
      dsimp only at hs'
      rw [if_neg hproj] at hs'
      cases hway : readTo task s₀ path with
      | lost => exact absurd hway hlost
      | leads dev nr =>
          rw [hway] at harrives
          obtain ⟨s₁, i, hs₁, hw₁, -⟩ := harrives
          rw [hs₁] at hs'
          obtain ⟨rfl, -⟩ := Prod.mk.inj (Except.ok.inj hs')
          refine ⟨i, ?_⟩
          rw [hw₁.count, hw.count]
          exact congrArg _ List.count_cons_self
      | crowded =>
          rw [hway] at harrives
          rw [show openNamei task s path O_RDONLY 0o770 = _ from harrives] at hs'
          cases hs'

/-- A run of any calls in a tidy tree keeps no reference, to an inode or to a buffer,
exactly when none of them opens anything: the path is a null pointer or leads to nothing
that may be read, or `proj_id` is 0. -/
theorem ftok_keeps_none (s : State) (calls : List Call) (ht : ∀ call ∈ calls, Tidy call.task s) :
    KeepsNone s calls ↔ ∀ call ∈ calls, OpensNothing s call := by
  have hrun : ∀ (calls : List Call) (s' : State), (∀ call ∈ calls, Tidy call.task s) →
      Walks s [] [] s' → (KeepsNone s' calls ↔ ∀ call ∈ calls, OpensNothing s call) := by
    intro calls
    induction calls with
    | nil => exact fun _ _ _ => ⟨fun _ _ hcall => absurd hcall List.not_mem_nil, fun _ => trivial⟩
    | cons call calls ih =>
        intro s' ht hw
        obtain ⟨htask, hrest⟩ := List.forall_mem_cons.mp ht
        rw [List.forall_mem_cons]
        constructor
        · rintro ⟨s₁, r, hs₁, hsame, hkeeps⟩
          have hnothing : OpensNothing s call := by
            by_contra hopens
            obtain ⟨i, hi⟩ := sysFtok_leaks htask hw rfl hopens hs₁
            rw [hsame.inodes] at hi
            exact absurd hi (Nat.ne_of_lt (Nat.lt_succ_self _))
          obtain ⟨s₂, r₂, hs₂, hw₂⟩ := sysFtok_keeps htask hw rfl hnothing
          obtain ⟨rfl, -⟩ := Prod.mk.inj (Except.ok.inj (hs₁.symm.trans hs₂))
          exact ⟨hnothing, (ih s₁ hrest hw₂).mp hkeeps⟩
        · rintro ⟨hnothing, hall⟩
          obtain ⟨s₁, r, hs₁, hw₁⟩ := sysFtok_keeps htask hw rfl hnothing
          exact ⟨s₁, r, hs₁, hw.sameCounts hw₁, (ih s₁ hrest hw₁).mpr hall⟩
  cases calls with
  | nil => exact ⟨fun _ _ hcall => absurd hcall List.not_mem_nil, fun _ => trivial⟩
  | cons call calls => exact hrun _ s ht (ht call (List.mem_cons_self ..)).start

theorem ftok_keeps_none_missing :
    KeepsNone rootState [⟨rootTask, some [47, 120], 1⟩, ⟨rootTask, none, 1⟩] := by
  refine (ftok_keeps_none rootState _ ?_).mpr ?_
  · intro call hcall
    rcases List.mem_cons.mp hcall with rfl | hcall
    · exact rootState_whole.toTidy
    · rw [List.mem_singleton.mp hcall]
      exact rootState_whole.toTidy
  · intro call hcall
    rcases List.mem_cons.mp hcall with rfl | hcall
    · refine .inr fun path hpath => ?_
      rw [← Option.mem_some_iff.mp hpath]
      decide +kernel
    · rw [List.mem_singleton.mp hcall]
      exact .inr fun path hpath => by cases hpath

/-- `ftok("/", 1)` leaves a reference to the root behind. -/
theorem not_ftok_keeps_none :
    Tidy rootTask rootState ∧ ¬KeepsNone rootState [⟨rootTask, some [47], 1⟩] := by
  refine ⟨rootState_whole.toTidy, ?_⟩
  rintro ⟨s', r, hs', hsame, -⟩
  have hcount : (sysFtok rootTask rootState (some [47]) 1).map (fun r =>
      (r.1.inode_table rootEntry).i_count) = .ok 5 := by
    decide +kernel
  rw [show sysFtok rootTask rootState (some [47]) 1 = _ from hs'] at hcount
  have hfour : (rootState.inode_table rootEntry).i_count = 4 := rfl
  have hfive : (s'.inode_table rootEntry).i_count = 5 := Except.ok.inj hcount
  rw [hsame.inodes, hfour] at hfive
  cases hfive

end Namei

end Linux011
