import Linux011.InodeTable

/-!
# The references to an inode

`i_count` is the number of the references that the tasks have. `iput` looks at it, truncates
the file, which takes many steps, and frees the inode; all the while `iget` may find the entry
in the table.

The count of an entry is compared with a sum over the tasks (`Counted`): what each of them holds
in its descriptors and directories, and what it has in hand at its place in `iget`, `new_inode`
or `iput`. A step of one task changes the count and its own part by the same amount, and the rest
of the sum stays (`tally`). From the sum follows that an entry which `iput` has seen with a count
of 1 is used by this task alone (`Counted.alone`). That it stays so while the file is truncated,
over many steps, is the second part (`Safe`): another task could only come to the entry through
the table, and the condition of the runs excludes an `iget` of its number there.
-/

namespace Linux011

open Function Runs Tally

namespace Inodes

variable {N : Nat} {s s' : State N} {t : Fin N}

/-- What is sure of the entries that belong to a task alone: the one that `get_empty_inode`
has given to it, and the one that it truncates. -/
structure Safe (s : State N) (pc : Pc) : Prop where
  owned : ∀ e, pc.Owns e → (s.inode_table e).i_count = 1 ∧ (s.inode_table e).i_dev = 0
  trunc : ∀ i back, pc = .trunc i back → (s.inode_table i).i_count = 1 ∧
    (s.inode_table i).i_nlinks = 0 ∧ (s.inode_table i).i_dev ≠ 0

structure Counted (s : State N) : Prop where
  i_count : ∀ i, (s.inode_table i).i_count = tally (Task.refs i) s.task
  safe : ∀ t, Safe s (s.task t).pc
  pend : ∀ t dev nr, (s.task t).pend = some (dev, nr) → dev ≠ 0
  i_mount : ∀ i, (s.inode_table i).i_mount ≠ some 0

/-- While an inode is truncated, no `iget` of its number goes through the table. -/
def Spared (s : State N) : Act N → Prop
  | .go t _ => ∀ e, (s.task t).pc.Scans e → ∀ t' i back, (s.task t').pc = .trunc i back →
      (s.task t).pend ≠ some ((s.inode_table i).i_dev, (s.inode_table i).i_num)
  | _ => True

theorem refs_held {i : Entry} (h : i ∈ (s.task t).held) : 0 < (s.task t).refs i :=
  Nat.lt_of_lt_of_le (List.count_pos_iff.mpr h) (Nat.le_add_right _ _)

theorem refs_owns {pc : Pc} {e : Entry} (h : pc.Owns e) : 0 < pc.refs e := by
  have hself : one e e = 1 := if_pos rfl
  cases pc with
  | user | empty | emptyWrite | read => exact h.elim
  | scan e' | wait e' i | alloc dev e' =>
      obtain rfl := h
      exact Nat.lt_of_lt_of_eq Nat.zero_lt_one hself.symm
  | put i back | write i back | trunc i back =>
      obtain rfl := h
      have hrefs : one e i + one e e > 0 := by omega
      exact hrefs

theorem refs_trunc {i : Entry} {back : Option Entry} : 0 < (Pc.trunc i back).refs i := by
  have hself : one i i = 1 := if_pos rfl
  have hrefs : one i i + back.elim 0 (one i) > 0 := by omega
  exact hrefs

/-- Nobody else has a reference to an entry that is in the hands of one task. -/
theorem Counted.alone (h : Counted s) {t' : Fin N} {i : Entry}
    (hone : (s.inode_table i).i_count = 1) (hpc : 0 < (s.task t').pc.refs i) (hne : t' ≠ t) :
    (s.task t).refs i = 0 := by
  have hle := add_le_tally (w := Task.refs i) (f := s.task) hne
  rw [← h.i_count, hone] at hle
  have hrefs : (s.task t').refs i = (s.task t').held.count i + (s.task t').pc.refs i := rfl
  omega

/-- Nor has this task another one. -/
theorem Counted.not_held (h : Counted s) {t' : Fin N} {i : Entry}
    (hone : (s.inode_table i).i_count = 1) (hpc : 0 < (s.task t').pc.refs i) :
    i ∉ (s.task t).held := by
  intro hheld
  rcases eq_or_ne t' t with rfl | hne
  · have hle := le_tally (Task.refs i) s.task t'
    rw [← h.i_count, hone] at hle
    have hcount := List.count_pos_iff.mpr hheld
    have hrefs : (s.task t').refs i = (s.task t').held.count i + (s.task t').pc.refs i := rfl
    omega
  · exact absurd (h.alone hone hpc hne) (Nat.ne_of_gt (refs_held hheld))

theorem Safe.keep {pc : Pc} (h : Safe s pc)
    (hkeep : ∀ j, (s.inode_table j).i_count = 1 → 0 < pc.refs j →
      Alike (s.inode_table j) (s'.inode_table j) ∧
        ((∃ back, pc = .trunc j back) → (s'.inode_table j).i_nlinks = (s.inode_table j).i_nlinks)) :
    Safe s' pc := by
  constructor
  · intro e he
    obtain ⟨hone, hdev⟩ := h.owned e he
    have halike := (hkeep e hone (refs_owns he)).1
    exact ⟨halike.i_count.trans hone, halike.i_dev.trans hdev⟩
  · rintro i back rfl
    obtain ⟨hone, hnlinks, hdev⟩ := h.trunc i back rfl
    obtain ⟨halike, hsame⟩ := hkeep i hone refs_trunc
    exact ⟨halike.i_count.trans hone, (hsame ⟨back, rfl⟩).trans hnlinks,
      fun heq => hdev (halike.i_dev.symm.trans heq)⟩

/-- The total of the references, when one task goes on. -/
theorem tally_goto (h : Counted s) {task : Task} {i : Entry} {n : Nat}
    (hn : n + (s.task t).refs i = (s.inode_table i).i_count + task.refs i) :
    n = tally (Task.refs i) (update s.task t task) := by
  have hmove := tally_update (Task.refs i) s.task t task
  rw [h.i_count] at hn
  omega

theorem Counted.goto (h : Counted s) {task : Task}
    (hrefs : ∀ j, task.refs j = (s.task t).refs j) (hsafe : Safe s task.pc)
    (hpend : ∀ dev nr, task.pend = some (dev, nr) → dev ≠ 0) : Counted (s.goto t task) := by
  refine ⟨fun i => tally_goto h (congrArg _ (hrefs i).symm), fun t' => ?_, fun t' => ?_,
    h.i_mount⟩
  · dsimp only [State.goto]
    rcases eq_or_ne t' t with rfl | hne
    · rw [update_self]
      exact ⟨hsafe.owned, hsafe.trunc⟩
    · rw [update_of_ne hne]
      exact ⟨(h.safe t').owned, (h.safe t').trunc⟩
  · dsimp only [State.goto]
    rcases eq_or_ne t' t with rfl | hne
    · rwa [update_self]
    · rw [update_of_ne hne]
      exact h.pend t'

/-- A task goes on and changes an entry that it has a reference to, or that is not in use. -/
theorem Counted.setGoto (h : Counted s) {i : Entry} {inode : MInode} {task : Task}
    (hcount : ∀ j, (update s.inode_table i inode j).i_count + (s.task t).refs j =
      (s.inode_table j).i_count + task.refs j)
    (hmine : 0 < (s.task t).refs i ∨ (s.inode_table i).i_count = 0 ∨
      Alike (s.inode_table i) inode ∧ inode.i_nlinks = (s.inode_table i).i_nlinks)
    (hself : Safe (s.set i inode) task.pc)
    (hpend : ∀ dev nr, task.pend = some (dev, nr) → dev ≠ 0)
    (hmount : inode.i_mount ≠ some 0) : Counted ((s.set i inode).goto t task) := by
  refine ⟨fun j => tally_goto h (hcount j), fun t' => ?_, fun t' => ?_, fun j => ?_⟩
  · dsimp only [State.goto]
    rcases eq_or_ne t' t with rfl | hne
    · rw [update_self]
      exact ⟨hself.owned, hself.trunc⟩
    · rw [update_of_ne hne]
      refine (h.safe t').keep fun j hone hpc => ?_
      dsimp only [State.goto, State.set]
      rcases eq_or_ne j i with rfl | hj
      · rw [update_self]
        rcases hmine with hrefs | hzero | ⟨halike, hnlinks⟩
        · exact absurd (h.alone hone hpc hne) (Nat.ne_of_gt hrefs)
        · omega
        · exact ⟨halike, fun _ => hnlinks⟩
      · rw [update_of_ne hj]
        exact ⟨Alike.rfl, fun _ => rfl⟩
  · dsimp only [State.goto]
    rcases eq_or_ne t' t with rfl | hne
    · rwa [update_self]
    · rw [update_of_ne hne]
      exact h.pend t'
  · dsimp only [State.goto, State.set]
    rcases eq_or_ne j i with rfl | hj
    · rwa [update_self]
    · rw [update_of_ne hj]
      exact h.i_mount j

theorem count_erase_one {i : Entry} {held : List Entry} (h : i ∈ held) (j : Entry) :
    (held.erase i).count j + one j i = held.count j := by
  rw [one]
  by_cases hj : i = j
  · subst hj
    have hpos := List.count_pos_iff.mpr h
    rw [if_pos rfl, List.count_erase_self]
    omega
  · rw [if_neg hj, List.count_erase_of_ne (Ne.symm hj), Nat.add_zero]

theorem safe_user : Safe s .user := ⟨fun _ he => he.elim, fun _ _ hpc => nomatch hpc⟩

theorem Scans.refs {pc : Pc} {e : Entry} (h : pc.Scans e) (j : Entry) : pc.refs j = one j e := by
  rcases h with rfl | ⟨i, rfl⟩ <;> rfl

theorem Scans.owns {pc : Pc} {e : Entry} (h : pc.Scans e) : pc.Owns e := by
  rcases h with rfl | ⟨i, rfl⟩ <;> exact Eq.refl e

/-- A task gives up its reference, for the count. -/
theorem Counted.drop (h : Counted s) {i : Entry} {back : Option Entry}
    (hpc : (s.task t).pc = .put i back) (hcount : (s.inode_table i).i_count ≠ 0) :
    Counted (s.drop t i back) := by
  have hrefs : ∀ j, (s.task t).refs j =
      (s.task t).held.count j + (one j i + back.elim 0 (one j)) := by
    intro j
    rw [Task.refs, hpc]
    rfl
  have hself : one i i = 1 := if_pos rfl
  have hback : ∀ j, (backTo back).refs j = back.elim 0 (one j) := by
    intro j
    cases back <;> rfl
  refine h.setGoto (fun j => ?_) (.inl ?_) ⟨fun e he => ?_, fun j back' hpc' => ?_⟩ (h.pend t)
    (h.i_mount i)
  · rw [hrefs]
    dsimp only [Task.refs, State.set]
    rw [hback]
    rcases eq_or_ne j i with rfl | hne
    · rw [update_self]
      dsimp only
      omega
    · have hzero : one j i = 0 := if_neg hne.symm
      rw [update_of_ne hne]
      omega
  · rw [hrefs]
    omega
  · cases back with
    | none => exact he.elim
    | some e' =>
        obtain rfl : e' = e := he
        have howns : (s.task t).pc.Owns e' := by
          rw [hpc]
          rfl
        obtain ⟨hone, hdev⟩ := (h.safe t).owned e' howns
        -- `e'` has this task's reference only, so it is not `i`
        have hne : e' ≠ i := by
          rintro rfl
          have hle := le_tally (Task.refs e') s.task t
          have helim : (some e').elim 0 (one e') = 1 := hself
          rw [← h.i_count, hrefs] at hle
          omega
        dsimp only [State.set]
        rw [update_of_ne hne]
        exact ⟨hone, hdev⟩
  · cases back <;> cases hpc'

theorem Counted.hit (h : Counted s) {e i : Entry} {dev nr : Nat} (hpc : (s.task t).pc.Scans e)
    (hpend : (s.task t).pend = some (dev, nr)) (his : (s.inode_table i).Is dev nr)
    (hspared : ∀ t' i back, (s.task t').pc = .trunc i back →
      (s.task t).pend ≠ some ((s.inode_table i).i_dev, (s.inode_table i).i_num)) :
    Counted (s.hit t e i) := by
  obtain ⟨hone, hdev⟩ := (h.safe t).owned e (Scans.owns hpc)
  have hdevi : (s.inode_table i).i_dev ≠ 0 := fun heq =>
    h.pend t dev nr hpend (his.1.symm.trans heq)
  have hei : e ≠ i := by
    rintro rfl
    exact hdevi hdev
  have hrefs : ∀ j, (s.task t).refs j = (s.task t).held.count j + one j e := fun j =>
    congrArg _ (Scans.refs hpc j)
  -- nobody relies on the entry: it is not given to a task, and not truncated
  have hothers : ∀ {s' : State N} {t'}, t' ≠ t → (∀ j, j ≠ i → j ≠ e →
      s'.inode_table j = s.inode_table j) → Safe s' (s.task t').pc := by
    intro s' t' hne hsame
    constructor
    · intro e' he'
      obtain ⟨hone', hdev'⟩ := (h.safe t').owned e' he'
      have hi : e' ≠ i := by
        rintro rfl
        exact hdevi hdev'
      have he : e' ≠ e := by
        rintro rfl
        have halone := h.alone hone' (refs_owns he') hne
        rw [hrefs, one, if_pos rfl] at halone
        omega
      rw [hsame e' hi he]
      exact ⟨hone', hdev'⟩
    · intro j back htrunc
      have hi : j ≠ i := by
        rintro rfl
        exact hspared t' j back htrunc (hpend.trans (by rw [his.1, his.2]))
      have hje : j ≠ e := by
        rintro rfl
        exact ((h.safe t').trunc j back htrunc).2.2 hdev
      rw [hsame j hi hje]
      exact (h.safe t').trunc j back htrunc
  unfold State.hit
  dsimp only
  split
  · rename_i dev' hmount
    refine ⟨fun j => tally_goto h ?_, fun t' => ?_, fun t' => ?_, fun j => ?_⟩
    · rw [hrefs]
      dsimp only [State.goto, State.set, Task.refs, Pc.refs, Option.elim]
      rcases eq_or_ne j i with rfl | hne
      · rw [update_self, show one j j = 1 from if_pos rfl]
        dsimp only
        omega
      · rw [update_of_ne hne, show one j i = 0 from if_neg hne.symm]
        omega
    · dsimp only [State.goto, State.set]
      rcases eq_or_ne t' t with rfl | hne
      · rw [update_self]
        refine ⟨fun e' he' => ?_, fun _ _ hpc' => by cases hpc'⟩
        obtain rfl := Option.some.inj he'
        dsimp only
        rw [update_of_ne hei]
        exact ⟨hone, hdev⟩
      · rw [update_of_ne hne]
        exact hothers hne fun j hj _ => update_of_ne hj _ _
    · dsimp only [State.goto, State.set]
      rcases eq_or_ne t' t with rfl | hne
      · rw [update_self]
        rintro _ _ hnew rfl
        obtain ⟨rfl, -⟩ := Prod.mk.inj (Option.some.inj hnew)
        exact h.i_mount i hmount
      · rw [update_of_ne hne]
        exact h.pend t'
    · dsimp only [State.goto, State.set]
      rcases eq_or_ne j i with rfl | hne
      · rw [update_self]
        exact h.i_mount j
      · rw [update_of_ne hne]
        exact h.i_mount j
  · refine ⟨fun j => tally_goto h ?_, fun t' => ?_, fun t' => ?_, fun j => ?_⟩
    · rw [hrefs]
      dsimp only [State.goto, State.set, Task.refs, Pc.refs]
      rw [count_cons_one]
      rcases eq_or_ne j e with rfl | hje
      · rw [update_self, update_of_ne hei]
        dsimp only
        rw [show one j j = 1 from if_pos rfl, show one j i = 0 from if_neg hei.symm]
        omega
      · rw [update_of_ne hje, show one j e = 0 from if_neg hje.symm]
        rcases eq_or_ne j i with rfl | hne
        · rw [update_self, show one j j = 1 from if_pos rfl]
          dsimp only
          omega
        · rw [update_of_ne hne, show one j i = 0 from if_neg hne.symm]
    · dsimp only [State.goto, State.set]
      rcases eq_or_ne t' t with rfl | hne
      · rw [update_self]
        exact safe_user
      · rw [update_of_ne hne]
        refine hothers hne fun j hj hje => ?_
        dsimp only
        rw [update_of_ne hje, update_of_ne hj]
    · dsimp only [State.goto, State.set]
      rcases eq_or_ne t' t with rfl | hne
      · rw [update_self]
        intro _ _ hnew
        cases hnew
      · rw [update_of_ne hne]
        exact h.pend t'
    · dsimp only [State.goto, State.set]
      rcases eq_or_ne j e with rfl | hje
      · rw [update_self, update_of_ne hei]
        exact h.i_mount j
      · rw [update_of_ne hje]
        rcases eq_or_ne j i with rfl | hne
        · rw [update_self]
          exact h.i_mount j
        · rw [update_of_ne hne]
          exact h.i_mount j

theorem Counted.withMap (h : Counted s) (imap : Nat → Nat → Bool) :
    Counted { s with imap := imap } :=
  ⟨h.i_count, fun t => ⟨(h.safe t).owned, (h.safe t).trunc⟩, h.pend, h.i_mount⟩

theorem Counted.take (h : Counted s) {caller : Caller} {i : Entry}
    (hpc : (s.task t).pc = .empty caller i) (hcount : (s.inode_table i).i_count = 0) :
    Counted ((s.set i { MInode.zero with i_count := 1 }).moveTo t (caller.pc i)) := by
  refine h.setGoto (fun j => ?_) (.inr (.inl hcount)) ⟨fun e he => ?_, fun j back hpc' => ?_⟩
    (h.pend t) fun hmount => by cases hmount
  · have hrefs : (s.task t).refs j = (s.task t).held.count j := by
      rw [Task.refs, hpc]
      rfl
    have hcaller : (caller.pc i).refs j = one j i := by
      cases caller <;> rfl
    rw [hrefs]
    dsimp only [Task.refs, State.set]
    rw [hcaller]
    rcases eq_or_ne j i with rfl | hne
    · rw [update_self, hcount, show one j j = 1 from if_pos rfl]
      dsimp only
      omega
    · rw [update_of_ne hne, show one j i = 0 from if_neg hne.symm]
      rfl
  · have hei : e = i := by
      cases caller <;> exact Eq.symm he
    subst hei
    dsimp only [State.set]
    rw [update_self]
    exact ⟨rfl, rfl⟩
  · cases caller <;> cases hpc'

theorem Counted.bind (h : Counted s) {e : Entry} {dev nr : Nat} (hpc : (s.task t).pc.Scans e) :
    Counted ((s.set e { s.inode_table e with i_dev := dev, i_num := nr, i_lock := true }).moveTo t
      (.read e)) := by
  have hrefs : ∀ j, (s.task t).refs j = (s.task t).held.count j + one j e := fun j =>
    congrArg _ (Scans.refs hpc j)
  refine h.setGoto (fun j => ?_) (.inl ?_) ⟨fun _ he => he.elim, fun _ _ hpc' => by cases hpc'⟩
    (h.pend t) (h.i_mount e)
  · rw [hrefs]
    dsimp only [Task.refs, State.set, Pc.refs]
    rcases eq_or_ne j e with rfl | hne
    · rw [update_self]
    · rw [update_of_ne hne]
  · rw [hrefs, show one e e = 1 from if_pos rfl]
    omega

theorem Counted.alloc (h : Counted s) {dev : Nat} {e : Entry}
    (hpc : (s.task t).pc = .alloc dev e) : Counted (s.alloc t dev e) := by
  have howns : (s.task t).pc.Owns e := by
    rw [hpc]
    rfl
  obtain ⟨hone, -⟩ := (h.safe t).owned e howns
  have hrefs : ∀ j, (s.task t).refs j = (s.task t).held.count j + one j e := by
    intro j
    rw [Task.refs, hpc]
    rfl
  have hmine : 0 < (s.task t).refs e := by
    rw [hrefs, show one e e = 1 from if_pos rfl]
    omega
  unfold State.alloc
  split
  · rename_i j _
    refine (h.withMap _).setGoto (fun k => ?_) (.inl hmine) ⟨fun _ he => he.elim, fun _ _ hpc' => by
      cases hpc'⟩ (h.pend t) (h.i_mount e)
    dsimp only
    rw [hrefs]
    dsimp only [Task.refs, State.set, Pc.refs, MInode.created]
    rw [count_cons_one]
    rcases eq_or_ne k e with rfl | hne
    · rw [update_self, hone]
      rfl
    · rw [update_of_ne hne]
      rfl
  · refine h.setGoto (fun k => ?_) (.inl hmine) ⟨fun _ he => he.elim, fun _ _ hpc' => by
      cases hpc'⟩ (h.pend t) (h.i_mount e)
    rw [hrefs]
    dsimp only [Task.refs, State.set, Pc.refs]
    rcases eq_or_ne k e with rfl | hne
    · rw [update_self, show one k k = 1 from if_pos rfl, hone]
      dsimp only
      omega
    · rw [update_of_ne hne, show one k e = 0 from if_neg hne.symm]

theorem Counted.free (h : Counted s) {i : Entry} {back : Option Entry}
    (hpc : (s.task t).pc = .trunc i back) (hfree : s.free t i back = some s') : Counted s' := by
  obtain ⟨hone, -, hdev⟩ := (h.safe t).trunc i back hpc
  have hrefs : ∀ j, (s.task t).refs j =
      (s.task t).held.count j + (one j i + back.elim 0 (one j)) := by
    intro j
    rw [Task.refs, hpc]
    rfl
  have hself : one i i = 1 := if_pos rfl
  have hback : ∀ j, (backTo back).refs j = back.elim 0 (one j) := by
    intro j
    cases back <;> rfl
  have hle := le_tally (Task.refs i) s.task t
  rw [← h.i_count, hrefs] at hle
  unfold State.free at hfree
  dsimp only at hfree
  rw [if_neg hdev] at hfree
  split at hfree
  · cases hfree
  · obtain rfl := Option.some.inj hfree
    refine (h.withMap _).setGoto (fun j => ?_) (.inl ?_) ⟨fun e he => ?_, fun j back' hpc' => ?_⟩
      (h.pend t) fun hmount => by cases hmount
    · dsimp only
      rw [hrefs]
      dsimp only [Task.refs, State.set]
      rw [hback]
      rcases eq_or_ne j i with rfl | hne
      · rw [update_self]
        dsimp only [MInode.zero]
        omega
      · have hzero : one j i = 0 := if_neg hne.symm
        rw [update_of_ne hne]
        omega
    · dsimp only
      rw [hrefs]
      omega
    · cases back with
      | none => exact he.elim
      | some e' =>
          obtain rfl : e' = e := he
          have howns : (s.task t).pc.Owns e' := by
            rw [hpc]
            rfl
          obtain ⟨hone', hdev'⟩ := (h.safe t).owned e' howns
          have hne : e' ≠ i := by
            rintro rfl
            exact hdev hdev'
          dsimp only [State.set]
          rw [update_of_ne hne]
          exact ⟨hone', hdev'⟩
    · cases back <;> cases hpc'

theorem Counted.share (h : Counted s) {t' : Fin N} {i : Entry} (hheld : i ∈ (s.task t).held) :
    Counted ((s.set i
      { s.inode_table i with i_count := (s.inode_table i).i_count + 1 }).goto t'
        { s.task t' with held := i :: (s.task t').held }) := by
  have hkeep : ∀ t'', Safe (s.set i
      { s.inode_table i with i_count := (s.inode_table i).i_count + 1 }) (s.task t'').pc := by
    intro t''
    refine (h.safe t'').keep fun j hone hpc => ?_
    have hne : j ≠ i := by
      rintro rfl
      exact h.not_held hone hpc hheld
    dsimp only [State.set]
    rw [update_of_ne hne]
    exact ⟨Alike.rfl, fun _ => rfl⟩
  refine ⟨fun j => tally_goto h ?_, fun t'' => ?_, fun t'' => ?_, fun j => ?_⟩
  · dsimp only [State.goto, State.set, Task.refs]
    rw [count_cons_one]
    rcases eq_or_ne j i with rfl | hne
    · rw [update_self, show one j j = 1 from if_pos rfl]
      dsimp only
      omega
    · rw [update_of_ne hne, show one j i = 0 from if_neg hne.symm]
      omega
  · dsimp only [State.goto]
    rcases eq_or_ne t'' t' with rfl | hne
    · rw [update_self]
      exact ⟨(hkeep t'').owned, (hkeep t'').trunc⟩
    · rw [update_of_ne hne]
      exact ⟨(hkeep t'').owned, (hkeep t'').trunc⟩
  · dsimp only [State.goto]
    rcases eq_or_ne t'' t' with rfl | hne
    · rw [update_self]
      exact h.pend t''
    · rw [update_of_ne hne]
      exact h.pend t''
  · dsimp only [State.goto, State.set]
    rcases eq_or_ne j i with rfl | hne
    · rw [update_self]
      exact h.i_mount j
    · rw [update_of_ne hne]
      exact h.i_mount j

theorem Counted.effect {a : Act N} (h : Counted s) (hok : Spared s a) (he : Effect s a s') :
    Counted s' := by
  cases he with
  | look t dev nr hpc hne =>
      refine h.goto (fun _ => rfl) (h.safe t) fun dev' nr' hpend => ?_
      obtain ⟨rfl, -⟩ := Prod.mk.inj (Option.some.inj hpend)
      exact hne
  | search _ t caller i last hpc =>
      have hlast : Counted { s with last_inode := last } :=
        ⟨h.i_count, fun t => ⟨(h.safe t).owned, (h.safe t).trunc⟩, h.pend, h.i_mount⟩
      refine hlast.goto (fun j => ?_) ⟨fun _ he => he.elim, fun _ _ hpc' => by cases hpc'⟩
        (h.pend t)
      dsimp only [Task.refs]
      rcases hpc with hpc | ⟨caller', i', hpc⟩
      · rw [hpc]
        rfl
      · rw [hpc]
        rfl
  | iput t i hpc hheld =>
      have hsafe : Safe s (.put i none) :=
        ⟨fun _ he => (Option.some_ne_none _ he.symm).elim, fun _ _ hpc' => by cases hpc'⟩
      refine h.goto (fun j => ?_) hsafe (h.pend t)
      have herase := count_erase_one hheld j
      dsimp only [Task.refs, Pc.refs, Option.elim]
      rw [hpc]
      dsimp only [Pc.refs]
      omega
  | wait t n e i hpc =>
      refine h.goto (fun j => ?_) ⟨fun e' he' => ?_, fun _ _ hpc' => by cases hpc'⟩ (h.pend t)
      · dsimp only [Task.refs]
        rw [Scans.refs hpc]
        rfl
      · obtain rfl : e = e' := he'
        exact (h.safe t).owned e (Scans.owns hpc)
  | trunc t n i back hpc hone hdev hnlinks =>
      refine h.goto (fun j => ?_) ⟨fun e he => ?_, fun j back' hpc' => ?_⟩ (h.pend t)
      · dsimp only [Task.refs]
        rw [hpc]
        rfl
      · refine (h.safe t).owned e ?_
        rw [hpc]
        exact he
      · obtain ⟨rfl, -⟩ := Pc.trunc.inj hpc'
        exact ⟨hone, hnlinks, hdev⟩
  | mark _ t i inode task hmarked hrefs howns hpend htrunc =>
      have hkeep : Safe (s.set i inode) task.pc := by
        constructor
        · intro e he
          obtain ⟨hone, hdev⟩ := (h.safe t).owned e (howns e he)
          dsimp only [State.set]
          rcases eq_or_ne e i with rfl | hne
          · rw [update_self]
            exact ⟨hmarked.alike.i_count.trans hone, hmarked.alike.i_dev.trans hdev⟩
          · rw [update_of_ne hne]
            exact ⟨hone, hdev⟩
        · intro j back hpc
          have hpc := htrunc j back hpc
          obtain ⟨hone, hnlinks, hdev⟩ := (h.safe t).trunc j back hpc
          dsimp only [State.set]
          rcases eq_or_ne j i with rfl | hne
          · rw [update_self]
            refine ⟨hmarked.alike.i_count.trans hone, ?_, fun heq =>
              hdev (hmarked.alike.i_dev.symm.trans heq)⟩
            rcases hmarked.i_nlinks with hsame | hheld | hread
            · exact hsame.trans hnlinks
            · have hpos : 0 < (s.task t).pc.refs j := hpc ▸ refs_trunc
              exact absurd hheld (h.not_held hone hpos)
            · rw [hpc] at hread
              cases hread
          · rw [update_of_ne hne]
            exact ⟨hone, hnlinks, hdev⟩
      refine h.setGoto (fun j => ?_) ?_ hkeep (fun dev nr hnew => ?_) fun hmount => ?_
      · rw [hrefs]
        rcases eq_or_ne j i with rfl | hne
        · rw [update_self, hmarked.alike.i_count]
        · rw [update_of_ne hne]
      · rcases hmarked.i_nlinks with hsame | hheld | hread
        · exact .inr (.inr ⟨hmarked.alike, hsame⟩)
        · exact .inl (refs_held hheld)
        · refine .inl ?_
          have hone : one i i = 1 := if_pos rfl
          rw [Task.refs, hread, Pc.refs]
          omega
      · rcases hpend with hsame | hnone
        · exact h.pend t dev nr (hsame.symm.trans hnew)
        · rw [hnone] at hnew
          cases hnew
      · exact h.i_mount i (hmarked.i_mount.symm.trans hmount)
  | mount t i dev hheld hne =>
      refine ⟨fun j => ?_, fun t' => (h.safe t').keep fun j _ _ => ?_, h.pend, fun j => ?_⟩
      · refine Eq.trans ?_ (h.i_count j)
        dsimp only [State.set]
        rcases eq_or_ne j i with rfl | hji
        · rw [update_self]
        · rw [update_of_ne hji]
      · dsimp only [State.set]
        rcases eq_or_ne j i with rfl | hji
        · rw [update_self]
          exact ⟨⟨rfl, rfl, rfl⟩, fun _ => rfl⟩
        · rw [update_of_ne hji]
          exact ⟨Alike.rfl, fun _ => rfl⟩
      · dsimp only [State.set]
        rcases eq_or_ne j i with rfl | hji
        · rw [update_self]
          exact hne
        · rw [update_of_ne hji]
          exact h.i_mount j
  | share t t' i hheld => exact h.share hheld
  | take t n caller i hpc hcount => exact h.take hpc hcount
  | bind t n e dev nr hpc hpend hnone => exact h.bind hpc
  | hit t n e i dev nr hpc hpend his =>
      exact h.hit hpc hpend his fun t' j back htrunc => hok e hpc t' j back htrunc
  | alloc t n dev e hpc => exact h.alloc hpc
  | drop t n i back hpc hcount => exact h.drop hpc hcount
  | free t n i back _ hpc hfree => exact h.free hpc hfree

theorem boot_counted (imap : Nat → Nat → Bool) (s_ninodes : Nat → Nat) :
    Counted (boot N imap s_ninodes) where
  i_count := fun _ => (tally_eq_zero fun _ => rfl).symm
  safe := fun _ => safe_user
  pend := fun _ _ _ hpend => nomatch hpend
  i_mount := fun _ hmount => nomatch hmount

/-- Any number of tasks, in any order of their steps: if no `iget` finds an inode in the
table that an `iput` truncates, then `free_inode` does not panic, the inode that it
frees is used by nobody else, and what the tasks hold is in use. The truncation takes
many steps between the test of the count and the free. -/
theorem free_alone {imap : Nat → Nat → Bool} {s_ninodes : Nat → Nat}
    (h : Reach step Spared (boot N imap s_ninodes) s) :
    (∀ t i back, (s.task t).pc = .trunc i back → ¬ (s.inode_table i).Panics ∧
      i ∉ (s.task t).held ∧ ∀ t', t' ≠ t → (s.task t').refs i = 0) ∧
      ∀ t i, 0 < (s.task t).refs i → 0 < (s.inode_table i).i_count := by
  have hcounted : Counted s := h.invariant (boot_counted imap s_ninodes)
    fun _ _ _ hi hok hs => hi.effect hok (step_effect hs)
  refine ⟨fun t i back hpc => ?_, fun t i hrefs => ?_⟩
  · obtain ⟨hone, hnlinks, -⟩ := (hcounted.safe t).trunc i back hpc
    have hpos : 0 < (s.task t).pc.refs i := hpc ▸ refs_trunc
    refine ⟨?_, hcounted.not_held hone hpos, fun t' hne => hcounted.alone hone hpos hne.symm⟩
    rintro (hmany | hlinks)
    · omega
    · exact hlinks hnlinks
  · have hle := le_tally (Task.refs i) s.task t
    rw [← hcounted.i_count] at hle
    omega

theorem free_alone_six : ∃ s : State 1,
    exec step (boot 1 six eight) [.look 0 1 5, .iget 0, .go 0 0, .go 0 0, .go 0 1,
      .links 0 (entry 1) 0, .iput 0 (entry 1), .go 0 0] = some s ∧
      (s.task 0).pc = .trunc (entry 1) none ∧ ¬ (s.inode_table (entry 1)).Panics := by
  have hok : ∀ {s : State 1} {n : UInt8}, (∀ i back, (s.task 0).pc ≠ .trunc i back) →
      Spared s (.go 0 n) := by
    intro s n hno e _ t' i back htrunc
    obtain rfl : t' = 0 := Subsingleton.elim t' 0
    exact absurd htrunc (hno i back)
  have h₁ : Reach step Spared (boot 1 six eight) (boot 1 six eight) := .start
  have h₂ := h₁.next (a := Act.look 0 1 5) trivial rfl
  have h₃ := h₂.next (a := Act.iget 0) trivial rfl
  have h₄ := h₃.next (a := Act.go 0 0) (hok fun _ _ hpc => nomatch hpc) rfl
  have h₅ := h₄.next (a := Act.go 0 0) (hok fun _ _ hpc => nomatch hpc) rfl
  have h₆ := h₅.next (a := Act.go 0 1) (hok fun _ _ hpc => nomatch hpc) rfl
  have h₇ := h₆.next (a := Act.links 0 (entry 1) 0) trivial rfl
  have h₈ := h₇.next (a := Act.iput 0 (entry 1)) trivial rfl
  have h₉ := h₈.next (a := Act.go 0 0) (hok fun _ _ hpc => nomatch hpc) rfl
  exact ⟨_, rfl, rfl, ((free_alone h₉).1 0 (entry 1) none rfl).1⟩

/-- `iput` has seen that nobody else uses the inode, and truncates it; meanwhile `iget` finds
it in the table. -/
theorem not_free_alone :
    ¬ ∀ {N : Nat} {imap : Nat → Nat → Bool} {s_ninodes : Nat → Nat} {s : State N},
      Reach step Free (boot N imap s_ninodes) s →
        (∀ t i back, (s.task t).pc = .trunc i back → ¬ (s.inode_table i).Panics ∧
          i ∉ (s.task t).held ∧ ∀ t', t' ≠ t → (s.task t').refs i = 0) ∧
          ∀ t i, 0 < (s.task t).refs i → 0 < (s.inode_table i).i_count := by
  intro h
  have hrun : ∃ s, exec step (boot 2 six eight) [
      -- task 0 has a directory that is to be written, and has read the number of the file
      .look 0 1 2, .iget 0, .go 0 0, .go 0 0, .go 0 1, .links 0 (entry 1) 1,
      .look 0 1 5, .iput 0 (entry 1), .go 0 0,
      -- task 1 removes the file
      .look 1 1 5, .iget 1, .go 1 0, .go 1 0, .go 1 1, .links 1 (entry 2) 0,
      .iput 1 (entry 2), .go 1 0,
      -- task 0 gets it
      .go 0 0, .go 0 0, .iget 0, .go 0 0, .go 0 0] = some s ∧
      (s.task 1).pc = .trunc (entry 2) none ∧ (s.inode_table (entry 2)).i_count = 2 :=
    ⟨_, rfl, rfl, rfl⟩
  obtain ⟨s, hexec, hpc, hcount⟩ := hrun
  exact ((h (exec_reach hexec)).1 1 _ _ hpc).1 (.inl (by omega))

end Inodes

end Linux011
