import Linux011.Sem
import Linux011.SleepOn

/-!
# Unlinking with sleepers

Opens and unlinks between waits and posts. `sys_sem_unlink` frees a slot when its open count
reaches 0 and `sys_sem_open` fills a free slot; both store a null `wait`, and neither looks
whether somebody sleeps there. As long as that pointer was null anyway, every sleeper can be
reached (`none_stranded`); the first time it was not, the task it pointed at is lost
(`clears_strands`).

The invariant is that of `Sem`, a well-formed wait queue in every slot, with the addition that
tasks only sleep on slots of the table. A step of a wait or a post keeps it by the lemmas there.
A slot that is freed or filled gets a null `wait`, and if it had a null `wait` before, its queue
has not changed (`QueuesOk.of_wait`); this is the condition of the runs. What the invariant gives
for one slot is then put together for all of them (`noneStranded`), where the `tmp` of a task
belongs to the one slot it is inside of. The condition is exact in the strong sense of
`clears_strands`: if a step clears a pointer that was not null, the task that it pointed at is
asleep and cannot be reached any more.
-/

namespace Linux011

open Function Links Runs

section Table

variable {T : Type} {a : SemArray T} {name : Option (Nat → UInt8)}

/-- The free slot that `sys_sem_open` is about to fill. -/
def createdSlot (a : SemArray T) (name : Option (Nat → UInt8)) (oflag : Nat) : Option Nat :=
  name.bind fun name =>
    match findSlot fun i => sameName (kername name) (a i).name with
    | some _ => none
    | none => if oflag &&& O_CREAT ≠ 0 then findSlot fun i => (a i).sem == 0 else none

/-- The slot whose open count `sys_sem_unlink` is about to make 0. -/
def freedSlot (a : SemArray T) (name : Option (Nat → UInt8)) : Option Nat :=
  name.bind fun name =>
    (findSlot fun i => sameName (kername name) (a i).name).filter fun i => (a i).cont - 1 == 0

theorem sysSemOpen_wait (oflag : Nat) (value : BitVec 32) (i : Nat) :
    ((sysSemOpen a name oflag value).2 i).wait
      = if createdSlot a name oflag = some i then none else (a i).wait := by
  cases name with
  | none => simp [createdSlot, sysSemOpen]
  | some name =>
      cases hf : findSlot fun i => sameName (kername name) (a i).name with
      | some k =>
          have hc : createdSlot a (some name) oflag = none := by simp [createdSlot, hf]
          rw [hc, if_neg (by simp)]
          simp only [sysSemOpen, hf]
          split
          · rfl
          · rcases eq_or_ne i k with rfl | hik
            · simp
            · simp [hik]
      | none =>
          by_cases hflag : oflag &&& O_CREAT ≠ 0
          · have hc : createdSlot a (some name) oflag = findSlot fun i => (a i).sem == 0 := by
              simp [createdSlot, hf, hflag]
            rw [hc]
            simp only [sysSemOpen, hf, if_pos hflag]
            cases findSlot fun i => (a i).sem == 0 with
            | none => simp
            | some k =>
                rcases eq_or_ne i k with rfl | hik
                · simp
                · simp [hik, Ne.symm hik]
          · have hc : createdSlot a (some name) oflag = none := by
              simp only [createdSlot, Option.bind_some, hf, if_neg hflag]
            rw [hc, if_neg (by simp)]
            simp only [sysSemOpen, hf, if_neg hflag]

theorem sysSemUnlink_wait (i : Nat) :
    ((sysSemUnlink a name).2 i).wait
      = if freedSlot a name = some i then none else (a i).wait := by
  cases name with
  | none => simp [freedSlot, sysSemUnlink]
  | some name =>
      cases hf : findSlot fun i => sameName (kername name) (a i).name with
      | none => simp [freedSlot, sysSemUnlink, hf]
      | some k =>
          by_cases hcont : (a k).cont - 1 = 0
          · have hc : freedSlot a (some name) = some k := by simpa [freedSlot, hf] using hcont
            rw [hc]
            simp only [sysSemUnlink, hf, if_pos hcont]
            rcases eq_or_ne i k with rfl | hik
            · simp
            · simp [hik, Ne.symm hik]
          · have hc : freedSlot a (some name) = none := by simpa [freedSlot, hf] using hcont
            rw [hc, if_neg (by simp)]
            simp only [sysSemUnlink, hf, if_neg hcont]
            rcases eq_or_ne i k with rfl | hik
            · simp
            · simp [hik]

end Table

namespace SemState

variable {T : Type} {s s' : SemState T} {k : Nat} {t : T}

/-- The `tmp` of a task inside `sleep_on` (null outside). -/
def saved (s : SemState T) (t : T) : Option T := (s.stack t).bind Prod.snd

/-- The task sleeps inside `sys_sem_wait`. -/
def Asleep (s : SemState T) (t : T) : Prop := s.stack t ≠ none ∧ s.state t ≠ .running

/-- The wait pointer of some slot leads to the task. -/
def BehindWait (s : SemState T) (t : T) : Prop :=
  ∃ k < SEM_NUM, ∃ a, (s.semarray k).wait = some a ∧ Relation.ReflTransGen (Link s.saved) a t

/-- The `tmp` of a task that was made runnable leads to the task. -/
def BehindWoken (s : SemState T) (t : T) : Prop :=
  ∃ r, s.stack r ≠ none ∧ s.state r = .running ∧ Relation.TransGen (Link s.saved) r t

def NoneStranded (s : SemState T) : Prop :=
  ∀ t, s.Asleep t → s.BehindWait t ∨ s.BehindWoken t

/-- Tasks sleep on slots of the table. -/
def InTable (s : SemState T) : Prop := ∀ t k tmp, s.stack t = some (k, tmp) → k < SEM_NUM

theorem link_queue {r u : T} (h : Link (s.queue k).saved r u) : Link s.saved r u := by
  have htmp : (s.queue k).tmp r = some (some u) := Option.join_eq_some_iff.mp h
  rw [Link, saved, queue_tmp_some htmp]
  rfl

/-- A pointer of a task leads along the queue the task is in. -/
theorem queue_saved {r u : T} (h : Link s.saved r u) :
    ∃ j, (s.queue j).saved r = some u := by
  obtain ⟨⟨j, tmp⟩, hs, rfl⟩ := Option.bind_eq_some_iff.mp h
  exact ⟨j, by simp [WaitQueue.saved, queue, hs]⟩

theorem noneStranded (hs : s.QueuesOk) (hin : s.InTable) : s.NoneStranded := by
  rintro t ⟨hst, hrun⟩
  obtain ⟨⟨k, tmp⟩, hk⟩ := Option.ne_none_iff_exists'.mp hst
  have hinside : (s.queue k).Inside t := by simp [WaitQueue.Inside, queue, hk]
  have hasleep : (s.queue k).Asleep t :=
    ⟨hinside, ((hs k).state t hinside).resolve_left hrun⟩
  rcases (hs k).reach hasleep with ⟨a, ha, hpath⟩ | ⟨r, hr, hpath⟩
  · exact Or.inl ⟨k, hin t k tmp hk, a, ha,
      Relation.ReflTransGen.mono (fun _ _ => link_queue) _ _ hpath⟩
  · refine Or.inr ⟨r, fun hn => hr.1 (queue_tmp_none hn), hr.2, ?_⟩
    exact Relation.TransGen.mono (fun _ _ => link_queue) _ _ hpath

/-- The queues only depend on the wait pointers, the states and the stacks. -/
theorem QueuesOk.of_wait (hs : s.QueuesOk) {a : SemArray T}
    (hw : ∀ i, (a i).wait = (s.semarray i).wait) : QueuesOk { s with semarray := a } :=
  fun k => (hs k).frame (hw k) rfl fun _ _ => rfl

variable [DecidableEq T]

theorem tryWait_stack {initTask : T} (h : s.tryWait initTask k t = some s') {u : T} {j : Nat}
    {tmp : Option T} (hu : s'.stack u = some (j, tmp)) : j = k ∨ s.stack u = some (j, tmp) := by
  unfold SemState.tryWait at h
  split at h
  · obtain ⟨q, -, rfl⟩ := Option.map_eq_some_iff.mp h
    rcases eq_or_ne u t with rfl | hut
    · obtain ⟨_, -, he⟩ : ∃ x, q.tmp u = some x ∧ (k, x) = (j, tmp) := by
        simpa [SemState.withQueue] using hu
      exact Or.inl (congrArg Prod.fst he).symm
    · exact Or.inr (by simpa [SemState.withQueue, hut] using hu)
  · obtain rfl := Option.some.inj h
    exact Or.inr hu

theorem InTable.step {initTask : T} {a : Act T} (hs : s.InTable)
    (h : s.step initTask a = some s') : s'.InTable := by
  intro u j tmp hu
  cases a with
  | wait t h' =>
      simp only [SemState.step, Option.ite_none_right_eq_some, sysSemWait] at h
      obtain ⟨-, h⟩ := h
      split at h
      · obtain rfl := Option.some.inj h
        exact hs u j tmp hu
      · rename_i k hk
        obtain ⟨i, -, hk⟩ := Option.bind_eq_some_iff.mp hk
        rcases tryWait_stack h hu with rfl | hu
        · exact findSlot_lt hk
        · exact hs u j tmp hu
  | post t h' =>
      simp only [SemState.step, Option.ite_none_right_eq_some, Option.some.injEq,
        SemState.sysSemPost] at h
      obtain ⟨⟨-, ht⟩, rfl⟩ := h
      split at hu
      · exact hs u j tmp hu
      · rcases eq_or_ne u t with rfl | hut
        · simp [SemState.withQueue, queue, countPost, ht] at hu
        · exact hs u j tmp (by simpa [SemState.withQueue, countPost, hut] using hu)
  | resume t =>
      simp only [SemState.step] at h
      split at h
      · cases h
      · rename_i k tmp' ht
        split at h
        · rcases tryWait_stack h hu with rfl | hu
          · exact hs t j tmp' ht
          · rcases eq_or_ne u t with rfl | hut
            · rw [resume_stack] at hu
              cases hu
            · exact hs u j tmp (by simpa [SemState.withQueue, hut] using hu)
        · cases h

end SemState

namespace SemUnlink

variable {T : Type} [DecidableEq T] {s s' : SemState T} {initTask : T}

/-- A step of a wait or a post, or a task outside of the kernel opens or unlinks. -/
inductive Act (T : Type) where
  | sem (a : SemState.Act T)
  | semOpen (t : T) (name : Option (Nat → UInt8)) (oflag : Nat) (value : BitVec 32)
  | semUnlink (t : T) (name : Option (Nat → UInt8))

def step (initTask : T) (s : SemState T) : Act T → Option (SemState T)
  | .sem a => s.step initTask a
  | .semOpen t name oflag value =>
      if s.state t = .running ∧ s.stack t = none then
        some { s with semarray := (sysSemOpen s.semarray name oflag value).2 }
      else none
  | .semUnlink t name =>
      if s.state t = .running ∧ s.stack t = none then
        some { s with semarray := (sysSemUnlink s.semarray name).2 }
      else none

/-- The slot whose wait pointer the step is about to clear. -/
def cleared (s : SemState T) : Act T → Option Nat
  | .sem _ => none
  | .semOpen _ name oflag _ => createdSlot s.semarray name oflag
  | .semUnlink _ name => freedSlot s.semarray name

/-- A slot that is freed or filled has a null wait pointer. -/
def NobodyWaits (s : SemState T) (a : Act T) : Prop :=
  ∀ k ∈ cleared s a, (s.semarray k).wait = none

instance (s : SemState T) (a : Act T) : Decidable (NobodyWaits s a) := by
  unfold NobodyWaits
  infer_instance

/-- What a step does: one of the three steps of waiting tasks, or a new table in which
only the pointer of the cleared slot differs. -/
theorem step_cases {a : Act T} (h : step initTask s a = some s') :
    (∃ b, a = .sem b ∧ s.step initTask b = some s') ∨
    ∃ arr : SemArray T, s' = { s with semarray := arr } ∧
      ∀ i, (arr i).wait = if cleared s a = some i then none else (s.semarray i).wait := by
  cases a with
  | sem b => exact Or.inl ⟨b, rfl, h⟩
  | semOpen t name oflag value =>
      obtain ⟨-, h⟩ := Option.ite_none_right_eq_some.mp h
      exact Or.inr ⟨_, (Option.some.inj h).symm, sysSemOpen_wait oflag value⟩
  | semUnlink t name =>
      obtain ⟨-, h⟩ := Option.ite_none_right_eq_some.mp h
      exact Or.inr ⟨_, (Option.some.inj h).symm, sysSemUnlink_wait⟩

/-- What every good run keeps: well-formed queues, on slots of the table. -/
structure Inv (s : SemState T) : Prop where
  queues : s.QueuesOk
  table : s.InTable

omit [DecidableEq T] in
theorem inv_start (a : SemArray T) (state : T → TaskState) :
    Inv (SemState.start (sysInisem a) state) :=
  ⟨fun _ => WaitQueue.ok_empty rfl fun _ => rfl, fun _ _ _ h => by cases h⟩

theorem Inv.step {a : Act T} (hs : Inv s) (hok : NobodyWaits s a)
    (h : SemUnlink.step initTask s a = some s') : Inv s' := by
  rcases step_cases h with ⟨b, -, hb⟩ | ⟨arr, rfl, hw⟩
  · exact ⟨hs.queues.step hb, hs.table.step hb⟩
  · refine ⟨hs.queues.of_wait fun i => ?_, hs.table⟩
    rw [hw]
    split
    · rename_i hc
      exact (hok i hc).symm
    · rfl

/-- The condition is exact: the task that a cleared wait pointer pointed at is lost. -/
theorem clears_strands (initTask : T) {a : Act T} (hs : Inv s) (hbad : ¬NobodyWaits s a)
    (h : SemUnlink.step initTask s a = some s') : ¬s'.NoneStranded := by
  obtain ⟨k, hk, hne⟩ : ∃ k, cleared s a = some k ∧ (s.semarray k).wait ≠ none := by
    by_contra hno
    refine hbad fun k hk => ?_
    by_contra hne
    exact hno ⟨k, hk, hne⟩
  obtain ⟨t, ht⟩ := Option.ne_none_iff_exists'.mp hne
  have hasleep : (s.queue k).Asleep t := (hs.queues k).source_asleep (k := none) ht
  -- whatever points at the task is in the queue of the slot, where only the wait pointer does
  have honly : ∀ {j : Nat} {p : Option T}, (s.queue j).pointer p = some t → j = k ∧ p = none := by
    intro j p hp
    have hin : (s.queue j).Inside t := (hs.queues j).pointer_asleep hp |>.1
    obtain rfl := SemState.inside_unique hasleep.1 hin
    exact ⟨rfl, ((hs.queues j).target hasleep).unique hp ht⟩
  have hlink : ∀ r, ¬Link s.saved r t := fun r hr => by
    obtain ⟨j, hj⟩ := SemState.queue_saved hr
    cases (honly (j := j) (p := some r) hj).2
  rcases step_cases h with ⟨b, rfl, -⟩ | ⟨arr, rfl, hw⟩
  · cases hk
  · intro hnone
    have hstack : s.stack t ≠ none := fun hn => hasleep.1 (SemState.queue_tmp_none hn)
    have hrun : s.state t ≠ .running := fun hr => by
      have hu : s.state t = .uninterruptible := hasleep.2
      rw [hr] at hu
      cases hu
    rcases hnone t ⟨hstack, hrun⟩ with ⟨j, -, b, hb, hpath⟩ | ⟨r, -, -, hpath⟩
    · rcases hpath.cases_tail with e | ⟨r, -, hr⟩
      · have hj : (arr j).wait = some t := by rw [e, ← hb]
        rw [hw] at hj
        split at hj
        · cases hj
        · rename_i hjk
          exact hjk ((honly (p := none) hj).1 ▸ hk)
      · exact hlink r hr
    · obtain ⟨r', -, hr'⟩ := Relation.TransGen.tail'_iff.mp hpath
      exact hlink r' hr'

/-- **Unlinking strands nobody** in the runs in which a slot is only freed or filled
while its wait pointer is null: each sleeper is behind the wait pointer of a slot or
behind a task that is runnable again. -/
theorem none_stranded (initTask : T) (a : SemArray T) (state : T → TaskState)
    (h : Reach (step initTask) NobodyWaits (SemState.start (sysInisem a) state) s) :
    s.NoneStranded := by
  have hinv : Inv s :=
    h.invariant (inv_start a state) fun _ _ _ hs hok hstep => hs.step hok hstep
  exact SemState.noneStranded hinv.queues hinv.table

/-- The name "m". -/
def nameM : Option (Nat → UInt8) := some fun i => if i = 0 then 0x6d else 0

/-- Task 1 creates a semaphore of value 0, and task 2 waits on it. -/
def created : List (Act Nat) :=
  [.semOpen 1 nameM O_CREAT 0, .sem (.wait 2 (some 0))]

theorem none_stranded_created :
    ∃ s, exec (checked (step 0) NobodyWaits)
        (SemState.start (sysInisem semarrayBoot) fun _ => .running)
        (created ++ [.sem (.post 1 (some 0)), .sem (.resume 2), .semUnlink 1 nameM]) = some s ∧
      s.NoneStranded := by
  obtain ⟨s, hs, -⟩ : ∃ s, exec (checked (step 0) NobodyWaits)
      (SemState.start (sysInisem semarrayBoot) fun _ => .running)
      (created ++ [.sem (.post 1 (some 0)), .sem (.resume 2), .semUnlink 1 nameM]) = some s ∧
      True := exec_any (by decide)
  exact ⟨s, hs, none_stranded 0 semarrayBoot _ (exec_checked hs)⟩

/-- Unlinking while task 2 sleeps. -/
theorem not_none_stranded :
    ∃ s, exec (step 0) (SemState.start (sysInisem semarrayBoot) fun _ => .running)
        (created ++ [.semUnlink 1 nameM]) = some s ∧ ¬s.NoneStranded := by
  have hs : exec (checked (step 0) NobodyWaits)
      (SemState.start (sysInisem semarrayBoot) fun _ => .running) created = some _ := rfl
  have hinv : Inv _ := (exec_checked hs).invariant (inv_start semarrayBoot _)
    fun _ _ _ hs hok hstep => hs.step hok hstep
  exact ⟨_, rfl, clears_strands 0 (a := .semUnlink 1 nameM) hinv (by decide) rfl⟩

end SemUnlink

end Linux011
