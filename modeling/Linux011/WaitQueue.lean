import Linux011.Links

/-!
# Sleeping and waking on a wait pointer

`sleep_on` and `wake_up` of `kernel/sched.c`. The list of sleepers exists only
as the pointer `*p` and as the local `tmp` that each call of `sleep_on` keeps
on the kernel stack of its task, so the state of a queue is the pointer, the
`state` field of every task, and the saved `tmp` of every task inside
`sleep_on`. A call is cut at its `schedule()`: `sleepOn` is what runs before
the task is switched out and `sleepOnReturn` what runs once it is resumed.

`WaitQueue.Ok` is the invariant: the wait pointer and the saved pointers of the
resumable sleepers start disjoint chains through the saved pointers which
together hold exactly the tasks that are still asleep. All three operations
keep it.

The pointers from which sleepers are still to be woken are the `source`s: the
wait pointer, and the saved pointer of each task that is awake again but has not
yet returned. Entering puts a task in front of the chain of the wait pointer.
Waking the first sleeper of a chain takes the chain from its source to that
sleeper (`Ok.advance`), and both `wake_up` and the return of `sleep_on` do just
this. A task that is not inside sees nothing of the three operations, and a
caller may change its own state in between (`Ok.frame`). What comes of it for
the users: every sleeper can be reached from a source (`Ok.reach`), so that, as
long as somebody sleeps behind a null wait pointer, a task is awake that will go
on with the waking (`Ok.woken_of_wait_none`).
-/

namespace Linux011

open Function Links

/-- The `state` field of a task (`TASK_RUNNING` .. `TASK_STOPPED`). -/
inductive TaskState where
  | running
  | interruptible
  | uninterruptible
  | zombie
  | stopped
deriving Repr, DecidableEq

/-- One wait pointer with the tasks that use it. -/
structure WaitQueue (T : Type) where
  /-- `*p` -/
  wait : Option T
  /-- the `state` field of each task -/
  state : T → TaskState
  /-- the local `tmp` of each task that is inside `sleep_on(p)` -/
  tmp : T → Option (Option T)

namespace WaitQueue

variable {T : Type} [DecidableEq T] {q : WaitQueue T} {t r : T}

/-- `sleep_on`, up to its call of `schedule()`; `none` is the panic of task 0. -/
def sleepOn (initTask : T) (q : WaitQueue T) (current : T) : Option (WaitQueue T) :=
  if current = initTask then none
  else some
    { wait := some current
      state := update q.state current .uninterruptible
      tmp := update q.tmp current (some q.wait) }

/-- `sleep_on`, from the return of `schedule()` on. -/
def sleepOnReturn (q : WaitQueue T) (current : T) : WaitQueue T :=
  { wait := q.wait
    state :=
      match (q.tmp current).join with
      | some tmp => update q.state tmp .running
      | none => q.state
    tmp := update q.tmp current none }

def wakeUp (q : WaitQueue T) : WaitQueue T :=
  match q.wait with
  | some t => { q with wait := none, state := update q.state t .running }
  | none => q

@[simp] theorem wakeUp_wait (q : WaitQueue T) : q.wakeUp.wait = none := by
  cases hw : q.wait <;> simp [wakeUp, hw]

@[simp] theorem wakeUp_tmp (q : WaitQueue T) : q.wakeUp.tmp = q.tmp := by
  cases hw : q.wait <;> simp [wakeUp, hw]

@[simp] theorem sleepOnReturn_wait (q : WaitQueue T) (t : T) :
    (q.sleepOnReturn t).wait = q.wait := rfl

@[simp] theorem sleepOnReturn_tmp (q : WaitQueue T) (t : T) :
    (q.sleepOnReturn t).tmp = update q.tmp t none := rfl

/-! ## The invariant -/

/-- The pointer a task keeps in its `tmp` (null outside `sleep_on`). -/
def saved (q : WaitQueue T) (t : T) : Option T := (q.tmp t).join

/-- The task has entered `sleep_on(p)` and not left it. -/
def Inside (q : WaitQueue T) (t : T) : Prop := q.tmp t ≠ none

def Asleep (q : WaitQueue T) (t : T) : Prop :=
  q.Inside t ∧ q.state t = .uninterruptible

/-- The task is inside `sleep_on(p)` and already runnable again. -/
def Woken (q : WaitQueue T) (t : T) : Prop := q.Inside t ∧ q.state t = .running

instance : Decidable (q.Inside t) := by unfold Inside; infer_instance
instance : Decidable (q.Asleep t) := by unfold Asleep; infer_instance
instance : Decidable (q.Woken t) := by unfold Woken; infer_instance

/-- The pointers from which sleepers are still to be woken: the wait pointer
(`none`) and the saved pointer of each woken task. -/
def source (q : WaitQueue T) : Option T → Option T
  | none => q.wait
  | some r => if q.Woken r then q.saved r else none

omit [DecidableEq T] in
theorem source_congr {q' : WaitQueue T} (hw : q'.Woken r ↔ q.Woken r)
    (hs : q'.saved r = q.saved r) : q'.source (some r) = q.source (some r) := by
  by_cases h : q.Woken r
  · rw [source, source, if_pos h, if_pos (hw.mpr h), hs]
  · rw [source, source, if_neg h, if_neg fun h' => h (hw.mp h')]

/-- The chains of a wait queue: disjoint, and holding exactly the sleepers. -/
structure Chained (q : WaitQueue T) (own : Option T → List T) : Prop where
  forest : Forest q.saved q.source own
  asleep : ∀ t, q.Asleep t ↔ ∃ k, t ∈ own k

structure Ok (q : WaitQueue T) : Prop where
  chains : ∃ own, q.Chained own
  state : ∀ t, q.Inside t → q.state t = .running ∨ q.state t = .uninterruptible

omit [DecidableEq T] in
theorem Asleep.not_woken (h : q.Asleep t) : ¬q.Woken t := by
  rintro ⟨-, hr⟩
  rw [h.2] at hr
  cases hr

omit [DecidableEq T] in
/-- A task that is not woken has no chain of its own. -/
theorem Chained.own_nil {own : Option T → List T} (h : q.Chained own)
    (hr : ¬q.Woken r) : own (some r) = [] := by
  have := h.forest.path (some r)
  rw [source, if_neg hr] at this
  exact this.null

omit [DecidableEq T] in
/-- A queue nobody is inside of, with a null pointer. -/
theorem ok_empty (hw : q.wait = none) (ht : ∀ t, q.tmp t = none) : q.Ok := by
  have hin : ∀ t, ¬q.Inside t := fun t h => h (ht t)
  refine ⟨⟨fun _ => [], ⟨fun k => ?_, fun _ => List.nodup_nil, fun h => ?_⟩, fun t => ?_⟩,
    fun t h => absurd h (hin t)⟩
  · cases k with
    | none => exact hw
    | some r => exact if_neg fun h => hin r h.1
  · exact (List.not_mem_nil h).elim
  · exact ⟨fun h => absurd h.1 (hin t), fun ⟨_, h⟩ => (List.not_mem_nil h).elim⟩

omit [DecidableEq T] in
/-- The invariant only speaks of the tasks that are inside. -/
theorem Ok.frame {q' : WaitQueue T} (hq : q.Ok) (hw : q'.wait = q.wait)
    (ht : q'.tmp = q.tmp) (hs : ∀ t, q.Inside t → q'.state t = q.state t) : q'.Ok := by
  obtain ⟨⟨own, hown⟩, hst⟩ := hq
  have hin : ∀ t, q'.Inside t ↔ q.Inside t := fun t => by simp [Inside, ht]
  have hsaved : q'.saved = q.saved := by funext t; simp [saved, ht]
  have hiff : ∀ t st, (q'.Inside t ∧ q'.state t = st) ↔ (q.Inside t ∧ q.state t = st) := by
    intro t st
    rw [hin t]
    exact and_congr_right fun h => by rw [hs t h]
  refine ⟨⟨own, hown.forest.congr (fun _ _ _ => by rw [hsaved]) fun k => ?_, fun t => ?_⟩,
    fun t h => ?_⟩
  · cases k with
    | none => exact hw
    | some r => exact source_congr (hiff r _) (by rw [hsaved])
  · rw [← hown.asleep t]; exact hiff t _
  · rw [hs t ((hin t).mp h)]; exact hst t ((hin t).mp h)

omit [DecidableEq T] in
/-- The wait pointer and the saved pointers of woken tasks point at sleepers, so
no store `state = 0` of this file hits a task that is not asleep here. -/
theorem Ok.source_asleep (hq : q.Ok) {k : Option T} {a : T} (hk : q.source k = some a) :
    q.Asleep a := by
  obtain ⟨⟨own, hown⟩, -⟩ := hq
  obtain ⟨l, hl, -⟩ := hown.forest.own_of_ptr hk
  exact (hown.asleep a).mpr ⟨k, by rw [hl]; exact List.mem_cons_self ..⟩

theorem wakeUp_state_of_not_inside (hq : q.Ok) (ht : ¬q.Inside t) :
    q.wakeUp.state t = q.state t := by
  cases hw : q.wait with
  | none => simp [wakeUp, hw]
  | some a =>
      have ha : q.Asleep a := hq.source_asleep (k := none) hw
      have hta : t ≠ a := fun e => ht (e ▸ ha.1)
      simp [wakeUp, hw, hta]

theorem sleepOnReturn_state_of_not_inside (hq : q.Ok) (hr : q.Woken r)
    (ht : ¬q.Inside t) : (q.sleepOnReturn r).state t = q.state t := by
  cases hs : q.saved r with
  | none =>
      simp only [saved] at hs
      simp [sleepOnReturn, hs]
  | some a =>
      have ha : q.Asleep a := hq.source_asleep (k := some r) (by rw [source, if_pos hr, hs])
      have hta : t ≠ a := fun e => ht (e ▸ ha.1)
      simp only [saved] at hs
      simp [sleepOnReturn, hs, hta]

/-! ## Entering `sleep_on` -/

/-- Entering puts the task in front of the chain of the wait pointer. -/
theorem sleepOn_ok {initTask : T} {q' : WaitQueue T} (hq : q.Ok) (ht : ¬q.Inside t)
    (h : sleepOn initTask q t = some q') : q'.Ok := by
  obtain ⟨⟨own, hown⟩, hstate⟩ := hq
  unfold sleepOn at h
  split at h
  · cases h
  obtain rfl := Option.some.inj h
  have htown : ∀ k, t ∉ own k := fun k hk => ht ((hown.asleep t).mpr ⟨k, hk⟩).1
  have htw : ¬q.Woken t := fun hw => ht hw.1
  refine ⟨⟨update own none (t :: own none), ?_, fun a => ?_⟩, fun a ha => ?_⟩
  · refine (hown.forest.push none htown).congr (fun k a _ => ?_) fun k => ?_
    · by_cases hat : a = t
      · subst hat; simp [saved, source]
      · simp [saved, hat]
    · cases k with
      | none => simp [source]
      | some r =>
          by_cases hrt : r = t
          · subst hrt
            rw [update_of_ne (by simp), source, source, if_neg htw, if_neg]
            simp [Woken]
          · rw [update_of_ne (by simp)]
            exact source_congr (by simp [Woken, Inside, hrt]) (by simp [saved, hrt])
  · by_cases hat : a = t
    · subst hat
      simpa [Asleep, Inside] using ⟨none, by simp⟩
    · have : (∃ k, a ∈ update own none (t :: own none) k) ↔ ∃ k, a ∈ own k := by
        refine exists_congr fun k => ?_
        by_cases hk : k = none <;> simp [hk, hat]
      rw [this, ← hown.asleep a]
      simp [Asleep, Inside, hat]
  · by_cases hat : a = t
    · simp [hat]
    · simpa [hat] using hstate a (by simpa [Inside, hat] using ha)

/-! ## Waking the first sleeper of a chain -/

/-- The head of a chain becomes runnable and takes over the rest of the chain.
Both `wake_up` (on the wait pointer) and a return from `sleep_on` (on the saved
`tmp`) do this to the pointer `k`. -/
theorem Ok.advance {q' : WaitQueue T} {k : Option T} {a : T} (hq : q.Ok)
    (hk : q.source k = some a) (hstate : q'.state = update q.state a .running)
    (hkeep : ∀ b, q.Asleep b → q'.tmp b = q.tmp b)
    (hin : ∀ b, q'.Inside b → q.Inside b)
    (hsrc : ∀ k', k' ≠ some a → q'.source k' = if k' = k then none else q.source k') :
    q'.Ok := by
  obtain ⟨⟨own, hown⟩, hst⟩ := hq
  obtain ⟨l, hl, -⟩ := hown.forest.own_of_ptr hk
  have ha : q.Asleep a := (hown.asleep a).mpr ⟨k, by rw [hl]; exact List.mem_cons_self ..⟩
  have hown' := hown.forest.advance hl (hown.own_nil ha.not_woken)
  have hka : k ≠ some a := fun e => by
    rw [e, source, if_neg ha.not_woken] at hk; cases hk
  have hain : q'.Inside a := by
    have := ha.1
    rwa [Inside, ← hkeep a ha] at this
  refine ⟨⟨_, hown'.congr (fun k' b hb => ?_) fun k' => ?_, fun b => ?_⟩, fun b hb => ?_⟩
  · have hb' : q.Asleep b := by
      refine (hown.asleep b).mpr ?_
      by_cases h₁ : k' = some a
      · subst h₁
        refine ⟨k, ?_⟩
        rw [hl]
        exact List.mem_cons_of_mem _ (by simpa using hb)
      · by_cases h₂ : k' = k
        · subst h₂; simp [h₁] at hb
        · exact ⟨k', by simpa [h₁, h₂] using hb⟩
    rw [saved, saved, hkeep b hb']
  · by_cases h₁ : k' = some a
    · subst h₁
      have hw : q'.Woken a := ⟨hain, by simp [hstate]⟩
      simp [source, hw, saved, hkeep a ha]
    · rw [hsrc k' h₁, update_of_ne h₁]
      by_cases h₂ : k' = k
      · simp [h₂]
      · simp [h₂]
  · have hmem : (∃ k', b ∈ update (update own k []) (some a) l k') ↔
        (∃ k', b ∈ own k') ∧ b ≠ a := by
      have hnd := hown.forest.nodup k
      rw [hl, List.nodup_cons] at hnd
      constructor
      · rintro ⟨k', hb⟩
        by_cases h₁ : k' = some a
        · subst h₁
          have hbl : b ∈ l := by simpa using hb
          exact ⟨⟨k, by rw [hl]; exact List.mem_cons_of_mem _ hbl⟩,
            fun e => hnd.1 (e ▸ hbl)⟩
        · by_cases h₂ : k' = k
          · subst h₂; simp [h₁] at hb
          · have hb' : b ∈ own k' := by simpa [h₁, h₂] using hb
            exact ⟨⟨k', hb'⟩, fun e => h₂ (hown.forest.disjoint (t := a) (e ▸ hb')
              (by rw [hl]; exact List.mem_cons_self ..))⟩
      · rintro ⟨⟨k', hb⟩, hba⟩
        by_cases h₂ : k' = k
        · subst h₂
          rw [hl] at hb
          exact ⟨some a, by simpa using (List.mem_cons.mp hb).resolve_left hba⟩
        · refine ⟨k', ?_⟩
          have h₁ : k' ≠ some a := fun e => by
            rw [e, hown.own_nil ha.not_woken] at hb; exact List.not_mem_nil hb
          simpa [h₁, h₂] using hb
    rw [hmem, ← hown.asleep b]
    by_cases hba : b = a
    · subst hba; simp [Asleep, hstate]
    · constructor
      · rintro ⟨hi, hs⟩
        rw [hstate, update_of_ne hba] at hs
        exact ⟨⟨hin b hi, hs⟩, hba⟩
      · rintro ⟨hs, -⟩
        refine ⟨?_, by rw [hstate, update_of_ne hba]; exact hs.2⟩
        have := hs.1
        rwa [Inside, ← hkeep b hs] at this
  · by_cases hba : b = a
    · simp [hba, hstate]
    · rw [hstate, update_of_ne hba]
      exact hst b (hin b hb)

theorem wakeUp_ok (hq : q.Ok) : q.wakeUp.Ok := by
  cases hw : q.wait with
  | none => simpa [wakeUp, hw] using hq
  | some a =>
      have hq' : q.wakeUp = { q with wait := none, state := update q.state a .running } := by
        simp [wakeUp, hw]
      rw [hq']
      refine hq.advance (k := none) (a := a) hw rfl (fun _ _ => rfl) (fun _ h => h)
        fun k' hk' => ?_
      cases k' with
      | none => simp [source]
      | some r =>
          have hra : r ≠ a := fun e => hk' (e ▸ rfl)
          rw [if_neg (by simp)]
          exact source_congr (by simp [Woken, Inside, hra]) rfl

/-- A woken task leaves `sleep_on`, waking the task of its `tmp`. -/
theorem sleepOnReturn_ok (hq : q.Ok) (ht : q.Woken t) : (q.sleepOnReturn t).Ok := by
  have hin : ∀ b, (q.sleepOnReturn t).Inside b → b ≠ t ∧ q.Inside b := by
    intro b hb
    by_cases hbt : b = t
    · subst hbt; simp [Inside, sleepOnReturn] at hb
    · exact ⟨hbt, by simpa [Inside, sleepOnReturn, hbt] using hb⟩
  cases hs : q.saved t with
  | none =>
      -- nobody to wake: the chain of `t` was empty, and `t` leaves the family
      obtain ⟨⟨own, hown⟩, hst⟩ := hq
      have hstate : (q.sleepOnReturn t).state = q.state := by
        simp only [saved] at hs
        simp [sleepOnReturn, hs]
      refine ⟨⟨own, hown.forest.congr (fun k a ha => ?_) fun k => ?_, fun a => ?_⟩,
        fun a ha => by rw [hstate]; exact hst a (hin a ha).2⟩
      · have : a ≠ t := fun e =>
          ((hown.asleep a).mpr ⟨k, ha⟩).not_woken (e ▸ ht)
        simp [saved, sleepOnReturn, this]
      · cases k with
        | none => rfl
        | some r =>
            by_cases hrt : r = t
            · subst hrt
              rw [source, source, if_pos ht, hs, if_neg fun h => (hin r h.1).1 rfl]
            · exact source_congr (by simp [Woken, Inside, hstate, hrt])
                (by simp [saved, hrt])
      · rw [← hown.asleep a]
        by_cases hat : a = t
        · subst hat
          exact ⟨fun h => absurd rfl (hin a h.1).1, fun h => absurd ht h.not_woken⟩
        · simp [Asleep, Inside, hstate, hat]
  | some a =>
      have hsrc : q.source (some t) = some a := by rw [source, if_pos ht, hs]
      refine hq.advance hsrc ?_ (fun b hb => ?_) (fun b hb => (hin b hb).2) fun k' hk' => ?_
      · simp only [saved] at hs
        simp [sleepOnReturn, hs]
      · have : b ≠ t := fun e => hb.not_woken (e ▸ ht)
        simp [sleepOnReturn, this]
      · cases k' with
        | none => simp [source, sleepOnReturn]
        | some r =>
            by_cases hrt : r = t
            · subst hrt
              rw [if_pos rfl, source, if_neg fun h => (hin r h.1).1 rfl]
            · have hra : r ≠ a := fun e => hk' (e ▸ rfl)
              rw [if_neg (by simpa using hrt)]
              simp only [saved] at hs
              exact source_congr (by simp [Woken, Inside, sleepOnReturn, hrt, hra, hs])
                (by simp [saved, sleepOnReturn, hrt])

/-! ## What the invariant gives -/

omit [DecidableEq T] in
/-- A sleeper is behind the wait pointer or behind a woken task. -/
theorem Ok.reach (hq : q.Ok) (ht : q.Asleep t) :
    (∃ a, q.wait = some a ∧ Relation.ReflTransGen (Link q.saved) a t) ∨
      ∃ r, q.Woken r ∧ Relation.TransGen (Link q.saved) r t := by
  obtain ⟨⟨own, hown⟩, -⟩ := hq
  obtain ⟨k, hk⟩ := (hown.asleep t).mp ht
  have hpath := hown.forest.path k
  cases k with
  | none =>
      left
      cases hw : q.wait with
      | none =>
          rw [source, hw] at hpath
          rw [hpath.null] at hk
          exact (List.not_mem_nil hk).elim
      | some a =>
          rw [source, hw] at hpath
          exact ⟨a, rfl, hpath.reflTransGen hk⟩
  | some r =>
      right
      by_cases hr : q.Woken r
      · rw [source, if_pos hr] at hpath
        exact ⟨r, hr, hpath.transGen hk⟩
      · rw [hown.own_nil hr] at hk
        exact (List.not_mem_nil hk).elim

omit [DecidableEq T] in
/-- With a null wait pointer, every sleeper is behind a woken task. -/
theorem Ok.woken_of_wait_none (hq : q.Ok) (hw : q.wait = none) (ht : q.Asleep t) :
    ∃ r, q.Woken r ∧ Relation.TransGen (Link q.saved) r t := by
  rcases hq.reach ht with ⟨a, ha, -⟩ | h
  · rw [hw] at ha; cases ha
  · exact h

end WaitQueue

end Linux011
