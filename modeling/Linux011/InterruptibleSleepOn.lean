import Linux011.SleepOn

/-!
# Interruptible sleep

`interruptible_sleep_on` of `kernel/sched.c`, with signals that make a sleeper runnable at any
time. A task that finds another one at the wait pointer wakes that one and goes back to sleep.
Before it leaves, a task clears the wait pointer; the tasks below it on the implicit list are
then only woken one by one, and a task that enters meanwhile starts a new list. One of the old
tasks that then goes back to sleep is on neither list: nobody points at it any more
(`not_none_lost`). In the runs in which a task goes back to sleep only while something leads to
it, every sleeper can be reached (`none_lost`).

Here the chains of `SleepOn` are no invariant, since two lists may run through the same tasks,
and a list may have runnable tasks in it. `Inv` only keeps what the result needs: the wait
pointer leads to a task inside, and every task inside that is not runnable can be reached from
the wait pointer or from a runnable task. For each of the steps a path of before is followed to
the first task that the step has changed, and goes on from there. The step that goes back to
sleep is the only one that may cut a path, namely where the task itself was the only runnable one
that led to its own sleep; `again_lost` shows that it is then lost.
-/

namespace Linux011

open Function Links Runs

namespace WaitQueue

variable {T : Type} [DecidableEq T] {q q' : WaitQueue T} {r t : T}

/-- `interruptible_sleep_on`, up to its first call of `schedule()`; `none` is the
panic of task 0. -/
def interruptibleSleepOn (initTask : T) (q : WaitQueue T) (current : T) : Option (WaitQueue T) :=
  if current = initTask then none
  else some
    { wait := some current
      state := update q.state current .interruptible
      tmp := update q.tmp current (some q.wait) }

/-- The task leaves: `*p=NULL; if (tmp) tmp->state=0;`. -/
def interruptibleLeave (q : WaitQueue T) (current : T) : WaitQueue T :=
  { wait := none
    state :=
      match (q.tmp current).join with
      | some tmp => update q.state tmp .running
      | none => q.state
    tmp := update q.tmp current none }

/-- `(**p).state=0; goto repeat;` with another task `head` at the wait pointer. -/
def interruptibleAgain (q : WaitQueue T) (head current : T) : WaitQueue T :=
  { q with state := update (update q.state head .running) current .interruptible }

/-- `interruptible_sleep_on`, from the return of `schedule()` to the next call or the
end. -/
def interruptibleReturn (q : WaitQueue T) (current : T) : WaitQueue T :=
  match q.wait with
  | some head =>
    if head ≠ current then q.interruptibleAgain head current else q.interruptibleLeave current
  | none => q.interruptibleLeave current

/-- The scan of `schedule()`: a signal makes an interruptible task runnable. -/
def signal (q : WaitQueue T) (t : T) : WaitQueue T :=
  if q.state t = .interruptible then { q with state := update q.state t .running } else q

omit [DecidableEq T] in
/-- A task inside that is not runnable can still be reached from the wait pointer or
from a runnable task inside. -/
def NoneLost (q : WaitQueue T) : Prop :=
  ∀ t, q.Inside t → q.state t ≠ .running → q.BehindWait t ∨ q.BehindWoken t

/-- Something other than the task itself leads to it: the wait pointer or another
runnable task inside. -/
def Kept (q : WaitQueue T) (t : T) : Prop :=
  q.BehindWait t ∨ ∃ r, r ≠ t ∧ q.Woken r ∧ Relation.TransGen (Link q.saved) r t

end WaitQueue

namespace InterruptibleSleepOn

open WaitQueue

variable {T : Type} [DecidableEq T] {q q' : WaitQueue T} {r t : T} {initTask : T}

inductive Act (T : Type) where
  | sleepOn (t : T)
  | wakeUp
  | signal (t : T)
  | resume (t : T)
  /-- what else happens to a task that is not inside -/
  | other (t : T) (state : TaskState)

def step (initTask : T) (q : WaitQueue T) : Act T → Option (WaitQueue T)
  | .sleepOn t =>
    if q.state t = .running ∧ ¬q.Inside t then q.interruptibleSleepOn initTask t else none
  | .wakeUp => some q.wakeUp
  | .signal t => some (q.signal t)
  | .resume t => if q.Woken t then some (q.interruptibleReturn t) else none
  | .other t state =>
    if q.Inside t then none else some { q with state := update q.state t state }

/-- A task goes back to sleep only while something leads to it. -/
def Listed (q : WaitQueue T) : Act T → Prop
  | .resume t => ∀ head, q.wait = some head → head ≠ t → q.Kept t
  | _ => True

/-- The wait pointer leads to a task inside, and nobody is lost. -/
structure Inv (q : WaitQueue T) : Prop where
  wait_inside : ∀ a, q.wait = some a → q.Inside a
  none_lost : q.NoneLost

theorem step_cases {a : Act T} (h : step initTask q a = some q') :
    (∃ t, ¬q.Inside t ∧ q' = ⟨some t, update q.state t .interruptible,
      update q.tmp t (some q.wait)⟩) ∨
    q' = q.wakeUp ∨
    (∃ t, q.state t = .interruptible ∧ q' = { q with state := update q.state t .running }) ∨
    q' = q ∨
    (∃ t, a = .resume t ∧ q.Woken t ∧ (q.wait = none ∨ q.wait = some t) ∧
      q' = q.interruptibleLeave t) ∨
    (∃ t head, a = .resume t ∧ q.Woken t ∧ q.wait = some head ∧ head ≠ t ∧
      q' = q.interruptibleAgain head t) ∨
    ∃ t state, ¬q.Inside t ∧ q' = { q with state := update q.state t state } := by
  cases a with
  | sleepOn t =>
      simp only [step] at h
      split at h
      · rename_i ht
        unfold interruptibleSleepOn at h
        split at h
        · cases h
        · exact Or.inl ⟨t, ht.2, (Option.some.inj h).symm⟩
      · cases h
  | wakeUp => exact Or.inr (Or.inl (Option.some.inj h).symm)
  | signal t =>
      obtain rfl := Option.some.inj h
      unfold signal
      split
      · exact Or.inr (Or.inr (Or.inl ⟨t, by assumption, rfl⟩))
      · exact Or.inr (Or.inr (Or.inr (Or.inl rfl)))
  | resume t =>
      obtain ⟨ht, h⟩ := Option.ite_none_right_eq_some.mp h
      obtain rfl := Option.some.inj h
      refine Or.inr (Or.inr (Or.inr (Or.inr ?_)))
      unfold interruptibleReturn
      cases hw : q.wait with
      | none => exact Or.inl ⟨t, rfl, ht, Or.inl rfl, rfl⟩
      | some head =>
          rcases eq_or_ne head t with rfl | hne
          · exact Or.inl ⟨head, rfl, ht, Or.inr rfl, if_neg (by simp)⟩
          · exact Or.inr (Or.inl ⟨t, head, rfl, ht, rfl, hne, if_pos hne⟩)
  | other t state =>
      simp only [step] at h
      split at h
      · cases h
      · rename_i ht
        exact Or.inr (Or.inr (Or.inr (Or.inr (Or.inr (Or.inr
          ⟨t, state, ht, (Option.some.inj h).symm⟩)))))

omit [DecidableEq T] in
/-- When only states change, and no woken task inside stops being runnable, nobody is
lost among those who slept. -/
theorem Inv.of_state (h : Inv q) (hw : q'.wait = q.wait) (ht : q'.tmp = q.tmp)
    (hrun : ∀ t, q.Inside t → q.state t = .running → q'.state t = .running) : Inv q' := by
  have hin : ∀ t, q'.Inside t ↔ q.Inside t := fun t => by simp [Inside, ht]
  have hsaved : q'.saved = q.saved := by funext t; simp [saved, ht]
  refine ⟨fun a ha => (hin a).mpr (h.wait_inside a (hw ▸ ha)), fun t hti hts => ?_⟩
  have hold : q.state t ≠ .running := fun hr => hts (hrun t ((hin t).mp hti) hr)
  rcases h.none_lost t ((hin t).mp hti) hold with ⟨a, ha, hpath⟩ | ⟨r, hr, hpath⟩
  · exact Or.inl ⟨a, hw.trans ha, hsaved ▸ hpath⟩
  · exact Or.inr ⟨r, ⟨(hin r).mpr hr.1, hrun r hr.1 hr.2⟩, hsaved ▸ hpath⟩

/-- Entering puts the task in front of the list. -/
theorem Inv.sleepOn (h : Inv q) (ht : ¬q.Inside t) :
    Inv ⟨some t, update q.state t .interruptible, update q.tmp t (some q.wait)⟩ := by
  let q' : WaitQueue T := ⟨some t, update q.state t .interruptible, update q.tmp t (some q.wait)⟩
  have hsaved : q.saved t = none := by
    have htmp : q.tmp t = none := by
      by_contra hne
      exact ht hne
    rw [saved, htmp]
    rfl
  have hlink : ∀ a b, Link q.saved a b → Link q'.saved a b := by
    intro a b hab
    have hat : a ≠ t := fun e => by
      rw [Link, e, hsaved] at hab
      cases hab
    simpa [Link, saved, q', hat] using hab
  refine ⟨fun a ha => ?_, fun u hu hus => ?_⟩
  · obtain rfl := Option.some.inj ha
    simp [Inside]
  · rcases eq_or_ne u t with rfl | hut
    · exact Or.inl ⟨u, rfl, .refl⟩
    · have hu' : q.Inside u := by simpa [Inside, hut] using hu
      have hus' : q.state u ≠ .running := by simpa [hut] using hus
      rcases h.none_lost u hu' hus' with ⟨a, ha, hpath⟩ | ⟨r, hr, hpath⟩
      · have hta : Link q'.saved t a := by simpa [Link, saved, q'] using ha
        exact Or.inl ⟨t, rfl, (Relation.ReflTransGen.mono hlink _ _ hpath).head hta⟩
      · have hrt : r ≠ t := fun e => ht (e ▸ hr.1)
        refine Or.inr ⟨r, ⟨?_, ?_⟩, Relation.TransGen.mono hlink _ _ hpath⟩
        · simpa [Inside, hrt] using hr.1
        · simpa [hrt] using hr.2

theorem Inv.wakeUp (h : Inv q) : Inv q.wakeUp := by
  cases hw : q.wait with
  | none => simpa [WaitQueue.wakeUp, hw] using h
  | some a =>
      have hq' : q.wakeUp = { q with wait := none, state := update q.state a .running } := by
        simp [WaitQueue.wakeUp, hw]
      rw [hq']
      refine ⟨fun b hb => (by cases hb), fun u hu hus => Or.inr ?_⟩
      have hua : u ≠ a := fun e => hus (by simp [e])
      have hus' : q.state u ≠ .running := by simpa [hua] using hus
      rcases h.none_lost u hu hus' with ⟨b, hb, hpath⟩ | ⟨r, hr, hpath⟩
      · obtain rfl : a = b := Option.some.inj (hw.symm.trans hb)
        rcases hpath.cases_head with e | ⟨c, hac, hcu⟩
        · exact absurd e.symm hua
        · exact ⟨a, ⟨h.wait_inside a hw, by simp⟩, .head' hac hcu⟩
      · refine ⟨r, ⟨hr.1, ?_⟩, hpath⟩
        rcases eq_or_ne r a with rfl | hra
        · simp
        · simpa [hra] using hr.2

/-- The task that leaves wakes the one of its `tmp`, which leads to all that it led
to. -/
theorem Inv.leave (h : Inv q) (ht : q.Woken t) (hwait : q.wait = none ∨ q.wait = some t) :
    Inv (q.interruptibleLeave t) := by
  have hsaved : (q.interruptibleLeave t).saved = update q.saved t none := by
    funext u
    rcases eq_or_ne u t with rfl | hut
    · simp [saved, interruptibleLeave]
    · simp [saved, interruptibleLeave, hut]
  have hrun : ∀ u, q.state u = .running → (q.interruptibleLeave t).state u = .running := by
    intro u hu
    cases hjoin : (q.tmp t).join with
    | none => simpa [interruptibleLeave, hjoin] using hu
    | some a =>
        rcases eq_or_ne u a with rfl | hua
        · simp [interruptibleLeave, hjoin]
        · simpa [interruptibleLeave, hjoin, hua] using hu
  have hin : ∀ u, u ≠ t → ((q.interruptibleLeave t).Inside u ↔ q.Inside u) := fun u hut => by
    simp [Inside, interruptibleLeave, hut]
  refine ⟨fun a ha => (by cases ha), fun u hu hus => Or.inr ?_⟩
  have hut : u ≠ t := fun e => by simp [Inside, interruptibleLeave, e] at hu
  -- a path that went through `t` now starts at the task of its `tmp`
  have hcut : ∀ {a}, q.saved t = some a →
      Relation.ReflTransGen (Link (q.interruptibleLeave t).saved) a u →
      (q.interruptibleLeave t).BehindWoken u := by
    intro a ha hpath
    have hstate : (q.interruptibleLeave t).state a = .running := by
      have hjoin : (q.tmp t).join = some a := ha
      simp [interruptibleLeave, hjoin]
    rcases hpath.cases_head with rfl | ⟨c, hac, hcu⟩
    · exact absurd hstate hus
    · exact ⟨a, ⟨inside_of_saved hac, hstate⟩, .head' hac hcu⟩
  have hfrom : ∀ {s}, Relation.ReflTransGen (Link q.saved) s u →
      (s ≠ t ∧ Relation.ReflTransGen (Link (q.interruptibleLeave t).saved) s u) ∨
        (q.interruptibleLeave t).BehindWoken u := by
    intro s hpath
    rw [hsaved] at hcut ⊢
    rcases reach_cut hpath hut with hs | ⟨a, ha, hau⟩
    · exact Or.inl hs
    · exact Or.inr (hcut ha hau)
  rcases h.none_lost u ((hin u hut).mp hu) (fun hr => hus (hrun u hr)) with
    ⟨a, ha, hpath⟩ | ⟨s, hs, hpath⟩
  · rcases hwait with hw | hw
    · rw [hw] at ha
      cases ha
    · obtain rfl : t = a := Option.some.inj (hw.symm.trans ha)
      exact (hfrom hpath).resolve_left fun hc => hc.1 rfl
  · rcases hfrom hpath.to_reflTransGen with ⟨hst, hsu⟩ | hb
    · rcases hsu.cases_head with rfl | ⟨c, hsc, hcu⟩
      · exact absurd (hrun s hs.2) hus
      · exact ⟨s, ⟨(hin s hst).mpr hs.1, hrun s hs.2⟩, .head' hsc hcu⟩
    · exact hb

/-- A task goes back to sleep: what it led to is behind what leads to it. -/
theorem Inv.again (h : Inv q) {head : T} (hw : q.wait = some head) (hne : head ≠ t)
    (hkept : q.Kept t) : Inv (q.interruptibleAgain head t) := by
  have hrun : ∀ u, u ≠ t → q.state u = .running →
      (q.interruptibleAgain head t).state u = .running := by
    intro u hut hu
    rcases eq_or_ne u head with rfl | huh
    · simp [interruptibleAgain, hut]
    · simpa [interruptibleAgain, hut, huh] using hu
  have hwoken : ∀ {s}, s ≠ t → q.Woken s → (q.interruptibleAgain head t).Woken s :=
    fun hst hs => ⟨hs.1, hrun _ hst hs.2⟩
  refine ⟨h.wait_inside, fun u hu hus => ?_⟩
  rcases eq_or_ne u t with rfl | hut
  · rcases hkept with hk | ⟨s, hst, hs, hpath⟩
    · exact Or.inl hk
    · exact Or.inr ⟨s, hwoken hst hs, hpath⟩
  · rcases h.none_lost u hu (fun hr => hus (hrun u hut hr)) with hb | ⟨s, hs, hpath⟩
    · exact Or.inl hb
    · rcases eq_or_ne s t with rfl | hst
      · rcases hkept with ⟨a, ha, hat⟩ | ⟨s', hst', hs', hat⟩
        · exact Or.inl ⟨a, ha, hat.trans hpath.to_reflTransGen⟩
        · exact Or.inr ⟨s', hwoken hst' hs', hat.trans hpath⟩
      · exact Or.inr ⟨s, hwoken hst hs, hpath⟩

theorem again_lost {head : T} (hw : q.wait = some head) (ht : q.Woken t) (hkept : ¬q.Kept t) :
    ¬(q.interruptibleAgain head t).NoneLost := by
  intro hlost
  have hstate : (q.interruptibleAgain head t).state t ≠ .running := by
    simp [interruptibleAgain]
  rcases hlost t ht.1 hstate with hb | ⟨s, hs, hpath⟩
  · exact hkept (Or.inl hb)
  · have hst : s ≠ t := fun e => hstate (e ▸ hs.2)
    rcases eq_or_ne s head with rfl | hsh
    · exact hkept (Or.inl ⟨s, hw, hpath.to_reflTransGen⟩)
    · refine hkept (Or.inr ⟨s, hst, ⟨hs.1, ?_⟩, hpath⟩)
      simpa [interruptibleAgain, hst, hsh] using hs.2

theorem Inv.step (h : Inv q) {a : Act T} (ha : Listed q a)
    (hs : InterruptibleSleepOn.step initTask q a = some q') : Inv q' := by
  obtain ⟨t, ht, rfl⟩ | rfl | ⟨t, -, rfl⟩ | rfl | ⟨t, rfl, ht, hw, rfl⟩ |
    ⟨t, head, rfl, ht, hw, hne, rfl⟩ | ⟨t, state, ht, rfl⟩ := step_cases hs
  · exact h.sleepOn ht
  · exact h.wakeUp
  · refine h.of_state rfl rfl fun u _ hu => ?_
    rcases eq_or_ne u t with rfl | hut
    · simp
    · simpa [hut] using hu
  · exact h
  · exact h.leave ht hw
  · exact h.again hw hne (ha head hw hne)
  · refine h.of_state rfl rfl fun u hu hr => ?_
    have hut : u ≠ t := fun e => ht (e ▸ hu)
    simpa [hut] using hr

theorem lost_of_not_listed {a : Act T} (ha : ¬Listed q a)
    (hs : InterruptibleSleepOn.step initTask q a = some q') : ¬q'.NoneLost := by
  cases a with
  | resume t =>
      obtain ⟨head, ha⟩ := not_forall.mp ha
      obtain ⟨hw, ha⟩ := Classical.not_imp.mp ha
      obtain ⟨hne, hkept⟩ := Classical.not_imp.mp ha
      obtain ⟨ht, hs⟩ := Option.ite_none_right_eq_some.mp hs
      rw [interruptibleReturn, hw, Option.some.injEq] at hs
      dsimp only at hs
      rw [if_pos hne] at hs
      subst hs
      exact again_lost hw ht hkept
  | _ => exact absurd trivial ha

/-- **Nobody is lost** in the runs in which a task goes back to sleep only while
something leads to it, and a step that does not meet this condition loses the task. And
after a `wake_up`, once the tasks that it makes runnable have resumed one after the other,
nobody is asleep inside. -/
theorem none_lost (initTask : T) {q₀ q : WaitQueue T} (h₀ : SleepOn.Unused q₀)
    (h : Reach (step initTask) Listed q₀ q) :
    q.NoneLost ∧ (∀ a q', step initTask q a = some q' → ¬Listed q a → ¬q'.NoneLost) ∧
      ∀ q', Reach (step initTask) (fun _ a => ∃ t, a = .resume t) q.wakeUp q' →
        (∀ t, ¬q'.Woken t) → ∀ t, q'.Inside t → q'.state t = .running := by
  have hin : ∀ t, ¬q₀.Inside t := fun t ht => ht (h₀.2 t)
  have hinv : Inv q := by
    refine h.invariant (I := Inv) ⟨fun a ha => ?_, fun t ht => absurd ht (hin t)⟩
      fun _ _ _ hq ha hs => hq.step ha hs
    rw [h₀.1] at ha
    cases ha
  refine ⟨hinv.none_lost, fun a q' hs ha => lost_of_not_listed ha hs,
    fun q' hrun hwoken t ht => ?_⟩
  -- the wait pointer stays null, so that every task that resumes leaves
  obtain ⟨hq', hwait⟩ := hrun.invariant (I := fun q => Inv q ∧ q.wait = none)
    ⟨hinv.wakeUp, WaitQueue.wakeUp_wait q⟩ fun q₁ a q₂ ⟨hq₁, hw₁⟩ ⟨r, hr⟩ hs => by
      subst hr
      have hlisted : Listed q₁ (.resume r) := fun head hw _ => by
        rw [hw₁] at hw
        cases hw
      refine ⟨hq₁.step hlisted hs, ?_⟩
      obtain ⟨-, hs⟩ := Option.ite_none_right_eq_some.mp hs
      obtain rfl := Option.some.inj hs
      simp [interruptibleReturn, hw₁, interruptibleLeave]
  by_contra hrunning
  rcases hq'.none_lost t ht hrunning with ⟨a, ha, -⟩ | ⟨r, hr, -⟩
  · rw [hwait] at ha
    cases ha
  · exact hwoken r hr

/-- Tasks 1 and 2 sleep; a signal lets task 2 leave, which wakes task 1. -/
def signalled : List (Act (Fin 5)) := [.sleepOn 1, .sleepOn 2, .signal 2, .resume 2]

/-- Every task that resumes leaves. -/
def Leaves (q : WaitQueue T) : Act T → Prop
  | .resume t => q.wait = none ∨ q.wait = some t
  | _ => True

instance (q : WaitQueue T) (a : Act T) : Decidable (Leaves q a) := by
  cases a <;> unfold Leaves <;> infer_instance

omit [DecidableEq T] in
theorem Leaves.listed {a : Act T} (h : Leaves q a) : Listed q a := by
  cases a with
  | resume t =>
      intro head hw hne
      rcases h with h | h
      · rw [h] at hw
        cases hw
      · exact absurd (Option.some.inj (hw.symm.trans h)) hne
  | _ => trivial

/-- Before task 1 has resumed, task 3 enters; task 1 finds it at the wait pointer and
goes back to sleep, and task 3 leaves. -/
def overtaken : List (Act (Fin 5)) := signalled ++ [.sleepOn 3, .resume 1, .resume 3]

/-- Nobody inside, a null wait pointer. -/
def idle : WaitQueue (Fin 5) := ⟨none, fun _ => .running, fun _ => none⟩

theorem none_lost_signalled : ∃ q : WaitQueue (Fin 5),
    exec (checked (step 0) Leaves) idle signalled = some q ∧ q.NoneLost ∧ q.Inside 1 ∧ ∀ q',
      Reach (step (0 : Fin 5)) (fun _ a => ∃ t, a = .resume t) q.wakeUp q' →
      (∀ t, ¬q'.Woken t) → ∀ t, q'.Inside t → q'.state t = .running := by
  have h₀ : SleepOn.Unused idle := ⟨rfl, fun _ => rfl⟩
  obtain ⟨q, hq, hin⟩ : ∃ q, exec (checked (step 0) Leaves) idle signalled = some q ∧
      q.Inside 1 := exec_any (by decide)
  have hrun := (exec_checked hq).weaken fun _ _ h => h.listed
  obtain ⟨hlost, -, hafter⟩ := none_lost 0 h₀ hrun
  exact ⟨q, hq, hlost, hin, hafter⟩

instance : DecidablePred fun q : WaitQueue (Fin 5) => ∀ t, ¬q.Woken t := fun _ => inferInstance

theorem not_none_lost :
    ∃ q, Reach (step (0 : Fin 5)) Free idle q ∧ ¬q.NoneLost := by
  obtain ⟨q, hq, hwait, hin, hstate, hwoken⟩ : ∃ q, exec (step 0) idle overtaken = some q ∧
      q.wait = none ∧ q.Inside 1 ∧ q.state 1 = .interruptible ∧ ∀ t, ¬q.Woken t :=
    exec_any (by decide)
  refine ⟨q, exec_reach hq, fun hlost => ?_⟩
  rcases hlost 1 hin (by simp [hstate]) with ⟨a, ha, -⟩ | ⟨r, hr, -⟩
  · rw [hwait] at ha
    cases ha
  · exact hwoken r hr

end InterruptibleSleepOn

end Linux011
