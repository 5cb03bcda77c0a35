import Linux011.Runs
import Linux011.WaitQueue

/-!
# One wait pointer, any tasks

All runs in which tasks use one wait pointer through `sleep_on` and `wake_up`
and leave the processor only in `schedule()`. Outside of `sleep_on` a task may
be in any state; inside, only the two functions make it runnable. `NobodyLost`
says what holds in every state: a sleeper has exactly one pointer to it, it can
be reached, and the stores `state = 0` only hit sleepers.

The invariant is `WaitQueue.Ok`, which every step keeps (`step_ok`): the wait
pointer and the pointers that the woken tasks have saved start disjoint chains,
which together hold the tasks asleep. What `NobodyLost` says is read off these
chains. The second half of `wait_queue_loses_nobody` is about the runs behind a
`wake_up` in which one task stays asleep. A `wake_up` takes its chain from the
wait pointer, and no step puts it back there (`OffWait.step`), so by the
invariant it can only be reached from a task that was made runnable and has not
resumed.
-/

namespace Linux011

open Function Links Runs

namespace WaitQueue

variable {T : Type} {q : WaitQueue T} {t : T}

/-- The wait pointer (`none`) and the `tmp` of each task inside `sleep_on`. -/
def pointer (q : WaitQueue T) : Option T → Option T
  | none => q.wait
  | some r => q.saved r

/-- Following the saved pointers leads from the wait pointer to the task. -/
def BehindWait (q : WaitQueue T) (t : T) : Prop :=
  ∃ a, q.wait = some a ∧ Relation.ReflTransGen (Link q.saved) a t

/-- Following the saved pointers leads from a runnable task inside to the task. -/
def BehindWoken (q : WaitQueue T) (t : T) : Prop :=
  ∃ r, q.Woken r ∧ Relation.TransGen (Link q.saved) r t

structure NobodyLost (q : WaitQueue T) : Prop where
  target : ∀ t, q.Asleep t → ∃! k, q.pointer k = some t
  reached : ∀ t, q.Asleep t → q.BehindWait t ∨ q.BehindWoken t
  wait_asleep : ∀ a, q.wait = some a → q.Asleep a
  tmp_asleep : ∀ r a, q.Woken r → q.saved r = some a → q.Asleep a

theorem inside_of_saved {r a : T} (h : q.saved r = some a) : q.Inside r := by
  intro hn
  rw [saved, hn] at h
  cases h

/-- A pointer to a task is one of the starts of the chains or sits on a chain. -/
theorem Chained.pointer_cases {own : Option T → List T} (h : q.Chained own)
    (hstate : ∀ t, q.Inside t → q.state t = .running ∨ q.state t = .uninterruptible)
    {k : Option T} (hk : q.pointer k = some t) :
    q.source k = some t ∨ ∃ r k', k = some r ∧ r ∈ own k' ∧ q.saved r = some t := by
  cases k with
  | none => exact Or.inl hk
  | some r =>
      have hin := inside_of_saved (show q.saved r = some t from hk)
      rcases hstate r hin with hr | hr
      · left
        rw [source, if_pos ⟨hin, hr⟩]
        exact hk
      · obtain ⟨k', hk'⟩ := (h.asleep r).mp ⟨hin, hr⟩
        exact Or.inr ⟨r, k', rfl, hk', hk⟩

theorem Ok.pointer_asleep (hq : q.Ok) {k : Option T} (hk : q.pointer k = some t) :
    q.Asleep t := by
  have hq' := hq
  obtain ⟨⟨own, hown⟩, hstate⟩ := hq
  rcases hown.pointer_cases hstate hk with hs | ⟨r, k', -, hr, hrt⟩
  · exact hq'.source_asleep hs
  · exact (hown.asleep t).mpr ⟨k', (hown.forest.path k').next_mem hr hrt⟩

theorem Ok.target (hq : q.Ok) (ht : q.Asleep t) : ∃! k, q.pointer k = some t := by
  obtain ⟨⟨own, hown⟩, hstate⟩ := hq
  obtain ⟨k, hk⟩ := (hown.asleep t).mp ht
  have huniq : ∀ k₁ k₂, q.pointer k₁ = some t → q.pointer k₂ = some t → k₁ = k₂ := by
    intro k₁ k₂ h₁ h₂
    rcases hown.pointer_cases hstate h₁ with s₁ | ⟨r₁, j₁, rfl, m₁, n₁⟩
    · rcases hown.pointer_cases hstate h₂ with s₂ | ⟨r₂, j₂, rfl, m₂, n₂⟩
      · exact hown.forest.ptr_unique s₁ s₂
      · exact absurd s₁ (hown.forest.ptr_ne_next m₂ n₂)
    · rcases hown.pointer_cases hstate h₂ with s₂ | ⟨r₂, j₂, rfl, m₂, n₂⟩
      · exact absurd s₂ (hown.forest.ptr_ne_next m₁ n₁)
      · exact congrArg some (hown.forest.next_unique m₁ m₂ n₁ n₂)
  have hex : ∃ k, q.pointer k = some t := by
    rcases hown.forest.pointed hk with hs | ⟨r, -, hr⟩
    · cases k with
      | none => exact ⟨none, hs⟩
      | some r =>
          simp only [source] at hs
          split at hs
          · exact ⟨some r, hs⟩
          · cases hs
    · exact ⟨some r, hr⟩
  obtain ⟨k', hk'⟩ := hex
  exact ⟨k', hk', fun k₂ h₂ => huniq k₂ k' h₂ hk'⟩

theorem Ok.nobodyLost (hq : q.Ok) : q.NobodyLost where
  target _ ht := hq.target ht
  reached _ ht := hq.reach ht
  wait_asleep _ ha := hq.source_asleep (k := none) ha
  tmp_asleep r _ hr ha := hq.source_asleep (k := some r) (by rw [source, if_pos hr, ha])

end WaitQueue

namespace SleepOn

variable {T : Type} [DecidableEq T] {q q' : WaitQueue T} {t : T} {initTask : T}

inductive Act (T : Type) where
  | sleepOn (t : T)
  | wakeUp
  /-- a task made runnable inside `sleep_on` goes on -/
  | resume (t : T)
  /-- what else happens to a task that is not inside -/
  | other (t : T) (state : TaskState)

def step (initTask : T) (q : WaitQueue T) : Act T → Option (WaitQueue T)
  | .sleepOn t => if q.state t = .running ∧ ¬q.Inside t then q.sleepOn initTask t else none
  | .wakeUp => some q.wakeUp
  | .resume t => if q.Woken t then some (q.sleepOnReturn t) else none
  | .other t state =>
    if q.Inside t then none else some { q with state := update q.state t state }

/-- A null wait pointer, and nobody inside. -/
def Unused (q : WaitQueue T) : Prop := q.wait = none ∧ ∀ t, q.tmp t = none

/-- The steps after which the task is asleep. -/
def KeepsAsleep (initTask t : T) (q : WaitQueue T) (a : Act T) : Prop :=
  ∀ q', step initTask q a = some q' → q'.Asleep t

theorem step_cases {a : Act T} (h : step initTask q a = some q') :
    (∃ t, ¬q.Inside t ∧ q.sleepOn initTask t = some q') ∨
    q' = q.wakeUp ∨
    (∃ t, q.Woken t ∧ q' = q.sleepOnReturn t) ∨
    ∃ t state, ¬q.Inside t ∧ q' = { q with state := update q.state t state } := by
  cases a with
  | sleepOn t =>
      simp only [step] at h
      split at h
      · rename_i ht
        exact Or.inl ⟨t, ht.2, h⟩
      · cases h
  | wakeUp => exact Or.inr (Or.inl (Option.some.inj h).symm)
  | resume t =>
      obtain ⟨ht, h⟩ := Option.ite_none_right_eq_some.mp h
      exact Or.inr (Or.inr (Or.inl ⟨t, ht, (Option.some.inj h).symm⟩))
  | other t state =>
      simp only [step] at h
      split at h
      · cases h
      · rename_i ht
        exact Or.inr (Or.inr (Or.inr ⟨t, state, ht, (Option.some.inj h).symm⟩))

theorem step_ok (hq : q.Ok) {a : Act T} (h : step initTask q a = some q') : q'.Ok := by
  obtain ⟨t, ht, hs⟩ | rfl | ⟨t, ht, rfl⟩ | ⟨t, state, ht, rfl⟩ := step_cases h
  · exact WaitQueue.sleepOn_ok hq ht hs
  · exact WaitQueue.wakeUp_ok hq
  · exact WaitQueue.sleepOnReturn_ok hq ht
  · refine hq.frame rfl rfl fun r hr => update_of_ne (fun e : r = t => ht (e ▸ hr)) _ _

/-! ## After a wake_up -/

/-- No path from the wait pointer meets the task. -/
def OffWait (q : WaitQueue T) (t : T) : Prop := ∀ l, Path q.saved q.wait l → t ∉ l

/-- A sleeper that the wait pointer does not lead to stays off it: later sleepers
come in front of the wait pointer, and their chain ends where it ended. -/
theorem OffWait.step (hoff : OffWait q t) (hq : q.Ok) (ht : q.Asleep t) {a : Act T}
    (h : SleepOn.step initTask q a = some q') : OffWait q' t := by
  obtain ⟨⟨own, hown⟩, -⟩ := hq
  have hpath : Path q.saved q.wait (own none) := hown.forest.path none
  obtain ⟨s, hs, hsl⟩ | rfl | ⟨r, hr, rfl⟩ | ⟨r, state, hr, rfl⟩ := step_cases h
  · intro l hl htl
    unfold WaitQueue.sleepOn at hsl
    split at hsl
    · cases hsl
    obtain rfl := Option.some.inj hsl
    have hnot : s ∉ own none := fun hm => hs ((hown.asleep s).mpr ⟨none, hm⟩).1
    cases l with
    | nil => cases hl
    | cons b l =>
        obtain ⟨hb, hl⟩ := hl
        obtain rfl : s = b := Option.some.inj hb
        have hts : t ≠ s := fun e => hs (e ▸ ht.1)
        have hsame : Path (WaitQueue.saved
            ⟨some s, update q.state s .uninterruptible, update q.tmp s (some q.wait)⟩)
            q.wait (own none) := hpath.congr fun b hb => by
          have hbs : b ≠ s := fun e => hnot (e ▸ hb)
          simp [WaitQueue.saved, hbs]
        have hl' : Path (WaitQueue.saved
            ⟨some s, update q.state s .uninterruptible, update q.tmp s (some q.wait)⟩)
            q.wait l := by
          simpa [WaitQueue.saved] using hl
        rw [hl'.unique hsame] at htl
        exact hoff _ hpath ((List.mem_cons.mp htl).resolve_left hts)
  · intro l hl htl
    rw [WaitQueue.wakeUp_wait] at hl
    rw [hl.null] at htl
    exact List.not_mem_nil htl
  · intro l hl htl
    have hsame : Path (q.sleepOnReturn r).saved q.wait (own none) := hpath.congr fun b hb => by
      have hbr : b ≠ r := fun e => ((hown.asleep b).mpr ⟨none, hb⟩).not_woken (e ▸ hr)
      simp [WaitQueue.saved, hbr]
    rw [hl.unique hsame] at htl
    exact hoff _ hpath htl
  · exact hoff

omit [DecidableEq T] in
theorem OffWait.behindWoken (hoff : OffWait q t) (hq : q.Ok) (ht : q.Asleep t) :
    q.BehindWoken t := by
  obtain ⟨⟨own, hown⟩, -⟩ := hq
  obtain ⟨k, hk⟩ := (hown.asleep t).mp ht
  cases k with
  | none => exact absurd hk (hoff _ (hown.forest.path none))
  | some r =>
      have hr : q.Woken r := by
        by_contra hr
        rw [hown.own_nil hr] at hk
        exact List.not_mem_nil hk
      have hpath := hown.forest.path (some r)
      rw [WaitQueue.source, if_pos hr] at hpath
      exact ⟨r, hr, hpath.transGen hk⟩

/-- **Nobody is lost** on a wait pointer that is used through `sleep_on` and `wake_up`,
by any number of tasks and in any order of their steps. A task that has slept since a
`wake_up` is behind a task that was made runnable and has not resumed: the resumptions
alone, one after the other, come to it. -/
theorem wait_queue_loses_nobody (initTask : T) {q₀ q : WaitQueue T} (h₀ : Unused q₀)
    (h : Reach (step initTask) Free q₀ q) :
    q.NobodyLost ∧ ∀ t q', q.wakeUp.Asleep t →
      Reach (step initTask) (KeepsAsleep initTask t) q.wakeUp q' → q'.BehindWoken t := by
  have hok : q.Ok := h.invariant (WaitQueue.ok_empty h₀.1 h₀.2) fun _ _ _ hq _ hs =>
    step_ok hq hs
  refine ⟨hok.nobodyLost, fun t q' ht hrun => ?_⟩
  have hoff : OffWait q.wakeUp t := fun l hl htl => by
    rw [WaitQueue.wakeUp_wait] at hl
    rw [hl.null] at htl
    exact List.not_mem_nil htl
  obtain ⟨hq', ht', hoff'⟩ := hrun.invariant
    (I := fun q => q.Ok ∧ q.Asleep t ∧ OffWait q t) ⟨WaitQueue.wakeUp_ok hok, ht, hoff⟩
    fun q₁ a q₂ ⟨hq₁, ht₁, hoff₁⟩ hkeep hs =>
      ⟨step_ok hq₁ hs, hkeep q₂ hs, hoff₁.step hq₁ ht₁ hs⟩
  exact hoff'.behindWoken hq' ht'

/-- Three tasks sleep, a `wake_up` makes the last one runnable. -/
def threeSleepers : List (Act (Fin 4)) := [.sleepOn 1, .sleepOn 2, .sleepOn 3]

theorem wait_queue_loses_nobody_three :
    ∃ q : WaitQueue (Fin 4), exec (step 0) ⟨none, fun _ => .running, fun _ => none⟩ threeSleepers
      = some q ∧ q.NobodyLost ∧ q.wakeUp.BehindWoken 1 := by
  obtain ⟨q, hq, ht⟩ : ∃ q, exec (step 0) ⟨none, fun _ => .running, fun _ => none⟩ threeSleepers
      = some q ∧ q.wakeUp.Asleep 1 := exec_any (by decide)
  have h₀ : Unused (⟨none, fun _ => .running, fun _ => none⟩ : WaitQueue (Fin 4)) :=
    ⟨rfl, fun _ => rfl⟩
  obtain ⟨hlost, hafter⟩ := wait_queue_loses_nobody 0 h₀ (exec_reach hq)
  exact ⟨q, hq, hlost, hafter 1 q.wakeUp ht .start⟩

end SleepOn

end Linux011
