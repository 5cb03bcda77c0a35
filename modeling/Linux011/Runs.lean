import Mathlib.Logic.Relation

/-!
# Runs of a labelled system

A system is a partial step function `step : σ → α → Option σ`: action `a`
is possible in state `s` exactly when `step s a` is a state. `Reach step ok s₀`
holds of the states at the end of the runs from `s₀` all of whose steps meet
the side condition `ok`; `Free` is the condition that is always met.

`Reach.invariant` is the one induction over runs: what holds at the start and
is kept by every step that meets the condition holds of every reached state.
`exec` runs a list of actions, so that a concrete run is a value to compute.

The rest is for three ways in which results about runs are put. Where the
actions stand for runs of a finer system, or the two systems are related state
by state, a list of actions is carried over from the one to the other
(`exec_refines`, `exec_rel`). Where a property is about the steps and not about
the states, `Each` holds it for every step of a list of actions, as far as these
are possible. And where the steps are calls that answer, `answers_simulate`
compares the answers of two systems, which is the form that a refinement takes
when it is only the answers that one can see.
-/

namespace Runs

variable {σ α : Type*}

/-- The states reached from `s₀` by steps that all meet `ok`. -/
inductive Reach (step : σ → α → Option σ) (ok : σ → α → Prop) (s₀ : σ) : σ → Prop where
  | start : Reach step ok s₀ s₀
  | next {s : σ} {a : α} {s' : σ} :
      Reach step ok s₀ s → ok s a → step s a = some s' → Reach step ok s₀ s'

/-- The side condition that every step meets. -/
def Free (_ : σ) (_ : α) : Prop := True

variable {step : σ → α → Option σ} {ok ok' : σ → α → Prop} {s₀ s s' : σ}

/-- The induction over runs: an invariant of the start that every step keeps
holds of every reached state. -/
theorem Reach.invariant {I : σ → Prop} (h0 : I s₀)
    (hstep : ∀ s a s', I s → ok s a → step s a = some s' → I s')
    (h : Reach step ok s₀ s) : I s := by
  induction h with
  | start => exact h0
  | next _ hok hs ih => exact hstep _ _ _ ih hok hs

theorem Reach.trans {s₁ s₂ : σ} (h₁ : Reach step ok s₀ s₁) (h₂ : Reach step ok s₁ s₂) :
    Reach step ok s₀ s₂ := by
  induction h₂ with
  | start => exact h₁
  | next _ hok hs ih => exact ih.next hok hs

/-- Dropping or weakening the side condition only adds runs. -/
theorem Reach.weaken (hok : ∀ s a, ok s a → ok' s a) (h : Reach step ok s₀ s) :
    Reach step ok' s₀ s := by
  induction h with
  | start => exact .start
  | next _ ha hs ih => exact ih.next (hok _ _ ha) hs

theorem Reach.free (h : Reach step ok s₀ s) : Reach step Free s₀ s :=
  h.weaken fun _ _ _ => trivial

/-- One step, as a run. -/
theorem Reach.one {a : α} (hok : ok s a) (hs : step s a = some s') : Reach step ok s s' :=
  Reach.start.next hok hs

/-! ## Computed runs -/

/-- Perform a list of actions, in order; `none` when one of them is not possible. -/
def exec (step : σ → α → Option σ) : σ → List α → Option σ
  | s, [] => some s
  | s, a :: as => (step s a).bind fun s' => exec step s' as

/-- A list of actions each of which stands for a run of `step` is a run of `step`. -/
theorem exec_refines {β : Type*} {act : σ → β → Option σ}
    (hact : ∀ s b s', act s b = some s' → Reach step ok s s') :
    ∀ {bs : List β} {s : σ}, exec act s bs = some s' → Reach step ok s s'
  | [], s, h => by
      obtain rfl := Option.some.inj h
      exact .start
  | b :: bs, s, h => by
      obtain ⟨s₁, h₁, h₂⟩ := Option.bind_eq_some_iff.mp h
      exact (hact s b s₁ h₁).trans (exec_refines hact h₂)

theorem exec_reach {as : List α} (h : exec step s as = some s') : Reach step Free s s' :=
  exec_refines (fun _ _ _ hs => Reach.one trivial hs) h

/-- The step taken only where the side condition holds. -/
def checked (step : σ → α → Option σ) (ok : σ → α → Prop) [∀ s a, Decidable (ok s a)]
    (s : σ) (a : α) : Option σ :=
  if ok s a then step s a else none

theorem exec_checked [∀ s a, Decidable (ok s a)] {as : List α}
    (h : exec (checked step ok) s as = some s') : Reach step ok s s' :=
  exec_refines (fun _ _ _ hs => by
    obtain ⟨hok, hs⟩ := Option.ite_none_right_eq_some.mp hs
    exact Reach.one hok hs) h

/-- What a computed run decides about its last state. -/
theorem exec_any {β : Type*} {act : σ → β → Option σ} {bs : List β} {p : σ → Prop}
    [DecidablePred p] (h : ((exec act s bs).any fun s' => decide (p s')) = true) :
    ∃ s', exec act s bs = some s' ∧ p s' := by
  obtain ⟨s', hs', hp⟩ := (Option.any_eq_true _ _).mp h
  exact ⟨s', hs', of_decide_eq_true hp⟩

/-- Two systems whose related states take every step to related states, or both take none, do so
with every list of actions. -/
theorem exec_rel {τ : Type*} {step' : τ → α → Option τ} {R : σ → τ → Prop}
    (hstep : ∀ s t a, R s t → Option.Rel R (step s a) (step' t a)) (as : List α) {s : σ} {t : τ}
    (h : R s t) : Option.Rel R (exec step s as) (exec step' t as) := by
  induction as generalizing s t with
  | nil => exact .some h
  | cons a as ih =>
      have hnext := hstep s t a h
      rw [exec, exec]
      revert hnext
      cases step s a with
      | none =>
          cases step' t a with
          | none => exact fun _ => .none
          | some t' => exact fun hnext => nomatch hnext
      | some s' =>
          cases step' t a with
          | none => exact fun hnext => nomatch hnext
          | some t' => exact fun | .some h' => ih h'

/-! ## Every step of a run -/

/-- `P` holds of each step of the actions, as far as they are possible. -/
def Each (step : σ → α → Option σ) (P : σ → α → Prop) : σ → List α → Prop
  | _, [] => True
  | s, a :: as => P s a ∧ ∀ s', step s a = some s' → Each step P s' as

/-- What every step from a reached state does each step of a run does. -/
theorem each_of_reach {P : σ → α → Prop} (h : ∀ s a, Reach step Free s₀ s → P s a)
    (as : List α) : ∀ {s : σ}, Reach step Free s₀ s → Each step P s as := by
  induction as with
  | nil => exact fun _ => trivial
  | cons a as ih => exact fun hs => ⟨h _ a hs, fun s' hs' => ih (hs.next trivial hs')⟩

theorem Each.imp {P Q : σ → α → Prop} {as : List α} (h : Each step (fun s a => P s a → Q s a) s as)
    (hP : Each step P s as) : Each step Q s as := by
  induction as generalizing s with
  | nil => trivial
  | cons a as ih => exact ⟨h.1 hP.1, fun s' hs' => ih (h.2 s' hs') (hP.2 s' hs')⟩

theorem Each.mono {P Q : σ → α → Prop} {as : List α} (h : Each step P s as)
    (himp : ∀ s a, P s a → Q s a) : Each step Q s as := by
  induction as generalizing s with
  | nil => trivial
  | cons a as ih => exact ⟨himp s a h.1, fun s' hs' => ih (h.2 s' hs')⟩

/-- The step behind a run. -/
theorem Each.at_end {P : σ → α → Prop} {as : List α} {a : α} (h : Each step P s (as ++ [a]))
    (hrun : exec step s as = some s') : P s' a := by
  induction as generalizing s with
  | nil =>
      obtain rfl := Option.some.inj hrun
      exact h.1
  | cons b as ih =>
      obtain ⟨s₁, hs₁, hrun⟩ := Option.bind_eq_some_iff.mp hrun
      exact ih (h.2 s₁ hs₁) hrun

/-! ## Calls that answer -/

/-- Perform calls in order: their answers, and the state after them. -/
def answers {β : Type*} (call : σ → α → β × σ) : σ → List α → List β × σ
  | s, [] => ([], s)
  | s, a :: as =>
    let (b, s') := call s a
    let (bs, s'') := answers call s' as
    (b :: bs, s'')

/-- Two systems whose related states answer every call alike, and stay related, answer every
list of calls alike. -/
theorem answers_simulate {β τ : Type*} {call : σ → α → β × σ} {call' : τ → α → β × τ}
    {R : σ → τ → Prop} (hcall : ∀ s t a, R s t →
      (call s a).1 = (call' t a).1 ∧ R (call s a).2 (call' t a).2) (as : List α) {s : σ} {t : τ}
    (h : R s t) : (answers call s as).1 = (answers call' t as).1 ∧
      R (answers call s as).2 (answers call' t as).2 := by
  induction as generalizing s t with
  | nil => exact ⟨rfl, h⟩
  | cons a as ih =>
      obtain ⟨hanswer, hnext⟩ := hcall s t a h
      obtain ⟨hanswers, hend⟩ := ih hnext
      refine ⟨?_, hend⟩
      show (call s a).1 :: (answers call (call s a).2 as).1 = _ :: _
      rw [hanswer, hanswers]

end Runs
