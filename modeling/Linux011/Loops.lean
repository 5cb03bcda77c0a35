import Mathlib.Tactic.Common

/-!
# Loops over a list

A loop that runs over a list and may stop with an error: when every round goes
through and keeps what holds after the rounds done so far, the loop goes through.

The rules are for `foldlM` in `Except` and for `foldl`: an invariant that
depends on the rounds that are left or done, and an effect that is composed from
those of the rounds. The order of the list is the order of the rounds in the
source.
-/

namespace Loops

variable {σ α ε : Type*}

/-- A computation that goes through has gone through its first part. -/
theorem bind_eq_ok.{u, v} {ε : Type u} {α β : Type v} {x : Except ε α} {f : α → Except ε β} {b : β}
    (h : (x >>= f) = .ok b) : ∃ a, x = .ok a ∧ f a = .ok b := by
  cases x with
  | error e => cases h
  | ok a => exact ⟨a, rfl, h⟩

theorem map_eq_ok.{u, v} {ε : Type u} {α β : Type v} {x : Except ε α} {f : α → β} {b : β}
    (h : x.map f = .ok b) : ∃ a, x = .ok a ∧ f a = b := by
  cases x with
  | error e => cases h
  | ok a => exact ⟨a, rfl, Except.ok.inj h⟩

theorem map_eq_error.{u, v} {ε : Type u} {α β : Type v} {x : Except ε α} {f : α → β} {e : ε}
    (h : x.map f = .error e) : x = .error e := by
  cases x with
  | error e' => exact congrArg Except.error (Except.error.inj h)
  | ok a => cases h

theorem foldlM_ok {f : σ → α → Except ε σ} (I : List α → σ → Prop) :
    ∀ {l p : List α} {s : σ}, I p s →
      (∀ p' a rest s, p ++ l = p' ++ a :: rest → I p' s →
        ∃ s', f s a = .ok s' ∧ I (p' ++ [a]) s') →
      ∃ s', l.foldlM f s = .ok s' ∧ I (p ++ l) s'
  | [], p, s, h, _ => ⟨s, rfl, by simpa using h⟩
  | a :: l, p, s, h, hstep => by
      obtain ⟨s₁, hs₁, h₁⟩ := hstep p a l s rfl h
      obtain ⟨s', hs', h'⟩ := foldlM_ok I (l := l) h₁
        fun p' b rest s hl => hstep p' b rest s (by simpa using hl)
      refine ⟨s', ?_, by simpa using h'⟩
      rw [List.foldlM_cons, hs₁]
      exact hs'

/-- The round of a loop over `List.range` that comes behind those in `p`. -/
theorem range_round {n i : Nat} {p rest : List Nat} (h : [] ++ List.range n = p ++ i :: rest) :
    i < n ∧ i ∉ p := by
  rw [List.nil_append] at h
  have hnodup : (p ++ i :: rest).Nodup := h ▸ List.nodup_range
  have hmem : i ∈ List.range n := h ▸ List.mem_append_right p (List.mem_cons_self ..)
  rw [List.nodup_append] at hnodup
  exact ⟨List.mem_range.mp hmem, fun hp => hnodup.2.2 i hp i (List.mem_cons_self ..) rfl⟩

/-- What the rounds keep is kept by a loop that has gone through. -/
theorem foldlM_inv {f : σ → α → Except ε σ} (I : σ → Prop) {l : List α} {s s' : σ} (h : I s)
    (hstep : ∀ a ∈ l, ∀ s s', I s → f s a = .ok s' → I s') (hok : l.foldlM f s = .ok s') :
    I s' := by
  induction l generalizing s with
  | nil =>
      obtain rfl := Except.ok.inj hok
      exact h
  | cons a l ih =>
      rw [List.foldlM_cons] at hok
      obtain ⟨s₁, hs₁, hrest⟩ := bind_eq_ok hok
      exact ih (hstep a (List.mem_cons_self ..) s s₁ h hs₁)
        (fun b hb => hstep b (List.mem_cons_of_mem _ hb)) hrest

theorem foldl_inv {f : σ → α → σ} (I : List α → σ → Prop) :
    ∀ {l p : List α} {s : σ}, I p s →
      (∀ p' a rest s, p ++ l = p' ++ a :: rest → I p' s → I (p' ++ [a]) (f s a)) →
      I (p ++ l) (l.foldl f s)
  | [], p, s, h, _ => by simpa using h
  | a :: l, p, s, h, hstep => by
      have h₁ := hstep p a l s rfl h
      have := foldl_inv I (l := l) h₁
        fun p' b rest s hl => hstep p' b rest s (by simpa using hl)
      simpa using this

/-- What every round moves along a preorder, the loop does. -/
theorem foldl_trans {f : σ → α → σ} {R : σ → σ → Prop} (hrefl : ∀ s, R s s)
    (htrans : ∀ {s₁ s₂ s₃}, R s₁ s₂ → R s₂ s₃ → R s₁ s₃) (hstep : ∀ s a, R s (f s a))
    (l : List α) (s : σ) : R s (l.foldl f s) := by
  induction l generalizing s with
  | nil => exact hrefl s
  | cons a l ih => exact htrans (hstep s a) (ih (f s a))

/-- What a round sees to, and what is kept along the preorder, holds behind the loop. -/
theorem foldl_reaches {f : σ → α → σ} {R : σ → σ → Prop} (hrefl : ∀ s, R s s)
    (htrans : ∀ {s₁ s₂ s₃}, R s₁ s₂ → R s₂ s₃ → R s₁ s₃) (hstep : ∀ s a, R s (f s a))
    {s₀ : σ} {a : α} {P : σ → Prop} (hP : ∀ s, R s₀ s → P (f s a))
    (hkeep : ∀ s s', R s s' → P s → P s') {l : List α} (ha : a ∈ l) {s : σ} (hs : R s₀ s) :
    P (l.foldl f s) := by
  induction l generalizing s with
  | nil => cases ha
  | cons b l ih =>
      rcases List.mem_cons.mp ha with rfl | ha
      · exact hkeep _ _ (foldl_trans hrefl htrans hstep l (f s a)) (hP s hs)
      · exact ih ha (htrans hs (hstep s b))

end Loops
