import Mathlib.Data.List.Chain
import Mathlib.Order.Lattice

/-!
# One elevator queue

A queue that is served at its head. A new request goes between two neighbours that it lies
between, or to the place where the order falls back, if it belongs before what comes next there;
else to the end. `TwoRuns` is the shape that the queue keeps: the sweep that is under way, and the
next one.

For a class of requests that the others are to overtake, `Overtaken` says that none of the others
stands behind one of the class, the head apart, and `overtaken_insert_iff` when a new request
keeps this.

A run of the elevator is an ascending list, and the queue is two of them. The head is being
served and keeps its place, so that an insertion is one into the first run behind its head, into
the second one, or between the two (`insert_runs`); that a new request may start a second run and
never a third is what the rule of the neighbours gives. The proof is an induction over the queue
with the two runs as its data. The second notion is independent of the first and has an exact
condition.
-/

namespace Elevator

variable {α K : Type*} [LinearOrder K] (key : α → K)

/-- The new request `r` has its place between the two neighbours. -/
def Between (r tmp next : α) : Prop :=
  (key tmp < key r ∨ ¬key tmp < key next) ∧ key r < key next

instance (r tmp next : α) : Decidable (Between key r tmp next) :=
  inferInstanceAs (Decidable (_ ∧ _))

def insert (r : α) : List α → List α
  | [] => [r]
  | [tmp] => [tmp, r]
  | tmp :: next :: rest =>
    if Between key r tmp next then tmp :: r :: next :: rest else tmp :: insert r (next :: rest)

/-- Strictly ascending. -/
abbrev Run (l : List α) : Prop := l.Pairwise fun a b => key a < key b

def TwoRuns (l : List α) : Prop := ∃ a b, l = a ++ b ∧ Run key a ∧ Run key b

variable {r h : α} {l : List α}

theorem insert_perm (r : α) (l : List α) : (insert key r l).Perm (r :: l) := by
  induction l with
  | nil => exact .rfl
  | cons tmp l ih =>
      cases l with
      | nil => exact .swap ..
      | cons next rest =>
          rw [insert]
          split
          · exact .swap ..
          · exact (ih.cons tmp).trans (.swap ..)

/-- The head stays the head. -/
theorem insert_cons (r h : α) (l : List α) : ∃ l', insert key r (h :: l) = h :: l' := by
  cases l with
  | nil => exact ⟨[r], rfl⟩
  | cons next rest =>
      rw [insert]
      split
      · exact ⟨_, rfl⟩
      · exact ⟨_, rfl⟩

variable {key}

/-! ## Two runs -/

theorem twoRuns_nil : TwoRuns key ([] : List α) := ⟨[], [], rfl, .nil, .nil⟩

theorem Run.cons {a : α} (ha : key a < key h) (hl : Run key (h :: l)) : Run key (a :: h :: l) := by
  refine List.pairwise_cons.mpr ⟨fun x hx => ?_, hl⟩
  rcases List.mem_cons.mp hx with rfl | hx
  · exact ha
  · exact ha.trans (List.rel_of_pairwise_cons hl hx)

theorem TwoRuns.tail (hl : TwoRuns key l) : TwoRuns key l.tail := by
  obtain ⟨a, b, rfl, ha, hb⟩ := hl
  cases a with
  | nil => exact ⟨[], b.tail, rfl, .nil, hb.tail⟩
  | cons x a => exact ⟨a, b, rfl, ha.tail, hb⟩

/-- Another head that is before everything the old one was before. -/
theorem TwoRuns.head {h' : α} (hl : TwoRuns key (h :: l))
    (hh : ∀ x ∈ l, key h < key x → key h' < key x) : TwoRuns key (h' :: l) := by
  obtain ⟨a, b, heq, ha, hb⟩ := hl
  cases a with
  | nil =>
      obtain rfl : b = h :: l := heq.symm
      refine ⟨[], h' :: l, rfl, .nil, List.pairwise_cons.mpr ⟨fun x hx => ?_, hb.tail⟩⟩
      exact hh x hx (List.rel_of_pairwise_cons hb hx)
  | cons y a =>
      obtain ⟨rfl, rfl⟩ := List.cons.inj heq
      refine ⟨h' :: a, b, rfl, List.pairwise_cons.mpr ⟨fun x hx => ?_, ha.tail⟩, hb⟩
      exact hh x (List.mem_append_left b hx) (List.rel_of_pairwise_cons ha hx)

/-- A request that belongs behind the head goes into the run. -/
theorem Run.insert (hl : Run key (h :: l)) (hr : key h < key r) (hne : ∀ x ∈ l, key x ≠ key r) :
    Run key (insert key r (h :: l)) := by
  induction l generalizing h with
  | nil => exact List.pairwise_pair.mpr hr
  | cons next rest ih =>
      rw [Elevator.insert]
      split
      · rename_i hbetween
        exact Run.cons hr (Run.cons hbetween.2 hl.tail)
      · rename_i hnot
        have hnext : key next < key r := by
          refine lt_of_le_of_ne (not_lt.mp fun hlt => hnot ⟨.inl hr, hlt⟩) ?_
          exact hne next List.mem_cons_self
        have hrun := ih hl.tail hnext fun x hx => hne x (List.mem_cons_of_mem next hx)
        obtain ⟨l', hl'⟩ := insert_cons key r next rest
        rw [hl'] at hrun ⊢
        exact Run.cons (List.rel_of_pairwise_cons hl List.mem_cons_self) hrun

/-- A request that belongs before the head goes behind the run. -/
theorem Run.insert_before (hl : Run key (h :: l)) (hr : key r < key h) :
    Elevator.insert key r (h :: l) = h :: l ++ [r] := by
  induction l generalizing h with
  | nil => rfl
  | cons next rest ih =>
      have hnext := List.rel_of_pairwise_cons hl List.mem_cons_self
      rw [Elevator.insert, if_neg, ih hl.tail (hr.trans hnext)]
      · rfl
      · rintro ⟨hor | hno, -⟩
        · exact absurd (hor.trans hr) (lt_irrefl _)
        · exact hno hnext

/-- The second run starts below the end of the first. -/
theorem insert_runs {a b : List α} {x : α} (ha : Run key (h :: a)) (hb : Run key (x :: b))
    (hfall : ∀ y, (h :: a).getLast? = some y → ¬key y < key x)
    (hne : ∀ y ∈ h :: a ++ x :: b, key y ≠ key r) :
    ∃ a' b', insert key r (h :: a ++ x :: b) = h :: a' ++ b' ∧ Run key (h :: a') ∧ Run key b' := by
  induction a generalizing h with
  | nil =>
      have hno : ¬key h < key x := hfall h rfl
      show ∃ a' b', insert key r (h :: x :: b) = _ ∧ _
      rw [insert]
      split
      · rename_i hbetween
        exact ⟨[], r :: x :: b, rfl, List.pairwise_singleton .., Run.cons hbetween.2 hb⟩
      · rename_i hnot
        refine ⟨[], insert key r (x :: b), rfl, List.pairwise_singleton .., hb.insert ?_ ?_⟩
        · refine lt_of_le_of_ne (not_lt.mp fun hlt => hnot ⟨.inr hno, hlt⟩) (hne x ?_)
          exact List.mem_cons_of_mem h List.mem_cons_self
        · exact fun y hy => hne y (List.mem_cons_of_mem h (List.mem_cons_of_mem x hy))
  | cons next rest ih =>
      have hnext := List.rel_of_pairwise_cons ha List.mem_cons_self
      show ∃ a' b', insert key r (h :: next :: (rest ++ x :: b)) = _ ∧ _
      rw [insert]
      split
      · rename_i hbetween
        obtain ⟨hor | hno, hlt⟩ := hbetween
        · exact ⟨r :: next :: rest, x :: b, rfl, Run.cons hor (Run.cons hlt ha.tail), hb⟩
        · exact absurd hnext hno
      · obtain ⟨a', b', heq, ha', hb'⟩ := ih ha.tail (by simpa using hfall) fun y hy =>
          hne y (List.mem_cons_of_mem h hy)
        rw [List.cons_append] at heq
        rw [heq]
        exact ⟨next :: a', b', rfl, Run.cons hnext ha', hb'⟩

/-- Two runs are one, or the second starts below the end of the first. -/
theorem Run.append {a b : List α} {x : α} (ha : Run key (h :: a)) (hb : Run key (x :: b)) :
    Run key (h :: a ++ x :: b) ∨ ∀ y, (h :: a).getLast? = some y → ¬key y < key x := by
  induction a generalizing h with
  | nil =>
      by_cases hx : key h < key x
      · exact .inl (Run.cons hx hb)
      · refine .inr fun y hy => ?_
        obtain rfl := Option.some.inj hy
        exact hx
  | cons next rest ih =>
      rcases ih ha.tail with hrun | hfall
      · exact .inl (Run.cons (List.rel_of_pairwise_cons ha List.mem_cons_self) hrun)
      · exact .inr (by simpa using hfall)

theorem Run.twoRuns_insert (hl : Run key (h :: l)) (hne : ∀ x ∈ h :: l, key x ≠ key r) :
    TwoRuns key (Elevator.insert key r (h :: l)) := by
  rcases lt_or_gt_of_ne (hne h List.mem_cons_self) with hr | hr
  · have hrun := hl.insert hr fun x hx => hne x (List.mem_cons_of_mem h hx)
    exact ⟨_, [], (List.append_nil _).symm, hrun, .nil⟩
  · exact ⟨h :: l, [r], hl.insert_before hr, hl, List.pairwise_singleton ..⟩

/-- **The elevator keeps two runs.** -/
theorem TwoRuns.insert (hl : TwoRuns key l) (hne : ∀ x ∈ l, key x ≠ key r) :
    TwoRuns key (insert key r l) := by
  obtain ⟨a, b, rfl, ha, hb⟩ := hl
  cases a with
  | nil =>
      cases b with
      | nil => exact ⟨[r], [], rfl, List.pairwise_singleton .., .nil⟩
      | cons x b => exact hb.twoRuns_insert hne
  | cons h a =>
      cases b with
      | nil =>
          rw [List.append_nil] at hne ⊢
          exact ha.twoRuns_insert hne
      | cons x b =>
          rcases ha.append hb with hrun | hfall
          · exact Run.twoRuns_insert hrun hne
          · obtain ⟨a', b', heq, ha', hb'⟩ := insert_runs ha hb hfall hne
            exact ⟨h :: a', b', heq, ha', hb'⟩

/-! ## Requests that overtake -/

section Class

variable (key) (p : α → Prop)

/-- Behind the head, everything of the class `p` comes last. -/
def Overtaken (l : List α) : Prop := l.tail.Pairwise fun a b => p a → p b

/-- Up to the first of the class behind the head, `r` has its place between no two neighbours. -/
def Missed (r : α) : List α → Prop
  | [] => False
  | [_] => False
  | tmp :: next :: rest => ¬Between key r tmp next ∧ (p next ∨ Missed r (next :: rest))

instance decidableMissed [DecidablePred p] (r : α) : ∀ l, Decidable (Missed key p r l)
  | [] => instDecidableFalse
  | [_] => instDecidableFalse
  | _ :: next :: rest =>
    have := decidableMissed r (next :: rest)
    inferInstanceAs (Decidable (_ ∧ (_ ∨ _)))

variable {key p}

theorem overtaken_cons_cons {next : α} (h : α) (l : List α) :
    Overtaken p (h :: next :: l) ↔ (∀ x ∈ l, p next → p x) ∧ Overtaken p (next :: l) :=
  List.pairwise_cons

/-- A request of the class goes behind all others. -/
theorem Overtaken.insert (hp : ∀ a b, ¬p a → p b → key a < key b) (hl : Overtaken p (h :: l))
    (hr : p r) : Overtaken p (insert key r (h :: l)) := by
  induction l generalizing h with
  | nil => exact List.pairwise_singleton ..
  | cons next rest ih =>
      obtain ⟨hnext, htail⟩ := (overtaken_cons_cons h rest).mp hl
      rw [Elevator.insert]
      split
      · rename_i hbetween
        have hpn : p next := by
          by_contra hno
          exact absurd (hbetween.2.trans (hp next r hno hr)) (lt_irrefl _)
        refine (overtaken_cons_cons h (next :: rest)).mpr ⟨fun x hx _ => ?_, ?_⟩
        · rcases List.mem_cons.mp hx with rfl | hx
          · exact hpn
          · exact hnext x hx hpn
        · exact (overtaken_cons_cons r rest).mpr ⟨hnext, htail⟩
      · have hins := ih htail
        obtain ⟨l', hl'⟩ := insert_cons key r next rest
        rw [hl'] at hins ⊢
        refine (overtaken_cons_cons h l').mpr ⟨fun x hx hpn => ?_, hins⟩
        have hperm : (next :: l').Perm (r :: next :: rest) := hl' ▸ insert_perm key r (next :: rest)
        have hmem := (hperm.trans (.swap ..)).cons_inv.mem_iff.mp hx
        rcases List.mem_cons.mp hmem with rfl | hx
        · exact hr
        · exact hnext x hx hpn

/-- Exactly the requests that miss their place are not put before the class. -/
theorem overtaken_insert_iff (hp : ∀ a b, ¬p a → p b → key a < key b)
    (hl : Overtaken p (h :: l)) :
    Overtaken p (insert key r (h :: l)) ↔ p r ∨ ¬Missed key p r (h :: l) := by
  by_cases hr : p r
  · exact iff_of_true (hl.insert hp hr) (.inl hr)
  rw [or_iff_right hr]
  induction l generalizing h with
  | nil => exact iff_of_true (List.pairwise_singleton ..) id
  | cons next rest ih =>
      obtain ⟨hnext, htail⟩ := (overtaken_cons_cons h rest).mp hl
      rw [Elevator.insert, Missed]
      split
      · rename_i hbetween
        refine iff_of_true ?_ fun hmiss => hmiss.1 hbetween
        exact (overtaken_cons_cons h (next :: rest)).mpr ⟨fun _ _ hno => absurd hno hr,
          (overtaken_cons_cons r rest).mpr ⟨hnext, htail⟩⟩
      · rename_i hnot
        obtain ⟨l', hl'⟩ := insert_cons key r next rest
        have hperm : (next :: l').Perm (r :: next :: rest) := hl' ▸ insert_perm key r (next :: rest)
        by_cases hpn : p next
        · refine iff_of_false (fun hins => ?_) fun hno => hno ⟨hnot, .inl hpn⟩
          rw [hl'] at hins
          have hmem : r ∈ l' := (hperm.trans (.swap ..)).cons_inv.mem_iff.mpr List.mem_cons_self
          exact hr (((overtaken_cons_cons h l').mp hins).1 r hmem hpn)
        · have hiff := ih htail
          rw [hl'] at hiff ⊢
          rw [overtaken_cons_cons, hiff]
          constructor
          · rintro ⟨-, hmiss⟩ ⟨-, hor⟩
            exact hor.elim hpn hmiss
          · intro hno
            exact ⟨fun _ _ hpx => absurd hpx hpn, fun hmiss => hno ⟨hnot, .inr hmiss⟩⟩

end Class

end Elevator
