import Mathlib.Logic.Relation
import Mathlib.Logic.Function.Basic
import Mathlib.Data.List.Nodup

/-!
# Chains of pointers

Nodes of a type `T` and a pointer `next` in each node. `Path next p l` says
that following `next` from the pointer `p` runs through exactly the nodes of
`l`, in order, and then hits the null pointer.

A `Forest` is a family of pointers whose paths share no node. It is what
remains of a list that is cut and regrown at its front while older parts of it
are still being walked: `Forest.push` puts a new node in front of one path,
`Forest.advance` moves a path to the pointer saved in its first node.
-/

namespace Links

open Function

variable {T K : Type*} {next next' : T → Option T} {p : Option T}

/-- Following `next` from `p` visits exactly the nodes of the list. -/
def Path (next : T → Option T) : Option T → List T → Prop
  | p, [] => p = none
  | p, a :: l => p = some a ∧ Path next (next a) l

@[simp] theorem path_nil : Path next p [] ↔ p = none := Iff.rfl

@[simp] theorem path_cons {a : T} {l : List T} :
    Path next p (a :: l) ↔ p = some a ∧ Path next (next a) l := Iff.rfl

/-- A path only depends on the pointers of its own nodes. -/
theorem Path.congr : ∀ {l : List T} {p : Option T}, (∀ a ∈ l, next' a = next a) →
    Path next p l → Path next' p l
  | [], _, _, h => h
  | a :: l, _, hl, ⟨hp, h⟩ => by
      refine ⟨hp, ?_⟩
      rw [hl a (List.mem_cons_self ..)]
      exact h.congr fun b hb => hl b (List.mem_cons_of_mem _ hb)

theorem Path.unique : ∀ {l l' : List T} {p : Option T}, Path next p l →
    Path next p l' → l = l'
  | [], [], _, _, _ => rfl
  | [], b :: _, _, h, ⟨h', _⟩ => by rw [h] at h'; cases h'
  | a :: _, [], _, ⟨h, _⟩, h' => by rw [h'] at h; cases h
  | a :: l, b :: l', _, ⟨h, hl⟩, ⟨h', hl'⟩ => by
      obtain rfl : a = b := Option.some.inj (h.symm.trans h')
      rw [hl.unique hl']

theorem Path.null {l : List T} (h : Path next none l) : l = [] := by
  cases l with
  | nil => rfl
  | cons a l => cases h.1

/-- One node points at another. -/
def Link (next : T → Option T) (a b : T) : Prop := next a = some b

/-- Every node of a path that starts in a node's pointer lies behind that node. -/
theorem Path.transGen : ∀ {l : List T} {r t : T}, Path next (next r) l → t ∈ l →
    Relation.TransGen (Link next) r t
  | [], _, _, _, ht => (List.not_mem_nil ht).elim
  | a :: l, r, t, ⟨hr, hl⟩, ht => by
      rcases List.mem_cons.mp ht with rfl | ht
      · exact .single hr
      · exact .head hr (hl.transGen ht)

/-- Every node of a path is its first node or lies behind it. -/
theorem Path.reflTransGen {l : List T} {a t : T} (h : Path next (some a) l)
    (ht : t ∈ l) : Relation.ReflTransGen (Link next) a t := by
  cases l with
  | nil => exact (List.not_mem_nil ht).elim
  | cons b l =>
      obtain ⟨hab, hl⟩ := h
      obtain rfl : a = b := Option.some.inj hab
      rcases List.mem_cons.mp ht with rfl | ht
      · exact .refl
      · exact (hl.transGen ht).to_reflTransGen

theorem Path.head_mem {l : List T} {t : T} (h : Path next p l) (hp : p = some t) : t ∈ l := by
  cases l with
  | nil => rw [hp] at h; cases h
  | cons b l =>
      obtain rfl : t = b := Option.some.inj (hp.symm.trans h.1)
      exact List.mem_cons_self ..

/-- The next node of a node of a path is on the path. -/
theorem Path.next_mem : ∀ {l : List T} {p : Option T} {r t : T}, Path next p l → r ∈ l →
    next r = some t → t ∈ l
  | [], _, _, _, _, hr, _ => (List.not_mem_nil hr).elim
  | a :: l, _, r, t, ⟨_, hl⟩, hr, hrt => by
      rcases List.mem_cons.mp hr with rfl | hr
      · exact List.mem_cons_of_mem _ (hl.head_mem hrt)
      · exact List.mem_cons_of_mem _ (hl.next_mem hr hrt)

/-- A node that is not the first of a path is the next one of another node of it. -/
theorem Path.prev : ∀ {l : List T} {p : Option T} {t : T}, Path next p l → t ∈ l →
    p = some t ∨ ∃ r ∈ l, next r = some t
  | [], _, _, _, ht => (List.not_mem_nil ht).elim
  | a :: l, p, t, ⟨hp, hl⟩, ht => by
      rcases List.mem_cons.mp ht with rfl | ht
      · exact Or.inl hp
      · rcases hl.prev ht with ha | ⟨r, hr, hrt⟩
        · exact Or.inr ⟨a, List.mem_cons_self .., ha⟩
        · exact Or.inr ⟨r, List.mem_cons_of_mem _ hr, hrt⟩

/-- The nodes behind the first one: where the pointers of a path lead. -/
theorem Path.next_tail {a : T} {l : List T} (h : Path next p (a :: l)) {r t : T}
    (hr : r ∈ a :: l) (hrt : next r = some t) : t ∈ l := by
  rcases List.mem_cons.mp hr with rfl | hr
  · exact h.2.head_mem hrt
  · exact h.2.next_mem hr hrt

/-- On a path without repetition no pointer leads back to the start. -/
theorem Path.next_ne {l : List T} (h : Path next p l) (hnd : l.Nodup) {r t : T} (hr : r ∈ l)
    (hrt : next r = some t) : p ≠ some t := by
  cases l with
  | nil => exact (List.not_mem_nil hr).elim
  | cons a l =>
      intro hp
      obtain rfl : a = t := Option.some.inj (h.1.symm.trans hp)
      exact (List.nodup_cons.mp hnd).1 (h.next_tail hr hrt)

/-- On a path without repetition the pointers are told apart by their targets. -/
theorem Path.next_inj : ∀ {l : List T} {p : Option T}, Path next p l → l.Nodup →
    ∀ {r r' t}, r ∈ l → r' ∈ l → next r = some t → next r' = some t → r = r'
  | [], _, _, _, _, _, _, hr, _, _, _ => (List.not_mem_nil hr).elim
  | a :: l, p, ⟨hp, hl⟩, hnd, r, r', t, hr, hr', hrt, hrt' => by
      have hnd' := (List.nodup_cons.mp hnd).2
      rcases List.mem_cons.mp hr with rfl | h₁
      · rcases List.mem_cons.mp hr' with rfl | h₂
        · rfl
        · exact absurd hrt (hl.next_ne hnd' h₂ hrt')
      · rcases List.mem_cons.mp hr' with rfl | h₂
        · exact absurd hrt' (hl.next_ne hnd' h₁ hrt)
        · exact hl.next_inj hnd' h₁ h₂ hrt hrt'

/-- Behind a node of a path is the rest of it. -/
theorem Path.drop : ∀ {l₁ : List T} {p : Option T} {b : T} {l₂ : List T},
    Path next p (l₁ ++ b :: l₂) → Path next (next b) l₂
  | [], _, _, _, h => h.2
  | a :: l₁, _, b, l₂, h => by
      have hl : Path next (next a) (l₁ ++ b :: l₂) := h.2
      exact hl.drop

/-- The node behind `b` is taken off the path. -/
theorem Path.unlink [DecidableEq T] : ∀ {l₁ : List T} {p : Option T} {b a : T} {l₂ : List T},
    Path next p (l₁ ++ b :: a :: l₂) → (l₁ ++ b :: a :: l₂).Nodup →
      Path (update next b (next a)) p (l₁ ++ b :: l₂)
  | [], _, b, a, l₂, ⟨hp, _, hl⟩, hnd => by
      have hb : b ∉ a :: l₂ := (List.nodup_cons.mp hnd).1
      refine ⟨hp, ?_⟩
      rw [update_self]
      exact hl.congr fun c hc =>
        update_of_ne (fun e : c = b => hb (e ▸ List.mem_cons_of_mem _ hc)) _ _
  | c :: l₁, _, b, a, l₂, ⟨hp, hl⟩, hnd => by
      have hne : c ≠ b := fun e => (List.nodup_cons.mp hnd).1 (by rw [e]; simp)
      refine ⟨hp, ?_⟩
      rw [update_of_ne hne]
      exact hl.unlink (List.nodup_cons.mp hnd).2

/-- When the pointer of `r` is cut, a node behind `s` stays behind `s`, or it is behind
the node that `r` pointed at. -/
theorem reach_cut [DecidableEq T] {r s t : T}
    (h : Relation.ReflTransGen (Link next) s t) (hne : t ≠ r) :
    (s ≠ r ∧ Relation.ReflTransGen (Link (update next r none)) s t) ∨
      ∃ a, next r = some a ∧ Relation.ReflTransGen (Link (update next r none)) a t := by
  induction h using Relation.ReflTransGen.head_induction_on with
  | refl => exact Or.inl ⟨hne, .refl⟩
  | @head s b hsb _ ih =>
      rcases ih with ⟨-, hb⟩ | hr
      · rcases eq_or_ne s r with rfl | hs
        · exact Or.inr ⟨b, hsb, hb⟩
        · have hlink : Link (update next r none) s b := by
            rw [Link, update_of_ne hs]
            exact hsb
          exact Or.inl ⟨hs, hb.head hlink⟩
      · exact Or.inr hr

/-! ## Families of disjoint paths -/

/-- The pointers `ptr k` start paths through the lists `own k`, and no node is
on two of them or twice on one. -/
structure Forest (next : T → Option T) (ptr : K → Option T) (own : K → List T) :
    Prop where
  path : ∀ k, Path next (ptr k) (own k)
  nodup : ∀ k, (own k).Nodup
  disjoint : ∀ {k k' t}, t ∈ own k → t ∈ own k' → k = k'

namespace Forest

variable {ptr ptr' : K → Option T} {own : K → List T}

theorem congr (h : Forest next ptr own) (hn : ∀ k, ∀ a ∈ own k, next' a = next a)
    (hp : ∀ k, ptr' k = ptr k) : Forest next' ptr' own :=
  ⟨fun k => by rw [hp k]; exact (h.path k).congr (hn k), h.nodup, h.disjoint⟩

/-- The path of a pointer at `a` starts with `a`. -/
theorem own_of_ptr (h : Forest next ptr own) {k : K} {a : T} (hk : ptr k = some a) :
    ∃ l, own k = a :: l ∧ Path next (next a) l := by
  have hpath := h.path k
  cases hl : own k with
  | nil => rw [hl, path_nil, hk] at hpath; cases hpath
  | cons b l =>
      rw [hl, path_cons, hk] at hpath
      obtain ⟨hab, hrest⟩ := hpath
      obtain rfl : a = b := Option.some.inj hab
      exact ⟨l, rfl, hrest⟩

/-- Only one pointer of the family points at a given node, and no node of the
family does. -/
theorem ptr_unique (h : Forest next ptr own) {k k' : K} {a : T} (hk : ptr k = some a)
    (hk' : ptr k' = some a) : k = k' := by
  obtain ⟨l, hl, -⟩ := h.own_of_ptr hk
  obtain ⟨l', hl', -⟩ := h.own_of_ptr hk'
  exact h.disjoint (t := a) (by rw [hl]; exact List.mem_cons_self ..)
    (by rw [hl']; exact List.mem_cons_self ..)

/-- A node of the family has one pointer to it, from `ptr` or from another node. -/
theorem pointed (h : Forest next ptr own) {k : K} {t : T} (ht : t ∈ own k) :
    ptr k = some t ∨ ∃ r, r ∈ own k ∧ next r = some t :=
  ((h.path k).prev ht).imp_right fun ⟨r, hr, hrt⟩ => ⟨r, hr, hrt⟩

/-- Where a node of the family points, no pointer of `ptr` does. -/
theorem ptr_ne_next (h : Forest next ptr own) {k k' : K} {r t : T} (hr : r ∈ own k)
    (hrt : next r = some t) : ptr k' ≠ some t := by
  intro hk'
  have ht : t ∈ own k := (h.path k).next_mem hr hrt
  obtain rfl : k = k' := h.disjoint ht ((h.path k').head_mem hk')
  exact (h.path k).next_ne (h.nodup k) hr hrt hk'

/-- Two nodes of the family do not point at the same node. -/
theorem next_unique (h : Forest next ptr own) {k k' : K} {r r' t : T} (hr : r ∈ own k)
    (hr' : r' ∈ own k') (hrt : next r = some t) (hrt' : next r' = some t) : r = r' := by
  obtain rfl : k = k' :=
    h.disjoint ((h.path k).next_mem hr hrt) ((h.path k').next_mem hr' hrt')
  exact (h.path k).next_inj (h.nodup k) hr hr' hrt hrt'

/-- Other paths through fewer of the nodes. -/
theorem of_sublist {own' : K → List T} (h : Forest next ptr own)
    (hpath : ∀ k, Path next' (ptr' k) (own' k)) (hsub : ∀ k, (own' k).Sublist (own k)) :
    Forest next' ptr' own' :=
  ⟨hpath, fun k => (h.nodup k).sublist (hsub k), fun h₁ h₂ =>
    h.disjoint ((hsub _).subset h₁) ((hsub _).subset h₂)⟩

variable [DecidableEq K]

/-- The first node of a path is taken off it. -/
theorem unlink_head (h : Forest next ptr own) {k : K} {a : T} {l : List T}
    (hk : own k = a :: l) : Forest next (update ptr k (next a)) (update own k l) := by
  refine h.of_sublist (fun k' => ?_) fun k' => ?_
  · rcases eq_or_ne k' k with rfl | hne
    · have hpath := h.path k'
      rw [hk] at hpath
      simpa using hpath.2
    · simpa [hne] using h.path k'
  · rcases eq_or_ne k' k with rfl | hne
    · simp [hk]
    · simp [hne]

/-- A node that has one before it is taken off its path. -/
theorem unlink_behind [DecidableEq T] (h : Forest next ptr own) {k : K} {b a : T}
    {l₁ l₂ : List T} (hk : own k = l₁ ++ b :: a :: l₂) :
    Forest (update next b (next a)) ptr (update own k (l₁ ++ b :: l₂)) := by
  have hb : b ∈ own k := by simp [hk]
  refine h.of_sublist (fun k' => ?_) fun k' => ?_
  · rcases eq_or_ne k' k with rfl | hne
    · have hpath := h.path k'
      have hnd := h.nodup k'
      rw [hk] at hpath hnd
      simpa using hpath.unlink hnd
    · rw [update_of_ne hne]
      exact (h.path k').congr fun c hc =>
        update_of_ne (fun e : c = b => hne (h.disjoint hc (e ▸ hb))) _ _
  · rcases eq_or_ne k' k with rfl | hne
    · simp [hk]
    · simp [hne]

/-- New nodes become the path of `k`, which had none. -/
theorem put (h : Forest next ptr own) {k : K} {p : Option T} {l : List T} (hk : own k = [])
    (hl : Path next p l) (hnd : l.Nodup) (hnew : ∀ k', ∀ a ∈ l, a ∉ own k') :
    Forest next (update ptr k p) (update own k l) := by
  refine ⟨fun k' => ?_, fun k' => ?_, fun {k₁ k₂ a} h₁ h₂ => ?_⟩
  · rcases eq_or_ne k' k with rfl | hne
    · simpa using hl
    · simpa [hne] using h.path k'
  · rcases eq_or_ne k' k with rfl | hne
    · simpa using hnd
    · simpa [hne] using h.nodup k'
  · rcases eq_or_ne k₁ k with rfl | hne₁
    · rcases eq_or_ne k₂ k₁ with rfl | hne₂
      · rfl
      · rw [update_self] at h₁
        rw [update_of_ne hne₂] at h₂
        exact absurd h₂ (hnew k₂ a h₁)
    · rw [update_of_ne hne₁] at h₁
      rcases eq_or_ne k₂ k with rfl | hne₂
      · rw [update_self] at h₂
        exact absurd h₁ (hnew k₁ a h₂)
      · rw [update_of_ne hne₂] at h₂
        exact h.disjoint h₁ h₂

/-- Put a node `t` that is on no path in front of the path of `k`. -/
theorem push [DecidableEq T] (h : Forest next ptr own) (k : K) {t : T} (ht : ∀ k', t ∉ own k') :
    Forest (update next t (ptr k)) (update ptr k (some t))
      (update own k (t :: own k)) := by
  have hkeep : ∀ k', ∀ a ∈ own k', update next t (ptr k) a = next a :=
    fun k' a ha => update_of_ne (fun e : a = t => ht k' (e ▸ ha)) _ _
  refine ⟨fun k' => ?_, fun k' => ?_, fun {k₁ k₂ a} h₁ h₂ => ?_⟩
  · by_cases hk : k' = k
    · subst hk
      simpa using (h.path k').congr (hkeep k')
    · simpa [hk] using (h.path k').congr (hkeep k')
  · by_cases hk : k' = k
    · subst hk
      simpa using ⟨ht k', h.nodup k'⟩
    · simpa [hk] using h.nodup k'
  · have hside : ∀ k', a ∈ update own k (t :: own k) k' →
        (k' = k ∧ a = t) ∨ a ∈ own k' := by
      intro k' ha
      by_cases hk : k' = k
      · subst hk
        simpa using ha
      · exact Or.inr (by simpa [hk] using ha)
    rcases hside k₁ h₁ with ⟨e₁, ea⟩ | h₁' <;> rcases hside k₂ h₂ with ⟨e₂, ea'⟩ | h₂'
    · exact e₁.trans e₂.symm
    · exact absurd (ea ▸ h₂') (ht k₂)
    · exact absurd (ea' ▸ h₁') (ht k₁)
    · exact h.disjoint h₁' h₂'

/-- Take the first node `a` off the path of `k`; the rest of the path now
belongs to `k'`, which had none. -/
theorem advance (h : Forest next ptr own) {k k' : K} {a : T} {l : List T}
    (hk : own k = a :: l) (hk' : own k' = []) :
    Forest next (update (update ptr k none) k' (next a))
      (update (update own k []) k' l) := by
  have hne : k ≠ k' := fun e => by rw [e, hk'] at hk; cases hk
  have hpath := h.path k
  rw [hk] at hpath
  have hnd := h.nodup k
  rw [hk, List.nodup_cons] at hnd
  have hown : ∀ {k₁ b}, b ∈ update (update own k []) k' l k₁ →
      (k₁ = k' ∧ b ∈ l) ∨ (k₁ ≠ k ∧ b ∈ own k₁) := by
    intro k₁ b hb
    by_cases h₁ : k₁ = k'
    · subst h₁
      exact Or.inl ⟨rfl, by simpa using hb⟩
    · by_cases h₂ : k₁ = k
      · subst h₂
        simp [h₁] at hb
      · exact Or.inr ⟨h₂, by simpa [h₁, h₂] using hb⟩
  refine ⟨fun k₁ => ?_, fun k₁ => ?_, fun {k₁ k₂ b} h₁ h₂ => ?_⟩
  · by_cases h₁ : k₁ = k'
    · subst h₁
      simpa using hpath.2
    · by_cases h₂ : k₁ = k
      · subst h₂
        simp [h₁]
      · simpa [h₁, h₂] using h.path k₁
  · by_cases h₁ : k₁ = k'
    · subst h₁
      simpa using hnd.2
    · by_cases h₂ : k₁ = k
      · subst h₂
        simp [h₁]
      · simpa [h₁, h₂] using h.nodup k₁
  · have hl : ∀ {b}, b ∈ l → b ∈ own k := fun hb => by
      rw [hk]; exact List.mem_cons_of_mem _ hb
    rcases hown h₁ with ⟨e₁, b₁⟩ | ⟨n₁, b₁⟩ <;> rcases hown h₂ with ⟨e₂, b₂⟩ | ⟨n₂, b₂⟩
    · exact e₁.trans e₂.symm
    · exact absurd (h.disjoint (hl b₁) b₂).symm n₂
    · exact absurd (h.disjoint (hl b₂) b₁).symm n₁
    · exact h.disjoint b₁ b₂

end Forest

end Links
