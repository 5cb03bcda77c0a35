import Mathlib.Data.List.Nodup
import Mathlib.Logic.Function.Basic

/-!
# Doubly linked lists

Nodes of a type `T` with a pointer `next` and a pointer `prev` in each. `Seg next prev b l e`
says that the nodes of `l` are linked both ways in order, that the first one points
back at `b` and that the last one points on to `e`. With `none` at both ends it is a
`Chain` that starts in a pointer, closed on itself it is a `Ring`.

`unlinkNext` and `unlinkPrev` are the two stores that take a node out of either.

A segment is defined by recursion on its list, with what is in front of it and behind it as
parameters, so that it can be cut anywhere (`seg_append`) and that both kinds of list are the
same segment with other ends. Taking a node out changes two pointers, one in front and one
behind, and leaves a segment without the node; putting one at the front of a chain or at the end
of a ring is the reverse. A search follows `next` with a bound on its steps, and comes to the
first node of the list that meets its test.
-/

namespace DoubleLinks

open Function

variable {T : Type*} {next next' prev prev' : T → Option T} {b b' e e' p : Option T}
  {l l₁ l₂ : List T} {x : T}

/-- The nodes of `l` linked in order, between what is in front of them and behind them. -/
def Seg (next prev : T → Option T) (b : Option T) : List T → Option T → Prop
  | [], _ => True
  | a :: l, e => prev a = b ∧ next a = l.head?.or e ∧ Seg next prev (some a) l e

@[simp] theorem seg_nil : Seg next prev b [] e := trivial

@[simp] theorem seg_cons {a : T} :
    Seg next prev b (a :: l) e ↔
      prev a = b ∧ next a = l.head?.or e ∧ Seg next prev (some a) l e := Iff.rfl

theorem seg_append : Seg next prev b (l₁ ++ l₂) e ↔
    Seg next prev b l₁ (l₂.head?.or e) ∧ Seg next prev (l₁.getLast?.or b) l₂ e := by
  induction l₁ generalizing b with
  | nil => simp
  | cons a l ih =>
      have hlast : ((a :: l).getLast?).or b = (l.getLast?).or (some a) := by
        cases l <;> simp [List.getLast?_cons]
      rw [List.cons_append, seg_cons, seg_cons, ih, hlast]
      cases l <;> simp [and_assoc]

/-- A segment only depends on the pointers inside it and at its ends. -/
theorem Seg.rebound (h : Seg next prev b l e) (hnd : l.Nodup)
    (hnext : ∀ a ∈ l, l.getLast? ≠ some a → next' a = next a)
    (hprev : ∀ a ∈ l, l.head? ≠ some a → prev' a = prev a)
    (hlast : ∀ a, l.getLast? = some a → next' a = e')
    (hhead : ∀ a, l.head? = some a → prev' a = b') : Seg next' prev' b' l e' := by
  induction l generalizing b b' with
  | nil => trivial
  | cons a l ih =>
      obtain ⟨-, hn, hl⟩ := h
      obtain ⟨ha, hnd⟩ := List.nodup_cons.mp hnd
      refine ⟨hhead a rfl, ?_, ih hl hnd ?_ ?_ ?_ ?_⟩
      · cases l with
        | nil => exact hlast a rfl
        | cons c l =>
            rw [hnext a (List.mem_cons_self ..), hn]
            · rfl
            · intro hc
              exact ha (List.mem_of_getLast? (by simpa using hc))
      · intro c hc hne
        refine hnext c (List.mem_cons_of_mem _ hc) ?_
        cases l with
        | nil => cases hc
        | cons d l => simpa using hne
      · intro c hc _
        refine hprev c (List.mem_cons_of_mem _ hc) ?_
        rintro ⟨rfl⟩
        exact ha hc
      · intro c hc
        refine hlast c ?_
        cases l with
        | nil => cases hc
        | cons d l => simpa using hc
      · intro c hc
        have hmem : c ∈ l := List.mem_of_head? hc
        rw [hprev c (List.mem_cons_of_mem _ hmem) (by rintro ⟨rfl⟩; exact ha hmem)]
        cases l with
        | nil => cases hc
        | cons d l =>
            obtain rfl : d = c := Option.some.inj hc
            exact hl.1

/-- The links of a node inside a segment. -/
theorem Seg.links (h : Seg next prev b (l₁ ++ x :: l₂) e) :
    prev x = l₁.getLast?.or b ∧ next x = l₂.head?.or e :=
  have h := (seg_append.mp h).2
  ⟨h.1, h.2.1⟩

/-- Nodes whose pointers are those of their positions form a segment. -/
theorem Seg.of_getElem (h : ∀ i (hi : i < l.length),
    prev l[i] = (if i = 0 then b else l[i - 1]?) ∧ next l[i] = l[i + 1]?.or e) :
    Seg next prev b l e := by
  induction l generalizing b with
  | nil => trivial
  | cons a l ih =>
      refine ⟨(h 0 (Nat.succ_pos _)).1, ?_, ih fun i hi => ?_⟩
      · rw [List.head?_eq_getElem?]
        exact (h 0 (Nat.succ_pos _)).2
      · obtain ⟨hp, hn⟩ := h (i + 1) (Nat.succ_lt_succ hi)
        refine ⟨?_, hn⟩
        rw [List.getElem_cons_succ, if_neg (Nat.succ_ne_zero i)] at hp
        rw [hp]
        cases i <;> rfl

/-! ## Taking a node out -/

section Unlink

variable [DecidableEq T]

/-- The node in front of `x` points on to the node behind it. -/
def unlinkNext (next prev : T → Option T) (x : T) : T → Option T :=
  match prev x with
  | some a => update next a (next x)
  | none => next

/-- The node behind `x` points back at the node in front of it. -/
def unlinkPrev (next prev : T → Option T) (x : T) : T → Option T :=
  match next x with
  | some a => update prev a (prev x)
  | none => prev

theorem unlinkNext_self {a : T} (h : prev x = some a) : unlinkNext next prev x a = next x := by
  simp [unlinkNext, h]

theorem unlinkNext_of_ne {a : T} (h : prev x ≠ some a) :
    unlinkNext next prev x a = next a := by
  cases hc : prev x with
  | none => simp [unlinkNext, hc]
  | some c =>
      have hne : a ≠ c := fun hac => h (hac ▸ hc)
      simp [unlinkNext, hc, hne]

theorem unlinkPrev_self {a : T} (h : next x = some a) : unlinkPrev next prev x a = prev x := by
  simp [unlinkPrev, h]

theorem unlinkPrev_of_ne {a : T} (h : next x ≠ some a) :
    unlinkPrev next prev x a = prev a := by
  cases hc : next x with
  | none => simp [unlinkPrev, hc]
  | some c =>
      have hne : a ≠ c := fun hac => h (hac ▸ hc)
      simp [unlinkPrev, hc, hne]

end Unlink

/-! ## Chains that end in the null pointer -/

/-- The pointer `p` starts a list whose first node has nothing in front of it. -/
structure Chain (next prev : T → Option T) (p : Option T) (l : List T) : Prop where
  start : p = l.head?
  seg : Seg next prev none l none
  nodup : l.Nodup

theorem Chain.nil : Chain next prev none [] := ⟨rfl, trivial, List.nodup_nil⟩

theorem Chain.links (h : Chain next prev p (l₁ ++ x :: l₂)) :
    prev x = l₁.getLast? ∧ next x = l₂.head? := by
  simpa using h.seg.links

theorem Chain.next_mem {a : T} (h : Chain next prev p l) (hx : x ∈ l) (ha : next x = some a) :
    a ∈ l := by
  obtain ⟨l₁, l₂, rfl⟩ := List.append_of_mem hx
  have hn := h.links.2.symm.trans ha
  exact List.mem_append_right _ (List.mem_cons_of_mem _ (List.mem_of_head? hn))

theorem Chain.prev_mem {a : T} (h : Chain next prev p l) (hx : x ∈ l) (ha : prev x = some a) :
    a ∈ l := by
  obtain ⟨l₁, l₂, rfl⟩ := List.append_of_mem hx
  have hp := h.links.1.symm.trans ha
  exact List.mem_append_left _ (List.mem_of_getLast? hp)

/-- No node of a chain points at itself. -/
theorem Chain.next_ne (h : Chain next prev p l) (hx : x ∈ l) : next x ≠ some x := by
  obtain ⟨l₁, l₂, rfl⟩ := List.append_of_mem hx
  intro hn
  have hin : x ∈ l₂ := List.mem_of_head? (h.links.2.symm.trans hn)
  exact (List.nodup_cons.mp (List.nodup_append.mp h.nodup).2.1).1 hin

/-- Inside a chain the two pointers are inverse. -/
theorem Chain.inverse {a c : T} (h : Chain next prev p l) (ha : a ∈ l) (hc : c ∈ l) :
    next a = some c ↔ prev c = some a := by
  constructor
  · intro hac
    obtain ⟨l₁, l₂, rfl⟩ := List.append_of_mem ha
    obtain ⟨l₃, rfl⟩ := List.head?_eq_some_iff.mp (h.links.2.symm.trans hac)
    rw [List.append_cons] at h
    simpa using h.links.1
  · intro hca
    obtain ⟨l₁, l₂, rfl⟩ := List.append_of_mem hc
    obtain ⟨l₃, rfl⟩ := List.getLast?_eq_some_iff.mp (h.links.1.symm.trans hca)
    rw [List.append_assoc] at h
    exact h.links.2

/-- Chains only depend on the pointers of their own nodes. -/
theorem Chain.congr (h : Chain next prev p l) (hnext : ∀ a ∈ l, next' a = next a)
    (hprev : ∀ a ∈ l, prev' a = prev a) : Chain next' prev' p l := by
  refine ⟨h.start, h.seg.rebound h.nodup (fun a ha _ => hnext a ha)
    (fun a ha _ => hprev a ha) ?_ ?_, h.nodup⟩
  · intro a ha
    obtain ⟨l₁, rfl⟩ := List.getLast?_eq_some_iff.mp ha
    rw [hnext a (by simp)]
    simpa using h.seg.links.2
  · intro a ha
    obtain ⟨l₂, rfl⟩ := List.head?_eq_some_iff.mp ha
    rw [hprev a (by simp)]
    exact h.seg.1

/-- A new first node. -/
theorem Chain.push [DecidableEq T] (h : Chain next prev p l) (hx : x ∉ l)
    (hnext : next' = update next x p)
    (hprev : ∀ a, prev' a = if p = some a then some x else if a = x then none else prev a) :
    Chain next' prev' (some x) (x :: l) := by
  have hpx : p ≠ some x := by
    rw [h.start]
    exact fun hh => hx (List.mem_of_head? hh)
  have hne : ∀ a ∈ l, a ≠ x := fun a ha hax => hx (hax ▸ ha)
  refine ⟨rfl, ⟨?_, ?_, h.seg.rebound h.nodup ?_ ?_ ?_ ?_⟩, List.nodup_cons.mpr ⟨hx, h.nodup⟩⟩
  · rw [hprev, if_neg hpx, if_pos rfl]
  · rw [hnext, update_self, h.start, Option.or_none]
  · intro a ha _
    rw [hnext, update_of_ne (hne a ha)]
  · intro a ha hhead
    rw [hprev, if_neg (h.start ▸ hhead), if_neg (hne a ha)]
  · intro a ha
    rw [hnext, update_of_ne (hne a (List.mem_of_getLast? ha))]
    obtain ⟨l₁, rfl⟩ := List.getLast?_eq_some_iff.mp ha
    simpa using h.seg.links.2
  · intro a ha
    rw [hprev, if_pos (h.start.trans ha)]

/-- A node taken out of a chain, which may be the one the chain starts with. -/
theorem Chain.unlink [DecidableEq T] (h : Chain next prev p l) (hx : x ∈ l) :
    Chain (unlinkNext next prev x) (unlinkPrev next prev x)
      (if p = some x then next x else p) (l.erase x) := by
  obtain ⟨l₁, l₂, rfl⟩ := List.append_of_mem hx
  have hnd := h.nodup
  rw [List.nodup_append, List.nodup_cons] at hnd
  obtain ⟨hnd₁, ⟨hx₂, hnd₂⟩, hdis⟩ := hnd
  have hx₁ : x ∉ l₁ := fun hm => hdis x hm x (List.mem_cons_self ..) rfl
  have herase : (l₁ ++ x :: l₂).erase x = l₁ ++ l₂ := by
    rw [List.erase_append_right _ hx₁, List.erase_cons_head]
  obtain ⟨hxp, hxn⟩ := h.seg.links
  rw [Option.or_none] at hxp hxn
  obtain ⟨hs₁, -, -, hs₂⟩ := seg_append.mp h.seg
  have hapart : ∀ a ∈ l₁, a ∉ l₂ := fun a ha ha' => hdis a ha a (List.mem_cons_of_mem _ ha') rfl
  have hprev₁ : ∀ a ∈ l₁, next x ≠ some a := by
    intro a ha hh
    exact hapart a ha (List.mem_of_head? (hxn ▸ hh))
  have hnext₂ : ∀ a ∈ l₂, prev x ≠ some a := by
    intro a ha hh
    exact hapart a (List.mem_of_getLast? (hxp ▸ hh)) ha
  refine ⟨?_, ?_, h.nodup.erase x⟩
  · rw [herase, h.start, hxn]
    cases l₁ with
    | nil => simp
    | cons a l₁ =>
        have hax : a ≠ x := fun hax => hx₁ (hax ▸ List.mem_cons_self ..)
        simp [hax]
  · rw [herase, seg_append]
    constructor
    · refine hs₁.rebound hnd₁ ?_ ?_ ?_ ?_
      · intro a _ hne
        exact unlinkNext_of_ne (hxp ▸ hne)
      · intro a ha _
        exact unlinkPrev_of_ne (hprev₁ a ha)
      · intro a ha
        rw [unlinkNext_self (hxp.trans ha), hxn, Option.or_none]
      · intro a ha
        rw [unlinkPrev_of_ne (hprev₁ a (List.mem_of_head? ha))]
        obtain ⟨l₃, rfl⟩ := List.head?_eq_some_iff.mp ha
        exact hs₁.1
    · refine hs₂.rebound hnd₂ ?_ ?_ ?_ ?_
      · intro a ha _
        exact unlinkNext_of_ne (hnext₂ a ha)
      · intro a _ hne
        exact unlinkPrev_of_ne (hxn ▸ hne)
      · intro a ha
        rw [unlinkNext_of_ne (hnext₂ a (List.mem_of_getLast? ha))]
        obtain ⟨l₃, rfl⟩ := List.getLast?_eq_some_iff.mp ha
        simpa using hs₂.links.2
      · intro a ha
        rw [unlinkPrev_self (hxn.trans ha), hxp, Option.or_none]

/-! ## Rings -/

/-- The list closed on itself: behind the last node comes the first. -/
structure Ring (next prev : T → Option T) (l : List T) : Prop where
  seg : Seg next prev l.getLast? l l.head?
  nodup : l.Nodup

theorem or_or_self (u v : Option T) : u.or (v.or u) = u.or v := by
  cases u <;> simp

/-- A ring may be read from any of its nodes. -/
theorem Ring.rotate (h : Ring next prev (l₁ ++ l₂)) : Ring next prev (l₂ ++ l₁) := by
  refine ⟨?_, List.nodup_append_comm.mp h.nodup⟩
  have hseg := h.seg
  rw [seg_append, List.getLast?_append, List.head?_append, or_or_self, or_or_self] at hseg
  rw [seg_append, List.getLast?_append, List.head?_append, or_or_self, or_or_self]
  exact hseg.symm

theorem Ring.congr (h : Ring next prev l) (hnext : ∀ a ∈ l, next' a = next a)
    (hprev : ∀ a ∈ l, prev' a = prev a) : Ring next' prev' l := by
  refine ⟨h.seg.rebound h.nodup (fun a ha _ => hnext a ha) (fun a ha _ => hprev a ha) ?_ ?_,
    h.nodup⟩
  · intro a ha
    rw [hnext a (List.mem_of_getLast? ha)]
    obtain ⟨l₁, rfl⟩ := List.getLast?_eq_some_iff.mp ha
    simpa using h.seg.links.2
  · intro a ha
    rw [hprev a (List.mem_of_head? ha)]
    obtain ⟨l₂, rfl⟩ := List.head?_eq_some_iff.mp ha
    exact h.seg.1

/-- A ring read from its node `x`. -/
theorem Ring.from (h : Ring next prev (x :: l)) :
    prev x = l.getLast?.or (some x) ∧ next x = l.head?.or (some x) ∧
      Seg next prev (some x) l (some x) := by
  have hseg := h.seg
  rw [List.getLast?_cons] at hseg
  exact ⟨by rw [hseg.1]; cases l.getLast? <;> rfl, hseg.2.1, hseg.2.2⟩

/-- The pointers of a node of a ring lead to nodes of the ring. -/
theorem Ring.links (h : Ring next prev l) (hx : x ∈ l) :
    ∃ a ∈ l, ∃ c ∈ l, prev x = some a ∧ next x = some c := by
  obtain ⟨l₁, l₂, rfl⟩ := List.append_of_mem hx
  obtain ⟨hp, hn, -⟩ := h.rotate.from
  have hmem : ∀ a ∈ l₂ ++ l₁, a ∈ l₁ ++ x :: l₂ := by
    intro a ha
    rw [List.mem_append] at ha
    rcases ha with ha | ha
    · exact List.mem_append_right _ (List.mem_cons_of_mem _ ha)
    · exact List.mem_append_left _ ha
  have hp : ∃ a ∈ l₁ ++ x :: l₂, prev x = some a := by
    cases hl : (l₂ ++ l₁).getLast? with
    | none => exact ⟨x, hx, by rw [hp]; exact congrArg (Option.or · _) hl⟩
    | some a =>
        exact ⟨a, hmem a (List.mem_of_getLast? hl), by rw [hp]; exact congrArg (Option.or · _) hl⟩
  have hn : ∃ c ∈ l₁ ++ x :: l₂, next x = some c := by
    cases hl : (l₂ ++ l₁).head? with
    | none => exact ⟨x, hx, by rw [hn]; exact congrArg (Option.or · _) hl⟩
    | some c =>
        exact ⟨c, hmem c (List.mem_of_head? hl), by rw [hn]; exact congrArg (Option.or · _) hl⟩
  obtain ⟨a, ha, hp⟩ := hp
  obtain ⟨c, hc, hn⟩ := hn
  exact ⟨a, ha, c, hc, hp, hn⟩

/-- A node taken out of a ring. -/
theorem Ring.unlink [DecidableEq T] (h : Ring next prev l) (hx : x ∈ l) :
    Ring (unlinkNext next prev x) (unlinkPrev next prev x) (l.erase x) := by
  obtain ⟨l₁, l₂, rfl⟩ := List.append_of_mem hx
  have hx₁ : x ∉ l₁ := by
    intro hm
    exact List.disjoint_of_nodup_append h.nodup hm (List.mem_cons_self ..)
  rw [List.erase_append_right _ hx₁, List.erase_cons_head]
  have h' : Ring next prev (x :: (l₂ ++ l₁)) := h.rotate
  obtain ⟨hp, hn, hseg⟩ := h'.from
  obtain ⟨hxl, hnd⟩ := List.nodup_cons.mp h'.nodup
  refine Ring.rotate ⟨hseg.rebound hnd ?_ ?_ ?_ ?_, hnd⟩
  · intro a ha hne
    refine unlinkNext_of_ne fun hpa => ?_
    rw [hp, Option.or_eq_some_iff] at hpa
    rcases hpa with hlast | ⟨-, hxa⟩
    · exact hne hlast
    · obtain rfl := Option.some.inj hxa
      exact hxl ha
  · intro a ha hne
    refine unlinkPrev_of_ne fun hna => ?_
    rw [hn, Option.or_eq_some_iff] at hna
    rcases hna with hhead | ⟨-, hxa⟩
    · exact hne hhead
    · obtain rfl := Option.some.inj hxa
      exact hxl ha
  · intro a ha
    rw [unlinkNext_self (by rw [hp, ha]; rfl), hn]
    cases hl : (l₂ ++ l₁).head? with
    | none => rw [List.head?_eq_none_iff.mp hl] at ha; cases ha
    | some c => rfl
  · intro a ha
    rw [unlinkPrev_self (by rw [hn, ha]; rfl), hp]
    cases hl : (l₂ ++ l₁).getLast? with
    | none => rw [List.getLast?_eq_none_iff.mp hl] at ha; cases ha
    | some c => rfl

/-- A new last node of a ring that starts at `f`. -/
theorem Ring.pushBack [DecidableEq T] {f z : T} (h : Ring next prev (f :: l))
    (hx : x ∉ f :: l) (hz : prev f = some z) :
    Ring (update (update next x (some f)) z (some x)) (update (update prev x (some z)) f (some x))
      (f :: l ++ [x]) := by
  have hlast : (f :: l).getLast? = some z := by
    rw [List.getLast?_cons, ← hz, h.from.1]
    cases l.getLast? <;> rfl
  have hmem : z ∈ f :: l := List.mem_of_getLast? hlast
  have hne : ∀ a ∈ f :: l, a ≠ x := fun a ha hax => hx (hax ▸ ha)
  refine ⟨?_, ?_⟩
  · rw [seg_append, hlast, List.getLast?_concat]
    refine ⟨h.seg.rebound h.nodup ?_ ?_ ?_ ?_, ?_, ?_, trivial⟩
    · intro a ha hza
      rw [update_of_ne (by rintro rfl; exact hza hlast), update_of_ne (hne a ha)]
    · intro a ha hfa
      rw [update_of_ne (by rintro rfl; exact hfa rfl), update_of_ne (hne a ha)]
    · intro a ha
      obtain rfl := Option.some.inj (hlast.symm.trans ha)
      rw [update_self]
      rfl
    · rintro a ⟨rfl⟩
      rw [update_self]
    · rw [update_of_ne (hne f (List.mem_cons_self ..)).symm, update_self]
      rfl
    · rw [update_of_ne (hne z hmem).symm, update_self]
      rfl
  · exact List.nodup_append.mpr ⟨h.nodup, List.nodup_singleton x, by
      intro a ha b hb
      rw [List.mem_singleton.mp hb]
      exact hne a ha⟩

/-- The start of a ring that loses the node `x`. -/
theorem Ring.head_erase [DecidableEq T] {f q : T} (h : Ring next prev l)
    (hf : l.head? = some f) (hx : x ∈ l) (hq : next x = some q) (hne : l.erase x ≠ []) :
    (l.erase x).head? = some (if f = x then q else f) := by
  obtain ⟨l, rfl⟩ := List.head?_eq_some_iff.mp hf
  by_cases hfx : f = x
  · subst hfx
    have hn := h.from.2.1
    rw [List.erase_cons_head] at hne ⊢
    rw [if_pos rfl, ← hq, hn]
    cases l with
    | nil => exact absurd rfl hne
    | cons a l => rfl
  · rw [if_neg hfx, List.erase_cons_tail (by simpa using hfx), List.head?_cons]

/-- A node `x` between `p` and `q` taken out of a ring and put at its end. -/
theorem Ring.toBack [DecidableEq T] {f p q z : T} (h : Ring next prev l)
    (hf : l.head? = some f) (hx : x ∈ l) (hp : prev x = some p) (hq : next x = some q)
    (hz : update (update prev q (some p)) x (update prev q (some p) (if f = x then q else f))
      (if f = x then q else f) = some z) :
    Ring
      (update (update (update next p (some q)) x (some (if f = x then q else f))) z (some x))
      (update (update (update prev q (some p)) x
        (update prev q (some p) (if f = x then q else f))) (if f = x then q else f) (some x))
      (l.erase x ++ [x]) ∧
    (l.erase x ++ [x]).head? = some (if f = x then q else f) := by
  have hnext : update next p (some q) = unlinkNext next prev x := by
    rw [unlinkNext, hp, hq]
  have hprev : update prev q (some p) = unlinkPrev next prev x := by
    rw [unlinkPrev, hp, hq]
  rw [hprev] at hz ⊢
  rw [hnext]
  have hring := h.unlink hx
  have hxe : x ∉ l.erase x := h.nodup.not_mem_erase
  generalize hg : (if f = x then q else f) = g at *
  cases he : l.erase x with
  | nil =>
      -- the ring was `x` alone
      obtain rfl : l = [x] := by
        obtain ⟨l, rfl⟩ := List.head?_eq_some_iff.mp hf
        by_cases hfx : f = x
        · subst hfx
          rw [List.erase_cons_head] at he
          rw [he]
        · rw [List.erase_cons_tail (by simpa using hfx)] at he
          cases he
      obtain rfl : x = f := Option.some.inj hf
      have hpn : prev x = some x ∧ next x = some x := ⟨h.seg.1, h.seg.2.1⟩
      obtain rfl : x = p := Option.some.inj (hpn.1.symm.trans hp)
      obtain rfl : x = q := Option.some.inj (hpn.2.symm.trans hq)
      obtain rfl : x = g := by rw [← hg, if_pos rfl]
      obtain rfl : x = z := by
        rw [update_self, unlinkPrev_self hpn.2, hp] at hz
        exact Option.some.inj hz
      exact ⟨⟨⟨update_self .., update_self .., trivial⟩, List.nodup_singleton x⟩, rfl⟩
  | cons c t =>
      have hhead := h.head_erase hf hx hq (by rw [he]; exact List.cons_ne_nil c t)
      rw [hg, he] at hhead
      obtain rfl : c = g := Option.some.inj hhead
      rw [he] at hring hxe
      have hcx : c ≠ x := fun hc => hxe (hc ▸ List.mem_cons_self ..)
      rw [update_of_ne hcx] at hz
      rw [hz]
      exact ⟨hring.pushBack hxe hz, rfl⟩

/-! ## Following the pointers -/

/-- The first node of the list behind a pointer that meets the test, within `fuel` steps. -/
def search (next : T → Option T) (test : T → Bool) : Nat → Option T → Option T
  | 0, _ => none
  | _ + 1, none => none
  | fuel + 1, some a => if test a then some a else search next test fuel (next a)

theorem Seg.search {test : T → Bool} {fuel : Nat} (h : Seg next prev b l none)
    (hfuel : l.length ≤ fuel) : search next test fuel l.head? = l.find? test := by
  induction l generalizing b fuel with
  | nil => cases fuel <;> rfl
  | cons a l ih =>
      cases fuel with
      | zero => cases hfuel
      | succ fuel =>
          have hl := ih h.2.2 (Nat.le_of_succ_le_succ hfuel)
          rw [List.head?_cons, DoubleLinks.search, h.2.1, Option.or_none, hl, List.find?_cons]
          cases test a <;> rfl

/-- Enough steps search the whole chain. -/
theorem Chain.search (h : Chain next prev p l) {test : T → Bool} {fuel : Nat}
    (hfuel : l.length ≤ fuel) : search next test fuel p = l.find? test := by
  rw [h.start]
  exact h.seg.search hfuel

end DoubleLinks
