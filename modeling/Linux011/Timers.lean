import Linux011.Links
import Linux011.Runs
import Mathlib.Data.Fintype.Card
import Mathlib.Data.Int.Order.Basic
import Mathlib.Data.List.FinRange
import Mathlib.Order.Basic

/-!
# Timers

`add_timer` and the part of `do_timer` that is about timers, of `kernel/sched.c`. The list of
pending timers runs through `timer_list`; each delay counts from the timer in front of it, and a
new timer moves back from the head of the list by swapping contents.

The timer that a new one stops in front of keeps its delay, which now counts from the new one:
it and all behind it are late by what is left of the new delay. Timers fire in time as long as
each is due later than all that are pending (`timers_fire`).

The proof forgets the places in two steps. `Holds` reads the linked nodes as a list of delays
with their callbacks, of which each counts from the one before: `add_timer` is then `sift`, which
swaps the new delay with those in front of it, and a call of `do_timer` is `tick`, which makes
the first delay shorter and takes it out when it has ended. `dues` turns the delays into absolute
ticks by summing them up. On that level a tick changes nothing at all, and adding a timer that is
due later than all others puts its tick at the end (`sift_last`), which is the only case in which
the sums of the others stay what they were. `Timed` says that the sums are the ticks that were
asked for and have not come, and that the calls so far are those whose ticks have come.
-/

namespace Linux011

open Function Links Runs

namespace Timers

def TIME_REQUESTS : Nat := 64

/-- A place in `timer_list`. -/
abbrev Node : Type := Fin TIME_REQUESTS

/-- `timer_list` and `next_timer`, with callbacks `Fn`. The delays in the list are positive and
only get smaller, so that they stay in a `long`. -/
structure Table (Fn : Type) where
  jiffies : Node → Int
  fn : Node → Option Fn
  next : Node → Option Node
  next_timer : Option Node

variable {Fn : Type}

/-- The loop of `add_timer`: the contents of `p` and of the next node are swapped. -/
def bubble : Nat → Table Fn → Node → Table Fn
  | 0, t, _ => t
  | fuel + 1, t, p =>
    match t.next p with
    | none => t
    | some q =>
      if t.jiffies q < t.jiffies p then
        bubble fuel { t with
          jiffies := update (update t.jiffies q (t.jiffies p - t.jiffies q)) p (t.jiffies q)
          fn := update (update t.fn q (t.fn p)) p (t.fn q) } q
      else t

def freeNode (t : Table Fn) : Option Node :=
  (List.finRange TIME_REQUESTS).find? fun p => (t.fn p).isNone

/-- `add_timer`, with the callbacks that it calls; `none` is the panic. -/
def addTimer (t : Table Fn) (jiffies : Int) : Option Fn → Option (Table Fn × List Fn)
  | none => some (t, [])
  | some fn =>
    if jiffies ≤ 0 then some (t, [fn])
    else
      (freeNode t).map fun p =>
        let t := { t with
          fn := update t.fn p (some fn)
          jiffies := update t.jiffies p jiffies
          next := update t.next p t.next_timer
          next_timer := some p }
        (bubble TIME_REQUESTS t p, [])

/-- The loop of `do_timer`; `none` is a call through a null pointer. -/
def expire : Nat → Table Fn → Option (Table Fn × List Fn)
  | 0, t => some (t, [])
  | fuel + 1, t =>
    match t.next_timer with
    | none => some (t, [])
    | some p =>
      if t.jiffies p ≤ 0 then
        (t.fn p).bind fun fn =>
          (expire fuel { t with
            fn := update t.fn p none
            next_timer := t.next p }).map fun r => (r.1, fn :: r.2)
      else some (t, [])

/-- The timers of `do_timer`, with the callbacks that it calls. -/
def doTimer (t : Table Fn) : Option (Table Fn × List Fn) :=
  match t.next_timer with
  | none => some (t, [])
  | some p => expire TIME_REQUESTS { t with jiffies := update t.jiffies p (t.jiffies p - 1) }

/-! ## Runs -/

/-- The last three fields are history. -/
structure State (Fn : Type) where
  table : Table Fn
  /-- the number of calls of `do_timer` -/
  ticks : Int
  /-- the tick at which each callback is asked for -/
  asked : List (Int × Fn)
  /-- the tick at which it was called -/
  calls : List (Int × Fn)

inductive Act (Fn : Type) where
  | addTimer (jiffies : Int) (fn : Option Fn)
  | doTimer

/-- The tick that a callback is asked for: the present one if the delay is not positive. -/
def due (s : State Fn) (jiffies : Int) : Int := s.ticks + max jiffies 0

def step (s : State Fn) : Act Fn → Option (State Fn)
  | .addTimer jiffies fn =>
    (addTimer s.table jiffies fn).map fun (table, fns) => { s with
      table := table
      asked := s.asked ++ fn.toList.map fun fn => (due s jiffies, fn)
      calls := s.calls ++ fns.map fun fn => (s.ticks, fn) }
  | .doTimer =>
    (doTimer s.table).map fun (table, fns) => { s with
      table := table
      ticks := s.ticks + 1
      calls := s.calls ++ fns.map fun fn => (s.ticks + 1, fn) }

/-- No timer is pending. -/
def start (jiffies : Node → Int) (next : Node → Option Node) : State Fn :=
  ⟨⟨jiffies, fun _ => none, next, none⟩, 0, [], []⟩

def pending (s : State Fn) : List (Int × Fn) := s.asked.filter fun e => decide (s.ticks < e.1)

/-- Each callback has been called at the tick that it was asked for, and not otherwise. -/
def InTime (s : State Fn) : Prop :=
  s.calls.Perm (s.asked.filter fun e => decide (e.1 ≤ s.ticks))

/-- A timer is due later than all that are pending. -/
def Last (s : State Fn) : Act Fn → Prop
  | .addTimer jiffies fn => 0 < jiffies → fn.isSome → ∀ e ∈ pending s, e.1 < s.ticks + jiffies
  | .doTimer => True

instance (s : State Fn) (a : Act Fn) : Decidable (Last s a) := by
  cases a <;> unfold Last <;> infer_instance

/-! ## The list of delays -/

/-- A new delay on its way back through the delays. -/
def sift (j : Int) (fn : Fn) : List (Int × Fn) → List (Int × Fn)
  | [] => [(j, fn)]
  | (j', fn') :: cs =>
    if j' < j then (j', fn') :: sift (j - j') fn cs else (j, fn) :: (j', fn') :: cs

/-- The ticks at which delays that count from `base` end. -/
def dues (base : Int) : List (Int × Fn) → List (Int × Fn)
  | [] => []
  | (j, fn) :: cs => (base + j, fn) :: dues (base + j) cs

/-- One tick: the first delay gets shorter, and ends. -/
def tick : List (Int × Fn) → List (Int × Fn) × List Fn
  | [] => ([], [])
  | (j, fn) :: cs => if j - 1 ≤ 0 then (cs, [fn]) else ((j - 1, fn) :: cs, [])

/-- What a node holds. -/
def Table.content (t : Table Fn) (p : Node) : Int × Option Fn := (t.jiffies p, t.fn p)

def shown (c : Int × Fn) : Int × Option Fn := (c.1, some c.2)

/-- The list of the timers holds the delays `cs`, and the other nodes are free. -/
structure Holds (t : Table Fn) (l : List Node) (cs : List (Int × Fn)) : Prop where
  path : Path t.next t.next_timer l
  nodup : l.Nodup
  used : ∀ p, (t.fn p).isSome ↔ p ∈ l
  content : l.map t.content = cs.map shown

/-! ### What the loop does -/

/-- The swaps move the content of the first node to its place. -/
theorem bubble_spec : ∀ (fuel : Nat) (t : Table Fn) (p : Node) (l : List Node) (j : Int) (fn : Fn)
    (cs : List (Int × Fn)), l.length ≤ fuel → Path t.next (t.next p) l → (p :: l).Nodup →
    t.content p = shown (j, fn) → l.map t.content = cs.map shown →
    (p :: l).map (bubble fuel t p).content = (sift j fn cs).map shown ∧
      (bubble fuel t p).next = t.next ∧ (bubble fuel t p).next_timer = t.next_timer ∧
      (∀ q, q ∉ p :: l → (bubble fuel t p).content q = t.content q)
  | fuel, t, p, [], j, fn, cs, _, hpath, _, hp, hcs => by
      obtain rfl : cs = [] := List.map_eq_nil_iff.mp hcs.symm
      have hself : bubble fuel t p = t := by
        cases fuel with
        | zero => rfl
        | succ fuel =>
            rw [bubble, hpath]
      rw [hself]
      refine ⟨?_, rfl, rfl, fun _ _ => rfl⟩
      rw [List.map_singleton, hp]
      rfl
  | 0, _, _, _ :: _, _, _, _, hlen, _, _, _, _ => absurd hlen (Nat.not_succ_le_zero _)
  | fuel + 1, t, p, q :: l, j, fn, cs, hlen, ⟨hnext, hpath⟩, hnodup, hp, hcs => by
      obtain ⟨c, cs, rfl⟩ : ∃ c cs', cs = c :: cs' := by
        cases cs with
        | nil => cases hcs
        | cons c cs => exact ⟨c, cs, rfl⟩
      obtain ⟨j', fn'⟩ := c
      obtain ⟨hq, hcs⟩ := List.cons.inj hcs
      obtain ⟨hpl, hnodup'⟩ := List.nodup_cons.mp hnodup
      obtain ⟨hql, -⟩ := List.nodup_cons.mp hnodup'
      have hpq : p ≠ q := fun e => hpl (e ▸ List.mem_cons_self ..)
      obtain ⟨hpj, hpf⟩ := Prod.mk.inj hp
      obtain ⟨hqj, hqf⟩ := Prod.mk.inj hq
      rw [bubble, hnext]
      dsimp only
      rw [sift, hpj, hqj]
      dsimp only
      split
      · obtain ⟨hmap, hnext', hhead, hother⟩ := bubble_spec fuel
          { t with
            jiffies := update (update t.jiffies q (j - j')) p j'
            fn := update (update t.fn q (t.fn p)) p (t.fn q) } q l (j - j') fn cs
          (Nat.le_of_succ_le_succ hlen) hpath hnodup' (by
            dsimp only [Table.content]
            rw [update_of_ne hpq.symm, update_self, update_of_ne hpq.symm, update_self, hpf]
            rfl) (by
            rw [← hcs]
            refine List.map_congr_left fun r hr => ?_
            have hrp : r ≠ p := fun e => hpl (e ▸ List.mem_cons_of_mem _ hr)
            have hrq : r ≠ q := fun e => hql (e ▸ hr)
            dsimp only [Table.content]
            rw [update_of_ne hrp, update_of_ne hrq, update_of_ne hrp, update_of_ne hrq])
        refine ⟨?_, hnext', hhead, fun r hr => ?_⟩
        · rw [List.map_cons, hmap, hother p hpl]
          dsimp only [Table.content]
          rw [update_self, update_self, hqf]
          rfl
        · have hrp : r ≠ p := fun e => hr (e ▸ List.mem_cons_self ..)
          have hrq : r ∉ q :: l := fun h => hr (List.mem_cons_of_mem _ h)
          have hrq' : r ≠ q := fun e => hrq (e ▸ List.mem_cons_self ..)
          rw [hother r hrq]
          dsimp only [Table.content]
          rw [update_of_ne hrp, update_of_ne hrq', update_of_ne hrp, update_of_ne hrq']
      · refine ⟨?_, rfl, rfl, fun _ _ => rfl⟩
        rw [List.map_cons, List.map_cons, hp, hq, hcs]
        rfl

section Holds

variable {t : Table Fn} {l : List Node} {cs : List (Int × Fn)}

theorem Holds.length (h : Holds t l cs) : l.length = cs.length := by
  have hlen := congrArg List.length h.content
  rwa [List.length_map, List.length_map] at hlen

theorem Holds.length_le (h : Holds t l cs) : l.length ≤ TIME_REQUESTS := by
  have hle := h.nodup.length_le_card
  rwa [Fintype.card_fin] at hle

theorem Holds.not_mem (h : Holds t l cs) {p : Node} (hp : freeNode t = some p) : p ∉ l := by
  intro hmem
  have hsome := (h.used p).mpr hmem
  unfold freeNode at hp
  have hnone := List.find?_some hp
  rw [Option.isNone_iff_eq_none.mp hnone] at hsome
  cases hsome

/-- There is a free node unless all are pending. -/
theorem Holds.freeNode (h : Holds t l cs) (hlt : cs.length < TIME_REQUESTS) :
    (freeNode t).isSome := by
  by_contra hnone
  unfold Timers.freeNode at hnone
  have hused := List.find?_eq_none.mp (Option.not_isSome_iff_eq_none.mp hnone)
  have hmem : ∀ p : Node, p ∈ l := by
    intro p
    have hp := hused p (List.mem_finRange p)
    exact (h.used p).mp (Option.isSome_iff_ne_none.mpr fun e => hp (by rw [e]; rfl))
  have hle := ((List.nodup_finRange TIME_REQUESTS).subperm fun p _ => hmem p).length_le
  rw [List.length_finRange, h.length] at hle
  omega

/-- A new delay goes to its place in the list. -/
theorem Holds.addTimer (h : Holds t l cs) {j : Int} (hj : 0 < j) (fn : Fn)
    (hroom : (Timers.freeNode t).isSome) :
    ∃ t' l', addTimer t j (some fn) = some (t', []) ∧ Holds t' l' (sift j fn cs) := by
  obtain ⟨p, hfree⟩ := Option.isSome_iff_exists.mp hroom
  have hp := h.not_mem hfree
  have hne : ∀ q ∈ l, q ≠ p := fun q hq e => hp (e ▸ hq)
  obtain ⟨hmap, hnext, hhead, hother⟩ := bubble_spec TIME_REQUESTS
    { t with
      fn := update t.fn p (some fn)
      jiffies := update t.jiffies p j
      next := update t.next p t.next_timer
      next_timer := some p } p l j fn cs h.length_le (by
      dsimp only
      rw [update_self]
      refine h.path.congr fun q hq => ?_
      rw [update_of_ne (hne q hq)]) (List.nodup_cons.mpr ⟨hp, h.nodup⟩) (by
      dsimp only [Table.content]
      rw [update_self, update_self]
      rfl) (by
      rw [← h.content]
      refine List.map_congr_left fun q hq => ?_
      dsimp only [Table.content]
      rw [update_of_ne (hne q hq), update_of_ne (hne q hq)])
  refine ⟨_, p :: l, ?_, ?_, List.nodup_cons.mpr ⟨hp, h.nodup⟩, fun q => ?_, hmap⟩
  · rw [Timers.addTimer, if_neg (by omega), hfree]
    rfl
  · rw [hnext, hhead]
    refine ⟨rfl, ?_⟩
    dsimp only
    rw [update_self]
    refine h.path.congr fun q hq => ?_
    rw [update_of_ne (hne q hq)]
  · by_cases hq : q ∈ p :: l
    · have hmem : (bubble TIME_REQUESTS _ p).content q ∈ (sift j fn cs).map shown :=
        hmap ▸ List.mem_map_of_mem hq
      obtain ⟨c, -, hc⟩ := List.mem_map.mp hmem
      exact ⟨fun _ => hq, fun _ => congrArg (fun c => c.2.isSome) hc.symm⟩
    · have hsame := congrArg Prod.snd (hother q hq)
      dsimp only [Table.content] at hsame
      have hqp : q ≠ p := fun e => hq (e ▸ List.mem_cons_self ..)
      rw [hsame, update_of_ne hqp]
      exact ⟨fun hs => absurd (List.mem_cons_of_mem _ ((h.used q).mp hs)) hq, fun h => absurd h hq⟩

theorem expire_none (fuel : Nat) (h : t.next_timer = none) : expire fuel t = some (t, []) := by
  cases fuel with
  | zero => rfl
  | succ fuel => rw [expire, h]

theorem expire_pos (fuel : Nat) {p : Node} (h : t.next_timer = some p) (hp : 0 < t.jiffies p) :
    expire fuel t = some (t, []) := by
  cases fuel with
  | zero => rfl
  | succ fuel =>
      rw [expire, h]
      exact if_neg (by omega)

theorem Holds.expire_pos (h : Holds t l cs) (fuel : Nat) (hpos : ∀ c ∈ cs, 0 < c.1) :
    expire fuel t = some (t, []) := by
  cases l with
  | nil => exact expire_none fuel h.path
  | cons p l =>
      obtain ⟨c, cs, rfl⟩ : ∃ c cs', cs = c :: cs' := by
        cases cs with
        | nil => cases h.content
        | cons c cs => exact ⟨c, cs, rfl⟩
      obtain ⟨hc, -⟩ := List.cons.inj h.content
      refine Timers.expire_pos fuel h.path.1 ?_
      rw [show t.jiffies p = c.1 from congrArg Prod.fst hc]
      exact hpos c (List.mem_cons_self ..)

theorem Holds.doTimer (h : Holds t l cs) (hpos : ∀ c ∈ cs, 0 < c.1) :
    ∃ t' l', doTimer t = some (t', (tick cs).2) ∧ Holds t' l' (tick cs).1 := by
  cases l with
  | nil =>
      obtain rfl : cs = [] := List.map_eq_nil_iff.mp h.content.symm
      refine ⟨t, [], ?_, h⟩
      rw [Timers.doTimer, h.path]
      rfl
  | cons p l =>
      obtain ⟨c, cs, rfl⟩ : ∃ c cs', cs = c :: cs' := by
        cases cs with
        | nil => cases h.content
        | cons c cs => exact ⟨c, cs, rfl⟩
      obtain ⟨hc, hcs⟩ := List.cons.inj h.content
      obtain ⟨j, fn⟩ := c
      obtain ⟨hj, hfn⟩ := Prod.mk.inj hc
      obtain ⟨hpl, hnodup⟩ := List.nodup_cons.mp h.nodup
      have hne : ∀ q ∈ l, q ≠ p := fun q hq e => hpl (e ▸ hq)
      have hrest : ∀ c ∈ cs, 0 < c.1 := fun c hc => hpos c (List.mem_cons_of_mem _ hc)
      have hdo : Timers.doTimer t
          = expire TIME_REQUESTS { t with jiffies := update t.jiffies p (j - 1) } := by
        rw [Timers.doTimer, h.path.1, ← show t.jiffies p = j from hj]
      rw [hdo, tick]
      split
      · rename_i hend
        have hholds : Holds { t with
            jiffies := update t.jiffies p (j - 1)
            fn := update t.fn p none
            next_timer := t.next p } l cs := by
          refine ⟨h.path.2, hnodup, fun q => ?_, ?_⟩
          · dsimp only
            rcases eq_or_ne q p with rfl | hq
            · rw [update_self]
              exact ⟨nofun, fun hq => absurd hq hpl⟩
            · rw [update_of_ne hq, h.used, List.mem_cons, or_iff_right hq]
          · rw [← hcs]
            refine List.map_congr_left fun q hq => ?_
            dsimp only [Table.content]
            rw [update_of_ne (hne q hq), update_of_ne (hne q hq)]
        refine ⟨_, l, ?_, hholds⟩
        change expire (63 + 1) _ = _
        rw [expire]
        dsimp only
        rw [h.path.1]
        dsimp only
        rw [if_pos (by rw [update_self]; exact hend), show t.fn p = some fn from hfn,
          Option.bind_some, hholds.expire_pos _ hrest]
        rfl
      · rename_i hend
        refine ⟨{ t with jiffies := update t.jiffies p (j - 1) }, p :: l,
          Timers.expire_pos (t := { t with jiffies := update t.jiffies p (j - 1) }) _ h.path.1 ?_,
          h.path, h.nodup, h.used, ?_⟩
        · dsimp only
          rw [update_self]
          omega
        · rw [List.map_cons, List.map_cons, ← hcs]
          congr 1
          · dsimp only [Table.content]
            rw [update_self]
            exact Prod.ext rfl hfn
          · refine List.map_congr_left fun q hq => ?_
            dsimp only [Table.content]
            rw [update_of_ne (hne q hq)]

end Holds

/-! ## In time -/

/-- The delays end at the ticks that are asked for and have not come. -/
structure Timed (s : State Fn) (l : List Node) (cs : List (Int × Fn)) : Prop where
  holds : Holds s.table l cs
  pos : ∀ c ∈ cs, 0 < c.1
  dues : dues s.ticks cs = pending s
  inTime : InTime s

section Timed

variable {s s' : State Fn} {l : List Node} {cs : List (Int × Fn)}

theorem lt_of_mem_dues {base : Int} (hpos : ∀ c ∈ cs, 0 < c.1) {e : Int × Fn}
    (he : e ∈ dues base cs) : base < e.1 := by
  induction cs generalizing base with
  | nil => cases he
  | cons c cs ih =>
      have hc := hpos c (List.mem_cons_self ..)
      rcases List.mem_cons.mp he with rfl | he
      · dsimp only
        omega
      · have := ih (fun c hc => hpos c (List.mem_cons_of_mem _ hc)) he
        omega

theorem length_dues (base : Int) (cs : List (Int × Fn)) : (dues base cs).length = cs.length := by
  induction cs generalizing base with
  | nil => rfl
  | cons c cs ih => rw [dues, List.length_cons, ih, List.length_cons]

/-- A delay that ends last goes to the end of the list. -/
theorem sift_last {base j : Int} (fn : Fn) (hj : 0 < j) (hpos : ∀ c ∈ cs, 0 < c.1)
    (hlast : ∀ e ∈ dues base cs, e.1 < base + j) :
    (∀ c ∈ sift j fn cs, 0 < c.1) ∧
      dues base (sift j fn cs) = dues base cs ++ [(base + j, fn)] := by
  induction cs generalizing base j with
  | nil =>
      refine ⟨fun c hc => ?_, rfl⟩
      obtain rfl := List.mem_singleton.mp hc
      exact hj
  | cons c cs ih =>
      obtain ⟨j', fn'⟩ := c
      have hlt : j' < j := by
        have := hlast _ (List.mem_cons_self ..)
        dsimp only at this
        omega
      have hrest : ∀ e ∈ dues (base + j') cs, e.1 < base + j' + (j - j') := by
        intro e he
        rw [show base + j' + (j - j') = base + j by omega]
        exact hlast e (List.mem_cons_of_mem _ he)
      obtain ⟨hpos', hdues⟩ := ih (by omega) (fun c hc => hpos c (List.mem_cons_of_mem _ hc)) hrest
      rw [sift, if_pos hlt]
      refine ⟨fun c hc => ?_, ?_⟩
      · rcases List.mem_cons.mp hc with rfl | hc
        · exact hpos _ (List.mem_cons_self ..)
        · exact hpos' c hc
      · rw [dues, hdues, show base + j' + (j - j') = base + j by omega]
        rfl

/-- What a tick takes off the list is what is due at it. -/
theorem tick_dues {base : Int} (hpos : ∀ c ∈ cs, 0 < c.1) :
    (∀ c ∈ (tick cs).1, 0 < c.1) ∧
      dues (base + 1) (tick cs).1 = (dues base cs).filter (fun e => decide (base + 1 < e.1)) ∧
      (tick cs).2.map (fun fn => (base + 1, fn))
        = (dues base cs).filter (fun e => decide (e.1 ≤ base + 1)) := by
  cases cs with
  | nil => exact ⟨nofun, rfl, rfl⟩
  | cons c cs =>
      obtain ⟨j, fn⟩ := c
      have hj : 0 < j := hpos _ (List.mem_cons_self ..)
      have hrest : ∀ c ∈ cs, 0 < c.1 := fun c hc => hpos c (List.mem_cons_of_mem _ hc)
      have hlater : ∀ e ∈ dues (base + j) cs, base + 1 < e.1 := by
        intro e he
        have := lt_of_mem_dues hrest he
        omega
      have hall : (dues (base + j) cs).filter (fun e => decide (base + 1 < e.1))
          = dues (base + j) cs :=
        List.filter_eq_self.mpr fun e he => decide_eq_true (hlater e he)
      have hnone : (dues (base + j) cs).filter (fun e => decide (e.1 ≤ base + 1)) = [] :=
        List.filter_eq_nil_iff.mpr fun e he => by
          have := hlater e he
          rw [decide_eq_true_eq]
          omega
      rw [tick, dues]
      by_cases hend : j - 1 ≤ 0
      · obtain rfl : j = 1 := by omega
        rw [if_pos hend, List.filter_cons_of_neg (by rw [decide_eq_true_eq]; dsimp only; omega),
          List.filter_cons_of_pos (by rw [decide_eq_true_eq]), hall, hnone]
        exact ⟨hrest, rfl, rfl⟩
      · rw [if_neg hend, List.filter_cons_of_pos (by rw [decide_eq_true_eq]; dsimp only; omega),
          List.filter_cons_of_neg (by rw [decide_eq_true_eq]; dsimp only; omega), hall, hnone]
        refine ⟨fun c hc => ?_, ?_, rfl⟩
        · rcases List.mem_cons.mp hc with rfl | hc
          · dsimp only
            omega
          · exact hrest c hc
        · rw [dues, show base + 1 + (j - 1) = base + j by omega]

/-- The callbacks that are due by the next tick are those that are due now, and then those that
are pending and due at it. -/
theorem due_next (l : List (Int × Fn)) (n : Int) :
    (l.filter (fun e => decide (e.1 ≤ n)) ++
      (l.filter fun e => decide (n < e.1)).filter fun e => decide (e.1 ≤ n + 1)).Perm
      (l.filter fun e => decide (e.1 ≤ n + 1)) := by
  have hsplit := List.filter_append_perm (fun e : Int × Fn => decide (e.1 ≤ n))
    (l.filter fun e => decide (e.1 ≤ n + 1))
  rw [List.filter_filter, List.filter_filter] at hsplit
  refine List.Perm.trans ?_ hsplit
  rw [List.filter_filter]
  refine List.Perm.of_eq ?_
  congr 1
  · refine List.filter_congr fun e _ => ?_
    rw [← Bool.decide_and]
    exact decide_eq_decide.mpr (by omega)
  · refine List.filter_congr fun e _ => ?_
    rw [← Bool.decide_and, ← decide_not, ← Bool.decide_and]
    exact decide_eq_decide.mpr (by omega)

theorem later_next (l : List (Int × Fn)) (n : Int) :
    (l.filter fun e => decide (n < e.1)).filter (fun e => decide (n + 1 < e.1))
      = l.filter fun e => decide (n + 1 < e.1) := by
  rw [List.filter_filter]
  refine List.filter_congr fun e _ => ?_
  rw [← Bool.decide_and]
  exact decide_eq_decide.mpr (by omega)

theorem Timed.doTimer (h : Timed s l cs) :
    ∃ s' l' cs', step s .doTimer = some s' ∧ Timed s' l' cs' := by
  obtain ⟨t', l', hdo, hholds⟩ := h.holds.doTimer h.pos
  obtain ⟨hpos, hdues, hcalls⟩ := @tick_dues Fn cs s.ticks h.pos
  refine ⟨_, l', _, by rw [step, hdo]; rfl, hholds, hpos, ?_, ?_⟩
  · rw [hdues, h.dues]
    exact later_next s.asked s.ticks
  · unfold InTime
    dsimp only
    rw [hcalls, h.dues]
    exact (h.inTime.append_right _).trans (due_next s.asked s.ticks)

/-- A call with a delay that is not positive, or without a callback. -/
theorem Timed.at_once (h : Timed s l cs) {j : Int} {fn : Option Fn}
    (hj : 0 < j → fn = none) :
    ∃ s', step s (.addTimer j fn) = some s' ∧ Timed s' l cs := by
  cases fn with
  | none =>
      refine ⟨_, rfl, h.holds, h.pos, ?_, ?_⟩
      · unfold pending
        rw [Option.toList_none, List.map_nil, List.append_nil]
        exact h.dues
      · unfold InTime
        dsimp only
        rw [Option.toList_none, List.map_nil, List.map_nil, List.append_nil, List.append_nil]
        exact h.inTime
  | some fn =>
      have hle : j ≤ 0 := by
        by_contra hlt
        cases hj (by omega)
      have hdue : due s j = s.ticks := by
        unfold due
        rw [max_eq_right hle, Int.add_zero]
      have hadd : Timers.addTimer s.table j (some fn) = some (s.table, [fn]) := if_pos hle
      refine ⟨{ s with
        asked := s.asked ++ [(s.ticks, fn)]
        calls := s.calls ++ [(s.ticks, fn)] }, ?_, h.holds, h.pos, ?_, ?_⟩
      · rw [step, hadd, hdue]
        rfl
      · unfold pending
        rw [List.filter_append, List.filter_singleton, decide_eq_false (Int.lt_irrefl _)]
        exact h.dues.trans (List.append_nil _).symm
      · unfold InTime
        rw [List.filter_append, List.filter_singleton, decide_eq_true (Int.le_refl _)]
        exact h.inTime.append_right _

theorem Timed.addTimer (h : Timed s l cs) {j : Int} {fn : Fn} (hj : 0 < j)
    (hlast : Last s (.addTimer j (some fn))) (hroom : (freeNode s.table).isSome) :
    ∃ s' l' cs', step s (.addTimer j (some fn)) = some s' ∧ Timed s' l' cs' := by
  obtain ⟨t', l', hadd, hholds⟩ := h.holds.addTimer hj fn hroom
  have hlast := hlast hj rfl
  rw [← h.dues] at hlast
  obtain ⟨hpos, hdues⟩ := sift_last fn hj h.pos hlast
  have hdue : due s j = s.ticks + j := by
    unfold due
    rw [max_eq_left hj.le]
  have hlater : s.ticks < s.ticks + j := by omega
  refine ⟨{ s with table := t', asked := s.asked ++ [(s.ticks + j, fn)] }, l', _, ?_, hholds, hpos,
    ?_, ?_⟩
  · rw [step, hadd, hdue, Option.map_some]
    dsimp only
    rw [List.map_nil, List.append_nil]
    rfl
  · unfold pending
    rw [hdues, h.dues, List.filter_append, List.filter_singleton, decide_eq_true hlater]
    rfl
  · unfold InTime
    rw [List.filter_append, List.filter_singleton, decide_eq_false (by dsimp only; omega)]
    exact h.inTime.trans (List.Perm.of_eq (List.append_nil _).symm)

theorem Timed.step (h : Timed s l cs) {a : Act Fn} (hlast : Last s a)
    (hroom : ∀ j fn, a = .addTimer j fn → 0 < j → fn.isSome → (freeNode s.table).isSome) :
    ∃ s' l' cs', Timers.step s a = some s' ∧ Timed s' l' cs' := by
  cases a with
  | doTimer => exact h.doTimer
  | addTimer j fn =>
      by_cases hj : 0 < j → fn = none
      · obtain ⟨s', hstep, hs'⟩ := h.at_once hj
        exact ⟨s', l, cs, hstep, hs'⟩
      · obtain ⟨hpos, hfn⟩ := Classical.not_imp.mp hj
        obtain ⟨fn, rfl⟩ := Option.ne_none_iff_exists'.mp hfn
        exact h.addTimer hpos hlast (hroom j _ rfl hpos rfl)

theorem Timed.stepped (h : Timed s l cs) {a : Act Fn} (hlast : Last s a)
    (hs : Timers.step s a = some s') : ∃ l' cs', Timed s' l' cs' := by
  obtain ⟨s₁, l', cs', hstep, hs₁⟩ := h.step hlast (by
    rintro j fn rfl hj hfn
    obtain ⟨fn, rfl⟩ := Option.isSome_iff_exists.mp hfn
    by_contra hnone
    rw [Timers.step, Timers.addTimer, if_neg (by omega),
      Option.not_isSome_iff_eq_none.mp hnone] at hs
    cases hs)
  obtain rfl := Option.some.inj (hstep.symm.trans hs)
  exact ⟨l', cs', hs₁⟩

theorem start_timed (jiffies : Node → Int) (next : Node → Option Node) :
    Timed (start jiffies next : State Fn) [] [] where
  holds := ⟨rfl, List.nodup_nil, fun _ => ⟨nofun, nofun⟩, rfl⟩
  pos := nofun
  dues := rfl
  inTime := .refl _

end Timed

/-- Calls of `add_timer` and `do_timer` in any order, each timer being due later than all that
are pending when it is added: every callback is called exactly as often as it was asked for, each
time at its tick, and the calls go through as long as fewer than 64 timers are pending. -/
theorem timers_fire {jiffies : Node → Int} {next : Node → Option Node} {s : State Fn}
    (h : Reach step Last (start jiffies next) s) :
    InTime s ∧ ∀ a, Last s a → (pending s).length < TIME_REQUESTS → (step s a).isSome := by
  obtain ⟨l, cs, hs⟩ : ∃ l cs, Timed s l cs := h.invariant
    (I := fun s => ∃ l cs, Timed s l cs) ⟨[], [], start_timed jiffies next⟩
    fun _ _ _ ⟨_, _, hs⟩ hlast hstep => hs.stepped hlast hstep
  refine ⟨hs.inTime, fun a hlast hlt => ?_⟩
  rw [← hs.dues, length_dues] at hlt
  obtain ⟨s', -, -, hstep, -⟩ := hs.step hlast fun _ _ _ _ _ => hs.holds.freeNode hlt
  rw [hstep]
  rfl

/-! ## Two timers -/

section Two

def idle : State Bool := start (fun _ => 0) fun _ => none

/-- The first is due after 2 ticks, the second after 5. -/
def inOrder : List (Act Bool) :=
  [.addTimer 2 (some true), .addTimer 5 (some false), .doTimer, .doTimer, .doTimer, .doTimer,
    .doTimer]

theorem timers_fire_two : ∃ s, exec (checked step Last) idle inOrder = some s ∧
    s.calls = [(2, true), (5, false)] ∧ InTime s := by
  obtain ⟨s, hs, hcalls⟩ : ∃ s, exec (checked step Last) idle inOrder = some s ∧
      s.calls = [(2, true), (5, false)] := exec_any (by decide +kernel)
  exact ⟨s, hs, hcalls, (timers_fire (exec_checked hs)).1⟩

/-- A timer of 3 ticks is added behind one of 5, which fires after 8. -/
theorem not_timers_fire : ∃ s, exec step idle [.addTimer 5 (some true), .addTimer 3 (some false),
    .doTimer, .doTimer, .doTimer, .doTimer, .doTimer] = some s ∧ ¬ InTime s := by
  obtain ⟨s, hs, hcalls⟩ : ∃ s, exec step idle [.addTimer 5 (some true), .addTimer 3 (some false),
      .doTimer, .doTimer, .doTimer, .doTimer, .doTimer] = some s ∧
      s.calls.length ≠ (s.asked.filter fun e => decide (e.1 ≤ s.ticks)).length :=
    exec_any (by decide +kernel)
  exact ⟨s, hs, fun h => hcalls h.length_eq⟩

end Two

end Timers

end Linux011
