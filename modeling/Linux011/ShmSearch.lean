import Mathlib.Order.Bounds.Defs
import Linux011.ShmPages

/-!
# The search for an address

`findEmptyAdress` round by round. The search starts behind the heap and goes up page by page; at
a page that is present it starts to count again without going on, and so never returns. It
returns the first gap exactly when this gap is right behind the heap (`search_finds_gap`).

The loop of the source has two variables and ends in no obvious way, so it is given twice:
`round` is one round of it as the source has it, and `findFrom` of `Shm` is the search with the
pages that are left. `run_findFrom` and `findEmptyAdress_iff` connect the two: the search returns
an answer if and only if some number of rounds does, and then it is the same. What the search is
for is stated without it, by `Gap` and `IsLeast`. The proof then follows the pages behind the
heap: while they are absent the search counts on, and at the first one that is present it is
stuck for ever (`stuck_of_present`), so that it finds the first gap exactly when the gap begins
at once. The page tables that it makes on its way are counted by `tables`, and what
`get_free_page` has to give for them by `CanGet`.
-/

namespace Linux011

open Function Runs

namespace ShmSearch

open ShmPages (pagePos)
open ShmHeap (findFrom_noTable findFrom_present findFrom_absent)

variable {m m' m₁ : Mem} {t : Task}

/-! ## The loop -/

/-- The variables `i` and `data_base` of the loop. -/
structure Search where
  i : Nat
  data_base : Nat
  mem : Mem

/-- The loop goes on, or returns an address. -/
inductive Outcome where
  | goOn (s : Search)
  | returns (address : Nat) (mem : Mem)

/-- One round: the test, the page table, and the page. -/
def round (limit pageNum : Nat) (s : Search) : Outcome :=
  if s.i < pageNum ∧ s.data_base < limit then
    match pageTable s.mem (dirSlot s.data_base) with
    | none => .returns 0 s.mem
    | some (pageTable, m) =>
      if Present (m.phys pageTable (tableSlot s.data_base)) then .goOn ⟨0, s.data_base, m⟩
      else
        let data_base := (s.data_base + PAGE_SIZE) % 2 ^ 32
        if s.i + 1 = pageNum then
          .returns ((data_base + 2 ^ 32 - pageNum * PAGE_SIZE) % 2 ^ 32) m
        else .goOn ⟨s.i + 1, data_base, m⟩
  else .returns 0 s.mem

/-- At most `rounds` rounds; `none` when the loop still goes on. -/
def run (limit pageNum : Nat) : Nat → Search → Option (Nat × Mem)
  | 0, _ => none
  | rounds + 1, s =>
    match round limit pageNum s with
    | .goOn s => run limit pageNum rounds s
    | .returns address m => some (address, m)

/-- `code_base + SHM_MAX_HEAP` -/
def searchLimit (t : Task) : Nat := (heapEnd t + SHM_MAX_HEAP) % 2 ^ 32

/-! ## What the search is for -/

/-- The address rounded up to a page. -/
def align (address : Nat) : Nat := (address + 0xFFF) / PAGE_SIZE * PAGE_SIZE

/-- Pages behind the heap that are not present, within the window of the search. -/
structure Gap (m : Mem) (t : Task) (pageNum address : Nat) : Prop where
  aligned : address % PAGE_SIZE = 0
  behind : t.base.toNat + t.brk.toNat ≤ address
  below : address + pageNum * PAGE_SIZE
    ≤ align (t.base.toNat + t.brk.toNat) + SHM_MAX_HEAP
  linear : address + pageNum * PAGE_SIZE ≤ 2 ^ 32
  absent : ∀ k < pageNum, m.ent (pagePos address k) = none

/-- `get_free_page` returns a page that many times in a row. -/
def CanGet : Nat → Mem → Prop
  | 0, _ => True
  | n + 1, m => ∃ page m', getFreePage m = some (page, m') ∧ CanGet n m'

/-- The search comes to an end, and with a page for each page table that the window may
need it returns the first gap, or 0 when there is none. -/
def FindsGap (m : Mem) (t : Task) (pageNum : Nat) : Prop :=
  ∃ rounds address m',
    run (searchLimit t) pageNum rounds ⟨0, heapEnd t, m⟩ = some (address, m') ∧
    (CanGet 4 m → IsLeast {a | Gap m t pageNum a} address ∨
      (∀ a, ¬Gap m t pageNum a) ∧ address = 0)

/-- `fork` puts the data segment at a multiple of 64 MB, `sys_brk` keeps the heap 16 kB below
the stack. -/
structure DataSegment (t : Task) : Prop where
  base : t.base.toNat % 0x4000000 = 0
  brk : t.brk.toNat + 16384 < 0x4000000

/-- Where the window lies in the linear addresses, the pages right behind the heap are not
present, or the first of them has no page table and there is no page for one. -/
def BehindHeap (m : Mem) (t : Task) (pageNum : Nat) : Prop :=
  if heapEnd t + SHM_MAX_HEAP < 2 ^ 32 then
    (∀ k < pageNum, m.ent (pagePos (heapEnd t) k) = none) ∨
      m.tableOf (dirSlot (heapEnd t)) = none ∧ getFreePage m = none
  else CanGet 4 m → ∀ a, ¬Gap m t pageNum a

/-! ## Pages for page tables -/

theorem CanGet.congr {n : Nat} (hmap : m'.memMap = m.memMap) (h : CanGet n m) : CanGet n m' := by
  induction n generalizing m m' with
  | zero => trivial
  | succ n ih =>
      obtain ⟨page, m₁, hg, h⟩ := h
      obtain ⟨q, hq, he⟩ := Option.map_eq_some_iff.mp hg
      obtain ⟨rfl, rfl⟩ := Prod.mk.inj he
      have hg' : getFreePage m' = some (q, { m' with
          phys := update m'.phys q fun _ => 0
          memMap := update m'.memMap q 1 }) := by
        rw [getFreePage, lastFree_congr hmap, hq]
        rfl
      have hmap' : update m'.memMap q 1 = update m.memMap q 1 := by rw [hmap]
      exact ⟨q, _, hg', ih hmap' h⟩

theorem CanGet.pred {n : Nat} (h : CanGet (n + 1) m) : CanGet n m := by
  induction n generalizing m with
  | zero => trivial
  | succ n ih =>
      obtain ⟨page, m₁, hg, h⟩ := h
      exact ⟨page, m₁, hg, ih h⟩

theorem CanGet.mono {n k : Nat} (h : CanGet n m) (hk : k ≤ n) : CanGet k m := by
  induction hk with
  | refl => exact h
  | step _ ih => exact ih h.pred

/-- The page table is there, or takes one page. -/
theorem CanGet.pageTable {n : Nat} {d : Slot}
    (h : CanGet ((if m.tableOf d = none then 1 else 0) + n) m) :
    ∃ table m₁, pageTable m d = some (table, m₁) ∧ CanGet n m₁ := by
  unfold Linux011.pageTable
  by_cases hp : Present (m.dir d)
  · rw [if_pos hp]
    rw [Mem.tableOf, if_pos hp, if_neg (Option.some_ne_none _), Nat.zero_add] at h
    exact ⟨_, _, rfl, h⟩
  · rw [if_neg hp]
    rw [Mem.tableOf, if_neg hp, if_pos rfl, Nat.add_comm] at h
    obtain ⟨page, m₁, hg, h⟩ := h
    rw [hg]
    have hmap : (m₁.write 0 d (entry page)).memMap = m₁.memMap := rfl
    exact ⟨_, _, rfl, CanGet.congr hmap h⟩

/-! ## Rounds of the search -/

theorem pagePos_zero (address : Nat) : pagePos address 0 = posOf address := by
  rw [pagePos, Nat.zero_mul, Nat.add_zero]

theorem pagePos_next (address k : Nat) :
    pagePos ((address + PAGE_SIZE) % 2 ^ 32) k = pagePos address (k + 1) :=
  ShmHeap.posOf_congr (by simp only [PAGE_SIZE]; omega)

/-- The page tables that the search may have to make: the first one, and one for each
boundary between page tables. -/
def tables (m : Mem) (address left : Nat) : Nat :=
  (if m.tableOf (dirSlot address) = none then 1 else 0)
    + (address / 0x1000 % 1024 + left - 1) / 1024

/-- After a page the table for the next one is there, or was counted. -/
theorem tables_next {address left table : Nat} (hleft : left ≠ 0)
    (htab : m₁.tableOf = update m.tableOf (dirSlot address) (some table)) :
    (if m.tableOf (dirSlot address) = none then 1 else 0)
      + tables m₁ ((address + PAGE_SIZE) % 2 ^ 32) left ≤ tables m address (left + 1) := by
  have hslot : ((address + PAGE_SIZE) % 2 ^ 32) / 0x1000 % 1024
      = (address / 0x1000 % 1024 + 1) % 1024 := by
    simp only [PAGE_SIZE]
    omega
  unfold tables
  rw [hslot]
  by_cases hlast : address / 0x1000 % 1024 = 1023
  · have hone : (if m₁.tableOf (dirSlot ((address + PAGE_SIZE) % 2 ^ 32)) = none then 1 else 0)
        ≤ 1 := by
      split
      · exact Nat.le_refl 1
      · exact Nat.zero_le 1
    omega
  · have hsame : dirSlot ((address + PAGE_SIZE) % 2 ^ 32) = dirSlot address := by
      refine Fin.ext ?_
      show (address + PAGE_SIZE) % 2 ^ 32 / 0x400000 % 1024 = address / 0x400000 % 1024
      simp only [PAGE_SIZE]
      omega
    rw [hsame, htab, update_self, if_neg (Option.some_ne_none table)]
    have := Nat.mod_lt (address / 0x1000) (show 0 < 1024 by decide)
    rw [Nat.mod_eq_of_lt (show address / 0x1000 % 1024 + 1 < 1024 by omega), Nat.zero_add]
    have he : address / 0x1000 % 1024 + 1 + left - 1
        = address / 0x1000 % 1024 + (left + 1) - 1 := by omega
    rw [he]

/-- Where no page is present the search returns, and with pages for the page tables it
finds room. -/
theorem findFrom_gap (hm : Separate m) {limit left address : Nat} (hleft : 0 < left)
    (hend : address + left * PAGE_SIZE ≤ limit) (hlimit : limit < 2 ^ 32)
    (habs : ∀ k < left, m.ent (pagePos address k) = none) :
    ∃ found m', findFrom limit left address m = some (found, m') ∧
      (CanGet (tables m address left) m → found = true) := by
  induction left generalizing address m with
  | zero => exact absurd hleft (Nat.lt_irrefl 0)
  | succ left ih =>
      have hlt : address < limit := by
        simp only [PAGE_SIZE] at hend
        omega
      cases hp : pageTable m (dirSlot address) with
      | none =>
          refine ⟨false, m, findFrom_noTable hp, fun hget => ?_⟩
          obtain ⟨table, m₁, hp', -⟩ := hget.pageTable
          rw [hp] at hp'
          cases hp'
      | some r =>
          obtain ⟨table, m₁⟩ := r
          obtain ⟨htab, hent, hm₁⟩ := hm.pageTable hp
          have hfirst := habs 0 (Nat.succ_pos left)
          rw [pagePos_zero] at hfirst
          rw [findFrom_absent hm hlt hfirst hp]
          by_cases h0 : left = 0
          · rw [if_pos h0]
            exact ⟨true, m₁, rfl, fun _ => rfl⟩
          · rw [if_neg h0]
            have hnext : (address + PAGE_SIZE) % 2 ^ 32 = address + PAGE_SIZE := by
              refine Nat.mod_eq_of_lt ?_
              simp only [PAGE_SIZE] at hend ⊢
              omega
            have hend' : (address + PAGE_SIZE) % 2 ^ 32 + left * PAGE_SIZE ≤ limit := by
              rw [hnext]
              simp only [PAGE_SIZE] at hend ⊢
              omega
            obtain ⟨found, m', hfind, hgot⟩ := ih hm₁ (Nat.pos_of_ne_zero h0) hend' fun k hk => by
              rw [pagePos_next, hent]
              exact habs (k + 1) (Nat.succ_lt_succ hk)
            refine ⟨found, m', hfind, fun hget => hgot ?_⟩
            obtain ⟨table', m₂, hp', hget'⟩ := (hget.mono (tables_next h0 htab)).pageTable
            rw [hp] at hp'
            obtain ⟨-, rfl⟩ := Prod.mk.inj (Option.some.inj hp')
            exact hget'

/-- Behind the boundary of a page table, the next 1024 pages are in one. -/
theorem dirSlot_next {address k : Nat} (hk : k < 1024)
    (hne : dirSlot ((address + PAGE_SIZE) % 2 ^ 32) ≠ dirSlot address) :
    dirSlot ((address + PAGE_SIZE) % 2 ^ 32) = (pagePos address (k + 1)).1 := by
  have hlast : address / 0x1000 % 1024 = 1023 := by
    by_contra hno
    refine hne (Fin.ext ?_)
    show (address + PAGE_SIZE) % 2 ^ 32 / 0x400000 % 1024 = address / 0x400000 % 1024
    simp only [PAGE_SIZE]
    omega
  refine Fin.ext ?_
  show (address + PAGE_SIZE) % 2 ^ 32 / 0x400000 % 1024
    = (address + (k + 1) * PAGE_SIZE) / 0x400000 % 1024
  simp only [PAGE_SIZE]
  omega

/-- Where a page is present that the search comes to, it does not return. -/
theorem findFrom_stuck (hm : Separate m) {limit left k address : Nat} (hk : k < left)
    (hk' : k < 1024) (hend : address + k * PAGE_SIZE < limit) (hlimit : limit < 2 ^ 32)
    (habs : ∀ j < k, m.ent (pagePos address j) = none)
    (hpres : m.ent (pagePos address k) ≠ none)
    (hget : m.tableOf (dirSlot address) ≠ none ∨ getFreePage m ≠ none) :
    findFrom limit left address m = none := by
  obtain ⟨left, rfl⟩ := Nat.exists_eq_add_one_of_ne_zero (Nat.ne_zero_of_lt hk)
  induction k generalizing left address m with
  | zero =>
      rw [pagePos_zero] at hpres
      exact findFrom_present hm (by simpa using hend) hpres
  | succ k ih =>
      have hlt : address < limit := by
        simp only [PAGE_SIZE] at hend
        omega
      obtain ⟨⟨table, m₁⟩, hp⟩ := Option.ne_none_iff_exists'.mp
        (show pageTable m (dirSlot address) ≠ none from fun hp => by
          unfold pageTable at hp
          split at hp
          · cases hp
          · rename_i hno
            rcases hget with hget | hget
            · exact hget (if_neg hno)
            · exact hget (Option.map_eq_none_iff.mp hp))
      obtain ⟨htab, hent, hm₁⟩ := hm.pageTable hp
      have hfirst := habs 0 (Nat.succ_pos k)
      rw [pagePos_zero] at hfirst
      have hnext : (address + PAGE_SIZE) % 2 ^ 32 = address + PAGE_SIZE := by
        refine Nat.mod_eq_of_lt ?_
        simp only [PAGE_SIZE] at hend ⊢
        omega
      have hend' : (address + PAGE_SIZE) % 2 ^ 32 + k * PAGE_SIZE < limit := by
        rw [hnext]
        simp only [PAGE_SIZE] at hend ⊢
        omega
      rw [findFrom_absent hm hlt hfirst hp, if_neg (show left ≠ 0 by omega)]
      obtain ⟨left, rfl⟩ := Nat.exists_eq_add_one_of_ne_zero (show left ≠ 0 by omega)
      refine ih hm₁ (by omega) hend' (fun j hj => ?_) ?_ (Or.inl ?_) left (by omega)
      · rw [pagePos_next, hent]
        exact habs (j + 1) (Nat.succ_lt_succ hj)
      · rw [pagePos_next, hent]
        exact hpres
      · rw [htab]
        -- the next page is in the table of this one, or in that of the present one
        rcases eq_or_ne (dirSlot ((address + PAGE_SIZE) % 2 ^ 32)) (dirSlot address) with he | hne
        · rw [he, update_self]
          exact Option.some_ne_none table
        · have he : dirSlot ((address + PAGE_SIZE) % 2 ^ 32) = (pagePos address (k + 1)).1 :=
            dirSlot_next (Nat.lt_of_succ_lt hk') hne
          rw [update_of_ne hne, he]
          intro hnone
          exact hpres (by rw [Mem.ent, hnone]; rfl)

/-! ## The loop and the search -/

theorem run_unique {limit pageNum rounds rounds' : Nat} {s : Search} {r r' : Nat × Mem}
    (h : run limit pageNum rounds s = some r) (h' : run limit pageNum rounds' s = some r') :
    r = r' := by
  induction rounds generalizing rounds' s with
  | zero => cases h
  | succ rounds ih =>
      cases rounds' with
      | zero => cases h'
      | succ rounds' =>
          rw [run] at h h'
          cases hr : round limit pageNum s with
          | goOn s₁ =>
              rw [hr] at h h'
              exact ih h h'
          | returns address m =>
              rw [hr] at h h'
              exact Option.some.inj (h.symm.trans h')

theorem run_returns {limit pageNum address : Nat} {s : Search}
    (h : round limit pageNum s = .returns address m) :
    ∃ rounds, run limit pageNum rounds s = some (address, m) := by
  refine ⟨1, ?_⟩
  rw [run, h]

theorem run_goOn {limit pageNum rounds : Nat} {s s' : Search}
    (h : round limit pageNum s = .goOn s') :
    run limit pageNum (rounds + 1) s = run limit pageNum rounds s' := by
  rw [run, h]

theorem round_noTable {limit pageNum i address : Nat} (hi : i < pageNum) (hlt : address < limit)
    (hp : pageTable m (dirSlot address) = none) :
    round limit pageNum ⟨i, address, m⟩ = .returns 0 m := by
  rw [round, if_pos ⟨hi, hlt⟩]
  dsimp only
  rw [hp]

theorem round_present {limit pageNum i address table : Nat} (hi : i < pageNum)
    (hlt : address < limit) (hp : pageTable m (dirSlot address) = some (table, m₁))
    (hpres : Present (m₁.phys table (tableSlot address))) :
    round limit pageNum ⟨i, address, m⟩ = .goOn ⟨0, address, m₁⟩ := by
  rw [round, if_pos ⟨hi, hlt⟩]
  dsimp only
  rw [hp]
  exact if_pos hpres

theorem round_absent {limit pageNum i address table : Nat} (hi : i < pageNum)
    (hlt : address < limit) (hp : pageTable m (dirSlot address) = some (table, m₁))
    (habs : ¬Present (m₁.phys table (tableSlot address))) :
    round limit pageNum ⟨i, address, m⟩ = if i + 1 = pageNum then
        .returns (((address + PAGE_SIZE) % 2 ^ 32 + 2 ^ 32 - pageNum * PAGE_SIZE) % 2 ^ 32) m₁
      else .goOn ⟨i + 1, (address + PAGE_SIZE) % 2 ^ 32, m₁⟩ := by
  rw [round, if_pos ⟨hi, hlt⟩]
  dsimp only
  rw [hp]
  exact if_neg habs

/-- The loop never leaves a page that is present. -/
theorem run_present {limit pageNum address table : Nat} (hn : 0 < pageNum) (hlt : address < limit)
    (hp : pageTable m (dirSlot address) = some (table, m))
    (hpres : Present (m.phys table (tableSlot address))) (rounds : Nat) {i : Nat}
    (hi : i < pageNum) : run limit pageNum rounds ⟨i, address, m⟩ = none := by
  induction rounds generalizing i with
  | zero => rfl
  | succ rounds ih =>
      rw [run_goOn (round_present hi hlt hp hpres)]
      exact ih hn

/-- A page that is present has its page table. -/
theorem pageTable_present (hm : Separate m) {address table : Nat}
    (hp : pageTable m (dirSlot address) = some (table, m₁))
    (hpres : Present (m₁.phys table (tableSlot address))) : m₁ = m := by
  obtain ⟨htab, hent, -⟩ := hm.pageTable hp
  have htable : m₁.tableOf (posOf address).1 = some table := by
    rw [htab]
    exact update_self ..
  have hsome : m.ent (posOf address) ≠ none := by
    rw [← hent]
    exact fun hnone => (ent_eq_none htable).mp hnone hpres
  unfold pageTable at hp
  split at hp
  · exact (Prod.mk.inj (Option.some.inj hp)).2.symm
  · rename_i hno
    have htab₀ : m.tableOf (posOf address).1 = none := if_neg hno
    exact absurd (by rw [Mem.ent, htab₀]; rfl) hsome

/-- The loop returns what `findFrom` says, and does not return where `findFrom` has no
result. -/
theorem run_findFrom (hm : Separate m) {limit pageNum i left address : Nat} (hn : 0 < pageNum)
    (hn' : pageNum ≤ PAGE_NUM) (hi : i + left = pageNum) :
    (∀ found m', findFrom limit left address m = some (found, m') → ∃ rounds,
      run limit pageNum rounds ⟨i, address, m⟩ = some (if found then
        (address + left * PAGE_SIZE + 2 ^ 32 - pageNum * PAGE_SIZE) % 2 ^ 32 else 0, m')) ∧
    (findFrom limit left address m = none →
      ∀ rounds, run limit pageNum rounds ⟨i, address, m⟩ = none) := by
  induction left generalizing i address m with
  | zero =>
      refine ⟨fun found m' h => ?_, fun h => by cases h⟩
      obtain ⟨rfl, rfl⟩ := Prod.mk.inj (Option.some.inj h)
      exact run_returns (if_neg fun h => absurd h.1 (by dsimp only; omega))
  | succ left ih =>
      have hlt_i : i < pageNum := by omega
      by_cases hlt : address < limit
      · cases hp : pageTable m (dirSlot address) with
        | none =>
            rw [findFrom_noTable hp]
            refine ⟨fun found m' h => ?_, fun h => by cases h⟩
            obtain ⟨rfl, rfl⟩ := Prod.mk.inj (Option.some.inj h)
            exact run_returns (round_noTable hlt_i hlt hp)
        | some r =>
            obtain ⟨table, m₁⟩ := r
            obtain ⟨htab, hent, hm₁⟩ := hm.pageTable hp
            by_cases hpres : Present (m₁.phys table (tableSlot address))
            · obtain rfl := pageTable_present hm hp hpres
              have hnone : findFrom limit (left + 1) address m₁ = none := by
                rw [findFrom, if_pos hlt, hp]
                exact if_pos hpres
              rw [hnone]
              refine ⟨fun _ _ h => ?_, fun _ rounds => ?_⟩
              · cases h
              · exact run_present hn hlt hp hpres rounds hlt_i
            · have hround := round_absent hlt_i hlt hp hpres
              rw [findFrom, if_pos hlt, hp]
              dsimp only
              rw [if_neg hpres]
              by_cases h0 : left = 0
              · rw [if_pos h0]
                rw [if_pos (by omega)] at hround
                refine ⟨fun found m' h => ?_, fun h => by cases h⟩
                obtain ⟨rfl, rfl⟩ := Prod.mk.inj (Option.some.inj h)
                obtain ⟨rounds, hrun⟩ := run_returns hround
                refine ⟨rounds, hrun.trans ?_⟩
                rw [if_pos rfl, h0]
                simp only [PAGE_SIZE, PAGE_NUM] at hn' ⊢
                refine congrArg (fun a => some (a, m₁)) ?_
                omega
              · rw [if_neg h0]
                rw [if_neg (by omega)] at hround
                obtain ⟨hsome, hnone⟩ := ih hm₁ (show i + 1 + left = pageNum by omega)
                constructor
                · intro found m' h
                  obtain ⟨rounds, hrun⟩ := hsome found m' h
                  refine ⟨rounds + 1, ?_⟩
                  rw [run_goOn hround, hrun]
                  simp only [PAGE_SIZE, PAGE_NUM] at hn' ⊢
                  refine congrArg (fun a => some (if found = true then a else 0, m')) ?_
                  omega
                · intro h rounds
                  cases rounds with
                  | zero => rfl
                  | succ rounds =>
                      rw [run_goOn hround]
                      exact hnone h rounds
      · have hfind : findFrom limit (left + 1) address m = some (false, m) := by
          rw [findFrom, if_neg hlt]
        rw [hfind]
        refine ⟨fun found m' h => ?_, fun h => by cases h⟩
        obtain ⟨rfl, rfl⟩ := Prod.mk.inj (Option.some.inj h)
        exact run_returns (if_neg fun h => hlt h.2)

theorem heapEnd_lt (t : Task) : heapEnd t < 2 ^ 32 :=
  Nat.lt_of_le_of_lt (Nat.div_mul_le_self ..) (Nat.mod_lt _ (Nat.two_pow_pos 32))

theorem findEmptyAdress_eq (m : Mem) (t : Task) (pageNum : Nat) :
    findEmptyAdress m t pageNum = (findFrom (searchLimit t) pageNum (heapEnd t) m).map
      fun (found, m) => (if found then heapEnd t else 0, m) := rfl

/-- `findEmptyAdress` is the loop: it has a result where the loop returns, and this one. -/
theorem findEmptyAdress_iff (hm : Separate m) {pageNum : Nat} (hn : 0 < pageNum)
    (hn' : pageNum ≤ PAGE_NUM) {r : Nat × Mem} : findEmptyAdress m t pageNum = some r ↔
      ∃ rounds, run (searchLimit t) pageNum rounds ⟨0, heapEnd t, m⟩ = some r := by
  obtain ⟨hsome, hnone⟩ := @run_findFrom m hm (searchLimit t) pageNum 0 pageNum (heapEnd t) hn hn'
    (Nat.zero_add pageNum)
  have hback : (heapEnd t + pageNum * PAGE_SIZE + 2 ^ 32 - pageNum * PAGE_SIZE) % 2 ^ 32
      = heapEnd t := by
    have := heapEnd_lt t
    omega
  rw [hback] at hsome
  rw [findEmptyAdress_eq]
  cases hf : findFrom (searchLimit t) pageNum (heapEnd t) m with
  | none =>
      constructor
      · intro h
        cases h
      · rintro ⟨rounds, hrun⟩
        rw [hnone hf rounds] at hrun
        cases hrun
  | some q =>
      obtain ⟨found, m'⟩ := q
      obtain ⟨rounds, hrun⟩ := hsome found m' hf
      constructor
      · intro h
        obtain rfl := Option.some.inj h
        exact ⟨rounds, hrun⟩
      · rintro ⟨rounds', hrun'⟩
        rw [run_unique hrun' hrun]
        rfl

/-! ## The first gap -/

theorem heapEnd_eq (ht : DataSegment t) :
    heapEnd t = align (t.base.toNat + t.brk.toNat) ∧ t.base.toNat + t.brk.toNat ≤ heapEnd t := by
  have hbase := ht.base
  have hbrk := ht.brk
  have hlt := t.base.isLt
  unfold heapEnd align
  simp only [PAGE_SIZE]
  omega

/-- The pages right behind the heap are the first gap. -/
theorem isLeast_heapEnd (ht : DataSegment t) {pageNum : Nat} (hn' : pageNum ≤ PAGE_NUM)
    (hwin : heapEnd t + SHM_MAX_HEAP < 2 ^ 32)
    (habs : ∀ k < pageNum, m.ent (pagePos (heapEnd t) k) = none) :
    IsLeast {a | Gap m t pageNum a} (heapEnd t) := by
  obtain ⟨heq, hle⟩ := heapEnd_eq ht
  have hroom : pageNum * PAGE_SIZE ≤ SHM_MAX_HEAP := by
    simp only [PAGE_SIZE, PAGE_NUM, SHM_MAX_HEAP] at hn' ⊢
    omega
  refine ⟨⟨Nat.mul_mod_left .., hle, ?_, ?_, habs⟩, fun a ha => ?_⟩
  · rw [← heq]
    exact Nat.add_le_add_left hroom _
  · omega
  · have haligned := ha.aligned
    have hbehind := ha.behind
    rw [heq, align]
    simp only [PAGE_SIZE] at haligned ⊢
    omega

/-- A window of 64 pages lies in two page tables. -/
theorem tables_le {address left : Nat} (hleft : left ≤ PAGE_NUM) : tables m address left ≤ 4 := by
  unfold tables
  simp only [PAGE_NUM] at hleft
  split <;> omega

theorem limit_window (hwin : heapEnd t + SHM_MAX_HEAP < 2 ^ 32) {pageNum : Nat}
    (hn' : pageNum ≤ PAGE_NUM) : searchLimit t < 2 ^ 32 ∧
      heapEnd t + pageNum * PAGE_SIZE ≤ searchLimit t := by
  have hlimit : searchLimit t = heapEnd t + SHM_MAX_HEAP := Nat.mod_eq_of_lt hwin
  rw [hlimit]
  simp only [PAGE_SIZE, PAGE_NUM, SHM_MAX_HEAP] at hn' hwin ⊢
  omega

/-- With a page table for the first page, the search comes to the first page that is
present, and stays there. -/
theorem stuck_of_present (hm : Separate m) {pageNum : Nat} (hn' : pageNum ≤ PAGE_NUM)
    (hwin : heapEnd t + SHM_MAX_HEAP < 2 ^ 32)
    (hall : ¬∀ k < pageNum, m.ent (pagePos (heapEnd t) k) = none)
    (hget : ¬(m.tableOf (dirSlot (heapEnd t)) = none ∧ getFreePage m = none)) :
    findEmptyAdress m t pageNum = none := by
  obtain ⟨hlimit, hroom⟩ := limit_window hwin hn'
  simp only [not_forall] at hall
  obtain ⟨k, ⟨hk, hpres⟩, hfirst⟩ := Nat.findX hall
  have habs : ∀ j < k, m.ent (pagePos (heapEnd t) j) = none := by
    intro j hj
    by_contra hj'
    exact hfirst j hj ⟨Nat.lt_trans hj hk, hj'⟩
  have hend : heapEnd t + k * PAGE_SIZE < searchLimit t := by
    simp only [PAGE_SIZE] at hroom ⊢
    omega
  have hk' : k < 1024 := Nat.lt_of_lt_of_le hk (Nat.le_trans hn' (by decide))
  have hstuck := findFrom_stuck hm hk hk' hend hlimit habs hpres (not_and_or.mp hget)
  rw [findEmptyAdress_eq, hstuck]
  rfl

/-- Pages right behind the heap that are not present are found. -/
theorem found_of_absent (hm : Separate m) {pageNum : Nat} (hn : 0 < pageNum)
    (hn' : pageNum ≤ PAGE_NUM) (hwin : heapEnd t + SHM_MAX_HEAP < 2 ^ 32)
    (habs : ∀ k < pageNum, m.ent (pagePos (heapEnd t) k) = none) :
    ∃ address m', findEmptyAdress m t pageNum = some (address, m') ∧
      (CanGet 4 m → address = heapEnd t) := by
  obtain ⟨hlimit, hroom⟩ := limit_window hwin hn'
  obtain ⟨found, m', hfind, hfound⟩ := findFrom_gap hm hn hroom hlimit habs
  refine ⟨if found then heapEnd t else 0, m', ?_, fun hget => ?_⟩
  · rw [findEmptyAdress_eq, hfind]
    rfl
  · exact if_pos (hfound (hget.mono (tables_le hn')))

theorem zero_of_noPage {pageNum : Nat} (hn : 0 < pageNum)
    (htab : m.tableOf (dirSlot (heapEnd t)) = none) (hpage : getFreePage m = none) :
    findEmptyAdress m t pageNum = some (0, m) := by
  obtain ⟨left, rfl⟩ := Nat.exists_eq_add_one_of_ne_zero (Nat.ne_zero_of_lt hn)
  have hp : pageTable m (dirSlot (heapEnd t)) = none := by
    unfold Mem.tableOf at htab
    split at htab
    · cases htab
    · rename_i hno
      rw [pageTable, if_neg hno, hpage]
      rfl
  rw [findEmptyAdress_eq, findFrom_noTable hp]
  rfl

/-- **Searching**, for every memory whose page tables are kept apart, every heap and
every number of pages from 1 to 64. The search comes to an end and finds the first gap
exactly when the gap is right behind the heap, or no page for its first page table can
be got; otherwise it goes round at the first page that is present and does not return.
-/
theorem search_finds_gap (hm : Separate m) (ht : DataSegment t) {pageNum : Nat}
    (hn : 0 < pageNum) (hn' : pageNum ≤ PAGE_NUM) :
    FindsGap m t pageNum ↔ BehindHeap m t pageNum := by
  have hloop := @findEmptyAdress_iff m t hm pageNum hn hn'
  unfold BehindHeap
  by_cases hwin : heapEnd t + SHM_MAX_HEAP < 2 ^ 32
  · rw [if_pos hwin]
    constructor
    · rintro ⟨rounds, address, m', hrun, -⟩
      by_contra hno
      obtain ⟨hall, hget⟩ := not_or.mp hno
      have hres := hloop.mpr ⟨rounds, hrun⟩
      rw [stuck_of_present hm hn' hwin hall hget] at hres
      cases hres
    · rintro (habs | ⟨htab, hpage⟩)
      · obtain ⟨address, m', hres, hfound⟩ := found_of_absent hm hn hn' hwin habs
        obtain ⟨rounds, hrun⟩ := hloop.mp hres
        refine ⟨rounds, address, m', hrun, fun hget => Or.inl ?_⟩
        rw [hfound hget]
        exact isLeast_heapEnd ht hn' hwin habs
      · obtain ⟨rounds, hrun⟩ := hloop.mp (zero_of_noPage hn htab hpage)
        refine ⟨rounds, 0, m, hrun, fun ⟨page, m₁, hget, _⟩ => ?_⟩
        rw [hpage] at hget
        cases hget
  · rw [if_neg hwin]
    -- the limit wraps around, and the search does not start
    have hlimit : ¬heapEnd t < searchLimit t := by
      have hlt : heapEnd t < 2 ^ 32 := heapEnd_lt t
      unfold searchLimit
      simp only [SHM_MAX_HEAP] at hwin ⊢
      omega
    obtain ⟨rounds, hrun⟩ : ∃ rounds,
        run (searchLimit t) pageNum rounds ⟨0, heapEnd t, m⟩ = some (0, m) :=
      run_returns (if_neg fun h => hlimit h.2)
    constructor
    · rintro ⟨rounds', address, m', hrun', hleast⟩ hget
      obtain ⟨rfl, -⟩ := Prod.mk.inj (run_unique hrun' hrun)
      rcases hleast hget with h | ⟨h, -⟩
      · have hbehind := h.1.behind
        rw [(heapEnd_eq ht).1, align] at hwin
        simp only [PAGE_SIZE, SHM_MAX_HEAP] at hwin
        omega
      · exact h
    · intro h
      exact ⟨rounds, 0, m, hrun, fun hget => Or.inr ⟨h hget, rfl⟩⟩

theorem dataSegment_taskOne : DataSegment Shm.taskOne := ⟨by decide, by decide⟩

/-- A process without segments. -/
theorem search_finds_gap_free : FindsGap Shm.freeMem Shm.taskOne 2 := by
  refine (search_finds_gap (memInit_separate ..) dataSegment_taskOne (by decide)
    (by decide)).mpr ?_
  have hwin : heapEnd Shm.taskOne + SHM_MAX_HEAP < 2 ^ 32 := by decide
  have habs : ∀ k < 2, Shm.freeMem.ent (pagePos (heapEnd Shm.taskOne) k) = none := by
    decide +kernel
  rw [BehindHeap, if_pos hwin]
  exact Or.inl habs

/-- A process that has a segment right behind its heap: the search for a second one does not
come to an end. -/
theorem not_search_finds_gap :
    ∃ s, exec Shm.step (Shm.start shmBoot Shm.freeMem)
        [.shmget 5 1 IPC_CREAT, .shmat Shm.taskOne 0 0 0] = some s ∧
      ¬FindsGap s.mem Shm.taskOne 1 := by
  obtain ⟨s, hs, hnone⟩ : ∃ s, exec Shm.step (Shm.start shmBoot Shm.freeMem)
      [.shmget 5 1 IPC_CREAT, .shmat Shm.taskOne 0 0 0] = some s ∧
      (findEmptyAdress s.mem Shm.taskOne 1).isNone = true := exec_any (by decide +kernel)
  have hsep : Separate s.mem := by
    obtain ⟨s₁, h₁, h⟩ := Option.bind_eq_some_iff.mp hs
    obtain ⟨s₂, h₂, h⟩ := Option.bind_eq_some_iff.mp h
    obtain rfl := Option.some.inj h
    exact ShmPages.separate_shmat
      (ShmPages.separate_shmget (n := 0) (memInit_separate ..) h₁ (by decide +kernel)) h₂
  refine ⟨s, hs, fun ⟨rounds, address, m', hrun, _⟩ => ?_⟩
  rw [(findEmptyAdress_iff hsep Nat.one_pos (by decide)).mpr ⟨rounds, hrun⟩] at hnone
  cases hnone

end ShmSearch

end Linux011
