import Linux011.Shm
import Linux011.TaskPages
import Mathlib.Order.CompletePartialOrder
import Mathlib.Order.Interval.Set.Disjoint

/-!
# The heap and the segments of a process

`sys_shmat` without an address puts a segment at the first page behind the heap, at pages that
are not present; `sys_brk` moves the end of the heap and looks at the limits of code and stack
only. As long as the heap does not grow into a segment, the heap and the segments stay apart
(`heap_apart`).

The invariant `Inv` says more than the result: all pages of every segment are present. So an
attach, which only takes pages that are not present, never meets a segment that is there already,
and as the search starts behind the heap it does not meet the heap. What an attach does to the
page tables is proved before, for the search and then for the loop over `put_page`; the addresses
are linear ones there and relative to the process here, and `relPos_page` passes from one to the
other, for which the base has to be at a page. `sys_brk` changes no page table, and keeps the two
apart by the condition of the run; without it, they overlap at once (`overlap_of_brk`).
-/

namespace Linux011

open Function Runs

namespace ShmHeap

/-- What does not change for a process between two `exec`. -/
structure Proc where
  pid : Nat
  base : Word
  end_code : Word
  start_stack : Word
  pid_ne : pid ≠ 0
  aligned : base.toNat % PAGE_SIZE = 0

/-- A segment in a process: its address relative to the base, and its pages. -/
abbrev Segment := Nat × Nat

/-- The state of the kernel and of one process. -/
structure Heap where
  state : ShmState
  brk : Word
  segments : List Segment

variable {p : Proc} {h h' : Heap} {m m' m₁ : Mem}

/-- `sys_brk` accepts the new end. -/
def Accepted (p : Proc) (endDataSeg : Word) : Prop :=
  endDataSeg ≥ p.end_code ∧ endDataSeg < p.start_stack - 16384

instance (p : Proc) (e : Word) : Decidable (Accepted p e) := inferInstanceAs (Decidable (_ ∧ _))

def sysBrk (p : Proc) (brk endDataSeg : Word) : Word :=
  if Accepted p endDataSeg then endDataSeg else brk

def task (p : Proc) (brk : Word) : Task := ⟨p.pid, p.base, brk, p.pid_ne⟩

inductive Act where
  | brk (endDataSeg : Word)
  /-- `sys_shmat(shmid, NULL, 0)` -/
  | shmat (shmid : Int)

def step (p : Proc) (h : Heap) : Act → Option Heap
  | .brk e => some { h with brk := sysBrk p h.brk e }
  | .shmat shmid =>
      (sysShmat h.state (task p h.brk) shmid 0 0).map fun (address, s) =>
        match address with
        | some address => { h with
            state := s
            segments := (address, (h.state.shmnum shmid.toNat).pageNum) :: h.segments }
        | none => { h with state := s }

/-- The addresses of a segment. -/
def range (seg : Segment) : Set Nat := Set.Ico seg.1 (seg.1 + PAGE_SIZE * seg.2)

/-- The heap, from 0 up to `brk`, and the segments. -/
structure Apart (h : Heap) : Prop where
  heap : ∀ seg ∈ h.segments, Disjoint (Set.Iio h.brk.toNat) (range seg)
  segments : h.segments.Pairwise fun seg seg' => Disjoint (range seg) (range seg')

/-- The heap ends below the segments and in front of the last page. -/
def Below (p : Proc) (h : Heap) : Act → Prop
  | .brk e => Accepted p e → ∀ seg ∈ h.segments, e.toNat ≤ seg.1
  | .shmat _ => h.brk ≤ 0xFFFFF000

instance (h : Heap) (a : Act) : Decidable (Below p h a) := by
  cases a <;> unfold Below <;> infer_instance

/-! ## What attaching does to the page tables -/

theorem posOf_congr {a b : Nat} (h : a % 2 ^ 32 = b % 2 ^ 32) : posOf a = posOf b := by
  refine Prod.ext (Fin.ext ?_) (Fin.ext ?_)
  · show a / 0x400000 % 1024 = b / 0x400000 % 1024
    omega
  · show a / 0x1000 % 1024 = b / 0x1000 % 1024
    omega

theorem posOf_page (a : Nat) : posOf (a / PAGE_SIZE * PAGE_SIZE) = posOf a := by
  refine Prod.ext (Fin.ext ?_) (Fin.ext ?_)
  · show a / 4096 * 4096 / 0x400000 % 1024 = a / 0x400000 % 1024
    omega
  · show a / 4096 * 4096 / 0x1000 % 1024 = a / 0x1000 % 1024
    omega

theorem findFrom_noTable {limit left address : Nat}
    (hp : pageTable m (dirSlot address) = none) :
    findFrom limit (left + 1) address m = some (false, m) := by
  rw [findFrom, hp]
  split <;> rfl

/-- At a page that is present the search stays. -/
theorem findFrom_present (hm : Separate m) {limit left address : Nat} (hlt : address < limit)
    (hpres : m.ent (posOf address) ≠ none) : findFrom limit (left + 1) address m = none := by
  cases hp : pageTable m (dirSlot address) with
  | none =>
      unfold pageTable at hp
      split at hp
      · cases hp
      · rename_i hno
        have htab : m.tableOf (posOf address).1 = none := if_neg hno
        exact absurd (by rw [Mem.ent, htab]; rfl) hpres
  | some r =>
      obtain ⟨table, m₁⟩ := r
      obtain ⟨htab, hent, hm₁⟩ := hm.pageTable hp
      have htable : m₁.tableOf (posOf address).1 = some table := by
        rw [htab]
        exact update_self ..
      rw [findFrom, if_pos hlt, hp]
      dsimp only
      refine if_pos ?_
      by_contra hno
      exact hpres (hent ▸ (ent_eq_none htable).mpr hno)

/-- At a page that is not present the search goes on. -/
theorem findFrom_absent (hm : Separate m) {limit left address table : Nat}
    (hlt : address < limit) (habs : m.ent (posOf address) = none)
    (hp : pageTable m (dirSlot address) = some (table, m₁)) :
    findFrom limit (left + 1) address m = if left = 0 then some (true, m₁)
      else findFrom limit left ((address + PAGE_SIZE) % 2 ^ 32) m₁ := by
  obtain ⟨htab, hent, hm₁⟩ := hm.pageTable hp
  have htable : m₁.tableOf (posOf address).1 = some table := by
    rw [htab]
    exact update_self ..
  rw [findFrom, if_pos hlt, hp]
  exact if_neg ((ent_eq_none htable).mp (by rw [hent, habs]))

/-- `findEmptyAdress` makes page tables and changes no entry; where it finds room, every
page has a page table and none is present. -/
theorem findFrom_spec {limit left address : Nat} {found : Bool} (hm : Separate m)
    (h : findFrom limit left address m = some (found, m')) :
    Separate m' ∧ m'.ent = m.ent ∧ (∀ d, m.tableOf d ≠ none → m'.tableOf d ≠ none) ∧
      (found = true → 0 < left ∧ ∀ k < left,
        m'.tableOf (posOf (address + k * PAGE_SIZE)).1 ≠ none ∧
        m.ent (posOf (address + k * PAGE_SIZE)) = none) := by
  induction left generalizing address m with
  | zero =>
      obtain ⟨rfl, rfl⟩ := Prod.mk.inj (Option.some.inj h)
      exact ⟨hm, rfl, fun _ hd => hd, fun hf => by cases hf⟩
  | succ left ih =>
      by_cases hlt : address < limit
      · cases hp : pageTable m (dirSlot address) with
        | none =>
            rw [findFrom_noTable hp] at h
            obtain ⟨rfl, rfl⟩ := Prod.mk.inj (Option.some.inj h)
            exact ⟨hm, rfl, fun _ hd => hd, fun hf => by cases hf⟩
        | some r =>
            obtain ⟨table, m₁⟩ := r
            obtain ⟨htab, hent, hm₁⟩ := hm.pageTable hp
            have htable : m₁.tableOf (posOf address).1 = some table := by
              rw [htab]
              exact update_self ..
            have hkeep : ∀ d, m.tableOf d ≠ none → m₁.tableOf d ≠ none := by
              intro d hd
              rw [htab]
              rcases eq_or_ne d (dirSlot address) with rfl | hne
              · rw [update_self]
                exact Option.some_ne_none table
              · rwa [update_of_ne hne]
            have hzero : posOf (address + 0 * PAGE_SIZE) = posOf address := by
              rw [Nat.zero_mul, Nat.add_zero]
            by_cases habs : m.ent (posOf address) = none
            · rw [findFrom_absent hm hlt habs hp] at h
              split at h
              · rename_i hleft
                obtain ⟨rfl, rfl⟩ := Prod.mk.inj (Option.some.inj h)
                refine ⟨hm₁, hent, hkeep, fun _ => ⟨by omega, fun k hk => ?_⟩⟩
                obtain rfl : k = 0 := by omega
                rw [hzero, htable]
                exact ⟨Option.some_ne_none table, habs⟩
              · obtain ⟨hm', hent', hkeep', hfound⟩ := ih hm₁ h
                refine ⟨hm', hent'.trans hent, fun d hd => hkeep' d (hkeep d hd), fun hf => ?_⟩
                obtain ⟨-, hpages⟩ := hfound hf
                refine ⟨by omega, fun k hk => ?_⟩
                cases k with
                | zero =>
                    rw [hzero]
                    refine ⟨hkeep' _ ?_, habs⟩
                    rw [htable]
                    exact Option.some_ne_none table
                | succ k =>
                    have hpos : posOf ((address + PAGE_SIZE) % 2 ^ 32 + k * PAGE_SIZE)
                        = posOf (address + (k + 1) * PAGE_SIZE) :=
                      posOf_congr (by simp only [PAGE_SIZE]; omega)
                    have := hpages k (by omega)
                    rwa [hpos, hent] at this
            · rw [findFrom_present hm hlt habs] at h
              cases h
      · rw [findFrom, if_neg hlt] at h
        obtain ⟨rfl, rfl⟩ := Prod.mk.inj (Option.some.inj h)
        exact ⟨hm, rfl, fun _ hd => hd, fun hf => by cases hf⟩

/-- `put_page` where there is a page table or a page for it. -/
theorem putPage_entry (hm : Separate m) (page : Nat) {address : Nat}
    (ht : pageTable m (dirSlot address) ≠ none) :
    (putPage m page address).1 = page ∧ Separate (putPage m page address).2 ∧
      (∀ d, m.tableOf d ≠ none → (putPage m page address).2.tableOf d ≠ none) ∧
      (putPage m page address).2.ent = update m.ent (posOf address) (some (entry page)) := by
  obtain ⟨⟨table, m₁⟩, ht⟩ := Option.ne_none_iff_exists'.mp ht
  obtain ⟨htab, hent, hm₁⟩ := hm.pageTable ht
  have hput : putPage m page address
      = (page, m₁.write table (posOf address).2 (entry page)) := by
    rw [putPage, ht]
    rfl
  have htable : m₁.tableOf (posOf address).1 = some table := by
    rw [htab]
    exact update_self ..
  rw [hput]
  refine ⟨rfl, hm₁.write htable _ _, fun d hd => ?_, ?_⟩
  · dsimp only
    rw [hm₁.write_tableOf htable, htab]
    rcases eq_or_ne d (dirSlot address) with rfl | hne
    · rw [update_self]
      exact Option.some_ne_none table
    · rwa [update_of_ne hne]
  · dsimp only
    rw [hm₁.write_ent htable, hent, presentEntry, if_pos (present_entry page)]

theorem pageTable_of_tableOf {d : Slot} (h : m.tableOf d ≠ none) : pageTable m d ≠ none := by
  have hpres : Present (m.dir d) := by
    by_contra hp
    rw [Mem.tableOf, if_neg hp] at h
    exact h rfl
  rw [pageTable, if_pos hpres]
  exact Option.some_ne_none _

/-- After `sys_shmat` mapped its pages they are all present, and so is what was. -/
theorem putPages_spec (shmaddr : Nat → Nat) (address : Nat) {n : Nat} (hm : Separate m)
    (ht : ∀ k < n, m.tableOf (posOf (address + k * PAGE_SIZE)).1 ≠ none) :
    Separate (putPages shmaddr address n m) ∧
      (∀ d, m.tableOf d ≠ none → (putPages shmaddr address n m).tableOf d ≠ none) ∧
      (∀ k < n, (putPages shmaddr address n m).ent (posOf (address + k * PAGE_SIZE)) ≠ none) ∧
      ∀ x, m.ent x ≠ none → (putPages shmaddr address n m).ent x ≠ none := by
  induction n with
  | zero =>
      exact ⟨hm, fun _ hd => hd, fun k hk => absurd hk (Nat.not_lt_zero k), fun _ hx => hx⟩
  | succ n ih =>
      obtain ⟨hm₁, htab₁, hpres₁, hkeep₁⟩ := ih fun k hk => ht k (by omega)
      have hstep : putPages shmaddr address (n + 1) m
          = (putPage (putPages shmaddr address n m) (shmaddr n)
              ((address + n * PAGE_SIZE) % 2 ^ 32)).2 := by
        rw [putPages, List.range_succ, List.foldl_append]
        rfl
      have hpos : posOf ((address + n * PAGE_SIZE) % 2 ^ 32) = posOf (address + n * PAGE_SIZE) :=
        posOf_congr (Nat.mod_mod ..)
      have htn : pageTable (putPages shmaddr address n m)
          (dirSlot ((address + n * PAGE_SIZE) % 2 ^ 32)) ≠ none := by
        refine pageTable_of_tableOf (htab₁ _ ?_)
        rw [show dirSlot ((address + n * PAGE_SIZE) % 2 ^ 32)
          = (posOf (address + n * PAGE_SIZE)).1 from congrArg Prod.fst hpos]
        exact ht n (Nat.lt_succ_self n)
      obtain ⟨-, hm₂, htab₂, hent₂⟩ := putPage_entry hm₁ (shmaddr n) htn
      have hkeep₂ : ∀ x, (putPages shmaddr address n m).ent x ≠ none →
          (putPage (putPages shmaddr address n m) (shmaddr n)
            ((address + n * PAGE_SIZE) % 2 ^ 32)).2.ent x ≠ none := by
        intro x hx
        rw [hent₂]
        rcases eq_or_ne x (posOf ((address + n * PAGE_SIZE) % 2 ^ 32)) with rfl | hne
        · rw [update_self]
          exact Option.some_ne_none _
        · rwa [update_of_ne hne]
      rw [hstep]
      refine ⟨hm₂, fun d hd => htab₂ d (htab₁ d hd), fun k hk => ?_,
        fun x hx => hkeep₂ x (hkeep₁ x hx)⟩
      rcases Nat.lt_succ_iff_lt_or_eq.mp hk with hlt | rfl
      · exact hkeep₂ _ (hpres₁ k hlt)
      · rw [hent₂, hpos, update_self]
        exact Option.some_ne_none _

/-- `sys_shmat` without an address: nothing is lost, and a segment comes to pages behind
the heap that were not there. -/
theorem mapSegment_spec (hm : Separate m) {t : Task} {x : ShmStruct} {r : Option Nat}
    (h : mapSegment m t x 0 0 = some (r, m')) :
    Separate m' ∧ (∀ y, m.ent y ≠ none → m'.ent y ≠ none) ∧
      ∀ address, r = some address → address = heapEnd t ∧ ∀ k < x.pageNum,
        m.ent (posOf (address + k * PAGE_SIZE)) = none ∧
        m'.ent (posOf (address + k * PAGE_SIZE)) ≠ none := by
  obtain ⟨found, m₁, hfind, hres⟩ := mapSegment_null h
  obtain ⟨hm₁, hent₁, -, hfound⟩ := findFrom_spec hm hfind
  rcases hres with ⟨hyes, rfl, rfl⟩ | ⟨rfl, rfl⟩
  · obtain ⟨-, hpages⟩ := hfound hyes
    obtain ⟨hm', -, hpres, hkeep⟩ :=
      putPages_spec x.shmaddr (heapEnd t) hm₁ fun k hk => (hpages k hk).1
    refine ⟨hm', fun y hy => hkeep y (hent₁ ▸ hy), fun address ha => ?_⟩
    obtain rfl := Option.some.inj ha
    exact ⟨rfl, fun k hk => ⟨(hpages k hk).2, hpres k hk⟩⟩
  · exact ⟨hm₁, fun y hy => hent₁ ▸ hy, fun address ha => by cases ha⟩

/-! ## The process -/

/-- The position of a relative address of the process. -/
def relPos (p : Proc) (address : Nat) : Pos := posOf (address + p.base.toNat)

/-- Segments start at pages, and all their pages are present. -/
structure Inv (p : Proc) (h : Heap) : Prop where
  separate : Separate h.state.mem
  aligned : ∀ seg ∈ h.segments, seg.1 % PAGE_SIZE = 0
  present : ∀ seg ∈ h.segments, ∀ x ∈ range seg, h.state.mem.ent (relPos p x) ≠ none
  apart : Apart h

/-- The address that the process gets, when the heap ends in front of the last page. -/
theorem heapEnd_relative (p : Proc) {brk : Word} (hb : brk ≤ 0xFFFFF000) :
    ∃ a, (heapEnd (task p brk) + 2 ^ 32 - p.base.toNat) % 2 ^ 32 = a ∧ brk.toNat ≤ a ∧
      a % PAGE_SIZE = 0 ∧ ∀ x, posOf (heapEnd (task p brk) + x) = relPos p (a + x) := by
  have hle : brk.toNat ≤ 0xFFFFF000 := BitVec.le_def.mp hb
  have hal := p.aligned
  have hbase := p.base.isLt
  have hdef : heapEnd (task p brk)
      = (p.base.toNat + brk.toNat + 0x0FFF) % 2 ^ 32 / 4096 * 4096 := rfl
  rw [hdef]
  simp only [PAGE_SIZE] at hal ⊢
  refine ⟨_, rfl, ?_, ?_, fun x => posOf_congr ?_⟩
  · omega
  · omega
  · omega

/-- A relative address of a segment lies on one of its pages. -/
theorem mem_range_page {seg : Segment} (hal : seg.1 % PAGE_SIZE = 0) {x : Nat}
    (hx : x ∈ range seg) : ∃ k < seg.2, x / PAGE_SIZE * PAGE_SIZE = seg.1 + k * PAGE_SIZE := by
  obtain ⟨h₁, h₂⟩ := hx
  simp only [PAGE_SIZE] at *
  exact ⟨(x - seg.1) / 4096, by omega, by omega⟩

theorem relPos_page (p : Proc) (x : Nat) : relPos p (x / PAGE_SIZE * PAGE_SIZE) = relPos p x := by
  have hal := p.aligned
  rw [relPos, relPos, ← posOf_page (x + p.base.toNat)]
  refine congrArg posOf ?_
  simp only [PAGE_SIZE] at hal ⊢
  omega

/-- A new segment at pages that were not present. -/
theorem Inv.attach (hi : Inv p h) {s : ShmState} {seg : Segment} (hsep : Separate s.mem)
    (hkeep : ∀ y, h.state.mem.ent y ≠ none → s.mem.ent y ≠ none)
    (hal : seg.1 % PAGE_SIZE = 0) (hle : h.brk.toNat ≤ seg.1)
    (hnew : ∀ k < seg.2, h.state.mem.ent (relPos p (seg.1 + k * PAGE_SIZE)) = none ∧
      s.mem.ent (relPos p (seg.1 + k * PAGE_SIZE)) ≠ none) :
    Inv p { h with state := s, segments := seg :: h.segments } := by
  have hpage : ∀ x ∈ range seg, h.state.mem.ent (relPos p x) = none ∧
      s.mem.ent (relPos p x) ≠ none := by
    intro x hx
    obtain ⟨k, hk, he⟩ := mem_range_page hal hx
    rw [← relPos_page, he]
    exact hnew k hk
  refine ⟨hsep, ?_, ?_, ?_, ?_⟩
  · rintro seg' hseg
    rcases List.mem_cons.mp hseg with rfl | hseg
    · exact hal
    · exact hi.aligned seg' hseg
  · rintro seg' hseg x hx
    rcases List.mem_cons.mp hseg with rfl | hseg
    · exact (hpage x hx).2
    · exact hkeep _ (hi.present seg' hseg x hx)
  · rintro seg' hseg
    rcases List.mem_cons.mp hseg with rfl | hseg
    · exact Set.disjoint_left.mpr fun x hx hr =>
        absurd (Nat.lt_of_lt_of_le (Set.mem_Iio.mp hx) hle) (Nat.not_lt.mpr hr.1)
    · exact hi.apart.heap seg' hseg
  · refine List.pairwise_cons.mpr ⟨fun seg' hseg => ?_, hi.apart.segments⟩
    exact Set.disjoint_left.mpr fun x hx hx' => hi.present seg' hseg x hx' (hpage x hx).1

theorem Inv.step {a : Act} (hi : Inv p h) (hok : Below p h a) (hs : step p h a = some h') :
    Inv p h' := by
  cases a with
  | brk e =>
      obtain rfl := Option.some.inj hs
      refine ⟨hi.separate, hi.aligned, hi.present, ⟨fun seg hseg => ?_, hi.apart.segments⟩⟩
      dsimp only
      unfold sysBrk
      split
      · rename_i hacc
        have hle := hok hacc seg hseg
        exact Set.disjoint_left.mpr fun x hx hr =>
          absurd (Nat.lt_of_lt_of_le (Set.mem_Iio.mp hx) hle) (Nat.not_lt.mpr hr.1)
      · exact hi.apart.heap seg hseg
  | shmat shmid =>
      obtain ⟨⟨r, s⟩, hr, rfl⟩ := Option.map_eq_some_iff.mp hs
      rcases sysShmat_cases hr with ⟨rfl, -, rfl | hm⟩ | ⟨i, address, m, rfl, -, hm, rfl, rfl⟩
      · exact hi
      · obtain ⟨hsep, hkeep, -⟩ := mapSegment_spec hi.separate hm
        exact ⟨hsep, hi.aligned, fun seg hseg x hx => hkeep _ (hi.present seg hseg x hx),
          hi.apart.heap, hi.apart.segments⟩
      · obtain ⟨hsep, hkeep, hpages⟩ := mapSegment_spec hi.separate hm
        obtain ⟨rfl, hnew⟩ := hpages address rfl
        obtain ⟨a, ha, hle, hal, hpos⟩ := heapEnd_relative p hok
        dsimp only
        rw [show (heapEnd (task p h.brk) + 2 ^ 32 - (task p h.brk).base.toNat) % 2 ^ 32 = a from
          ha, Int.toNat_natCast]
        refine hi.attach hsep hkeep hal hle fun k hk => ?_
        rw [← hpos]
        exact hnew k hk

theorem overlap_of_brk {e : Word} (hacc : Accepted p e) {seg : Segment}
    (hseg : seg ∈ h.segments) (hpages : 0 < seg.2) (hlt : seg.1 < e.toNat)
    (hs : step p h (.brk e) = some h') : ¬Apart h' := by
  obtain rfl := Option.some.inj hs
  intro hap
  have hd := hap.heap seg hseg
  have hbrk : sysBrk p h.brk e = e := if_pos hacc
  rw [hbrk] at hd
  refine Set.disjoint_left.mp hd (Set.mem_Iio.mpr hlt) ⟨Nat.le_refl _, ?_⟩
  simp only [PAGE_SIZE]
  omega

/-- **Heap and segments.** In every run of `sys_brk` and `sys_shmat` in which the heap
stays below the segments of the process, the heap and the segments do not overlap. An end
that `sys_brk` accepts above the address of a segment with a page makes them overlap. -/
theorem heap_apart (p : Proc) {s : ShmState} (hsep : Separate s.mem) (brk : Word)
    (hr : Reach (step p) (Below p) ⟨s, brk, []⟩ h) :
    Apart h ∧ ∀ e h', step p h (.brk e) = some h' → Accepted p e →
      (∃ seg ∈ h.segments, 0 < seg.2 ∧ seg.1 < e.toNat) → ¬Apart h' := by
  have hstart : Inv p ⟨s, brk, []⟩ := by
    refine ⟨hsep, fun seg hseg => ?_, fun seg hseg => ?_, fun seg hseg => ?_, List.Pairwise.nil⟩
    all_goals exact absurd hseg List.not_mem_nil
  refine ⟨(hr.invariant hstart fun _ _ _ hi hok hs => hi.step hok hs).apart, ?_⟩
  rintro e h' hs hacc ⟨seg, hseg, hpages, hlt⟩
  exact overlap_of_brk hacc hseg hpages hlt hs

/-- A process of two pages, code first, and a segment of one page in slot 0. -/
def proc : Proc := ⟨1, 0x4000000, 0x1000, 0x3000000, Nat.one_ne_zero, by decide⟩

def oneSegment : ShmState where
  shmnum := update (sysInishm shmBoot) 0
    { sysInishm shmBoot 0 with key := 5, pageNum := 1, shmaddr := fun _ => LOW_MEM }
  mem := { Shm.freeMem with memMap := update Shm.freeMem.memMap LOW_MEM 1 }

theorem separate_oneSegment : Separate oneSegment.mem := by
  have hsep : Separate Shm.freeMem := memInit_separate ..
  refine ⟨hsep.table_pos, hsep.table_inj, fun d t ht hlow => ?_⟩
  have hused := hsep.table_used d t ht hlow
  change update Shm.freeMem.memMap LOW_MEM 1 t ≠ 0
  rcases eq_or_ne t LOW_MEM with rfl | hne
  · rw [update_self]
    decide
  · rwa [update_of_ne hne]

/-- Attach, and give part of the heap back. -/
theorem heap_apart_attached :
    ∃ h, exec (checked (step proc) (Below proc)) ⟨oneSegment, 0x2000, []⟩
        [.shmat 0, .brk 0x1800] = some h ∧ h.segments = [(0x2000, 1)] ∧ Apart h := by
  obtain ⟨h, hh, hseg⟩ : ∃ h, exec (checked (step proc) (Below proc)) ⟨oneSegment, 0x2000, []⟩
      [.shmat 0, .brk 0x1800] = some h ∧ h.segments = [(0x2000, 1)] := exec_any (by decide)
  exact ⟨h, hh, hseg, (heap_apart proc separate_oneSegment 0x2000 (exec_checked hh)).1⟩

/-- Attach, and take two more pages. -/
theorem not_heap_apart :
    ∃ h, exec (step proc) ⟨oneSegment, 0x2000, []⟩ [.shmat 0, .brk 0x4000] = some h ∧
      ¬Apart h := by
  obtain ⟨h, hh, hbrk, hseg⟩ : ∃ h, exec (step proc) ⟨oneSegment, 0x2000, []⟩
      [.shmat 0, .brk 0x4000] = some h ∧ h.brk = 0x4000 ∧ (0x2000, 1) ∈ h.segments :=
    exec_any (by decide)
  refine ⟨h, hh, fun hap => ?_⟩
  have hheap : 0x2000 ∈ Set.Iio h.brk.toNat := by
    rw [hbrk]
    exact Set.mem_Iio.mpr (by decide)
  exact Set.disjoint_left.mp (hap.heap _ hseg) hheap ⟨Nat.le_refl _, by decide⟩

end ShmHeap

end Linux011
