import Linux011.Runs
import Linux011.TaskPages

/-!
# Page reference counts

Runs of the functions of `mm/memory.c`, each called as the kernel calls it: a page
is freed by a holder of it, put where nothing is mapped, copied to a task that has
no page tables, and so on. In every state `mem_map` counts, for each page that
`mem_init` left free, the entries of the tasks that name it and its other holders:
page directory entries that use it as a page table, and the callers of
`get_free_page` that have it as a task structure, a pipe buffer or an argument page
(`page_counts`).

The proof is a step lemma and an induction. `Tasks` of the module before has the
invariant: a ledger of who holds which page, that agrees with `mem_map` at every
managed page and with the entries at every task. Each function of `memory.c` was
shown there to take one ledger to the next; `step_ok` only picks the right one
for each kind of call, and with it that the call does not panic. What is left is
to read the result off the ledger: `refs_eq` shows that the holders that it
lists are the entries, the page tables and the other holders that `references`
counts. That a count fits into a char comes out of the same sum, since a page is
named by at most one entry of each task.
-/

namespace Linux011

open Function RefCount Runs

namespace PageCounts

structure State where
  mem : Mem
  /-- how often a page is held other than by an entry -/
  held : Nat → Nat

inductive Act where
  | getFreePage
  | freePage (page : Nat)
  | putPage (page address : Nat)
  | copyPageTables (src dst size : Nat)
  | freePageTables (nr size : Nat)
  | unWpPage (x : Pos)
  | tryToShare (address p current : Nat)
  /-- the processor marks an entry as accessed, and as dirty -/
  | access (x : Pos) (dirty : Bool)

def step (s : State) : Act → Except Panic State
  | .getFreePage => .ok <| match getFreePage s.mem with
    | none => s
    | some (page, mem) => ⟨mem, update s.held page (s.held page + 1)⟩
  | .freePage page => do
    let mem ← freePage s.mem page
    pure ⟨mem, update s.held page (s.held page - 1)⟩
  | .putPage page address => .ok <| match putPage s.mem page address with
    | (0, mem) => ⟨mem, s.held⟩
    | (_, mem) => ⟨mem, update s.held page (s.held page - 1)⟩
  | .copyPageTables src dst size => do
    let (_, mem) ← copyPageTables s.mem (src * TASK_SIZE) (dst * TASK_SIZE) size
    pure ⟨mem, s.held⟩
  | .freePageTables nr size => do
    let mem ← freePageTables s.mem (nr * TASK_SIZE) size
    pure ⟨mem, s.held⟩
  | .unWpPage x => .ok <| match unWpPage s.mem (s.mem.table x.1) x.2 with
    | none => s
    | some mem => ⟨mem, s.held⟩
  | .tryToShare address p current => do
    let (_, mem) ← tryToShare s.mem address (p * TASK_SIZE) (current * TASK_SIZE)
    pure ⟨mem, s.held⟩
  | .access x dirty =>
    let e := s.mem.phys (s.mem.table x.1) x.2
    .ok ⟨s.mem.write (s.mem.table x.1) x.2 (e ||| accessBits dirty), s.held⟩

/-- How the kernel calls the functions. -/
def Admissible (s : State) : Act → Prop
  | .getFreePage => True
  | .freePage page => 1 ≤ s.held page
  | .putPage page address => 1 ≤ s.held page ∧ TASK_SIZE ≤ address ∧ address < 2 ^ 32 ∧
      s.mem.page (posOf address) = none
  | .copyPageTables src dst size => src < 64 ∧ 1 ≤ dst ∧ dst < 64 ∧ src ≠ dst ∧
      size ≤ TASK_SIZE ∧ (src = 0 → size ≤ TASK0_LIMIT) ∧
      ∀ d : Slot, d.val / 16 = dst → s.mem.tableOf d = none
  | .freePageTables nr size => 1 ≤ nr ∧ nr < 64 ∧ size ≤ TASK_SIZE
  | .unWpPage x => User x ∧ s.mem.ent x ≠ none
  | .tryToShare address p current => address < TASK_SIZE ∧ 1 ≤ p ∧ p < 64 ∧ 1 ≤ current ∧
      current < 64 ∧ p ≠ current ∧ s.mem.page (posOf (address + current * TASK_SIZE)) = none
  | .access x _ => User x ∧ s.mem.ent x ≠ none

/-- The state that `mem_init` leaves. -/
def start (z : Zone) (rest : Nat → Slot → Word) : State :=
  ⟨memInit rest z.start z.stop, fun _ => 0⟩

def run (s : State) (a : Act) : Option State := (step s a).toOption

/-- The entries of the tasks that name the page. -/
def entriesNaming (m : Mem) (p : Nat) : Nat :=
  (Finset.univ.filter fun x : Pos => User x ∧ m.page x = some p).card

/-- The page directory entries that use the page as a page table. -/
def tablesUsing (m : Mem) (p : Nat) : Nat :=
  (Finset.univ.filter fun d : Slot => m.tableOf d = some p).card

/-- All references to the page, of entries and of other holders. -/
def references (s : State) (p : Nat) : Nat :=
  entriesNaming s.mem p + tablesUsing s.mem p + s.held p

/-- The counts are those of the references, they fit into a char, a page that is free
has no reference, and no call stops the machine. -/
structure Accounted (z : Zone) (s : State) : Prop where
  count : ∀ p, z.Managed p → s.mem.memMap p = references s p
  fits : ∀ p, z.Managed p → references s p < 256
  free : ∀ p m, getFreePage s.mem = some (p, m) → references s p = 0
  no_panic : ∀ a, Admissible s a → ∃ s', step s a = .ok s'

variable {z : Zone} {s s' : State}

theorem refs_eq (m : Mem) (p : Nat) :
    refs (m.ref user) p = entriesNaming m p + tablesUsing m p := by
  have htab : (Finset.univ.filter fun d => m.ref user (.inl d) = some p).card
      = tablesUsing m p := congrArg Finset.card (Finset.filter_congr fun d _ => Iff.rfl)
  have hent : (Finset.univ.filter fun x => m.ref user (.inr x) = some p).card
      = entriesNaming m p := by
    refine congrArg Finset.card (Finset.filter_congr fun x _ => ⟨ref_user_eq_some, ?_⟩)
    intro ⟨hx, hp⟩
    simp [Mem.ref, hx.counted, hp]
  rw [refs_sum, htab, hent, Nat.add_comm]

/-! ## One step -/

/-- Every call of the kernel goes through and keeps the books and the kinds. -/
theorem step_ok (h : Tasks z s.held s.mem) {a : Act} (ha : Admissible s a) :
    ∃ s', step s a = .ok s' ∧ Tasks z s'.held s'.mem := by
  cases a with
  | getFreePage =>
      simp only [step]
      cases hg : getFreePage s.mem with
      | none => exact ⟨s, rfl, h⟩
      | some r =>
          obtain ⟨p, m⟩ := r
          obtain ⟨h', hf⟩ := h.alloc hg
          have h0 := (h.paged.unused hf.managed hf.free).2.2
          refine ⟨_, rfl, ?_⟩
          simpa [h0] using h'
  | freePage page =>
      obtain ⟨m, hm, h'⟩ := h.drop ha
      have hle := h.kinds.held_le page
      have h1 : 1 ≤ s.held page := ha
      refine ⟨⟨m, update s.held page (s.held page - 1)⟩, by simp only [step, hm]; rfl, ?_⟩
      rwa [show s.held page - 1 = 0 by omega]
  | putPage page address =>
      obtain ⟨h1, hlo, hhi, hx⟩ := ha
      have hm := h.kinds.held_managed page h1
      have hle := h.kinds.held_le page
      have hpos : page ≠ 0 := by
        have := hm.1
        have := z.lowMem_le
        have : LOW_MEM = 256 := rfl
        omega
      simp only [step]
      rcases h.put h1 (user_posOf hlo hhi) hx with hput | ⟨m, hput, h'⟩
      · rw [hput]
        exact ⟨_, rfl, h⟩
      · rw [hput]
        refine ⟨⟨m, update s.held page (s.held page - 1)⟩, ?_, ?_⟩
        · cases page with
          | zero => exact absurd rfl hpos
          | succ n => rfl
        · rwa [show s.held page - 1 = 0 by omega]
  | copyPageTables src dst size =>
      obtain ⟨hsrc, h1, hdst, hne, hs, hs0, hempty⟩ := ha
      obtain ⟨r, m, hm, h', -⟩ := h.copy hsrc h1 hdst hne hs hs0 hempty
      exact ⟨⟨m, s.held⟩, by simp only [step, hm]; rfl, h'⟩
  | freePageTables nr size =>
      obtain ⟨h1, hnr, hs⟩ := ha
      obtain ⟨m, hm, h', -⟩ := h.free h1 hnr hs
      exact ⟨⟨m, s.held⟩, by simp only [step, hm]; rfl, h'⟩
  | unWpPage x =>
      obtain ⟨hx, hpres⟩ := ha
      obtain ⟨e, he⟩ := Option.ne_none_iff_exists'.mp hpres
      obtain ⟨t, ht⟩ := ent_tableOf he
      have htab := table_of_tableOf ht
      simp only [step, htab]
      rcases h.unWp ht he hx with hnone | ⟨m, hm, h', -, -⟩
      · rw [hnone]
        exact ⟨s, rfl, h⟩
      · rw [hm]
        exact ⟨_, rfl, h'⟩
  | tryToShare address p current =>
      obtain ⟨ha, h1, hp, h1', hcur, hne, hx⟩ := ha
      obtain ⟨-, hdp⟩ := posOf_task ha hp
      obtain ⟨hpos, hdc⟩ := posOf_task ha hcur
      rw [hpos] at hx
      have hlt : address / 0x400000 < 16 := by
        simp only [TASK_SIZE] at ha
        omega
      let x : Pos := (dirSlot (address + p * TASK_SIZE), tableSlot address)
      let y : Pos := (dirSlot (address + current * TASK_SIZE), tableSlot address)
      have hmod : x.1.val % 16 = y.1.val % 16 := by
        simp only [x, y, hdp, hdc]
        omega
      have hoff : offsetOf x = offsetOf y := by
        rw [offsetOf, offsetOf, hmod]
      obtain ⟨r, m, hm, h'⟩ := h.share address (p * TASK_SIZE) (current * TASK_SIZE)
        (x := x) (y := y) rfl rfl
        (show 16 ≤ x.1.val by simp only [x, hdp]; omega)
        (show 16 ≤ y.1.val by simp only [y, hdc]; omega)
        (show x.1.val / 16 ≠ y.1.val / 16 by simp only [x, y, hdp, hdc]; omega) hoff hx
      exact ⟨⟨m, s.held⟩, by simp only [step, hm]; rfl, h'⟩
  | access x dirty =>
      obtain ⟨hx, hpres⟩ := ha
      obtain ⟨e, he⟩ := Option.ne_none_iff_exists'.mp hpres
      obtain ⟨t, ht⟩ := ent_tableOf he
      have htab := table_of_tableOf ht
      have hphys := ((ent_eq_some ht).mp he).2
      refine ⟨_, rfl, ?_⟩
      simp only [htab, hphys]
      exact (h.rewrite ht he (present_access (ent_present he) dirty) (frame_access e dirty)).1

theorem Tasks.accounted (h : Tasks z s.held s.mem) : Accounted z s := by
  have hrefs : ∀ p, references s p = refs (s.mem.ref user) p + s.held p := fun p => by
    rw [refs_eq]
    rfl
  refine ⟨fun p hp => ?_, fun p hp => ?_, fun p m hg => ?_, fun a ha => ?_⟩
  · rw [hrefs]
    exact h.paged.balanced p hp
  · have h₁ := h.kinds.count_le h.paged hp
    have h₂ := h.kinds.held_le p
    rw [hrefs]
    omega
  · obtain ⟨hf, -⟩ := h.paged.getFreePage_spec hg
    rw [hrefs, ← h.paged.balanced p hf.managed]
    exact hf.free
  · obtain ⟨s', hs', -⟩ := step_ok h ha
    exact ⟨s', hs'⟩

/-- **Page reference counts**, in every state that the functions of `memory.c` reach
when they are called as the kernel calls them: `mem_map` counts the references to each
page, no count leaves the range of a char, a page that `get_free_page` would give away
has no reference, and none of the calls stops the machine. -/
theorem page_counts (z : Zone) (rest : Nat → Slot → Word) {s : State}
    (h : Reach run Admissible (start z rest) s) : Accounted z s := by
  refine Tasks.accounted (h.invariant (I := fun s => Tasks z s.held s.mem)
    (tasks_start z rest) fun s a s' hs ha hstep => ?_)
  obtain ⟨s₁, hs₁, h₁⟩ := step_ok hs ha
  rw [run, hs₁] at hstep
  obtain rfl := Option.some.inj hstep
  exact h₁

instance (s : State) (a : Act) : Decidable (Admissible s a) := by
  cases a <;> unfold Admissible <;> infer_instance

/-- Task 1 gets a page that task 2 comes to share; another page has a holder. -/
def sharing : List Act :=
  [.getFreePage, .putPage 4095 0x4000000, .access (dirSlot 0x4000000, tableSlot 0x4000000) false,
    .tryToShare 0 1 2, .getFreePage]

theorem page_counts_sharing : ∃ s,
    exec (checked run Admissible) (start ⟨4000, 4096, by decide, by decide⟩ fun _ _ => 0) sharing
      = some s ∧ s.mem.memMap 4095 = 2 ∧ references s 4095 = 2 ∧
      Accounted ⟨4000, 4096, by decide, by decide⟩ s := by
  let z : Zone := ⟨4000, 4096, by decide, by decide⟩
  obtain ⟨s, hs, hmap⟩ : ∃ s, exec (checked run Admissible) (start z fun _ _ => 0) sharing
      = some s ∧ s.mem.memMap 4095 = 2 := exec_any (by decide +kernel)
  have hacc := page_counts z (fun _ _ => 0) (exec_checked hs)
  exact ⟨s, hs, hmap, (hacc.count 4095 (by decide)).symm.trans hmap, hacc⟩

end PageCounts

end Linux011
