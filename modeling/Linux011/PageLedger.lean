import Linux011.Memory
import Linux011.RefCount

/-!
# The books of the page allocator

The page tables as a family of references: a directory entry refers to its page
table, a page table entry to its page. `mem_map` counts them, together with the
other holders of a page. `Paged` is what every function of `mm/memory.c` keeps.

Some entries are not counted, so the books name those that are: the entries that
map the kernel's memory are not, nor is an entry that was made without a count.

The books are kept in two views. `tableOf`, `ent` and `page` read the page
tables as partial functions, and a store of the source into a word of a frame is
a change of one of them at one place, as long as page tables are not shared;
this is what the lemmas of the form `write_tableOf` and `write_ent` say, and no
later proof looks at words again. On top of this `Paged` uses `RefCount` for the
family of all references: a new reference goes with a count that is raised, a
reference that is dropped with one that is lowered, and what `get_free_page`
gives out is a page without any. `Separate` is the part of `Paged` that does
without counts, for the modules that only need that page tables are kept apart.
-/

namespace Linux011

open Function RefCount Tally

/-- A page table entry: its directory entry and its number in the page table. -/
abbrev Pos := Slot × Slot

namespace Mem

/-- The page table of a directory entry. -/
def tableOf (m : Mem) (d : Slot) : Option Nat :=
  if Present (m.dir d) then some (m.table d) else none

/-- The page table entry at a position, when it is present. -/
def ent (m : Mem) (x : Pos) : Option Word :=
  (m.tableOf x.1).bind fun t => if Present (m.phys t x.2) then some (m.phys t x.2) else none

/-- The page that is mapped at a position. -/
def page (m : Mem) (x : Pos) : Option Nat := (m.ent x).map frame

/-- All references, with the entries in `counted`. -/
def ref (m : Mem) (counted : Pos → Bool) : Slot ⊕ Pos → Option Nat
  | .inl d => m.tableOf d
  | .inr x => if counted x then m.page x else none

end Mem

/-- The present form of an entry. -/
def presentEntry (e : Word) : Option Word := if Present e then some e else none

/-- The frames that `mem_init` left free. -/
structure Zone where
  start : Nat
  stop : Nat
  lowMem_le : LOW_MEM ≤ start
  le_high : stop ≤ LOW_MEM + PAGING_PAGES

theorem low_mem_le : LOW_MEM ≤ 4000 := by decide

theorem le_high_mem : 4096 ≤ LOW_MEM + PAGING_PAGES := by decide

def Zone.Managed (z : Zone) (p : Nat) : Prop := z.start ≤ p ∧ p < z.stop

instance (z : Zone) (p : Nat) : Decidable (z.Managed p) := inferInstanceAs (Decidable (_ ∧ _))

theorem Zone.Managed.lt_pages {z : Zone} {p : Nat} (h : z.Managed p) : p < PAGES := by
  have h₁ := h.2
  have h₂ := z.le_high
  have h₃ : LOW_MEM + PAGING_PAGES ≤ PAGES := by decide
  omega

/-- The cells of `mem_map` are unsigned chars, and those of the frames that are not
managed are not 0. -/
def Cells (z : Zone) (count : Nat → Nat) : Prop :=
  ∀ p, count p < 256 ∧ (LOW_MEM ≤ p → ¬z.Managed p → count p ≠ 0)

theorem Cells.update {z : Zone} {count : Nat → Nat} (h : Cells z count) {p n : Nat}
    (hp : z.Managed p) (hn : n < 256) : Cells z (update count p n) := by
  intro q
  rcases eq_or_ne q p with rfl | hne
  · rw [update_self]
    exact ⟨hn, fun _ hq => absurd hp hq⟩
  · rw [update_of_ne hne]
    exact h q

/-- The positions outside of the kernel's own page tables, and those in it that a
`fork` of task 0 copies. -/
def Ordinary (x : Pos) : Prop := 4 ≤ x.1.val ∨ x.1.val = 0 ∧ x.2.val < 0xA0

/-- What holds of the page tables and the counts in every reachable state: page tables
are not shared, every reference leads to a frame that `mem_map` manages or to the
first megabyte, and the counts of the managed frames are balanced. -/
structure Paged (z : Zone) (counted : Pos → Bool) (held : Nat → Nat) (m : Mem) : Prop where
  high : m.HIGH_MEMORY = z.stop
  cells : Cells z m.memMap
  table_pos : ∀ d t, m.tableOf d = some t → 1 ≤ t
  table_inj : ∀ d d' t, m.tableOf d = some t → m.tableOf d' = some t → d = d'
  table_ok : ∀ d t, m.tableOf d = some t → t < LOW_MEM ∨ z.Managed t
  ent_ok : ∀ x e, Ordinary x → m.ent x = some e → frame e < LOW_MEM ∨ z.Managed (frame e)
  balanced : Balanced z.Managed (m.ref counted) held m.memMap

variable {z : Zone} {counted counted' : Pos → Bool} {held held' : Nat → Nat} {m m' : Mem}

/-! ## The view of the tables after a store -/

theorem tableOf_congr (h : ∀ d, m'.dir d = m.dir d) : m'.tableOf = m.tableOf := by
  funext d
  simp [Mem.tableOf, Mem.table, h d]

theorem table_of_tableOf {d : Slot} {t : Nat} (h : m.tableOf d = some t) : m.table d = t := by
  unfold Mem.tableOf at h
  split at h
  · exact Option.some.inj h
  · cases h

theorem ent_congr (h : ∀ d, m'.dir d = m.dir d)
    (ht : ∀ d t i, m.tableOf d = some t → m'.phys t i = m.phys t i) : m'.ent = m.ent := by
  funext x
  unfold Mem.ent
  rw [tableOf_congr h]
  cases htab : m.tableOf x.1 with
  | none => rfl
  | some t => simp [ht x.1 t x.2 htab]

theorem ref_congr (ht : m'.tableOf = m.tableOf) (he : m'.ent = m.ent)
    (counted : Pos → Bool) : m'.ref counted = m.ref counted := by
  funext r
  cases r with
  | inl d => simp [Mem.ref, ht]
  | inr x => simp [Mem.ref, Mem.page, he]

theorem tableOf_of_phys (h : m'.phys = m.phys) : m'.tableOf = m.tableOf :=
  tableOf_congr fun d => by simp [Mem.dir, h]

theorem ent_of_phys (h : m'.phys = m.phys) : m'.ent = m.ent :=
  ent_congr (fun d => by simp [Mem.dir, h]) fun d t i _ => by rw [h]

theorem write_phys_of_ne {page q : Nat} {i : Slot} {e : Word} (h : q ≠ page) :
    (m.write page i e).phys q = m.phys q := by
  simp [Mem.write, h]

@[simp] theorem write_phys_self (m : Mem) (page : Nat) (i : Slot) (e : Word) :
    (m.write page i e).phys page = update (m.phys page) i e := by
  simp [Mem.write]

@[simp] theorem write_memMap (m : Mem) (page : Nat) (i : Slot) (e : Word) :
    (m.write page i e).memMap = m.memMap := rfl

@[simp] theorem write_HIGH_MEMORY (m : Mem) (page : Nat) (i : Slot) (e : Word) :
    (m.write page i e).HIGH_MEMORY = m.HIGH_MEMORY := rfl

@[simp] theorem setCount_phys (m : Mem) (page n : Nat) :
    (m.setCount page n).phys = m.phys := rfl

@[simp] theorem setCount_HIGH_MEMORY (m : Mem) (page n : Nat) :
    (m.setCount page n).HIGH_MEMORY = m.HIGH_MEMORY := rfl

@[simp] theorem setCount_tableOf (m : Mem) (page n : Nat) :
    (m.setCount page n).tableOf = m.tableOf := rfl

@[simp] theorem setCount_ent (m : Mem) (page n : Nat) : (m.setCount page n).ent = m.ent := rfl

theorem setCount_memMap (m : Mem) (page : Nat) {n : Nat} (h : n < 256) :
    (m.setCount page n).memMap = update m.memMap page n := by
  simp [Mem.setCount, Nat.mod_eq_of_lt h]

/-! ## Page tables kept apart -/

/-- Page tables are not shared, none of them is the page directory, and those in managed
memory are not free. -/
structure Separate (m : Mem) : Prop where
  table_pos : ∀ d t, m.tableOf d = some t → 1 ≤ t
  table_inj : ∀ d d' t, m.tableOf d = some t → m.tableOf d' = some t → d = d'
  table_used : ∀ d t, m.tableOf d = some t → LOW_MEM ≤ t → m.memMap t ≠ 0

/-- A store into a page table changes no directory entry. -/
theorem Separate.write_tableOf (h : Separate m) {d : Slot} {t : Nat} (ht : m.tableOf d = some t)
    (i : Slot) (e : Word) : (m.write t i e).tableOf = m.tableOf :=
  tableOf_congr fun d' => by
    have := h.table_pos d t ht
    rw [Mem.dir, write_phys_of_ne (by omega), Mem.dir]

/-- A store into a page table changes one entry. -/
theorem Separate.write_ent (h : Separate m) {x : Pos} {t : Nat} (ht : m.tableOf x.1 = some t)
    (e : Word) : (m.write t x.2 e).ent = update m.ent x (presentEntry e) := by
  funext y
  unfold Mem.ent
  rw [h.write_tableOf ht]
  rcases eq_or_ne y x with rfl | hne
  · simp [ht, presentEntry]
  · rw [update_of_ne hne]
    cases hty : m.tableOf y.1 with
    | none => simp
    | some t' =>
        have hcell : (m.write t x.2 e).phys t' y.2 = m.phys t' y.2 := by
          rcases eq_or_ne t' t with rfl | hne'
          · have hd := h.table_inj _ _ _ ht hty
            have hi : y.2 ≠ x.2 := fun hi => hne (Prod.ext hd.symm hi)
            rw [write_phys_self, update_of_ne hi]
          · rw [write_phys_of_ne hne']
        simp [hcell]

theorem Separate.write (h : Separate m) {d : Slot} {t : Nat} (ht : m.tableOf d = some t)
    (i : Slot) (e : Word) : Separate (m.write t i e) := by
  refine ⟨?_, ?_, ?_⟩
  · rw [h.write_tableOf ht]; exact h.table_pos
  · rw [h.write_tableOf ht]; exact h.table_inj
  · rw [h.write_tableOf ht]; exact h.table_used

section
variable (h : Paged z counted held m)
include h

theorem Paged.separate : Separate m where
  table_pos := h.table_pos
  table_inj := h.table_inj
  table_used d t ht hlow := by
    rcases h.table_ok d t ht with hl | hm
    · omega
    · have href : m.ref counted (.inl d) = some t := ht
      exact Nat.ne_of_gt (h.balanced.pos_of_ref hm href)

theorem Paged.write_tableOf {d : Slot} {t : Nat} (ht : m.tableOf d = some t) (i : Slot)
    (e : Word) : (m.write t i e).tableOf = m.tableOf :=
  h.separate.write_tableOf ht i e

theorem Paged.write_ent {x : Pos} {t : Nat} (ht : m.tableOf x.1 = some t) (e : Word) :
    (m.write t x.2 e).ent = update m.ent x (presentEntry e) :=
  h.separate.write_ent ht e

theorem Paged.unused {p : Nat} (hp : z.Managed p) (h0 : m.memMap p = 0) :
    (∀ d, m.tableOf d ≠ some p) ∧ (∀ x, counted x → m.page x ≠ some p) ∧ held p = 0 := by
  obtain ⟨href, hheld⟩ := h.balanced.unused hp h0
  refine ⟨fun d => href (.inl d), fun x hx => ?_, hheld⟩
  simpa [Mem.ref, hx] using href (.inr x)

theorem Paged.managed_of_free {p : Nat} (hlow : LOW_MEM ≤ p) (h0 : m.memMap p = 0) :
    z.Managed p :=
  Decidable.byContradiction fun hp => (h.cells p).2 hlow hp h0

/-- Storing an entry: the counts and the holders make up for what the entry named
and for what it names. -/
theorem Paged.setEnt {x : Pos} {t : Nat} (ht : m.tableOf x.1 = some t) {e : Word} (b : Bool)
    (hphys : m'.phys = (m.write t x.2 e).phys) (hhigh : m'.HIGH_MEMORY = m.HIGH_MEMORY)
    (hcells : Cells z m'.memMap)
    (hok : Ordinary x → Present e → frame e < LOW_MEM ∨ z.Managed (frame e))
    (heq : ∀ p, z.Managed p → m'.memMap p + names p (m.ref counted (.inr x)) + held p
      = m.memMap p + names p (if b then (presentEntry e).map frame else none) + held' p) :
    Paged z (update counted x b) held' m' := by
  have htab : m'.tableOf = m.tableOf := (tableOf_of_phys hphys).trans (h.write_tableOf ht x.2 e)
  have hent : m'.ent = update m.ent x (presentEntry e) :=
    (ent_of_phys hphys).trans (h.write_ent ht e)
  have href : m'.ref (update counted x b) = update (m.ref counted) (.inr x)
      (if b then (presentEntry e).map frame else none) := by
    funext r
    rcases r with d | y
    · simp [Mem.ref, htab]
    · rcases eq_or_ne y x with rfl | hne
      · simp [Mem.ref, Mem.page, hent]
      · simp [Mem.ref, Mem.page, hent, hne]
  refine ⟨hhigh.trans h.high, hcells, ?_, ?_, ?_, ?_, ?_⟩
  · rw [htab]; exact h.table_pos
  · rw [htab]; exact h.table_inj
  · rw [htab]; exact h.table_ok
  · intro y e' hy he'
    rw [hent] at he'
    rcases eq_or_ne y x with rfl | hne
    · rw [update_self, presentEntry] at he'
      split at he'
      · rename_i hpres
        obtain rfl := Option.some.inj he'
        exact hok hy hpres
      · cases he'
    · rw [update_of_ne hne] at he'
      exact h.ent_ok y e' hy he'
  · rw [href]
    exact h.balanced.set heq

end

theorem lastFree_spec {n p : Nat} : lastFree m n = some p →
    LOW_MEM ≤ p ∧ p < LOW_MEM + n ∧ m.memMap p = 0 := by
  induction n with
  | zero => intro h; cases h
  | succ n ih =>
      intro h
      rw [lastFree] at h
      split at h
      · obtain rfl := Option.some.inj h
        exact ⟨by omega, by omega, by assumption⟩
      · obtain ⟨h₁, h₂, h₃⟩ := ih h
        exact ⟨h₁, by omega, h₃⟩

theorem getFreePage_eq {p : Nat} (h : getFreePage m = some (p, m')) :
    LOW_MEM ≤ p ∧ p < LOW_MEM + PAGING_PAGES ∧ m.memMap p = 0 ∧
      m' = { m with phys := update m.phys p fun _ => 0, memMap := update m.memMap p 1 } := by
  obtain ⟨q, hq, heq⟩ := Option.map_eq_some_iff.mp h
  obtain ⟨rfl, rfl⟩ := Prod.mk.inj heq
  obtain ⟨h₁, h₂, h₃⟩ := lastFree_spec hq
  exact ⟨h₁, h₂, h₃, rfl⟩

theorem lastFree_congr (hmap : m'.memMap = m.memMap) : ∀ n, lastFree m' n = lastFree m n
  | 0 => rfl
  | n + 1 => by rw [lastFree, lastFree, hmap, lastFree_congr hmap n]

theorem getFreePage_none (hmap : m'.memMap = m.memMap) (h : getFreePage m' = none) :
    getFreePage m = none := by
  unfold getFreePage at *
  rw [Option.map_eq_none_iff] at *
  rw [← lastFree_congr hmap]
  exact h

/-- Filling a frame that is no page table and not the page directory leaves the tables
alone. -/
theorem filled_tables {p : Nat} {c : Slot → Word} (hp : LOW_MEM ≤ p)
    (hnt : ∀ d, m.tableOf d ≠ some p) (hphys : m'.phys = update m.phys p c) :
    m'.tableOf = m.tableOf ∧ m'.ent = m.ent := by
  have hpos : LOW_MEM = 256 := rfl
  have hdir : ∀ d, m'.dir d = m.dir d := fun d => by
    simp [Mem.dir, hphys, show 0 ≠ p by omega]
  refine ⟨tableOf_congr hdir, ent_congr hdir fun d t i ht => ?_⟩
  have hne : t ≠ p := fun e => hnt d (e ▸ ht)
  simp [hphys, hne]

/-- What `get_free_page` answers: a cleared frame that nothing referred to, counted
once for its new holder. -/
structure Fresh (z : Zone) (m : Mem) (p : Nat) (m' : Mem) : Prop where
  managed : z.Managed p
  free : m.memMap p = 0
  phys : m'.phys = update m.phys p fun _ => 0
  memMap : m'.memMap = update m.memMap p 1
  tableOf : m'.tableOf = m.tableOf
  ent : m'.ent = m.ent
  not_table : ∀ d, m.tableOf d ≠ some p

theorem Fresh.lowMem_le {p : Nat} (h : Fresh z m p m') : LOW_MEM ≤ p :=
  Nat.le_trans z.lowMem_le h.managed.1

theorem Paged.getFreePage_spec {p : Nat} (h : Paged z counted held m)
    (hg : getFreePage m = some (p, m')) :
    Fresh z m p m' ∧ Paged z counted (update held p 1) m' := by
  obtain ⟨hlow, -, h0, rfl⟩ := getFreePage_eq hg
  have hp := h.managed_of_free hlow h0
  obtain ⟨hnt, -, hheld⟩ := h.unused hp h0
  obtain ⟨htab, hent⟩ : Mem.tableOf { m with
        phys := update m.phys p fun _ => 0, memMap := update m.memMap p 1 } = m.tableOf ∧
      Mem.ent { m with
        phys := update m.phys p fun _ => 0, memMap := update m.memMap p 1 } = m.ent :=
    filled_tables hlow hnt rfl
  refine ⟨⟨hp, h0, rfl, rfl, htab, hent, hnt⟩, h.high, h.cells.update hp (by omega),
    ?_, ?_, ?_, ?_, ?_⟩
  · rw [htab]; exact h.table_pos
  · rw [htab]; exact h.table_inj
  · rw [htab]; exact h.table_ok
  · rw [hent]; exact h.ent_ok
  · rw [ref_congr htab hent]
    exact h.balanced.alloc h0

theorem Paged.recount (h : Paged z counted held m) (hphys : m'.phys = m.phys)
    (hhigh : m'.HIGH_MEMORY = m.HIGH_MEMORY)
    (hcells : Cells z m'.memMap)
    (heq : ∀ p, z.Managed p → m'.memMap p + held p = m.memMap p + held' p) :
    Paged z counted held' m' := by
  have htab := tableOf_of_phys hphys
  have hent := ent_of_phys hphys
  refine ⟨hhigh.trans h.high, hcells, ?_, ?_, ?_, ?_, ?_⟩
  · rw [htab]; exact h.table_pos
  · rw [htab]; exact h.table_inj
  · rw [htab]; exact h.table_ok
  · rw [hent]; exact h.ent_ok
  · rw [ref_congr htab hent]
    exact h.balanced.of_eq fun p hp => by
      have := heq p hp
      omega

/-- `free_page` of a page that is counted, or lies in the first megabyte. -/
def uncount (m : Mem) (p : Nat) : Mem :=
  if p < LOW_MEM then m else m.setCount p (m.memMap p - 1)

@[simp] theorem uncount_phys (m : Mem) (p : Nat) : (uncount m p).phys = m.phys := by
  unfold uncount; split <;> rfl

@[simp] theorem uncount_HIGH_MEMORY (m : Mem) (p : Nat) :
    (uncount m p).HIGH_MEMORY = m.HIGH_MEMORY := by
  unfold uncount; split <;> rfl

theorem uncount_memMap_of_ne {p q : Nat} (h : q ≠ p) : (uncount m p).memMap q = m.memMap q := by
  unfold uncount
  split
  · rfl
  · exact update_of_ne h _ _

/-- The page may be freed: it is in the first megabyte, or managed and counted. -/
def Counted (z : Zone) (m : Mem) (p : Nat) : Prop :=
  p < LOW_MEM ∨ z.Managed p ∧ 1 ≤ m.memMap p

theorem Paged.freePage_spec (h : Paged z counted held m) {p : Nat} (hp : Counted z m p) :
    freePage m p = .ok (uncount m p) := by
  unfold freePage uncount
  rcases hp with hlow | ⟨hm, hc⟩
  · rw [if_pos hlow, if_pos hlow]
  · have hlow := z.lowMem_le
    have hstart := hm.1
    have hstop := hm.2
    have hhigh := h.high
    rw [if_neg (by omega), if_neg (by omega), if_pos (by omega), if_neg (by omega)]

theorem Paged.uncount_cells (h : Paged z counted held m) {p : Nat} (hp : Counted z m p) :
    Cells z (uncount m p).memMap := by
  unfold uncount
  split
  · exact h.cells
  · have hchar := (h.cells p).1
    rw [setCount_memMap m p (by omega)]
    exact h.cells.update (hp.resolve_left (by assumption)).1 (by omega)

theorem Paged.uncount_memMap (h : Paged z counted held m) {p q : Nat} (hp : Counted z m p)
    (hq : z.Managed q) : (uncount m p).memMap q + names q (some p) = m.memMap q := by
  have hlow := z.lowMem_le
  have hstart := hq.1
  unfold uncount
  rw [names_some]
  split
  · rw [if_neg (by omega), Nat.add_zero]
  · have hchar := (h.cells p).1
    have hc := (hp.resolve_left (by assumption)).2
    rw [setCount_memMap m p (by omega)]
    rcases eq_or_ne q p with rfl | hne
    · simp only [update_self, if_true]
      omega
    · simp [hne, hne.symm]

theorem Paged.congr (h : Paged z counted held m)
    (ht : m'.tableOf = m.tableOf) (he : m'.ent = m.ent) (hmap : m'.memMap = m.memMap)
    (hhigh : m'.HIGH_MEMORY = m.HIGH_MEMORY) : Paged z counted held m' := by
  obtain ⟨h₁, h₂, h₃, h₄, h₅, h₆, h₇⟩ := h
  refine ⟨hhigh.trans h₁, ?_, ?_, ?_, ?_, ?_, ?_⟩
  · rwa [hmap]
  · rwa [ht]
  · rwa [ht]
  · rwa [ht]
  · rwa [he]
  · rwa [hmap, ref_congr ht he]

theorem Paged.drop (h : Paged z counted held m) {p : Nat} (hm : z.Managed p)
    (hh : 1 ≤ held p) :
    freePage m p = .ok (uncount m p) ∧
      Paged z counted (update held p (held p - 1)) (uncount m p) := by
  have hp : Counted z m p := Or.inr ⟨hm, h.balanced.pos_of_held hm hh⟩
  refine ⟨h.freePage_spec hp, h.recount (uncount_phys m p) (uncount_HIGH_MEMORY m p)
    (h.uncount_cells hp) fun q hq => ?_⟩
  have := h.uncount_memMap hp hq
  rw [names_some] at this
  rcases eq_or_ne q p with rfl | hne
  · simp only [update_self, if_true] at this ⊢
    omega
  · rw [update_of_ne hne]
    simp only [hne.symm, if_false] at this
    omega

/-! ## Setting and clearing a directory entry -/

theorem write_dir_tableOf (m : Mem) (d : Slot) (e : Word) :
    (m.write 0 d e).tableOf
      = update m.tableOf d (if Present e then some (frame e) else none) := by
  funext d'
  rcases eq_or_ne d' d with rfl | hne
  · have hdir : (m.write 0 d' e).dir d' = e := by simp [Mem.dir]
    simp [Mem.tableOf, Mem.table, hdir]
  · have hdir : (m.write 0 d e).dir d' = m.dir d' := by simp [Mem.dir, hne]
    simp [Mem.tableOf, Mem.table, hdir, hne]

/-- A directory entry that maps no page is set to a page table without entries, or
cleared: no page table entry changes. -/
theorem write_dir_ent (hpos : ∀ d t, m.tableOf d = some t → 1 ≤ t) {d : Slot} {e : Word}
    (hempty : ∀ i, m.ent (d, i) = none)
    (hnew : Present e → 1 ≤ frame e ∧ ∀ i, ¬Present (m.phys (frame e) i)) :
    (m.write 0 d e).ent = m.ent := by
  have hcell : ∀ t i, 1 ≤ t → (m.write 0 d e).phys t i = m.phys t i := fun t i ht => by
    rw [write_phys_of_ne (by omega)]
  funext x
  rcases eq_or_ne x.1 d with hx | hne
  · rw [show m.ent x = none from by rw [← hempty x.2, ← hx]]
    rw [Mem.ent, write_dir_tableOf, hx, update_self]
    split
    · rename_i hpres
      obtain ⟨hpos, hzero⟩ := hnew hpres
      simp [hcell _ _ hpos, hzero]
    · rfl
  · rw [Mem.ent, write_dir_tableOf, update_of_ne hne, Mem.ent]
    cases hx : m.tableOf x.1 with
    | none => rfl
    | some t => simp [hcell t x.2 (hpos _ _ hx)]

/-- A directory entry that maps no page is set or cleared. -/
theorem Paged.setDir (h : Paged z counted held m) (held' : Nat → Nat) {d : Slot} {e : Word}
    (hphys : m'.phys = (m.write 0 d e).phys) (hhigh : m'.HIGH_MEMORY = m.HIGH_MEMORY)
    (hcells : Cells z m'.memMap) (hempty : ∀ i, m.ent (d, i) = none)
    (hnew : Present e → 1 ≤ frame e ∧ (frame e < LOW_MEM ∨ z.Managed (frame e)) ∧
      (∀ d', m.tableOf d' ≠ some (frame e)) ∧ ∀ i, ¬Present (m.phys (frame e) i))
    (heq : ∀ p, z.Managed p → m'.memMap p + names p (m.tableOf d) + held p
      = m.memMap p + names p (if Present e then some (frame e) else none) + held' p) :
    Paged z counted held' m' ∧
      m'.tableOf = update m.tableOf d (if Present e then some (frame e) else none) ∧
      m'.ent = m.ent := by
  have htab : m'.tableOf = _ := (tableOf_of_phys hphys).trans (write_dir_tableOf m d e)
  have hent : m'.ent = m.ent := (ent_of_phys hphys).trans
    (write_dir_ent h.table_pos hempty fun hpres => ⟨(hnew hpres).1, (hnew hpres).2.2.2⟩)
  have hsome : ∀ d' t, m'.tableOf d' = some t →
      (d' = d ∧ Present e ∧ t = frame e) ∨ (d' ≠ d ∧ m.tableOf d' = some t) := by
    intro d' t ht
    rw [htab] at ht
    rcases eq_or_ne d' d with rfl | hne
    · rw [update_self] at ht
      split at ht
      · exact Or.inl ⟨rfl, by assumption, (Option.some.inj ht).symm⟩
      · cases ht
    · rw [update_of_ne hne] at ht
      exact Or.inr ⟨hne, ht⟩
  refine ⟨⟨hhigh.trans h.high, hcells, ?_, ?_, ?_, ?_, ?_⟩, htab, hent⟩
  · intro d' t ht
    rcases hsome d' t ht with ⟨-, hpres, rfl⟩ | ⟨-, ht⟩
    · exact (hnew hpres).1
    · exact h.table_pos d' t ht
  · intro d₁ d₂ t h₁ h₂
    rcases hsome d₁ t h₁ with ⟨rfl, hpres, rfl⟩ | ⟨-, h₁⟩
    · rcases hsome d₂ _ h₂ with ⟨rfl, -, -⟩ | ⟨-, h₂⟩
      · rfl
      · exact absurd h₂ ((hnew hpres).2.2.1 d₂)
    · rcases hsome d₂ t h₂ with ⟨rfl, hpres, rfl⟩ | ⟨-, h₂⟩
      · exact absurd h₁ ((hnew hpres).2.2.1 d₁)
      · exact h.table_inj d₁ d₂ t h₁ h₂
  · intro d' t ht
    rcases hsome d' t ht with ⟨-, hpres, rfl⟩ | ⟨-, ht⟩
    · exact (hnew hpres).2.1
    · exact h.table_ok d' t ht
  · rw [hent]
    exact h.ent_ok
  · have href : m'.ref counted = update (m.ref counted) (.inl d)
        (if Present e then some (frame e) else none) := by
      funext r
      rcases r with d' | x
      · rcases eq_or_ne d' d with rfl | hne
        · simp [Mem.ref, htab]
        · simp [Mem.ref, htab, hne]
      · simp [Mem.ref, Mem.page, hent]
    rw [href]
    exact h.balanced.set heq

/-- `Separate` under the allocation of a page table: no entry changes. -/
theorem Separate.pageTable (h : Separate m) {d : Slot} {t : Nat}
    (hp : Linux011.pageTable m d = some (t, m')) :
    m'.tableOf = update m.tableOf d (some t) ∧ m'.ent = m.ent ∧ Separate m' := by
  unfold Linux011.pageTable at hp
  split at hp
  · rename_i hpres
    obtain ⟨rfl, rfl⟩ := Prod.mk.inj (Option.some.inj hp)
    have ht : m.tableOf d = some (m.table d) := if_pos hpres
    exact ⟨by rw [← ht, update_eq_self], rfl, h⟩
  · rename_i hpres
    have ht : m.tableOf d = none := if_neg hpres
    obtain ⟨⟨p, m₁⟩, hg, he⟩ := Option.map_eq_some_iff.mp hp
    obtain ⟨rfl, rfl⟩ := Prod.mk.inj he
    obtain ⟨hlow, hhigh, h0, rfl⟩ := getFreePage_eq hg
    have hnt : ∀ d', m.tableOf d' ≠ some p := fun d' h' => h.table_used d' p h' hlow h0
    have hpos : LOW_MEM = 256 := rfl
    have hfr : frame (entry p) = p := frame_entry (Nat.lt_of_lt_of_le hhigh (by decide))
    let m₁ : Mem := { m with phys := update m.phys p fun _ => 0, memMap := update m.memMap p 1 }
    obtain ⟨htab₁, hent₁⟩ : m₁.tableOf = m.tableOf ∧ m₁.ent = m.ent :=
      filled_tables hlow hnt rfl
    have htab : (m₁.write 0 d (entry p)).tableOf = update m.tableOf d (some p) := by
      rw [write_dir_tableOf, if_pos (present_entry p), hfr, htab₁]
    refine ⟨htab, ?_, ?_⟩
    · refine (write_dir_ent (fun d' t h' => h.table_pos d' t (htab₁ ▸ h')) (fun i => ?_)
        fun _ => ⟨by omega, fun i => ?_⟩).trans hent₁
      · rw [hent₁, Mem.ent, ht]
        rfl
      · rw [hfr, show m₁.phys p i = 0 by simp [m₁]]
        exact not_present_zero
    · have hsome : ∀ d' t, (m₁.write 0 d (entry p)).tableOf d' = some t →
          d' = d ∧ t = p ∨ d' ≠ d ∧ m.tableOf d' = some t := by
        intro d' t h'
        rw [htab] at h'
        rcases eq_or_ne d' d with rfl | hne
        · rw [update_self] at h'
          exact Or.inl ⟨rfl, (Option.some.inj h').symm⟩
        · rw [update_of_ne hne] at h'
          exact Or.inr ⟨hne, h'⟩
      refine ⟨fun d' t h' => ?_, fun d₁ d₂ t h₁ h₂ => ?_, fun d' t h' hl => ?_⟩
      · rcases hsome d' t h' with ⟨-, rfl⟩ | ⟨-, h'⟩
        · omega
        · exact h.table_pos d' t h'
      · rcases hsome d₁ t h₁ with ⟨e₁, rfl⟩ | ⟨-, h₁'⟩
        · rcases hsome d₂ t h₂ with ⟨e₂, -⟩ | ⟨-, h₂'⟩
          · exact e₁.trans e₂.symm
          · exact absurd h₂' (hnt d₂)
        · rcases hsome d₂ t h₂ with ⟨-, rfl⟩ | ⟨-, h₂'⟩
          · exact absurd h₁' (hnt d₁)
          · exact h.table_inj d₁ d₂ t h₁' h₂'
      · rw [write_memMap]
        rcases hsome d' t h' with ⟨-, rfl⟩ | ⟨-, h'⟩
        · simp
        · have hne : t ≠ p := fun e => hnt d' (e ▸ h')
          simpa [m₁, hne] using h.table_used d' t h' hl

end Linux011
