import Linux011.PageCounts
import Linux011.ShmPages

/-!
# The books with shared segments

`sys_shmat` puts the pages of a segment into page tables and leaves their counts alone: a page of
a segment is counted once, for the segment. So the entries that `sys_shmat` made are not counted,
and the books name them (`counting`). As long as no such entry is freed or copied like one that
is counted, every page that the kernel or a segment owns has a count, and is no page table
(`Books`).

The proofs go one function of `memory.c` and `shm.c` at a time, in the order in which they call
one another, and each of them carries `Books` from the state before to the state behind it, for
the owners and the entries as the function changes them. The counts themselves come from
`PageCounts`: `Books` holds a `Paged` for the entries that are counted, so that what is proved
there about a count is used here for a page of a segment, which has one share more and no counted
entry. Where an entry is touched that `sys_shmat` made, the page keeps its count and the entry is
only taken out of `mapped`, or put into it. `Books.mapSegment` and `Books.canceled` put this
together for a whole attach and a whole detach.
-/

namespace Linux011

open Function RefCount

namespace SegmentBooks

/-- The entries that are counted: those of the tasks, but for the ones that `sys_shmat`
made. -/
def counting (mapped : Pos → Option Nat) (x : Pos) : Bool := user x && (mapped x).isNone

/-- The books: `own p` times the kernel or a segment owns the page `p`, and `mapped` has
the entries that `sys_shmat` made, each with its page. Shares that nobody will give back
may be held besides. -/
structure Books (z : Zone) (own : Nat → Nat) (mapped : Pos → Option Nat) (m : Mem) : Prop where
  paged : ∃ held, Paged z (counting mapped) held m ∧ ∀ p, own p ≤ held p
  managed : ∀ p, 1 ≤ own p → z.Managed p
  shown : ∀ x p, mapped x = some p → m.page x = some p
  mapped_managed : ∀ x p, mapped x = some p → z.Managed p
  table : ∀ d t, m.tableOf d = some t → own t = 0

variable {z : Zone} {own own' : Nat → Nat} {mapped mapped' : Pos → Option Nat} {m m' : Mem}

theorem counting_put (mapped : Pos → Option Nat) (x : Pos) (p : Nat) :
    counting (update mapped x (some p)) = update (counting mapped) x false := by
  funext y
  rcases eq_or_ne y x with rfl | hne
  · simp [counting]
  · simp [counting, hne]

theorem counting_clear (mapped : Pos → Option Nat) (x : Pos) :
    counting (update mapped x none) = update (counting mapped) x (user x) := by
  funext y
  rcases eq_or_ne y x with rfl | hne
  · simp [counting]
  · simp [counting, hne]

theorem counting_of_none {x : Pos} (hx : User x) (h : mapped x = none) :
    counting mapped x = true := by
  simp [counting, hx.counted, h]

theorem Books.absent (h : Books z own mapped m) {x : Pos} (hx : m.page x = none) :
    mapped x = none := by
  cases hp : mapped x with
  | none => rfl
  | some p =>
      have := h.shown x p hp
      rw [hx] at this
      cases this

theorem Books.count_pos (h : Books z own mapped m) {p : Nat} (hp : 1 ≤ own p) :
    1 ≤ m.memMap p := by
  obtain ⟨held, hpaged, hheld⟩ := h.paged
  exact hpaged.balanced.pos_of_held (h.managed p hp) (hp.trans (hheld p))

theorem Books.not_owned (h : Books z own mapped m) {p : Nat} (hp : z.Managed p)
    (h0 : m.memMap p = 0) : own p = 0 := by
  obtain ⟨held, hpaged, hheld⟩ := h.paged
  have := (hpaged.unused hp h0).2.2
  have := hheld p
  omega

/-- A step that takes page tables only from the free pages keeps the books. -/
theorem Books.step (h : Books z own mapped m)
    (hpaged : ∃ held, Paged z (counting mapped') held m' ∧ ∀ p, own' p ≤ held p)
    (hown : ∀ p, own' p ≤ own p)
    (htab : ∀ d t, m'.tableOf d = some t → m.tableOf d = some t ∨ z.Managed t ∧ m.memMap t = 0)
    (hframe : ∀ x p, mapped' x = some p → z.Managed p)
    (hmapped : ∀ x p, mapped' x = some p → m'.page x = some p) : Books z own' mapped' m' := by
  refine ⟨hpaged, fun p hp => h.managed p (hp.trans (hown p)), hmapped, hframe, fun d t ht => ?_⟩
  have hzero : own t = 0 := by
    rcases htab d t ht with ht | ⟨hm, h0⟩
    · exact h.table d t ht
    · exact h.not_owned hm h0
  have := hown t
  omega

/-! ## Allocation -/

theorem Books.alloc (h : Books z own mapped m) {p : Nat} (hg : getFreePage m = some (p, m')) :
    own p = 0 ∧ Books z (update own p 1) mapped m' := by
  obtain ⟨held, hpaged, hheld⟩ := h.paged
  obtain ⟨hf, hpaged'⟩ := hpaged.getFreePage_spec hg
  refine ⟨h.not_owned hf.managed hf.free, ⟨update held p 1, hpaged', fun q => ?_⟩,
    fun q hq => ?_, fun x q hx => ?_, h.mapped_managed, fun d t ht => ?_⟩
  · rcases eq_or_ne q p with rfl | hne
    · rw [update_self, update_self]
    · rw [update_of_ne hne, update_of_ne hne]
      exact hheld q
  · rcases eq_or_ne q p with rfl | hne
    · exact hf.managed
    · rw [update_of_ne hne] at hq
      exact h.managed q hq
  · rw [page_of_ent hf.ent]
    exact h.shown x q hx
  · rw [hf.tableOf] at ht
    have hne : t ≠ p := fun e => hf.not_table d (e ▸ ht)
    rw [update_of_ne hne]
    exact h.table d t ht

theorem drop_le (own : Nat → Nat) (p q : Nat) : update own p (own p - 1) q ≤ own q := by
  rcases eq_or_ne q p with rfl | hne
  · rw [update_self]
    exact Nat.sub_le _ _
  · rw [update_of_ne hne]

theorem Books.drop (h : Books z own mapped m) {p : Nat} (hp : 1 ≤ own p) :
    freePage m p = .ok (uncount m p) ∧
      Books z (update own p (own p - 1)) mapped (uncount m p) := by
  have hphys := uncount_phys m p
  obtain ⟨held, hpaged, hheld⟩ := h.paged
  obtain ⟨hfree, hpaged'⟩ := hpaged.drop (h.managed p hp) (hp.trans (hheld p))
  refine ⟨hfree, h.step ⟨_, hpaged', fun q => ?_⟩ (drop_le own p)
    (fun d t ht => Or.inl (tableOf_of_phys hphys ▸ ht)) h.mapped_managed fun x q hx => ?_⟩
  · rcases eq_or_ne q p with rfl | hne
    · rw [update_self, update_self]
      exact Nat.sub_le_sub_right (hheld q) 1
    · rw [update_of_ne hne, update_of_ne hne]
      exact hheld q
  · rw [page_of_ent (ent_of_phys hphys)]
    exact h.shown x q hx

/-- The page table of a directory entry, an old or a new one. -/
theorem Books.pageTable (h : Books z own mapped m) {d : Slot} {t : Nat}
    (hp : pageTable m d = some (t, m')) :
    Books z own mapped m' ∧ m'.tableOf d = some t ∧ m'.ent = m.ent ∧
      ∀ d', m.tableOf d' ≠ none → m'.tableOf d' ≠ none := by
  obtain ⟨held, hpaged, hheld⟩ := h.paged
  obtain ⟨htab, hent, hpaged'⟩ : Tabled z m d t m' ∧ m'.ent = m.ent ∧
      Paged z (counting mapped) held m' := by
    rcases hpaged.pageTable_spec d with ⟨hnone, -, -⟩ | ⟨t₁, m₁, hsome, hrest⟩
    · rw [hp] at hnone
      cases hnone
    · rw [hp] at hsome
      obtain ⟨rfl, rfl⟩ := Prod.mk.inj (Option.some.inj hsome)
      exact hrest
  refine ⟨h.step ⟨held, hpaged', hheld⟩ (fun _ => Nat.le_refl _) (fun d' t' ht => ?_)
    h.mapped_managed (fun x q hx => ?_), ?_, hent, fun d' hd => ?_⟩
  · rw [htab.tableOf] at ht
    rcases eq_or_ne d' d with rfl | hne
    · obtain rfl : t = t' := by simpa using ht
      exact htab.origin.imp_right And.right
    · rw [update_of_ne hne] at ht
      exact Or.inl ht
  · rw [page_of_ent hent]
    exact h.shown x q hx
  · rw [htab.tableOf, update_self]
  · rw [htab.tableOf]
    rcases eq_or_ne d' d with rfl | hne
    · rw [update_self]
      exact Option.some_ne_none t
    · rwa [update_of_ne hne]

/-! ## Entries -/

/-- A page that is owned is put into an entry without a count. What the entry named
before keeps its share. -/
theorem Books.put (h : Books z own mapped m) {x : Pos} {t p : Nat} (ht : m.tableOf x.1 = some t)
    (hp : 1 ≤ own p) : Books z own (update mapped x (some p)) (m.write t x.2 (entry p)) ∧
      (m.write t x.2 (entry p)).tableOf = m.tableOf ∧
      (m.write t x.2 (entry p)).ent = update m.ent x (some (entry p)) := by
  have hm := h.managed p hp
  have hframe : frame (entry p) = p := frame_entry hm.lt_pages
  obtain ⟨held, hpaged, hheld⟩ := h.paged
  have htab := hpaged.write_tableOf ht x.2 (entry p)
  have hent := hpaged.write_ent ht (entry p)
  rw [presentEntry_of (present_entry p)] at hent
  refine ⟨h.step ⟨fun q => held q + names q (m.ref (counting mapped) (.inr x)), ?_,
    fun q => (hheld q).trans (Nat.le_add_right _ _)⟩ (fun _ => Nat.le_refl _)
    (fun d t' ht' => Or.inl (htab ▸ ht')) (fun y q hy => ?_) fun y q hy => ?_, htab, hent⟩
  · rw [counting_put]
    refine hpaged.setEnt (e := entry p) ht false rfl rfl hpaged.cells
      (fun _ _ => Or.inr (by rwa [hframe])) fun q _ => ?_
    rw [write_memMap, if_neg Bool.false_ne_true, names_none]
    omega
  · rcases eq_or_ne y x with rfl | hne
    · rw [update_self] at hy
      obtain rfl := Option.some.inj hy
      exact hm
    · rw [update_of_ne hne] at hy
      exact h.mapped_managed y q hy
  · rw [Mem.page_update hent, Option.map_some, hframe]
    rcases eq_or_ne y x with rfl | hne
    · rw [update_self] at hy ⊢
      exact hy
    · rw [update_of_ne hne] at hy ⊢
      exact h.shown y q hy

/-- An entry is cleared and its page keeps its count. -/
theorem Books.clear (h : Books z own mapped m) {x : Pos} {t : Nat}
    (ht : m.tableOf x.1 = some t) : Books z own (update mapped x none) (m.write t x.2 0) ∧
      (m.write t x.2 0).ent = update m.ent x none := by
  have hzero : presentEntry (0 : Word) = none := if_neg not_present_zero
  obtain ⟨held, hpaged, hheld⟩ := h.paged
  have htab := hpaged.write_tableOf ht x.2 0
  have hent := hpaged.write_ent ht 0
  rw [hzero] at hent
  refine ⟨h.step ⟨fun q => held q + names q (m.ref (counting mapped) (.inr x)), ?_,
    fun q => (hheld q).trans (Nat.le_add_right _ _)⟩ (fun _ => Nat.le_refl _)
    (fun d t' ht' => Or.inl (htab ▸ ht')) (fun y q hy => ?_) fun y q hy => ?_, hent⟩
  · rw [counting_clear]
    refine hpaged.setEnt (e := 0) ht (user x) rfl rfl hpaged.cells
      (fun _ h0 => absurd h0 not_present_zero) fun q _ => ?_
    rw [write_memMap, hzero, Option.map_none, ite_self, names_none]
    omega
  · rcases eq_or_ne y x with rfl | hne
    · rw [update_self] at hy
      cases hy
    · rw [update_of_ne hne] at hy
      exact h.mapped_managed y q hy
  · rw [Mem.page_update hent, Option.map_none]
    rcases eq_or_ne y x with rfl | hne
    · rw [update_self] at hy
      cases hy
    · rw [update_of_ne hne] at hy ⊢
      exact h.shown y q hy

/-- An entry changes, but not the page that it maps. -/
theorem Books.rewrite (h : Books z own mapped m) {x : Pos} {t : Nat} {e e' : Word}
    (ht : m.tableOf x.1 = some t) (he : m.ent x = some e) (hp : Present e')
    (hf : frame e' = frame e) :
    Books z own mapped (m.write t x.2 e') ∧
      (m.write t x.2 e').ent = update m.ent x (some e') ∧
      (m.write t x.2 e').page = m.page := by
  obtain ⟨held, hpaged, hheld⟩ := h.paged
  obtain ⟨hpaged', htab, hent⟩ := hpaged.rewrite ht he hp hf
  have hpage : (m.write t x.2 e').page = m.page := by
    have hx : m.page x = some (frame e) := by rw [Mem.page, he, Option.map_some]
    rw [Mem.page_update hent, Option.map_some, hf, ← hx, update_eq_self]
  refine ⟨h.step ⟨held, hpaged', hheld⟩ (fun _ => Nat.le_refl _)
    (fun d t' ht' => Or.inl (htab ▸ ht')) h.mapped_managed fun y q hy => ?_, hent, hpage⟩
  rw [hpage]
  exact h.shown y q hy

theorem Books.attachPage (h : Books z own mapped m) {p address : Nat} (hp : 1 ≤ own p)
    (ht : Linux011.pageTable m (dirSlot address) ≠ none) :
    Books z own (update mapped (posOf address) (some p)) (putPage m p address).2 ∧
      (∀ d, m.tableOf d ≠ none → (putPage m p address).2.tableOf d ≠ none) ∧
      (putPage m p address).2.tableOf (dirSlot address) ≠ none := by
  obtain ⟨⟨t, m₁⟩, hsome⟩ := Option.ne_none_iff_exists'.mp ht
  obtain ⟨h₁, ht₁, -, hkeep⟩ := h.pageTable hsome
  have hput : putPage m p address = (p, m₁.write t (posOf address).2 (entry p)) := by
    rw [putPage, hsome]
    rfl
  obtain ⟨h₂, htab, -⟩ := h₁.put (x := posOf address) ht₁ hp
  rw [hput]
  dsimp only
  rw [htab]
  exact ⟨h₂, hkeep, by rw [ht₁]; exact Option.some_ne_none t⟩

theorem Books.cancelAdress (h : Books z own mapped m) (addr : Nat) :
    ∃ mapped', Books z own mapped' (cancelAdress m addr) ∧
      (∀ x, (cancelAdress m addr).ent x = none → mapped' x = none) ∧
      ∀ x, (cancelAdress m addr).ent x ≠ none → mapped' x = mapped x ∧ m.ent x ≠ none := by
  have hsame : ∀ x, m.ent x = none → mapped x = none := fun x hx =>
    h.absent (by rw [Mem.page, hx]; rfl)
  unfold Linux011.cancelAdress
  split
  · rename_i hdir
    have ht : m.tableOf (posOf addr).1 = some (m.table (dirSlot addr)) := if_pos hdir
    split
    · obtain ⟨h', hent⟩ := h.clear (x := posOf addr) ht
      change (m.write (m.table (dirSlot addr)) (tableSlot addr) 0).ent = _ at hent
      refine ⟨_, h', fun x hx => ?_, fun x hx => ?_⟩
      · rw [hent] at hx
        rcases eq_or_ne x (posOf addr) with rfl | hne
        · rw [update_self]
        · rw [update_of_ne hne] at hx ⊢
          exact hsame x hx
      · rw [hent] at hx
        rcases eq_or_ne x (posOf addr) with rfl | hne
        · rw [update_self] at hx
          exact absurd rfl hx
        · rw [update_of_ne hne] at hx ⊢
          exact ⟨rfl, hx⟩
    · exact ⟨mapped, h, hsame, fun _ hx => ⟨rfl, hx⟩⟩
  · exact ⟨mapped, h, hsame, fun _ hx => ⟨rfl, hx⟩⟩

/-! ## What the functions of memory.c keep -/

/-- `put_page` by a holder, where nothing is mapped. -/
theorem Books.putPage (h : Books z own mapped m) {p address : Nat} (hp : 1 ≤ own p)
    (hu : User (posOf address)) (hx : m.page (posOf address) = none) :
    putPage m p address = (0, m) ∨ ∃ m', putPage m p address = (p, m') ∧
      Books z (update own p (own p - 1)) mapped m' := by
  obtain ⟨held, hpaged, hheld⟩ := h.paged
  have hm := h.managed p hp
  rcases hpaged.putPage_spec hm (hp.trans (hheld p)) (Option.map_eq_none_iff.mp hx)
    (counting_of_none hu (h.absent hx)) with ⟨hput, -, -⟩ | ⟨t, m', hput, hpaged', htab, hent⟩
  · exact Or.inl hput
  · refine Or.inr ⟨m', hput, h.step ⟨_, hpaged', fun q => ?_⟩ (drop_le own p) (fun d t' ht => ?_)
      h.mapped_managed fun y q hy => ?_⟩
    · rcases eq_or_ne q p with rfl | hne
      · rw [update_self, update_self]
        exact Nat.sub_le_sub_right (hheld q) 1
      · rw [update_of_ne hne, update_of_ne hne]
        exact hheld q
    · exact (htab.tables hu ht).imp_right And.right
    · have hne : y ≠ posOf address := by
        rintro rfl
        rw [h.absent hx] at hy
        cases hy
      rw [Mem.page_update hent, update_of_ne hne]
      exact h.shown y q hy

/-- `free_page_tables` of a task none of whose entries `sys_shmat` made. -/
theorem Books.freeTables (h : Books z own mapped m) {nr size : Nat} (h1 : 1 ≤ nr) (hnr : nr < 64)
    (hs : size ≤ TASK_SIZE)
    (hnone : ∀ x, x.1 ∈ dirSlots (nr * TASK_SIZE) size → mapped x = none) :
    ∃ m', freePageTables m (nr * TASK_SIZE) size = .ok m' ∧ Books z own mapped m' := by
  obtain ⟨held, hpaged, hheld⟩ := h.paged
  have hfree : ∀ d ∈ dirSlots (nr * TASK_SIZE) size, Freeable (counting mapped) m d := by
    intro d hd
    have hval := mem_dirSlots_task hnr hs hd
    exact ⟨by omega, fun i e _ _ => counting_of_none (show 16 ≤ d.val by omega) (hnone (d, i) hd)⟩
  obtain ⟨m', hm', hpaged', hf⟩ := hpaged.freePageTables_spec (by simp only [TASK_SIZE]; omega)
    (by simp only [TASK_SIZE]; omega) hfree
  refine ⟨m', hm', h.step ⟨held, hpaged', hheld⟩ (fun _ => Nat.le_refl _) (fun d t ht => ?_)
    h.mapped_managed fun x q hx => ?_⟩
  · rw [hf.tableOf] at ht
    split at ht
    · cases ht
    · exact Or.inl ht
  · have hnot : x.1 ∉ dirSlots (nr * TASK_SIZE) size := fun hmem => by
      rw [hnone x hmem] at hx
      cases hx
    rw [Mem.page, hf.ent, if_neg hnot]
    exact h.shown x q hx

/-- How often `copy_page_tables` maps a page once more. -/
def forked (m : Mem) (src size p : Nat) : Nat :=
  ((dirSlots (src * TASK_SIZE) size).map fun d =>
    copies m (copiedEntries (src * TASK_SIZE)) d p).sum

/-- `copy_page_tables` to an empty address space, when no count overflows. -/
theorem Books.copy (h : Books z own mapped m) {src dst size : Nat} (hsrc : src < 64)
    (h1 : 1 ≤ dst) (hdst : dst < 64) (hne : src ≠ dst) (hs : size ≤ TASK_SIZE)
    (hs0 : src = 0 → size ≤ TASK0_LIMIT) (hempty : ∀ d, d.val / 16 = dst → m.tableOf d = none)
    (hroom : ∀ p, LOW_MEM ≤ p → max 1 (m.memMap p) + forked m src size p ≤ 255) :
    ∃ r m', copyPageTables m (src * TASK_SIZE) (dst * TASK_SIZE) size = .ok (r, m') ∧
      Books z own mapped m' := by
  obtain ⟨held, hpaged, hheld⟩ := h.paged
  have hcounted : ∀ d i, d.val / 16 = dst → counting mapped (d, i) = true := fun d i hd =>
    counting_of_none (show 16 ≤ d.val by omega)
      (h.absent (by rw [Mem.page, tableOf_none_ent (hempty d hd)]; rfl))
  have hcan := canCopy_task hsrc hdst hne hs hs0 hempty hcounted hroom
  obtain ⟨r, m', hm', hpaged', hc⟩ := hpaged.copyDirs_spec hcan
  refine ⟨r, m', ?_, h.step ⟨held, hpaged', hheld⟩ (fun _ => Nat.le_refl _) hc.fresh
    h.mapped_managed fun x q hx => ?_⟩
  · rw [copyPageTables, if_neg (by simp only [TASK_SIZE]; omega)]
    exact hm'
  · have hpage := h.shown x q hx
    have hold : ∀ y ∈ (dirSlots (src * TASK_SIZE) size).zip (dirSlots (dst * TASK_SIZE) size),
        y.2 ≠ x.1 := by
      intro y hy e
      have hnone : m.ent x = none := tableOf_none_ent (i := x.2) (e ▸ hcan.absent y hy)
      rw [Mem.page, hnone] at hpage
      cases hpage
    rcases hc.ent x hold with he | ⟨-, he⟩
    · rw [Mem.page, he]
      exact hpage
    · have hcomp : frame ∘ wrprotectAbove = frame := funext frame_wrprotectAbove
      rw [Mem.page, he, Option.map_map, hcomp]
      exact hpage

/-- `un_wp_page` on an entry that is counted, or whose page is counted once. -/
theorem Books.unWp (h : Books z own mapped m) {x : Pos} {t : Nat} {e : Word}
    (ht : m.tableOf x.1 = some t) (he : m.ent x = some e) (hx : User x)
    (hone : ∀ p, mapped x = some p → m.memMap p = 1) :
    unWpPage m t x.2 = none ∨ ∃ m', unWpPage m t x.2 = some m' ∧ Books z own mapped m' := by
  have hpx : m.page x = some (frame e) := by rw [Mem.page, he, Option.map_some]
  cases hmx : mapped x with
  | some p =>
      -- the page of the entry has one count, so the entry gets its write bit
      obtain rfl : frame e = p := Option.some.inj (hpx.symm.trans (h.shown x p hmx))
      have hlow : LOW_MEM ≤ frame e := z.lowMem_le.trans (h.mapped_managed x _ hmx).1
      obtain ⟨hpres, hphys⟩ := (ent_eq_some ht).mp he
      obtain ⟨h', -, -⟩ := h.rewrite ht he ((present_or_two e).mpr hpres) (frame_or_two e)
      refine Or.inr ⟨_, ?_, h'⟩
      unfold unWpPage
      simp only [hphys]
      rw [if_pos ⟨hlow, hone _ hmx⟩]
  | none =>
      have hcx := counting_of_none hx hmx
      obtain ⟨held, hpaged, hheld⟩ := h.paged
      rcases hpaged.unWpPage_spec ht he hx.ordinary fun _ => hcx with
        ⟨hnone, -⟩ | ⟨m', hm', hpaged', htab, hu⟩
      · exact Or.inl hnone
      · rw [← hcx, update_eq_self] at hpaged'
        refine Or.inr ⟨m', hm', h.step ⟨held, hpaged', hheld⟩ (fun _ => Nat.le_refl _)
          (fun d t' ht' => Or.inl (htab ▸ ht')) h.mapped_managed fun y q hy => ?_⟩
        have hyx : y ≠ x := by
          rintro rfl
          rw [hmx] at hy
          cases hy
        have hent : m'.ent y = m.ent y := by
          cases hu with
          | own _ _ hent => rw [hent, update_of_ne hyx]
          | copy _ _ _ hent => rw [hent, update_of_ne hyx]
        rw [Mem.page, hent]
        exact h.shown y q hy

theorem Books.share (h : Books z own mapped m) (address start dest : Nat) {x y : Pos}
    (hx : x = (dirSlot (address + start), tableSlot address))
    (hy : y = (dirSlot (address + dest), tableSlot address)) (hux : User x) (huy : User y)
    (hne : x.1 ≠ y.1) (hye : m.page y = none)
    (hroom : ∀ p, LOW_MEM ≤ p → m.page x = some p → m.memMap p < 255) :
    ∃ r m', tryToShare m address start dest = .ok (r, m') ∧ Books z own mapped m' := by
  obtain ⟨held, hpaged, hheld⟩ := h.paged
  have hnone := h.absent hye
  obtain ⟨r, m', hm', hpaged', hres⟩ := hpaged.tryToShare_spec hx hy hne hux.ordinary
    (Option.map_eq_none_iff.mp hye) (counting_of_none huy hnone) hroom
  refine ⟨r, m', hm', ?_⟩
  rcases hres with ⟨-, rfl⟩ | ⟨-, e, t, hs⟩
  · exact h
  · refine h.step ⟨held, hpaged', hheld⟩ (fun _ => Nat.le_refl _) (fun d t' ht' => ?_)
      h.mapped_managed fun w q hw => ?_
    · rw [hs.tableOf] at ht'
      rcases eq_or_ne d y.1 with rfl | hd
      · obtain rfl : t = t' := by simpa using ht'
        exact hs.origin.imp_right And.right
      · rw [update_of_ne hd] at ht'
        exact Or.inl ht'
    · have hwy : w ≠ y := by
        rintro rfl
        rw [hnone] at hw
        cases hw
      have hpage := h.shown w q hw
      rcases eq_or_ne w x with rfl | hwx
      · rw [Mem.page, hs.present, Option.map_some] at hpage
        rw [Mem.page, hs.ent, update_of_ne hwy, update_self, Option.map_some, frame_wrprotect]
        exact hpage
      · rw [Mem.page, hs.ent, update_of_ne hwy, update_of_ne hwx]
        exact hpage

/-! ## Taking pages and giving them back -/

/-- The owner of some pages gives one of them back. -/
theorem Books.dropHead {base : Nat → Nat} {q : Nat} {l : List Nat}
    (h : Books z (fun p => base p + (q :: l).count p) mapped m) :
    freePage m q = .ok (uncount m q) ∧
      Books z (fun p => base p + l.count p) mapped (uncount m q) := by
  obtain ⟨hfree, h'⟩ := h.drop (p := q) (by rw [List.count_cons_self]; omega)
  refine ⟨hfree, ?_⟩
  have hown : (update (fun p => base p + (q :: l).count p) q
      (base q + (q :: l).count q - 1)) = fun p => base p + l.count p := by
    funext p
    rcases eq_or_ne p q with rfl | hne
    · rw [update_self, List.count_cons_self]
      omega
    · rw [update_of_ne hne, List.count_cons_of_ne hne.symm]
  rwa [← hown]

theorem Books.freePages {base shmaddr : Nat → Nat} {ks : List Nat}
    (h : Books z (fun p => base p + (ks.map shmaddr).count p) mapped m)
    (hf : ks.foldlM (fun m k => freePage m (shmaddr k)) m = .ok m') : Books z base mapped m' := by
  induction ks generalizing m with
  | nil =>
      obtain rfl := Except.ok.inj hf
      exact h
  | cons k ks ih =>
      obtain ⟨hfree, h₁⟩ := h.dropHead
      rw [List.foldlM_cons, hfree] at hf
      exact ih h₁ hf

/-- The pages up to index `n`. -/
def firstPages (shmaddr : Nat → Nat) (n : Nat) : List Nat := (List.range n).map shmaddr

theorem firstPages_succ (shmaddr : Nat → Nat) (n : Nat) :
    firstPages shmaddr (n + 1) = firstPages shmaddr n ++ [shmaddr n] := by
  rw [firstPages, List.range_succ, List.map_append]
  rfl

theorem firstPages_update (shmaddr : Nat → Nat) (n p : Nat) :
    firstPages (update shmaddr n p) n = firstPages shmaddr n :=
  List.map_congr_left fun _ hk => update_of_ne (Nat.ne_of_lt (List.mem_range.mp hk)) _ _

theorem Books.giveBack {base shmaddr shmaddr' : Nat → Nat} {n : Nat}
    (h : Books z (fun p => base p + (firstPages shmaddr n).count p) mapped m)
    (hg : giveBack n shmaddr m = .ok (shmaddr', m')) : Books z base mapped m' := by
  induction n generalizing shmaddr m with
  | zero =>
      obtain ⟨-, rfl⟩ := Prod.mk.inj (Except.ok.inj hg)
      exact h
  | succ n ih =>
      have hperm : ∀ p, (firstPages shmaddr (n + 1)).count p
          = (shmaddr n :: firstPages shmaddr n).count p := fun p => by
        rw [firstPages_succ]
        exact (List.perm_append_singleton ..).count_eq p
      simp only [hperm] at h
      obtain ⟨hfree, h₁⟩ := h.dropHead
      rw [Linux011.giveBack, hfree] at hg
      refine ih ?_ hg
      rw [firstPages_update]
      exact h₁

/-- The loop over `get_free_page` owns what it got, and nothing when it failed. -/
theorem Books.getPages {base shmaddr shmaddr' : Nat → Nat} {i left : Nat} {got : Bool}
    (h : Books z (fun p => base p + (firstPages shmaddr i).count p) mapped m)
    (hg : getPages i left shmaddr m = .ok (got, shmaddr', m')) :
    if got then Books z (fun p => base p + (firstPages shmaddr' (i + left)).count p) mapped m'
    else Books z base mapped m' := by
  induction left generalizing i shmaddr m with
  | zero =>
      obtain ⟨rfl, he⟩ := Prod.mk.inj (Except.ok.inj hg)
      obtain ⟨rfl, rfl⟩ := Prod.mk.inj he
      exact h
  | succ left ih =>
      rw [Linux011.getPages] at hg
      split at hg
      · rename_i page m₁ hp
        obtain ⟨hzero, h₁⟩ := h.alloc hp
        have hown : update (fun p => base p + (firstPages shmaddr i).count p) page 1
            = fun p => base p + (firstPages (update shmaddr i page) (i + 1)).count p := by
          funext p
          rw [firstPages_succ, firstPages_update, List.count_append, update_self]
          rcases eq_or_ne p page with rfl | hne
          · rw [update_self, List.count_singleton_self]
            omega
          · rw [update_of_ne hne, List.count_singleton, if_neg (by simpa using hne.symm)]
            rfl
        rw [hown] at h₁
        have h₂ := ih h₁ hg
        rwa [show i + 1 + left = i + (left + 1) by omega] at h₂
      · -- the page that was not there is address 0, which `free_page` ignores
        have hzero : freePage m (update shmaddr i 0 i) = .ok m := by
          rw [update_self]
          rfl
        cases hb : Linux011.giveBack (i + 1) (update shmaddr i 0) m with
        | error e =>
            rw [hb] at hg
            cases hg
        | ok r =>
            rw [hb] at hg
            obtain ⟨rfl, he⟩ := Prod.mk.inj (Except.ok.inj hg)
            obtain ⟨-, rfl⟩ := Prod.mk.inj he
            rw [Linux011.giveBack, hzero] at hb
            have h₁ : Books z (fun p => base p
                + (firstPages (update (update shmaddr i 0) i 0) i).count p) mapped m := by
              rw [firstPages_update, firstPages_update]
              exact h
            exact h₁.giveBack hb

/-! ## Mapping a segment -/

theorem Books.findFrom (h : Books z own mapped m) {limit left address : Nat} {found : Bool}
    (hf : findFrom limit left address m = some (found, m')) : Books z own mapped m' := by
  induction left generalizing address m with
  | zero =>
      obtain ⟨-, rfl⟩ := Prod.mk.inj (Option.some.inj hf)
      exact h
  | succ left ih =>
      rw [Linux011.findFrom] at hf
      split at hf
      · split at hf
        · obtain ⟨-, rfl⟩ := Prod.mk.inj (Option.some.inj hf)
          exact h
        · rename_i ht
          obtain ⟨h₁, -⟩ := h.pageTable ht
          split at hf
          · cases hf
          · split at hf
            · obtain ⟨-, rfl⟩ := Prod.mk.inj (Option.some.inj hf)
              exact h₁
            · exact ih h₁ hf
      · obtain ⟨-, rfl⟩ := Prod.mk.inj (Option.some.inj hf)
        exact h

/-- The entries of `xs` were made by `sys_shmat` just now. -/
def mapping (mapped : Pos → Option Nat) (xs : List Pos) (m : Mem) (x : Pos) : Option Nat :=
  if x ∈ xs then m.page x else mapped x

/-- What `sys_shmat` made is what the page tables show at these places. -/
theorem Books.mapping (h : Books z own mapped' m') (mapped : Pos → Option Nat) (xs : List Pos)
    (hin : ∀ x ∈ xs, mapped' x ≠ none) (hout : ∀ x, x ∉ xs → mapped' x = mapped x) :
    mapped' = SegmentBooks.mapping mapped xs m' := by
  funext x
  unfold SegmentBooks.mapping
  split
  · rename_i hx
    obtain ⟨p, hp⟩ := Option.ne_none_iff_exists'.mp (hin x hx)
    rw [hp, h.shown x p hp]
  · rename_i hx
    exact hout x hx

/-- The loop over `put_page` where all page tables are there. -/
theorem Books.putPages {shmaddr : Nat → Nat} {address n : Nat} (h : Books z own mapped m)
    (hown : ∀ k < n, 1 ≤ own (shmaddr k))
    (ht : ∀ k < n, m.tableOf (ShmPages.pagePos address k).1 ≠ none) :
    ∃ mapped', Books z own mapped' (putPages shmaddr address n m) ∧
      (∀ d, m.tableOf d ≠ none → (putPages shmaddr address n m).tableOf d ≠ none) ∧
      (∀ k < n, mapped' (ShmPages.pagePos address k) ≠ none) ∧
      ∀ x, (∀ k < n, x ≠ ShmPages.pagePos address k) → mapped' x = mapped x := by
  induction n with
  | zero =>
      exact ⟨mapped, h, fun _ hd => hd, fun k hk => absurd hk (Nat.not_lt_zero k), fun _ _ => rfl⟩
  | succ n ih =>
      obtain ⟨mapped₁, h₁, htab₁, hin₁, hout₁⟩ := ih (fun k hk => hown k (by omega))
        fun k hk => ht k (by omega)
      have hpos : posOf ((address + n * PAGE_SIZE) % 2 ^ 32) = ShmPages.pagePos address n :=
        ShmHeap.posOf_congr (Nat.mod_mod ..)
      have htn : Linux011.pageTable (Linux011.putPages shmaddr address n m)
          (dirSlot ((address + n * PAGE_SIZE) % 2 ^ 32)) ≠ none := by
        refine ShmHeap.pageTable_of_tableOf (htab₁ _ ?_)
        rw [show dirSlot ((address + n * PAGE_SIZE) % 2 ^ 32) = (ShmPages.pagePos address n).1 from
          congrArg Prod.fst hpos]
        exact ht n (Nat.lt_succ_self n)
      obtain ⟨h₂, htab₂, -⟩ := h₁.attachPage (hown n (Nat.lt_succ_self n)) htn
      have hstep : Linux011.putPages shmaddr address (n + 1) m
          = (Linux011.putPage (Linux011.putPages shmaddr address n m) (shmaddr n)
              ((address + n * PAGE_SIZE) % 2 ^ 32)).2 := by
        rw [Linux011.putPages, List.range_succ, List.foldl_append]
        rfl
      rw [hpos] at h₂
      rw [hstep]
      refine ⟨_, h₂, fun d hd => htab₂ d (htab₁ d hd), fun k hk => ?_, fun x hx => ?_⟩
      · rcases eq_or_ne (ShmPages.pagePos address k) (ShmPages.pagePos address n) with he | hne
        · rw [he, update_self]
          exact Option.some_ne_none _
        · rw [update_of_ne hne]
          refine hin₁ k ?_
          rcases Nat.lt_succ_iff_lt_or_eq.mp hk with hlt | rfl
          · exact hlt
          · exact absurd rfl hne
      · rw [update_of_ne (hx n (Nat.lt_succ_self n))]
        exact hout₁ x fun k hk => hx k (by omega)

/-- The loop over `put_page` that puts all pages at one address, where there is a page
table. -/
theorem Books.putSame {shmaddr : Nat → Nat} {address : Nat} {is : List Nat}
    (h : Books z own mapped m) (hown : ∀ i ∈ is, 1 ≤ own (shmaddr i))
    (ht : Linux011.pageTable m (dirSlot address) ≠ none) :
    ∃ mapped' m', putSame shmaddr address is m = (true, m') ∧ Books z own mapped' m' ∧
      (is ≠ [] → mapped' (posOf address) ≠ none) ∧
      ∀ x, x ≠ posOf address ∨ is = [] → mapped' x = mapped x := by
  induction is generalizing mapped m with
  | nil => exact ⟨mapped, m, rfl, h, fun hne => absurd rfl hne, fun _ _ => rfl⟩
  | cons i is ih =>
      have hi := hown i List.mem_cons_self
      obtain ⟨h₁, -, htab₁⟩ := h.attachPage hi ht
      have hpage : (Linux011.putPage m (shmaddr i) address).1 = shmaddr i := by
        obtain ⟨⟨t, m₁⟩, hsome⟩ := Option.ne_none_iff_exists'.mp ht
        rw [Linux011.putPage, hsome]
      have hpos : shmaddr i ≠ 0 := by
        have h₁ := (h.managed _ hi).1
        have h₂ := z.lowMem_le
        have h₃ : LOW_MEM = 256 := rfl
        omega
      obtain ⟨mapped', m', hput, h', hin, hout⟩ := ih h₁ (fun j hj => hown j (by simp [hj]))
        (ShmHeap.pageTable_of_tableOf htab₁)
      refine ⟨mapped', m', ?_, h', fun _ => ?_, fun x hx => ?_⟩
      · rw [Linux011.putSame]
        dsimp only
        rw [hpage, if_neg hpos]
        exact hput
      · by_cases hnil : is = []
        · rw [hout _ (Or.inr hnil), update_self]
          exact Option.some_ne_none _
        · exact hin hnil
      · have hx := hx.resolve_right (List.cons_ne_nil i is)
        rw [hout x (Or.inl hx), update_of_ne hx]

theorem Books.separate (h : Books z own mapped m) : Separate m := by
  obtain ⟨held, hpaged, -⟩ := h.paged
  exact hpaged.separate

/-- The places of the pages of a segment that was attached at an address: one after
another, or all at the address that was given. -/
def places (x : ShmStruct) (shmaddr : Word) (address : Nat) : List Pos :=
  if shmaddr = 0 then (List.range x.pageNum).map (ShmPages.pagePos address)
  else if x.pageNum = 0 then [] else [posOf address]

/-- The entries after `sys_shmat` mapped a segment at an address, or failed. -/
def attaching (mapped : Pos → Option Nat) (x : ShmStruct) (shmaddr : Word) (r : Option Nat)
    (m : Mem) : Pos → Option Nat :=
  match r with
  | none => mapped
  | some address => mapping mapped (places x shmaddr address) m

theorem Books.mapSegment (h : Books z own mapped m) {t : Task} {x : ShmStruct}
    {shmaddr shmflg : Word} {r : Option Nat} (hown : ∀ k < x.pageNum, 1 ≤ own (x.shmaddr k))
    (hm : mapSegment m t x shmaddr shmflg = some (r, m')) :
    Books z own (attaching mapped x shmaddr r m') m' := by
  by_cases hnull : shmaddr = 0
  · subst hnull
    obtain ⟨found, m₁, hfind, hres⟩ := mapSegment_null hm
    have h₁ := h.findFrom hfind
    obtain ⟨-, -, -, hfound⟩ := ShmHeap.findFrom_spec h.separate hfind
    rcases hres with ⟨hyes, rfl, rfl⟩ | ⟨rfl, rfl⟩
    · obtain ⟨-, hpages⟩ := hfound hyes
      obtain ⟨mapped', h', -, hin, hout⟩ := h₁.putPages hown fun k hk => (hpages k hk).1
      have hmap := h'.mapping mapped (places x 0 (heapEnd t)) (fun y hy => ?_) fun y hy => ?_
      · rwa [hmap] at h'
      · rw [places, if_pos rfl] at hy
        obtain ⟨k, hk, rfl⟩ := List.mem_map.mp hy
        exact hin k (List.mem_range.mp hk)
      · rw [places, if_pos rfl] at hy
        exact hout y fun k hk e => hy (List.mem_map.mpr ⟨k, List.mem_range.mpr hk, e.symm⟩)
    · exact h₁
  · rw [Linux011.mapSegment, if_neg hnull] at hm
    obtain ⟨hr, rfl⟩ := Prod.mk.inj (Option.some.inj hm)
    generalize (if shmflg &&& SHM_RND ≠ 0 then shmaddr.toNat - shmaddr.toNat % SHMLBA
      else shmaddr.toNat) = a at *
    by_cases ht : Linux011.pageTable m (dirSlot a) = none
    · -- without a page table the first page fails, and nothing has changed
      cases hn : List.range x.pageNum with
      | nil =>
          have hzero : x.pageNum = 0 := List.range_eq_nil.mp hn
          rw [hn] at hr
          obtain rfl := hr
          have hmap := h.mapping mapped (places x shmaddr a)
            (fun y hy => ?_) fun y hy => rfl
          · rw [hmap] at h
            exact h
          · rw [places, if_neg hnull, if_pos hzero] at hy
            exact absurd hy List.not_mem_nil
      | cons i is =>
          have hput : Linux011.putSame x.shmaddr a (i :: is) m = (false, m) := by
            rw [Linux011.putSame, Linux011.putPage, ht]
            rfl
          rw [hn, hput] at hr
          rw [hput]
          obtain rfl := hr
          exact h
    · obtain ⟨mapped', m₁, hput, h', hin, hout⟩ :=
        h.putSame (fun i hi => hown i (List.mem_range.mp hi)) ht
      rw [hput] at hr
      rw [hput]
      obtain rfl := hr
      have hmap := h'.mapping mapped (places x shmaddr a)
        (fun y hy => ?_) fun y hy => ?_
      · rw [hmap] at h'
        exact h'
      · rw [places, if_neg hnull] at hy
        split at hy
        · exact absurd hy List.not_mem_nil
        · rename_i hn
          obtain rfl := List.mem_singleton.mp hy
          exact hin fun hnil => hn (List.range_eq_nil.mp hnil)
      · rw [places, if_neg hnull] at hy
        split at hy
        · rename_i hn
          exact hout y (Or.inr (List.range_eq_nil.mpr hn))
        · exact hout y (Or.inl fun e => hy (e ▸ List.mem_singleton_self _))

/-! ## Clearing a segment -/

/-- The entries that `sys_shmat` made and that are still there. -/
def still (mapped : Pos → Option Nat) (m : Mem) (x : Pos) : Option Nat :=
  (m.ent x).bind fun _ => mapped x

theorem Books.still (h : Books z own mapped m) : still mapped m = mapped := by
  funext x
  unfold SegmentBooks.still
  cases hx : m.ent x with
  | none => rw [h.absent (by rw [Mem.page, hx]; rfl)]; rfl
  | some e => rfl

theorem Books.canceled (h : Books z own mapped m) (address n : Nat) :
    Books z own (SegmentBooks.still mapped (cancelPages address n m)) (cancelPages address n m) ∧
      ∀ x, (cancelPages address n m).ent x ≠ none → m.ent x ≠ none := by
  induction n with
  | zero =>
      have hsame : cancelPages address 0 m = m := rfl
      rw [hsame, h.still]
      exact ⟨h, fun _ hx => hx⟩
  | succ n ih =>
      obtain ⟨h₁, hkeep₁⟩ := ih
      have hstep : cancelPages address (n + 1) m
          = Linux011.cancelAdress (cancelPages address n m)
              ((address + n * PAGE_SIZE) % 2 ^ 32) := by
        rw [cancelPages, List.range_succ, List.foldl_append]
        rfl
      obtain ⟨mapped', h₂, hgone, hkeep₂⟩ := h₁.cancelAdress ((address + n * PAGE_SIZE) % 2 ^ 32)
      rw [← hstep] at h₂ hgone hkeep₂
      have hmap : mapped' = SegmentBooks.still mapped (cancelPages address (n + 1) m) := by
        funext x
        unfold SegmentBooks.still
        cases hx : (cancelPages address (n + 1) m).ent x with
        | none => exact hgone x hx
        | some e =>
            obtain ⟨hsame, hpres⟩ := hkeep₂ x (by rw [hx]; exact Option.some_ne_none e)
            obtain ⟨e', he'⟩ := Option.ne_none_iff_exists'.mp hpres
            rw [hsame, SegmentBooks.still, he']
            rfl
      rw [← hmap]
      exact ⟨h₂, fun x hx => hkeep₁ x (hkeep₂ x hx).2⟩

end SegmentBooks

end Linux011
