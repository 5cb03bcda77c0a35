import Linux011.PageTables

/-!
# The pages of the tasks

Task `nr` has the linear addresses from `nr * 0x4000000` on, 16 directory entries.
Without shared segments every user entry is counted, and a page has one use: it is
a page table, or it has a holder, or it is mapped, at the same offset in each task
that maps it (`Kinds`). So a count stays far below 256.

A count is a sum over the entries that name a page and its other holders, and it
has to fit into a char. The bound comes from the use of a page: if it is mapped,
then by `Kinds` it is at the same offset wherever it is mapped, so that the
entries that name it belong to different tasks, of which there are 64
(`Kinds.count_le`). This holds because every function of `memory.c` maps a page
either where nobody else has it, or at the offset at which another task has it:
`fork` copies whole address spaces, and `try_to_share` copies one entry to the
same offset.

`Tasks` puts the ledger and the uses together, and for each function there is
one lemma that takes it from the state before to the state behind, with the
holders as the function changes them. The arithmetic of directory entries, which
of them belong to a task and how `fork` pairs them, is done once before that.
-/

namespace Linux011

open Function RefCount Tally

/-- The bytes of the address space of a task. -/
abbrev TASK_SIZE : Nat := 0x4000000

/-- The limit of the segments of task 0, whose entries `fork` copies first. -/
abbrev TASK0_LIMIT : Nat := 0xA0000

/-- The entries of the tasks from 1 on. -/
def User (x : Pos) : Prop := 16 ≤ x.1.val

instance (x : Pos) : Decidable (User x) := inferInstanceAs (Decidable (_ ≤ _))

/-- All entries of the tasks from 1 on are counted. -/
def user (x : Pos) : Bool := decide (User x)

/-- The task that an entry belongs to. -/
def taskOf (x : Pos) : Nat := x.1.val / 16

/-- The place of an entry in the address space of its task. -/
def offsetOf (x : Pos) : Nat × Slot := (x.1.val % 16, x.2)

theorem pos_ext {x y : Pos} (ht : taskOf x = taskOf y) (ho : offsetOf x = offsetOf y) :
    x = y := by
  obtain ⟨h₁, h₂⟩ := Prod.mk.inj ho
  refine Prod.ext (Fin.ext ?_) h₂
  unfold taskOf at ht
  omega

theorem taskOf_lt (x : Pos) : taskOf x < 64 := by
  have := x.1.isLt
  unfold taskOf
  omega

theorem User.ordinary {x : Pos} (h : User x) : Ordinary x :=
  Or.inl (Nat.le_trans (by decide) h)

theorem User.counted {x : Pos} (h : User x) : user x = true := decide_eq_true h

variable {z : Zone} {held held' : Nat → Nat} {m m' : Mem}

/-- What a page is used for, when no shared segment is about. -/
structure Kinds (z : Zone) (held : Nat → Nat) (m : Mem) : Prop where
  held_le : ∀ p, held p ≤ 1
  held_managed : ∀ p, 1 ≤ held p → z.Managed p
  table_held : ∀ d t, m.tableOf d = some t → held t = 0
  table_dir : ∀ d t, m.tableOf d = some t → d.val < 4 ∨ 16 ≤ d.val
  page_held : ∀ x p, User x → m.page x = some p → held p = 0
  page_table : ∀ x p d, User x → m.page x = some p → LOW_MEM ≤ p → m.tableOf d ≠ some p
  offset : ∀ x y p, User x → User y → m.page x = some p → m.page y = some p → LOW_MEM ≤ p →
    offsetOf x = offsetOf y
  kernel : ∀ x p, x.1.val = 0 → x.2.val < 0xA0 → m.page x = some p → p < LOW_MEM

theorem Paged.page_unused (h : Paged z user held m) {p : Nat} (hp : z.Managed p)
    (h0 : m.memMap p = 0) {x : Pos} (hx : User x) : m.page x ≠ some p :=
  (h.unused hp h0).2.1 x hx.counted

theorem Paged.page_managed (h : Paged z user held m) {x : Pos} (hx : User x) {p : Nat}
    (hp : m.page x = some p) (hlow : LOW_MEM ≤ p) : z.Managed p := by
  obtain ⟨e, he, rfl⟩ := Option.map_eq_some_iff.mp hp
  exact (h.ent_ok x e hx.ordinary he).resolve_left (by omega)

/-- A page above the first megabyte that some task maps is counted. -/
theorem Paged.page_counted (h : Paged z user held m) {x : Pos} (hx : User x) {p : Nat}
    (hp : m.page x = some p) (hlow : LOW_MEM ≤ p) : 1 ≤ m.memMap p :=
  h.balanced.pos_of_ref (r := .inr x) (h.page_managed hx hp hlow) (by
    simp [Mem.ref, hx.counted, hp])

/-- A page counted once is mapped at one position. -/
theorem Paged.page_unique (h : Paged z user held m) {x y : Pos} (hx : User x) (hy : User y)
    {p : Nat} (hpx : m.page x = some p) (hpy : m.page y = some p) (hlow : LOW_MEM ≤ p)
    (h1 : m.memMap p = 1) : x = y := by
  have hr : ∀ {w : Pos}, User w → m.page w = some p → m.ref user (.inr w) = some p :=
    fun hw hpw => by simp [Mem.ref, hw.counted, hpw]
  have huniq := (h.balanced.unique (h.page_managed hx hpx hlow) h1 (hr hx hpx)).1
  exact (Sum.inr.inj (huniq _ (hr hy hpy))).symm

/-- The task that an entry belongs to, among all references. -/
def taskOfRef : Slot ⊕ Pos → Nat
  | .inl _ => 0
  | .inr x => taskOf x

theorem taskOfRef_lt (r : Slot ⊕ Pos) : taskOfRef r < 64 := by
  rcases r with d | x
  · exact Nat.zero_lt_succ _
  · exact taskOf_lt x

theorem ref_user_eq_some {x : Pos} {p : Nat} (h : m.ref user (.inr x) = some p) :
    User x ∧ m.page x = some p := by
  simp only [Mem.ref] at h
  split at h
  · exact ⟨of_decide_eq_true (by assumption), h⟩
  · cases h

/-- At most one entry in each task maps a page. -/
theorem Kinds.count_le (hk : Kinds z held m) (h : Paged z user held m) {p : Nat}
    (hp : z.Managed p) : refs (m.ref user) p ≤ 64 := by
  have hlow : LOW_MEM ≤ p := Nat.le_trans z.lowMem_le hp.1
  rw [← Finset.card_range 64]
  refine refs_le_card (f := taskOfRef) (fun r => Finset.mem_range.mpr (taskOfRef_lt r))
    fun r r' hr hr' heq => ?_
  rcases r with d | x
  · rcases r' with d' | y
    · exact congrArg Sum.inl (h.table_inj d d' p hr hr')
    · obtain ⟨hy, hpy⟩ := ref_user_eq_some hr'
      exact absurd hr (hk.page_table y p d hy hpy hlow)
  · obtain ⟨hx, hpx⟩ := ref_user_eq_some hr
    rcases r' with d' | y
    · exact absurd hr' (hk.page_table x p d' hx hpx hlow)
    · obtain ⟨hy, hpy⟩ := ref_user_eq_some hr'
      exact congrArg Sum.inr (pos_ext heq (hk.offset x y p hx hy hpx hpy hlow))

theorem Kinds.memMap_le (hk : Kinds z held m) (h : Paged z user held m) {p : Nat}
    (hp : z.Managed p) : m.memMap p ≤ 65 := by
  have h₁ := h.balanced p hp
  have h₂ := hk.count_le h hp
  have h₃ := hk.held_le p
  omega

/-- A step that maps no page which was not mapped at that offset before, and takes
page tables only from the free pages. -/
theorem Kinds.mono (hk : Kinds z held m) (h : Paged z user held m)
    (htab : ∀ d t, m'.tableOf d = some t → m.tableOf d = some t ∨
      16 ≤ d.val ∧ z.Managed t ∧ m.memMap t = 0)
    (hpage : ∀ x p, User x → m'.page x = some p → p < LOW_MEM ∨
      ∃ y, User y ∧ offsetOf y = offsetOf x ∧ m.page y = some p)
    (hkernel : ∀ x p, x.1.val = 0 → x.2.val < 0xA0 → m'.page x = some p → p < LOW_MEM) :
    Kinds z held m' := by
  have hsame : ∀ {x p}, User x → m'.page x = some p → LOW_MEM ≤ p →
      ∃ y, User y ∧ offsetOf y = offsetOf x ∧ m.page y = some p := fun hx hp hlow =>
    (hpage _ _ hx hp).resolve_left (by omega)
  refine ⟨hk.held_le, hk.held_managed, fun d t ht => ?_, fun d t ht => ?_, fun x p hx hp => ?_,
    fun x p d hx hp hlow ht => ?_, fun x y p hx hy hpx hpy hlow => ?_, hkernel⟩
  · rcases htab d t ht with ht | ⟨-, hm, h0⟩
    · exact hk.table_held d t ht
    · exact (h.unused hm h0).2.2
  · exact (htab d t ht).elim (hk.table_dir d t) fun ⟨hd, _⟩ => Or.inr hd
  · rcases Nat.lt_or_ge p LOW_MEM with hlow | hlow
    · by_contra hne
      have := (hk.held_managed p (by omega)).1
      have := z.lowMem_le
      omega
    · obtain ⟨y, hy, -, hpy⟩ := hsame hx hp hlow
      exact hk.page_held y p hy hpy
  · obtain ⟨y, hy, -, hpy⟩ := hsame hx hp hlow
    rcases htab d p ht with ht | ⟨-, hm, h0⟩
    · exact hk.page_table y p d hy hpy hlow ht
    · exact h.page_unused hm h0 hy hpy
  · obtain ⟨x', hx', hox, hpx'⟩ := hsame hx hpx hlow
    obtain ⟨y', hy', hoy, hpy'⟩ := hsame hy hpy hlow
    rw [← hox, ← hoy]
    exact hk.offset x' y' p hx' hy' hpx' hpy' hlow

/-- A step that maps one new page `q`, which no task mapped and nobody holds any more. -/
theorem Kinds.add (hk : Kinds z held m) (h : Paged z user held m) {x₀ : Pos} {q : Nat}
    (hx₀ : User x₀) (hq : ∀ y, User y → m.page y ≠ some q)
    (hqt : ∀ d, m'.tableOf d ≠ some q)
    (htab : ∀ d t, m'.tableOf d = some t → m.tableOf d = some t ∨
      16 ≤ d.val ∧ z.Managed t ∧ m.memMap t = 0)
    (hpage : m'.page = update m.page x₀ (some q)) :
    Kinds z (update held q 0) m' := by
  have hheld : ∀ p, update held q 0 p ≤ held p := fun p => by
    rcases eq_or_ne p q with rfl | hne
    · simp
    · simp [hne]
  have hold : ∀ {x p}, p ≠ q → m'.page x = some p → m.page x = some p := by
    intro x p hne hp
    rw [hpage] at hp
    rcases eq_or_ne x x₀ with rfl | hx
    · exact absurd (Option.some.inj (by simpa using hp)).symm hne
    · rwa [update_of_ne hx] at hp
  have honly : ∀ {x}, User x → m'.page x = some q → x = x₀ := by
    intro x hx hp
    by_contra hne
    rw [hpage, update_of_ne hne] at hp
    exact hq x hx hp
  refine ⟨fun p => (hheld p).trans (hk.held_le p),
    fun p hp => hk.held_managed p (hp.trans (hheld p)), fun d t ht => ?_, fun d t ht => ?_,
    fun x p hx hp => ?_, fun x p d hx hp hlow ht => ?_, fun x y p hx hy hpx hpy hlow => ?_,
    fun x p h0 hi hp => ?_⟩
  · rcases htab d t ht with ht | ⟨-, hm, h0⟩
    · exact Nat.le_zero.mp (hk.table_held d t ht ▸ hheld t)
    · exact Nat.le_zero.mp ((h.unused hm h0).2.2 ▸ hheld t)
  · exact (htab d t ht).elim (hk.table_dir d t) fun ⟨hd, _⟩ => Or.inr hd
  · rcases eq_or_ne p q with rfl | hne
    · simp
    · rw [update_of_ne hne]
      exact hk.page_held x p hx (hold hne hp)
  · rcases eq_or_ne p q with rfl | hne
    · exact hqt d ht
    · have hp' := hold hne hp
      rcases htab d p ht with ht | ⟨-, hm, h0⟩
      · exact hk.page_table x p d hx hp' hlow ht
      · exact h.page_unused hm h0 hx hp'
  · rcases eq_or_ne p q with rfl | hne
    · rw [honly hx hpx, honly hy hpy]
    · exact hk.offset x y p hx hy (hold hne hpx) (hold hne hpy) hlow
  · have hne : x ≠ x₀ := fun e => by
      rw [e] at h0
      unfold User at hx₀
      omega
    rw [hpage, update_of_ne hne] at hp
    exact hk.kernel x p h0 hi hp

/-! ## The directory entries of a task -/

/-- How many directory entries cover `size` bytes. -/
def dirCount (size : Nat) : Nat := (size + 0x3fffff) % 2 ^ 32 / 0x400000

theorem dirCount_le {size : Nat} (h : size ≤ TASK_SIZE) : dirCount size ≤ 16 := by
  simp only [TASK_SIZE] at h
  unfold dirCount
  omega

/-- The directory entry `k` of task `nr`. -/
def taskDir (nr k : Nat) : Slot := dirSlot (nr * TASK_SIZE + k * 0x400000)

theorem taskDir_val {nr k : Nat} (hnr : nr < 64) (hk : k < 16) :
    (taskDir nr k).val = 16 * nr + k := by
  simp only [taskDir, dirSlot, TASK_SIZE]
  omega

theorem dirSlots_task (nr size : Nat) :
    dirSlots (nr * TASK_SIZE) size = (List.range (dirCount size)).map (taskDir nr) := rfl

theorem mem_dirSlots_task {nr size : Nat} {d : Slot} (hnr : nr < 64) (hs : size ≤ TASK_SIZE)
    (h : d ∈ dirSlots (nr * TASK_SIZE) size) : d.val / 16 = nr := by
  rw [dirSlots_task, List.mem_map] at h
  obtain ⟨k, hk, rfl⟩ := h
  have := List.mem_range.mp hk
  have := dirCount_le hs
  rw [taskDir_val hnr (by omega)]
  omega

theorem user_posOf {address : Nat} (h : TASK_SIZE ≤ address) (hlt : address < 2 ^ 32) :
    User (posOf address) := by
  simp only [TASK_SIZE] at h
  show 16 ≤ address / 0x400000 % 1024
  omega

theorem posOf_task {address nr : Nat} (ha : address < TASK_SIZE) (hnr : nr < 64) :
    posOf (address + nr * TASK_SIZE) = (dirSlot (address + nr * TASK_SIZE), tableSlot address) ∧
      (dirSlot (address + nr * TASK_SIZE)).val = 16 * nr + address / 0x400000 := by
  simp only [TASK_SIZE] at ha ⊢
  constructor
  · refine Prod.ext rfl (Fin.ext ?_)
    show (address + nr * 0x4000000) / 0x1000 % 1024 = address / 0x1000 % 1024
    omega
  · show (address + nr * 0x4000000) / 0x400000 % 1024 = _
    omega

/-- The pairs of directory entries that `copy_page_tables` runs over. -/
theorem zip_dirSlots (src dst size : Nat) :
    (dirSlots (src * TASK_SIZE) size).zip (dirSlots (dst * TASK_SIZE) size)
      = (List.range (dirCount size)).map fun k => (taskDir src k, taskDir dst k) := by
  rw [dirSlots_task, dirSlots_task, List.zip_map']

theorem mem_zip_dirSlots {src dst size : Nat} (hsrc : src < 64) (hdst : dst < 64)
    (hs : size ≤ TASK_SIZE) {x : Slot × Slot}
    (h : x ∈ (dirSlots (src * TASK_SIZE) size).zip (dirSlots (dst * TASK_SIZE) size)) :
    ∃ k < 16, k < dirCount size ∧ x = (taskDir src k, taskDir dst k) ∧
      x.1.val = 16 * src + k ∧ x.2.val = 16 * dst + k := by
  rw [zip_dirSlots, List.mem_map] at h
  obtain ⟨k, hk, rfl⟩ := h
  have hk := List.mem_range.mp hk
  have hle := dirCount_le hs
  exact ⟨k, by omega, hk, rfl, taskDir_val hsrc (by omega), taskDir_val hdst (by omega)⟩

theorem taskDir_inj {nr : Nat} (hnr : nr < 64) {n : Nat} (hn : n ≤ 16) :
    ((List.range n).map (taskDir nr)).Nodup := by
  refine List.Nodup.map_on (fun j hj k hk he => ?_) List.nodup_range
  have hj := List.mem_range.mp hj
  have hk := List.mem_range.mp hk
  have := congrArg Fin.val he
  rw [taskDir_val hnr (by omega), taskDir_val hnr (by omega)] at this
  omega

theorem copiedEntries_nodup (start : Nat) : (copiedEntries start).Nodup :=
  (List.nodup_finRange 1024).sublist (List.take_sublist _ _)

theorem copiedEntries_zero {i : Slot} (h : i ∈ copiedEntries 0) : i.val < 0xA0 := by
  obtain ⟨k, hk, hik⟩ := List.getElem_of_mem h
  simp only [copiedEntries, if_pos, List.getElem_take, List.getElem_finRange] at hik
  have : k < 0xA0 := by
    have := hk
    simp only [copiedEntries, if_pos, List.length_take, List.length_finRange] at this
    omega
  rw [← hik]
  simpa using this

theorem mem_copiedEntries {start : Nat} (h : start ≠ 0) (i : Slot) : i ∈ copiedEntries start := by
  rw [copiedEntries, if_neg h, List.take_of_length_le (by simp)]
  exact List.mem_finRange i

/-! ## What the functions of memory.c keep -/

/-- The books are balanced and every page has one use. -/
structure Tasks (z : Zone) (held : Nat → Nat) (m : Mem) : Prop where
  paged : Paged z user held m
  kinds : Kinds z held m

theorem page_of_ent (h : m'.ent = m.ent) : m'.page = m.page := by
  funext x
  rw [Mem.page, h, Mem.page]

theorem Mem.page_update {x : Pos} {o : Option Word} (h : m'.ent = update m.ent x o) :
    m'.page = update m.page x (o.map frame) := by
  funext y
  rcases eq_or_ne y x with rfl | hne
  · simp [Mem.page, h]
  · simp [Mem.page, h, hne]

theorem Tasks.alloc (h : Tasks z held m) {p : Nat} (hg : getFreePage m = some (p, m')) :
    Tasks z (update held p 1) m' ∧ Fresh z m p m' := by
  obtain ⟨hf, h'⟩ := h.paged.getFreePage_spec hg
  have hpage := page_of_ent hf.ent
  obtain ⟨-, hunused, h0⟩ := h.paged.unused hf.managed hf.free
  obtain ⟨hle, hman, hth, htd, hph, hpt, hoff, hker⟩ := h.kinds
  refine ⟨⟨h', fun q => ?_, fun q hq => ?_, fun d t ht => ?_, ?_, fun x q hx hq => ?_, ?_, ?_, ?_⟩,
    hf⟩
  · rcases eq_or_ne q p with rfl | hne
    · simp
    · simpa [hne] using hle q
  · rcases eq_or_ne q p with rfl | hne
    · exact hf.managed
    · rw [update_of_ne hne] at hq
      exact hman q hq
  · rw [hf.tableOf] at ht
    have hne : t ≠ p := fun e => hf.not_table d (e ▸ ht)
    rw [update_of_ne hne]
    exact hth d t ht
  · rw [hf.tableOf]; exact htd
  · rw [hpage] at hq
    have hne : q ≠ p := fun e => hunused x hx.counted (e ▸ hq)
    rw [update_of_ne hne]
    exact hph x q hx hq
  · rw [hpage, hf.tableOf]; exact hpt
  · rw [hpage]; exact hoff
  · rw [hpage]; exact hker

theorem Tasks.drop (h : Tasks z held m) {p : Nat} (hp : 1 ≤ held p) :
    ∃ m', freePage m p = .ok m' ∧ Tasks z (update held p 0) m' := by
  have hm := h.kinds.held_managed p hp
  have hle := h.kinds.held_le p
  obtain ⟨hfree, h'⟩ := h.paged.drop hm hp
  rw [show held p - 1 = 0 by omega] at h'
  have hheld : ∀ q, update held p 0 q ≤ held q := fun q => by
    rcases eq_or_ne q p with rfl | hne
    · simp
    · simp [hne]
  have htab := tableOf_of_phys (uncount_phys m p)
  have hpage := page_of_ent (ent_of_phys (uncount_phys m p))
  obtain ⟨hle, hman, hth, htd, hph, hpt, hoff, hker⟩ := h.kinds
  refine ⟨uncount m p, hfree, h', fun q => (hheld q).trans (hle q),
    fun q hq => hman q (hq.trans (hheld q)), fun d t ht => ?_, ?_, fun x q hx hq => ?_, ?_, ?_, ?_⟩
  · rw [htab] at ht
    exact Nat.le_zero.mp (hth d t ht ▸ hheld t)
  · rw [htab]; exact htd
  · rw [hpage] at hq
    exact Nat.le_zero.mp (hph x q hx hq ▸ hheld q)
  · rw [hpage, htab]; exact hpt
  · rw [hpage]; exact hoff
  · rw [hpage]; exact hker

/-- The page tables after one directory entry of a task got one. -/
theorem Tabled.tables {address t : Nat} (h : Tabled z m (dirSlot address) t m')
    (hu : User (posOf address)) {d : Slot} {t' : Nat} (ht : m'.tableOf d = some t') :
    m.tableOf d = some t' ∨ 16 ≤ d.val ∧ z.Managed t' ∧ m.memMap t' = 0 := by
  rw [h.tableOf] at ht
  rcases eq_or_ne d (dirSlot address) with rfl | hne
  · obtain rfl : t = t' := by simpa using ht
    exact h.origin.imp_right fun ⟨_, hm, h0⟩ => ⟨hu, hm, h0⟩
  · rw [update_of_ne hne] at ht
    exact Or.inl ht

theorem Tasks.put (h : Tasks z held m) {p address : Nat} (hp : 1 ≤ held p)
    (hu : User (posOf address)) (hx : m.page (posOf address) = none) :
    putPage m p address = (0, m) ∨
      ∃ m', putPage m p address = (p, m') ∧ Tasks z (update held p 0) m' := by
  have hm := h.kinds.held_managed p hp
  have hle := h.kinds.held_le p
  have hent : m.ent (posOf address) = none := Option.map_eq_none_iff.mp hx
  rcases h.paged.putPage_spec hm hp hent hu.counted with
    ⟨hput, -, -⟩ | ⟨t, m', hput, h', htab, he⟩
  · exact Or.inl hput
  · rw [show held p - 1 = 0 by omega] at h'
    refine Or.inr ⟨m', hput, h', h.kinds.add h.paged hu (fun y hy hpy => ?_) (fun d hd => ?_)
      (fun d t ht => htab.tables hu ht) ?_⟩
    · have := h.kinds.page_held y p hy hpy
      omega
    · rcases htab.tables hu hd with hd | ⟨-, -, h0⟩
      · have := h.kinds.table_held d p hd
        omega
      · have := h.paged.balanced.pos_of_held hm hp
        omega
    · rw [Mem.page_update he, Option.map_some, frame_entry hm.lt_pages]

/-- `free_page_tables` of the address space of a task. -/
theorem Tasks.free (h : Tasks z held m) {nr size : Nat} (h1 : 1 ≤ nr) (hnr : nr < 64)
    (hs : size ≤ TASK_SIZE) :
    ∃ m', freePageTables m (nr * TASK_SIZE) size = .ok m' ∧ Tasks z held m' ∧
      Freed (dirSlots (nr * TASK_SIZE) size) m m' := by
  have hfree : ∀ d ∈ dirSlots (nr * TASK_SIZE) size, Freeable user m d := by
    intro d hd
    have hval := mem_dirSlots_task hnr hs hd
    exact ⟨by omega, fun i e _ _ => User.counted (show 16 ≤ d.val by omega)⟩
  obtain ⟨m', hm', h', hf⟩ := h.paged.freePageTables_spec (by simp only [TASK_SIZE]; omega)
    (by simp only [TASK_SIZE]; omega) hfree
  have hpage : ∀ {x p}, m'.page x = some p → m.page x = some p := by
    intro x p hp
    rw [Mem.page, hf.ent] at hp
    split at hp
    · cases hp
    · exact hp
  refine ⟨m', hm', ⟨h', h.kinds.mono h.paged (fun d t ht => ?_) (fun x p hx hp => ?_)
    fun x p h0 hi hp => h.kinds.kernel x p h0 hi (hpage hp)⟩, hf⟩
  · rw [hf.tableOf] at ht
    split at ht
    · cases ht
    · exact Or.inl ht
  · exact Or.inr ⟨x, hx, rfl, hpage hp⟩

/-- The copies that `copy_page_tables` makes of a page are no more than its references. -/
theorem copies_le_refs (m : Mem) {src size : Nat} (h1 : 1 ≤ src)
    (hsrc : src < 64) (hs : size ≤ TASK_SIZE) {entries : List Slot} (hnodup : entries.Nodup)
    (p : Nat) : (((List.range (dirCount size)).map (taskDir src)).map
      fun d => copies m entries d p).sum ≤ refs (m.ref user) p := by
  let dirs := (List.range (dirCount size)).map (taskDir src)
  let all : List (Slot ⊕ Pos) := dirs.flatMap fun d => entries.map fun i => .inr (d, i)
  have hall : all.Nodup := by
    refine List.nodup_flatMap.mpr ⟨fun d _ => hnodup.map fun i j he => ?_, ?_⟩
    · simpa using he
    · refine (taskDir_inj hsrc (dirCount_le hs)).imp fun {d d'} hne => ?_
      rw [Function.onFun, List.disjoint_left]
      intro r hr hr'
      obtain ⟨i, -, rfl⟩ := List.mem_map.mp hr
      obtain ⟨j, -, he⟩ := List.mem_map.mp hr'
      simp only [Sum.inr.injEq, Prod.mk.injEq] at he
      exact hne he.1.symm
  have hsum : (dirs.map fun d => copies m entries d p).sum
      = (all.map fun r => names p (m.ref user r)).sum := by
    simp only [all, List.flatMap_def, List.map_flatten, List.sum_flatten, List.map_map]
    refine congrArg List.sum (List.map_congr_left fun d hd => ?_)
    have hval := mem_dirSlots_task hsrc hs (show d ∈ dirSlots (src * TASK_SIZE) size from hd)
    have hu : ∀ i, user (d, i) = true := fun i =>
      User.counted (show 16 ≤ d.val by omega)
    simp [copies, Function.comp_def, Mem.ref, hu]
  exact hsum ▸ sum_names_le hall _ _

/-- How often the pages of a task are copied: a managed page at most once for each
task, the others not at all. -/
theorem Tasks.copies_le (h : Tasks z held m) {src size : Nat} (hsrc : src < 64)
    (hs : size ≤ TASK_SIZE) (hs0 : src = 0 → dirCount size ≤ 1) {p : Nat} (hp : LOW_MEM ≤ p) :
    let n := (((List.range (dirCount size)).map (taskDir src)).map
      fun d => copies m (copiedEntries (src * TASK_SIZE)) d p).sum
    n = 0 ∨ z.Managed p ∧ n ≤ 64 := by
  intro n
  rcases Nat.eq_zero_or_pos src with rfl | hpos
  · -- the kernel's own entries map the first megabyte
    left
    refine List.sum_eq_zero fun c hc => ?_
    obtain ⟨d, hd, rfl⟩ := List.mem_map.mp hc
    obtain ⟨k, hk, rfl⟩ := List.mem_map.mp hd
    have hk := List.mem_range.mp hk
    have hk0 : k = 0 := by have := hs0 rfl; omega
    refine List.sum_eq_zero fun c hc => ?_
    obtain ⟨i, hi, rfl⟩ := List.mem_map.mp hc
    refine if_neg fun hpage => ?_
    have := h.kinds.kernel (taskDir 0 k, i) p (by rw [hk0]; rfl)
      (copiedEntries_zero (by simpa using hi)) hpage
    omega
  · have hle := copies_le_refs m hpos hsrc hs (copiedEntries_nodup (src * TASK_SIZE)) p
    by_cases hm : z.Managed p
    · exact Or.inr ⟨hm, hle.trans (h.kinds.count_le h.paged hm)⟩
    · have hzero : refs (m.ref user) p = 0 := refs_eq_zero fun r hr => by
        rcases r with d | x
        · rcases h.paged.table_ok d p hr with hlow | hman
          · omega
          · exact hm hman
        · obtain ⟨hx, hpx⟩ := ref_user_eq_some hr
          exact hm (h.paged.page_managed hx hpx hp)
      exact Or.inl (Nat.le_zero.mp (hzero ▸ hle))

/-- What is copied: entries of a task, or the first 640 kB of the kernel space. -/
theorem copied_entries {src dst size : Nat} (hsrc : src < 64) (hdst : dst < 64)
    (hs : size ≤ TASK_SIZE) (hs0 : src = 0 → size ≤ TASK0_LIMIT) :
    ∀ x ∈ (dirSlots (src * TASK_SIZE) size).zip (dirSlots (dst * TASK_SIZE) size),
      ∀ i ∈ copiedEntries (src * TASK_SIZE), User (x.1, i) ∨ x.1.val = 0 ∧ i.val < 0xA0 := by
  intro x hx i hi
  obtain ⟨k, hk, hkn, -, hx1, -⟩ := mem_zip_dirSlots hsrc hdst hs hx
  rcases Nat.eq_zero_or_pos src with rfl | hpos
  · have hone : dirCount size ≤ 1 := by
      have := hs0 rfl
      simp only [TASK0_LIMIT] at this
      unfold dirCount
      omega
    exact Or.inr ⟨by omega, copiedEntries_zero (by simpa using hi)⟩
  · exact Or.inl (show 16 ≤ x.1.val by omega)

/-- `copy_page_tables` may copy one task to the empty address space of another when no
count overflows. -/
theorem canCopy_task {counted : Pos → Bool} {src dst size : Nat} (hsrc : src < 64)
    (hdst : dst < 64) (hne : src ≠ dst) (hs : size ≤ TASK_SIZE)
    (hs0 : src = 0 → size ≤ TASK0_LIMIT) (hempty : ∀ d, d.val / 16 = dst → m.tableOf d = none)
    (hcounted : ∀ d i, d.val / 16 = dst → counted (d, i) = true)
    (hroom : ∀ p, LOW_MEM ≤ p → max 1 (m.memMap p) +
      ((dirSlots (src * TASK_SIZE) size).map fun d =>
        copies m (copiedEntries (src * TASK_SIZE)) d p).sum ≤ 255) :
    CanCopy counted (copiedEntries (src * TASK_SIZE))
      ((dirSlots (src * TASK_SIZE) size).zip (dirSlots (dst * TASK_SIZE) size)) m := by
  have hmem : ∀ {x}, x ∈ (dirSlots (src * TASK_SIZE) size).zip (dirSlots (dst * TASK_SIZE) size) →
      _ := fun {_} => mem_zip_dirSlots hsrc hdst hs
  refine ⟨copiedEntries_nodup _, ?_, ?_, fun x hx y hy e => ?_, fun x hx i hi => ?_,
    fun x hx => ?_, fun x hx i => ?_, fun p hp => ?_⟩
  · rw [zip_dirSlots, List.map_map]
    exact taskDir_inj hsrc (dirCount_le hs)
  · rw [zip_dirSlots, List.map_map]
    exact taskDir_inj hdst (dirCount_le hs)
  · obtain ⟨k, hk, -, -, hx1, -⟩ := hmem hx
    obtain ⟨j, hj, -, -, -, hy2⟩ := hmem hy
    have := congrArg Fin.val e
    omega
  · exact (copied_entries hsrc hdst hs hs0 x hx i hi).elim User.ordinary Or.inr
  · obtain ⟨k, hk, -, -, -, hx2⟩ := hmem hx
    exact hempty x.2 (by omega)
  · obtain ⟨k, hk, -, -, -, hx2⟩ := hmem hx
    exact hcounted x.2 i (by omega)
  · have hsum := hroom p hp
    rw [dirSlots_task, List.map_map] at hsum
    rw [zip_dirSlots, List.map_map]
    exact hsum

/-- A fork overflows no count: every page has one use, and there are few tasks. -/
theorem Tasks.room (h : Tasks z held m) {src size : Nat} (hsrc : src < 64) (hs : size ≤ TASK_SIZE)
    (hs0 : src = 0 → size ≤ TASK0_LIMIT) {p : Nat} (hp : LOW_MEM ≤ p) :
    max 1 (m.memMap p) + ((dirSlots (src * TASK_SIZE) size).map fun d =>
      copies m (copiedEntries (src * TASK_SIZE)) d p).sum ≤ 255 := by
  have hzero : src = 0 → dirCount size ≤ 1 := fun e => by
    have := hs0 e
    simp only [TASK0_LIMIT] at this
    unfold dirCount
    omega
  have hmap := h.copies_le hsrc hs hzero hp
  have hchar := (h.paged.cells p).1
  rw [dirSlots_task]
  dsimp only at hmap
  rcases hmap with hmap | ⟨hm, hmap⟩
  · omega
  · have := h.kinds.memMap_le h.paged hm
    omega

/-- `copy_page_tables` from the address space of one task to the empty one of another. -/
theorem Tasks.copy (h : Tasks z held m) {src dst size : Nat} (hsrc : src < 64) (h1 : 1 ≤ dst)
    (hdst : dst < 64) (hne : src ≠ dst) (hs : size ≤ TASK_SIZE)
    (hs0 : src = 0 → size ≤ TASK0_LIMIT) (hempty : ∀ d, d.val / 16 = dst → m.tableOf d = none) :
    ∃ r m', copyPageTables m (src * TASK_SIZE) (dst * TASK_SIZE) size = .ok (r, m') ∧
      Tasks z held m' ∧ Copied z (copiedEntries (src * TASK_SIZE))
        ((dirSlots (src * TASK_SIZE) size).zip (dirSlots (dst * TASK_SIZE) size)) m r m' := by
  have hmem : ∀ {x}, x ∈ (dirSlots (src * TASK_SIZE) size).zip (dirSlots (dst * TASK_SIZE) size) →
      _ := fun {_} => mem_zip_dirSlots hsrc hdst hs
  have hord := copied_entries hsrc hdst hs hs0
  have hcan := canCopy_task hsrc hdst hne hs hs0 hempty
    (fun d i hd => User.counted (show 16 ≤ d.val by omega)) fun _ => h.room hsrc hs hs0
  rw [copyPageTables, if_neg (by simp only [TASK_SIZE]; omega)]
  obtain ⟨r, m', hm', h', hc⟩ := h.paged.copyDirs_spec hcan
  -- outside of the new task the same pages are mapped as before
  have hother : ∀ x p, x.1.val / 16 ≠ dst → m'.page x = some p → m.page x = some p := by
    intro x p hx hp
    have hent := hc.ent x fun y hy e => by
      obtain ⟨k, hk, -, -, -, hy2⟩ := hmem hy
      rw [← e] at hx
      omega
    rcases hent with he | ⟨-, he⟩
    · rwa [Mem.page, he] at hp
    · rw [Mem.page, he, Option.map_map] at hp
      have hcomp : frame ∘ wrprotectAbove = frame := funext frame_wrprotectAbove
      rwa [hcomp] at hp
  refine ⟨r, m', hm', ⟨h', h.kinds.mono h.paged (fun d t ht => ?_) (fun x p hx hp => ?_)
    fun x p h0 hi hp => h.kinds.kernel x p h0 hi (hother x p (by omega) hp)⟩, hc⟩
  · by_cases hd : ∃ y ∈ (dirSlots (src * TASK_SIZE) size).zip (dirSlots (dst * TASK_SIZE) size),
        y.2 = d
    · obtain ⟨y, hy, rfl⟩ := hd
      obtain ⟨k, hk, -, -, -, hy2⟩ := hmem hy
      exact (hc.fresh _ t ht).imp_right fun hf => ⟨by omega, hf⟩
    · rw [hc.tableOf d fun y hy e => hd ⟨y, hy, e⟩] at ht
      exact Or.inl ht
  · by_cases hd : x.1.val / 16 = dst
    · by_cases hy : ∃ y ∈ (dirSlots (src * TASK_SIZE) size).zip
          (dirSlots (dst * TASK_SIZE) size), y.2 = x.1
      · obtain ⟨y, hy, hyx⟩ := hy
        obtain ⟨k, hk, -, -, hy1, hy2⟩ := hmem hy
        have hxe : m'.ent x = m'.ent (y.2, x.2) := by rw [hyx]
        rw [Mem.page, hxe] at hp
        rcases hc.copy y hy x.2 with he | ⟨hi, he, -⟩
        · rw [he] at hp
          cases hp
        · have hcomp : frame ∘ wrprotect = frame := funext frame_wrprotect
          rw [he, Option.map_map, hcomp] at hp
          rcases hord y hy x.2 hi with hu | ⟨hz, hi⟩
          · refine Or.inr ⟨(y.1, x.2), hu, Prod.ext ?_ rfl, hp⟩
            show y.1.val % 16 = x.1.val % 16
            rw [← hyx]
            omega
          · exact Or.inl (h.kinds.kernel (y.1, x.2) p hz hi hp)
      · have he := hc.ent x fun y hy' e => hy ⟨y, hy', e⟩
        have hnone : m.ent x = none := tableOf_none_ent (i := x.2) (hempty x.1 hd)
        rw [Mem.page] at hp
        rcases he with he | ⟨-, he⟩
        · rw [he, hnone] at hp
          cases hp
        · rw [he, hnone] at hp
          cases hp
    · exact Or.inr ⟨x, hx, rfl, hother x p hd hp⟩

/-- `un_wp_page` on a present entry of a task. -/
theorem Tasks.unWp (h : Tasks z held m) {x : Pos} {t : Nat} {e : Word}
    (ht : m.tableOf x.1 = some t) (he : m.ent x = some e) (hx : User x) :
    unWpPage m t x.2 = none ∨ ∃ m', unWpPage m t x.2 = some m' ∧ Tasks z held m' ∧
      m'.tableOf = m.tableOf ∧ UnWp z x e m m' := by
  have hpage : m.page x = some (frame e) := by simp [Mem.page, he]
  rcases h.paged.unWpPage_spec ht he hx.ordinary fun _ => hx.counted with
    ⟨hnone, -⟩ | ⟨m', hm', h', ht', hu⟩
  · exact Or.inl hnone
  · rw [show update user x true = user by rw [← hx.counted, update_eq_self]] at h'
    refine Or.inr ⟨m', hm', ⟨h', ?_⟩, ht', hu⟩
    cases hu with
    | own low one hent =>
        have hsame : m'.page = m.page := by
          rw [Mem.page_update hent, Option.map_some, frame_or_two, ← hpage, update_eq_self]
        refine h.kinds.mono h.paged (fun d t ht => Or.inl (ht' ▸ ht)) (fun y p hy hp => ?_)
          fun y p h0 hi hp => h.kinds.kernel y p h0 hi (hsame ▸ hp)
        exact Or.inr ⟨y, hy, rfl, hsame ▸ hp⟩
    | copy p managed free hent =>
        obtain ⟨hnt, -, h0⟩ := h.paged.unused managed free
        have hpages := managed.lt_pages
        have hk := h.kinds.add h.paged hx
          (fun y hy => h.paged.page_unused managed free hy)
          (fun d => by rw [ht']; exact hnt d) (fun d t ht => Or.inl (ht' ▸ ht))
          (by rw [Mem.page_update hent, Option.map_some, frame_entry hpages])
        rwa [← h0, update_eq_self] at hk

/-- `try_to_share` from one task to another that has nothing mapped there. -/
theorem Tasks.share (h : Tasks z held m) (address start dest : Nat) {x y : Pos}
    (hx : x = (dirSlot (address + start), tableSlot address))
    (hy : y = (dirSlot (address + dest), tableSlot address)) (hux : User x) (huy : User y)
    (htask : taskOf x ≠ taskOf y) (hoff : offsetOf x = offsetOf y) (hye : m.page y = none) :
    ∃ r m', tryToShare m address start dest = .ok (r, m') ∧ Tasks z held m' := by
  have hne : x.1 ≠ y.1 := fun e => htask (congrArg (fun d : Slot => d.val / 16) e)
  have hxy : x ≠ y := fun e => hne (congrArg Prod.fst e)
  have hroom : ∀ p, LOW_MEM ≤ p → m.page x = some p → m.memMap p < 255 := fun p hlow hp => by
    have := h.kinds.memMap_le h.paged (h.paged.page_managed hux hp hlow)
    omega
  obtain ⟨r, m', hm', h', hres⟩ := h.paged.tryToShare_spec hx hy hne hux.ordinary
    (Option.map_eq_none_iff.mp hye) huy.counted hroom
  refine ⟨r, m', hm', h', ?_⟩
  rcases hres with ⟨-, rfl⟩ | ⟨-, e, t, hs⟩
  · exact h.kinds
  · have hpx : m.page x = some (frame e) := by simp [Mem.page, hs.present]
    have hpage : m'.page = update m.page y (some (frame e)) := by
      funext w
      rcases eq_or_ne w y with rfl | hwy
      · simp [Mem.page, hs.ent]
      · rcases eq_or_ne w x with rfl | hwx
        · simp [Mem.page, hs.ent, hwy, hs.present]
        · simp [Mem.page, hs.ent, hwy, hwx]
    refine h.kinds.mono h.paged (fun d t' ht' => ?_) (fun w p hw hp => ?_) fun w p h0 hi hp => ?_
    · rw [hs.tableOf] at ht'
      rcases eq_or_ne d y.1 with rfl | hd
      · obtain rfl : t = t' := by simpa using ht'
        exact hs.origin.imp_right fun hf => ⟨huy, hf.2⟩
      · rw [update_of_ne hd] at ht'
        exact Or.inl ht'
    · rw [hpage] at hp
      rcases eq_or_ne w y with rfl | hwy
      · rw [update_self] at hp
        exact Or.inr ⟨x, hux, hoff, hpx.trans hp⟩
      · rw [update_of_ne hwy] at hp
        exact Or.inr ⟨w, hw, rfl, hp⟩
    · have hwy : w ≠ y := fun e => by
        rw [e] at h0
        unfold User at huy
        omega
      rw [hpage, update_of_ne hwy] at hp
      exact h.kinds.kernel w p h0 hi hp

theorem Tasks.rewrite (h : Tasks z held m) {x : Pos} {t : Nat} {e e' : Word}
    (ht : m.tableOf x.1 = some t) (he : m.ent x = some e) (hp : Present e')
    (hf : frame e' = frame e) :
    Tasks z held (m.write t x.2 e') ∧ (m.write t x.2 e').tableOf = m.tableOf ∧
      (m.write t x.2 e').ent = update m.ent x (some e') := by
  obtain ⟨h', ht', he'⟩ := h.paged.rewrite ht he hp hf
  have hsame : (m.write t x.2 e').page = m.page := by
    have hpage : m.page x = some (frame e) := by simp [Mem.page, he]
    rw [Mem.page_update he', Option.map_some, hf, ← hpage, update_eq_self]
  refine ⟨⟨h', h.kinds.mono h.paged (fun d t ht => Or.inl (ht' ▸ ht)) (fun y p hy hp => ?_)
    fun y p h0 hi hp => h.kinds.kernel y p h0 hi (hsame ▸ hp)⟩, ht', he'⟩
  exact Or.inr ⟨y, hy, rfl, hsame ▸ hp⟩

theorem Tasks.empty (h : Tasks z held m) {address : Nat} (hu : User (posOf address))
    (hx : m.page (posOf address) = none) :
    ∃ r m', getEmptyPage m address = .ok (r, m') ∧ Tasks z held m' ∧
      (r = false ∧ m'.tableOf = m.tableOf ∧ m'.ent = m.ent ∧
          (∀ q, m.memMap q ≠ 0 → m'.phys q = m.phys q) ∨
        r = true ∧ ∃ p t, Filled z m address p t m') := by
  obtain ⟨r, m', hm', h', hres⟩ :=
    h.paged.getEmptyPage_spec (Option.map_eq_none_iff.mp hx) hu.counted
  refine ⟨r, m', hm', ⟨h', ?_⟩, hres⟩
  rcases hres with ⟨-, ht, he, -⟩ | ⟨-, p, t, hf⟩
  · have hsame := page_of_ent he
    exact h.kinds.mono h.paged (fun d t h => Or.inl (ht ▸ h))
      (fun y p hy hp => Or.inr ⟨y, hy, rfl, hsame ▸ hp⟩)
      fun y p h0 hi hp => h.kinds.kernel y p h0 hi (hsame ▸ hp)
  · obtain ⟨hnt, -, h0⟩ := h.paged.unused hf.managed hf.free
    have hpages := hf.managed.lt_pages
    have htab : ∀ d t', m'.tableOf d = some t' → d = dirSlot address ∧ t' = t ∨
        m.tableOf d = some t' := fun d t' ht' => by
      rw [hf.tableOf] at ht'
      rcases eq_or_ne d (dirSlot address) with rfl | hd
      · exact Or.inl ⟨rfl, (by simpa using ht' : t = t').symm⟩
      · rw [update_of_ne hd] at ht'
        exact Or.inr ht'
    have hk := h.kinds.add h.paged hu
      (fun y hy => h.paged.page_unused hf.managed hf.free hy)
      (fun d hd => (htab d p hd).elim (fun ⟨_, e⟩ => hf.ne e) (hnt d))
      (fun d t' ht' => ?_)
      (by rw [Mem.page_update hf.ent, Option.map_some, frame_entry hpages])
    · rwa [← h0, update_eq_self] at hk
    · rcases htab d t' ht' with ⟨rfl, rfl⟩ | ht'
      · exact hf.origin.imp_right fun ⟨_, hm, h0⟩ => ⟨hu, hm, h0⟩
      · exact Or.inl ht'

/-! ## The first state -/

theorem memInit_tableOf (rest : Nat → Slot → Word) (lo hi : Nat) (d : Slot) :
    (memInit rest lo hi).tableOf d = if d.val < 4 then some (d.val + 1) else none := by
  have hdir : (memInit rest lo hi).dir d = if d.val < 4 then entry (d.val + 1) else 0 := rfl
  unfold Mem.tableOf Mem.table
  rw [hdir]
  split
  · have hpages : d.val + 1 < PAGES := by
      have := d.isLt
      simp only [PAGES]
      omega
    rw [if_pos (present_entry _), frame_entry hpages]
  · rw [if_neg not_present_zero]

theorem memInit_separate (rest : Nat → Slot → Word) (lo hi : Nat) :
    Separate (memInit rest lo hi) := by
  have htab : ∀ d t, (memInit rest lo hi).tableOf d = some t → t = d.val + 1 ∧ d.val < 4 := by
    intro d t ht
    rw [memInit_tableOf] at ht
    split at ht
    · rename_i hlt
      exact ⟨(Option.some.inj ht).symm, hlt⟩
    · cases ht
  refine ⟨fun d t ht => ?_, fun d d' t ht ht' => ?_, fun d t ht hlow => ?_⟩
  · have := htab d t ht
    omega
  · have := htab d t ht
    have := htab d' t ht'
    exact Fin.ext (by omega)
  · have := htab d t ht
    have hlow' : 256 ≤ t := hlow
    omega

theorem memInit_ent {rest : Nat → Slot → Word} {lo hi : Nat} {x : Pos} {e : Word}
    (he : (memInit rest lo hi).ent x = some e) :
    x.1.val < 4 ∧ e = entry (x.1.val * 1024 + x.2.val) := by
  obtain ⟨t, ht⟩ := ent_tableOf he
  obtain ⟨-, hphys⟩ := (ent_eq_some ht).mp he
  rw [memInit_tableOf] at ht
  split at ht
  · rename_i hlt
    obtain rfl := Option.some.inj ht
    have hcell : (memInit rest lo hi).phys (x.1.val + 1) x.2
        = entry (x.1.val * 1024 + x.2.val) := by
      show headPhys rest (x.1.val + 1) x.2 = _
      rw [headPhys, if_neg (by omega), if_pos (by omega), Nat.add_sub_cancel]
    exact ⟨hlt, hphys.symm.trans hcell⟩
  · cases ht

theorem memInit_page {rest : Nat → Slot → Word} {lo hi : Nat} {x : Pos} {p : Nat}
    (h : (memInit rest lo hi).page x = some p) :
    x.1.val < 4 ∧ p = x.1.val * 1024 + x.2.val := by
  obtain ⟨e, he, rfl⟩ := Option.map_eq_some_iff.mp h
  obtain ⟨hlt, rfl⟩ := memInit_ent he
  have := x.2.isLt
  rw [frame_entry (by simp only [PAGES]; omega)]
  exact ⟨hlt, rfl⟩

theorem tasks_start (z : Zone) (rest : Nat → Slot → Word) :
    Tasks z (fun _ => 0) (memInit rest z.start z.stop) := by
  have hlow := z.lowMem_le
  have h256 : LOW_MEM = 256 := rfl
  have htab : ∀ {d t}, (memInit rest z.start z.stop).tableOf d = some t →
      d.val < 4 ∧ t = d.val + 1 := by
    intro d t ht
    rw [memInit_tableOf] at ht
    split at ht
    · rename_i hlt
      exact ⟨hlt, (Option.some.inj ht).symm⟩
    · cases ht
  have hmap : ∀ p, (memInit rest z.start z.stop).memMap p = if z.Managed p then 0 else USED :=
    fun _ => rfl
  have huser : ∀ x p, User x → (memInit rest z.start z.stop).page x ≠ some p := by
    intro x p hx hp
    have := (memInit_page hp).1
    unfold User at hx
    omega
  refine ⟨⟨rfl, fun p => ⟨?_, fun _ hp => ?_⟩, fun d t ht => ?_, fun d d' t ht ht' => ?_,
    fun d t ht => ?_, fun x e hx he => ?_, fun p hp => ?_⟩, ⟨fun _ => Nat.zero_le 1,
    fun p hp => absurd hp (by simp), fun _ _ _ => rfl, fun d t ht => Or.inl (htab ht).1,
    fun _ _ _ _ => rfl, fun x p d hx hp => absurd hp (huser x p hx),
    fun x y p hx _ hp => absurd hp (huser x p hx), fun x p h0 hi hp => ?_⟩⟩
  · rw [hmap, USED]
    split <;> omega
  · rw [hmap, if_neg hp]
    decide
  · have := (htab ht).2
    omega
  · exact Fin.ext (by have := (htab ht).2; have := (htab ht').2; omega)
  · have := htab ht
    exact Or.inl (by omega)
  · have hp := memInit_page (show (memInit rest z.start z.stop).page x = some (frame e) by
      simp [Mem.page, he])
    rcases hx with hx | ⟨hx, hi⟩ <;> omega
  · have hzero : refs ((memInit rest z.start z.stop).ref user) p = 0 := refs_eq_zero fun r hr => by
      have := hp.1
      rcases r with d | x
      · have := htab hr
        omega
      · obtain ⟨hx, hpx⟩ := ref_user_eq_some hr
        exact huser x p hx hpx
    rw [hzero, hmap, if_pos hp]
  · have := memInit_page hp
    omega

end Linux011
