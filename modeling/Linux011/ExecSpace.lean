import Linux011.ExecArguments

/-!
# The address space of a new program

`do_execve` frees the page tables of the old program and puts the argument pages at the end of the
data segment. The first of them needs a page table, for which one is free: the old one. So the
task sees the bytes that were copied (`seen_byte`).

What makes the `put_page` of the argument pages succeed is that freeing the old address space has
given back at least one page, which a task that can run has for its page table (`Ready`). In the
books of `PageLedger` the argument pages are held by the kernel before and mapped once
afterwards, with the same count; the loop goes over the pages from the last one on, and `Put`
says how far it has come. At the end the bytes at the end of the data segment, read through the
tables as the task does, are those that were copied.
-/

namespace Linux011

open Function RefCount Tally

theorem Freed.page_of {m m' : Mem} {dirs : List Slot} (h : Freed dirs m m') {x : Pos} {q : Nat}
    (hx : m'.page x = some q) : m.page x = some q := by
  unfold Mem.page at hx ⊢
  rw [h.ent] at hx
  split at hx
  · cases hx
  · exact hx

theorem Freed.tableOf_of {m m' : Mem} {dirs : List Slot} (h : Freed dirs m m') {d : Slot} {q : Nat}
    (hd : m'.tableOf d = some q) : m.tableOf d = some q := by
  rw [h.tableOf] at hd
  split at hd
  · cases hd
  · exact hd

namespace Exec

variable {m₀ m m' : Mem} {b : Block} {z : Zone} {counted : Pos → Bool} {held : Nat → Nat} {nr : Nat}

/-! ## The books while the pages are held -/

/-- The pages of the block have one holder more. -/
def Block.holders (b : Block) (held : Nat → Nat) (q : Nat) : Nat :=
  held q + if ∃ i, b.page i = some q then 1 else 0

theorem Holds.tables (h : Holds m₀ b) (hm : Paged z counted held m₀) :
    b.mem.tableOf = m₀.tableOf ∧ b.mem.ent = m₀.ent := by
  have hdir : ∀ d, b.mem.dir d = m₀.dir d := by
    intro d
    unfold Mem.dir
    rw [h.phys 0 fun i hi => absurd (h.free i 0 hi).1 (by decide)]
  refine ⟨tableOf_congr hdir, ent_congr hdir fun d t i ht => ?_⟩
  rw [h.phys t fun j hj => ?_]
  obtain ⟨hlow, hfree⟩ := h.free j t hj
  exact (hm.unused (hm.managed_of_free hlow hfree) hfree).1 d ht

theorem Holds.paged (h : Holds m₀ b) (hm : Paged z counted held m₀) :
    Paged z counted (b.holders held) b.mem := by
  obtain ⟨htab, hent⟩ := h.tables hm
  have hmap : ∀ q, b.mem.memMap q = if ∃ i, b.page i = some q then 1 else m₀.memMap q := by
    intro q
    split
    · rename_i hq
      obtain ⟨i, hi⟩ := hq
      exact h.held i q hi
    · rename_i hq
      exact h.memMap q fun i hi => hq ⟨i, hi⟩
  have hfree : ∀ q, (∃ i, b.page i = some q) → z.Managed q ∧ m₀.memMap q = 0 := by
    rintro q ⟨i, hi⟩
    obtain ⟨hlow, h0⟩ := h.free i q hi
    exact ⟨hm.managed_of_free hlow h0, h0⟩
  obtain ⟨hhigh, hcells, hpos, hinj, htok, hok, hbal⟩ := hm
  refine ⟨h.high.trans hhigh, fun q => ?_, ?_, ?_, ?_, ?_, ?_⟩
  · rw [hmap]
    split
    · rename_i hq
      exact ⟨by decide, fun _ hnot => absurd (hfree q hq).1 hnot⟩
    · exact hcells q
  · rwa [htab]
  · rwa [htab]
  · rwa [htab]
  · rwa [hent]
  · rw [ref_congr htab hent]
    refine hbal.of_eq fun q hq => ?_
    unfold Block.holders
    rw [hmap]
    split
    · rename_i hin
      rw [(hfree q hin).2]
      omega
    · omega

/-! ## Freeing the old address space -/

/-- A task that can run a new program: its entries are counted, nothing is mapped behind its
limits, and it has a page table of its own. -/
structure Ready (z : Zone) (counted : Pos → Bool) (held : Nat → Nat) (t : Task) (nr : Nat)
    (m : Mem) : Prop where
  paged : Paged z counted held m
  pos : 0 < nr
  lt : nr < 64
  bases : t.codeBase = nr * TASK_SIZE ∧ t.dataBase = nr * TASK_SIZE
  limits : t.codeLimit ≤ TASK_SIZE ∧ t.dataLimit ≤ TASK_SIZE
  counted : ∀ x, taskOf x = nr → counted x = true
  clear : ∀ d : Slot, d.val / 16 = nr → d ∉ dirSlots t.codeBase t.codeLimit →
    d ∉ dirSlots t.dataBase t.dataLimit → m.tableOf d = none
  table : ∃ d q, (d ∈ dirSlots t.codeBase t.codeLimit ∨ d ∈ dirSlots t.dataBase t.dataLimit) ∧
    m.tableOf d = some q ∧ z.Managed q ∧ m.memMap q = 1

/-- Nothing is left of the old address space, and there is a free page. -/
structure Emptied (z : Zone) (counted : Pos → Bool) (held : Nat → Nat) (nr : Nat) (m m' : Mem) :
    Prop where
  paged : Paged z counted held m'
  tableOf : ∀ d : Slot, d.val / 16 = nr → m'.tableOf d = none
  phys : ∀ q, 1 ≤ q → (∀ d, m.tableOf d ≠ some q) → m'.phys q = m.phys q
  memMap : ∀ q, (∀ d, m.tableOf d ≠ some q) → (∀ x, counted x = true → m.page x ≠ some q) →
    m'.memMap q = m.memMap q
  free : getFreePage m' ≠ none

theorem Ready.freed {t : Task} (h : Ready z counted held t nr m₀) (hb : Holds m₀ b) :
    ∃ m₁ m', freePageTables b.mem t.codeBase t.codeLimit = .ok m₁ ∧
      freePageTables m₁ t.dataBase t.dataLimit = .ok m' ∧
      Emptied z counted (b.holders held) nr b.mem m' := by
  have hp := hb.paged h.paged
  obtain ⟨htab, hent⟩ := hb.tables h.paged
  have hpos := h.pos
  have hlt := h.lt
  have hcode : ∀ d ∈ dirSlots t.codeBase t.codeLimit, d.val / 16 = nr := by
    rw [h.bases.1]
    exact fun d => mem_dirSlots_task h.lt h.limits.1
  have hdata : ∀ d ∈ dirSlots t.dataBase t.dataLimit, d.val / 16 = nr := by
    rw [h.bases.2]
    exact fun d => mem_dirSlots_task h.lt h.limits.2
  have hfreeable : ∀ (m : Mem) (d : Slot), d.val / 16 = nr → Freeable counted m d :=
    fun m d hd => ⟨by omega, fun i e _ _ => h.counted (d, i) hd⟩
  have hbase : nr * TASK_SIZE % 0x400000 = 0 ∧ nr * TASK_SIZE ≠ 0 := by
    simp only [TASK_SIZE]
    omega
  obtain ⟨m₁, hm₁, hp₁, hf₁⟩ := hp.freePageTables_spec (by rw [h.bases.1]; exact hbase.1)
    (by rw [h.bases.1]; exact hbase.2) fun d hd => hfreeable b.mem d (hcode d hd)
  obtain ⟨m', hm', hp', hf'⟩ := hp₁.freePageTables_spec (by rw [h.bases.2]; exact hbase.1)
    (by rw [h.bases.2]; exact hbase.2) fun d hd => hfreeable m₁ d (hdata d hd)
  have hnone : ∀ d : Slot, d.val / 16 = nr → m'.tableOf d = none := by
    intro d hd
    rw [hf'.tableOf, hf₁.tableOf, htab]
    split
    · rfl
    · split
      · rfl
      · exact h.clear d hd (by assumption) (by assumption)
  refine ⟨m₁, m', hm₁, hm', hp', hnone, fun q hq hnt => ?_, fun q hnt hnp => ?_, fun hfull => ?_⟩
  · rw [hf'.phys q hq fun d _ hd => hnt d (hf₁.tableOf_of hd), hf₁.phys q hq fun d _ => hnt d]
  · rw [hf'.memMap q fun d hd => ⟨fun e => hnt d (hf₁.tableOf_of e), fun i e =>
        hnp (d, i) (h.counted (d, i) (hdata d hd)) (hf₁.page_of e)⟩,
      hf₁.memMap q fun d hd => ⟨hnt d, fun i => hnp (d, i) (h.counted (d, i) (hcode d hd))⟩]
  · -- the old page table is free
    obtain ⟨d, q, hd, hdq, hq, h1⟩ := h.table
    have hnr : d.val / 16 = nr := hd.elim (hcode d) (hdata d)
    have hout : ∀ i, b.page i ≠ some q := fun i hi => by
      have := (hb.free i q hi).2
      omega
    have hone : b.mem.memMap q = 1 := (hb.memMap q hout).trans h1
    have href : b.mem.ref counted (.inl d) = some q := by
      rw [← htab] at hdq
      exact hdq
    obtain ⟨huniq, hheld⟩ := hp.balanced.unique hq hone href
    have hzero : m'.memMap q = 0 := by
      rw [hp'.balanced q hq, hheld, Nat.add_zero]
      refine refs_eq_zero fun r hr => ?_
      cases r with
      | inl d' =>
          have hd' : m'.tableOf d' = some q := hr
          have heq := Sum.inl.inj (huniq (.inl d') (hf₁.tableOf_of (hf'.tableOf_of hd')))
          rw [heq, hnone d hnr] at hd'
          cases hd'
      | inr x =>
          simp only [Mem.ref] at hr
          split at hr
          · have hx : b.mem.ref counted (.inr x) = some q := by
              simp only [Mem.ref]
              rw [if_pos (by assumption)]
              exact hf₁.page_of (hf'.page_of hr)
            cases huniq (.inr x) hx
          · cases hr
    have hmem : q ∈ freeFrames m' :=
      Finset.mem_filter.mpr ⟨Finset.mem_Ico.mpr ⟨z.lowMem_le.trans hq.1, by
        have := hq.2
        have := z.le_high
        omega⟩, hzero⟩
    rw [freeFrames_none hfull] at hmem
    cases hmem

/-! ## The argument pages in the new address space -/

/-- The address of argument page `i`. -/
def argAddress (nr : Nat) (i : Fin MAX_ARG_PAGES) : Nat :=
  nr * TASK_SIZE + DATA_LIMIT - (MAX_ARG_PAGES - i.val) * PAGE_SIZE

/-- The byte at `x` of the argument pages is in the last page table of the task. -/
theorem posOf_arg (hnr : nr < 64) {x : Nat} (hx : x < MAX_ARG_PAGES * PAGE_SIZE) :
    (posOf (nr * TASK_SIZE + (DATA_LIMIT - MAX_ARG_PAGES * PAGE_SIZE + x))).1.val = 16 * nr + 15 ∧
      (posOf (nr * TASK_SIZE + (DATA_LIMIT - MAX_ARG_PAGES * PAGE_SIZE + x))).2.val
        = 992 + x / 4096 := by
  simp only [MAX_ARG_PAGES, PAGE_SIZE] at hx
  simp only [MAX_ARG_PAGES, PAGE_SIZE, DATA_LIMIT, TASK_SIZE]
  constructor
  · show (nr * 0x4000000 + (0x4000000 - 32 * 4096 + x)) / 0x400000 % 1024 = _
    omega
  · show (nr * 0x4000000 + (0x4000000 - 32 * 4096 + x)) / 0x1000 % 1024 = _
    omega

theorem argAddress_eq (nr : Nat) (i : Fin MAX_ARG_PAGES) :
    argAddress nr i
      = nr * TASK_SIZE + (DATA_LIMIT - MAX_ARG_PAGES * PAGE_SIZE + i.val * PAGE_SIZE) := by
  have hi : i.val < 32 := i.isLt
  simp only [argAddress, MAX_ARG_PAGES, PAGE_SIZE, DATA_LIMIT]
  omega

theorem posOf_argAddress (hnr : nr < 64) (i : Fin MAX_ARG_PAGES) :
    (posOf (argAddress nr i)).1.val = 16 * nr + 15 ∧
      (posOf (argAddress nr i)).2.val = 992 + i.val := by
  have hi : i.val < 32 := i.isLt
  have hx : i.val * PAGE_SIZE < MAX_ARG_PAGES * PAGE_SIZE := by
    simp only [MAX_ARG_PAGES, PAGE_SIZE]
    omega
  rw [argAddress_eq]
  obtain ⟨h₁, h₂⟩ := posOf_arg hnr hx
  refine ⟨h₁, h₂.trans ?_⟩
  simp only [PAGE_SIZE]
  omega

/-- The pages of `done` are mapped, the others are still held. -/
structure Put (z : Zone) (counted : Pos → Bool) (held : Nat → Nat)
    (page : Fin MAX_ARG_PAGES → Option Nat) (nr : Nat) (m₂ : Mem) (done : List (Fin MAX_ARG_PAGES))
    (m : Mem) : Prop where
  paged : Paged z counted (fun q => held q + if ∃ i, i ∉ done ∧ page i = some q then 1 else 0) m
  mapped : ∀ i ∈ done, ∀ f, page i = some f → m.page (posOf (argAddress nr i)) = some f
  empty : ∀ i, i ∉ done → m.ent (posOf (argAddress nr i)) = none
  phys : ∀ i f, page i = some f → m.phys f = m₂.phys f
  memMap : ∀ i f, page i = some f → m.memMap f = 1
  room : (∃ d t, d.val = 16 * nr + 15 ∧ m.tableOf d = some t) ∨ getFreePage m ≠ none

/-- No argument page is a page table. -/
theorem Put.not_table {page : Fin MAX_ARG_PAGES → Option Nat} {m₂ : Mem}
    {done : List (Fin MAX_ARG_PAGES)} (h : Put z counted held page nr m₂ done m)
    (hcounted : ∀ i, counted (posOf (argAddress nr i)) = true)
    (hmanaged : ∀ i f, page i = some f → z.Managed f) {i : Fin MAX_ARG_PAGES} {f : Nat}
    (hi : page i = some f) (d : Slot) : m.tableOf d ≠ some f := by
  intro hd
  have href : m.ref counted (.inl d) = some f := hd
  obtain ⟨huniq, hheld⟩ := h.paged.balanced.unique (hmanaged i f hi) (h.memMap i f hi) href
  by_cases hin : i ∈ done
  · have hx : m.ref counted (.inr (posOf (argAddress nr i))) = some f := by
      simp only [Mem.ref]
      rw [if_pos (hcounted i)]
      exact h.mapped i hin f hi
    cases huniq _ hx
  · rw [if_pos ⟨i, hin, hi⟩] at hheld
    omega

theorem Put.step {page : Fin MAX_ARG_PAGES → Option Nat} {m₂ : Mem}
    {done : List (Fin MAX_ARG_PAGES)} (h : Put z counted held page nr m₂ done m) (hnr : nr < 64)
    (hcounted : ∀ i, counted (posOf (argAddress nr i)) = true)
    (hmanaged : ∀ i f, page i = some f → z.Managed f)
    (hinj : ∀ i j f, page i = some f → page j = some f → i = j) {i : Fin MAX_ARG_PAGES}
    (hi : i ∉ done) :
    Put z counted held page nr m₂ (done ++ [i]) (putArg page (nr * TASK_SIZE) m i) := by
  have hmem : ∀ j, j ∉ done ++ [i] ↔ j ∉ done ∧ j ≠ i := fun j => by simp [not_or]
  cases hpag : page i with
  | none =>
      have hput : putArg page (nr * TASK_SIZE) m i = m := by
        unfold putArg
        rw [hpag]
      rw [hput]
      refine ⟨?_, fun j hj f hf => ?_, fun j hj => h.empty j ((hmem j).mp hj).1, h.phys, h.memMap,
        h.room⟩
      · have hsame : ∀ q, (∃ j, j ∉ done ++ [i] ∧ page j = some q) ↔
            ∃ j, j ∉ done ∧ page j = some q := by
          refine fun q => exists_congr fun j => and_congr_left fun hj => ?_
          rw [hmem]
          exact and_iff_left fun e => by rw [e, hpag] at hj; cases hj
        simp only [hsame]
        exact h.paged
      · rcases List.mem_append.mp hj with hj | hj
        · exact h.mapped j hj f hf
        · rw [List.mem_singleton.mp hj, hpag] at hf
          cases hf
  | some f =>
      have hput : putArg page (nr * TASK_SIZE) m i = (putPage m f (argAddress nr i)).2 := by
        unfold putArg
        rw [hpag]
        rfl
      rw [hput]
      have hheld : 1 ≤ held f + if ∃ j, j ∉ done ∧ page j = some f then 1 else 0 := by
        rw [if_pos ⟨i, hi, hpag⟩]
        omega
      rcases h.paged.putPage_spec (hmanaged i f hpag) hheld (h.empty i hi) (hcounted i) with
        ⟨-, hnone, hfull⟩ | ⟨t, m', hok, hp', htab, hent⟩
      · refine absurd hfull (h.room.resolve_left ?_)
        rintro ⟨d, t, hd, ht⟩
        have hdir : d = dirSlot (argAddress nr i) :=
          Fin.ext (hd.trans (posOf_argAddress hnr i).1.symm)
        rw [hdir, hnone] at ht
        cases ht
      · rw [hok]
        have hother : ∀ j, j ≠ i → posOf (argAddress nr j) ≠ posOf (argAddress nr i) := by
          intro j hne e
          have h₁ := (posOf_argAddress hnr j).2
          have h₂ := (posOf_argAddress hnr i).2
          rw [e, h₂] at h₁
          exact hne (Fin.ext (by omega))
        refine ⟨?_, fun j hj g hg => ?_, fun j hj => ?_, fun j g hg => ?_, fun j g hg => ?_, ?_⟩
        · refine (congrArg (fun held => Paged z counted held m') (funext fun q => ?_)).mp hp'
          rcases eq_or_ne q f with rfl | hne
          · rw [update_self, if_pos ⟨i, hi, hpag⟩, if_neg]
            · omega
            · rintro ⟨j, hj, hjq⟩
              exact ((hmem j).mp hj).2 (hinj j i q hjq hpag)
          · rw [update_of_ne hne]
            have hsame : (∃ j, j ∉ done ++ [i] ∧ page j = some q) ↔
                ∃ j, j ∉ done ∧ page j = some q := by
              refine exists_congr fun j => and_congr_left fun hj => ?_
              rw [hmem]
              refine and_iff_left fun e => hne ?_
              rw [e, hpag] at hj
              exact (Option.some.inj hj).symm
            simp only [hsame]
        · unfold Mem.page
          rw [hent]
          rcases eq_or_ne j i with rfl | hne
          · rw [update_self, Option.map_some, frame_entry (hmanaged j f hpag).lt_pages]
            exact hpag.symm.trans hg
          · rw [update_of_ne (hother j hne)]
            rcases List.mem_append.mp hj with hj | hj
            · exact h.mapped j hj g hg
            · exact absurd (List.mem_singleton.mp hj) hne
        · rw [hent, update_of_ne (hother j ((hmem j).mp hj).2)]
          exact h.empty j ((hmem j).mp hj).1
        · have hgt : g ≠ t := by
            rintro rfl
            rcases htab.origin with hold | ⟨-, -, h0⟩
            · exact h.not_table hcounted hmanaged hg _ hold
            · have := h.memMap j g hg
              omega
          have hlow := z.lowMem_le.trans (hmanaged j g hg).1
          rw [htab.phys g (Nat.le_trans (by decide) hlow) hgt]
          exact h.phys j g hg
        · have h1 := h.memMap j g hg
          rw [htab.memMap g (by omega)]
          exact h1
        · refine .inl ⟨dirSlot (argAddress nr i), t, (posOf_argAddress hnr i).1, ?_⟩
          rw [htab.tableOf]
          exact update_self ..

theorem Emptied.putPages (he : Emptied z counted (b.holders held) nr b.mem m')
    (hm : Paged z counted held m₀) (hb : Holds m₀ b) (hnr : nr < 64)
    (hcounted : ∀ x, taskOf x = nr → counted x = true) {i : Fin MAX_ARG_PAGES} {f : Nat}
    (hi : b.page i = some f) :
    (putPages m' b.page (nr * TASK_SIZE)).page (posOf (argAddress nr i)) = some f ∧
      (putPages m' b.page (nr * TASK_SIZE)).phys f = b.mem.phys f := by
  obtain ⟨htab, hent⟩ := hb.tables hm
  have hmanaged : ∀ i f, b.page i = some f → z.Managed f := by
    intro i f hf
    obtain ⟨hlow, h0⟩ := hb.free i f hf
    exact hm.managed_of_free hlow h0
  have hunused : ∀ i f, b.page i = some f → (∀ d, b.mem.tableOf d ≠ some f) ∧
      ∀ x, counted x = true → b.mem.page x ≠ some f := by
    intro i f hf
    obtain ⟨hnt, hnp, -⟩ := hm.unused (hmanaged i f hf) (hb.free i f hf).2
    rw [htab, page_of_ent hent]
    exact ⟨hnt, hnp⟩
  have htask : ∀ j, taskOf (posOf (argAddress nr j)) = nr := by
    intro j
    have := (posOf_argAddress hnr j).1
    show (posOf (argAddress nr j)).1.val / 16 = nr
    omega
  have hstart : Put z counted held b.page nr m' [] m' := by
    refine ⟨?_, fun j hj => absurd hj List.not_mem_nil, fun j _ => ?_, fun _ _ _ => rfl,
      fun j g hg => ?_, .inr he.free⟩
    · simp only [List.not_mem_nil, not_false_eq_true, true_and]
      exact he.paged
    · unfold Mem.ent
      rw [he.tableOf _ (htask j)]
      rfl
    · obtain ⟨hnt, hnp⟩ := hunused j g hg
      rw [he.memMap g hnt hnp]
      exact hb.held j g hg
  have hrun := Loops.foldl_inv (f := putArg b.page (nr * TASK_SIZE))
    (l := (List.finRange MAX_ARG_PAGES).reverse) (p := []) (s := m')
    (Put z counted held b.page nr m') hstart (by
      intro done j rest m hl h
      refine h.step hnr (fun j => hcounted _ (htask j)) hmanaged hb.inj ?_
      have hnodup := List.nodup_reverse.mpr (List.nodup_finRange MAX_ARG_PAGES)
      rw [show (List.finRange MAX_ARG_PAGES).reverse = done ++ j :: rest from hl] at hnodup
      exact fun hj => (List.nodup_append.mp hnodup).2.2 j hj j (List.mem_cons_self ..) rfl)
  refine ⟨hrun.mapped i (by simp) f hi, (hrun.phys i f hi).trans (he.phys f ?_ (hunused i f hi).1)⟩
  exact Nat.le_trans (by decide) (hb.free i f hi).1

/-- The task sees the bytes of the argument pages in the last 128 kB. -/
theorem seen_byte (fresh : Nat → Byte) (hnr : nr < 64)
    (hput : ∀ i f, b.page i = some f → m.page (posOf (argAddress nr i)) = some f ∧
      m.phys f = b.mem.phys f) {x : Nat} {v : Byte} (hx : area b x = some v) :
    (seen m (nr * TASK_SIZE) fresh).byte (DATA_LIMIT - MAX_ARG_PAGES * PAGE_SIZE + x) = v := by
  obtain ⟨i, f, hi, hf, rfl⟩ := area_some hx
  have hlt : i.val < 32 := i.isLt
  have hx : x < MAX_ARG_PAGES * PAGE_SIZE := by
    simp only [MAX_ARG_PAGES, PAGE_SIZE] at hi ⊢
    omega
  obtain ⟨hmap, hphys⟩ := hput i f hf
  have hpos : posOf (nr * TASK_SIZE + (DATA_LIMIT - MAX_ARG_PAGES * PAGE_SIZE + x))
      = posOf (argAddress nr i) := by
    obtain ⟨h₁, h₂⟩ := posOf_arg hnr hx
    obtain ⟨h₃, h₄⟩ := posOf_argAddress hnr i
    have hi : i.val = x / 4096 := hi
    refine Prod.ext (Fin.ext (h₁.trans h₃.symm)) (Fin.ext (h₂.trans ?_))
    rw [h₄, hi]
  have hoff : (DATA_LIMIT - MAX_ARG_PAGES * PAGE_SIZE + x) % PAGE_SIZE = x % PAGE_SIZE := by
    simp only [DATA_LIMIT, MAX_ARG_PAGES, PAGE_SIZE]
    omega
  unfold seen
  dsimp only
  rw [hpos, hmap]
  dsimp only
  unfold peek
  rw [hphys, hoff]

end Exec

end Linux011
