import Linux011.Exec
import Mathlib.Order.Interval.Finset.Nat

/-!
# Copying the arguments

`copy_strings` of `fs/exec.c` goes down from `p`, takes pages as it comes to them, and gives up
when there is no page left. What it does to a row of bytes is one of three outcomes: they are
copied, a page is missing, or `p` goes below 0 and `page[]` is used outside of its entries. The
test for the last case compares an unsigned number with 0.

The work is done one byte at a time. `Cur` is the invariant of the cursor, that the pages it has
taken were free and are different, and that the page of the byte it is in is there;
`copyByte_spec` gives the outcome for one byte, and the outcomes of a row are put together by
`Outcome.append`, where the first one that is not a copy decides. Which of the two failures comes
first is a matter of counting: `Short` compares the free frames with the pages that are still
lacking below `p`, and taking a page makes both smaller by one. The strings of a list are copied
from the last to the first, each from its last byte down, so that at the end they stand in the
argument pages in their order (`flat`), with their terminating zeros.
-/

namespace Linux011

open Function

namespace Exec

variable {m m₀ : Mem} {b b' : Block} {c c' c'' : Cursor} {segs : Fs → Segment}

/-! ## Bytes of frames -/

theorem peek_poke (m : Mem) (f o : Nat) (v : Byte) : peek (poke m f o v) f o = v := by
  unfold peek poke
  rw [write_phys_self, update_self, byteOf_setByte _ _ (Nat.mod_lt _ (by decide))]

theorem peek_poke_of_ne {f f' o o' : Nat} (v : Byte) (ho : o < 0x1000) (ho' : o' < 0x1000)
    (hne : f' ≠ f ∨ o' ≠ o) : peek (poke m f o v) f' o' = peek m f' o' := by
  unfold peek poke
  rcases eq_or_ne f' f with rfl | hf
  · have hoff : o' ≠ o := hne.resolve_left fun h => h rfl
    rw [write_phys_self]
    rcases eq_or_ne (wordSlot o') (wordSlot o) with hslot | hslot
    · have hval : o' % 0x1000 / 4 = o % 0x1000 / 4 := congrArg Fin.val hslot
      rw [hslot, update_self, byteOf_setByte_ne _ _ (Nat.mod_lt _ (by decide)) (by omega)]
    · rw [update_of_ne hslot]
  · rw [write_phys_of_ne hf]

/-- The byte at `x` of the argument pages. -/
def area (b : Block) (x : Nat) : Option Byte :=
  if h : x / PAGE_SIZE < MAX_ARG_PAGES then
    (b.page ⟨x / PAGE_SIZE, h⟩).map fun pag => peek b.mem pag (x % PAGE_SIZE)
  else none

theorem area_congr (hpage : b'.page = b.page) (hmem : b'.mem = b.mem) : area b' = area b := by
  unfold area
  rw [hpage, hmem]

/-! ## What a block has taken -/

/-- The pages of `b` were free in `m₀`, and nothing else has changed. -/
structure Holds (m₀ : Mem) (b : Block) : Prop where
  inj : ∀ i j f, b.page i = some f → b.page j = some f → i = j
  free : ∀ i f, b.page i = some f → LOW_MEM ≤ f ∧ m₀.memMap f = 0
  held : ∀ i f, b.page i = some f → b.mem.memMap f = 1
  memMap : ∀ q, (∀ i, b.page i ≠ some q) → b.mem.memMap q = m₀.memMap q
  phys : ∀ q, (∀ i, b.page i ≠ some q) → b.mem.phys q = m₀.phys q
  high : b.mem.HIGH_MEMORY = m₀.HIGH_MEMORY

theorem Holds.start (m : Mem) (fs : Fs) : Holds m ⟨m, fun _ => none, fs⟩ where
  inj _ _ _ h := nomatch h
  free _ _ h := nomatch h
  held _ _ h := nomatch h
  memMap _ _ := rfl
  phys _ _ := rfl
  high := rfl

theorem Holds.congr (h : Holds m₀ b) (hpage : b'.page = b.page) (hmem : b'.mem = b.mem) :
    Holds m₀ b' := by
  obtain ⟨mem, page, fs⟩ := b
  obtain ⟨mem', page', fs'⟩ := b'
  obtain rfl : page' = page := hpage
  obtain rfl : mem' = mem := hmem
  exact ⟨h.inj, h.free, h.held, h.memMap, h.phys, h.high⟩

theorem Holds.poke (h : Holds m₀ b) {i : Fin MAX_ARG_PAGES} {f : Nat} (hf : b.page i = some f)
    (o : Nat) (v : Byte) : Holds m₀ { b with mem := poke b.mem f o v } := by
  refine ⟨h.inj, h.free, h.held, h.memMap, fun q hq => ?_, h.high⟩
  have hne : q ≠ f := fun e => hq i (e ▸ hf)
  exact (write_phys_of_ne hne).trans (h.phys q hq)

/-- The free frames. -/
def freeFrames (m : Mem) : Finset Nat :=
  (Finset.Ico LOW_MEM (LOW_MEM + PAGING_PAGES)).filter fun q => m.memMap q = 0

/-- The pages below `p` that are not there. -/
def lacking (page : Fin MAX_ARG_PAGES → Option Nat) (p : Nat) : Finset (Fin MAX_ARG_PAGES) :=
  Finset.univ.filter fun i => i.val * PAGE_SIZE < p ∧ page i = none

/-- There are fewer free frames than pages that are lacking. -/
def Short (b : Block) (p : Word) : Prop :=
  (freeFrames b.mem).card < (lacking b.page p.toNat).card

theorem lastFree_none {n : Nat} (h : lastFree m n = none) :
    ∀ q, LOW_MEM ≤ q → q < LOW_MEM + n → m.memMap q ≠ 0 := by
  induction n with
  | zero => omega
  | succ n ih =>
      rw [lastFree] at h
      split at h
      · cases h
      · rename_i hlast
        intro q hlow hq
        rcases Nat.lt_succ_iff_lt_or_eq.mp (show q < LOW_MEM + n + 1 from hq) with hq | rfl
        · exact ih h q hlow hq
        · exact hlast

theorem freeFrames_none (h : getFreePage m = none) : freeFrames m = ∅ := by
  refine Finset.filter_eq_empty_iff.mpr fun q hq h0 => ?_
  obtain ⟨hlow, hlt⟩ := Finset.mem_Ico.mp hq
  exact lastFree_none (Option.map_eq_none_iff.mp h) q hlow hlt h0

theorem freeFrames_get {f : Nat} {m' : Mem} (h : getFreePage m = some (f, m')) :
    (freeFrames m').card + 1 = (freeFrames m).card := by
  obtain ⟨hlow, hlt, hfree, rfl⟩ := getFreePage_eq h
  have hmem : f ∈ freeFrames m :=
    Finset.mem_filter.mpr ⟨Finset.mem_Ico.mpr ⟨hlow, hlt⟩, hfree⟩
  have herase : freeFrames { m with phys := update m.phys f fun _ => 0
                                    memMap := update m.memMap f 1 } = (freeFrames m).erase f := by
    ext q
    simp only [freeFrames, Finset.mem_filter, Finset.mem_erase]
    rcases eq_or_ne q f with rfl | hne
    · simp
    · simp [hne]
  rw [herase, Finset.card_erase_add_one hmem]

/-- A page that is there is not lacking, and the bytes of a page are counted with its first. -/
theorem lacking_pred {page : Fin MAX_ARG_PAGES → Option Nat} {p : Nat} (hp : 0 < p)
    (hthere : ∀ i : Fin MAX_ARG_PAGES, i.val = (p - 1) / PAGE_SIZE → page i ≠ none) :
    lacking page (p - 1) = lacking page p := by
  ext i
  simp only [lacking, Finset.mem_filter, Finset.mem_univ, true_and]
  refine and_congr_left fun hnone => ?_
  have hne : i.val ≠ (p - 1) / 4096 := fun e => hthere i e hnone
  show i.val * 4096 < p - 1 ↔ i.val * 4096 < p
  omega

theorem lacking_take {page : Fin MAX_ARG_PAGES → Option Nat} {p f : Nat} {i : Fin MAX_ARG_PAGES}
    (hi : i.val * PAGE_SIZE < p) (hnone : page i = none) :
    (lacking (update page i (some f)) p).card + 1 = (lacking page p).card := by
  have hmem : i ∈ lacking page p := Finset.mem_filter.mpr ⟨Finset.mem_univ _, hi, hnone⟩
  have herase : lacking (update page i (some f)) p = (lacking page p).erase i := by
    ext j
    simp only [lacking, Finset.mem_filter, Finset.mem_univ, true_and, Finset.mem_erase]
    rcases eq_or_ne j i with rfl | hne
    · simp
    · simp [hne]
  rw [herase, Finset.card_erase_add_one hmem]

/-! ## One byte -/

/-- A cursor inside of the argument pages; between two bytes of a page it has the page. -/
structure Cur (m₀ : Mem) (c : Cursor) : Prop where
  block : Holds m₀ c.block
  bound : c.p.toNat < MAX_ARG_PAGES * PAGE_SIZE
  offset : c.offset = 0 ∨ ∃ i : Fin MAX_ARG_PAGES, i.val = c.p.toNat / PAGE_SIZE ∧
    c.block.page i = some c.pag ∧ c.offset = c.p.toNat % PAGE_SIZE ∧ 0 < c.offset

/-- From `c` to `c'` the bytes are copied. -/
structure Copied (m₀ : Mem) (c : Cursor) (bytes : List Byte) (c' : Cursor) : Prop where
  cur : Cur m₀ c'
  p : c'.p.toNat + bytes.length = c.p.toNat
  bytes : ∀ j (h : j < bytes.length), area c'.block (c'.p.toNat + j) = some bytes[j]
  kept : ∀ x v, c.p.toNat ≤ x → area c.block x = some v → area c'.block x = some v
  short : (lacking c'.block.page c'.p.toNat).card + (freeFrames c.block.mem).card
    = (lacking c.block.page c.p.toNat).card + (freeFrames c'.block.mem).card
  fs : c'.block.fs = c.block.fs

/-- The outcomes for a row of bytes. -/
inductive Outcome (m₀ : Mem) (c : Cursor) (old_fs : Fs) (bytes : List Byte) :
    Except Stop (Block ⊕ Cursor) → Prop where
  | done (c' : Cursor) (h : Copied m₀ c bytes c') : Outcome m₀ c old_fs bytes (.ok (.inr c'))
  | full (b : Block) (short : Short c.block c.p) (holds : Holds m₀ b) (fs : b.fs = old_fs) :
      Outcome m₀ c old_fs bytes (.ok (.inl b))
  | wild (short : ¬Short c.block c.p) (long : c.p.toNat < bytes.length) :
      Outcome m₀ c old_fs bytes (.error .wildIndex)

theorem Copied.refl (h : Cur m₀ c) : Copied m₀ c [] c :=
  ⟨h, rfl, fun j hj => absurd hj (Nat.not_lt_zero j), fun _ _ _ hx => hx, rfl, rfl⟩

theorem Copied.short_iff {bytes : List Byte} (h : Copied m₀ c bytes c') :
    Short c'.block c'.p ↔ Short c.block c.p := by
  have hsum := h.short
  unfold Short
  omega

/-- The bytes in front are copied after those behind. -/
theorem Copied.append {front back : List Byte} (h₁ : Copied m₀ c back c')
    (h₂ : Copied m₀ c' front c'') : Copied m₀ c (front ++ back) c'' := by
  have hp₁ := h₁.p
  have hp₂ := h₂.p
  refine ⟨h₂.cur, by rw [List.length_append]; omega, fun j hj => ?_, fun x v hx hv => ?_, ?_,
    h₂.fs.trans h₁.fs⟩
  · rw [List.length_append] at hj
    rcases Nat.lt_or_ge j front.length with hlt | hge
    · rw [List.getElem_append_left hlt]
      exact h₂.bytes j hlt
    · rw [List.getElem_append_right hge]
      refine h₂.kept _ _ (by omega) ?_
      have := h₁.bytes (j - front.length) (by omega)
      rwa [show c'.p.toNat + (j - front.length) = c''.p.toNat + j by omega] at this
  · exact h₂.kept x v (by omega) (h₁.kept x v hx hv)
  · have := h₁.short
    have := h₂.short
    omega

/-- The outcome of a second row, from where the first one has ended. -/
theorem Outcome.append {old_fs : Fs} {front back : List Byte} {r : Except Stop (Block ⊕ Cursor)}
    (h₁ : Copied m₀ c back c') (h₂ : Outcome m₀ c' old_fs front r) :
    Outcome m₀ c old_fs (front ++ back) r := by
  have hp := h₁.p
  cases h₂ with
  | done c'' h => exact .done c'' (h₁.append h)
  | full b short holds fs => exact .full b (h₁.short_iff.mp short) holds fs
  | wild short long =>
      refine .wild (fun hs => short (h₁.short_iff.mpr hs)) ?_
      rw [List.length_append]
      omega

/-- A row that does not come to its end ends a longer row in the same way. -/
theorem Outcome.stop {old_fs : Fs} {front back : List Byte} {r : Except Stop (Block ⊕ Cursor)}
    (h : Outcome m₀ c old_fs back r) (hr : ∀ c', r ≠ .ok (.inr c')) :
    Outcome m₀ c old_fs (front ++ back) r := by
  cases h with
  | done c' _ => exact absurd rfl (hr c')
  | full b short holds fs => exact .full b short holds fs
  | wild short long =>
      refine .wild short ?_
      rw [List.length_append]
      omega

theorem area_of_page {i : Fin MAX_ARG_PAGES} {x f : Nat} (hi : i.val = x / PAGE_SIZE)
    (hf : b.page i = some f) : area b x = some (peek b.mem f (x % PAGE_SIZE)) := by
  have hlt : x / PAGE_SIZE < MAX_ARG_PAGES := hi ▸ i.isLt
  have hi : (⟨x / PAGE_SIZE, hlt⟩ : Fin MAX_ARG_PAGES) = i := Fin.ext hi.symm
  rw [area, dif_pos hlt, hi, hf, Option.map_some]

theorem area_some {x : Nat} {v : Byte} (h : area b x = some v) :
    ∃ (i : Fin MAX_ARG_PAGES) (f : Nat), i.val = x / PAGE_SIZE ∧ b.page i = some f ∧
      v = peek b.mem f (x % PAGE_SIZE) := by
  unfold area at h
  split at h
  · rename_i hlt
    obtain ⟨f, hf, rfl⟩ := Option.map_eq_some_iff.mp h
    exact ⟨_, f, rfl, hf, rfl⟩
  · cases h

theorem area_poke (h : Holds m₀ b) {i : Fin MAX_ARG_PAGES} {x f : Nat}
    (hi : i.val = x / PAGE_SIZE) (hf : b.page i = some f) (v : Byte) :
    area { b with mem := poke b.mem f (x % PAGE_SIZE) v } x = some v ∧
      ∀ y w, y ≠ x → area b y = some w →
        area { b with mem := poke b.mem f (x % PAGE_SIZE) v } y = some w := by
  refine ⟨?_, fun y w hne hy => ?_⟩
  · rw [area_of_page (b := { b with mem := poke b.mem f (x % PAGE_SIZE) v }) hi hf, peek_poke]
  · obtain ⟨j, g, hj, hg, rfl⟩ := area_some hy
    rw [area_of_page (b := { b with mem := poke b.mem f (x % PAGE_SIZE) v }) hj hg]
    refine congrArg some
      (peek_poke_of_ne v (Nat.mod_lt _ (by decide)) (Nat.mod_lt _ (by decide)) ?_)
    by_contra hsame
    obtain ⟨hframe, hoff⟩ := not_or.mp hsame
    obtain rfl := h.inj j i f (not_not.mp hframe ▸ hg) hf
    have hsize : PAGE_SIZE = 4096 := rfl
    rw [hsize] at hi hj hoff
    omega

/-- A page is taken for an entry that has none. -/
theorem Holds.take (h : Holds m₀ b) {i : Fin MAX_ARG_PAGES} {f : Nat} (hnone : b.page i = none)
    (hg : getFreePage b.mem = some (f, m)) :
    Holds m₀ { b with mem := m, page := update b.page i (some f) } ∧
      ∀ x v, area b x = some v →
        area { b with mem := m, page := update b.page i (some f) } x = some v := by
  obtain ⟨hlow, -, hfree, rfl⟩ := getFreePage_eq hg
  have hnew : ∀ j, b.page j ≠ some f := fun j hj => by
    have := h.held j f hj
    omega
  have hcases : ∀ j g, update b.page i (some f) j = some g → j = i ∧ g = f ∨
      j ≠ i ∧ b.page j = some g := by
    intro j g hj
    rcases eq_or_ne j i with rfl | hne
    · rw [update_self] at hj
      exact .inl ⟨rfl, (Option.some.inj hj).symm⟩
    · rw [update_of_ne hne] at hj
      exact .inr ⟨hne, hj⟩
  have hkeep : ∀ q, (∀ j, update b.page i (some f) j ≠ some q) →
      q ≠ f ∧ ∀ j, b.page j ≠ some q := by
    refine fun q hq => ⟨fun e => hq i (by rw [update_self, e]), fun j hj => hq j ?_⟩
    have hne : j ≠ i := fun e => by rw [e, hnone] at hj; cases hj
    rwa [update_of_ne hne]
  refine ⟨⟨fun j k g hj hk => ?_, fun j g hj => ?_, fun j g hj => ?_, fun q hq => ?_,
    fun q hq => ?_, h.high⟩, fun x v hx => ?_⟩
  · rcases hcases j g hj with ⟨rfl, rfl⟩ | ⟨-, hold⟩
    · rcases hcases k g hk with ⟨rfl, -⟩ | ⟨-, hold⟩
      · rfl
      · exact absurd hold (hnew k)
    · rcases hcases k g hk with ⟨rfl, rfl⟩ | ⟨-, hold'⟩
      · exact absurd hold (hnew j)
      · exact h.inj j k g hold hold'
  · rcases hcases j g hj with ⟨rfl, rfl⟩ | ⟨-, hj⟩
    · refine ⟨hlow, ?_⟩
      rw [← h.memMap g hnew]
      exact hfree
    · exact h.free j g hj
  · show update b.mem.memMap f 1 g = 1
    rcases hcases j g hj with ⟨rfl, rfl⟩ | ⟨-, hj⟩
    · exact update_self ..
    · have hgf : g ≠ f := fun e => hnew j (e ▸ hj)
      rw [update_of_ne hgf]
      exact h.held j g hj
  · obtain ⟨hne, hq⟩ := hkeep q hq
    show update b.mem.memMap f 1 q = _
    rw [update_of_ne hne]
    exact h.memMap q hq
  · obtain ⟨hne, hq⟩ := hkeep q hq
    show update b.mem.phys f _ q = _
    rw [update_of_ne hne]
    exact h.phys q hq
  · obtain ⟨j, g, hj, hpage, rfl⟩ := area_some hx
    have hji : j ≠ i := fun e => by rw [e, hnone] at hpage; cases hpage
    have hgf : g ≠ f := fun e => hnew j (e ▸ hpage)
    rw [area_of_page (f := g) hj ((update_of_ne hji ..).trans hpage)]
    unfold peek
    show some (byteOf (update b.mem.phys f _ g _) _) = _
    rw [update_of_ne hgf]

/-- The cursor has the page of the byte that comes next. -/
structure Paging (m₀ : Mem) (c d : Cursor) (x : Nat) : Prop where
  holds : Holds m₀ d.block
  p : d.p = c.p - 1
  page : ∃ i : Fin MAX_ARG_PAGES, i.val = x / PAGE_SIZE ∧ d.block.page i = some d.pag
  offset : d.offset = x % PAGE_SIZE
  kept : ∀ y v, area c.block y = some v → area d.block y = some v
  short : (lacking d.block.page c.p.toNat).card + (freeFrames c.block.mem).card
    = (lacking c.block.page c.p.toNat).card + (freeFrames d.block.mem).card
  fs : d.block.fs = c.block.fs

/-- The value of `%fs` while bytes are copied. -/
def copyFs (from_kmem : Nat) (old_fs new_fs : Fs) : Fs := if from_kmem = 2 then new_fs else old_fs

variable {from_kmem tmp : Nat} {old_fs new_fs : Fs}

/-- The page of the byte below `p`, when `p` is not 0. -/
theorem nextPage_spec (h : Cur m₀ c) (hfs : c.block.fs = copyFs from_kmem old_fs new_fs)
    (hp : 0 < c.p.toNat) :
    (∃ b, nextPage from_kmem old_fs new_fs { c with p := c.p - 1 } = .ok (.inl b) ∧
        Short c.block c.p ∧ Holds m₀ b ∧ b.fs = old_fs) ∨
      ∃ d, nextPage from_kmem old_fs new_fs { c with p := c.p - 1 } = .ok (.inr d) ∧
        Paging m₀ c d (c.p.toNat - 1) := by
  have hbound : c.p.toNat < 131072 := h.bound
  have hpred : (c.p - 1).toNat = c.p.toNat - 1 := by bv_omega
  have hlt : (c.p.toNat - 1) / PAGE_SIZE < MAX_ARG_PAGES := by
    show (c.p.toNat - 1) / 4096 < 32
    omega
  unfold nextPage
  dsimp only
  split
  · -- the first byte of the call, or of a page
    generalize hb : setFs 2 from_kmem old_fs c.block = b
    have hpage : b.page = c.block.page := by rw [← hb, setFs_page]
    have hmem : b.mem = c.block.mem := by rw [← hb, setFs_mem]
    have hbfs : b.fs = old_fs := by
      rw [← hb, setFs_fs, hfs, copyFs]
      split <;> rfl
    have hholds : Holds m₀ b := h.block.congr hpage hmem
    have hnew : ∀ b' : Block, b'.fs = old_fs →
        (setFs 2 from_kmem new_fs b').fs = c.block.fs := by
      intro b' hb'
      rw [setFs_fs, hfs, copyFs, hb']
    rw [hpred]
    unfold argPage
    rw [dif_pos hlt]
    cases hpag : b.page ⟨(c.p.toNat - 1) / PAGE_SIZE, hlt⟩ with
    | some pag =>
        refine .inr ⟨_, rfl, hholds.congr (by simp) (by simp), rfl, ⟨⟨_, hlt⟩, rfl, by simpa⟩, rfl,
          fun y v hy => ?_, by simp [hpage, hmem], hnew b hbfs⟩
        rwa [area_congr (setFs_page ..) (setFs_mem ..), area_congr hpage hmem]
    | none =>
        cases hg : getFreePage b.mem with
        | none =>
            refine .inl ⟨b, rfl, ?_, hholds, hbfs⟩
            rw [Short, ← hmem, freeFrames_none hg, Finset.card_empty, Finset.card_pos]
            refine ⟨⟨_, hlt⟩, Finset.mem_filter.mpr ⟨Finset.mem_univ _, ?_, hpage ▸ hpag⟩⟩
            show (c.p.toNat - 1) / 4096 * 4096 < c.p.toNat
            omega
        | some r =>
            obtain ⟨f, m⟩ := r
            obtain ⟨htake, hkept⟩ := hholds.take hpag hg
            have hfree := freeFrames_get hg
            have hlack := lacking_take (f := f) (p := c.p.toNat) (i := ⟨_, hlt⟩) (by
              show (c.p.toNat - 1) / 4096 * 4096 < c.p.toNat
              omega) hpag
            refine .inr ⟨_, rfl, htake.congr (by simp) (by simp), rfl, ⟨⟨_, hlt⟩, rfl, by simp⟩,
              rfl, fun y v hy => ?_, ?_, hnew _ hbfs⟩
            · rw [area_congr (setFs_page ..) (setFs_mem ..)]
              exact hkept y v (by rwa [area_congr hpage hmem])
            · simp only [setFs_page, setFs_mem]
              rw [← hpage, ← hmem]
              omega
  · -- the page of the byte before
    rename_i hoff
    rcases h.offset with h0 | ⟨i, hi, hpag, ho, hpos⟩
    · omega
    · have hi : i.val = c.p.toNat / 4096 := hi
      have ho : c.offset = (c.p.toNat % 4096 : Nat) := ho
      refine .inr ⟨_, rfl, h.block, rfl, ⟨i, ?_, hpag⟩, ?_, fun _ _ hy => hy, rfl, rfl⟩
      · show i.val = (c.p.toNat - 1) / 4096
        omega
      · show c.offset - 1 = ((c.p.toNat - 1) % 4096 : Nat)
        omega

variable {v : Byte}

theorem copyByte_spec (h : Cur m₀ c) (hfs : c.block.fs = copyFs from_kmem old_fs new_fs)
    (hget : (segs c.block.fs).get tmp = some v) :
    Outcome m₀ c old_fs [v] (copyByte segs from_kmem old_fs new_fs tmp c) := by
  have hbound : c.p.toNat < 131072 := h.bound
  rcases Nat.eq_zero_or_pos c.p.toNat with hzero | hpos
  · -- `p` goes below 0
    have hoff : c.offset = 0 := by
      rcases h.offset with h0 | ⟨i, -, -, ho, hpos⟩
      · exact h0
      · rw [hzero] at ho
        have ho : c.offset = ((0 : Nat) : Int) % (4096 : Nat) := ho
        omega
    have hp : c.p = 0 := BitVec.eq_of_toNat_eq hzero
    have hnone : lacking c.block.page 0 = ∅ :=
      Finset.filter_eq_empty_iff.mpr fun i _ ⟨hlt, _⟩ => absurd hlt (Nat.not_lt_zero _)
    have hwild : nextPage from_kmem old_fs new_fs { c with p := c.p - 1 }
        = .error .wildIndex := by
      unfold nextPage argPage
      dsimp only
      rw [hoff, hp, if_pos (by decide), dif_neg (by decide)]
      rfl
    unfold copyByte
    rw [hwild]
    refine .wild ?_ (by rw [hzero]; exact Nat.one_pos)
    rw [Short, hzero, hnone]
    exact Nat.not_lt_zero _
  · rcases nextPage_spec h hfs hpos with ⟨b, hb, hshort, hholds, hbfs⟩ | ⟨d, hd, hpag⟩
    · unfold copyByte
      rw [hb]
      exact .full b hshort hholds hbfs
    · have hpred : (c.p - 1).toNat = c.p.toNat - 1 := by bv_omega
      obtain ⟨i, hi, hf⟩ := hpag.page
      have hlack : lacking d.block.page (c.p.toNat - 1) = lacking d.block.page c.p.toNat :=
        lacking_pred hpos fun j hj hnone => by
          rw [Fin.ext (hj.trans hi.symm), hf] at hnone
          cases hnone
      have hoff : d.offset.toNat = (c.p.toNat - 1) % PAGE_SIZE := by
        rw [hpag.offset]
        rfl
      have hget : (segs d.block.fs).get tmp = some v := hpag.fs ▸ hget
      unfold copyByte
      rw [hd]
      dsimp only [bind, Except.bind]
      rw [hget]
      refine .done _ ?_
      obtain ⟨hself, hother⟩ := area_poke hpag.holds hi hf v
      rw [hoff, hpag.p]
      refine ⟨⟨hpag.holds.poke hf _ v, ?_, ?_⟩, ?_, fun j hj => ?_, fun x w hx hw => ?_, ?_,
        hpag.fs⟩
      · show (c.p - 1).toNat < 131072
        omega
      · show d.offset = 0 ∨ _
        rcases Int.lt_or_le 0 d.offset with hlt | hle
        · refine .inr ⟨i, ?_, hf, ?_, hlt⟩
          · show i.val = (c.p - 1).toNat / PAGE_SIZE
            rw [hpred, hi]
          · show d.offset = ((c.p - 1).toNat : Int) % PAGE_SIZE
            rw [hpred, hpag.offset]
        · refine .inl ?_
          rw [hpag.offset] at hle ⊢
          omega
      · show (c.p - 1).toNat + 1 = c.p.toNat
        omega
      · obtain rfl : j = 0 := by
          have : j < 1 := hj
          omega
        show area _ ((c.p - 1).toNat + 0) = some v
        rw [hpred]
        exact hself
      · exact hother x w (by omega) (hpag.kept x w hw)
      · show (lacking d.block.page (c.p - 1).toNat).card + _ = _ + (freeFrames (poke ..)).card
        rw [hpred, hlack]
        exact hpag.short

theorem copyBytes_spec {byte : Nat → Byte} {len : Nat} (h : Cur m₀ c)
    (hfs : c.block.fs = copyFs from_kmem old_fs new_fs)
    (hget : ∀ j < len, (segs c.block.fs).get (tmp + j) = some (byte j)) :
    Outcome m₀ c old_fs ((List.range len).map byte)
      (copyBytes segs from_kmem old_fs new_fs tmp len c) := by
  induction len generalizing c with
  | zero => exact .done c (.refl h)
  | succ len ih =>
      have hbyte := copyByte_spec h hfs (hget len (Nat.lt_succ_self len))
      rw [List.range_succ, List.map_append]
      unfold copyBytes
      generalize copyByte segs from_kmem old_fs new_fs (tmp + len) c = r at hbyte
      cases hbyte with
      | full b short holds fs => exact (Outcome.full b short holds fs).stop fun _ e => nomatch e
      | wild short long => exact (Outcome.wild short long).stop fun _ e => nomatch e
      | done c' hc =>
          refine .append hc (ih hc.cur (hc.fs.trans hfs) fun j hj => ?_)
          rw [hc.fs]
          exact hget j (Nat.lt_succ_of_lt hj)

/-! ## Strings -/

/-- A string with its terminating 0 in a segment. -/
structure StringAt (s : Segment) (a : Nat) (bytes : List Byte) : Prop where
  get : ∀ j (h : j < bytes.length), s.get (a + j) = some bytes[j]
  nonzero : ∀ c ∈ bytes, c ≠ 0
  nul : s.get (a + bytes.length) = some 0

theorem Segment.get_lt {s : Segment} {a : Nat} (h : s.get a = some v) : a < s.limit := by
  unfold Segment.get at h
  split at h
  · assumption
  · cases h

theorem StringAt.lenWithin {s : Segment} {a n : Nat} {bytes : List Byte} (h : StringAt s a bytes)
    (hn : bytes.length < n) : s.lenWithin n a = some (bytes.length + 1) := by
  induction bytes generalizing a n with
  | nil =>
      obtain ⟨n, rfl⟩ := Nat.exists_eq_succ_of_ne_zero (Nat.ne_of_gt hn)
      have hnul : s.get a = some 0 := h.nul
      unfold Segment.lenWithin
      rw [hnul]
      rfl
  | cons c bytes ih =>
      obtain ⟨n, rfl⟩ := Nat.exists_eq_succ_of_ne_zero (Nat.ne_zero_of_lt hn)
      have hfirst : s.get a = some c := h.get 0 (Nat.zero_lt_succ _)
      have htail : StringAt s (a + 1) bytes := by
        refine ⟨fun j hj => ?_, fun x hx => h.nonzero x (List.mem_cons_of_mem _ hx), ?_⟩
        · rw [Nat.add_assoc, Nat.add_comm 1]
          exact h.get (j + 1) (Nat.succ_lt_succ hj)
        · rw [Nat.add_assoc, Nat.add_comm 1]
          exact h.nul
      unfold Segment.lenWithin
      rw [hfirst, Option.bind_some, if_neg (h.nonzero c (List.mem_cons_self ..)),
        ih htail (Nat.lt_of_succ_lt_succ hn)]
      rfl

theorem StringAt.get_all {s : Segment} {a : Nat} {bytes : List Byte} (h : StringAt s a bytes) :
    ∀ j < bytes.length + 1, s.get (a + j) = some ((bytes ++ [0]).getD j 0) := by
  intro j hj
  rcases Nat.lt_succ_iff_lt_or_eq.mp hj with hlt | rfl
  · rw [h.get j hlt, List.getD_append _ _ _ _ hlt, List.getD_eq_getElem _ _ hlt]
  · rw [h.nul, List.getD_append_right _ _ _ _ (Nat.le_refl _), Nat.sub_self]
    rfl

theorem StringAt.len {s : Segment} {a : Nat} {bytes : List Byte} (h : StringAt s a bytes) :
    s.len a = some (bytes.length + 1) := by
  have hlt := Segment.get_lt h.nul
  exact h.lenWithin (by omega)

/-- The strings of a list with their terminating zeros, one after the other. -/
def flat (strs : List (List Byte)) : List Byte := strs.flatMap fun s => s ++ [0]

theorem flat_append (l l' : List (List Byte)) : flat (l ++ l') = flat l ++ flat l' :=
  List.flatMap_append

/-- The strings that `argv` leads to, in the way that `from_kmem` says. -/
def Strings (segs : Fs → Segment) (argv : Argv) (from_kmem : Nat) (strs : List (List Byte)) :
    Prop :=
  ∀ i (h : i < strs.length), ∃ s : Word,
    getArg segs (if from_kmem = 1 then .kernel else copyFs from_kmem .user .kernel) argv i
      = some s ∧ s ≠ 0 ∧ StringAt (segs (copyFs from_kmem .user .kernel)) s.toNat strs[i]

theorem map_getD_range (l : List Byte) : (List.range l.length).map (fun j => l.getD j 0) = l := by
  refine List.ext_getElem (by simp) fun j hj hj' => ?_
  rw [List.getElem_map, List.getElem_range, List.getD_eq_getElem _ _ hj']

/-- `while (argc-- > 0)`: the strings are copied from the last one on. -/
theorem copyArgs_spec {argv : Argv} {strs : List (List Byte)} {argc : Nat} (h : Cur m₀ c)
    (hfs : c.block.fs = copyFs from_kmem .user .kernel) (hstrs : Strings segs argv from_kmem strs)
    (hargc : argc ≤ strs.length) :
    Outcome m₀ c .user (flat (strs.take argc))
      (copyArgs segs argv from_kmem .user .kernel argc c) := by
  induction argc generalizing c with
  | zero => exact .done c (.refl h)
  | succ argc ih =>
      obtain ⟨s, hptr, hs0, hstr⟩ := hstrs argc hargc
      have hptrFs : (setFs 1 from_kmem .kernel c.block).fs
          = if from_kmem = 1 then .kernel else copyFs from_kmem .user .kernel := by
        rw [setFs_fs, hfs]
      have hback : setFs 1 from_kmem .user (setFs 1 from_kmem .kernel c.block) = c.block := by
        unfold setFs
        split
        · rename_i hk
          rw [hk] at hfs
          have hfs : c.block.fs = .user := hfs
          rw [← hfs]
        · rfl
      have htest : ∀ len : Nat, ¬c.p - BitVec.ofNat 32 len < 0 := fun len hlt =>
        absurd (BitVec.lt_def.mp hlt) (Nat.not_lt_zero _)
      have hbytes := copyBytes_spec h hfs (hfs.symm ▸ hstr.get_all)
      have hlen : (strs[argc] ++ [(0 : Byte)]).length = strs[argc].length + 1 := by simp
      rw [← hlen, map_getD_range, hlen] at hbytes
      have hflat : flat (strs.take (argc + 1)) = flat (strs.take argc) ++ (strs[argc] ++ [0]) := by
        rw [List.take_succ_eq_append_getElem hargc, flat_append]
        simp [flat]
      rw [hflat]
      unfold copyArgs
      dsimp only
      rw [hptrFs, hptr]
      dsimp only
      rw [if_neg hs0, hback, hfs, hstr.len]
      dsimp only
      rw [if_neg (htest _)]
      generalize copyBytes segs from_kmem .user .kernel s.toNat (strs[argc].length + 1) c = r
        at hbytes
      cases hbytes with
      | full b short holds fs => exact (Outcome.full b short holds fs).stop fun _ e => nomatch e
      | wild short long => exact (Outcome.wild short long).stop fun _ e => nomatch e
      | done c' hc => exact .append hc (ih hc.cur (hc.fs.trans hfs) (Nat.le_of_succ_le hargc))

/-! ## A call -/

variable {p p' : Word}

/-- The bytes are in the argument pages from `p'` up to `p`. -/
structure Placed (m₀ : Mem) (b : Block) (p : Word) (bytes : List Byte) (b' : Block) (p' : Word) :
    Prop where
  holds : Holds m₀ b'
  length : p'.toNat + bytes.length = p.toNat
  bytes : ∀ j (h : j < bytes.length), area b' (p'.toNat + j) = some bytes[j]
  kept : ∀ x v, p.toNat ≤ x → area b x = some v → area b' x = some v
  fs : b'.fs = .user

/-- What `copy_strings` can come to when `p` is not 0. -/
inductive Result (m₀ : Mem) (b : Block) (p : Word) (bytes : List Byte) :
    Except Stop (Word × Block) → Prop where
  | placed (p' : Word) (b' : Block) (h : Placed m₀ b p bytes b' p') :
      Result m₀ b p bytes (.ok (p', b'))
  | full (b' : Block) (short : Short b p) (holds : Holds m₀ b') (fs : b'.fs = .user) :
      Result m₀ b p bytes (.ok (0, b'))
  | wild (short : ¬Short b p) (long : p.toNat < bytes.length) :
      Result m₀ b p bytes (.error .wildIndex)

theorem copyStrings_result {argc : Int} {argv : Argv} {strs : List (List Byte)}
    (h : Holds m₀ b) (hfs : b.fs = .user) (hbound : p.toNat < MAX_ARG_PAGES * PAGE_SIZE)
    (hstrs : Strings segs argv from_kmem strs) (hargc : argc.toNat = strs.length) (hp : p ≠ 0) :
    Result m₀ b p (flat strs) (copyStrings segs argc argv b p from_kmem) := by
  have hcur : Cur m₀ ⟨setFs 2 from_kmem .kernel b, p, 0, 0⟩ :=
    ⟨h.congr (setFs_page ..) (setFs_mem ..), hbound, .inl rfl⟩
  have hout := copyArgs_spec hcur (by rw [setFs_fs, hfs]; rfl) hstrs (Nat.le_refl _)
  rw [List.take_length] at hout
  unfold copyStrings
  rw [if_neg hp, hfs, hargc]
  dsimp only
  generalize copyArgs segs argv from_kmem .user .kernel strs.length
    ⟨setFs 2 from_kmem .kernel b, p, 0, 0⟩ = r at hout
  have hshort : Short (setFs 2 from_kmem .kernel b) p ↔ Short b p := by
    unfold Short
    rw [setFs_page, setFs_mem]
  cases hout with
  | full b' short holds fs => exact .full b' (hshort.mp short) holds fs
  | wild short long => exact .wild (fun hs => short (hshort.mpr hs)) long
  | done c' hc =>
      refine .placed c'.p _ ⟨hc.cur.block.congr (setFs_page ..) (setFs_mem ..), hc.p,
        fun j hj => ?_, fun x v hx hv => ?_, ?_⟩
      · rw [area_congr (setFs_page ..) (setFs_mem ..)]
        exact hc.bytes j hj
      · rw [area_congr (setFs_page ..) (setFs_mem ..)]
        refine hc.kept x v hx ?_
        rwa [area_congr (setFs_page ..) (setFs_mem ..)]
      · rw [setFs_fs, hc.fs, setFs_fs, hfs]
        split <;> rfl

/-- All strings are copied, or 0 is returned. -/
def Returns (m₀ : Mem) (b : Block) (p : Word) (bytes : List Byte)
    (r : Except Stop (Word × Block)) : Prop :=
  ∃ p' b', r = .ok (p', b') ∧ (Placed m₀ b p bytes b' p' ∨ p' = 0 ∧ Holds m₀ b' ∧ b'.fs = .user)

/-- A call returns exactly if the bytes fit below `p`, or a page is missing before. -/
theorem copyStrings_returns {argc : Int} {argv : Argv} {strs : List (List Byte)}
    (h : Holds m₀ b) (hfs : b.fs = .user) (hbound : p.toNat < MAX_ARG_PAGES * PAGE_SIZE)
    (hstrs : Strings segs argv from_kmem strs) (hargc : argc.toNat = strs.length) :
    Returns m₀ b p (flat strs) (copyStrings segs argc argv b p from_kmem) ↔
      p = 0 ∨ (flat strs).length ≤ p.toNat ∨ Short b p := by
  by_cases hp : p = 0
  · refine ⟨fun _ => .inl hp, fun _ => ⟨0, b, ?_, .inr ⟨rfl, h, hfs⟩⟩⟩
    unfold copyStrings
    rw [if_pos hp]
    rfl
  · have hresult := copyStrings_result h hfs hbound hstrs hargc hp
    generalize copyStrings segs argc argv b p from_kmem = r at hresult
    cases hresult with
    | placed p' b' hplaced =>
        have hlen := hplaced.length
        exact ⟨fun _ => .inr (.inl (by omega)), fun _ => ⟨p', b', rfl, .inl hplaced⟩⟩
    | full b' short holds fs =>
        exact ⟨fun _ => .inr (.inr short), fun _ => ⟨0, b', rfl, .inr ⟨rfl, holds, fs⟩⟩⟩
    | wild short long =>
        refine ⟨fun ⟨_, _, hr, _⟩ => (nomatch hr), fun hcond => ?_⟩
        rcases hcond with h0 | hle | hs
        · exact absurd h0 hp
        · omega
        · exact absurd hs short

/-- What is known after a call that has returned. -/
theorem copyStrings_ok {argc : Int} {argv : Argv} {strs : List (List Byte)} {p' : Word}
    (h : Holds m₀ b) (hfs : b.fs = .user) (hbound : p.toNat < MAX_ARG_PAGES * PAGE_SIZE)
    (hstrs : Strings segs argv from_kmem strs) (hargc : argc.toNat = strs.length)
    (hr : copyStrings segs argc argv b p from_kmem = .ok (p', b')) :
    Holds m₀ b' ∧ b'.fs = .user ∧ p'.toNat < MAX_ARG_PAGES * PAGE_SIZE ∧
      (p' ≠ 0 → p ≠ 0 ∧ Placed m₀ b p (flat strs) b' p') := by
  by_cases hp : p = 0
  · unfold copyStrings at hr
    rw [if_pos hp] at hr
    obtain ⟨rfl, rfl⟩ := Prod.mk.inj (Except.ok.inj hr)
    exact ⟨h, hfs, by decide, fun h0 => absurd rfl h0⟩
  · have hresult := copyStrings_result h hfs hbound hstrs hargc hp
    rw [hr] at hresult
    cases hresult with
    | placed _ _ hplaced =>
        have hlen := hplaced.length
        exact ⟨hplaced.holds, hplaced.fs, by omega, fun _ => ⟨hp, hplaced⟩⟩
    | full _ short holds fs => exact ⟨holds, fs, by decide, fun h0 => absurd rfl h0⟩

/-! ## Lists of strings in user memory -/

/-- A list of pointers, with a null pointer behind, and the strings they lead to; the list of a
null pointer is empty. -/
structure ListAt (s : Segment) (argv : Nat) (strs : List (List Byte)) : Prop where
  strings : ∀ i (h : i < strs.length), ∃ v : Word, s.long (argv + 4 * i) = some v ∧ v ≠ 0 ∧
    StringAt s v.toNat strs[i]
  last : argv ≠ 0 → s.long (argv + 4 * strs.length) = some 0
  null : argv = 0 → strs = []

theorem countWithin_spec {s : Segment} {argv n k : Nat}
    (hptr : ∀ i < k, ∃ v : Word, s.long (argv + 4 * i) = some v ∧ v ≠ 0)
    (hlast : s.long (argv + 4 * k) = some 0) (hn : k < n) : s.countWithin n argv = some k := by
  induction k generalizing argv n with
  | zero =>
      obtain ⟨n, rfl⟩ := Nat.exists_eq_succ_of_ne_zero (Nat.ne_of_gt hn)
      have hlast : s.long argv = some 0 := hlast
      unfold Segment.countWithin
      rw [hlast]
      rfl
  | succ k ih =>
      obtain ⟨n, rfl⟩ := Nat.exists_eq_succ_of_ne_zero (Nat.ne_of_gt (Nat.lt_trans k.succ_pos hn))
      obtain ⟨v, hv, hne⟩ := hptr 0 k.succ_pos
      have hv : s.long argv = some v := hv
      have hptr' : ∀ i < k, ∃ v : Word, s.long (argv + 4 + 4 * i) = some v ∧ v ≠ 0 := by
        intro i hi
        have := hptr (i + 1) (Nat.succ_lt_succ hi)
        rwa [show argv + 4 * (i + 1) = argv + 4 + 4 * i by omega] at this
      have hrest := ih hptr'
        (by rwa [show argv + 4 * (k + 1) = argv + 4 + 4 * k by omega] at hlast)
        (Nat.lt_of_succ_lt_succ hn)
      unfold Segment.countWithin
      rw [hv, Option.bind_some, if_neg hne, hrest]
      rfl

theorem ListAt.count {s : Segment} {argv : Nat} {strs : List (List Byte)}
    (h : ListAt s argv strs) : s.count argv = some strs.length := by
  unfold Segment.count
  split
  · rename_i h0
    rw [h.null h0]
    rfl
  · rename_i hne
    refine countWithin_spec (fun i hi => ?_) (h.last hne) ?_
    · obtain ⟨v, hv, hv0, -⟩ := h.strings i hi
      exact ⟨v, hv, hv0⟩
    · have hlast := h.last hne
      unfold Segment.long at hlast
      split at hlast
      · omega
      · cases hlast

theorem ListAt.copied {argv : Nat} {strs : List (List Byte)} (h : ListAt (segs .user) argv strs) :
    Strings segs (.user argv) 0 strs := by
  intro i hi
  obtain ⟨v, hv, hv0, hstr⟩ := h.strings i hi
  exact ⟨v, hv, hv0, hstr⟩

/-- The list without its first string, as it is copied for a script. -/
theorem ListAt.copied_tail {argv : Nat} {strs : List (List Byte)}
    (h : ListAt (segs .user) argv strs) : Strings segs (.user (argv + 4)) 0 strs.tail := by
  intro i hi
  rw [List.length_tail] at hi
  obtain ⟨v, hv, hv0, hstr⟩ := h.strings (i + 1) (by omega)
  refine ⟨v, ?_, hv0, ?_⟩
  · rw [show argv + 4 * (i + 1) = argv + 4 + 4 * i by omega] at hv
    exact hv
  · rw [List.getElem_tail]
    exact hstr

/-- One string whose address is in a variable of `do_execve`. -/
theorem strings_kernel {s : Nat} {str : List Byte} (hk : from_kmem = 1 ∨ from_kmem = 2)
    (h0 : s ≠ 0) (hlt : s < 0x100000000)
    (hstr : StringAt (segs (copyFs from_kmem .user .kernel)) s str) :
    Strings segs (.kernel s) from_kmem [str] := by
  intro i hi
  obtain rfl : i = 0 := by
    have : i < 1 := hi
    omega
  have hnat : (BitVec.ofNat 32 s).toNat = s := by
    rw [BitVec.toNat_ofNat]
    exact Nat.mod_eq_of_lt hlt
  refine ⟨BitVec.ofNat 32 s, ?_, fun e => h0 ?_, ?_⟩
  · rcases hk with rfl | rfl <;> rfl
  · rw [← hnat, e]
    rfl
  · rw [hnat]
    exact hstr

end Exec

end Linux011
