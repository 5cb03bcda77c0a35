import Linux011.Loops
import Linux011.PageLedger

/-!
# Freeing, copying and filling page tables

What `free_page_tables` and `copy_page_tables` leave in the page tables, and that
they keep the books of the page allocator; then the functions that fill a single
entry: `put_page`, `un_wp_page` and `try_to_share`.

Each loop of the source has its effect stated as a structure, `Freed` and
`Copied` for the directory entries that were worked on and `Round` for one
round, which says for every entry, every page table and every count what it is
afterwards; the proof goes over the list of directory entries that the loop
visits and puts the effect of one round in front of that of the rest. The same
lemma carries `Paged` along, since a loop may only be entered when what it frees
is counted (`Freeable`), or when what it copies fits (`CanCopy`). The functions
for a single entry have their cases listed instead: `UnWp`, `Filled` and
`Shared` say what `un_wp_page`, `get_empty_page` and `try_to_share` have done
when they succeed, and the lemmas that they have changed nothing when they do
not.
-/

namespace Linux011

open Function RefCount Tally

variable {z : Zone} {counted counted' : Pos → Bool} {held held' : Nat → Nat} {m m' : Mem}

/-! ## free_page_tables -/

/-- The entries of a directory entry may be freed: what they name is counted. -/
def Freeable (counted : Pos → Bool) (m : Mem) (d : Slot) : Prop :=
  4 ≤ d.val ∧ ∀ i e, m.ent (d, i) = some e → LOW_MEM ≤ frame e → counted (d, i) = true

theorem ent_eq_some {x : Pos} {t : Nat} (ht : m.tableOf x.1 = some t) {e : Word} :
    m.ent x = some e ↔ Present e ∧ m.phys t x.2 = e := by
  unfold Mem.ent
  rw [ht, Option.bind_some]
  split
  · rename_i hp
    rw [Option.some.injEq]
    exact ⟨fun h => ⟨h ▸ hp, h⟩, fun h => h.2⟩
  · rename_i hp
    exact ⟨fun h => (by cases h), fun ⟨h₁, h₂⟩ => absurd (h₂ ▸ h₁) hp⟩

theorem ent_eq_none {x : Pos} {t : Nat} (ht : m.tableOf x.1 = some t) :
    m.ent x = none ↔ ¬Present (m.phys t x.2) := by
  unfold Mem.ent
  rw [ht, Option.bind_some]
  split
  · rename_i hp
    simp [hp]
  · rename_i hp
    simp [hp]

theorem Paged.counted_ent (h : Paged z counted held m) {x : Pos} {e : Word}
    (hx : Freeable counted m x.1) (he : m.ent x = some e) : Counted z m (frame e) := by
  rcases Nat.lt_or_ge (frame e) LOW_MEM with hlow | hlow
  · exact Or.inl hlow
  · have hm : z.Managed (frame e) := (h.ent_ok x e (Or.inl hx.1) he).resolve_left (by omega)
    have hr : m.ref counted (.inr x) = some (frame e) := by
      simp [Mem.ref, hx.2 x.2 e he hlow, Mem.page, he]
    exact Or.inr ⟨hm, h.balanced.pos_of_ref hm hr⟩

theorem Paged.freeEntry_spec (h : Paged z counted held m) {x : Pos} {t : Nat}
    (ht : m.tableOf x.1 = some t) (hx : Freeable counted m x.1) :
    ∃ m', freeEntry t m x.2 = .ok m' ∧ Paged z counted held m' ∧
      m'.tableOf = m.tableOf ∧ m'.ent = update m.ent x none ∧
      (∀ q, q ≠ t → m'.phys q = m.phys q) ∧
      ∀ q, m.page x ≠ some q → m'.memMap q = m.memMap q := by
  have hcounted : update counted x (counted x) = counted := update_eq_self x counted
  have hzero : presentEntry (0 : Word) = none := rfl
  have hok : Ordinary x → Present (0 : Word) →
      frame (0 : Word) < LOW_MEM ∨ z.Managed (frame (0 : Word)) :=
    fun _ h0 => absurd h0 not_present_zero
  cases he : m.ent x with
  | none =>
      have hnp := (ent_eq_none ht).mp he
      refine ⟨m.write t x.2 0, by rw [freeEntry, if_neg hnp]; rfl, ?_,
        h.write_tableOf ht x.2 0, (h.write_ent ht 0).trans (by rw [hzero]),
        fun q hq => write_phys_of_ne hq, fun _ _ => rfl⟩
      rw [← hcounted]
      refine h.setEnt ht (counted x) rfl rfl h.cells hok fun p _ => ?_
      rw [hzero]
      simp [Mem.ref, Mem.page, he]
  | some e =>
      obtain ⟨hpres, hphys⟩ := (ent_eq_some ht).mp he
      have hc := h.counted_ent hx he
      have hw : ((uncount m (frame e)).write t x.2 0).phys = (m.write t x.2 0).phys := by
        simp [Mem.write]
      refine ⟨(uncount m (frame e)).write t x.2 0,
        by rw [freeEntry, hphys, if_pos hpres, h.freePage_spec hc]; rfl, ?_,
        (tableOf_of_phys hw).trans (h.write_tableOf ht x.2 0),
        ((ent_of_phys hw).trans (h.write_ent ht 0)).trans (by rw [hzero]),
        fun q hq => by rw [hw, write_phys_of_ne hq], fun q hq => uncount_memMap_of_ne fun e => ?_⟩
      swap
      · exact hq (by rw [Mem.page, he, e]; rfl)
      rw [← hcounted]
      refine h.setEnt ht (counted x) hw (uncount_HIGH_MEMORY m _) (h.uncount_cells hc) hok
        fun p hp => ?_
      -- an entry above the first megabyte is counted, and the others are not managed
      have hr : names p (m.ref counted (.inr x)) = names p (some (frame e)) := by
        rcases Nat.lt_or_ge (frame e) LOW_MEM with hlow | hlow
        · have hne : frame e ≠ p := by
            have := hp.1
            have := z.lowMem_le
            omega
          rcases hb : counted x with _ | _ <;>
            simp [Mem.ref, Mem.page, he, hb, names_some, hne]
        · simp [Mem.ref, hx.2 x.2 e he hlow, Mem.page, he]
      have := h.uncount_memMap hc hp
      rw [write_memMap, hr, hzero, Option.map_none, ite_self, names_none]
      omega

theorem Paged.freeDir_spec (h : Paged z counted held m) {d : Slot} (hd : Freeable counted m d) :
    ∃ m', freeDir m d = .ok m' ∧ Paged z counted held m' ∧
      m'.tableOf = update m.tableOf d none ∧
      (∀ x, m'.ent x = if x.1 = d then none else m.ent x) ∧
      (∀ q, 1 ≤ q → m.tableOf d ≠ some q → m'.phys q = m.phys q) ∧
      ∀ q, m.tableOf d ≠ some q → (∀ i, m.page (d, i) ≠ some q) → m'.memMap q = m.memMap q := by
  unfold freeDir
  split
  · rename_i hpres
    have ht : m.tableOf d = some (m.table d) := if_pos hpres
    obtain ⟨m₁, hm₁, hp₁, ht₁, he₁, hq₁, hmap₁⟩ := Loops.foldlM_ok
      (f := freeEntry (m.table d)) (l := List.finRange 1024) (p := []) (s := m)
      (fun done m' => Paged z counted held m' ∧ m'.tableOf = m.tableOf ∧
        (∀ x, m'.ent x = if x.1 = d ∧ x.2 ∈ done then none else m.ent x) ∧
        (∀ q, q ≠ m.table d → m'.phys q = m.phys q) ∧
        ∀ q, (∀ i, m.page (d, i) ≠ some q) → m'.memMap q = m.memMap q)
      ⟨h, rfl, fun x => by simp, fun _ _ => rfl, fun _ _ => rfl⟩ (by
        intro done i rest m₁ _ ⟨hp₁, ht₁, he₁, hq₁, hmap₁⟩
        have hfree : Freeable counted m₁ d := ⟨hd.1, fun i e he => by
          rw [he₁] at he
          split at he
          · cases he
          · exact hd.2 i e he⟩
        obtain ⟨m₂, hm₂, hp₂, ht₂, he₂, hq₂, hmap₂⟩ :=
          hp₁.freeEntry_spec (x := (d, i)) (ht₁ ▸ ht) hfree
        refine ⟨m₂, hm₂, hp₂, ht₂.trans ht₁, fun x => ?_, fun q hq => (hq₂ q hq).trans (hq₁ q hq),
          fun q hq => (hmap₂ q ?_).trans (hmap₁ q hq)⟩
        · rw [he₂]
          rcases eq_or_ne x (d, i) with rfl | hne
          · simp
          · rw [update_of_ne hne, he₁]
            have : x.1 = d → x.2 ≠ i := fun h₁ h₂ => hne (Prod.ext h₁ h₂)
            by_cases hx : x.1 = d
            · simp [hx, this hx]
            · simp [hx]
        · rw [Mem.page, he₁]
          split
          · simp
          · exact hq i)
    have htab : m₁.table d = m.table d := by
      have := ht₁ ▸ ht
      rw [Mem.tableOf] at this
      split at this
      · exact Option.some.inj this
      · cases this
    have hcount : Counted z m₁ (m.table d) :=
      (hp₁.table_ok d _ (ht₁ ▸ ht)).imp_right fun hm =>
        ⟨hm, hp₁.balanced.pos_of_ref (r := .inl d) hm (by rw [Mem.ref, ht₁, ht])⟩
    have hw : ((uncount m₁ (m.table d)).write 0 d 0).phys = (m₁.write 0 d 0).phys := by
      simp [Mem.write]
    obtain ⟨hp₂, ht₂, he₂⟩ := hp₁.setDir held (d := d) (e := 0) hw
      (uncount_HIGH_MEMORY m₁ _) (hp₁.uncount_cells hcount) (fun i => by simp [he₁])
      (fun h0 => absurd h0 not_present_zero) (fun p hp => by
        have := hp₁.uncount_memMap hcount hp
        rw [write_memMap, ht₁, ht, if_neg not_present_zero, names_none]
        omega)
    rw [if_neg not_present_zero, ht₁] at ht₂
    refine ⟨(uncount m₁ (m.table d)).write 0 d 0, ?_, hp₂, ht₂, fun x => ?_, fun q hq hne => ?_,
      fun q hne hq => (uncount_memMap_of_ne (show q ≠ m.table d from fun e =>
        hne (ht.trans (congrArg some e.symm)))).trans (hmap₁ q hq)⟩
    · rw [hm₁]
      show (freePage m₁ (m₁.table d) >>= fun m => pure (m.write 0 d 0)) = _
      rw [htab, hp₁.freePage_spec hcount]
      rfl
    · rw [he₂, he₁]
      simp
    · rw [hw, write_phys_of_ne (by omega)]
      exact hq₁ q fun e => hne (e ▸ ht)
  · rename_i hpres
    have ht : m.tableOf d = none := if_neg hpres
    refine ⟨m, rfl, h, by rw [← ht, update_eq_self], fun x => ?_, fun _ _ _ => rfl,
      fun _ _ _ => rfl⟩
    split
    · rename_i hx
      rw [Mem.ent, hx, ht]
      rfl
    · rfl

/-- What `free_page_tables` leaves of the directory entries `dirs`: nothing. -/
structure Freed (dirs : List Slot) (m m' : Mem) : Prop where
  tableOf : ∀ d, m'.tableOf d = if d ∈ dirs then none else m.tableOf d
  ent : ∀ x, m'.ent x = if x.1 ∈ dirs then none else m.ent x
  phys : ∀ q, 1 ≤ q → (∀ d ∈ dirs, m.tableOf d ≠ some q) → m'.phys q = m.phys q
  memMap : ∀ q, (∀ d ∈ dirs, m.tableOf d ≠ some q ∧ ∀ i, m.page (d, i) ≠ some q) →
    m'.memMap q = m.memMap q

theorem Paged.freeDirs (h : Paged z counted held m) {dirs : List Slot}
    (hd : ∀ d ∈ dirs, Freeable counted m d) :
    ∃ m', dirs.foldlM freeDir m = .ok m' ∧ Paged z counted held m' ∧
      Freed dirs m m' := by
  have hrun := Loops.foldlM_ok (f := freeDir) (l := dirs) (p := []) (s := m)
    (fun done m' => Paged z counted held m' ∧ Freed done m m')
    ⟨h, fun d => by simp, fun x => by simp, fun _ _ _ => rfl, fun _ _ => rfl⟩ (by
      intro done d rest m₁ hl ⟨hp₁, hf₁⟩
      have hmem : d ∈ dirs := by
        have : d ∈ [] ++ dirs := hl ▸ by simp
        simpa using this
      have hfree : Freeable counted m₁ d := ⟨(hd d hmem).1, fun i e he => by
        rw [hf₁.ent] at he
        split at he
        · cases he
        · exact (hd d hmem).2 i e he⟩
      obtain ⟨m₂, hm₂, hp₂, ht₂, he₂, hq₂, hmap₂⟩ := hp₁.freeDir_spec hfree
      refine ⟨m₂, hm₂, hp₂, fun d' => ?_, fun x => ?_, fun q hq hne => ?_, fun q hne => ?_⟩
      · rw [ht₂]
        rcases eq_or_ne d' d with rfl | hd'
        · simp
        · simp [hd', hf₁.tableOf]
      · rw [he₂, hf₁.ent]
        rcases eq_or_ne x.1 d with hx | hx
        · simp [hx]
        · simp [hx]
      · have hne' : ∀ d' ∈ done, m.tableOf d' ≠ some q := fun d' hd' => hne d' (by simp [hd'])
        have hd₁ : m₁.tableOf d ≠ some q := by
          rw [hf₁.tableOf]
          split
          · simp
          · exact hne d (by simp)
        rw [hq₂ q hq hd₁, hf₁.phys q hq hne']
      · have hne' := hne d (by simp)
        rw [hmap₂ q ?_ fun i => ?_, hf₁.memMap q fun d' hd' => hne d' (by simp [hd'])]
        · rw [hf₁.tableOf]
          split
          · simp
          · exact hne'.1
        · rw [Mem.page, hf₁.ent]
          split
          · simp
          · exact hne'.2 i)
  simpa using hrun

theorem Paged.freePageTables_spec (h : Paged z counted held m) {start size : Nat}
    (halign : start % 0x400000 = 0) (hstart : start ≠ 0)
    (hd : ∀ d ∈ dirSlots start size, Freeable counted m d) :
    ∃ m', freePageTables m start size = .ok m' ∧ Paged z counted held m' ∧
      Freed (dirSlots start size) m m' := by
  rw [freePageTables, if_neg (by omega), if_neg hstart]
  exact h.freeDirs hd

/-! ## copy_page_tables -/

/-- What becomes of an entry that is copied: it loses its write bit, unless it maps the
first megabyte. -/
def wrprotectAbove (e : Word) : Word := if LOW_MEM ≤ frame e then wrprotect e else e

@[simp] theorem frame_wrprotectAbove (e : Word) : frame (wrprotectAbove e) = frame e := by
  unfold wrprotectAbove; split <;> simp

@[simp] theorem present_wrprotectAbove (e : Word) :
    Present (wrprotectAbove e) ↔ Present e := by
  unfold wrprotectAbove; split <;> simp

theorem presentEntry_of {e : Word} (h : Present e) : presentEntry e = some e := if_pos h

theorem ent_present {x : Pos} {e : Word} (he : m.ent x = some e) : Present e := by
  unfold Mem.ent at he
  obtain ⟨t, -, ht⟩ := Option.bind_eq_some_iff.mp he
  split at ht
  · exact Option.some.inj ht ▸ by assumption
  · cases ht

theorem ent_tableOf {x : Pos} {e : Word} (he : m.ent x = some e) :
    ∃ t, m.tableOf x.1 = some t := by
  obtain ⟨t, ht, -⟩ := Option.bind_eq_some_iff.mp he
  exact ⟨t, ht⟩

/-- A present entry changes, but not the page that it maps. -/
theorem Paged.rewrite (h : Paged z counted held m) {x : Pos} {t : Nat} {e e' : Word}
    (ht : m.tableOf x.1 = some t) (he : m.ent x = some e) (hp : Present e')
    (hf : frame e' = frame e) :
    Paged z counted held (m.write t x.2 e') ∧ (m.write t x.2 e').tableOf = m.tableOf ∧
      (m.write t x.2 e').ent = update m.ent x (some e') := by
  refine ⟨?_, h.write_tableOf ht x.2 e', presentEntry_of hp ▸ h.write_ent ht e'⟩
  rw [← update_eq_self x counted]
  refine h.setEnt ht (counted x) rfl rfl h.cells (fun hx _ => ?_) fun p _ => ?_
  · rw [hf]
    exact h.ent_ok x e hx he
  · rw [write_memMap, presentEntry_of hp, Option.map_some, hf]
    simp [Mem.ref, Mem.page, he]

/-- An absent entry is set and the count of its page raised, above the first megabyte. -/
theorem Paged.addEnt (h : Paged z counted held m) {x : Pos} {t : Nat} {e : Word}
    (ht : m.tableOf x.1 = some t) (hx : m.ent x = none) (hc : counted x = true)
    (hp : Present e) (hphys : m'.phys = (m.write t x.2 e).phys)
    (hhigh : m'.HIGH_MEMORY = m.HIGH_MEMORY)
    (hok : frame e < LOW_MEM ∧ m'.memMap = m.memMap ∨
      z.Managed (frame e) ∧ m.memMap (frame e) < 255 ∧
        m'.memMap = update m.memMap (frame e) (m.memMap (frame e) + 1)) :
    Paged z counted held m' ∧ m'.tableOf = m.tableOf ∧ m'.ent = update m.ent x (some e) ∧
      ∀ p, LOW_MEM ≤ p → m'.memMap p = m.memMap p + names p (some (frame e)) := by
  have hmap : ∀ p, LOW_MEM ≤ p → m'.memMap p = m.memMap p + names p (some (frame e)) := by
    intro p hp
    rw [names_some]
    rcases hok with ⟨hlow, heq⟩ | ⟨-, -, heq⟩
    · rw [heq, if_neg (by omega), Nat.add_zero]
    · rw [heq]
      rcases eq_or_ne p (frame e) with rfl | hne
      · simp
      · simp [hne, hne.symm]
  refine ⟨?_, (tableOf_of_phys hphys).trans (h.write_tableOf ht x.2 e),
    ((ent_of_phys hphys).trans (h.write_ent ht e)).trans (by rw [presentEntry_of hp]), hmap⟩
  rw [← update_eq_self x counted, hc]
  refine h.setEnt ht true hphys hhigh ?_ (fun _ _ => hok.imp And.left And.left) fun p hpm => ?_
  · rcases hok with ⟨-, heq⟩ | ⟨hm, hlt, heq⟩
    · exact heq ▸ h.cells
    · rw [heq]
      exact h.cells.update hm (by omega)
  · rw [hmap p (Nat.le_trans z.lowMem_le hpm.1), if_pos rfl, presentEntry_of hp]
    simp [Mem.ref, Mem.page, hx]

/-- One entry is copied from the directory entry `s` to `d`, where it was absent. -/
theorem Paged.copyEntry_spec (h : Paged z counted held m) {s d i : Slot} {ts td : Nat} (hne : s ≠ d)
    (hs : m.tableOf s = some ts) (hd : m.tableOf d = some td) (hord : Ordinary (s, i))
    (hi : m.ent (d, i) = none) (hc : counted (d, i) = true)
    (hroom : ∀ p, LOW_MEM ≤ p → m.page (s, i) = some p → m.memMap p < 255) :
    Paged z counted held (copyEntry ts td m i) ∧
      (copyEntry ts td m i).tableOf = m.tableOf ∧
      (copyEntry ts td m i).ent = update (update m.ent (d, i) ((m.ent (s, i)).map wrprotect))
        (s, i) ((m.ent (s, i)).map wrprotectAbove) ∧
      (∀ q, q ≠ ts → q ≠ td → (copyEntry ts td m i).phys q = m.phys q) ∧
      ∀ p, LOW_MEM ≤ p →
        (copyEntry ts td m i).memMap p = m.memMap p + names p (m.page (s, i)) := by
  have hpos : ((s, i) : Pos) ≠ (d, i) := fun e => hne (congrArg Prod.fst e)
  have h256 : LOW_MEM = 0x100 := rfl
  unfold copyEntry
  cases he : m.ent (s, i) with
  | none =>
      have hnp : ¬Present (m.phys ts i) := (ent_eq_none (x := (s, i)) hs).mp he
      rw [if_neg hnp]
      refine ⟨h, rfl, ?_, fun _ _ _ => rfl, fun p _ => by simp [Mem.page, he]⟩
      rw [Option.map_none, Option.map_none, ← hi, update_eq_self]
      rw [hi, ← he, update_eq_self]
  | some e =>
      obtain ⟨hpres, hphys⟩ := (ent_eq_some (x := (s, i)) hs).mp he
      have hpage : m.page (s, i) = some (frame e) := by simp [Mem.page, he]
      have hwp : Present (wrprotect e) := (present_wrprotect e).mpr hpres
      have hok := h.ent_ok (s, i) e hord he
      simp only [show m.phys ts i = e from hphys, if_pos hpres, lowMem_lt_iff hwp,
        frame_wrprotect, hpage]
      rcases Nat.lt_or_ge (frame e) LOW_MEM with hlow | hlow
      · rw [if_neg (by omega)]
        obtain ⟨h₁, ht₁, he₁, hm₁⟩ := h.addEnt (x := (d, i))
          hd hi hc hwp (rfl : (m.write td i (wrprotect e)).phys = _) rfl
          (Or.inl ⟨by rwa [frame_wrprotect], rfl⟩)
        have habove : wrprotectAbove e = e := if_neg (by omega)
        refine ⟨h₁, ht₁, ?_, fun q _ hq => write_phys_of_ne hq, fun p hp => ?_⟩
        · rw [he₁, Option.map_some, Option.map_some, habove]
          exact (update_eq_self_iff.mpr (by rw [update_of_ne hpos, he])).symm
        · rw [hm₁ p hp, frame_wrprotect]
      · rw [if_pos (by omega)]
        -- first the copy, together with its count, and then the write bit of the original
        let m₁ := (m.write td i (wrprotect e)).setCount (frame e) (m.memMap (frame e) + 1)
        show Paged z counted held (m₁.write ts i (wrprotect e)) ∧
          (m₁.write ts i (wrprotect e)).tableOf = _ ∧ (m₁.write ts i (wrprotect e)).ent = _ ∧
          (∀ q, _ → _ → (m₁.write ts i (wrprotect e)).phys q = _) ∧
          ∀ p, _ → (m₁.write ts i (wrprotect e)).memMap p = _
        have hlt := hroom (frame e) hlow hpage
        have hmap : m₁.memMap = update m.memMap (frame e) (m.memMap (frame e) + 1) :=
          setCount_memMap _ _ (by omega)
        obtain ⟨h₁, ht₁, he₁, hm₁⟩ := h.addEnt (x := (d, i)) hd hi hc hwp
          (rfl : m₁.phys = _) rfl
          (Or.inr (by rw [frame_wrprotect]; exact ⟨hok.resolve_left (by omega), hlt, hmap⟩))
        have hes : m₁.ent (s, i) = some e := by rw [he₁, update_of_ne hpos, he]
        have habove : wrprotectAbove e = wrprotect e := if_pos hlow
        obtain ⟨h₂, ht₂, he₂⟩ := h₁.rewrite (x := (s, i)) (ht₁ ▸ hs) hes hwp (frame_wrprotect e)
        refine ⟨h₂, ht₂.trans ht₁, ?_, fun q hqs hqd => ?_, fun p hp => ?_⟩
        · rw [he₂, he₁, Option.map_some, Option.map_some, habove]
        · rw [write_phys_of_ne hqs]
          exact write_phys_of_ne hqd
        · rw [write_memMap, hm₁ p hp, frame_wrprotect]

/-- How many of the entries of `s` map the page. -/
def copies (m : Mem) (entries : List Slot) (s : Slot) (p : Nat) : Nat :=
  (entries.map fun i => names p (m.page (s, i))).sum

theorem copies_eq_zero {entries : List Slot} {s : Slot} {p : Nat}
    (h : ∀ i ∈ entries, m.page (s, i) ≠ some p) : copies m entries s p = 0 := by
  refine List.sum_eq_zero fun n hn => ?_
  obtain ⟨i, hi, rfl⟩ := List.mem_map.mp hn
  exact if_neg (h i hi)

/-- The entries of the directory entry `s` are copied to `d`, whose page table is empty. -/
theorem Paged.copyTable (h : Paged z counted held m) {s d : Slot} {ts td : Nat} (hne : s ≠ d)
    (hs : m.tableOf s = some ts) (hd : m.tableOf d = some td) {entries : List Slot}
    (hnodup : entries.Nodup) (hord : ∀ i ∈ entries, Ordinary (s, i))
    (hempty : ∀ i, m.ent (d, i) = none) (hc : ∀ i, counted (d, i) = true)
    (hroom : ∀ p, LOW_MEM ≤ p → m.memMap p + copies m entries s p ≤ 255) :
    let m' := entries.foldl (copyEntry ts td) m
    Paged z counted held m' ∧ m'.tableOf = m.tableOf ∧
      (∀ x, m'.ent x = if x.1 = d ∧ x.2 ∈ entries then (m.ent (s, x.2)).map wrprotect
        else if x.1 = s ∧ x.2 ∈ entries then (m.ent x).map wrprotectAbove else m.ent x) ∧
      (∀ q, q ≠ ts → q ≠ td → m'.phys q = m.phys q) ∧
      ∀ p, LOW_MEM ≤ p → m'.memMap p = m.memMap p + copies m entries s p := by
  have hrun := Loops.foldl_inv (f := copyEntry ts td) (l := entries) (p := [])
    (s := m) (fun done m' => Paged z counted held m' ∧ m'.tableOf = m.tableOf ∧
      (∀ x, m'.ent x = if x.1 = d ∧ x.2 ∈ done then (m.ent (s, x.2)).map wrprotect
        else if x.1 = s ∧ x.2 ∈ done then (m.ent x).map wrprotectAbove else m.ent x) ∧
      (∀ q, q ≠ ts → q ≠ td → m'.phys q = m.phys q) ∧
      ∀ p, LOW_MEM ≤ p → m'.memMap p = m.memMap p + copies m done s p)
    ⟨h, rfl, fun x => by simp, fun _ _ _ => rfl, fun p _ => by simp [copies]⟩ (by
      intro done i rest m₁ hl ⟨h₁, ht₁, he₁, hq₁, hm₁⟩
      rw [List.nil_append] at hl
      have hi : i ∉ done := fun hmem => by
        rw [hl] at hnodup
        exact List.disjoint_of_nodup_append hnodup hmem (by simp)
      have hes : m₁.ent (s, i) = m.ent (s, i) := by rw [he₁]; simp [hne, hi]
      have hed : m₁.ent (d, i) = none := by
        rw [he₁, if_neg (by simp [hi]), if_neg (by simp [hi])]
        exact hempty i
      have hroom₁ : ∀ p, LOW_MEM ≤ p → m₁.page (s, i) = some p → m₁.memMap p < 255 := by
        intro p hp hpage
        have := hroom p hp
        rw [hm₁ p hp]
        rw [hl] at this
        have hpage' : m.page (s, i) = some p := by rw [Mem.page, ← hes]; exact hpage
        simp only [copies, List.map_append, List.map_cons, List.sum_append, List.sum_cons,
          hpage', names_self] at this ⊢
        omega
      obtain ⟨h₂, ht₂, he₂, hq₂, hm₂⟩ := h₁.copyEntry_spec hne (ht₁ ▸ hs) (ht₁ ▸ hd)
        (hord i (by rw [hl]; simp)) hed (hc i) hroom₁
      refine ⟨h₂, ht₂.trans ht₁, fun x => ?_, fun q hqs hqd => (hq₂ q hqs hqd).trans
        (hq₁ q hqs hqd), fun p hp => ?_⟩
      · rw [he₂]
        rcases eq_or_ne x (s, i) with rfl | hxs
        · rw [update_self, hes, if_neg (by simp [hne])]
          simp
        · rw [update_of_ne hxs]
          rcases eq_or_ne x (d, i) with rfl | hxd
          · rw [update_self, hes]
            simp
          · have hxs' : x.1 = s → x.2 ≠ i := fun h₁ h₂ => hxs (Prod.ext h₁ h₂)
            have hxd' : x.1 = d → x.2 ≠ i := fun h₁ h₂ => hxd (Prod.ext h₁ h₂)
            rw [update_of_ne hxd, he₁]
            simp only [List.mem_append, List.mem_singleton]
            rcases eq_or_ne x.1 d with hx | hx
            · simp [hx, hxd' hx, hne.symm]
            · rcases eq_or_ne x.1 s with hx' | hx'
              · simp [hx', hne, hxs' hx']
              · simp [hx, hx']
      · rw [hm₂ p hp, hm₁ p hp]
        have : m₁.page (s, i) = m.page (s, i) := by rw [Mem.page, hes, Mem.page]
        simp [copies, this, Nat.add_assoc])
  simpa using hrun

/-- What `copy_page_tables` needs: the directory entries it copies to are free, and no
count overflows. -/
structure CanCopy (counted : Pos → Bool) (entries : List Slot) (dirs : List (Slot × Slot))
    (m : Mem) : Prop where
  nodup : entries.Nodup
  nodup_src : (dirs.map Prod.fst).Nodup
  nodup_dst : (dirs.map Prod.snd).Nodup
  disjoint : ∀ x ∈ dirs, ∀ y ∈ dirs, x.1 ≠ y.2
  ordinary : ∀ x ∈ dirs, ∀ i ∈ entries, Ordinary (x.1, i)
  absent : ∀ x ∈ dirs, m.tableOf x.2 = none
  counted : ∀ x ∈ dirs, ∀ i, counted (x.2, i) = true
  room : ∀ p, LOW_MEM ≤ p →
    max 1 (m.memMap p) + (dirs.map fun x => copies m entries x.1 p).sum ≤ 255

/-- What `copy_page_tables` has done when it answers `r`. -/
structure Copied (z : Zone) (entries : List Slot) (dirs : List (Slot × Slot)) (m : Mem)
    (r : Int) (m' : Mem) : Prop where
  result : r = 0 ∨ r = -1
  tableOf : ∀ d, (∀ x ∈ dirs, x.2 ≠ d) → m'.tableOf d = m.tableOf d
  fresh : ∀ d t, m'.tableOf d = some t → m.tableOf d = some t ∨ z.Managed t ∧ m.memMap t = 0
  ent : ∀ x, (∀ y ∈ dirs, y.2 ≠ x.1) → m'.ent x = m.ent x ∨
    (∃ y ∈ dirs, y.1 = x.1) ∧ m'.ent x = (m.ent x).map wrprotectAbove
  copy : ∀ y ∈ dirs, ∀ i, m'.ent (y.2, i) = none ∨ i ∈ entries ∧
    m'.ent (y.2, i) = (m.ent (y.1, i)).map wrprotect ∧
      m'.ent (y.1, i) = (m.ent (y.1, i)).map wrprotectAbove
  complete : r = 0 → ∀ y ∈ dirs, ∀ i ∈ entries,
    m'.ent (y.2, i) = (m.ent (y.1, i)).map wrprotect
  phys : ∀ q, 1 ≤ q → (∀ d, m'.tableOf d ≠ some q) → m'.phys q = m.phys q
  memMap : ∀ q, LOW_MEM ≤ q → ¬z.Managed q → (∀ x ∈ dirs, ∀ i ∈ entries, m.page (x.1, i) ≠ some q) →
    m'.memMap q = m.memMap q

theorem tableOf_none_ent {d i : Slot} (h : m.tableOf d = none) : m.ent (d, i) = none := by
  simp [Mem.ent, h]

theorem Copied.refl (z : Zone) (entries : List Slot) {dirs : List (Slot × Slot)}
    (habsent : ∀ x ∈ dirs, m.tableOf x.2 = none) :
    Copied z entries dirs m (-1) m where
  result := Or.inr rfl
  tableOf _ _ := rfl
  fresh _ _ h := Or.inl h
  ent _ _ := Or.inl rfl
  copy y hy i := Or.inl (tableOf_none_ent (habsent y hy))
  complete h := by cases h
  phys _ _ _ := rfl
  memMap _ _ _ _ := rfl

/-- An allocated frame becomes the page table of a directory entry that had none. -/
theorem Paged.install (h : Paged z counted held m) {d : Slot} {t : Nat}
    (hd : m.tableOf d = none) {m₁ : Mem} (hf : Fresh z m t m₁)
    (h₁ : Paged z counted (update held t 1) m₁) :
    Paged z counted held (m₁.write 0 d (entry t)) ∧
      (m₁.write 0 d (entry t)).tableOf = update m.tableOf d (some t) ∧
      (m₁.write 0 d (entry t)).ent = m.ent := by
  have h0 := (h.unused hf.managed hf.free).2.2
  have hframe : frame (entry t) = t := frame_entry hf.managed.lt_pages
  have hlow := hf.lowMem_le
  have hpos : LOW_MEM = 0x100 := rfl
  have hdir := h₁.setDir held (d := d) (e := entry t)
    (rfl : (m₁.write 0 d (entry t)).phys = _) rfl h₁.cells
    (fun i => tableOf_none_ent (by rw [hf.tableOf, hd]))
    (fun _ => by
      rw [hframe]
      refine ⟨by omega, Or.inr hf.managed, ?_, fun i => ?_⟩
      · rw [hf.tableOf]
        exact hf.not_table
      · rw [hf.phys, update_self]
        exact not_present_zero)
    (fun p _ => by
      rw [write_memMap, hf.tableOf, hd, if_pos (present_entry t), hframe, names_none,
        names_some]
      rcases eq_or_ne p t with rfl | hne
      · simp only [update_self, if_true]
        omega
      · simp [hne, hne.symm])
  rwa [if_pos (present_entry t), hframe, hf.tableOf, hf.ent] at hdir

theorem CanCopy.tail {entries : List Slot} {x : Slot × Slot} {dirs : List (Slot × Slot)}
    (hc : CanCopy counted entries (x :: dirs) m)
    (htab : ∀ y ∈ dirs, m'.tableOf y.2 = m.tableOf y.2)
    (hent : ∀ y ∈ dirs, ∀ i, m'.page (y.1, i) = m.page (y.1, i))
    (hmap : ∀ p, LOW_MEM ≤ p →
      max 1 (m'.memMap p) ≤ max 1 (m.memMap p) + copies m entries x.1 p) :
    CanCopy counted entries dirs m' where
  nodup := hc.nodup
  nodup_src := (List.nodup_cons.mp hc.nodup_src).2
  nodup_dst := (List.nodup_cons.mp hc.nodup_dst).2
  disjoint := fun y hy y' hy' =>
    hc.disjoint y (List.mem_cons_of_mem x hy) y' (List.mem_cons_of_mem x hy')
  ordinary := fun y hy => hc.ordinary y (List.mem_cons_of_mem x hy)
  absent := fun y hy => (htab y hy).trans (hc.absent y (List.mem_cons_of_mem x hy))
  counted := fun y hy => hc.counted y (List.mem_cons_of_mem x hy)
  room := fun p hp => by
    have hsum : (dirs.map fun y => copies m' entries y.1 p)
        = dirs.map fun y => copies m entries y.1 p :=
      List.map_congr_left fun y hy => by simp only [copies, hent y hy]
    have h₁ := hc.room p hp
    have h₂ := hmap p hp
    rw [List.map_cons, List.sum_cons] at h₁
    rw [hsum]
    omega

/-- The effect of one round of the outer loop, with `t` as the new page table. -/
structure Round (z : Zone) (entries : List Slot) (s d : Slot) (m : Mem) (t : Nat) (m' : Mem) :
    Prop where
  source : m.tableOf s = some (m.table s)
  managed : z.Managed t
  free : m.memMap t = 0
  tableOf : m'.tableOf = update m.tableOf d (some t)
  ent : ∀ x, m'.ent x = if x.1 = d ∧ x.2 ∈ entries then (m.ent (s, x.2)).map wrprotect
    else if x.1 = s ∧ x.2 ∈ entries then (m.ent x).map wrprotectAbove else m.ent x
  phys : ∀ q, 1 ≤ q → q ≠ m.table s → q ≠ t → m'.phys q = m.phys q
  memMap : ∀ p, LOW_MEM ≤ p → m'.memMap p = update m.memMap t 1 p + copies m entries s p

theorem Paged.copyRound (h : Paged z counted held m) {entries : List Slot} {s d : Slot}
    {dirs : List (Slot × Slot)} (hc : CanCopy counted entries ((s, d) :: dirs) m)
    (hs : Present (m.dir s)) {t : Nat} {m₁ : Mem} (hg : getFreePage m = some (t, m₁)) :
    Paged z counted held (entries.foldl (copyEntry (m.table s) t) (m₁.write 0 d (entry t))) ∧
      CanCopy counted entries dirs
        (entries.foldl (copyEntry (m.table s) t) (m₁.write 0 d (entry t))) ∧
      Round z entries s d m t
        (entries.foldl (copyEntry (m.table s) t) (m₁.write 0 d (entry t))) := by
  have hd : m.tableOf d = none := hc.absent (s, d) (by simp)
  have hsd : s ≠ d := hc.disjoint (s, d) (by simp) (s, d) (by simp)
  have hs_rest : ∀ y ∈ dirs, y.1 ≠ s := fun y hy e =>
    (List.nodup_cons.mp hc.nodup_src).1 (List.mem_map.mpr ⟨y, hy, e⟩)
  have hd_rest : ∀ y ∈ dirs, y.2 ≠ d := fun y hy e =>
    (List.nodup_cons.mp hc.nodup_dst).1 (List.mem_map.mpr ⟨y, hy, e⟩)
  have hsrc_rest : ∀ y ∈ dirs, y.1 ≠ d := fun y hy =>
    hc.disjoint y (by simp [hy]) (s, d) (by simp)
  have hts : m.tableOf s = some (m.table s) := if_pos hs
  obtain ⟨hf, h₁⟩ := h.getFreePage_spec hg
  obtain ⟨h₂, ht₂, he₂⟩ := h.install hd hf h₁
  have hlow := hf.lowMem_le
  have hcop : ∀ p, copies (m₁.write 0 d (entry t)) entries s p = copies m entries s p := fun p => by
    simp [copies, Mem.page, he₂]
  have hroom : ∀ p, LOW_MEM ≤ p →
      (m₁.write 0 d (entry t)).memMap p + copies (m₁.write 0 d (entry t)) entries s p ≤ 255 := by
    intro p hp
    have hle := hc.room p hp
    simp only [List.map_cons, List.sum_cons] at hle
    rw [hcop, write_memMap, hf.memMap]
    rcases eq_or_ne p t with rfl | hne
    · rw [update_self]
      omega
    · rw [update_of_ne hne]
      omega
  obtain ⟨h₃, ht₃, he₃, hq₃, hm₃⟩ := h₂.copyTable hsd
    (by rw [ht₂, update_of_ne hsd, hts])
    (by rw [ht₂, update_self]) hc.nodup (hc.ordinary (s, d) (by simp))
    (fun i => by rw [he₂]; exact tableOf_none_ent hd) (hc.counted (s, d) (by simp))
    hroom
  have hround : Round z entries s d m t
      (entries.foldl (copyEntry (m.table s) t) (m₁.write 0 d (entry t))) :=
    { source := hts
      managed := hf.managed
      free := hf.free
      tableOf := ht₃.trans ht₂
      ent := fun x => by rw [← he₂]; exact he₃ x
      phys := fun q hq1 hqs hqt => by
        rw [hq₃ q hqs hqt, write_phys_of_ne (by omega), hf.phys, update_of_ne hqt]
      memMap := fun p hp => by rw [← hcop, ← hf.memMap]; exact hm₃ p hp }
  refine ⟨h₃, hc.tail (fun y hy => ?_) (fun y hy i => ?_) (fun p hp => ?_), hround⟩
  · rw [hround.tableOf, update_of_ne (hd_rest y hy)]
  · rw [Mem.page, hround.ent, if_neg (fun h => hsrc_rest y hy h.1),
      if_neg (fun h => hs_rest y hy h.1), Mem.page]
  · show max 1 _ ≤ max 1 (m.memMap p) + copies m entries s p
    rw [hround.memMap p hp]
    rcases eq_or_ne p t with rfl | hne
    · rw [update_self]
      omega
    · rw [update_of_ne hne]
      omega

/-- The effect of one round of the outer loop, followed by the others. -/
theorem Copied.cons {entries : List Slot} {s d : Slot} {t : Nat} {dirs : List (Slot × Slot)}
    {r : Int} {m₁ : Mem} (hc : CanCopy counted entries ((s, d) :: dirs) m)
    (hr : Round z entries s d m t m₁) (h : Copied z entries dirs m₁ r m') :
    Copied z entries ((s, d) :: dirs) m r m' := by
  have hd : m.tableOf d = none := hc.absent (s, d) (by simp)
  have hs_rest : ∀ y ∈ dirs, y.1 ≠ s := fun y hy e =>
    (List.nodup_cons.mp hc.nodup_src).1 (List.mem_map.mpr ⟨y, hy, e⟩)
  have hd_rest : ∀ y ∈ dirs, y.2 ≠ d := fun y hy e =>
    (List.nodup_cons.mp hc.nodup_dst).1 (List.mem_map.mpr ⟨y, hy, e⟩)
  have hsd : ∀ y ∈ (s, d) :: dirs, s ≠ y.2 ∧ y.1 ≠ d := fun y hy =>
    ⟨hc.disjoint (s, d) (by simp) y hy, hc.disjoint y hy (s, d) (by simp)⟩
  have hgrow : ∀ p, LOW_MEM ≤ p → m.memMap p ≤ m₁.memMap p := fun p hp => by
    rw [hr.memMap p hp]
    rcases eq_or_ne p t with rfl | hne
    · rw [hr.free]
      exact Nat.zero_le _
    · rw [update_of_ne hne]
      exact Nat.le_add_right _ _
  have hds : d ≠ s := fun e => (hsd (s, d) (by simp)).1 e.symm
  -- what the first round leaves in the entries of the others, and they in its entries
  have hother : ∀ y ∈ dirs, ∀ i, m₁.ent (y.1, i) = m.ent (y.1, i) := fun y hy i => by
    rw [hr.ent, if_neg (fun h => (hsd y (by simp [hy])).2 h.1), if_neg fun h => hs_rest y hy h.1]
  have hsrc : ∀ i, m'.ent (s, i) = m₁.ent (s, i) := fun i =>
    (h.ent (s, i) fun y hy e => (hsd y (by simp [hy])).1 e.symm).resolve_right
      fun ⟨⟨y, hy, e⟩, _⟩ => hs_rest y hy e
  have hdst : ∀ i, m'.ent (d, i) = m₁.ent (d, i) := fun i =>
    (h.ent (d, i) fun y hy e => hd_rest y hy e).resolve_right
      fun ⟨⟨y, hy, e⟩, _⟩ => (hsd y (by simp [hy])).2 e
  have hfirst : ∀ i ∈ entries, m'.ent (d, i) = (m.ent (s, i)).map wrprotect ∧
      m'.ent (s, i) = (m.ent (s, i)).map wrprotectAbove := fun i hi => by
    rw [hdst, hsrc, hr.ent, hr.ent, if_pos ⟨rfl, hi⟩, if_neg (fun h => hds h.1.symm),
      if_pos ⟨rfl, hi⟩]
    exact ⟨rfl, rfl⟩
  refine ⟨h.result, fun d' hd' => ?_, fun d' t' ht' => ?_, fun x hx => ?_, ?_, ?_,
    fun q hq1 hqt => ?_, fun q hq hqm hne => ?_⟩
  · have hne : d' ≠ d := fun e => hd' (s, d) (by simp) e.symm
    rw [h.tableOf d' fun y hy => hd' y (by simp [hy]), hr.tableOf, update_of_ne hne]
  · rcases h.fresh d' t' ht' with h₁ | ⟨hm', h0⟩
    · rw [hr.tableOf] at h₁
      rcases eq_or_ne d' d with rfl | hne
      · obtain rfl : t = t' := by simpa using h₁
        exact Or.inr ⟨hr.managed, hr.free⟩
      · rw [update_of_ne hne] at h₁
        exact Or.inl h₁
    · have := hgrow t' (Nat.le_trans z.lowMem_le hm'.1)
      exact Or.inr ⟨hm', by omega⟩
  · have hxd : x.1 ≠ d := fun e => hx (s, d) (by simp) e.symm
    have he₁ := hr.ent x
    rw [if_neg (fun h => hxd h.1)] at he₁
    rcases h.ent x fun y hy => hx y (by simp [hy]) with h₁ | ⟨⟨y, hy, e⟩, h₁⟩
    · rw [h₁, he₁]
      split
      · rename_i hxs
        exact Or.inr ⟨⟨(s, d), by simp, hxs.1.symm⟩, rfl⟩
      · exact Or.inl rfl
    · have hxs : x.1 ≠ s := fun e' => hs_rest y hy (e.trans e')
      rw [h₁, he₁, if_neg (fun h => hxs h.1)]
      exact Or.inr ⟨⟨y, by simp [hy], e⟩, rfl⟩
  · intro y hy i
    rcases List.mem_cons.mp hy with rfl | hy
    · by_cases hi : i ∈ entries
      · exact Or.inr ⟨hi, hfirst i hi⟩
      · left
        rw [hdst, hr.ent, if_neg (fun h => hi h.2), if_neg (fun h => hi h.2)]
        exact tableOf_none_ent hd
    · rw [← hother y hy i]
      exact h.copy y hy i
  · intro h0 y hy i hi
    rcases List.mem_cons.mp hy with rfl | hy
    · exact (hfirst i hi).1
    · rw [← hother y hy i]
      exact h.complete h0 y hy i hi
  · have hd' : m'.tableOf d = some t := by
      rw [h.tableOf d fun y hy => hd_rest y hy, hr.tableOf, update_self]
    have hs' : m'.tableOf s = some (m.table s) := by
      rw [h.tableOf s fun y hy e => (hsd y (by simp [hy])).1 e.symm, hr.tableOf,
        update_of_ne hds.symm, hr.source]
    rw [h.phys q hq1 hqt]
    exact hr.phys q hq1 (fun e => hqt s (e ▸ hs')) fun e => hqt d (e ▸ hd')
  · have hqt : q ≠ t := fun e => hqm (e ▸ hr.managed)
    rw [h.memMap q hq hqm fun y hy i hi => ?_, hr.memMap q hq, update_of_ne hqt,
      copies_eq_zero (hne (s, d) (by simp)), Nat.add_zero]
    rw [Mem.page, hother y hy, ← Mem.page]
    exact hne y (by simp [hy]) i hi

theorem Paged.copyDirs_spec : ∀ {dirs : List (Slot × Slot)} {m : Mem} {entries : List Slot},
    Paged z counted held m → CanCopy counted entries dirs m →
    ∃ r m', copyDirs entries dirs m = .ok (r, m') ∧ Paged z counted held m' ∧
      Copied z entries dirs m r m'
  | [], m, entries, h, _ =>
      ⟨0, m, rfl, h, Or.inl rfl, fun _ _ => rfl, fun _ _ h => Or.inl h, fun _ _ => Or.inl rfl,
        fun y hy => absurd hy (by simp), fun _ y hy => absurd hy (by simp), fun _ _ _ => rfl,
        fun _ _ _ _ => rfl⟩
  | (s, d) :: dirs, m, entries, h, hc => by
      have hd : m.tableOf d = none := hc.absent (s, d) (by simp)
      have hnd : ¬Present (m.dir d) := fun hp => by simp [Mem.tableOf, hp] at hd
      have hd_rest : ∀ y ∈ dirs, y.2 ≠ d := fun y hy e =>
        (List.nodup_cons.mp hc.nodup_dst).1 (List.mem_map.mpr ⟨y, hy, e⟩)
      rw [copyDirs, if_neg hnd]
      split
      · rename_i hs
        cases hg : getFreePage m with
        | none => exact ⟨-1, m, rfl, h, Copied.refl z entries hc.absent⟩
        | some r =>
            obtain ⟨h₃, hcan, hround⟩ := h.copyRound hc hs hg
            obtain ⟨r, m', hr, h', hcopied⟩ := h₃.copyDirs_spec hcan
            exact ⟨r, m', hr, h', hcopied.cons hc hround⟩
      · rename_i hs
        have hts : m.tableOf s = none := if_neg hs
        have hes : ∀ i, m.ent (s, i) = none := fun i => tableOf_none_ent hts
        have htail := hc.tail (fun _ _ => rfl) (fun _ _ _ => rfl)
          fun p _ => (Nat.le_add_right _ _ : max 1 (m.memMap p) ≤ _)
        obtain ⟨r, m', hr, h', hcop⟩ := h.copyDirs_spec htail
        refine ⟨r, m', hr, h', ?_⟩
        have hed : ∀ i, m'.ent (d, i) = none := fun i => by
          refine tableOf_none_ent ?_
          rw [hcop.tableOf d fun y hy => hd_rest y hy, hd]
        refine ⟨hcop.result, fun d' hd' => hcop.tableOf d' fun y hy => hd' y (by simp [hy]),
          hcop.fresh, fun x hx => ?_, ?_, ?_, hcop.phys,
          fun q hq hqm hne => hcop.memMap q hq hqm fun y hy => hne y (by simp [hy])⟩
        · refine (hcop.ent x fun y hy => hx y (by simp [hy])).imp_right fun hmem => ?_
          obtain ⟨⟨y, hy, e⟩, he⟩ := hmem
          exact ⟨⟨y, by simp [hy], e⟩, he⟩
        · intro y hy i
          rcases List.mem_cons.mp hy with rfl | hy
          · exact Or.inl (hed i)
          · exact hcop.copy y hy i
        · intro h0 y hy i hi
          rcases List.mem_cons.mp hy with rfl | hy
          · rw [hed, hes]
            rfl
          · exact hcop.complete h0 y hy i hi

/-! ## Filling one entry -/

/-- The position of the entry that maps an address. -/
def posOf (address : Nat) : Pos := (dirSlot address, tableSlot address)

/-- The directory entry has a page table, an old one or a new and empty one. -/
structure Tabled (z : Zone) (m : Mem) (d : Slot) (t : Nat) (m' : Mem) : Prop where
  tableOf : m'.tableOf = update m.tableOf d (some t)
  origin : m.tableOf d = some t ∨ m.tableOf d = none ∧ z.Managed t ∧ m.memMap t = 0
  phys : ∀ q, 1 ≤ q → q ≠ t → m'.phys q = m.phys q
  memMap : ∀ q, m.memMap q ≠ 0 → m'.memMap q = m.memMap q

theorem Paged.pageTable_spec (h : Paged z counted held m) (d : Slot) :
    (pageTable m d = none ∧ m.tableOf d = none ∧ getFreePage m = none) ∨
      ∃ t m₁, pageTable m d = some (t, m₁) ∧ Tabled z m d t m₁ ∧ m₁.ent = m.ent ∧
        Paged z counted held m₁ := by
  unfold pageTable
  split
  · rename_i hp
    have ht : m.tableOf d = some (m.table d) := if_pos hp
    exact Or.inr ⟨_, m, rfl, ⟨by rw [← ht, update_eq_self], Or.inl ht, fun _ _ _ => rfl,
      fun _ _ => rfl⟩, rfl, h⟩
  · rename_i hp
    have ht : m.tableOf d = none := if_neg hp
    cases hg : getFreePage m with
    | none => exact Or.inl ⟨rfl, ht, rfl⟩
    | some r =>
        obtain ⟨t, m₁⟩ := r
        obtain ⟨hf, h₁⟩ := h.getFreePage_spec hg
        obtain ⟨h₂, ht₂, he₂⟩ := h.install ht hf h₁
        refine Or.inr ⟨t, _, rfl, ⟨ht₂, Or.inr ⟨ht, hf.managed, hf.free⟩, fun q hq hqt => ?_,
          fun q hq => ?_⟩, he₂, h₂⟩
        · rw [write_phys_of_ne (by omega), hf.phys, update_of_ne hqt]
        · have hqt : q ≠ t := fun e => hq (e ▸ hf.free)
          rw [write_memMap, hf.memMap, update_of_ne hqt]

theorem pageTable_memMap_lt {d : Slot} {t : Nat} (h : pageTable m d = some (t, m')) {p : Nat}
    (hp : m.memMap p < 255) : m'.memMap p < 255 := by
  unfold pageTable at h
  split at h
  · obtain ⟨-, rfl⟩ := Prod.mk.inj (Option.some.inj h)
    exact hp
  · obtain ⟨⟨tmp, m₁⟩, hg, he⟩ := Option.map_eq_some_iff.mp h
    obtain ⟨-, rfl⟩ := Prod.mk.inj he
    obtain ⟨-, -, -, rfl⟩ := getFreePage_eq hg
    show update m.memMap tmp 1 p < 255
    rcases eq_or_ne p tmp with rfl | hne
    · rw [update_self]
      omega
    · rw [update_of_ne hne]
      exact hp

/-- `put_page` by a holder, where nothing is mapped: the entry takes over its share. -/
theorem Paged.putPage_spec (h : Paged z counted held m) {p address : Nat} (hm : z.Managed p)
    (hh : 1 ≤ held p) (hx : m.ent (posOf address) = none)
    (hc : counted (posOf address) = true) :
    (putPage m p address = (0, m) ∧ m.tableOf (dirSlot address) = none ∧
        getFreePage m = none) ∨
      ∃ t m', putPage m p address = (p, m') ∧
        Paged z counted (update held p (held p - 1)) m' ∧
        Tabled z m (dirSlot address) t m' ∧
        m'.ent = update m.ent (posOf address) (some (entry p)) := by
  have hpages := hm.lt_pages
  unfold putPage
  rcases h.pageTable_spec (dirSlot address) with ⟨hnone, ht, hg⟩ | ⟨t, m₁, hsome, htab, he₁, h₁⟩
  · rw [hnone]
    exact Or.inl ⟨rfl, ht, hg⟩
  · rw [hsome]
    have ht₁ : m₁.tableOf (posOf address).1 = some t := by
      rw [htab.tableOf]
      exact update_self _ _ _
    refine Or.inr ⟨t, _, rfl, ?_, ⟨(h₁.write_tableOf ht₁ _ _).trans htab.tableOf, htab.origin,
      fun q hq hqt => (write_phys_of_ne hqt).trans (htab.phys q hq hqt), htab.memMap⟩, ?_⟩
    · rw [← update_eq_self (posOf address) counted, hc]
      refine h₁.setEnt (x := posOf address) (e := entry p) ht₁ true rfl rfl h₁.cells
        (fun _ _ => Or.inr (by rwa [frame_entry hpages])) fun q _ => ?_
      rw [write_memMap, if_pos rfl, presentEntry_of (present_entry p), Option.map_some,
        frame_entry hpages, names_some]
      simp only [Mem.ref, Mem.page, he₁, hx]
      rcases eq_or_ne q p with rfl | hne
      · simp only [Option.map_none, ite_self, names_none, update_self, if_true]
        omega
      · simp [hne, hne.symm]
    · rw [← he₁, ← presentEntry_of (present_entry p)]
      exact h₁.write_ent (x := posOf address) ht₁ (entry p)

/-- What `un_wp_page` has done to the present entry `e` at `x`. -/
inductive UnWp (z : Zone) (x : Pos) (e : Word) (m m' : Mem) : Prop where
  /-- the page had one reference, and the entry gets its write bit -/
  | own (low : LOW_MEM ≤ frame e) (one : m.memMap (frame e) = 1)
      (ent : m'.ent = update m.ent x (some (e ||| 2))) (memMap : m'.memMap = m.memMap)
      (phys : ∀ q, 1 ≤ q → m.tableOf x.1 ≠ some q → m'.phys q = m.phys q)
  /-- the entry gets a page of its own, with the same contents -/
  | copy (p : Nat) (managed : z.Managed p) (free : m.memMap p = 0)
      (ent : m'.ent = update m.ent x (some (entry p)))
      (memMap : ∀ q, q ≠ p → q ≠ frame e → m'.memMap q = m.memMap q)
      (phys : ∀ q, 1 ≤ q → m.tableOf x.1 ≠ some q → q ≠ p → m'.phys q = m.phys q)
      (copied : m.tableOf x.1 ≠ some (frame e) → frame e ≠ p → m'.phys p = m.phys (frame e))

/-- `un_wp_page` on a counted entry; without a free page it kills the task. -/
theorem Paged.unWpPage_spec (h : Paged z counted held m) {x : Pos} {t : Nat} {e : Word}
    (ht : m.tableOf x.1 = some t) (he : m.ent x = some e) (hx : Ordinary x)
    (hc : LOW_MEM ≤ frame e → counted x = true) :
    (unWpPage m t x.2 = none ∧ getFreePage m = none) ∨
      ∃ m', unWpPage m t x.2 = some m' ∧ Paged z (update counted x true) held m' ∧
        m'.tableOf = m.tableOf ∧ UnWp z x e m m' := by
  obtain ⟨hpres, hphys⟩ := (ent_eq_some ht).mp he
  have hposT := h.table_pos _ _ ht
  unfold unWpPage
  simp only [hphys]
  split
  · rename_i hown
    obtain ⟨h₁, ht₁, he₁⟩ := h.rewrite ht he ((present_or_two e).mpr hpres) (frame_or_two e)
    have hcx : update counted x true = counted := by
      rw [← hc hown.1, update_eq_self]
    refine Or.inr ⟨_, rfl, hcx.symm ▸ h₁, ht₁, .own hown.1 hown.2 he₁ rfl fun q _ hq =>
      write_phys_of_ne fun e => hq (e ▸ ht)⟩
  · cases hg : getFreePage m with
    | none => exact Or.inl ⟨rfl, rfl⟩
    | some r =>
        obtain ⟨p, m₁⟩ := r
        obtain ⟨hf, h₁⟩ := h.getFreePage_spec hg
        have h0 := (h.unused hf.managed hf.free).2.2
        have hframe : frame (entry p) = p := frame_entry hf.managed.lt_pages
        have hlow := z.lowMem_le
        have hpt : p ≠ t := fun e => hf.not_table _ (e ▸ ht)
        -- what the count of the old page becomes
        let m₂ := if LOW_MEM ≤ frame e then
          m₁.setCount (frame e) (m₁.memMap (frame e) + 255) else m₁
        let m₃ := m₂.write t x.2 (entry p)
        let m₄ : Mem := { m₃ with phys := update m₃.phys p (m₃.phys (frame e)) }
        have hphys₂ : m₂.phys = m₁.phys := by
          simp only [m₂]; split <;> rfl
        have hold : LOW_MEM ≤ frame e → z.Managed (frame e) ∧ 1 ≤ m.memMap (frame e) ∧
            frame e ≠ p := fun hle => by
          have hm := (h.ent_ok x e hx he).resolve_left (by omega)
          have hr : m.ref counted (.inr x) = some (frame e) := by
            simp [Mem.ref, hc hle, Mem.page, he]
          have hpos := h.balanced.pos_of_ref hm hr
          refine ⟨hm, hpos, fun e' => ?_⟩
          have := hf.free
          rw [← e'] at this
          omega
        have hmap₂ : ∀ q, m₂.memMap q + (if LOW_MEM ≤ frame e then names q (some (frame e))
            else 0) = m₁.memMap q := by
          intro q
          simp only [m₂]
          split
          · rename_i hle
            obtain ⟨hm, hpos, hne⟩ := hold hle
            have hchar := (h.cells (frame e)).1
            have hold₁ : m₁.memMap (frame e) = m.memMap (frame e) := by
              rw [hf.memMap, update_of_ne hne]
            rw [names_some]
            rcases eq_or_ne q (frame e) with rfl | hq
            · rw [if_pos rfl]
              simp only [Mem.setCount, update_self, hold₁]
              omega
            · simp [Mem.setCount, hq, hq.symm]
          · rfl
        have htx : m₁.tableOf x.1 = some t := by rw [hf.tableOf, ht]
        have hphys₃ : m₃.phys = (m₁.write t x.2 (entry p)).phys := by
          simp [m₃, Mem.write, hphys₂]
        have hhigh₃ : m₃.HIGH_MEMORY = m₁.HIGH_MEMORY := by
          simp only [m₃, m₂, write_HIGH_MEMORY]; split <;> rfl
        have hcells₃ : Cells z m₃.memMap := by
          simp only [m₃, m₂, write_memMap]
          split
          · rename_i hle
            obtain ⟨hm, -⟩ := hold hle
            rw [Mem.setCount]
            exact h₁.cells.update hm (Nat.mod_lt _ (by omega))
          · exact h₁.cells
        have h₃ : Paged z (update counted x true) held m₃ := by
          refine h₁.setEnt (x := x) htx true hphys₃ hhigh₃ hcells₃
            (fun _ _ => Or.inr (by rw [hframe]; exact hf.managed)) fun q hq => ?_
          have := hmap₂ q
          have hr : names q (m₁.ref counted (.inr x))
              = if LOW_MEM ≤ frame e then names q (some (frame e)) else 0 := by
            have hpage : m₁.page x = some (frame e) := by simp [Mem.page, hf.ent, he]
            split
            · rename_i hle
              simp [Mem.ref, hc hle, hpage]
            · rename_i hle
              have hne : frame e ≠ q := by
                have := hq.1
                omega
              rcases hb : counted x with _ | _ <;>
                simp [Mem.ref, hb, hpage, names_some, hne]
          rw [hr, if_pos rfl, presentEntry_of (present_entry p), Option.map_some, hframe,
            names_some q p]
          simp only [m₃, write_memMap]
          rcases eq_or_ne q p with rfl | hne
          · simp only [update_self, if_true]
            omega
          · simp only [update_of_ne hne, hne.symm, if_false]
            omega
        have ht₃ : m₃.tableOf = m.tableOf :=
          ((tableOf_of_phys hphys₃).trans (h₁.write_tableOf htx _ _)).trans hf.tableOf
        have he₃ : m₃.ent = update m.ent x (some (entry p)) := by
          rw [ent_of_phys hphys₃, h₁.write_ent htx, presentEntry_of (present_entry p), hf.ent]
        have hdir₄ : ∀ d, m₄.dir d = m₃.dir d := fun d => by
          have := hf.lowMem_le
          have h256 : LOW_MEM = 0x100 := rfl
          simp [m₄, Mem.dir, show (0 : Nat) ≠ p by omega]
        have hcell₄ : ∀ d t i, m₃.tableOf d = some t → m₄.phys t i = m₃.phys t i :=
          fun d t' i ht' => by
            have : t' ≠ p := fun e => hf.not_table d (by rw [← ht₃, ht', e])
            simp [m₄, this]
        have ht₄ := tableOf_congr hdir₄
        have he₄ := ent_congr hdir₄ hcell₄
        have h₄ : Paged z (update counted x true) held m₄ := by
          refine ⟨h₃.high, h₃.cells, ?_, ?_, ?_, ?_, ?_⟩
          · rw [ht₄]; exact h₃.table_pos
          · rw [ht₄]; exact h₃.table_inj
          · rw [ht₄]; exact h₃.table_ok
          · rw [he₄]; exact h₃.ent_ok
          · rw [ref_congr ht₄ he₄]
            exact h₃.balanced
        have hother : ∀ q, q ≠ t → m₃.phys q = m₁.phys q := fun q hq => by
          rw [hphys₃, write_phys_of_ne hq]
        refine Or.inr ⟨m₄, rfl, h₄, ht₄.trans ht₃, .copy p hf.managed hf.free (he₄.trans he₃)
          (fun q hqp hqe => ?_) (fun q hq1 hqt hqp => ?_) fun htab hne => ?_⟩
        · have := hmap₂ q
          rw [names_some, if_neg (Ne.symm hqe), ite_self, Nat.add_zero, hf.memMap,
            update_of_ne hqp] at this
          exact this
        · show update m₃.phys p (m₃.phys (frame e)) q = _
          rw [update_of_ne hqp, hother q (fun e => hqt (e ▸ ht)), hf.phys, update_of_ne hqp]
        · show update m₃.phys p (m₃.phys (frame e)) p = _
          have hne' : frame e ≠ t := fun e' => htab (by rw [e', ht])
          rw [update_self, hother _ hne', hf.phys, update_of_ne hne]

/-- A free page `p`, cleared, is now mapped at an address, by the page table `t`. -/
structure Filled (z : Zone) (m : Mem) (address p t : Nat) (m' : Mem) : Prop where
  managed : z.Managed p
  free : m.memMap p = 0
  ne : p ≠ t
  origin : m.tableOf (dirSlot address) = some t ∨
    m.tableOf (dirSlot address) = none ∧ z.Managed t ∧ m.memMap t = 0
  tableOf : m'.tableOf = update m.tableOf (dirSlot address) (some t)
  ent : m'.ent = update m.ent (posOf address) (some (entry p))
  page : m'.phys p = fun _ => 0
  phys : ∀ q, 1 ≤ q → q ≠ t → q ≠ p → m'.phys q = m.phys q

/-- `get_empty_page` where nothing is mapped, or out of memory. -/
theorem Paged.getEmptyPage_spec (h : Paged z counted held m) {address : Nat}
    (hx : m.ent (posOf address) = none) (hc : counted (posOf address) = true) :
    ∃ r m', getEmptyPage m address = .ok (r, m') ∧ Paged z counted held m' ∧
      (r = false ∧ m'.tableOf = m.tableOf ∧ m'.ent = m.ent ∧
          (∀ q, m.memMap q ≠ 0 → m'.phys q = m.phys q) ∨
        r = true ∧ ∃ p t, Filled z m address p t m') := by
  unfold getEmptyPage
  cases hg : getFreePage m with
  | none => exact ⟨false, m, rfl, h, Or.inl ⟨rfl, rfl, rfl, fun _ _ => rfl⟩⟩
  | some r =>
      obtain ⟨p, m₁⟩ := r
      obtain ⟨hf, h₁⟩ := h.getFreePage_spec hg
      have h0 := (h.unused hf.managed hf.free).2.2
      have hback : update (update held p 1) p (update held p 1 p - 1) = held := by
        simp [← h0]
      have hlow := hf.lowMem_le
      have h256 : LOW_MEM = 0x100 := rfl
      have hother : ∀ q, q ≠ p → m₁.phys q = m.phys q := fun q hq => by
        rw [hf.phys, update_of_ne hq]
      rcases h₁.putPage_spec hf.managed (by simp) (by rw [hf.ent, hx]) hc with
        ⟨hput, -, -⟩ | ⟨t, m₂, hput, h₂, htab, he₂⟩
      · obtain ⟨hfree, h₂⟩ := h₁.drop hf.managed (by simp)
        simp only [hput, if_true, hfree]
        refine ⟨false, uncount m₁ p, rfl, hback ▸ h₂, Or.inl ⟨rfl, ?_, ?_, fun q hq => ?_⟩⟩
        · rw [tableOf_of_phys (uncount_phys m₁ p), hf.tableOf]
        · rw [ent_of_phys (uncount_phys m₁ p), hf.ent]
        · rw [uncount_phys]
          exact hother q fun e => hq (e ▸ hf.free)
      · simp only [hput, if_neg (show p ≠ 0 by omega)]
        have hpt : p ≠ t := fun e => by
          rcases htab.origin with ht | ⟨-, -, ht⟩
          · exact hf.not_table _ (by rw [← hf.tableOf, ht, e])
          · rw [← e, hf.memMap, update_self] at ht
            omega
        refine ⟨true, m₂, rfl, hback ▸ h₂, Or.inr ⟨rfl, p, t, hf.managed, hf.free, hpt, ?_, ?_, ?_,
          ?_, fun q hq1 hqt hqp => (htab.phys q hq1 hqt).trans (hother q hqp)⟩⟩
        · refine htab.origin.imp (fun ht => by rw [← hf.tableOf, ht]) fun ⟨ht, hm, ht0⟩ => ?_
          rw [hf.tableOf] at ht
          rw [hf.memMap, update_of_ne hpt.symm] at ht0
          exact ⟨ht, hm, ht0⟩
        · rw [htab.tableOf, hf.tableOf]
        · rw [he₂, hf.ent]
        · rw [htab.phys p (by omega) hpt, hf.phys, update_self]

/-- The entry `e` at `x` is now shared with `y`, without its write bit. -/
structure Shared (z : Zone) (x y : Pos) (e : Word) (t : Nat) (m m' : Mem) : Prop where
  present : m.ent x = some e
  low : LOW_MEM ≤ frame e
  origin : m.tableOf y.1 = some t ∨ m.tableOf y.1 = none ∧ z.Managed t ∧ m.memMap t = 0
  tableOf : m'.tableOf = update m.tableOf y.1 (some t)
  ent : m'.ent = update (update m.ent x (some (wrprotect e))) y (some (wrprotect e))

theorem Paged.tryToShare_spec (h : Paged z counted held m) {address start dest : Nat} {x y : Pos}
    (hx : x = (dirSlot (address + start), tableSlot address))
    (hy : y = (dirSlot (address + dest), tableSlot address))
    (hne : x.1 ≠ y.1) (hord : Ordinary x) (hye : m.ent y = none) (hcy : counted y = true)
    (hroom : ∀ p, LOW_MEM ≤ p → m.page x = some p → m.memMap p < 255) :
    ∃ r m', tryToShare m address start dest = .ok (r, m') ∧ Paged z counted held m' ∧
      (r ≠ some 1 ∧ m' = m ∨ r = some 1 ∧ ∃ e t, Shared z x y e t m m') := by
  have hx1 : dirSlot (address + start) = x.1 := by rw [hx]
  have hy1 : dirSlot (address + dest) = y.1 := by rw [hy]
  have hx2 : tableSlot address = x.2 := by rw [hx]
  have hy2 : tableSlot address = y.2 := by rw [hy]
  have hxy : x ≠ y := fun e => hne (congrArg Prod.fst e)
  unfold tryToShare
  dsimp only
  rw [hx1, hy1, hx2]
  split
  · exact ⟨some 0, m, rfl, h, Or.inl ⟨by simp, rfl⟩⟩
  rename_i hpres
  have ht : m.tableOf x.1 = some (m.table x.1) := if_pos (not_not.mp hpres)
  split
  · exact ⟨some 0, m, rfl, h, Or.inl ⟨by simp, rfl⟩⟩
  rename_i hclean
  split
  · exact ⟨some 0, m, rfl, h, Or.inl ⟨by simp, rfl⟩⟩
  rename_i hrange
  set e := m.phys (m.table x.1) x.2 with he
  have hpe : Present e := present_of_clean (not_not.mp hclean)
  have hxe : m.ent x = some e := (ent_eq_some ht).mpr ⟨hpe, rfl⟩
  have hlow : LOW_MEM ≤ frame e := by omega
  have hm : z.Managed (frame e) := (h.ent_ok x e hord hxe).resolve_left (by omega)
  have hlt := hroom (frame e) hlow (by simp [Mem.page, hxe])
  rcases h.pageTable_spec y.1 with ⟨hnone, -, -⟩ | ⟨t, m₁, hsome, htab, he₁, h₁⟩
  · rw [hnone]
    exact ⟨none, m, rfl, h, Or.inl ⟨by simp, rfl⟩⟩
  have htx : m₁.tableOf x.1 = some (m.table x.1) := by rw [htab.tableOf, update_of_ne hne, ht]
  have hty : m₁.tableOf y.1 = some t := by rw [htab.tableOf, update_self]
  have hxe₁ : m₁.ent x = some e := by rw [he₁, hxe]
  have hphys₁ : m₁.phys (m.table x.1) x.2 = e := ((ent_eq_some htx).mp hxe₁).2
  have hnp : ¬Present (m₁.phys t x.2) := by
    rw [← hx2, hy2]
    exact (ent_eq_none hty).mp (by rw [he₁, hye])
  simp only [hsome, if_neg hnp, hphys₁]
  -- the original loses its write bit, then the copy is made and counted
  let m₂ := m₁.write (m.table x.1) x.2 (wrprotect e)
  have hwp : Present (wrprotect e) := (present_wrprotect e).mpr hpe
  obtain ⟨h₂, ht₂, he₂⟩ := h₁.rewrite htx hxe₁ hwp (frame_wrprotect e)
  have hcell : m₂.phys (m.table x.1) x.2 = wrprotect e := by simp [m₂]
  let m₃ := (m₂.write t x.2 (wrprotect e)).setCount (frame e) (m₂.memMap (frame e) + 1)
  have hlt₂ : m₂.memMap (frame e) < 255 := pageTable_memMap_lt hsome hlt
  have hmap : m₃.memMap = update m₂.memMap (frame e) (m₂.memMap (frame e) + 1) :=
    setCount_memMap _ _ (by omega)
  obtain ⟨h₃, ht₃, he₃, -⟩ := h₂.addEnt (x := y) (ht₂ ▸ hty)
    (by rw [he₂, update_of_ne hxy.symm, he₁, hye]) hcy hwp
    (by rw [← hy2, hx2]; rfl : m₃.phys = _) rfl
    (Or.inr (by rw [frame_wrprotect]; exact ⟨hm, hlt₂, hmap⟩))
  refine ⟨some 1, m₃, ?_, h₃, Or.inr ⟨rfl, e, t, hxe, hlow, htab.origin, ?_, ?_⟩⟩
  · show Except.ok (some 1, ((m₂.write t x.2 (m₂.phys (m.table x.1) x.2)).setCount (frame e)
      (m₂.memMap (frame e) + 1))) = _
    rw [hcell]
  · rw [ht₃, ht₂, htab.tableOf]
  · rw [he₃, he₂, he₁]

end Linux011
