import Linux011.Runs
import Linux011.UserAccess

/-!
# Copy on write

`copy_page_tables` lets two tasks map the same pages without write bits, and `un_wp_page` gives a
task that stores a page of its own, or the write bit when nobody else maps the page. That an
entry with its write bit is the only one that names its page is what makes the shortcut safe
(`Private`). So every task reads what it, or its ancestors before they forked it, stored last
(`private_memories`).

The abstract side is `lastStored`, a function of the events alone: what a task stored last at an
address, or before the fork that created it one of its ancestors. The simulation relation `Inv`
says that each living task reads just that, and keeps beside it the books of the pages (`Tasks`),
`Private`, and that a task that does not exist has no page table. A store is one change of one
view: where the entry has its write bit it is the only one that names the page (`Views`), and
where it has not, the fault first gives the task such an entry without changing what anybody
reads. A fork copies the views of the father (`Private.copied`) and takes the write bits away on
both sides, so that `Private` holds again; an exit takes only the views of the task that leaves.
That no call stops the machine comes out of the books.
-/

namespace Linux011

open Function RefCount Runs Views

variable {z : Zone} {held : Nat → Nat} {m m' : Mem}

/-- The pages of the tasks are above the first megabyte, and an entry with its write
bit is the only one that names its page. -/
structure Private (m : Mem) : Prop where
  above : ∀ x p, User x → m.page x = some p → LOW_MEM ≤ p
  exclusive : Exclusive User m.page m.WritableAt

/-- Every position shows what it showed before. -/
def SameViews (m m' : Mem) : Prop := ∀ x, User x → m'.view x = m.view x

theorem page_of_present {x : Pos} {e : Word} (he : m.ent x = some e) :
    m.page x = some (frame e) := by
  simp [Mem.page, he]

/-- A page of a task is no page table, and it is counted. -/
theorem Tasks.data_page (h : Tasks z held m) (hp : Private m) {x : Pos} {p : Nat} (hx : User x)
    (hpx : m.page x = some p) :
    LOW_MEM ≤ p ∧ (∀ d, m.tableOf d ≠ some p) ∧ m.memMap p ≠ 0 := by
  have hlow := hp.above x p hx hpx
  have hcount := h.paged.page_counted hx hpx hlow
  exact ⟨hlow, fun d => h.kinds.page_table x p d hx hpx hlow, by omega⟩

/-- A step that leaves the entries and the contents of the counted pages alone. -/
theorem Private.of_ent (hp : Private m) (h : Tasks z held m) (he : m'.ent = m.ent)
    (hphys : ∀ q, (∀ d, m.tableOf d ≠ some q) → m.memMap q ≠ 0 → LOW_MEM ≤ q →
      m'.phys q = m.phys q) :
    Private m' ∧ SameViews m m' := by
  have hpage := page_of_ent he
  refine ⟨⟨?_, ?_⟩, fun x hx => view_congr (congrFun hpage x) fun p hpx => ?_⟩
  · rw [hpage]
    exact hp.above
  · have hw : m'.WritableAt = m.WritableAt := by
      funext x
      rw [Mem.WritableAt, he, Mem.WritableAt]
    rw [hpage, hw]
    exact hp.exclusive
  · obtain ⟨hlow, htab, hcount⟩ := h.data_page hp hx hpx
    exact hphys p htab hcount hlow

/-- The right to write at `x`, where an entry is replaced and nobody else names its
page. -/
theorem Private.grant (hp : Private m) {x : Pos} {e : Word} (he : m'.ent = update m.ent x (some e))
    (hlow : LOW_MEM ≤ frame e)
    (hsole : ∀ y, User y → y ≠ x → m.page y ≠ some (frame e)) : Private m' := by
  have hpage := Mem.page_update he
  refine ⟨fun y p hy hpy => ?_, hp.exclusive.grant (i := x) (fun y hy => ⟨?_, ?_⟩) ?_⟩
  · rw [hpage] at hpy
    rcases eq_or_ne y x with rfl | hne
    · rw [update_self] at hpy
      exact Option.some.inj hpy ▸ hlow
    · rw [update_of_ne hne] at hpy
      exact hp.above y p hy hpy
  · rw [hpage, update_of_ne hy]
  · rintro ⟨e', he', hw⟩
    rw [he, update_of_ne hy] at he'
    exact ⟨e', he', hw⟩
  · intro y p hy hne hpx
    rw [hpage, update_self] at hpx
    exact Option.some.inj hpx ▸ hsole y hy hne

/-! ## What the functions of memory.c keep -/

/-- After `un_wp_page` the entry has its write bit, and nobody sees a difference. -/
theorem Private.unWp (hp : Private m) (h : Tasks z held m) {x : Pos} {e : Word}
    (he : m.ent x = some e) (hx : User x) (hu : UnWp z x e m m') :
    Private m' ∧ m'.WritableAt x ∧ SameViews m m' := by
  have hpx := page_of_present he
  obtain ⟨hlow, htab, hcount⟩ := h.data_page hp hx hpx
  have h256 : LOW_MEM = 256 := rfl
  cases hu with
  | own low one hent _ hphys =>
      refine ⟨hp.grant hent (by rwa [frame_or_two]) fun y hy hne hpy => ?_,
        ⟨e ||| 2, by rw [hent, update_self], writable_or_two e⟩, fun y hy => ?_⟩
      · rw [frame_or_two] at hpy
        exact hne (h.paged.page_unique hy hx hpy hpx low one)
      · have hsame : m'.page = m.page := by
          rw [Mem.page_update hent, Option.map_some, frame_or_two, ← hpx, update_eq_self]
        refine view_congr (congrFun hsame y) fun p hpy => ?_
        obtain ⟨hlow', htab', -⟩ := h.data_page hp hy hpy
        exact hphys p (by omega) (htab' x.1)
  | copy p managed free hent _ hphys hcopied =>
      have hframe := frame_entry managed.lt_pages
      have hpage : m'.page = update m.page x (some p) := by
        rw [Mem.page_update hent, Option.map_some, hframe]
      have hnew : LOW_MEM ≤ p := z.lowMem_le.trans managed.1
      refine ⟨hp.grant hent (by rwa [hframe]) fun y hy _ => ?_,
        ⟨entry p, by rw [hent, update_self], writable_entry p⟩, fun y hy => ?_⟩
      · rw [hframe]
        exact h.paged.page_unused managed free hy
      · rcases eq_or_ne y x with rfl | hne
        · refine view_moved hpx (by rw [hpage, update_self]) (hcopied (htab y.1) fun e' => ?_)
          exact hcount (e' ▸ free)
        · refine view_congr (by rw [hpage, update_of_ne hne]) fun q hq => ?_
          obtain ⟨hlow', htab', hcount'⟩ := h.data_page hp hy hq
          exact hphys q (by omega) (htab' x.1) fun e' => hcount' (e' ▸ free)

/-- `get_empty_page` maps a page of zeros where nothing was mapped. -/
theorem Private.filled (hp : Private m) (h : Tasks z held m) {address p t : Nat}
    (hx : m.page (posOf address) = none)
    (hf : Filled z m address p t m') :
    Private m' ∧ m'.WritableAt (posOf address) ∧ SameViews m m' := by
  have hframe := frame_entry hf.managed.lt_pages
  have hpage : m'.page = update m.page (posOf address) (some p) := by
    rw [Mem.page_update hf.ent, Option.map_some, hframe]
  have hnew : LOW_MEM ≤ p := z.lowMem_le.trans hf.managed.1
  have h256 : LOW_MEM = 256 := rfl
  refine ⟨hp.grant hf.ent (by rwa [hframe]) fun y hy _ => ?_,
    ⟨entry p, by rw [hf.ent, update_self], writable_entry p⟩, fun y hy => ?_⟩
  · rw [hframe]
    exact h.paged.page_unused hf.managed hf.free hy
  · rcases eq_or_ne y (posOf address) with rfl | hne
    · refine (view_some (by rw [hpage, update_self])).trans (hf.page.trans ?_)
      exact (view_none hx).symm
    · refine view_congr (by rw [hpage, update_of_ne hne]) fun q hq => ?_
      obtain ⟨hlow, htab, hcount⟩ := h.data_page hp hy hq
      refine hf.phys q (by omega) (fun e => ?_) fun e => hcount (e ▸ hf.free)
      rcases hf.origin with ht | ⟨-, -, h0⟩
      · exact htab _ (e ▸ ht)
      · exact hcount (e ▸ h0)

/-- `free_page_tables` takes only the views of the task. -/
theorem Private.freed (hp : Private m) (h : Tasks z held m) {dirs : List Slot}
    (hf : Freed dirs m m') :
    Private m' ∧ ∀ x, User x → x.1 ∉ dirs → m'.view x = m.view x := by
  have hpage : ∀ {x p}, m'.page x = some p → m.page x = some p := by
    intro x p hpx
    rw [Mem.page, hf.ent] at hpx
    split at hpx
    · cases hpx
    · exact hpx
  have h256 : LOW_MEM = 256 := rfl
  refine ⟨⟨fun x p hx hpx => hp.above x p hx (hpage hpx), hp.exclusive.share ?_ fun x p _ hpx =>
    Or.inl (hpage hpx)⟩, fun x hx hnot => view_congr ?_ fun p hpx => ?_⟩
  · rintro x p - ⟨e, he, hw⟩ hpx
    rw [hf.ent] at he
    split at he
    · cases he
    · exact ⟨⟨e, he, hw⟩, hpage hpx⟩
  · rw [Mem.page, hf.ent, if_neg hnot, Mem.page]
  · obtain ⟨hlow, htab, -⟩ := h.data_page hp hx hpx
    exact hf.phys p (by omega) fun d _ => htab d

theorem wrprotect_not_writable {x : Pos} {o : Option Word} (h : m.ent x = o.map wrprotect) :
    ¬m.WritableAt x := by
  rintro ⟨e', he', hw⟩
  obtain ⟨e, -, rfl⟩ := Option.map_eq_some_iff.mp (h ▸ he')
  exact not_writable_wrprotect e hw

theorem Private.wrprotectAbove_not_writable (hp : Private m) {x : Pos} (hx : User x)
    (h : m'.ent x = (m.ent x).map wrprotectAbove) : ¬m'.WritableAt x := by
  rintro ⟨e', he', hw⟩
  obtain ⟨e, he, rfl⟩ := Option.map_eq_some_iff.mp (h ▸ he')
  have hlow := hp.above x (frame e) hx (page_of_present he)
  rw [wrprotectAbove, if_pos hlow] at hw
  exact not_writable_wrprotect e hw

/-- The place of a directory entry in its task. -/
theorem eq_taskDir {d : Slot} {nr : Nat} (h : d.val / 16 = nr) (hnr : nr < 64) :
    d = taskDir nr (d.val % 16) := by
  refine Fin.ext ?_
  rw [taskDir_val hnr (Nat.mod_lt _ (by decide))]
  omega

theorem mem_zip_task (src dst : Nat) {k : Nat} (hk : k < 16) :
    (taskDir src k, taskDir dst k) ∈
      (dirSlots (src * TASK_SIZE) TASK_SIZE).zip (dirSlots (dst * TASK_SIZE) TASK_SIZE) := by
  rw [zip_dirSlots]
  exact List.mem_map.mpr ⟨k, List.mem_range.mpr hk, rfl⟩

/-- After `copy_page_tables` the tasks see what they saw, and the new task, when the
copy is complete, what the old one sees. -/
theorem Private.copied (hp : Private m) (h : Tasks z held m) {src dst : Nat} {r : Int}
    (h1 : 1 ≤ src) (hsrc : src < 64) (hdst : dst < 64)
    (hc : Copied z (copiedEntries (src * TASK_SIZE))
      ((dirSlots (src * TASK_SIZE) TASK_SIZE).zip (dirSlots (dst * TASK_SIZE) TASK_SIZE)) m r m') :
    Private m' ∧ (∀ x, User x → taskOf x ≠ dst → m'.view x = m.view x) ∧
      (r = 0 → ∀ k < 16, ∀ i, m'.view (taskDir dst k, i) = m.view (taskDir src k, i)) := by
  have h256 : LOW_MEM = 256 := rfl
  have hsrcUser : ∀ {k i}, k < 16 → User (taskDir src k, i) := fun {k i} hk =>
    show 16 ≤ (taskDir src k).val by rw [taskDir_val hsrc hk]; omega
  -- outside of the new task an entry loses at most its write bit
  have hother : ∀ x, taskOf x ≠ dst →
      m'.ent x = m.ent x ∨ m'.ent x = (m.ent x).map wrprotectAbove := by
    intro x hx
    refine (hc.ent x fun y hy e => ?_).imp_right And.right
    obtain ⟨k, hk, -, -, -, hy2⟩ := mem_zip_dirSlots hsrc hdst (Nat.le_refl TASK_SIZE) hy
    rw [taskOf, ← e] at hx
    omega
  have hpage : ∀ x, taskOf x ≠ dst → m'.page x = m.page x := by
    intro x hx
    rcases hother x hx with he | he
    · rw [Mem.page, he, Mem.page]
    · have hcomp : frame ∘ wrprotectAbove = frame := funext frame_wrprotectAbove
      rw [Mem.page, he, Option.map_map, hcomp, Mem.page]
  have hcopy : ∀ x, taskOf x = dst → m'.ent x = none ∨
      ∃ k < 16, m'.ent x = (m.ent (taskDir src k, x.2)).map wrprotect ∧
        m'.ent (taskDir src k, x.2) = (m.ent (taskDir src k, x.2)).map wrprotectAbove := by
    intro x hx
    have hk : x.1.val % 16 < 16 := Nat.mod_lt _ (by decide)
    have hxd : m'.ent x = m'.ent (taskDir dst (x.1.val % 16), x.2) :=
      congrArg m'.ent (Prod.ext (eq_taskDir hx hdst) rfl)
    refine (hc.copy _ (mem_zip_task src dst hk) x.2).imp hxd.trans fun he => ?_
    exact ⟨x.1.val % 16, hk, hxd.trans he.2.1, he.2.2⟩
  have hphys : ∀ {x p}, User x → m.page x = some p → m'.phys p = m.phys p := by
    intro x p hx hpx
    obtain ⟨hlow, htab, hcount⟩ := h.data_page hp hx hpx
    refine hc.phys p (by omega) fun d ht => ?_
    rcases hc.fresh d p ht with ht | ⟨-, h0⟩
    · exact htab d ht
    · exact hcount h0
  have hcopied : ∀ {x p}, taskOf x = dst → m'.page x = some p →
      ∃ k < 16, m.page (taskDir src k, x.2) = some p ∧ ¬m'.WritableAt (taskDir src k, x.2) := by
    intro x p hx hpx
    rcases hcopy x hx with he | ⟨k, hk, he, he'⟩
    · rw [Mem.page, he] at hpx
      cases hpx
    · have hcomp : frame ∘ wrprotect = frame := funext frame_wrprotect
      rw [Mem.page, he, Option.map_map, hcomp] at hpx
      exact ⟨k, hk, hpx, hp.wrprotectAbove_not_writable (hsrcUser hk) he'⟩
  refine ⟨⟨fun x p hx hpx => ?_, hp.exclusive.share (fun x p hx hw hpx => ?_) fun x p hx hpx => ?_⟩,
    fun x hx hne => view_congr (hpage x hne) fun p hpx => hphys hx hpx, fun h0 k hk i => ?_⟩
  · rcases eq_or_ne (taskOf x) dst with hd | hd
    · obtain ⟨k, hk, hpk, -⟩ := hcopied hd hpx
      exact hp.above _ p (hsrcUser hk) hpk
    · exact hp.above x p hx (hpage x hd ▸ hpx)
  · rcases eq_or_ne (taskOf x) dst with hd | hd
    · rcases hcopy x hd with he | ⟨k, -, he, -⟩
      · rw [Mem.page, he] at hpx
        cases hpx
      · exact absurd hw (wrprotect_not_writable he)
    · rcases hother x hd with he | he
      · obtain ⟨e, he', hwe⟩ := hw
        exact ⟨⟨e, he ▸ he', hwe⟩, hpage x hd ▸ hpx⟩
      · exact absurd hw (hp.wrprotectAbove_not_writable hx he)
  · rcases eq_or_ne (taskOf x) dst with hd | hd
    · obtain ⟨k, hk, hpk, hnot⟩ := hcopied hd hpx
      exact Or.inr ⟨_, hsrcUser hk, hpk, hnot⟩
    · exact Or.inl (hpage x hd ▸ hpx)
  · have hstart : src * TASK_SIZE ≠ 0 := by simp only [TASK_SIZE]; omega
    have he := hc.complete h0 _ (mem_zip_task src dst hk) i (mem_copiedEntries hstart i)
    have hpk : m'.page (taskDir dst k, i) = m.page (taskDir src k, i) := by
      have hcomp : frame ∘ wrprotect = frame := funext frame_wrprotect
      rw [Mem.page, he, Option.map_map, hcomp, Mem.page]
    cases hps : m.page (taskDir src k, i) with
    | none => exact (view_none (hpk.trans hps)).trans (view_none hps).symm
    | some p =>
        refine (view_some (hpk.trans hps)).trans ((hphys (hsrcUser hk) hps).trans ?_)
        exact (view_some hps).symm

theorem Tasks.congr (h : Tasks z held m) (ht : m'.tableOf = m.tableOf) (he : m'.ent = m.ent)
    (hmap : m'.memMap = m.memMap) (hhigh : m'.HIGH_MEMORY = m.HIGH_MEMORY) : Tasks z held m' := by
  obtain ⟨hp, h₁, h₂, h₃, h₄, h₅, h₆, h₇, h₈⟩ := h
  refine ⟨hp.congr ht he hmap hhigh, h₁, h₂, ?_, ?_, ?_, ?_, ?_, ?_⟩
  · rwa [ht]
  · rwa [ht]
  · rwa [page_of_ent he]
  · rwa [page_of_ent he, ht]
  · rwa [page_of_ent he]
  · rwa [page_of_ent he]

/-- A store into a page that only one position may write. -/
theorem Private.write (hp : Private m) (h : Tasks z held m) {x : Pos} {p : Nat} (hx : User x)
    (hw : m.WritableAt x) (hpx : m.page x = some p) (i : Slot) (w : Word) :
    Tasks z held (m.write p i w) ∧ Private (m.write p i w) ∧
      (m.write p i w).tableOf = m.tableOf ∧
      ∀ y, User y →
        (m.write p i w).view y = if y = x then update (m.view x) i w else m.view y := by
  obtain ⟨hlow, htab, -⟩ := h.data_page hp hx hpx
  have h256 : LOW_MEM = 256 := rfl
  have hdir : ∀ d, (m.write p i w).dir d = m.dir d := fun d => by
    rw [Mem.dir, write_phys_of_ne (by omega), Mem.dir]
  have ht := tableOf_congr hdir
  have he : (m.write p i w).ent = m.ent := ent_congr hdir fun d t j hd => by
    rw [write_phys_of_ne fun e : t = p => htab d (e ▸ hd)]
  have hpage := page_of_ent he
  have hwr : (m.write p i w).WritableAt = m.WritableAt := by
    funext y
    rw [Mem.WritableAt, he, Mem.WritableAt]
  refine ⟨h.congr ht he rfl rfl, ⟨?_, ?_⟩, ht, fun y hy => ?_⟩
  · rw [hpage]
    exact hp.above
  · rw [hpage, hwr]
    exact hp.exclusive
  · rw [Mem.view, hpage]
    split
    · rename_i hyx
      rw [hyx, view_some hpx, write_phys_self, Mem.view, view_some hpx]
    · rename_i hyx
      exact hp.exclusive.view_store hx hw hpx _ hy hyx

theorem Private.mark (hp : Private m) (h : Tasks z held m) {address : Nat} {e : Word}
    (he : m.ent (posOf address) = some e) (dirty : Bool) :
    Tasks z held (m.mark address dirty) ∧ Private (m.mark address dirty) ∧
      (m.mark address dirty).tableOf = m.tableOf ∧ SameViews m (m.mark address dirty) ∧
      (m.mark address dirty).ent (posOf address) = some (e ||| accessBits dirty) := by
  obtain ⟨t, ht⟩ := ent_tableOf he
  obtain ⟨hpres, hphys⟩ := (ent_eq_some ht).mp he
  have htab : m.table (dirSlot address) = t := table_of_tableOf ht
  have hmark : m.mark address dirty = m.write t (tableSlot address) (e ||| accessBits dirty) := by
    show m.write (m.table (dirSlot address)) (tableSlot address)
      (m.phys (m.table (dirSlot address)) (tableSlot address) ||| _) = _
    rw [htab, show m.phys t (tableSlot address) = e from hphys]
  obtain ⟨h', ht', he'⟩ := h.rewrite ht he (present_access hpres dirty) (frame_access e dirty)
  change Tasks z held (m.write t (tableSlot address) _) at h'
  change (m.write t (tableSlot address) _).tableOf = _ at ht'
  change (m.write t (tableSlot address) _).ent = _ at he'
  rw [← hmark] at h' ht' he'
  have hpage : (m.mark address dirty).page = m.page := by
    rw [Mem.page_update he', Option.map_some, frame_access, ← page_of_present he, update_eq_self]
  refine ⟨h', ⟨?_, ?_⟩, ht', fun y hy => view_congr (congrFun hpage y) fun p hpy => ?_, ?_⟩
  · rw [hpage]
    exact hp.above
  · refine hp.exclusive.share (fun y p hy hw hpy => ⟨?_, hpage ▸ hpy⟩) fun y p hy hpy =>
      Or.inl (hpage ▸ hpy)
    obtain ⟨e', hey, hwe⟩ := hw
    rw [he'] at hey
    rcases eq_or_ne y (posOf address) with rfl | hne
    · rw [update_self] at hey
      obtain rfl := Option.some.inj hey
      exact ⟨e, he, (writable_access e dirty).mp hwe⟩
    · rw [update_of_ne hne] at hey
      exact ⟨e', hey, hwe⟩
  · rw [hmark]
    exact write_phys_of_ne fun e' => (h.data_page hp hy hpy).2.1 _ (e' ▸ ht)
  · rw [he', update_self]

/-! ## Loads and stores -/

/-- The page fault handlers change no view, and map the page for the access. -/
theorem Private.pageFault_spec (hp : Private m) (h : Tasks z held m) {address : Nat}
    (hu : User (posOf address)) (store : Bool) :
    ∃ r m', pageFault m address store = .ok (r, m') ∧ Tasks z held m' ∧ Private m' ∧
      SameViews m m' ∧ (∀ d, d ≠ dirSlot address → m'.tableOf d = m.tableOf d) ∧
      (r = true → ∃ e, m'.ent (posOf address) = some e ∧ (store = true → Writable e)) := by
  unfold pageFault
  cases he : m.ent (posOf address) with
  | none =>
      have hx : m.page (posOf address) = none := by simp [Mem.page, he]
      obtain ⟨r, m', hm, h', ⟨rfl, ht, he', hphys⟩ | ⟨rfl, p, t, hf⟩⟩ := h.empty hu hx
      · obtain ⟨hp', hv⟩ := hp.of_ent h he' fun q _ hq _ => hphys q hq
        exact ⟨false, m', hm, h', hp', hv, fun d _ => by rw [ht], fun hr => by cases hr⟩
      · obtain ⟨hp', ⟨e, he', hw⟩, hv⟩ := hp.filled h hx hf
        exact ⟨true, m', hm, h', hp', hv,
          fun d hd => by rw [hf.tableOf, update_of_ne hd], fun _ => ⟨e, he', fun _ => hw⟩⟩
  | some e =>
      dsimp only
      split
      · obtain ⟨t, ht⟩ := ent_tableOf he
        have htab : m.table (dirSlot address) = t := table_of_tableOf ht
        rw [doWpPage, htab]
        rcases h.unWp ht he hu with hnone | ⟨m', hm, h', ht', hun⟩
        · rw [show unWpPage m t (tableSlot address) = none from hnone]
          exact ⟨false, m, rfl, h, hp, fun _ _ => rfl, fun _ _ => rfl, fun hr => by cases hr⟩
        · rw [show unWpPage m t (tableSlot address) = some m' from hm]
          obtain ⟨hp', ⟨e', he', hw⟩, hv⟩ := hp.unWp h he hu hun
          exact ⟨true, m', rfl, h', hp', hv, fun d _ => by rw [ht'],
            fun _ => ⟨e', he', fun _ => hw⟩⟩
      · rename_i hnot
        refine ⟨true, m, rfl, h, hp, fun _ _ => rfl, fun _ _ => rfl, fun _ => ⟨e, he, fun hs => ?_⟩⟩
        by_contra hw
        exact hnot ⟨hs, hw⟩

theorem address_ext {a b : Nat} (ha : a < 2 ^ 32) (hb : b < 2 ^ 32) (hp : posOf a = posOf b)
    (hw : wordSlot a = wordSlot b) (hk : a % 4 = b % 4) : a = b := by
  have h₁ : a / 0x400000 % 1024 = b / 0x400000 % 1024 := congrArg (fun x : Pos => x.1.val) hp
  have h₂ : a / 0x1000 % 1024 = b / 0x1000 % 1024 := congrArg (fun x : Pos => x.2.val) hp
  have h₃ : a % 0x1000 / 4 = b % 0x1000 / 4 := congrArg Fin.val hw
  omega

theorem SameViews.byteAt (h : SameViews m m') {address : Nat} (hu : User (posOf address)) :
    m'.byteAt address = m.byteAt address := by
  rw [Mem.byteAt_eq, Mem.byteAt_eq, h _ hu]

/-- A store changes one byte of one task, or nothing when the task is killed. -/
theorem Private.userStore_spec (hp : Private m) (h : Tasks z held m) {address : Nat}
    (hu : User (posOf address)) (hlt : address < 2 ^ 32) (value : Byte) :
    ∃ r m', userStore m address value = .ok (r, m') ∧ Tasks z held m' ∧ Private m' ∧
      (∀ d, d ≠ dirSlot address → m'.tableOf d = m.tableOf d) ∧
      ∀ a < 2 ^ 32, User (posOf a) →
        m'.byteAt a = if r = true ∧ a = address then value else m.byteAt a := by
  obtain ⟨r, m₁, hm, h₁, hp₁, hv₁, ht₁, hthere⟩ := hp.pageFault_spec h hu true
  simp only [userStore, hm]
  cases r with
  | false =>
      refine ⟨false, m₁, rfl, h₁, hp₁, ht₁, fun a _ hua => ?_⟩
      rw [if_neg (by simp)]
      exact hv₁.byteAt hua
  | true =>
      obtain ⟨e, he, hw⟩ := hthere rfl
      obtain ⟨h₂, hp₂, ht₂, hv₂, he₂⟩ := hp₁.mark h₁ he true
      have hw₂ : (m₁.mark address true).WritableAt (posOf address) :=
        ⟨_, he₂, (writable_access e true).mpr (hw rfl)⟩
      have hpx := page_of_present he₂
      obtain ⟨h₃, hp₃, ht₃, hv₃⟩ := hp₂.write h₂ hu hw₂ hpx (wordSlot address)
        (setByte ((m₁.mark address true).phys (frame (e ||| accessBits true)) (wordSlot address))
          (address % 4) value)
      refine ⟨true, _, rfl, ?_⟩
      simp only [if_true, true_and, Mem.storeByte, hpx]
      refine ⟨h₃, hp₃, fun d hd => by rw [ht₃, ht₂, ht₁ d hd], fun a ha hua => ?_⟩
      have hk : address % 4 < 4 := Nat.mod_lt _ (by decide)
      have hold : m.byteAt a
          = byteOf ((m₁.mark address true).view (posOf a) (wordSlot a)) (a % 4) := by
        rw [Mem.byteAt_eq, hv₂ _ hua, hv₁ _ hua]
      rw [Mem.byteAt_eq, hv₃ _ hua]
      rcases eq_or_ne a address with rfl | hne
      · rw [if_pos rfl, if_pos rfl, update_self, byteOf_setByte _ _ hk]
      · rw [if_neg hne, hold]
        split
        · rename_i hpos
          rw [hpos]
          rcases eq_or_ne (wordSlot a) (wordSlot address) with hw | hw
          · have hbyte : a % 4 ≠ address % 4 := fun hb => hne (address_ext ha hlt hpos hw hb)
            rw [hw, update_self, byteOf_setByte_ne _ _ hk hbyte, Mem.view, view_some hpx]
          · rw [update_of_ne hw]
        · rfl

theorem Private.userLoad_spec (hp : Private m) (h : Tasks z held m) {address : Nat}
    (hu : User (posOf address)) :
    ∃ r m', userLoad m address = .ok (r, m') ∧ Tasks z held m' ∧ Private m' ∧
      SameViews m m' ∧ ∀ d, d ≠ dirSlot address → m'.tableOf d = m.tableOf d := by
  obtain ⟨r, m₁, hm, h₁, hp₁, hv₁, ht₁, hthere⟩ := hp.pageFault_spec h hu false
  simp only [userLoad, hm]
  cases r with
  | false => exact ⟨false, m₁, rfl, h₁, hp₁, hv₁, ht₁⟩
  | true =>
      obtain ⟨e, he, -⟩ := hthere rfl
      obtain ⟨h₂, hp₂, ht₂, hv₂, -⟩ := hp₁.mark h₁ he false
      exact ⟨true, _, rfl, h₂, hp₂, fun x hx => (hv₂ x hx).trans (hv₁ x hx),
        fun d hd => (congrFun ht₂ d).trans (ht₁ d hd)⟩

/-! ## Runs -/

namespace CopyOnWrite

/-- The linear address of an address of task `nr`. -/
def linear (nr address : Nat) : Nat := address + nr * TASK_SIZE

/-- What the private memories depend on. -/
inductive Event where
  | stored (nr address : Nat) (value : Byte)
  | forked (src dst : Nat)

/-- The private memories: what the task stored last at the address, or before the fork
that created it an ancestor; the latest event comes first. -/
def lastStored : List Event → Nat → Nat → Byte
  | [], _, _ => 0
  | .stored nr address value :: history, nr', address' =>
    if nr' = nr ∧ address' = address then value else lastStored history nr' address'
  | .forked src dst :: history, nr', address' =>
    lastStored history (if nr' = dst then src else nr') address'

structure State where
  mem : Mem
  /-- the pages that the kernel holds for itself -/
  held : Nat → Nat
  alive : Nat → Bool
  history : List Event

inductive Act where
  | fork (src dst : Nat)
  | store (nr address : Nat) (value : Byte)
  | load (nr address : Nat)
  | exit (nr : Nat)
  | getFreePage
  | freePage (page : Nat)

def exit (s : State) (nr : Nat) : Except Panic State := do
  let mem ← freePageTables s.mem (nr * TASK_SIZE) TASK_SIZE
  pure { s with mem := mem, alive := update s.alive nr false }

def step (s : State) : Act → Except Panic State
  | .fork src dst => do
    let (r, mem) ← copyPageTables s.mem (src * TASK_SIZE) (dst * TASK_SIZE) TASK_SIZE
    if r = 0 then
      pure { s with mem := mem, alive := update s.alive dst true,
                    history := .forked src dst :: s.history }
    else do
      -- `copy_mem` gives up and there is no new task
      let mem ← freePageTables mem (dst * TASK_SIZE) TASK_SIZE
      pure { s with mem := mem }
  | .store nr address value => do
    let (there, mem) ← userStore s.mem (linear nr address) value
    if there then pure { s with mem := mem, history := .stored nr address value :: s.history }
    else exit { s with mem := mem } nr
  | .load nr address => do
    let (there, mem) ← userLoad s.mem (linear nr address)
    if there then pure { s with mem := mem } else exit { s with mem := mem } nr
  | .exit nr => exit s nr
  | .getFreePage => .ok <| match getFreePage s.mem with
    | none => s
    | some (page, mem) => { s with mem := mem, held := update s.held page 1 }
  | .freePage page => do
    let mem ← freePage s.mem page
    pure { s with mem := mem, held := update s.held page 0 }

def Admissible (s : State) : Act → Prop
  | .fork src dst => s.alive src = true ∧ s.alive dst = false ∧ 1 ≤ dst ∧ dst < 64
  | .store nr address _ => s.alive nr = true ∧ address < TASK_SIZE
  | .load nr address => s.alive nr = true ∧ address < TASK_SIZE
  | .exit nr => s.alive nr = true
  | .getFreePage => True
  | .freePage page => 1 ≤ s.held page

def run (s : State) (a : Act) : Option State := (step s a).toOption

/-- No task has stored anything yet. -/
def start (z : Zone) (rest : Nat → Slot → Word) (alive : Nat → Bool) : State :=
  ⟨memInit rest z.start z.stop, fun _ => 0, alive, []⟩

/-- Each task reads from its private memory, and no call stops the machine. -/
structure Refines (s : State) : Prop where
  reads : ∀ nr address, s.alive nr = true → address < TASK_SIZE →
    s.mem.byteAt (linear nr address) = lastStored s.history nr address
  no_panic : ∀ a, Admissible s a → ∃ s', step s a = .ok s'

structure Inv (z : Zone) (s : State) : Prop where
  tasks : Tasks z s.held s.mem
  priv : Private s.mem
  alive : ∀ nr, s.alive nr = true → 1 ≤ nr ∧ nr < 64
  empty : ∀ d : Slot, 16 ≤ d.val → s.alive (d.val / 16) = false → s.mem.tableOf d = none
  reads : ∀ nr address, s.alive nr = true → address < TASK_SIZE →
    s.mem.byteAt (linear nr address) = lastStored s.history nr address

variable {s s' : State}

theorem linear_spec {nr address : Nat} (h1 : 1 ≤ nr) (hnr : nr < 64) (ha : address < TASK_SIZE) :
    User (posOf (linear nr address)) ∧ linear nr address < 2 ^ 32 ∧
      (dirSlot (linear nr address)).val / 16 = nr := by
  obtain ⟨-, hval⟩ := posOf_task ha hnr
  have hdiv : address / 0x400000 < 16 := by
    simp only [TASK_SIZE] at ha
    omega
  refine ⟨show 16 ≤ (dirSlot (linear nr address)).val from ?_, ?_, ?_⟩
  · rw [linear, hval]
    omega
  · simp only [linear, TASK_SIZE] at ha ⊢
    omega
  · rw [linear, hval]
    omega

/-- The entry of an address, by its place in the address space. -/
theorem posOf_linear {nr address : Nat} (hnr : nr < 64) (ha : address < TASK_SIZE) :
    address / 0x400000 < 16 ∧
      posOf (linear nr address) = (taskDir nr (address / 0x400000), tableSlot address) := by
  obtain ⟨hpos, hval⟩ := posOf_task ha hnr
  have hdiv : address / 0x400000 < 16 := by
    simp only [TASK_SIZE] at ha
    omega
  refine ⟨hdiv, hpos.trans (Prod.ext (Fin.ext ?_) rfl)⟩
  rw [hval, taskDir_val hnr hdiv]

theorem linear_inj {nr nr' a a' : Nat} (ha : a < TASK_SIZE) (ha' : a' < TASK_SIZE) :
    linear nr a = linear nr' a' ↔ nr = nr' ∧ a = a' := by
  simp only [linear, TASK_SIZE] at *
  constructor
  · intro h
    omega
  · rintro ⟨rfl, rfl⟩
    rfl

/-- A copied view shows the new task the bytes of the old one. -/
theorem byteAt_linear {m m' : Mem} {src dst address : Nat} (hsrc : src < 64) (hdst : dst < 64)
    (ha : address < TASK_SIZE)
    (hv : ∀ k < 16, ∀ i, m'.view (taskDir dst k, i) = m.view (taskDir src k, i)) :
    m'.byteAt (linear dst address) = m.byteAt (linear src address) := by
  obtain ⟨hk, hpos⟩ := posOf_linear hsrc ha
  obtain ⟨-, hpos'⟩ := posOf_linear hdst ha
  have hword : wordSlot (linear dst address) = wordSlot (linear src address) := Fin.ext (by
    simp only [wordSlot, linear, TASK_SIZE]
    omega)
  have hbyte : linear dst address % 4 = linear src address % 4 := by
    simp only [linear, TASK_SIZE]
    omega
  rw [Mem.byteAt_eq, Mem.byteAt_eq, hpos, hpos', hword, hbyte, hv _ hk]

theorem mem_dirSlots_iff {nr : Nat} (hnr : nr < 64) {d : Slot} :
    d ∈ dirSlots (nr * TASK_SIZE) TASK_SIZE ↔ d.val / 16 = nr := by
  constructor
  · exact mem_dirSlots_task hnr (Nat.le_refl TASK_SIZE)
  · intro h
    rw [dirSlots_task]
    exact List.mem_map.mpr ⟨d.val % 16, List.mem_range.mpr (Nat.mod_lt _ (by decide)),
      (eq_taskDir h hnr).symm⟩

/-! ## One step -/

/-- Only page tables of the task itself change, and only what it stores is seen. -/
theorem Inv.own (hs : Inv z s) {nr address : Nat} {mem : Mem} {history : List Event}
    (halive : s.alive nr = true) (ha : address < TASK_SIZE) (h : Tasks z s.held mem)
    (hp : Private mem)
    (ht : ∀ d, d ≠ dirSlot (linear nr address) → mem.tableOf d = s.mem.tableOf d)
    (hr : ∀ nr' a, s.alive nr' = true → a < TASK_SIZE →
      mem.byteAt (linear nr' a) = lastStored history nr' a) :
    Inv z { s with mem := mem, history := history } := by
  refine ⟨h, hp, hs.alive, fun d hd hdead => ?_, hr⟩
  obtain ⟨h1, hnr⟩ := hs.alive nr halive
  obtain ⟨-, -, hdir⟩ := linear_spec h1 hnr ha
  refine (ht d fun e => ?_).trans (hs.empty d hd hdead)
  have hdead' : s.alive nr = false := by
    rw [← hdir, ← e]
    exact hdead
  rw [halive] at hdead'
  cases hdead'

theorem Inv.exit (hs : Inv z s) {nr : Nat} (halive : s.alive nr = true) :
    ∃ s', exit s nr = .ok s' ∧ Inv z s' := by
  obtain ⟨h1, hnr⟩ := hs.alive nr halive
  obtain ⟨mem, hm, h, hf⟩ := hs.tasks.free h1 hnr (Nat.le_refl TASK_SIZE)
  obtain ⟨hp, hv⟩ := hs.priv.freed hs.tasks hf
  have hother : ∀ {nr'}, update s.alive nr false nr' = true → nr' ≠ nr ∧ s.alive nr' = true := by
    intro nr' h'
    rcases eq_or_ne nr' nr with rfl | hne
    · simp at h'
    · exact ⟨hne, by rwa [update_of_ne hne] at h'⟩
  refine ⟨{ s with mem := mem, alive := update s.alive nr false },
    by simp only [CopyOnWrite.exit, hm]; rfl, h, hp, fun nr' h' => hs.alive nr' (hother h').2,
    fun d hd hdead => ?_, fun nr' a h' ha => ?_⟩
  · rw [hf.tableOf]
    split
    · rfl
    · rename_i hnot
      have hne : d.val / 16 ≠ nr := fun e => hnot ((mem_dirSlots_iff hnr).mpr e)
      refine hs.empty d hd ?_
      have hdead' : update s.alive nr false (d.val / 16) = false := hdead
      rwa [update_of_ne hne] at hdead'
  · obtain ⟨hne, halive'⟩ := hother h'
    obtain ⟨h1', hnr'⟩ := hs.alive nr' halive'
    obtain ⟨hu, -, hdir⟩ := linear_spec h1' hnr' ha
    have hnot : (posOf (linear nr' a)).1 ∉ dirSlots (nr * TASK_SIZE) TASK_SIZE := fun hmem =>
      hne (hdir.symm.trans ((mem_dirSlots_iff hnr).mp hmem))
    rw [Mem.byteAt_eq, hv _ hu hnot, ← Mem.byteAt_eq]
    exact hs.reads nr' a halive' ha

theorem Inv.store (hs : Inv z s) {nr address : Nat} (halive : s.alive nr = true)
    (ha : address < TASK_SIZE) (value : Byte) :
    ∃ s', step s (.store nr address value) = .ok s' ∧ Inv z s' := by
  obtain ⟨h1, hnr⟩ := hs.alive nr halive
  obtain ⟨hu, hlt, -⟩ := linear_spec h1 hnr ha
  obtain ⟨r, mem, hm, h, hp, ht, hb⟩ := hs.priv.userStore_spec hs.tasks hu hlt value
  have hbyte : ∀ nr' a, s.alive nr' = true → a < TASK_SIZE → mem.byteAt (linear nr' a)
      = if r = true ∧ linear nr' a = linear nr address then value
        else lastStored s.history nr' a := by
    intro nr' a h' ha'
    obtain ⟨h1', hnr'⟩ := hs.alive nr' h'
    obtain ⟨hu', hlt', -⟩ := linear_spec h1' hnr' ha'
    rw [hb _ hlt' hu', hs.reads nr' a h' ha']
  cases r with
  | false =>
      have hkilled : Inv z { s with mem := mem } := hs.own halive ha h hp ht fun nr' a h' ha' =>
        (hbyte nr' a h' ha').trans (if_neg (by simp))
      have hexit : ∃ s', CopyOnWrite.exit { s with mem := mem } nr = .ok s' ∧ Inv z s' :=
        hkilled.exit halive
      obtain ⟨s', hs', hi⟩ := hexit
      refine ⟨s', ?_, hi⟩
      simpa only [step, hm, bind, Except.bind, Bool.false_eq_true, if_false] using hs'
  | true =>
      refine ⟨{ s with mem := mem, history := .stored nr address value :: s.history },
        by simp only [step, hm]; rfl, hs.own halive ha h hp ht fun nr' a h' ha' => ?_⟩
      rw [hbyte nr' a h' ha', lastStored]
      simp only [true_and, linear_inj ha' ha]

theorem Inv.load (hs : Inv z s) {nr address : Nat} (halive : s.alive nr = true)
    (ha : address < TASK_SIZE) :
    ∃ s', step s (.load nr address) = .ok s' ∧ Inv z s' := by
  obtain ⟨h1, hnr⟩ := hs.alive nr halive
  obtain ⟨hu, -, -⟩ := linear_spec h1 hnr ha
  obtain ⟨r, mem, hm, h, hp, hv, ht⟩ := hs.priv.userLoad_spec hs.tasks hu
  have hi : Inv z { s with mem := mem } :=
    hs.own halive ha h hp ht fun nr' a h' ha' => by
      obtain ⟨h1', hnr'⟩ := hs.alive nr' h'
      obtain ⟨hu', -, -⟩ := linear_spec h1' hnr' ha'
      rw [hv.byteAt hu', hs.reads nr' a h' ha']
  cases r with
  | false =>
      have hexit : ∃ s', CopyOnWrite.exit { s with mem := mem } nr = .ok s' ∧ Inv z s' :=
        hi.exit halive
      obtain ⟨s', hs', hi'⟩ := hexit
      refine ⟨s', ?_, hi'⟩
      simpa only [step, hm, bind, Except.bind, Bool.false_eq_true, if_false] using hs'
  | true => exact ⟨{ s with mem := mem }, by simp only [step, hm]; rfl, hi⟩

theorem Inv.fork (hs : Inv z s) {src dst : Nat} (halive : s.alive src = true)
    (hdead : s.alive dst = false) (h1d : 1 ≤ dst) (hdst : dst < 64) :
    ∃ s', step s (.fork src dst) = .ok s' ∧ Inv z s' := by
  obtain ⟨h1, hsrc⟩ := hs.alive src halive
  have hne : src ≠ dst := fun e => by
    rw [← e, halive] at hdead
    cases hdead
  obtain ⟨r, mem, hm, h, hc⟩ := hs.tasks.copy hsrc h1d hdst hne (Nat.le_refl TASK_SIZE)
    (fun e => by omega) fun d hd => hs.empty d (by omega) (by rwa [hd])
  obtain ⟨hp, hv, hcopy⟩ := hs.priv.copied hs.tasks h1 hsrc hdst hc
  have htab : ∀ d : Slot, d.val / 16 ≠ dst → mem.tableOf d = s.mem.tableOf d := by
    intro d hd
    refine hc.tableOf d fun y hy e => ?_
    obtain ⟨k, hk, -, -, -, hy2⟩ := mem_zip_dirSlots hsrc hdst (Nat.le_refl TASK_SIZE) hy
    rw [← e] at hd
    omega
  have hread : ∀ nr a, s.alive nr = true → nr ≠ dst → a < TASK_SIZE →
      mem.byteAt (linear nr a) = lastStored s.history nr a ∧ User (posOf (linear nr a)) ∧
        taskOf (posOf (linear nr a)) = nr := by
    intro nr a hnr hnd ha
    obtain ⟨h1', hnr'⟩ := hs.alive nr hnr
    obtain ⟨hu, -, hdir⟩ := linear_spec h1' hnr' ha
    refine ⟨?_, hu, hdir⟩
    rw [Mem.byteAt_eq, hv _ hu (fun e => hnd (hdir.symm.trans e)), ← Mem.byteAt_eq]
    exact hs.reads nr a hnr ha
  have hold : ∀ {nr}, nr ≠ dst → update s.alive dst true nr = s.alive nr :=
    fun hnd => update_of_ne hnd _ _
  rcases eq_or_ne r 0 with rfl | hr
  · refine ⟨{ s with mem := mem, alive := update s.alive dst true,
                     history := .forked src dst :: s.history },
      by simp only [step, hm]; rfl, h, hp, fun nr hnr => ?_, fun d hd hdd => ?_,
      fun nr a hnr ha => ?_⟩
    · rcases eq_or_ne nr dst with rfl | hnd
      · exact ⟨h1d, hdst⟩
      · exact hs.alive nr (hold hnd ▸ hnr)
    · have hnd : d.val / 16 ≠ dst := fun e => by simp [e] at hdd
      rw [htab d hnd]
      exact hs.empty d hd (hold hnd ▸ hdd)
    · rw [lastStored]
      rcases eq_or_ne nr dst with rfl | hnd
      · rw [if_pos rfl, byteAt_linear hsrc hdst ha (hcopy rfl)]
        exact hs.reads src a halive ha
      · rw [if_neg hnd]
        exact (hread nr a (hold hnd ▸ hnr) hnd ha).1
  · obtain ⟨mem', hm', h', hf⟩ := h.free h1d hdst (Nat.le_refl TASK_SIZE)
    obtain ⟨hp', hv'⟩ := hp.freed h hf
    refine ⟨{ s with mem := mem' }, ?_, h', hp', hs.alive, fun d hd hdd => ?_,
      fun nr a hnr ha => ?_⟩
    · simp only [step, hm]
      show (if r = 0 then _ else _) = _
      rw [if_neg hr]
      simp only [hm']
      rfl
    · rw [hf.tableOf]
      split
      · rfl
      · rename_i hnot
        rw [htab d fun e => hnot ((mem_dirSlots_iff hdst).mpr e)]
        exact hs.empty d hd hdd
    · have hnd : nr ≠ dst := fun e => by
        rw [← e, hnr] at hdead
        cases hdead
      obtain ⟨hb, hu, htask⟩ := hread nr a hnr hnd ha
      have hnot : (posOf (linear nr a)).1 ∉ dirSlots (dst * TASK_SIZE) TASK_SIZE := fun hmem =>
        hnd (htask.symm.trans ((mem_dirSlots_iff hdst).mp hmem))
      rw [Mem.byteAt_eq, hv' _ hu hnot, ← Mem.byteAt_eq, hb]

theorem Inv.step (hs : Inv z s) {a : Act} (ha : Admissible s a) :
    ∃ s', CopyOnWrite.step s a = .ok s' ∧ Inv z s' := by
  cases a with
  | fork src dst => exact hs.fork ha.1 ha.2.1 ha.2.2.1 ha.2.2.2
  | store nr address value => exact hs.store ha.1 ha.2 value
  | load nr address => exact hs.load ha.1 ha.2
  | exit nr => exact hs.exit ha
  | getFreePage =>
      cases hg : Linux011.getFreePage s.mem with
      | none => exact ⟨s, by simp only [CopyOnWrite.step, hg], hs⟩
      | some r =>
          obtain ⟨p, mem⟩ := r
          obtain ⟨h, hf⟩ := hs.tasks.alloc hg
          obtain ⟨hp, hv⟩ := hs.priv.of_ent hs.tasks hf.ent fun q _ hq _ => by
            rw [hf.phys, update_of_ne fun e : q = p => hq (e ▸ hf.free)]
          refine ⟨{ s with mem := mem, held := update s.held p 1 },
            by simp only [CopyOnWrite.step, hg], h, hp, hs.alive, fun d hd hdd => ?_,
            fun nr a' hnr ha' => ?_⟩
          · rw [hf.tableOf]
            exact hs.empty d hd hdd
          · obtain ⟨h1, hlt⟩ := hs.alive nr hnr
            rw [hv.byteAt (linear_spec h1 hlt ha').1]
            exact hs.reads nr a' hnr ha'
  | freePage page =>
      have hheld : 1 ≤ s.held page := ha
      obtain ⟨mem, hm, h⟩ := hs.tasks.drop hheld
      obtain ⟨hfree, -⟩ := hs.tasks.paged.drop (hs.tasks.kinds.held_managed page hheld) hheld
      obtain rfl : uncount s.mem page = mem := by
        rw [hfree] at hm
        exact Except.ok.inj hm
      have hphys := uncount_phys s.mem page
      obtain ⟨hp, hv⟩ := hs.priv.of_ent hs.tasks (ent_of_phys hphys) fun q _ _ _ => by rw [hphys]
      refine ⟨{ s with mem := uncount s.mem page, held := update s.held page 0 },
        by simp only [CopyOnWrite.step, hm]; rfl, h, hp, hs.alive, fun d hd hdd => ?_,
        fun nr a' hnr ha' => ?_⟩
      · rw [tableOf_of_phys hphys]
        exact hs.empty d hd hdd
      · obtain ⟨h1, hlt⟩ := hs.alive nr hnr
        rw [hv.byteAt (linear_spec h1 hlt ha').1]
        exact hs.reads nr a' hnr ha'

theorem inv_start (z : Zone) (rest : Nat → Slot → Word) {alive : Nat → Bool}
    (halive : ∀ nr, alive nr = true → 1 ≤ nr ∧ nr < 64) : Inv z (start z rest alive) := by
  have hpage : ∀ x p, User x → (memInit rest z.start z.stop).page x ≠ some p := by
    intro x p hx hp
    have := (memInit_page hp).1
    unfold User at hx
    omega
  refine ⟨tasks_start z rest, ⟨fun x p hx hp => absurd hp (hpage x p hx),
    fun x y p hx hy hw hp => absurd hp (hpage x p hx)⟩, halive, fun d hd _ => ?_, ?_⟩
  · show (memInit rest z.start z.stop).tableOf d = none
    rw [memInit_tableOf, if_neg (by omega)]
  · intro nr address hnr ha
    obtain ⟨h1, hlt⟩ := halive nr hnr
    have hnone : (memInit rest z.start z.stop).page (posOf (linear nr address)) = none := by
      by_contra hne
      obtain ⟨p, hp⟩ := Option.ne_none_iff_exists'.mp hne
      exact hpage _ p (linear_spec h1 hlt ha).1 hp
    show (memInit rest z.start z.stop).byteAt (linear nr address) = 0
    rw [Mem.byteAt, hnone]

/-- **Copy on write** refines private memories, in every run of forks, loads, stores and
exits of any tasks: each living task reads at every address what it, or before they
forked it one of its ancestors, stored there last, although the pages are shared until
somebody stores. No call of the runs stops the machine. -/
theorem private_memories (z : Zone) (rest : Nat → Slot → Word) {alive : Nat → Bool}
    (halive : ∀ nr, alive nr = true → 1 ≤ nr ∧ nr < 64) {s : State}
    (h : Reach run Admissible (start z rest alive) s) : Refines s := by
  have hinv : Inv z s := by
    refine h.invariant (I := Inv z) (inv_start z rest halive) fun s a s' hs ha hstep => ?_
    obtain ⟨s₁, hs₁, h₁⟩ := hs.step ha
    rw [run, hs₁] at hstep
    obtain rfl := Option.some.inj hstep
    exact h₁
  refine ⟨hinv.reads, fun a ha => ?_⟩
  obtain ⟨s', hs', -⟩ := hinv.step ha
  exact ⟨s', hs'⟩

instance (s : State) (a : Act) : Decidable (Admissible s a) := by
  cases a <;> unfold Admissible <;> infer_instance

/-- Two tasks store at the same address, the first one twice. -/
def twoTasks : List Act :=
  [.store 1 8 5, .store 2 8 6, .load 1 4096, .store 1 8 7, .getFreePage]

theorem private_memories_two_tasks : ∃ s,
    exec (checked run Admissible) (start ⟨4000, 4096, by decide, by decide⟩ (fun _ _ => 0)
      fun nr => nr == 1 || nr == 2) twoTasks = some s ∧
      Refines s ∧ s.mem.byteAt (linear 1 8) = 7 ∧ s.mem.byteAt (linear 2 8) = 6 := by
  let z : Zone := ⟨4000, 4096, by decide, by decide⟩
  let alive : Nat → Bool := fun nr => nr == 1 || nr == 2
  have halive : ∀ nr, alive nr = true → 1 ≤ nr ∧ nr < 64 := fun nr hnr => by
    simp only [alive, Bool.or_eq_true, beq_iff_eq] at hnr
    omega
  obtain ⟨s, hs, h₁, h₂⟩ : ∃ s,
      exec (checked run Admissible) (start z (fun _ _ => 0) alive) twoTasks
      = some s ∧ s.mem.byteAt (linear 1 8) = 7 ∧ s.mem.byteAt (linear 2 8) = 6 :=
    exec_any (by decide +kernel)
  exact ⟨s, hs, private_memories z (fun _ _ => 0) halive (exec_checked hs), h₁, h₂⟩

end CopyOnWrite

end Linux011
