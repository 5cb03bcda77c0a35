import Linux011.DemandPages

/-!
# The steps of demand paging

What each step of `DemandPages` does to the entries of the tasks, to the pages that they name and
to the tasks (`Effect`), and the invariant that the steps need (`Base`): the books of the pages,
and that an entry with its write bit is the only one that names its page.

`Effect` is the inversion of `step`: it lists the few kinds of change that a step can make to the
entries, a page that comes, one that is shared, one that is replaced, a mark, a store, the copies
of a fork, or a task whose pages go, each with all that a later proof needs to know about it.
`step_effect` shows that every step keeps `Base` and is a sequence of such changes, and the
invariants of the later modules are then proved once for each kind of change and not for each of
the calls. The lemmas before it go from the functions of `memory.c`, whose effect on the page
tables is known from `PageTables`, to the two facts that are added here: what the pages of the
tasks contain afterwards, and that a write bit still belongs to one entry alone (`Guarded`).

A task that waits for `bread_page` holds a page that no entry names yet and relies on its own
address being empty when it comes back (`Loading`). Only the task itself maps pages there, and it
is asleep, so this is kept by the steps of all others.
-/

namespace Linux011

open Function RefCount Runs Views CopyOnWrite

namespace DemandPages

variable {z : Zone} {held : Nat → Nat} {m m' : Mem} {x y : Pos} {e e' : Word}

/-! ## Entries with a write bit -/

/-- The write bit of a task's entry is a right to its page alone, above the first megabyte. The
kernel's own entries all have it. -/
structure Guarded (m : Mem) : Prop where
  low : ∀ x e, User x → m.ent x = some e → Writable e → LOW_MEM ≤ frame e
  sole : ∀ x y e e', User x → User y → m.ent x = some e → m.ent y = some e' → Writable e →
    frame e' = frame e → y = x
  kernel : ∀ x e, x.1.val < 4 → m.ent x = some e → Writable e

/-- The pages of the tasks, those of the first megabyte apart, have the contents that they had. -/
def Keeps (m m' : Mem) : Prop :=
  ∀ x e, User x → m.ent x = some e → LOW_MEM ≤ frame e → m'.phys (frame e) = m.phys (frame e)

theorem Keeps.refl (m : Mem) : Keeps m m := fun _ _ _ _ _ => rfl

theorem Guarded.of_ent (h : Guarded m) (he : m'.ent = m.ent) : Guarded m' := by
  constructor
  · rw [he]
    exact h.low
  · rw [he]
    exact h.sole
  · rw [he]
    exact h.kernel

theorem Guarded.drop (h : Guarded m) (he : ∀ x, m'.ent x = none ∨ m'.ent x = m.ent x) :
    Guarded m' := by
  have hold : ∀ {x e}, m'.ent x = some e → m.ent x = some e := by
    intro x e hx
    rcases he x with hnone | hsame
    · rw [hnone] at hx
      cases hx
    · exact hsame ▸ hx
  exact ⟨fun x e hx hxe => h.low x e hx (hold hxe),
    fun x y e e' hx hy hxe hye => h.sole x y e e' hx hy (hold hxe) (hold hye),
    fun x e hx hxe => h.kernel x e hx (hold hxe)⟩

theorem Guarded.set (h : Guarded m) (hx : User x) (he : m'.ent = update m.ent x (some e))
    (hlow : Writable e → LOW_MEM ≤ frame e)
    (hsole : ∀ y e', User y → y ≠ x → m.ent y = some e' → Writable e ∨ Writable e' →
      frame e' ≠ frame e) : Guarded m' := by
  have hother : ∀ {y}, y ≠ x → m'.ent y = m.ent y := fun hne => by rw [he, update_of_ne hne]
  have hself : ∀ {e'}, m'.ent x = some e' → e = e' := by
    intro e' hxe
    rw [he, update_self] at hxe
    exact Option.some.inj hxe
  constructor
  · intro u eu hu hue hw
    rcases eq_or_ne u x with rfl | hne
    · obtain rfl := hself hue
      exact hlow hw
    · exact h.low u eu hu (hother hne ▸ hue) hw
  · intro u v eu ev hu hv hue hve hw hframe
    rcases eq_or_ne u x with rfl | hux
    · obtain rfl := hself hue
      by_contra hvu
      exact hsole v ev hv hvu (hother hvu ▸ hve) (.inl hw) hframe
    · rcases eq_or_ne v x with rfl | hvx
      · obtain rfl := hself hve
        exact absurd hframe.symm (hsole u eu hu hux (hother hux ▸ hue) (.inr hw))
      · exact h.sole u v eu ev hu hv (hother hux ▸ hue) (hother hvx ▸ hve) hw hframe
  · intro u eu hu hue
    have hne : u ≠ x := by
      rintro rfl
      exact absurd hx (by unfold User; omega)
    exact h.kernel u eu hu (hother hne ▸ hue)

/-- Bits of an entry change, not its page and not its write bit. -/
theorem Guarded.rewrite (h : Guarded m) (hx : User x) (hxe : m.ent x = some e)
    (he : m'.ent = update m.ent x (some e')) (hframe : frame e' = frame e)
    (hw : Writable e' ↔ Writable e) : Guarded m' := by
  refine h.set hx he (fun hwe => hframe ▸ h.low x e hx hxe (hw.mp hwe))
    fun y ey hy hyx hye hor => ?_
  rw [hframe]
  intro heq
  rcases hor with hwe | hwy
  · exact hyx (h.sole x y e ey hx hy hxe hye (hw.mp hwe) heq)
  · exact hyx (h.sole y x ey e hy hx hye hxe hwy heq.symm).symm

/-- The entry at `x` loses its write bit, and `y` comes to name the page as well. -/
theorem Guarded.share (h : Guarded m) (hx : User x) (hy : User y) (hxe : m.ent x = some e)
    (he : m'.ent = update (update m.ent x (some (wrprotect e))) y (some (wrprotect e))) :
    Guarded m' := by
  have hcases : ∀ {u eu}, m'.ent u = some eu →
      (eu = wrprotect e ∧ (u = x ∨ u = y)) ∨ (u ≠ x ∧ u ≠ y ∧ m.ent u = some eu) := by
    intro u eu hue
    rw [he] at hue
    rcases eq_or_ne u y with rfl | huy
    · rw [update_self] at hue
      exact .inl ⟨(Option.some.inj hue).symm, .inr rfl⟩
    · rw [update_of_ne huy] at hue
      rcases eq_or_ne u x with rfl | hux
      · rw [update_self] at hue
        exact .inl ⟨(Option.some.inj hue).symm, .inl rfl⟩
      · rw [update_of_ne hux] at hue
        exact .inr ⟨hux, huy, hue⟩
  have hold : ∀ {u eu}, m'.ent u = some eu → Writable eu → u ≠ x ∧ m.ent u = some eu := by
    intro u eu hue hw
    rcases hcases hue with ⟨rfl, -⟩ | ⟨hux, -, hue⟩
    · exact absurd hw (not_writable_wrprotect e)
    · exact ⟨hux, hue⟩
  constructor
  · intro u eu hu hue hw
    exact h.low u eu hu (hold hue hw).2 hw
  · intro u v eu ev hu hv hue hve hw hframe
    obtain ⟨hux, hue⟩ := hold hue hw
    rcases hcases hve with ⟨rfl, -⟩ | ⟨-, -, hve⟩
    · rw [frame_wrprotect] at hframe
      exact absurd (h.sole u x eu e hu hx hue hxe hw hframe).symm hux
    · exact h.sole u v eu ev hu hv hue hve hw hframe
  · intro u eu hu hue
    rcases hcases hue with ⟨-, rfl | rfl⟩ | ⟨-, -, hue⟩
    · exact absurd hx (by unfold User; omega)
    · exact absurd hy (by unfold User; omega)
    · exact h.kernel u eu hu hue

/-! ## The pages that the tasks map -/

/-- Such a page is no page table, and it is counted. -/
theorem data_page (h : Tasks z held m) (hx : User x) (he : m.ent x = some e)
    (hlow : LOW_MEM ≤ frame e) :
    1 ≤ frame e ∧ (∀ d, m.tableOf d ≠ some (frame e)) ∧ m.memMap (frame e) ≠ 0 := by
  have hpx := page_of_present he
  have hcount := h.paged.page_counted hx hpx hlow
  have h256 : LOW_MEM = 256 := rfl
  exact ⟨by omega, fun d => h.kinds.page_table x _ d hx hpx hlow, by omega⟩

/-- The free page `p` is named by no task. -/
theorem unnamed (h : Tasks z held m) {p : Nat} (hp : z.Managed p) (h0 : m.memMap p = 0)
    (hy : User y) (hye : m.ent y = some e) : frame e ≠ p := by
  rintro rfl
  exact h.paged.page_unused hp h0 hy (page_of_present hye)

/-! ## un_wp_page and verify_area -/

theorem dirtyAt_eq (he : m.ent x = some e) : dirtyAt m x = decide (Dirty e) := by
  rw [dirtyAt, he, Option.any_some]

theorem dirty_iff : Dirty e ↔ e.getLsbD 6 = true :=
  and_ne_zero_iff fun i => getLsbD_mask (p := (· = 6)) (by decide) (by omega) i

theorem dirty_or_two (e : Word) : Dirty (e ||| 2) ↔ Dirty e := by
  rw [dirty_iff, dirty_iff, BitVec.getLsbD_or, getLsbD_two]
  simp

/-- The entry `e` at `x` is now `e'`, with its write bit. -/
structure Replaced (x : Pos) (e e' : Word) (m m' : Mem) (lost lost' : Pos → Bool) : Prop where
  user : User x
  was : m.ent x = some e
  prot : ¬Writable e
  ent : m'.ent = update m.ent x (some e')
  writable : Writable e'
  low : LOW_MEM ≤ frame e'
  keeps : Keeps m m'
  others : ∀ y, y ≠ x → lost' y = lost y
  /-- a clean page of which nothing is lost has the contents of a clean one -/
  clean : LOW_MEM ≤ frame e → ¬Dirty e' → lost' x = false →
    ¬Dirty e ∧ lost x = false ∧ m'.phys (frame e') = m.phys (frame e)

theorem Guarded.unWp (hg : Guarded m) (h : Tasks z held m) (lost : Pos → Bool) (hx : User x)
    (he : m.ent x = some e) (hw : ¬Writable e) (hu : UnWp z x e m m') :
    Guarded m' ∧ ∃ e', Replaced x e e' m m' lost (losing m m' x lost) := by
  have h256 : LOW_MEM = 256 := rfl
  have hpage := page_of_present he
  cases hu with
  | own low one hent _ hphys =>
      have hsame : m'.page = m.page := by
        rw [Mem.page_update hent, Option.map_some, frame_or_two, ← hpage, update_eq_self]
      have hlost : losing m m' x lost = lost := if_pos (congrFun hsame x)
      have hkeeps : Keeps m m' := by
        intro y ey hy hye hlow
        obtain ⟨hpos, htab, -⟩ := data_page h hy hye hlow
        exact hphys _ hpos (htab x.1)
      refine ⟨hg.set hx hent (fun _ => by rwa [frame_or_two]) fun y ey hy hyx hye _ => ?_,
        e ||| 2, hx, he, hw, hent, writable_or_two e, by rwa [frame_or_two], hkeeps, ?_, ?_⟩
      · rw [frame_or_two]
        intro heq
        have hpy := page_of_present hye
        rw [heq] at hpy
        exact hyx (h.paged.page_unique hy hx hpy hpage low one)
      · rw [hlost]
        exact fun _ _ => rfl
      · intro _ hclean hno
        rw [hlost] at hno
        rw [frame_or_two]
        exact ⟨fun hd => hclean ((dirty_or_two e).mpr hd), hno, hkeeps x e hx he low⟩
  | copy p managed free hent _ hphys hcopied =>
      have hframe := frame_entry managed.lt_pages
      have hnew : LOW_MEM ≤ p := z.lowMem_le.trans managed.1
      have hne : ∀ {y ey}, User y → m.ent y = some ey → frame ey ≠ p := unnamed h managed free
      have hmoved : m'.page x ≠ m.page x := by
        rw [Mem.page_update hent, update_self, Option.map_some, hframe, hpage]
        exact fun heq => hne hx he (Option.some.inj heq).symm
      have hlost : losing m m' x lost = update lost x (dirtyAt m x || lost x) := if_neg hmoved
      refine ⟨hg.set hx hent (fun _ => by rwa [hframe]) fun y ey hy _ hye _ => ?_,
        entry p, hx, he, hw, hent, writable_entry p, by rwa [hframe], ?_, ?_, ?_⟩
      · rw [hframe]
        exact hne hy hye
      · intro y ey hy hye hlow
        obtain ⟨hpos, htab, -⟩ := data_page h hy hye hlow
        exact hphys _ hpos (htab x.1) (hne hy hye)
      · intro y hyx
        rw [hlost, update_of_ne hyx]
      · intro hlow _ hno
        obtain ⟨-, htab, -⟩ := data_page h hx he hlow
        rw [hlost, update_self, Bool.or_eq_false_iff, dirtyAt_eq he] at hno
        rw [hframe]
        exact ⟨of_decide_eq_false hno.1, hno.2, hcopied (htab x.1) (hne hx he)⟩

/-- The directory entries of the kernel and of the tasks have page tables, no others. -/
theorem user_or_kernel (h : Tasks z held m) (he : m.ent x = some e) : User x ∨ x.1.val < 4 := by
  obtain ⟨t, ht⟩ := ent_tableOf he
  exact (h.kinds.table_dir x.1 t ht).symm

/-- `write_verify` leaves the page writable, if it is there. -/
theorem writeVerify_spec (h : Tasks z held m) (hg : Guarded m) (address : Nat)
    (lost : Pos → Bool) :
    writeVerify m address = none ∨ ∃ m', writeVerify m address = some m' ∧ Tasks z held m' ∧
      Guarded m' ∧ (∀ d, m'.tableOf d = m.tableOf d) ∧
      (∀ e, m'.ent (posOf address) = some e → Writable e) ∧
      (m' = m ∨ ∃ e e', Replaced (posOf address) e e' m m' lost
        (losing m m' (posOf address) lost)) := by
  unfold writeVerify
  split
  · rename_i hpres
    have ht : m.tableOf (posOf address).1 = some (m.table (dirSlot address)) := if_pos hpres
    dsimp only
    split
    · rename_i hprot
      have he : m.ent (posOf address) = some _ := (ent_eq_some ht).mpr ⟨hprot.1, rfl⟩
      rcases user_or_kernel h he with hx | hx
      · rcases h.unWp ht he hx with hnone | ⟨m', hm', h', ht', hun⟩
        · exact .inl hnone
        · obtain ⟨hg', e', hr⟩ := hg.unWp h lost hx he hprot.2 hun
          refine .inr ⟨m', hm', h', hg', fun d => congrFun ht' d, fun e₁ he₁ => ?_,
            .inr ⟨_, e', hr⟩⟩
          rw [hr.ent, update_self] at he₁
          exact Option.some.inj he₁ ▸ hr.writable
      · exact absurd (hg.kernel _ _ hx he) hprot.2
    · rename_i hnot
      refine .inr ⟨m, rfl, h, hg, fun _ => rfl, fun e he => ?_, .inl rfl⟩
      obtain ⟨hp, hphys⟩ := (ent_eq_some ht).mp he
      by_contra hw
      exact hnot ⟨hphys ▸ hp, hphys ▸ hw⟩
  · rename_i hpres
    have ht : m.tableOf (posOf address).1 = none := if_neg hpres
    refine .inr ⟨m, rfl, h, hg, fun _ => rfl, fun e he => ?_, .inl rfl⟩
    obtain ⟨t, htab⟩ := ent_tableOf he
    rw [ht] at htab
    cases htab

/-- One `un_wp_page`. -/
def Replace (s s' : State) : Prop :=
  s'.task = s.task ∧ s'.held = s.held ∧
    ∃ x e e', Replaced x e e' s.mem s'.mem s.lost s'.lost

/-- The entry at `x`, if it is present, has its write bit. -/
def Open (m : Mem) (x : Pos) : Prop := ∀ e, m.ent x = some e → Writable e

theorem Replaced.open {lost lost' : Pos → Bool} (h : Replaced x e e' m m' lost lost')
    (hy : Open m y) : Open m' y := by
  intro ey hye
  rw [h.ent] at hye
  rcases eq_or_ne y x with rfl | hne
  · rw [update_self] at hye
    exact Option.some.inj hye ▸ h.writable
  · rw [update_of_ne hne] at hye
    exact hy ey hye

variable {s s' : State}

theorem replace_open (h : Relation.ReflTransGen Replace s s') (hy : Open s.mem y) :
    Open s'.mem y := by
  induction h with
  | refl => exact hy
  | tail _ hr ih =>
      obtain ⟨-, -, x, e, e', hr⟩ := hr
      exact hr.open ih

/-- The loop of `verify_area`: all pages that it has visited are writable, if they are there. -/
theorem verifyArea_spec (l : List Nat) : ∀ {s : State}, Tasks z s.held s.mem → Guarded s.mem →
    ∃ there s', verifyArea l s = (there, s') ∧ Tasks z s'.held s'.mem ∧ Guarded s'.mem ∧
      s'.held = s.held ∧ s'.task = s.task ∧ s'.mem.tableOf = s.mem.tableOf ∧
      Relation.ReflTransGen Replace s s' ∧
      (there = true → ∀ a ∈ l, Open s'.mem (posOf a)) := by
  induction l with
  | nil =>
      intro s h hg
      exact ⟨true, s, rfl, h, hg, rfl, rfl, rfl, .refl, fun _ a ha => nomatch ha⟩
  | cons a rest ih =>
      intro s h hg
      unfold verifyArea
      rcases writeVerify_spec h hg a s.lost with hnone | ⟨m₁, hm₁, h₁, hg₁, ht₁, ho₁, hr₁⟩
      · rw [hnone]
        exact ⟨false, s, rfl, h, hg, rfl, rfl, rfl, .refl, fun hno => nomatch hno⟩
      · rw [hm₁]
        dsimp only
        generalize hs₁ : ({ s with
          mem := m₁, lost := losing s.mem m₁ (posOf a) s.lost } : State) = s₁
        have hmem : s₁.mem = m₁ := by rw [← hs₁]
        have hstep : Relation.ReflTransGen Replace s s₁ := by
          rcases hr₁ with rfl | ⟨e, e', hr⟩
          · have hlost : losing s.mem s.mem (posOf a) s.lost = s.lost := if_pos rfl
            rw [hlost] at hs₁
            rw [← hs₁]
          · refine .single ?_
            rw [← hs₁]
            exact ⟨rfl, rfl, _, _, _, hr⟩
        have hheld : s₁.held = s.held := by rw [← hs₁]
        have htask : s₁.task = s.task := by rw [← hs₁]
        obtain ⟨there, s', hs', h', hg', hheld', htask', ht', hchain, hopen⟩ :=
          ih (s := s₁) (by rwa [hheld, hmem]) (by rwa [hmem])
        refine ⟨there, s', hs', h', hg', hheld'.trans hheld, htask'.trans htask,
          ht'.trans (hmem ▸ funext ht₁), hstep.trans hchain, fun hthere b hb => ?_⟩
        rcases List.mem_cons.mp hb with rfl | hb
        · exact replace_open hchain (hmem ▸ ho₁)
        · exact hopen hthere b hb

/-! ## try_to_share -/

theorem not_dirty_of_clean (h : e &&& 0x41 = 0x01) : ¬Dirty e := by
  have hmask : (0x41 : Word).getLsbD 6 = true := rfl
  have hone : (0x01 : Word).getLsbD 6 = false := rfl
  have hbit := congrArg (fun w : Word => w.getLsbD 6) h
  rw [dirty_iff]
  simpa only [BitVec.getLsbD_and, hmask, Bool.and_true, hone, Bool.not_eq_true] using hbit

/-- The page that `try_to_share` shares is clean, and no page of a task changes. -/
theorem tryToShare_data (h : Tasks z held m) {address start dest : Nat}
    (hm : tryToShare m address start dest = .ok (some 1, m')) :
    ¬Dirty (m.phys (m.table (dirSlot (address + start))) (tableSlot address)) ∧ Keeps m m' := by
  unfold tryToShare at hm
  dsimp only at hm
  split at hm
  · cases hm
  · rename_i hpres
    have ht : m.tableOf (dirSlot (address + start)) = some _ := if_pos (not_not.mp hpres)
    split at hm
    · cases hm
    · rename_i hclean
      refine ⟨not_dirty_of_clean (not_not.mp hclean), fun w ew hw hwe hlow => ?_⟩
      obtain ⟨hpos, htab, hcount⟩ := data_page h hw hwe hlow
      split at hm
      · cases hm
      · rcases h.paged.pageTable_spec (dirSlot (address + dest)) with
          ⟨hnone, -, -⟩ | ⟨t, m₁, hsome, htabled, -, -⟩
        · rw [hnone] at hm
          cases hm
        · rw [hsome] at hm
          dsimp only at hm
          have hnt : frame ew ≠ t := by
            rintro rfl
            rcases htabled.origin with hold | ⟨-, -, hfree⟩
            · exact htab _ hold
            · exact hcount hfree
          have hnf : frame ew ≠ m.table (dirSlot (address + start)) := fun heq =>
            htab _ (heq ▸ ht)
          split at hm
          · cases hm
          · obtain ⟨-, rfl⟩ := Prod.mk.inj (Except.ok.inj hm)
            rw [setCount_phys, write_phys_of_ne hnt, write_phys_of_ne hnf,
              htabled.phys _ hpos hnt]

/-- The entry at `x` is shared with `y`. -/
structure SharedWith (x y : Pos) (e : Word) (m m' : Mem) : Prop where
  user : User x
  to_user : User y
  was : m.ent x = some e
  absent : m.ent y = none
  clean : ¬Dirty e
  low : LOW_MEM ≤ frame e
  ent : m'.ent = update (update m.ent x (some (wrprotect e))) y (some (wrprotect e))
  keeps : Keeps m m'

/-- The page tables of the other tasks stay. -/
def OwnTable (y : Pos) (m m' : Mem) : Prop := ∀ d, d ≠ y.1 → m'.tableOf d = m.tableOf d

theorem tryToShare_spec (h : Tasks z held m) (hg : Guarded m) {p current tmp : Nat} (h1p : 1 ≤ p)
    (hp : p < 64) (h1 : 1 ≤ current) (hc : current < 64) (hne : p ≠ current)
    (htmp : tmp < TASK_SIZE) (hnone : m.ent (posOf (linear current tmp)) = none) :
    ∃ r m', tryToShare m tmp (p * TASK_SIZE) (current * TASK_SIZE) = .ok (r, m') ∧
      (r ≠ some 1 ∧ m' = m ∨ r = some 1 ∧ Tasks z held m' ∧ Guarded m' ∧
        OwnTable (posOf (linear current tmp)) m m' ∧
        ∃ e, SharedWith (posOf (linear p tmp)) (posOf (linear current tmp)) e m m') := by
  obtain ⟨hpos, hval⟩ := posOf_task htmp hp
  obtain ⟨hposc, hvalc⟩ := posOf_task htmp hc
  obtain ⟨hux, -, htx⟩ := linear_spec h1p hp htmp
  obtain ⟨huy, -, hty⟩ := linear_spec h1 hc htmp
  have hmod : (posOf (linear p tmp)).1.val % 16 = (posOf (linear current tmp)).1.val % 16 := by
    have hleft : (posOf (linear p tmp)).1.val = _ := hval
    have hright : (posOf (linear current tmp)).1.val = _ := hvalc
    rw [hleft, hright]
    omega
  have hslot : (posOf (linear p tmp)).2 = (posOf (linear current tmp)).2 := by
    unfold linear
    rw [hpos, hposc]
  have htask : taskOf (posOf (linear p tmp)) ≠ taskOf (posOf (linear current tmp)) := by
    intro heq
    exact hne ((htx.symm.trans heq).trans hty)
  have hoff : offsetOf (posOf (linear p tmp)) = offsetOf (posOf (linear current tmp)) :=
    Prod.ext hmod hslot
  have hpage : m.page (posOf (linear current tmp)) = none := by rw [Mem.page, hnone]; rfl
  obtain ⟨r, m', hm, h'⟩ := h.share tmp (p * TASK_SIZE) (current * TASK_SIZE) hpos hposc hux huy
    htask hoff hpage
  have hdir : (posOf (linear p tmp)).1 ≠ (posOf (linear current tmp)).1 := fun heq =>
    htask (congrArg (fun d : Slot => d.val / 16) heq)
  have hroom : ∀ q, LOW_MEM ≤ q → m.page (posOf (linear p tmp)) = some q → m.memMap q < 255 := by
    intro q hlow hq
    have hle := h.kinds.memMap_le h.paged (h.paged.page_managed hux hq hlow)
    omega
  obtain ⟨r', m'', hm'', -, hres⟩ := h.paged.tryToShare_spec (x := posOf (linear p tmp))
    (y := posOf (linear current tmp)) hpos hposc hdir hux.ordinary hnone huy.counted hroom
  obtain ⟨rfl, rfl⟩ := Prod.mk.inj (Except.ok.inj (hm.symm.trans hm''))
  refine ⟨r, m', hm, hres.imp_right ?_⟩
  rintro ⟨rfl, e, t, hs⟩
  obtain ⟨hclean, hkeeps⟩ := tryToShare_data h hm
  have hphys : m.phys (m.table (dirSlot (tmp + p * TASK_SIZE))) (tableSlot tmp) = e := by
    obtain ⟨t', ht'⟩ := ent_tableOf hs.present
    have hcell := ((ent_eq_some ht').mp hs.present).2
    rw [← table_of_tableOf ht'] at hcell
    unfold linear at hcell
    rw [hpos] at hcell
    exact hcell
  refine ⟨rfl, h', hg.share hux huy hs.present hs.ent, fun d hd => ?_, e, hux, huy, hs.present,
    hnone, hphys ▸ hclean, hs.low, hs.ent, hkeeps⟩
  rw [hs.tableOf, update_of_ne hd]

theorem tryToShare_result {address start dest : Nat} {r : Int}
    (hm : tryToShare m address start dest = .ok (some r, m')) : r = 0 ∨ r = 1 := by
  unfold tryToShare at hm
  dsimp only at hm
  split at hm
  · exact .inl (Option.some.inj (Prod.mk.inj (Except.ok.inj hm)).1).symm
  · split at hm
    · exact .inl (Option.some.inj (Prod.mk.inj (Except.ok.inj hm)).1).symm
    · split at hm
      · exact .inl (Option.some.inj (Prod.mk.inj (Except.ok.inj hm)).1).symm
      · split at hm
        · cases hm
        · split at hm
          · cases hm
          · exact .inr (Option.some.inj (Prod.mk.inj (Except.ok.inj hm)).1).symm

/-- Task `p` shares its page with the current task, which runs the same executable. -/
structure Lent (z : Zone) (held : Nat → Nat) (s : State) (current tmp p : Nat) (m m' : Mem) :
    Prop where
  lender : 1 ≤ p ∧ p < 64
  same : (s.task p).map Task.executable = (s.task current).map Task.executable
  tasks : Tasks z held m'
  guarded : Guarded m'
  tables : OwnTable (posOf (linear current tmp)) m m'
  shared : ∃ e, SharedWith (posOf (linear p tmp)) (posOf (linear current tmp)) e m m'

theorem sharePage_spec (h : Tasks z held m) (hg : Guarded m) {current tmp : Nat}
    (h1 : 1 ≤ current) (hc : current < 64) (htmp : tmp < TASK_SIZE)
    (hnone : m.ent (posOf (linear current tmp)) = none) (l : List Nat)
    (hl : ∀ p ∈ l, 1 ≤ p ∧ p < 64) :
    (∃ r, sharePage s current tmp l m = .ok (r, m) ∧ ∀ p, r ≠ .page p) ∨
      ∃ p m', sharePage s current tmp l m = .ok (.page p, m') ∧
        Lent z held s current tmp p m m' := by
  induction l with
  | nil => exact .inl ⟨.no, rfl, fun _ hno => nomatch hno⟩
  | cons p rest ih =>
      have hrest := ih fun q hq => hl q (List.mem_cons_of_mem p hq)
      unfold sharePage
      split
      · rename_i htest
        obtain ⟨h1p, hp⟩ := hl p List.mem_cons_self
        obtain ⟨r, m', hm, hres⟩ :=
          tryToShare_spec h hg h1p hp h1 hc htest.1 htmp hnone
        rw [hm]
        rcases hres with ⟨hno, rfl⟩ | ⟨rfl, h', hg', ht', hs⟩
        · cases r with
          | none => exact .inl ⟨.oom, rfl, fun _ hno => nomatch hno⟩
          | some k =>
              rcases tryToShare_result hm with rfl | rfl
              · exact hrest
              · exact absurd rfl hno
        · exact .inr ⟨p, m', rfl, hl p List.mem_cons_self, htest.2, h', hg', ht', hs⟩
      · exact hrest

theorem mem_lastTasks {p : Nat} (h : p ∈ lastTasks) : 1 ≤ p ∧ p < 64 := by
  obtain ⟨k, hk, rfl⟩ := List.mem_map.mp h
  have hlt := List.mem_range.mp hk
  omega

theorem sharing_spec {s : State} (h : Tasks z held s.mem) (hg : Guarded s.mem)
    {current tmp : Nat} (h1 : 1 ≤ current) (hc : current < 64) (htmp : tmp < TASK_SIZE)
    (hnone : s.mem.ent (posOf (linear current tmp)) = none) (i_count : Nat) :
    (∃ r, sharing s current tmp i_count = .ok (r, s.mem) ∧ ∀ p, r ≠ .page p) ∨
      ∃ p m', sharing s current tmp i_count = .ok (.page p, m') ∧
        Lent z held s current tmp p s.mem m' := by
  unfold sharing
  split
  · exact .inl ⟨.no, rfl, fun _ hno => nomatch hno⟩
  · exact sharePage_spec h hg h1 hc htmp hnone lastTasks fun p => mem_lastTasks

/-! ## Pages that come and go -/

/-- The page `p` is mapped at `y`, where nothing was mapped. -/
structure Mapped (y : Pos) (p : Nat) (m m' : Mem) : Prop where
  user : User y
  absent : m.ent y = none
  low : LOW_MEM ≤ p
  pages : p < PAGES
  ent : m'.ent = update m.ent y (some (entry p))
  keeps : Keeps m m'

theorem not_dirty_entry (p : Nat) : ¬Dirty (entry p) := by
  rw [dirty_iff, entry, BitVec.getLsbD_or, getLsbD_seven]
  simp [pageAddr]

theorem Mapped.guarded {p : Nat} (h : Mapped y p m m') (hg : Guarded m)
    (hnew : ∀ w e, User w → m.ent w = some e → frame e ≠ p) : Guarded m' := by
  have hframe := frame_entry h.pages
  refine hg.set h.user h.ent (fun _ => hframe.symm ▸ h.low) fun w e hw _ hwe _ => ?_
  rw [hframe]
  exact hnew w e hw hwe

theorem getEmptyPage_spec (h : Tasks z held m) (hg : Guarded m) {address : Nat}
    (hu : User (posOf address)) (hnone : m.ent (posOf address) = none) :
    ∃ r m', getEmptyPage m address = .ok (r, m') ∧ Tasks z held m' ∧ Guarded m' ∧
      OwnTable (posOf address) m m' ∧
      (r = false ∧ m'.ent = m.ent ∧ Keeps m m' ∨
        r = true ∧ ∃ p, Mapped (posOf address) p m m') := by
  have hpage : m.page (posOf address) = none := by rw [Mem.page, hnone]; rfl
  obtain ⟨r, m', hm, h', hres⟩ := h.empty hu hpage
  refine ⟨r, m', hm, h', ?_⟩
  rcases hres with ⟨rfl, ht, he, hphys⟩ | ⟨rfl, p, t, hf⟩
  · refine ⟨hg.of_ent he, fun d _ => congrFun ht d, .inl ⟨rfl, he, fun w ew hw hwe hlow => ?_⟩⟩
    exact hphys _ (data_page h hw hwe hlow).2.2
  · have hnew : ∀ w e, User w → m.ent w = some e → frame e ≠ p := fun w e hw hwe =>
      unnamed h hf.managed hf.free hw hwe
    have hmapped : Mapped (posOf address) p m m' := by
      refine ⟨hu, hnone, z.lowMem_le.trans hf.managed.1, hf.managed.lt_pages, hf.ent,
        fun w ew hw hwe hlow => ?_⟩
      obtain ⟨hpos, htab, hcount⟩ := data_page h hw hwe hlow
      refine hf.phys _ hpos ?_ (hnew w ew hw hwe)
      rintro rfl
      rcases hf.origin with hold | ⟨-, -, hfree⟩
      · exact htab _ hold
      · exact hcount hfree
    refine ⟨hmapped.guarded hg hnew, fun d hd => ?_, .inr ⟨rfl, p, hmapped⟩⟩
    rw [hf.tableOf]
    exact update_of_ne hd _ _

/-- The contents of a page that the kernel holds. -/
theorem fill_spec (h : Tasks z held m) {p : Nat} (hp : 1 ≤ held p) (page : Slot → Word) :
    Tasks z held { m with phys := update m.phys p page } ∧
      Mem.ent { m with phys := update m.phys p page } = m.ent ∧
      Mem.tableOf { m with phys := update m.phys p page } = m.tableOf ∧
      Keeps m { m with phys := update m.phys p page } := by
  have hm := h.kinds.held_managed p hp
  have hnt : ∀ d, m.tableOf d ≠ some p := by
    intro d ht
    have hzero := h.kinds.table_held d p ht
    omega
  obtain ⟨ht, he⟩ : Mem.tableOf { m with phys := update m.phys p page } = m.tableOf ∧
      Mem.ent { m with phys := update m.phys p page } = m.ent :=
    filled_tables (z.lowMem_le.trans hm.1) hnt rfl
  refine ⟨h.congr ht he rfl rfl, he, ht, fun w ew hw hwe _ => ?_⟩
  have hne : frame ew ≠ p := by
    intro heq
    have hzero := h.kinds.page_held w p hw (heq ▸ page_of_present hwe)
    omega
  exact update_of_ne hne _ _

theorem putPage_spec (h : Tasks z held m) (hg : Guarded m) {p address : Nat} (hp : 1 ≤ held p)
    (hu : User (posOf address)) (hnone : m.ent (posOf address) = none) :
    putPage m p address = (0, m) ∨ ∃ m', putPage m p address = (p, m') ∧
      Tasks z (update held p 0) m' ∧ Guarded m' ∧ OwnTable (posOf address) m m' ∧
      Mapped (posOf address) p m m' ∧ m'.phys p = m.phys p := by
  have hm := h.kinds.held_managed p hp
  have hpage : m.page (posOf address) = none := by rw [Mem.page, hnone]; rfl
  have hnt : ∀ d, m.tableOf d ≠ some p := by
    intro d ht
    have hzero := h.kinds.table_held d p ht
    omega
  have hnew : ∀ w e, User w → m.ent w = some e → frame e ≠ p := by
    intro w e hw hwe heq
    have hzero := h.kinds.page_held w p hw (heq ▸ page_of_present hwe)
    omega
  have hlow : LOW_MEM ≤ p := z.lowMem_le.trans hm.1
  have h256 : LOW_MEM = 256 := rfl
  rcases h.put hp hu hpage with hput | ⟨m', hput, h'⟩
  · exact .inl hput
  · rcases h.paged.putPage_spec hm hp hnone hu.counted with
      ⟨hput', -, -⟩ | ⟨t, m'', hput', -, htab, he⟩
    · have hzero := (Prod.mk.inj (hput.symm.trans hput')).1
      omega
    · obtain ⟨-, rfl⟩ := Prod.mk.inj (hput.symm.trans hput')
      have hcount : m.memMap p ≠ 0 := by
        have hpos := h.paged.balanced.pos_of_held hm hp
        omega
      have hmapped : Mapped (posOf address) p m m' := by
        refine ⟨hu, hnone, hlow, hm.lt_pages, he, fun w ew hw hwe hwlow => ?_⟩
        obtain ⟨hpos, htabs, hcounted⟩ := data_page h hw hwe hwlow
        refine htab.phys _ hpos ?_
        rintro rfl
        rcases htab.origin with hold | ⟨-, -, hfree⟩
        · exact htabs _ hold
        · exact hcounted hfree
      refine .inr ⟨m', hput, h', hmapped.guarded hg hnew, fun d hd => ?_, hmapped,
        htab.phys p (by omega) ?_⟩
      · rw [htab.tableOf]
        exact update_of_ne hd _ _
      · rintro rfl
        rcases htab.origin with hold | ⟨-, -, hfree⟩
        · exact hnt _ hold
        · exact hcount hfree

/-! ## Accesses -/

theorem dirty_access (e : Word) : Dirty (e ||| accessBits true) := by
  rw [dirty_iff, BitVec.getLsbD_or]
  simp [accessBits]

theorem dirty_access_false (e : Word) : Dirty (e ||| accessBits false) ↔ Dirty e := by
  have hbit : (accessBits false).getLsbD 6 = false := rfl
  rw [dirty_iff, dirty_iff, BitVec.getLsbD_or, hbit, Bool.or_false]

theorem mark_spec (h : Tasks z held m) (hg : Guarded m) {address : Nat}
    (hu : User (posOf address)) (he : m.ent (posOf address) = some e) (dirty : Bool) :
    Tasks z held (m.mark address dirty) ∧ Guarded (m.mark address dirty) ∧
      (m.mark address dirty).tableOf = m.tableOf ∧ Keeps m (m.mark address dirty) ∧
      (m.mark address dirty).ent =
        update m.ent (posOf address) (some (e ||| accessBits dirty)) := by
  obtain ⟨t, ht⟩ := ent_tableOf he
  obtain ⟨hpres, hphys⟩ := (ent_eq_some ht).mp he
  have htab : m.table (dirSlot address) = t := table_of_tableOf ht
  have hmark : m.mark address dirty = m.write t (posOf address).2 (e ||| accessBits dirty) := by
    show m.write (m.table (dirSlot address)) (tableSlot address)
      (m.phys (m.table (dirSlot address)) (tableSlot address) ||| _) = _
    rw [htab, show m.phys t (tableSlot address) = e from hphys]
    rfl
  obtain ⟨h', ht', he'⟩ := h.rewrite ht he (present_access hpres dirty) (frame_access e dirty)
  rw [hmark]
  refine ⟨h', hg.rewrite hu he he' (frame_access e dirty) (writable_access e dirty), ht',
    fun w ew hw hwe hlow => ?_, he'⟩
  refine write_phys_of_ne ?_
  rintro rfl
  exact (data_page h hw hwe hlow).2.1 _ ht

/-- A store at `x`, into the page of its entry. -/
structure Stored (x : Pos) (e : Word) (m m' : Mem) : Prop where
  user : User x
  was : m.ent x = some e
  writable : Writable e
  ent : m'.ent = update m.ent x (some (e ||| accessBits true))
  keeps : ∀ w ew, User w → w ≠ x → m.ent w = some ew → LOW_MEM ≤ frame ew →
    m'.phys (frame ew) = m.phys (frame ew)

theorem put_spec {s : State} (h : Tasks z s.held s.mem) (hg : Guarded s.mem) {address : Nat}
    (hu : User (posOf address)) (he : s.mem.ent (posOf address) = some e) (hw : Writable e)
    (value : Byte) :
    Tasks z s.held (put s address value).mem ∧ Guarded (put s address value).mem ∧
      (put s address value).mem.tableOf = s.mem.tableOf ∧
      Stored (posOf address) e s.mem (put s address value).mem := by
  obtain ⟨h₁, hg₁, ht₁, hk₁, he₁⟩ := mark_spec h hg hu he true
  have hlow : LOW_MEM ≤ frame e := hg.low _ e hu he hw
  have hself : (s.mem.mark address true).ent (posOf address) = some (e ||| accessBits true) := by
    rw [he₁, update_self]
  have hframe := frame_access e true
  have hpage : (s.mem.mark address true).page (posOf address) = some (frame e) := by
    rw [Mem.page, hself, Option.map_some, hframe]
  obtain ⟨hpos, htab, -⟩ := data_page h₁ hu hself (hframe.symm ▸ hlow)
  rw [hframe] at hpos htab
  -- the page of a task holds no entries
  have hdir : ∀ w d, ((s.mem.mark address true).write (frame e) (wordSlot address) w).dir d =
      (s.mem.mark address true).dir d := fun w d => by
    rw [Mem.dir, write_phys_of_ne (by omega), Mem.dir]
  have hent : ∀ w, ((s.mem.mark address true).write (frame e) (wordSlot address) w).ent =
      (s.mem.mark address true).ent := fun w => ent_congr (hdir w) fun d t j hd => by
    rw [write_phys_of_ne fun heq : t = frame e => htab d (heq ▸ hd)]
  have hmem : (put s address value).mem = (s.mem.mark address true).write (frame e)
      (wordSlot address) (setByte ((s.mem.mark address true).phys (frame e) (wordSlot address))
        (address % 4) value) := by
    show Mem.storeByte _ _ _ = _
    rw [Mem.storeByte, hpage]
  rw [hmem]
  refine ⟨h₁.congr (tableOf_congr (hdir _)) (hent _) rfl rfl, hg₁.of_ent (hent _),
    (tableOf_congr (hdir _)).trans ht₁, hu, he, hw, (hent _).trans he₁,
    fun w ew hw' hne hwe hwlow => ?_⟩
  have hother : frame ew ≠ frame e := fun heq =>
    hne (hg.sole _ w e ew hu hw' he hwe hw heq)
  rw [write_phys_of_ne hother]
  exact hk₁ w ew hw' hwe hwlow

/-! ## free_page_tables and copy_page_tables -/

/-- The pages of task `nr` are gone. -/
structure Left (nr : Nat) (m m' : Mem) : Prop where
  ent : ∀ x, m'.ent x = if taskOf x = nr then none else m.ent x
  tableOf : ∀ d : Slot, m'.tableOf d = if d.val / 16 = nr then none else m.tableOf d
  keeps : Keeps m m'

theorem free_spec (h : Tasks z held m) (hg : Guarded m) {nr : Nat} (h1 : 1 ≤ nr)
    (hnr : nr < 64) :
    ∃ m', freePageTables m (nr * TASK_SIZE) TASK_SIZE = .ok m' ∧ Tasks z held m' ∧
      Guarded m' ∧ Left nr m m' := by
  obtain ⟨m', hm, h', hf⟩ := h.free h1 hnr (Nat.le_refl TASK_SIZE)
  have hleft : Left nr m m' := by
    refine ⟨fun x => ?_, fun d => ?_, fun w ew hw hwe hlow => ?_⟩
    · rw [hf.ent]
      by_cases hx : taskOf x = nr
      · rw [if_pos hx, if_pos ((mem_dirSlots_iff hnr).mpr hx)]
      · rw [if_neg hx, if_neg fun hmem => hx ((mem_dirSlots_iff hnr).mp hmem)]
    · rw [hf.tableOf]
      by_cases hd : d.val / 16 = nr
      · rw [if_pos hd, if_pos ((mem_dirSlots_iff hnr).mpr hd)]
      · rw [if_neg hd, if_neg fun hmem => hd ((mem_dirSlots_iff hnr).mp hmem)]
    · obtain ⟨hpos, htab, -⟩ := data_page h hw hwe hlow
      exact hf.phys _ hpos fun d _ => htab d
  refine ⟨m', hm, h', hg.drop fun x => ?_, hleft⟩
  rw [hleft.ent]
  split
  · exact .inl rfl
  · exact .inr rfl

/-- Task `dst` has got copies of entries of `src`; the originals above the first megabyte have
lost their write bits. -/
structure Forked (src dst : Nat) (m m' : Mem) : Prop where
  others : ∀ x, taskOf x ≠ dst → m'.ent x = m.ent x ∨
    taskOf x = src ∧ m'.ent x = (m.ent x).map wrprotectAbove
  copied : ∀ x e', taskOf x = dst → m'.ent x = some e' →
    ∃ e, m.ent (taskDir src (x.1.val % 16), x.2) = some e ∧ e' = wrprotect e ∧
      (LOW_MEM ≤ frame e → User (taskDir src (x.1.val % 16), x.2) ∧
        m'.ent (taskDir src (x.1.val % 16), x.2) = some (wrprotect e))
  kernel : ∀ x, x.1.val < 4 → m'.ent x = m.ent x
  tableOf : ∀ d : Slot, d.val / 16 ≠ dst → m'.tableOf d = m.tableOf d
  keeps : Keeps m m'

theorem Guarded.forked {src dst : Nat} (hg : Guarded m) (hf : Forked src dst m m') :
    Guarded m' := by
  -- an entry with its write bit is an old one
  have hold : ∀ {u eu}, User u → m'.ent u = some eu → Writable eu → m.ent u = some eu := by
    intro u eu hu hue hw
    by_cases hd : taskOf u = dst
    · obtain ⟨e, -, rfl, -⟩ := hf.copied u eu hd hue
      exact absurd hw (not_writable_wrprotect e)
    · rcases hf.others u hd with hsame | ⟨-, hprot⟩
      · exact hsame ▸ hue
      · rw [hprot] at hue
        obtain ⟨e, he, rfl⟩ := Option.map_eq_some_iff.mp hue
        unfold wrprotectAbove at hw ⊢
        split at hw
        · exact absurd hw (not_writable_wrprotect e)
        · rename_i hlow
          exact absurd (hg.low u e hu he hw) hlow
  constructor
  · intro u eu hu hue hw
    exact hg.low u eu hu (hold hu hue hw) hw
  · intro u v eu ev hu hv hue hve hw hframe
    have huold := hold hu hue hw
    by_cases hd : taskOf v = dst
    · obtain ⟨e, he, rfl, hsrc⟩ := hf.copied v ev hd hve
      rw [frame_wrprotect] at hframe
      obtain ⟨huser, hprot⟩ := hsrc (hframe ▸ hg.low u eu hu huold hw)
      have hsame := hg.sole u _ eu e hu huser huold he hw hframe
      rw [hsame, hue] at hprot
      obtain rfl := Option.some.inj hprot
      exact absurd hw (not_writable_wrprotect e)
    · rcases hf.others v hd with hsame | ⟨-, hprot⟩
      · exact hg.sole u v eu ev hu hv huold (hsame ▸ hve) hw hframe
      · rw [hprot] at hve
        obtain ⟨e, he, rfl⟩ := Option.map_eq_some_iff.mp hve
        rw [frame_wrprotectAbove] at hframe
        exact hg.sole u v eu e hu hv huold he hw hframe
  · intro u eu hu hue
    exact hg.kernel u eu hu (hf.kernel u hu ▸ hue)

theorem write_slot (m : Mem) (p t : Nat) {i j : Slot} (hne : i ≠ j) (w : Word) :
    (m.write p j w).phys t i = m.phys t i := by
  rcases eq_or_ne t p with rfl | ht
  · rw [write_phys_self, update_of_ne hne]
  · rw [write_phys_of_ne ht]

theorem copyEntry_slot (m : Mem) (a b t : Nat) {i j : Slot} (hne : i ≠ j) :
    (copyEntry a b m j).phys t i = m.phys t i := by
  unfold copyEntry
  split
  · dsimp only
    split
    · rw [setCount_phys, write_slot _ _ _ hne, write_slot _ _ _ hne]
    · rw [write_slot _ _ _ hne]
  · rfl

theorem copyEntries_slot (a b t : Nat) {i : Slot} (entries : List Slot) (hi : i ∉ entries) :
    ∀ m : Mem, (entries.foldl (copyEntry a b) m).phys t i = m.phys t i := by
  induction entries with
  | nil => exact fun _ => rfl
  | cons j rest ih =>
      intro m
      have hne : i ≠ j := fun heq => hi (heq ▸ List.mem_cons_self)
      rw [List.foldl_cons, ih (fun hmem => hi (List.mem_cons_of_mem j hmem)),
        copyEntry_slot _ _ _ _ hne]

/-- In the first megabyte, entries that are not copied do not change. -/
theorem copyDirs_slot {entries : List Slot} {t : Nat} {i : Slot} (hpos : t ≠ 0)
    (hlow : t < LOW_MEM) (hi : i ∉ entries) (dirs : List (Slot × Slot)) :
    ∀ {m : Mem} {r : Int}, copyDirs entries dirs m = .ok (r, m') →
      m'.phys t i = m.phys t i := by
  induction dirs with
  | nil =>
      intro m r hm
      obtain ⟨-, rfl⟩ := Prod.mk.inj (Except.ok.inj hm)
      rfl
  | cons y rest ih =>
      intro m r hm
      unfold copyDirs at hm
      split at hm
      · cases hm
      · split at hm
        · split at hm
          · obtain ⟨-, rfl⟩ := Prod.mk.inj (Except.ok.inj hm)
            rfl
          · rename_i p m₁ hg
            obtain ⟨hplow, -, -, rfl⟩ := getFreePage_eq hg
            rw [ih hm, copyEntries_slot _ _ _ _ hi, write_phys_of_ne hpos]
            exact congrFun (update_of_ne (by omega) _ _) i
        · exact ih hm

theorem limitOf_le (src : Nat) : limitOf src ≤ TASK_SIZE := by
  unfold limitOf
  split
  · decide
  · exact Nat.le_refl _

theorem Copied.forked (h : Tasks z held m)
    (hk : ∀ d t, d.val < 4 → m.tableOf d = some t → t < LOW_MEM) {src dst : Nat} {r : Int}
    (hsrc : src < 64) (h1 : 1 ≤ dst) (hdst : dst < 64)
    (hempty : ∀ d : Slot, d.val / 16 = dst → m.tableOf d = none)
    (hm : copyPageTables m (src * TASK_SIZE) (dst * TASK_SIZE) (limitOf src) = .ok (r, m'))
    (hc : Copied z (copiedEntries (src * TASK_SIZE))
      ((dirSlots (src * TASK_SIZE) (limitOf src)).zip (dirSlots (dst * TASK_SIZE) (limitOf src)))
      m r m') : Forked src dst m m' := by
  have hmem : ∀ {y}, y ∈ (dirSlots (src * TASK_SIZE) (limitOf src)).zip
      (dirSlots (dst * TASK_SIZE) (limitOf src)) → _ := fun {_} =>
    mem_zip_dirSlots hsrc hdst (limitOf_le src)
  have hdirs : ∀ {x : Pos}, taskOf x ≠ dst → ∀ y ∈ (dirSlots (src * TASK_SIZE)
      (limitOf src)).zip (dirSlots (dst * TASK_SIZE) (limitOf src)), y.2 ≠ x.1 := by
    intro x hx y hy heq
    obtain ⟨k, hk, -, -, -, hy2⟩ := hmem hy
    rw [taskOf, ← heq] at hx
    omega
  have hfirst : ∀ {y}, y ∈ (dirSlots (src * TASK_SIZE) (limitOf src)).zip
      (dirSlots (dst * TASK_SIZE) (limitOf src)) → src = 0 → y.1.val = 0 := by
    intro y hy hzero
    obtain ⟨k, hk, hkn, -, hy1, -⟩ := hmem hy
    subst hzero
    have hone : dirCount (limitOf 0) = 1 := by decide
    omega
  constructor
  · intro x hx
    rcases hc.ent x (hdirs hx) with hsame | ⟨⟨y, hy, heq⟩, hprot⟩
    · exact .inl hsame
    · obtain ⟨k, hk, -, -, hy1, -⟩ := hmem hy
      refine .inr ⟨?_, hprot⟩
      rw [taskOf, ← heq]
      omega
  · intro x e' hx hxe
    by_cases hy : ∃ y ∈ (dirSlots (src * TASK_SIZE) (limitOf src)).zip
        (dirSlots (dst * TASK_SIZE) (limitOf src)), y.2 = x.1
    · obtain ⟨y, hy, heq⟩ := hy
      obtain ⟨k, hk, -, -, hy1, hy2⟩ := hmem hy
      have hk' : x.1.val % 16 = k := by
        rw [← heq]
        omega
      have hdir : taskDir src (x.1.val % 16) = y.1 := by
        refine Fin.ext ?_
        rw [hk', taskDir_val hsrc hk, hy1]
      have hxy : m'.ent x = m'.ent (y.2, x.2) := by rw [heq]
      rcases hc.copy y hy x.2 with hnone | ⟨hi, hcopy, hprot⟩
      · rw [hxy, hnone] at hxe
        cases hxe
      · rw [hxy, hcopy] at hxe
        obtain ⟨e, he, rfl⟩ := Option.map_eq_some_iff.mp hxe
        rw [hdir]
        refine ⟨e, he, rfl, fun hlow => ⟨?_, ?_⟩⟩
        · rcases Nat.eq_zero_or_pos src with rfl | hpos
          · have hzero : y.1.val = 0 := hfirst hy rfl
            have hfr := h.kinds.kernel (y.1, x.2) (frame e) hzero
              (copiedEntries_zero (by simpa using hi)) (page_of_present he)
            omega
          · show 16 ≤ y.1.val
            omega
        · rw [hprot, he, Option.map_some, wrprotectAbove, if_pos hlow]
    · have hnone : m.ent x = none := tableOf_none_ent (i := x.2) (hempty x.1 hx)
      rcases hc.ent x fun y hy' heq => hy ⟨y, hy', heq⟩ with he | ⟨-, he⟩
      · rw [he, hnone] at hxe
        cases hxe
      · rw [he, hnone] at hxe
        cases hxe
  · intro x hx
    have htask : taskOf x ≠ dst := by
      unfold taskOf
      omega
    rcases hc.ent x (hdirs htask) with hsame | ⟨⟨y, hy, heq⟩, hprot⟩
    · exact hsame
    · obtain ⟨k, hk', -, -, hy1, -⟩ := hmem hy
      have hzero : src = 0 := by
        rw [← heq] at hx
        omega
      have hx0 : x.1.val = 0 := by
        rw [← heq]
        exact hfirst hy hzero
      subst hzero
      by_cases hi : x.2 ∈ copiedEntries 0
      · rw [hprot]
        cases hxe : m.ent x with
        | none => rfl
        | some e =>
            have hfr := h.kinds.kernel x (frame e) hx0 (copiedEntries_zero hi)
              (page_of_present hxe)
            rw [Option.map_some, wrprotectAbove, if_neg (by omega)]
      · have htab : m'.tableOf x.1 = m.tableOf x.1 :=
          hc.tableOf x.1 fun y hy => hdirs htask y hy
        rw [copyPageTables, if_neg (by simp only [TASK_SIZE]; omega)] at hm
        unfold Mem.ent
        rw [htab]
        cases ht : m.tableOf x.1 with
        | none => rfl
        | some t =>
            have hpos := h.paged.table_pos x.1 t ht
            have hslot := copyDirs_slot (t := t) (i := x.2) (by omega) (hk x.1 t hx ht)
              (by simpa using hi) _ hm
            rw [Option.bind_some, Option.bind_some, hslot]
  · intro d hd
    refine hc.tableOf d fun y hy heq => ?_
    exact hdirs (x := (d, 0)) hd y hy heq
  · intro w ew hw hwe hlow
    obtain ⟨hpos, htab, hcount⟩ := data_page h hw hwe hlow
    refine hc.phys _ hpos fun d hd => ?_
    rcases hc.fresh d _ hd with hold | ⟨-, hfree⟩
    · exact htab d hold
    · exact hcount hfree

theorem copy_spec (h : Tasks z held m) (hg : Guarded m)
    (hk : ∀ d t, d.val < 4 → m.tableOf d = some t → t < LOW_MEM) {src dst : Nat}
    (hsrc : src < 64) (h1 : 1 ≤ dst) (hdst : dst < 64) (hne : src ≠ dst)
    (hempty : ∀ d : Slot, d.val / 16 = dst → m.tableOf d = none) :
    ∃ r m', copyPageTables m (src * TASK_SIZE) (dst * TASK_SIZE) (limitOf src) = .ok (r, m') ∧
      Tasks z held m' ∧ Guarded m' ∧ Forked src dst m m' := by
  obtain ⟨r, m', hm, h', hc⟩ := h.copy hsrc h1 hdst hne (limitOf_le src)
    (fun hzero => by rw [limitOf, if_pos hzero]) hempty
  have hf := Copied.forked h hk hsrc h1 hdst hempty hm hc
  exact ⟨r, m', hm, h', hg.forked hf, hf⟩

/-! ## The invariant -/

/-- What a task that waits for `bread_page` relies on. -/
structure Loading (exe : Nat → Executable) (s : State) (nr : Nat) (t : Task) (tmp page : Nat) :
    Prop where
  task : 1 ≤ nr ∧ nr < 64
  held : 1 ≤ s.held page
  tmp_lt : tmp < TASK_SIZE
  aligned : tmp % 4096 = 0
  absent : s.mem.ent (posOf (linear nr tmp)) = none
  file : ∃ e, t.executable = some e ∧ tmp < (exe e).end_data

structure Base (z : Zone) (exe : Nat → Executable) (s : State) : Prop where
  tasks : Tasks z s.held s.mem
  guarded : Guarded s.mem
  alive : ∀ nr t, s.task nr = some t → nr < 64
  empty : ∀ d : Slot, 16 ≤ d.val → s.task (d.val / 16) = none → s.mem.tableOf d = none
  low_tables : ∀ d t, d.val < 4 → s.mem.tableOf d = some t → t < LOW_MEM
  loading : ∀ nr t tmp page, s.task nr = some t → t.loading = some (tmp, page) →
    Loading exe s nr t tmp page
  apart : ∀ nr nr' t t' tmp tmp' page, s.task nr = some t → s.task nr' = some t' →
    t.loading = some (tmp, page) → t'.loading = some (tmp', page) → nr = nr'

variable {exe : Nat → Executable}

theorem taskOf_linear {nr tmp : Nat} (h : 1 ≤ nr ∧ nr < 64) (htmp : tmp < TASK_SIZE) :
    taskOf (posOf (linear nr tmp)) = nr :=
  (linear_spec h.1 h.2 htmp).2.2

/-- A step that changes the entries and the record of one task, which does not wait. -/
theorem Base.own (h : Base z exe s) {nr : Nat} {o : Option Task} (hnr : 1 ≤ nr ∧ nr < 64)
    (htasks : Tasks z s'.held s'.mem) (hg : Guarded s'.mem) (htask : s'.task = update s.task nr o)
    (hawake : ∀ t, o = some t → t.loading = none)
    (hheld : ∀ nr' t tmp page, nr' ≠ nr → s.task nr' = some t → t.loading = some (tmp, page) →
      s'.held page = s.held page)
    (hgrow : ∀ x, taskOf x ≠ nr → s.mem.ent x = none → s'.mem.ent x = none)
    (htab : ∀ d : Slot, d.val / 16 ≠ nr → s'.mem.tableOf d = s.mem.tableOf d)
    (hgone : o = none → ∀ d : Slot, d.val / 16 = nr → s'.mem.tableOf d = none) :
    Base z exe s' := by
  have hother : ∀ {nr'}, nr' ≠ nr → s'.task nr' = s.task nr' := fun hne => by
    rw [htask, update_of_ne hne]
  have hself : s'.task nr = o := by rw [htask, update_self]
  have hwaits : ∀ {nr' t l}, s'.task nr' = some t → t.loading = some l →
      nr' ≠ nr ∧ s.task nr' = some t := by
    intro nr' t l ht hl
    rcases eq_or_ne nr' nr with rfl | hne
    · rw [hawake t (hself.symm.trans ht)] at hl
      cases hl
    · exact ⟨hne, hother hne ▸ ht⟩
  refine ⟨htasks, hg, fun nr' t ht => ?_, fun d hd hnone => ?_, fun d t hd ht => ?_,
    fun nr' t tmp page ht hl => ?_, fun nr₁ nr₂ t₁ t₂ tmp₁ tmp₂ page h₁ h₂ hl₁ hl₂ => ?_⟩
  · rcases eq_or_ne nr' nr with rfl | hne
    · exact hnr.2
    · exact h.alive nr' t (hother hne ▸ ht)
  · rcases eq_or_ne (d.val / 16) nr with heq | hne
    · rw [heq, hself] at hnone
      exact hgone hnone d heq
    · rw [htab d hne]
      exact h.empty d hd (hother hne ▸ hnone)
  · rw [htab d (by omega)] at ht
    exact h.low_tables d t hd ht
  · obtain ⟨hne, ht⟩ := hwaits ht hl
    have hold := h.loading nr' t tmp page ht hl
    refine ⟨hold.task, (hheld nr' t tmp page hne ht hl).symm ▸ hold.held, hold.tmp_lt,
      hold.aligned, hgrow _ ?_ hold.absent, hold.file⟩
    rw [taskOf_linear hold.task hold.tmp_lt]
    exact hne
  · exact h.apart nr₁ nr₂ t₁ t₂ tmp₁ tmp₂ page (hwaits h₁ hl₁).2 (hwaits h₂ hl₂).2 hl₁ hl₂

theorem awake_spec {nr : Nat} {t : Task} (h : s.awake nr = some t) :
    s.task nr = some t ∧ t.loading = none := by
  obtain ⟨ht, hl⟩ := Option.filter_eq_some_iff.mp h
  exact ⟨ht, Option.isNone_iff_eq_none.mp hl⟩

theorem user_spec {nr : Nat} {t : Task} (h : s.user nr = some t) :
    s.task nr = some t ∧ t.loading = none ∧ t.call = none := by
  obtain ⟨ha, hc⟩ := Option.filter_eq_some_iff.mp h
  obtain ⟨ht, hl⟩ := awake_spec ha
  exact ⟨ht, hl, Option.isNone_iff_eq_none.mp hc⟩

theorem toOption_ok {ε α : Type} {r : Except ε α} {a : α} (h : r.toOption = some a) :
    r = .ok a := by
  cases r with
  | error e => cases h
  | ok b => exact congrArg Except.ok (Option.some.inj h)

/-! ## What a step does -/

/-- The tasks keep their executables, and at most leave a system call. -/
def Tame (s s' : State) : Prop :=
  ∀ nr t', s'.task nr = some t' → ∃ t, s.task nr = some t ∧ t'.executable = t.executable ∧
    (t'.call = none ∨ t'.call = t.call)

theorem Tame.of_eq (h : s'.task = s.task) : Tame s s' := fun _ t ht =>
  ⟨t, h ▸ ht, rfl, .inr rfl⟩

inductive Effect (z : Zone) (exe : Nat → Executable) (s : State) : Act → State → Prop where
  /-- no entry and no page of a task changes -/
  | quiet (a : Act) (s' : State) (ent : s'.mem.ent = s.mem.ent) (keeps : Keeps s.mem s'.mem)
      (lost : s'.lost = s.lost) (tame : Tame s s') : Effect z exe s a s'
  /-- the task loses its pages -/
  | left (a : Act) (nr : Nat) (o : Option Task) (s₁ s' : State)
      (chain : Relation.ReflTransGen Replace s s₁) (left : Left nr s₁.mem s'.mem)
      (lost : s'.lost = s₁.lost) (task : s'.task = update s.task nr o)
      (call : ∀ t, o = some t → 1 ≤ nr ∧ t.call = none) : Effect z exe s a s'
  | forked (src dst : Nat) (t : Task) (s' : State) (was : s.task src = some t)
      (alive : src < 64 ∧ 1 ≤ dst) (call : t.call = none) (dead : s.task dst = none)
      (forked : Forked src dst s.mem s'.mem)
      (lost : ∀ x, s'.mem.ent x ≠ none → s'.lost x =
        if taskOf x = dst then s.lost (taskDir src (x.1.val % 16), x.2) else s.lost x)
      (task : s'.task = s.task ∨ s'.task = update s.task dst (some t)) :
      Effect z exe s (.fork src dst) s'
  | replaced (nr address : Nat) (s' : State) (replace : Replace s s') :
      Effect z exe s (.doWpPage nr address) s'
  | verified (nr buf count : Nat) (t : Task) (s₁ s' : State) (was : s.task nr = some t)
      (alive : 1 ≤ nr ∧ nr < 64) (chain : Relation.ReflTransGen Replace s s₁)
      (checked : ∀ a ∈ verifyPages (nr * TASK_SIZE) buf count, Open s₁.mem (posOf a))
      (mem : s'.mem = s₁.mem) (lost : s'.lost = s₁.lost)
      (task : s'.task = update s.task nr (some { t with call := some (buf, count) })) :
      Effect z exe s (.verifyArea nr buf count) s'
  | shared (nr address i_count p : Nat) (t : Task) (s' : State) (was : s.task nr = some t)
      (alive : 1 ≤ nr ∧ nr < 64) (lt : address < TASK_SIZE)
      (sharing : sharing s nr (pageOf address) i_count = .ok (.page p, s'.mem))
      (lent : Lent z s.held s nr (pageOf address) p s.mem s'.mem)
      (lost : s'.lost = update s.lost (posOf (linear nr (pageOf address)))
        (s.lost (posOf (linear p (pageOf address))))) (task : s'.task = s.task) :
      Effect z exe s (.doNoPage nr address i_count) s'
  | filled (nr address i_count page : Nat) (t : Task) (s' : State) (was : s.task nr = some t)
      (alive : 1 ≤ nr ∧ nr < 64) (lt : address < TASK_SIZE)
      (mapped : Mapped (posOf (linear nr (pageOf address))) page s.mem s'.mem)
      (behind : ∀ e, t.executable = some e → (exe e).end_data ≤ pageOf address)
      (lost : s'.lost = update s.lost (posOf (linear nr (pageOf address))) false)
      (task : s'.task = s.task) : Effect z exe s (.doNoPage nr address i_count) s'
  | loaded (nr e tmp page : Nat) (t : Task) (s' : State) (was : s.task nr = some t)
      (loading : Loading exe s nr t tmp page) (executable : t.executable = some e)
      (mapped : Mapped (posOf (linear nr tmp)) page s.mem s'.mem)
      (contents : s'.mem.phys page = loadPage (exe e) tmp)
      (lost : s'.lost = update s.lost (posOf (linear nr tmp)) false)
      (tame : Tame s s') : Effect z exe s (.loaded nr) s'
  | marked (nr address : Nat) (e : Word) (s' : State) (alive : 1 ≤ nr ∧ nr < 64)
      (lt : address < TASK_SIZE) (was : s.mem.ent (posOf (linear nr address)) = some e)
      (ent : s'.mem.ent =
        update s.mem.ent (posOf (linear nr address)) (some (e ||| accessBits false)))
      (keeps : Keeps s.mem s'.mem) (lost : s'.lost = s.lost) (task : s'.task = s.task) :
      Effect z exe s (.load nr address) s'
  | stored (a : Act) (nr address : Nat) (e : Word) (s' : State) (alive : 1 ≤ nr ∧ nr < 64)
      (lt : address < TASK_SIZE)
      (stored : Stored (posOf (linear nr address)) e s.mem s'.mem)
      (lost : s'.lost = update s.lost (posOf (linear nr address)) false)
      (task : s'.task = s.task) : Effect z exe s a s'

/-! ## The steps, one by one -/

/-- The task gives up its pages; it is gone, or runs another executable. -/
theorem Base.free (h : Base z exe s) {nr : Nat} (hnr : 1 ≤ nr ∧ nr < 64) (o : Option Task)
    (hawake : ∀ t, o = some t → t.loading = none) {mem : Mem}
    (hm : freePageTables s.mem (nr * TASK_SIZE) TASK_SIZE = .ok mem) :
    Base z exe { s with mem := mem, task := update s.task nr o } ∧ Left nr s.mem mem := by
  obtain ⟨m', hm', h', hg', hl⟩ := free_spec h.tasks h.guarded hnr.1 hnr.2
  obtain rfl : m' = mem := Except.ok.inj (hm'.symm.trans hm)
  refine ⟨h.own hnr h' hg' rfl hawake (fun _ _ _ _ _ _ _ => rfl) (fun x hx hnone => ?_)
    (fun d hd => ?_) fun _ d hd => ?_, hl⟩
  · rw [hl.ent, if_neg hx]
    exact hnone
  · rw [hl.tableOf, if_neg hd]
  · rw [hl.tableOf, if_pos hd]

/-- A state that differs in what no task sees. -/
theorem Left.of_ent {nr : Nat} {m₁ : Mem} (hl : Left nr m₁ m') (hent : m₁.ent = m.ent)
    (htab : ∀ d : Slot, d.val / 16 ≠ nr → m₁.tableOf d = m.tableOf d) (hk : Keeps m m₁) :
    Left nr m m' := by
  refine ⟨fun x => ?_, fun d => ?_, fun w ew hw hwe hlow => ?_⟩
  · rw [hl.ent, hent]
  · rw [hl.tableOf]
    by_cases hd : d.val / 16 = nr
    · rw [if_pos hd, if_pos hd]
    · rw [if_neg hd, if_neg hd, htab d hd]
  · exact (hl.keeps w ew hw (hent ▸ hwe) hlow).trans (hk w ew hw hwe hlow)

theorem doExit_spec {nr : Nat} (hs : doExit s nr = .ok s') :
    ∃ mem, freePageTables s.mem (nr * TASK_SIZE) TASK_SIZE = .ok mem ∧
      s' = { s with mem := mem, task := update s.task nr none } := by
  unfold doExit at hs
  cases hm : freePageTables s.mem (nr * TASK_SIZE) TASK_SIZE with
  | error e =>
      rw [hm] at hs
      cases hs
  | ok mem =>
      rw [hm] at hs
      exact ⟨mem, rfl, (Except.ok.inj hs).symm⟩

theorem Base.doExit (h : Base z exe s) {nr : Nat} (hnr : 1 ≤ nr ∧ nr < 64) (a : Act)
    (hs : doExit s nr = .ok s') : Base z exe s' ∧ Effect z exe s a s' := by
  obtain ⟨mem, hm, rfl⟩ := doExit_spec hs
  obtain ⟨hb, hl⟩ := h.free hnr none (fun _ hno => nomatch hno) hm
  exact ⟨hb, .left a nr none s _ .refl hl rfl rfl fun _ hno => nomatch hno⟩

theorem Forked.refl_dead {src dst : Nat} (hf : Forked src dst m m') {m'' : Mem}
    (hl : Left dst m' m'') (hempty : ∀ x, taskOf x = dst → m.ent x = none) (h1 : 1 ≤ dst) :
    Forked src dst m m'' := by
  have hother : ∀ x, taskOf x ≠ dst → m''.ent x = m'.ent x := fun x hx => by
    rw [hl.ent, if_neg hx]
  refine ⟨fun x hx => ?_, fun x e' hx hxe => ?_, fun x hx => ?_, fun d hd => ?_,
    fun w ew hw hwe hlow => ?_⟩
  · rw [hother x hx]
    exact hf.others x hx
  · rw [hl.ent, if_pos hx] at hxe
    cases hxe
  · rw [hother x (by unfold taskOf; omega)]
    exact hf.kernel x hx
  · rw [hl.tableOf, if_neg hd]
    exact hf.tableOf d hd
  · have hd : taskOf w ≠ dst := fun heq => by
      rw [hempty w heq] at hwe
      cases hwe
    refine Eq.trans ?_ (hf.keeps w ew hw hwe hlow)
    rcases hf.others w hd with hsame | ⟨-, hprot⟩
    · exact hl.keeps w ew hw (hsame.trans hwe) hlow
    · rw [hwe] at hprot
      have hkeep := hl.keeps w (wrprotectAbove ew) hw hprot
      rw [frame_wrprotectAbove] at hkeep
      exact hkeep hlow

theorem Base.dead_ent (h : Base z exe s) {nr : Nat} (h1 : 1 ≤ nr) (hdead : s.task nr = none)
    (x : Pos) (hx : taskOf x = nr) : s.mem.ent x = none := by
  unfold taskOf at hx
  exact tableOf_none_ent (i := x.2) (h.empty x.1 (by omega) (hx.symm ▸ hdead))

theorem Base.fork (h : Base z exe s) {src dst : Nat} {t : Task} (hu : s.user src = some t)
    (hdst : 1 ≤ dst ∧ dst < 64) (hdead : s.task dst = none)
    (hs : fork s src dst t = .ok s') : Base z exe s' ∧ Effect z exe s (.fork src dst) s' := by
  obtain ⟨ht, hload, hcall⟩ := user_spec hu
  have hne : src ≠ dst := by
    rintro rfl
    rw [ht] at hdead
    cases hdead
  have hempty : ∀ d : Slot, d.val / 16 = dst → s.mem.tableOf d = none := fun d hd =>
    h.empty d (by omega) (hd.symm ▸ hdead)
  obtain ⟨r, m', hm, h', hg', hf⟩ := copy_spec h.tasks h.guarded h.low_tables (h.alive src t ht)
    hdst.1 hdst.2 hne hempty
  have hgrow : ∀ {m'' : Mem}, Forked src dst s.mem m'' → ∀ x, taskOf x ≠ dst →
      s.mem.ent x = none → m''.ent x = none := by
    intro m'' hf'' x hx hnone
    rcases hf''.others x hx with hsame | ⟨-, hprot⟩
    · exact hsame.trans hnone
    · rw [hprot, hnone]
      rfl
  unfold DemandPages.fork at hs
  rw [hm] at hs
  by_cases hr : r = 0
  · subst hr
    obtain rfl := Except.ok.inj hs
    refine ⟨h.own (o := some t) hdst h' hg' rfl (fun t' ht' => Option.some.inj ht' ▸ hload)
      (fun _ _ _ _ _ _ _ => rfl) (hgrow hf) hf.tableOf (fun hno => nomatch hno), ?_⟩
    exact .forked src dst t _ ht ⟨h.alive src t ht, hdst.1⟩ hcall hdead hf (fun _ _ => rfl)
      (.inr rfl)
  · obtain ⟨m'', hm'', h'', hg'', hl⟩ := free_spec h' hg' hdst.1 hdst.2
    change (if r = 0 then _ else _) = _ at hs
    rw [if_neg hr, hm''] at hs
    obtain rfl := Except.ok.inj hs
    have hf'' := hf.refl_dead hl (h.dead_ent hdst.1 hdead) hdst.1
    have hgone : ∀ x, taskOf x = dst → m''.ent x = none := fun x hx => by
      rw [hl.ent, if_pos hx]
    refine ⟨h.own (o := none) hdst h'' hg'' ?_ (fun _ hno => nomatch hno)
      (fun _ _ _ _ _ _ _ => rfl) (hgrow hf'') hf''.tableOf (fun _ d hd => ?_), ?_⟩
    · rw [← hdead, update_eq_self]
    · rw [hl.tableOf, if_pos hd]
    · refine .forked src dst t _ ht ⟨h.alive src t ht, hdst.1⟩ hcall hdead hf''
        (fun x hx => ?_) (.inl rfl)
      rw [if_neg fun hd => hx (hgone x hd)]

theorem Base.exec (h : Base z exe s) {nr e : Nat} (hnr : 1 ≤ nr ∧ nr < 64)
    (hs : exec s nr e = .ok s') : Base z exe s' ∧ Effect z exe s (.exec nr e) s' := by
  unfold DemandPages.exec at hs
  cases hm : freePageTables s.mem (nr * TASK_SIZE) TASK_SIZE with
  | error p =>
      rw [hm] at hs
      cases hs
  | ok mem =>
      rw [hm] at hs
      obtain rfl := Except.ok.inj hs
      have hnew : ∀ t, some (⟨some e, none, none⟩ : Task) = some t → t.loading = none ∧
          t.call = none := fun t ht => Option.some.inj ht ▸ ⟨rfl, rfl⟩
      obtain ⟨hb, hl⟩ := h.free hnr (some ⟨some e, none, none⟩) (fun t ht => (hnew t ht).1) hm
      exact ⟨hb, .left _ nr _ s _ .refl hl rfl rfl fun t ht => ⟨hnr.1, (hnew t ht).2⟩⟩

theorem pageOf_spec {address : Nat} (h : address < TASK_SIZE) (nr : Nat) :
    pageOf address < TASK_SIZE ∧ pageOf address % 4096 = 0 ∧
      posOf (linear nr (pageOf address)) = posOf (linear nr address) := by
  have hle : pageOf address ≤ address := Nat.div_mul_le_self _ _
  refine ⟨by omega, Nat.mul_mod_left _ _, ?_⟩
  unfold posOf dirSlot tableSlot linear pageOf
  refine Prod.ext (Fin.ext ?_) (Fin.ext ?_)
  · show (address / 0x1000 * 0x1000 + nr * 0x4000000) / 0x400000 % 1024 =
      (address + nr * 0x4000000) / 0x400000 % 1024
    omega
  · show (address / 0x1000 * 0x1000 + nr * 0x4000000) / 0x1000 % 1024 =
      (address + nr * 0x4000000) / 0x1000 % 1024
    omega

theorem OwnTable.other {nr tmp : Nat} (h : OwnTable (posOf (linear nr tmp)) m m')
    (hnr : 1 ≤ nr ∧ nr < 64) (htmp : tmp < TASK_SIZE) (d : Slot) (hd : d.val / 16 ≠ nr) :
    m'.tableOf d = m.tableOf d := by
  refine h d fun heq => hd ?_
  have htask := taskOf_linear hnr htmp
  unfold taskOf at htask
  rw [heq]
  exact htask

/-- The record of a task that stays as it is. -/
theorem Base.stay (h : Base z exe s) {nr : Nat} {t : Task} (ht : s.task nr = some t)
    (hload : t.loading = none) (hnr : 1 ≤ nr ∧ nr < 64) (htasks : Tasks z s'.held s'.mem)
    (hg : Guarded s'.mem) (htask : s'.task = s.task) (hheld : s'.held = s.held)
    (hgrow : ∀ x, taskOf x ≠ nr → s.mem.ent x = none → s'.mem.ent x = none)
    (htab : ∀ d : Slot, d.val / 16 ≠ nr → s'.mem.tableOf d = s.mem.tableOf d) :
    Base z exe s' := by
  refine h.own (o := some t) hnr htasks hg ?_ (fun t' ht' => Option.some.inj ht' ▸ hload)
    (fun _ _ _ _ _ _ _ => by rw [hheld]) hgrow htab fun hno => nomatch hno
  rw [htask, ← ht, update_eq_self]

theorem mapped_other {p nr : Nat} (hm : Mapped y p m m') (hy : taskOf y = nr) (x : Pos)
    (hx : taskOf x ≠ nr) (hnone : m.ent x = none) : m'.ent x = none := by
  have hne : x ≠ y := by
    rintro rfl
    exact hx hy
  rw [hm.ent, update_of_ne hne]
  exact hnone

theorem Base.startLoading (h : Base z exe s) {nr tmp : Nat} {t : Task} (ht : s.task nr = some t)
    (hnr : 1 ≤ nr ∧ nr < 64) (a : Act) (htmp : tmp < TASK_SIZE)
    (halign : tmp % 4096 = 0) (hnone : s.mem.ent (posOf (linear nr tmp)) = none)
    (hfile : ∃ e, t.executable = some e ∧ tmp < (exe e).end_data)
    (hs : startLoading s nr t tmp = .ok s') : Base z exe s' ∧ Effect z exe s a s' := by
  unfold DemandPages.startLoading at hs
  split at hs
  · exact h.doExit hnr a hs
  · rename_i page mem hget
    obtain rfl := Except.ok.inj hs
    obtain ⟨h', hf⟩ := h.tasks.alloc hget
    have hkeeps : Keeps s.mem mem := fun w ew hw hwe _ => by
      rw [hf.phys]
      exact update_of_ne (unnamed h.tasks hf.managed hf.free hw hwe) _ _
    have hold : ∀ {nr' t' l}, nr' ≠ nr → update s.task nr
        (some { t with loading := some (tmp, page) }) nr' = some t' → t'.loading = some l →
        s.task nr' = some t' ∧ l.2 ≠ page := by
      intro nr' t' l hne ht' hl
      rw [update_of_ne hne] at ht'
      refine ⟨ht', fun heq => ?_⟩
      have hheld := (h.loading nr' t' l.1 l.2 ht' hl).held
      have hzero := (h.tasks.paged.unused hf.managed hf.free).2.2
      rw [heq] at hheld
      omega
    have hself : ∀ {t' l}, update s.task nr (some { t with loading := some (tmp, page) }) nr =
        some t' → t'.loading = some l → t' = { t with loading := some (tmp, page) } ∧
          l = (tmp, page) := by
      intro t' l ht' hl
      rw [update_self] at ht'
      obtain rfl := Option.some.inj ht'
      exact ⟨rfl, (Option.some.inj hl).symm⟩
    refine ⟨⟨h', h.guarded.of_ent hf.ent, fun nr' t' ht' => ?_, fun d hd hdead => ?_,
      fun d p hd hp => ?_, fun nr' t' tmp' page' ht' hl' => ?_,
      fun nr₁ nr₂ t₁ t₂ tmp₁ tmp₂ page' h₁ h₂ hl₁ hl₂ => ?_⟩,
      .quiet a _ hf.ent hkeeps rfl fun nr' t' ht' => ?_⟩
    · rcases eq_or_ne nr' nr with rfl | hne
      · exact hnr.2
      · exact h.alive nr' t' ((update_of_ne hne _ _).symm.trans ht')
    · rw [hf.tableOf]
      refine h.empty d hd ?_
      rcases eq_or_ne (d.val / 16) nr with heq | hne
      · rw [heq] at hdead
        dsimp only at hdead
        rw [update_self] at hdead
        cases hdead
      · exact (update_of_ne hne _ _).symm.trans hdead
    · exact h.low_tables d p hd (hf.tableOf ▸ hp)
    · rcases eq_or_ne nr' nr with rfl | hne
      · obtain ⟨rfl, hl⟩ := hself ht' hl'
        obtain ⟨rfl, rfl⟩ := Prod.mk.inj hl
        have hheld : 1 ≤ update s.held page' 1 page' := by rw [update_self]
        exact ⟨hnr, hheld, htmp, halign, by rw [hf.ent]; exact hnone, hfile⟩
      · obtain ⟨ht', hpage⟩ := hold hne ht' hl'
        have hl := h.loading nr' t' tmp' page' ht' hl'
        exact ⟨hl.task, hl.held.trans_eq (update_of_ne hpage _ _).symm, hl.tmp_lt, hl.aligned,
          by rw [hf.ent]; exact hl.absent, hl.file⟩
    · rcases eq_or_ne nr₁ nr with rfl | hne₁
      · rcases eq_or_ne nr₂ nr₁ with rfl | hne₂
        · rfl
        · obtain ⟨-, hl⟩ := hself h₁ hl₁
          exact absurd (Prod.mk.inj hl).2 (hold hne₂ h₂ hl₂).2
      · rcases eq_or_ne nr₂ nr with rfl | hne₂
        · obtain ⟨-, hl⟩ := hself h₂ hl₂
          exact absurd (Prod.mk.inj hl).2 (hold hne₁ h₁ hl₁).2
        · exact h.apart nr₁ nr₂ t₁ t₂ tmp₁ tmp₂ page' (hold hne₁ h₁ hl₁).1 (hold hne₂ h₂ hl₂).1
            hl₁ hl₂
    · rcases eq_or_ne nr' nr with rfl | hne
      · dsimp only at ht'
        rw [update_self] at ht'
        obtain rfl := Option.some.inj ht'
        exact ⟨t, ht, rfl, .inr rfl⟩
      · exact ⟨t', (update_of_ne hne _ _).symm.trans ht', rfl, .inr rfl⟩

theorem Base.doNoPage (h : Base z exe s) {nr address : Nat} {t : Task} (i_count : Nat)
    (ha : s.awake nr = some t) (h1 : 1 ≤ nr) (hlt : address < TASK_SIZE)
    (hnone : s.mem.ent (posOf (linear nr address)) = none)
    (hs : doNoPage exe s nr t address i_count = .ok s') :
    Base z exe s' ∧ Effect z exe s (.doNoPage nr address i_count) s' := by
  obtain ⟨ht, hload⟩ := awake_spec ha
  have hnr : 1 ≤ nr ∧ nr < 64 := ⟨h1, h.alive nr t ht⟩
  obtain ⟨htmp, halign, hpos⟩ := pageOf_spec hlt nr
  obtain ⟨hu, -, -⟩ := linear_spec h1 hnr.2 htmp
  have htask := taskOf_linear hnr htmp
  rw [← hpos] at hnone
  unfold DemandPages.doNoPage at hs
  dsimp only at hs
  split at hs
  · rename_i hbehind
    obtain ⟨r, m', hm, h', hg', htab, hres⟩ := getEmptyPage_spec h.tasks h.guarded hu hnone
    rw [hm] at hs
    rcases hres with ⟨rfl, hent, hkeeps⟩ | ⟨rfl, p, hmapped⟩
    · have hb : Base z exe { s with mem := m' } :=
        h.stay ht hload hnr h' hg' rfl rfl (fun x _ hx => by rw [hent]; exact hx)
          (htab.other hnr htmp)
      obtain ⟨mem, hfree, rfl⟩ := doExit_spec (s := { s with mem := m' }) hs
      obtain ⟨hb', hl⟩ := hb.free hnr none (fun _ hno => nomatch hno) hfree
      have hleft : Left nr s.mem mem := hl.of_ent hent (htab.other hnr htmp) hkeeps
      exact ⟨hb', .left _ nr none s _ .refl hleft rfl rfl fun _ hno => nomatch hno⟩
    · obtain rfl := Except.ok.inj hs
      refine ⟨h.stay ht hload hnr h' hg' rfl rfl (mapped_other hmapped htask)
        (htab.other hnr htmp), .filled nr address i_count p t _ ht hnr hlt hmapped ?_ rfl rfl⟩
      intro e he
      rw [inFile, he] at hbehind
      exact Nat.le_of_not_lt (of_decide_eq_false hbehind)
  · rename_i hthere
    obtain ⟨e, he, hfile⟩ := (Option.any_eq_true _ _).mp (Bool.eq_true_of_not_eq_false hthere)
    have hfile := of_decide_eq_true hfile
    rcases sharing_spec h.tasks h.guarded h1 hnr.2 htmp hnone i_count with
      ⟨r, hsharing, hno⟩ | ⟨p, m', hsharing, hlent⟩
    · rw [hsharing] at hs
      cases r with
      | page p => exact absurd rfl (hno p)
      | oom => exact h.doExit hnr _ hs
      | no =>
          dsimp only at hs
          exact h.startLoading ht hnr _ htmp halign hnone ⟨e, he, hfile⟩ hs
    · rw [hsharing] at hs
      obtain rfl := Except.ok.inj hs
      obtain ⟨e', hshared⟩ := hlent.shared
      refine ⟨h.stay ht hload hnr hlent.tasks hlent.guarded rfl rfl (fun x hx hxn => ?_)
        (hlent.tables.other hnr htmp),
        .shared nr address i_count p t _ ht hnr hlt hsharing hlent rfl rfl⟩
      have hne : x ≠ posOf (linear nr (pageOf address)) := by
        rintro rfl
        exact hx htask
      rw [hshared.ent, update_of_ne hne]
      rcases eq_or_ne x (posOf (linear p (pageOf address))) with rfl | hxp
      · rw [hshared.was] at hxn
        cases hxn
      · rw [update_of_ne hxp]
        exact hxn

theorem freePage_spec (h : Tasks z held m) {p : Nat} (hp : 1 ≤ held p) :
    ∃ m', freePage m p = .ok m' ∧ Tasks z (update held p 0) m' ∧ m'.phys = m.phys := by
  obtain ⟨m', hm, h'⟩ := h.drop hp
  obtain ⟨hfree, -⟩ := h.paged.drop (h.kinds.held_managed p hp) hp
  obtain rfl : uncount m p = m' := Except.ok.inj (hfree.symm.trans hm)
  exact ⟨_, hm, h', uncount_phys m p⟩

theorem Base.loaded (h : Base z exe s) {nr e tmp page : Nat} {call : Option (Nat × Nat)}
    (ht : s.task nr = some ⟨some e, call, some (tmp, page)⟩)
    (hs : loaded (exe e) s nr ⟨some e, call, some (tmp, page)⟩ tmp page = .ok s') :
    Base z exe s' ∧ Effect z exe s (.loaded nr) s' := by
  have hl := h.loading nr _ tmp page ht rfl
  obtain ⟨hu, -, -⟩ := linear_spec hl.task.1 hl.task.2 hl.tmp_lt
  obtain ⟨h₁, he₁, ht₁, hk₁⟩ := fill_spec h.tasks hl.held (loadPage (exe e) tmp)
  have hg₁ := h.guarded.of_ent he₁
  have hheld : ∀ nr' t' tmp' page', nr' ≠ nr → s.task nr' = some t' →
      t'.loading = some (tmp', page') → update s.held page 0 page' = s.held page' := by
    intro nr' t' tmp' page' hne ht' hl'
    refine update_of_ne ?_ _ _
    rintro rfl
    exact hne (h.apart nr' nr t' _ tmp' tmp page' ht' ht hl' rfl)
  have hawake : ∀ t, some (⟨some e, call, none⟩ : Task) = some t → t.loading = none :=
    fun t ht => Option.some.inj ht ▸ rfl
  have htame : Tame s { s with task := update s.task nr (some ⟨some e, call, none⟩) } := by
    intro nr' t' ht'
    rcases eq_or_ne nr' nr with rfl | hne
    · dsimp only at ht'
      rw [update_self] at ht'
      obtain rfl := Option.some.inj ht'
      exact ⟨_, ht, rfl, .inr rfl⟩
    · exact ⟨t', (update_of_ne hne _ _).symm.trans ht', rfl, .inr rfl⟩
  unfold DemandPages.loaded at hs
  dsimp only at hs
  generalize hfill : ({ s.mem with
    phys := update s.mem.phys page (loadPage (exe e) tmp) } : Mem) = m₁ at *
  rcases putPage_spec h₁ hg₁ hl.held hu (by rw [he₁]; exact hl.absent) with
    hput | ⟨m₂, hput, h₂, hg₂, htab, hmapped, hcontents⟩
  · obtain ⟨m₂, hfree, h₂, hphys⟩ := freePage_spec h₁ hl.held
    simp only [hput, hfree] at hs
    have hent : m₂.ent = s.mem.ent := (ent_of_phys hphys).trans he₁
    have htab : m₂.tableOf = s.mem.tableOf := (tableOf_of_phys hphys).trans ht₁
    have hb : Base z exe { s with
        mem := m₂, held := update s.held page 0
        task := update s.task nr (some ⟨some e, call, none⟩) } :=
      h.own hl.task h₂ (h.guarded.of_ent hent) rfl hawake hheld
        (fun x _ hx => by rw [hent]; exact hx) (fun d _ => congrFun htab d)
        fun hno => nomatch hno
    obtain ⟨mem, hfreed, rfl⟩ := doExit_spec hs
    obtain ⟨hb', hleft⟩ := hb.free hl.task none (fun _ hno => nomatch hno) hfreed
    have hkeeps : Keeps s.mem m₂ := fun w ew hw hwe hlow => by
      rw [hphys]
      exact hk₁ w ew hw hwe hlow
    refine ⟨hb', .left _ nr none s _ .refl
      (hleft.of_ent hent (fun d _ => congrFun htab d) hkeeps) rfl ?_ fun _ hno => nomatch hno⟩
    exact update_idem _ _ _
  · have hpos : page ≠ 0 := by
      have h256 : LOW_MEM = 256 := rfl
      have hlow := hmapped.low
      omega
    have hok : s' = { s with
        mem := m₂, held := update s.held page 0
        task := update s.task nr (some ⟨some e, call, none⟩)
        lost := update s.lost (posOf (linear nr tmp)) false } := by
      rw [hput] at hs
      cases page with
      | zero => exact absurd rfl hpos
      | succ n => exact (Except.ok.inj hs).symm
    subst hok
    have hmapped' : Mapped (posOf (linear nr tmp)) page s.mem m₂ := by
      refine ⟨hu, hl.absent, hmapped.low, hmapped.pages, by rw [hmapped.ent, he₁],
        fun w ew hw hwe hlow => ?_⟩
      exact (hmapped.keeps w ew hw (by rw [he₁]; exact hwe) hlow).trans (hk₁ w ew hw hwe hlow)
    refine ⟨h.own hl.task h₂ hg₂ rfl hawake hheld
      (mapped_other hmapped' (taskOf_linear hl.task hl.tmp_lt)) (fun d hd => ?_)
      (fun hno => nomatch hno), .loaded nr e tmp page _ _ ht hl rfl hmapped' ?_ rfl htame⟩
    · exact (htab.other hl.task hl.tmp_lt d hd).trans (congrFun ht₁ d)
    · rw [hcontents, ← hfill]
      exact update_self _ _ _

theorem Replaced.absent {lost lost' : Pos → Bool} (h : Replaced x e e' m m' lost lost')
    (hy : m.ent y = none) : m'.ent y = none := by
  have hne : y ≠ x := by
    rintro rfl
    rw [h.was] at hy
    cases hy
  rw [h.ent, update_of_ne hne]
  exact hy

theorem replace_absent (h : Relation.ReflTransGen Replace s s') (hy : s.mem.ent y = none) :
    s'.mem.ent y = none := by
  induction h with
  | refl => exact hy
  | tail _ hr ih =>
      obtain ⟨-, -, x, e, e', hr⟩ := hr
      exact hr.absent ih

theorem Base.doWpPage (h : Base z exe s) {nr address : Nat} {t : Task} (hu : s.user nr = some t)
    (h1 : 1 ≤ nr) (hlt : address < TASK_SIZE) {e : Word}
    (he : s.mem.ent (posOf (linear nr address)) = some e) (hw : ¬Writable e) {mem : Mem}
    (hm : doWpPage s.mem (linear nr address) = some mem) :
    Base z exe { s with
        mem := mem, lost := losing s.mem mem (posOf (linear nr address)) s.lost } ∧
      Effect z exe s (.doWpPage nr address) { s with
        mem := mem, lost := losing s.mem mem (posOf (linear nr address)) s.lost } := by
  obtain ⟨ht, hload, -⟩ := user_spec hu
  have hnr : 1 ≤ nr ∧ nr < 64 := ⟨h1, h.alive nr t ht⟩
  obtain ⟨hux, -, -⟩ := linear_spec h1 hnr.2 hlt
  obtain ⟨p, hp⟩ := ent_tableOf he
  have htab : s.mem.table (dirSlot (linear nr address)) = p := table_of_tableOf hp
  rw [Linux011.doWpPage, htab] at hm
  rcases h.tasks.unWp hp he hux with hnone | ⟨m', hm', h', ht', hun⟩
  · have hno : unWpPage s.mem p (tableSlot (linear nr address)) = none := hnone
    rw [hno] at hm
    cases hm
  · obtain rfl : m' = mem := Option.some.inj (hm'.symm.trans hm)
    obtain ⟨hg', e', hr⟩ := h.guarded.unWp h.tasks s.lost hux he hw hun
    refine ⟨h.stay ht hload hnr h' hg' rfl rfl (fun x _ hx => hr.absent hx)
      fun d _ => congrFun ht' d, .replaced nr address _ ⟨rfl, rfl, _, e, e', hr⟩⟩

theorem Base.put (h : Base z exe s) {nr address : Nat} {t : Task} (ha : s.awake nr = some t)
    (h1 : 1 ≤ nr) (hlt : address < TASK_SIZE) {e : Word}
    (he : s.mem.ent (posOf (linear nr address)) = some e) (hw : Writable e) (value : Byte)
    (a : Act) : Base z exe (put s (linear nr address) value) ∧
      Effect z exe s a (put s (linear nr address) value) := by
  obtain ⟨ht, hload⟩ := awake_spec ha
  have hnr : 1 ≤ nr ∧ nr < 64 := ⟨h1, h.alive nr t ht⟩
  obtain ⟨hux, -, -⟩ := linear_spec h1 hnr.2 hlt
  obtain ⟨h', hg', ht', hst⟩ := put_spec h.tasks h.guarded hux he hw value
  refine ⟨h.stay ht hload hnr h' hg' rfl rfl (fun x hx hnone => ?_) fun d _ => congrFun ht' d,
    .stored a nr address e _ hnr hlt hst rfl rfl⟩
  have hne : x ≠ posOf (linear nr address) := by
    rintro rfl
    exact hx (taskOf_linear hnr hlt)
  rw [hst.ent, update_of_ne hne]
  exact hnone

theorem Base.load (h : Base z exe s) {nr address : Nat} {t : Task} (ha : s.awake nr = some t)
    (h1 : 1 ≤ nr) (hlt : address < TASK_SIZE) {e : Word}
    (he : s.mem.ent (posOf (linear nr address)) = some e) :
    Base z exe { s with mem := s.mem.mark (linear nr address) false } ∧
      Effect z exe s (.load nr address) { s with
        mem := s.mem.mark (linear nr address) false } := by
  obtain ⟨ht, hload⟩ := awake_spec ha
  have hnr : 1 ≤ nr ∧ nr < 64 := ⟨h1, h.alive nr t ht⟩
  obtain ⟨hux, -, -⟩ := linear_spec h1 hnr.2 hlt
  obtain ⟨h', hg', ht', hk, he'⟩ := mark_spec h.tasks h.guarded hux he false
  refine ⟨h.stay ht hload hnr h' hg' rfl rfl (fun x hx hnone => ?_) fun d _ => congrFun ht' d,
    .marked nr address e _ hnr hlt he he' hk rfl rfl⟩
  have hne : x ≠ posOf (linear nr address) := by
    rintro rfl
    exact hx (taskOf_linear hnr hlt)
  rw [he', update_of_ne hne]
  exact hnone

/-- The state in the middle of a `verify_area`. -/
theorem Base.replace (h : Base z exe s) {nr : Nat} {t : Task} (ht : s.task nr = some t)
    (hload : t.loading = none) (hnr : 1 ≤ nr ∧ nr < 64) (htasks : Tasks z s'.held s'.mem)
    (hg : Guarded s'.mem) (hheld : s'.held = s.held) (htask : s'.task = s.task)
    (htab : s'.mem.tableOf = s.mem.tableOf) (hchain : Relation.ReflTransGen Replace s s') :
    Base z exe s' :=
  h.stay ht hload hnr htasks hg htask hheld (fun _ _ hx => replace_absent hchain hx) fun d _ =>
    congrFun htab d

theorem Base.verifyArea (h : Base z exe s) {nr buf count : Nat} {t : Task}
    (hu : s.user nr = some t) (h1 : 1 ≤ nr) {s₁ : State}
    (hs : verifyArea (verifyPages (nr * TASK_SIZE) buf count) s = (true, s₁)) :
    Base z exe { s₁ with
        task := update s₁.task nr (some { t with call := some (buf, count) }) } ∧
      Effect z exe s (.verifyArea nr buf count) { s₁ with
        task := update s₁.task nr (some { t with call := some (buf, count) }) } := by
  obtain ⟨ht, hload, -⟩ := user_spec hu
  have hnr : 1 ≤ nr ∧ nr < 64 := ⟨h1, h.alive nr t ht⟩
  obtain ⟨there, s', hs', h', hg', hheld, htask, htab, hchain, hopen⟩ :=
    verifyArea_spec (verifyPages (nr * TASK_SIZE) buf count) h.tasks h.guarded
  obtain ⟨rfl, rfl⟩ := Prod.mk.inj (hs'.symm.trans hs)
  have hb := h.replace ht hload hnr h' hg' hheld htask htab hchain
  refine ⟨hb.own hnr h' hg' rfl (fun t' ht' => Option.some.inj ht' ▸ hload)
    (fun _ _ _ _ _ _ _ => rfl) (fun _ _ hx => hx) (fun _ _ => rfl) (fun hno => nomatch hno),
    .verified nr buf count t s' _ ht hnr hchain (hopen rfl) rfl rfl ?_⟩
  rw [htask]

/-- A `verify_area` that runs out of memory kills the task. -/
theorem Base.verifyArea_killed (h : Base z exe s) {nr buf count : Nat} {t : Task}
    (hu : s.user nr = some t) (h1 : 1 ≤ nr) {s₁ : State}
    (hs₁ : DemandPages.verifyArea (verifyPages (nr * TASK_SIZE) buf count) s = (false, s₁))
    (hs : DemandPages.doExit s₁ nr = .ok s') :
    Base z exe s' ∧ Effect z exe s (.verifyArea nr buf count) s' := by
  obtain ⟨ht, hload, -⟩ := user_spec hu
  have hnr : 1 ≤ nr ∧ nr < 64 := ⟨h1, h.alive nr t ht⟩
  obtain ⟨there, s₂, hs₂, h', hg', hheld, htask, htab, hchain, -⟩ :=
    verifyArea_spec (verifyPages (nr * TASK_SIZE) buf count) h.tasks h.guarded
  obtain ⟨rfl, rfl⟩ := Prod.mk.inj (hs₂.symm.trans hs₁)
  have hb := h.replace ht hload hnr h' hg' hheld htask htab hchain
  obtain ⟨mem, hm, rfl⟩ := doExit_spec hs
  obtain ⟨hb', hl⟩ := hb.free hnr none (fun _ hno => nomatch hno) hm
  refine ⟨hb', .left _ nr none s₂ _ hchain hl rfl ?_ fun _ hno => nomatch hno⟩
  rw [htask]

theorem Base.endCall (h : Base z exe s) {nr : Nat} {t : Task} (ha : s.awake nr = some t)
    (h1 : 1 ≤ nr) :
    Base z exe { s with task := update s.task nr (some { t with call := none }) } ∧
      Effect z exe s (.endCall nr)
        { s with task := update s.task nr (some { t with call := none }) } := by
  obtain ⟨ht, hload⟩ := awake_spec ha
  have hnr : 1 ≤ nr ∧ nr < 64 := ⟨h1, h.alive nr t ht⟩
  refine ⟨h.own hnr h.tasks h.guarded rfl (fun t' ht' => Option.some.inj ht' ▸ hload)
    (fun _ _ _ _ _ _ _ => rfl) (fun _ _ hx => hx) (fun _ _ => rfl) (fun hno => nomatch hno),
    .quiet _ _ rfl (.refl _) rfl fun nr' t' ht' => ?_⟩
  rcases eq_or_ne nr' nr with rfl | hne
  · dsimp only at ht'
    rw [update_self] at ht'
    obtain rfl := Option.some.inj ht'
    exact ⟨t, ht, rfl, .inl rfl⟩
  · exact ⟨t', (update_of_ne hne _ _).symm.trans ht', rfl, .inr rfl⟩

/-- The kernel takes or gives back a page that no `do_no_page` has. -/
theorem Base.holding (h : Base z exe s) {page n : Nat} {mem : Mem}
    (htasks : Tasks z (update s.held page n) mem) (hent : mem.ent = s.mem.ent)
    (htab : mem.tableOf = s.mem.tableOf)
    (hload : ∀ nr t tmp, s.task nr = some t → t.loading ≠ some (tmp, page)) :
    Base z exe { s with mem := mem, held := update s.held page n } := by
  refine ⟨htasks, h.guarded.of_ent hent, h.alive, fun d hd hdead => ?_, fun d p hd hp => ?_,
    fun nr t tmp page' ht hl => ?_, h.apart⟩
  · exact (congrFun htab d).trans (h.empty d hd hdead)
  · exact h.low_tables d p hd (htab ▸ hp)
  · have hold := h.loading nr t tmp page' ht hl
    have hne : page' ≠ page := by
      rintro rfl
      exact hload nr t tmp ht hl
    have habsent : mem.ent (posOf (linear nr tmp)) = none := by
      rw [hent]
      exact hold.absent
    exact ⟨hold.task, hold.held.trans_eq (update_of_ne hne _ _).symm, hold.tmp_lt, hold.aligned,
      habsent, hold.file⟩

theorem Base.getFreePage (h : Base z exe s) {page : Nat} {mem : Mem}
    (hget : getFreePage s.mem = some (page, mem)) :
    Base z exe { s with mem := mem, held := update s.held page 1 } ∧
      Effect z exe s .getFreePage { s with mem := mem, held := update s.held page 1 } := by
  obtain ⟨h', hf⟩ := h.tasks.alloc hget
  have hzero := (h.tasks.paged.unused hf.managed hf.free).2.2
  refine ⟨h.holding h' hf.ent hf.tableOf fun nr t tmp ht hl => ?_,
    .quiet _ _ hf.ent (fun w ew hw hwe _ => ?_) rfl (.of_eq rfl)⟩
  · have hheld := (h.loading nr t tmp page ht hl).held
    omega
  · rw [hf.phys]
    exact update_of_ne (unnamed h.tasks hf.managed hf.free hw hwe) _ _

theorem unloaded_spec (h : Base z exe s) {page : Nat} (hu : s.unloaded page = true) (nr : Nat)
    (t : Task) (tmp : Nat) (ht : s.task nr = some t) : t.loading ≠ some (tmp, page) := by
  intro hl
  have hall := List.all_eq_true.mp hu nr (List.mem_range.mpr (h.alive nr t ht))
  rw [ht, Option.all_some, hl, Option.all_some] at hall
  exact of_decide_eq_true hall rfl

theorem Base.freePage (h : Base z exe s) {page : Nat} {mem : Mem} (hheld : 1 ≤ s.held page)
    (hu : s.unloaded page = true) (hfree : freePage s.mem page = .ok mem) :
    Base z exe { s with mem := mem, held := update s.held page 0 } ∧
      Effect z exe s (.freePage page) { s with mem := mem, held := update s.held page 0 } := by
  obtain ⟨m', hm', h', hphys⟩ := freePage_spec h.tasks hheld
  obtain rfl : m' = mem := Except.ok.inj (hm'.symm.trans hfree)
  refine ⟨h.holding h' (ent_of_phys hphys) (tableOf_of_phys hphys) (unloaded_spec h hu),
    .quiet _ _ (ent_of_phys hphys) (fun _ _ _ _ _ => by rw [hphys]) rfl (.of_eq rfl)⟩

/-! ## All steps -/

/-- Where `put_fs_byte` stores, the entry has its write bit. -/
def PutWritable (s : State) : Act → Prop
  | .putFsByte nr address _ => Open s.mem (posOf (linear nr address))
  | _ => True

theorem step_effect (h : Base z exe s) {a : Act} (hput : PutWritable s a)
    (hs : step exe s a = some s') : Base z exe s' ∧ Effect z exe s a s' := by
  cases a with
  | fork src dst =>
      simp only [step] at hs
      split at hs
      · rename_i t hu
        obtain ⟨⟨h1, hdst, hdead⟩, hs⟩ := Option.ite_none_right_eq_some.mp hs
        exact h.fork hu ⟨h1, hdst⟩ (Option.isNone_iff_eq_none.mp hdead) (toOption_ok hs)
      · cases hs
  | exec nr e =>
      obtain ⟨⟨h1, hu⟩, hs⟩ := Option.ite_none_right_eq_some.mp hs
      obtain ⟨t, hu⟩ := Option.isSome_iff_exists.mp hu
      exact h.exec ⟨h1, h.alive nr t (user_spec hu).1⟩ (toOption_ok hs)
  | exit nr =>
      obtain ⟨⟨h1, ha⟩, hs⟩ := Option.ite_none_right_eq_some.mp hs
      obtain ⟨t, ha⟩ := Option.isSome_iff_exists.mp ha
      exact h.doExit ⟨h1, h.alive nr t (awake_spec ha).1⟩ _ (toOption_ok hs)
  | doNoPage nr address i_count =>
      simp only [step] at hs
      split at hs
      · rename_i t ha
        obtain ⟨⟨h1, hlt, hnone⟩, hs⟩ := Option.ite_none_right_eq_some.mp hs
        exact h.doNoPage i_count ha h1 hlt (Option.isNone_iff_eq_none.mp hnone) (toOption_ok hs)
      · cases hs
  | loaded nr =>
      simp only [step] at hs
      split at hs
      · rename_i ht
        exact h.loaded ht (toOption_ok hs)
      · cases hs
  | doWpPage nr address =>
      obtain ⟨⟨h1, hu, hlt⟩, hs⟩ := Option.ite_none_right_eq_some.mp hs
      obtain ⟨t, hu⟩ := Option.isSome_iff_exists.mp hu
      split at hs
      · rename_i e he
        obtain ⟨hw, hs⟩ := Option.ite_none_left_eq_some.mp hs
        split at hs
        · rename_i mem hm
          obtain rfl := Option.some.inj hs
          exact h.doWpPage hu h1 hlt he hw hm
        · exact h.doExit ⟨h1, h.alive nr t (user_spec hu).1⟩ _ (toOption_ok hs)
      · cases hs
  | store nr address value =>
      obtain ⟨⟨h1, hu, hlt, hw⟩, hs⟩ := Option.ite_none_right_eq_some.mp hs
      obtain ⟨t, hu⟩ := Option.isSome_iff_exists.mp hu
      obtain ⟨e, he, hw⟩ := (Option.any_eq_true _ _).mp hw
      obtain rfl := Option.some.inj hs
      exact h.put (Option.filter_eq_some_iff.mp hu).1 h1 hlt he (of_decide_eq_true hw) value _
  | load nr address =>
      obtain ⟨⟨h1, ha, hlt, he⟩, hs⟩ := Option.ite_none_right_eq_some.mp hs
      obtain ⟨t, ha⟩ := Option.isSome_iff_exists.mp ha
      obtain ⟨e, he⟩ := Option.isSome_iff_exists.mp he
      obtain rfl := Option.some.inj hs
      exact h.load ha h1 hlt he
  | verifyArea nr buf count =>
      simp only [step] at hs
      split at hs
      · rename_i t hu
        obtain ⟨⟨h1, -, -⟩, hs⟩ := Option.ite_none_right_eq_some.mp hs
        split at hs
        · rename_i s₁ hv
          obtain rfl := Option.some.inj hs
          exact h.verifyArea hu h1 hv
        · rename_i s₁ hv
          exact h.verifyArea_killed hu h1 hv (toOption_ok hs)
      · cases hs
  | putFsByte nr address value =>
      simp only [step] at hs
      split at hs
      · rename_i ha
        obtain ⟨⟨h1, -, -, hlt, he⟩, hs⟩ := Option.ite_none_right_eq_some.mp hs
        obtain ⟨e, he⟩ := Option.isSome_iff_exists.mp he
        obtain rfl := Option.some.inj hs
        exact h.put ha h1 hlt he (hput e he) value _
      · cases hs
  | endCall nr =>
      simp only [step] at hs
      split at hs
      · rename_i t ha
        obtain ⟨h1, hs⟩ := Option.ite_none_right_eq_some.mp hs
        obtain rfl := Option.some.inj hs
        exact h.endCall ha h1
      · cases hs
  | getFreePage =>
      simp only [step] at hs
      split at hs
      · rename_i page mem hget
        obtain rfl := Option.some.inj hs
        exact h.getFreePage hget
      · cases hs
  | freePage page =>
      obtain ⟨⟨hheld, hu⟩, hs⟩ := Option.ite_none_right_eq_some.mp hs
      split at hs
      · rename_i mem hfree
        obtain rfl := Option.some.inj hs
        exact h.freePage hheld hu hfree
      · cases hs

end DemandPages

end Linux011
