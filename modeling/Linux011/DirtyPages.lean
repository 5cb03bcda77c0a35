import Linux011.VerifyArea

/-!
# Demand-loaded pages show the file

An entry above the first megabyte without its dirty bit names a page with the bytes of the
executable, copies that `un_wp_page` made of dirty pages apart. `do_no_page` reads a page from
the file or takes it from such an entry.

The invariant `Clean` is about one entry at a time: an entry of a task that runs an executable,
without its dirty bit and not marked as lost, names a page with the bytes of the file at its
offset (`UpToDate`). A step either leaves an entry and its page alone, or moves an old entry to a
new place at the same offset, as `fork` and `share_page` do; `Follows` says what the new one has
of the old one, so that one lemma serves both. Besides, `do_no_page` brings in a page that was
just read, and a store or `un_wp_page` changes one entry. A store sets the dirty bit, unless it
is one of the kernel to an entry without its write bit, which the runs exclude, and `un_wp_page`
leaves a copy of a dirty page without it. The history `lost` of the state remembers these copies,
and the condition on the last step is that `share_page` takes none of them.
-/

namespace Linux011

open Function RefCount Runs Views CopyOnWrite

namespace DemandPages

variable {z : Zone} {exe : Nat → Executable} {s s' : State} {x y w w₀ : Pos} {e e' : Word}

/-! ## The bytes that a page is loaded with -/

theorem wordSlot_eq_iff {i j : Nat} (hi : i < 4096) (hj : j < 4096) :
    wordSlot i = wordSlot j ↔ i / 4 = j / 4 := by
  rw [Fin.ext_iff]
  show i % 0x1000 / 4 = j % 0x1000 / 4 ↔ _
  rw [Nat.mod_eq_of_lt hi, Nat.mod_eq_of_lt hj]

/-- Byte `j` of an aligned page, as a linear address. -/
theorem wordSlot_linear (nr : Nat) {tmp j : Nat} (htmp : tmp % 4096 = 0) (hj : j < 4096) :
    wordSlot (linear nr (tmp + j)) = wordSlot j ∧ linear nr (tmp + j) % 4 = j % 4 := by
  have hlinear : linear nr (tmp + j) = tmp + j + nr * 0x4000000 := rfl
  refine ⟨Fin.ext ?_, by omega⟩
  show linear nr (tmp + j) % 0x1000 / 4 = j % 0x1000 / 4
  omega

theorem byteIn_putByte (page : Slot → Word) (value : Byte) {i j : Nat} (hi : i < 4096)
    (hj : j < 4096) : byteIn (putByte page i value) j = if j = i then value else byteIn page j := by
  unfold byteIn putByte
  by_cases hword : wordSlot j = wordSlot i
  · have hdiv := (wordSlot_eq_iff hj hi).mp hword
    rw [hword, update_self]
    by_cases hji : j = i
    · rw [if_pos hji, hji, byteOf_setByte _ _ (Nat.mod_lt i (by decide))]
    · rw [if_neg hji, byteOf_setByte_ne _ _ (Nat.mod_lt i (by decide)) (by omega)]
  · rw [update_of_ne hword, if_neg]
    rintro rfl
    exact hword rfl

theorem byteOf_wordOf (byte : Nat → Byte) {k : Nat} (hk : k < 4) :
    byteOf (wordOf byte) k = byte k := by
  have h4 : k = 0 ∨ k = 1 ∨ k = 2 ∨ k = 3 := by omega
  unfold wordOf
  rcases h4 with rfl | rfl | rfl | rfl
  · rw [byteOf_setByte_ne _ _ (by decide) (by decide),
      byteOf_setByte_ne _ _ (by decide) (by decide),
      byteOf_setByte_ne _ _ (by decide) (by decide), byteOf_setByte _ _ (by decide)]
  · rw [byteOf_setByte_ne _ _ (by decide) (by decide),
      byteOf_setByte_ne _ _ (by decide) (by decide),
      byteOf_setByte _ _ (by decide)]
  · rw [byteOf_setByte_ne _ _ (by decide) (by decide), byteOf_setByte _ _ (by decide)]
  · rw [byteOf_setByte _ _ (by decide)]

theorem byteIn_breadPage (exe : Executable) {tmp j : Nat} (htmp : tmp % 4096 = 0)
    (hj : j < 4096) : byteIn (breadPage exe tmp) j = exe.byte (1024 + (tmp + j)) := by
  unfold byteIn breadPage
  rw [byteOf_wordOf _ (Nat.mod_lt j (by decide))]
  have hval : 4 * (wordSlot j).val + j % 4 = j := by
    show 4 * (j % 0x1000 / 4) + j % 4 = j
    omega
  dsimp only
  rw [hval]
  congr 1
  omega

/-- The loop clears the last `i` bytes below `tmp`. -/
theorem byteIn_zeroTail {j : Nat} (hj : j < 4096) (i : Nat) : ∀ (page : Slot → Word) (tmp : Nat),
    i ≤ tmp → tmp ≤ 4096 → byteIn (zeroTail page i tmp) j =
      if tmp - i ≤ j ∧ j < tmp then 0 else byteIn page j := by
  induction i with
  | zero =>
      intro page tmp _ _
      rw [if_neg (by omega)]
      rfl
  | succ i ih =>
      intro page tmp hi htmp
      show byteIn (zeroTail (putByte page (tmp - 1) 0) i (tmp - 1)) j = _
      rw [ih _ _ (by omega) (by omega), byteIn_putByte page 0 (by omega) hj]
      by_cases hlast : j = tmp - 1
      · rw [if_neg (by omega), if_pos hlast, if_pos (by omega)]
      · rw [if_neg hlast]
        by_cases hin : tmp - 1 - i ≤ j ∧ j < tmp - 1
        · rw [if_pos hin, if_pos (by omega)]
        · rw [if_neg hin, if_neg (by omega)]

/-- What `do_no_page` reads: the file up to `end_data`, zeros after it. -/
theorem byteIn_loadPage (exe : Executable) {tmp j : Nat} (htmp : tmp % 4096 = 0)
    (hlt : tmp < exe.end_data) (hj : j < 4096) :
    byteIn (loadPage exe tmp) j =
      if tmp + j < exe.end_data then exe.byte (1024 + (tmp + j)) else 0 := by
  unfold loadPage
  rw [byteIn_zeroTail hj _ _ _ (by omega) (Nat.le_refl 4096), byteIn_breadPage exe htmp hj]
  by_cases hin : tmp + j < exe.end_data
  · rw [if_pos hin, if_neg (by omega)]
  · rw [if_neg hin, if_pos (by omega)]

/-! ## Clean pages -/

/-- The address that the entry has in its task. -/
def pageAddress (w : Pos) : Nat := (w.1.val % 16 * 1024 + w.2.val) * 4096

/-- The entry of a task with an executable names a page above the first megabyte, which is that
of the file if it is clean and no copy of a dirty one. -/
def UpToDate (exe : Nat → Executable) (s : State) (w : Pos) : Prop :=
  ∀ ew t e, s.mem.ent w = some ew → s.task (taskOf w) = some t → t.executable = some e →
    LOW_MEM ≤ frame ew ∧ (pageAddress w < (exe e).end_data → ¬Dirty ew → s.lost w = false →
      s.mem.phys (frame ew) = loadPage (exe e) (pageAddress w))

/-- What the entry at `w` and its page have of an old entry at `w₀`. -/
structure Follows (s s' : State) (w₀ w : Pos) : Prop where
  address : pageAddress w = pageAddress w₀
  ent : ∀ ew', s'.mem.ent w = some ew' → ∃ ew, s.mem.ent w₀ = some ew ∧ (LOW_MEM ≤ frame ew →
    LOW_MEM ≤ frame ew' ∧ (¬Dirty ew' → s'.lost w = false → ¬Dirty ew ∧ s.lost w₀ = false ∧
      s'.mem.phys (frame ew') = s.mem.phys (frame ew)))
  task : ∀ t', s'.task (taskOf w) = some t' → s'.mem.ent w ≠ none →
    ∃ t, s.task (taskOf w₀) = some t ∧ t.executable = t'.executable

theorem UpToDate.follow (h : UpToDate exe s w₀) (hf : Follows s s' w₀ w) :
    UpToDate exe s' w := by
  intro ew' t' e hw ht' he
  obtain ⟨t, ht, hsame⟩ := hf.task t' ht' fun hno => by rw [hno] at hw; cases hw
  obtain ⟨ew, hw₀, hent⟩ := hf.ent ew' hw
  obtain ⟨hlow₀, hfile⟩ := h ew t e hw₀ ht (hsame.trans he)
  obtain ⟨hlow, hclean⟩ := hent hlow₀
  refine ⟨hlow, fun hlt hno hlost => ?_⟩
  obtain ⟨hno₀, hlost₀, hphys⟩ := hclean hno hlost
  rw [hf.address] at hlt ⊢
  rw [hphys]
  exact hfile hlt hno₀ hlost₀

theorem Follows.same (hent : s'.mem.ent w = s.mem.ent w)
    (hkeeps : ∀ ew, s.mem.ent w = some ew → LOW_MEM ≤ frame ew →
      s'.mem.phys (frame ew) = s.mem.phys (frame ew))
    (hlost : s'.mem.ent w ≠ none → s'.lost w = s.lost w)
    (htask : ∀ t', s'.task (taskOf w) = some t' → s'.mem.ent w ≠ none →
      ∃ t, s.task (taskOf w) = some t ∧ t.executable = t'.executable) :
    Follows s s' w w := by
  refine ⟨rfl, fun ew hew => ⟨ew, hent ▸ hew, fun hlow => ⟨hlow, fun hno hl => ⟨hno, ?_,
    hkeeps ew (hent ▸ hew) hlow⟩⟩⟩, htask⟩
  rw [← hlost fun hnone => by rw [hnone] at hew; cases hew]
  exact hl

theorem dirty_wrprotect (e : Word) : Dirty (wrprotect e) ↔ Dirty e := by
  rw [dirty_iff, dirty_iff, wrprotect, BitVec.getLsbD_and, BitVec.getLsbD_not, getLsbD_two]
  simp

/-- The tasks keep their executables. -/
def KeepsFiles (s s' : State) : Prop :=
  ∀ nr t', s'.task nr = some t' → ∃ t, s.task nr = some t ∧ t.executable = t'.executable

theorem KeepsFiles.of_eq (h : s'.task = s.task) : KeepsFiles s s' := fun _ t' ht' =>
  ⟨t', h ▸ ht', rfl⟩

theorem Tame.keepsFiles (h : Tame s s') : KeepsFiles s s' := by
  intro nr t' ht'
  obtain ⟨t, ht, hsame, -⟩ := h nr t' ht'
  exact ⟨t, ht, hsame.symm⟩

theorem Follows.other (hne : w ≠ x) {o : Option Word}
    (hent : s'.mem.ent = update s.mem.ent x o) {l : Bool} (hlost : s'.lost = update s.lost x l)
    (hkeeps : ∀ ew, s.mem.ent w = some ew → LOW_MEM ≤ frame ew →
      s'.mem.phys (frame ew) = s.mem.phys (frame ew)) (hfiles : KeepsFiles s s') :
    Follows s s' w w :=
  .same (by rw [hent, update_of_ne hne]) hkeeps (fun _ => by rw [hlost, update_of_ne hne])
    fun t' ht' _ => hfiles _ t' ht'

/-- The pages of all tasks; the first one runs no executable. -/
structure Clean (exe : Nat → Executable) (s : State) : Prop where
  pages : ∀ w, User w → UpToDate exe s w
  first : ∀ t, s.task 0 = some t → t.executable = none

theorem Clean.of_files (h : Clean exe s) (ht : KeepsFiles s s')
    (hpages : ∀ w, User w → UpToDate exe s' w) : Clean exe s' := by
  refine ⟨hpages, fun t' ht' => ?_⟩
  obtain ⟨t, hfirst, hsame⟩ := ht 0 t' ht'
  exact hsame.symm.trans (h.first t hfirst)

/-! ## What the steps keep -/

theorem Clean.replace (h : Clean exe s) (hr : Replace s s') : Clean exe s' := by
  obtain ⟨htask, -, x, e, e', hr⟩ := hr
  have hfiles : KeepsFiles s s' := .of_eq htask
  refine h.of_files hfiles fun w hw => (h.pages w hw).follow ?_
  rcases eq_or_ne w x with rfl | hne
  · refine ⟨rfl, fun ew hew => ⟨e, hr.was, fun hlow => ?_⟩, fun t' ht' _ => hfiles _ t' ht'⟩
    rw [hr.ent, update_self] at hew
    obtain rfl := Option.some.inj hew
    exact ⟨hr.low, hr.clean hlow⟩
  · exact .same (by rw [hr.ent, update_of_ne hne]) (fun ew => hr.keeps w ew hw)
      (fun _ => hr.others w hne) fun t' ht' _ => hfiles _ t' ht'

theorem replace_task (hc : Relation.ReflTransGen Replace s s') : s'.task = s.task := by
  induction hc with
  | refl => rfl
  | tail _ hr ih => exact hr.1.trans ih

theorem Clean.chain (h : Clean exe s) (hc : Relation.ReflTransGen Replace s s') :
    Clean exe s' := by
  induction hc with
  | refl => exact h
  | tail _ hr ih => exact ih.replace hr

/-- Only the tasks and what no task sees have changed since `s`. -/
theorem Clean.quiet (h : Clean exe s) (hent : s'.mem.ent = s.mem.ent)
    (hkeeps : Keeps s.mem s'.mem) (hlost : s'.lost = s.lost) (ht : KeepsFiles s s') :
    Clean exe s' :=
  h.of_files ht fun w hw => (h.pages w hw).follow <| .same (congrFun hent w)
    (fun ew => hkeeps w ew hw) (fun _ => congrFun hlost w) fun t' ht' _ => ht _ t' ht'

theorem Clean.left (h : Clean exe s) {nr : Nat} {o : Option Task} (hl : Left nr s.mem s'.mem)
    (hlost : s'.lost = s.lost) (htask : s'.task = update s.task nr o)
    (hfirst : ∀ t, o = some t → 1 ≤ nr) : Clean exe s' := by
  refine ⟨fun w hw => ?_, fun t ht => h.first t ?_⟩
  · by_cases hnr : taskOf w = nr
    · intro ew t e hew
      rw [hl.ent, if_pos hnr] at hew
      cases hew
    · refine (h.pages w hw).follow (.same (by rw [hl.ent, if_neg hnr])
        (fun ew => hl.keeps w ew hw) (fun _ => congrFun hlost w) fun t' ht' _ => ?_)
      rw [htask, update_of_ne hnr] at ht'
      exact ⟨t', ht', rfl⟩
  · rw [htask] at ht
    rcases Nat.eq_zero_or_pos nr with rfl | hpos
    · rw [update_self] at ht
      exact absurd (hfirst t ht) (by decide)
    · rwa [update_of_ne (by omega)] at ht

theorem Clean.forked (h : Clean exe s) {src dst : Nat} {t : Task} (hsrc : src < 64)
    (hdst : 1 ≤ dst) (was : s.task src = some t) (hdead : s.task dst = none)
    (hf : Forked src dst s.mem s'.mem)
    (hlost : ∀ x, s'.mem.ent x ≠ none → s'.lost x =
      if taskOf x = dst then s.lost (taskDir src (x.1.val % 16), x.2) else s.lost x)
    (htask : s'.task = s.task ∨ s'.task = update s.task dst (some t)) : Clean exe s' := by
  have hother : ∀ nr, nr ≠ dst → s'.task nr = s.task nr := by
    intro nr hne
    rcases htask with hsame | hnew
    · rw [hsame]
    · rw [hnew, update_of_ne hne]
  refine ⟨fun w hw => ?_, fun t' ht' => ?_⟩
  · by_cases hd : taskOf w = dst
    · -- the child has the executable of its father, whose entry it has got
      have hx : taskOf (taskDir src (w.1.val % 16), w.2) = src := by
        show (taskDir src (w.1.val % 16)).val / 16 = src
        rw [taskDir_val hsrc (Nat.mod_lt _ (by decide))]
        omega
      have haddr : pageAddress w = pageAddress (taskDir src (w.1.val % 16), w.2) := by
        show _ = ((taskDir src (w.1.val % 16)).val % 16 * 1024 + w.2.val) * 4096
        rw [taskDir_val hsrc (Nat.mod_lt _ (by decide)), pageAddress]
        omega
      have hchild : ∀ t', s'.task (taskOf w) = some t' → t' = t := by
        intro t' ht'
        rw [hd] at ht'
        rcases htask with hsame | hnew
        · rw [hsame, hdead] at ht'
          cases ht'
        · rw [hnew, update_self] at ht'
          exact (Option.some.inj ht').symm
      by_cases h0 : src = 0
      · intro ew t' e _ ht' he
        subst h0
        rw [hchild t' ht', h.first t was] at he
        cases he
      · have huser : User (taskDir src (w.1.val % 16), w.2) := by
          show 16 ≤ (taskDir src (w.1.val % 16)).val
          rw [taskDir_val hsrc (Nat.mod_lt _ (by decide))]
          omega
        refine (h.pages _ huser).follow ⟨haddr, fun ew' hew' => ?_, fun t' ht' _ =>
          ⟨t, hx.symm ▸ was, by rw [hchild t' ht']⟩⟩
        have hl := hlost w fun hno => by rw [hno] at hew'; cases hew'
        rw [if_pos hd] at hl
        obtain ⟨ew, hew, rfl, -⟩ := hf.copied w ew' hd hew'
        refine ⟨ew, hew, fun hlow => ?_⟩
        rw [frame_wrprotect, dirty_wrprotect]
        exact ⟨hlow, fun hno hl' => ⟨hno, hl ▸ hl', hf.keeps _ ew huser hew hlow⟩⟩
    · refine (h.pages w hw).follow ⟨rfl, fun ew' hew' => ?_, fun t' ht' _ => ⟨t', ?_, rfl⟩⟩
      · have hl := hlost w fun hno => by rw [hno] at hew'; cases hew'
        rw [if_neg hd] at hl
        rcases hf.others w hd with hsame | ⟨-, hprot⟩
        · refine ⟨ew', hsame ▸ hew', fun hlow => ⟨hlow, fun hno hl' => ⟨hno, hl ▸ hl', ?_⟩⟩⟩
          exact hf.keeps w ew' hw (hsame ▸ hew') hlow
        · rw [hprot] at hew'
          obtain ⟨ew, hew, rfl⟩ := Option.map_eq_some_iff.mp hew'
          refine ⟨ew, hew, fun hlow => ?_⟩
          rw [frame_wrprotectAbove, wrprotectAbove, if_pos hlow, dirty_wrprotect]
          exact ⟨hlow, fun hno hl' => ⟨hno, hl ▸ hl', hf.keeps w ew hw hew hlow⟩⟩
      · rw [← hother _ hd]
        exact ht'
  · exact h.first t' (hother 0 (by omega) ▸ ht')

theorem pageAddress_linear {nr a : Nat} (hnr : nr < 64) (ha : a < TASK_SIZE) :
    pageAddress (posOf (linear nr a)) = pageOf a := by
  have hd : (posOf (linear nr a)).1.val = 16 * nr + a / 0x400000 := (posOf_task ha hnr).2
  have ht : (posOf (linear nr a)).2 = tableSlot a := congrArg Prod.snd (posOf_task ha hnr).1
  have hval : (tableSlot a).val = a / 0x1000 % 1024 := rfl
  simp only [TASK_SIZE] at ha
  unfold pageAddress pageOf
  rw [hd, ht, hval]
  omega

theorem pageOf_aligned {a : Nat} (h : a % 4096 = 0) : pageOf a = a := by
  unfold pageOf
  omega

theorem pageOf_pageOf (a : Nat) : pageOf (pageOf a) = pageOf a := by
  unfold pageOf
  omega

/-- A page is mapped at `x`, where none was: the page of the file, or one behind the file. -/
theorem Clean.mapped (h : Clean exe s) {p : Nat} (hm : Mapped x p s.mem s'.mem)
    (hlost : s'.lost = update s.lost x false) (hfiles : KeepsFiles s s')
    (hfile : ∀ t e, s'.task (taskOf x) = some t → t.executable = some e →
      pageAddress x < (exe e).end_data → s'.mem.phys p = loadPage (exe e) (pageAddress x)) :
    Clean exe s' := by
  refine h.of_files hfiles fun w hw => ?_
  rcases eq_or_ne w x with rfl | hne
  · intro ew t e hew ht he
    rw [hm.ent, update_self] at hew
    obtain rfl := Option.some.inj hew
    rw [frame_entry hm.pages]
    exact ⟨hm.low, fun hlt _ _ => hfile t e ht he hlt⟩
  · exact (h.pages w hw).follow (.other hne hm.ent hlost (fun ew => hm.keeps w ew hw) hfiles)

/-- A page is taken from the entry at `x`, of which nothing is lost. -/
theorem Clean.shared (h : Clean exe s) (hs : SharedWith x y e s.mem s'.mem)
    (hlost : s'.lost = update s.lost y (s.lost x)) (hne : x ≠ y)
    (haddr : pageAddress y = pageAddress x) (htask : s'.task = s.task)
    (hsame : (s.task (taskOf x)).map Task.executable = (s.task (taskOf y)).map Task.executable) :
    Clean exe s' := by
  have hfiles : KeepsFiles s s' := .of_eq htask
  -- both entries are the old one at `x`, without its write bit
  have hent : ∀ ew, some (wrprotect e) = some ew → s'.lost x = s.lost x →
      ∀ w, s'.lost w = s.lost x → ∃ ew₀, s.mem.ent x = some ew₀ ∧ (LOW_MEM ≤ frame ew₀ →
        LOW_MEM ≤ frame ew ∧ (¬Dirty ew → s'.lost w = false → ¬Dirty ew₀ ∧ s.lost x = false ∧
          s'.mem.phys (frame ew) = s.mem.phys (frame ew₀))) := by
    intro ew hew _ w hw
    obtain rfl := Option.some.inj hew
    refine ⟨e, hs.was, fun hlow => ?_⟩
    rw [frame_wrprotect, dirty_wrprotect, hw]
    exact ⟨hlow, fun hno hl => ⟨hno, hl, hs.keeps x e hs.user hs.was hlow⟩⟩
  have hx : s'.lost x = s.lost x := by rw [hlost, update_of_ne hne]
  refine h.of_files hfiles fun w hw => ?_
  rcases eq_or_ne w y with rfl | hwy
  · refine (h.pages x hs.user).follow ⟨haddr, fun ew hew => ?_, fun t' ht' _ => ?_⟩
    · rw [hs.ent, update_self] at hew
      exact hent ew hew hx w (by rw [hlost, update_self])
    · rw [htask] at ht'
      rw [ht'] at hsame
      obtain ⟨t, ht, heq⟩ := Option.map_eq_some_iff.mp hsame
      exact ⟨t, ht, heq⟩
  · rcases eq_or_ne w x with rfl | hwx
    · refine (h.pages w hw).follow ⟨rfl, fun ew hew => ?_, fun t' ht' _ =>
        hfiles _ t' ht'⟩
      rw [hs.ent, update_of_ne hwy, update_self] at hew
      exact hent ew hew hx w hx
    · refine (h.pages w hw).follow (.same ?_ (fun ew => hs.keeps w ew hw) (fun _ => ?_)
        fun t' ht' _ => hfiles _ t' ht')
      · rw [hs.ent, update_of_ne hwy, update_of_ne hwx]
      · rw [hlost, update_of_ne hwy]

theorem Clean.marked (h : Clean exe s) (was : s.mem.ent x = some e)
    (hent : s'.mem.ent = update s.mem.ent x (some (e ||| accessBits false)))
    (hkeeps : Keeps s.mem s'.mem) (hlost : s'.lost = s.lost) (htask : s'.task = s.task) :
    Clean exe s' := by
  have hfiles : KeepsFiles s s' := .of_eq htask
  refine h.of_files hfiles fun w hw => (h.pages w hw).follow ?_
  rcases eq_or_ne w x with rfl | hne
  · refine ⟨rfl, fun ew hew => ⟨e, was, fun hlow => ?_⟩, fun t' ht' _ => hfiles _ t' ht'⟩
    rw [hent, update_self] at hew
    obtain rfl := Option.some.inj hew
    rw [frame_access, dirty_access_false, hlost]
    exact ⟨hlow, fun hno hl => ⟨hno, hl, hkeeps w e hw was hlow⟩⟩
  · exact .same (by rw [hent, update_of_ne hne]) (fun ew => hkeeps w ew hw)
      (fun _ => congrFun hlost w) fun t' ht' _ => hfiles _ t' ht'

theorem Clean.stored (h : Clean exe s) (hlow : LOW_MEM ≤ frame e)
    (hs : Stored x e s.mem s'.mem) (hlost : s'.lost = update s.lost x false)
    (htask : s'.task = s.task) : Clean exe s' := by
  have hfiles : KeepsFiles s s' := .of_eq htask
  refine h.of_files hfiles fun w hw => ?_
  rcases eq_or_ne w x with rfl | hne
  · intro ew t e' hew _ _
    rw [hs.ent, update_self] at hew
    obtain rfl := Option.some.inj hew
    rw [frame_access]
    exact ⟨hlow, fun _ hno _ => absurd (dirty_access e) hno⟩
  · exact (h.pages w hw).follow
      (.other hne hs.ent hlost (fun ew => hs.keeps w ew hw hne) hfiles)

/-! ## Runs -/

/-- `share_page` takes no page that `un_wp_page` has copied from a dirty one and that nothing
has been stored into since, and the kernel stores only where the write bit is set. -/
def Unlost (s : State) : Act → Prop
  | .doNoPage nr address i_count =>
    ∀ p m, sharing s nr (pageOf address) i_count = .ok (.page p, m) →
      s.lost (posOf (linear p (pageOf address))) = false
  | .putFsByte nr address _ =>
    ∀ e, s.mem.ent (posOf (linear nr address)) = some e → Writable e
  | _ => True

theorem Unlost.putWritable {a : Act} (h : Unlost s a) : PutWritable s a := by
  cases a with
  | putFsByte nr address value => exact h
  | _ => trivial

theorem Clean.effect (hb : Base z exe s) (h : Clean exe s) {a : Act}
    (he : Effect z exe s a s') : Clean exe s' := by
  cases he with
  | quiet _ _ ent keeps lost tame => exact h.quiet ent keeps lost tame.keepsFiles
  | left _ nr o s₁ _ chain left lost task call =>
      exact (h.chain chain).left left lost (replace_task chain ▸ task) fun t ht => (call t ht).1
  | forked src dst t _ was alive call dead forked lost task =>
      exact h.forked alive.1 alive.2 was dead forked lost task
  | replaced nr address _ replace => exact h.replace replace
  | verified nr buf count t s₁ _ was alive chain checked mem lost task =>
      have hchain := h.chain chain
      refine hchain.quiet (by rw [mem]) (by rw [mem]; exact .refl _) lost fun nr' t' ht' => ?_
      rw [task] at ht'
      rw [replace_task chain]
      rcases eq_or_ne nr' nr with rfl | hne
      · rw [update_self] at ht'
        obtain rfl := Option.some.inj ht'
        exact ⟨t, was, rfl⟩
      · rw [update_of_ne hne] at ht'
        exact ⟨t', ht', rfl⟩
  | shared nr address i_count p t _ was alive lt sharing lent lost task =>
      obtain ⟨htmp, -, -⟩ := pageOf_spec lt nr
      obtain ⟨e, hs⟩ := lent.shared
      have hne : posOf (linear p (pageOf address)) ≠ posOf (linear nr (pageOf address)) := by
        intro heq
        have hwas := hs.was
        rw [heq, hs.absent] at hwas
        cases hwas
      refine h.shared hs lost hne ?_ task ?_
      · rw [pageAddress_linear alive.2 htmp, pageAddress_linear lent.lender.2 htmp]
      · rw [taskOf_linear alive htmp, taskOf_linear lent.lender htmp]
        exact lent.same
  | filled nr address i_count page t _ was alive lt mapped behind lost task =>
      refine h.mapped mapped lost (.of_eq task) fun t' e ht' he hlt => ?_
      obtain ⟨htmp, -, -⟩ := pageOf_spec lt nr
      rw [task, taskOf_linear alive htmp, was] at ht'
      rw [pageAddress_linear alive.2 htmp, pageOf_pageOf] at hlt
      have hle := behind e (Option.some.inj ht' ▸ he)
      omega
  | loaded nr e tmp page t _ was loading executable mapped contents lost tame =>
      refine h.mapped mapped lost tame.keepsFiles fun t' e' ht' he' _ => ?_
      rw [taskOf_linear loading.task loading.tmp_lt] at ht'
      obtain ⟨t₀, ht₀, hsame⟩ := tame.keepsFiles nr t' ht'
      obtain rfl := Option.some.inj (was.symm.trans ht₀)
      obtain rfl := Option.some.inj (executable.symm.trans (hsame.trans he'))
      rw [contents, pageAddress_linear loading.task.2 loading.tmp_lt,
        pageOf_aligned loading.aligned]
  | marked nr address e _ alive lt was ent keeps lost task =>
      exact h.marked was ent keeps lost task
  | stored _ nr address e _ alive lt stored lost task =>
      exact h.stored (hb.guarded.low _ e stored.user stored.was stored.writable) stored lost task

theorem clean_start (z : Zone) (rest : Nat → Slot → Word) {task : Nat → Option Task}
    (hfirst : ∀ t, task 0 = some t → t.executable = none) :
    Clean exe (start z rest task) := by
  refine ⟨fun w hw ew t e hew _ _ => ?_, hfirst⟩
  have hlt := (memInit_page (page_of_present hew)).1
  unfold User at hw
  omega

/-- `do_no_page` of task `nr` is about the page at `tmp`. -/
def Faults (s : State) : Act → Nat → Nat → Prop
  | .doNoPage nr address _, nr', tmp => nr' = nr ∧ tmp = pageOf address
  | .loaded nr, nr', tmp => nr' = nr ∧ ∃ t page, s.task nr = some t ∧ t.loading = some (tmp, page)
  | _, _, _ => False

/-- The page has the bytes of the file, and zeros past `end_data`. -/
def ShowsFile (exe : Executable) (s : State) (nr tmp : Nat) : Prop :=
  ∀ j < 4096, s.mem.byteAt (linear nr (tmp + j)) =
    if tmp + j < exe.end_data then exe.byte (1024 + (tmp + j)) else 0

theorem Faults.absent (hb : Base z exe s) {a : Act} {nr tmp : Nat} (hf : Faults s a nr tmp)
    (hs : step exe s a = some s') : (1 ≤ nr ∧ nr < 64) ∧ tmp < TASK_SIZE ∧ tmp % 4096 = 0 ∧
      s.mem.ent (posOf (linear nr tmp)) = none := by
  cases a with
  | doNoPage nr' address i_count =>
      obtain ⟨rfl, rfl⟩ := hf
      simp only [step] at hs
      split at hs
      · rename_i t ha
        obtain ⟨⟨h1, hlt, hnone⟩, -⟩ := Option.ite_none_right_eq_some.mp hs
        obtain ⟨htmp, halign, hpos⟩ := pageOf_spec hlt nr
        exact ⟨⟨h1, hb.alive nr t (awake_spec ha).1⟩, htmp, halign,
          hpos ▸ Option.isNone_iff_eq_none.mp hnone⟩
      · cases hs
  | loaded nr' =>
      obtain ⟨rfl, t, page, ht, hl⟩ := hf
      have hload := hb.loading nr t tmp page ht hl
      exact ⟨hload.task, hload.tmp_lt, hload.aligned, hload.absent⟩
  | _ => exact hf.elim

/-- An entry that was absent is present after the fault: it is clean, and nothing is lost. -/
theorem Faults.mapped {a : Act} {nr tmp e : Nat} {t : Task} (hf : Faults s a nr tmp)
    (hok : Unlost s a) (he : Effect z exe s a s') (ht : s.task nr = some t)
    (hexe : t.executable = some e) (hlt : tmp < (exe e).end_data)
    (habsent : s.mem.ent (posOf (linear nr tmp)) = none) {ew : Word}
    (hew : s'.mem.ent (posOf (linear nr tmp)) = some ew) :
    ¬Dirty ew ∧ s'.lost (posOf (linear nr tmp)) = false ∧ KeepsFiles s s' := by
  cases he with
  | quiet _ _ ent _ _ _ =>
      rw [ent, habsent] at hew
      cases hew
  | left _ nr' o s₁ _ chain left _ _ _ =>
      rw [left.ent] at hew
      split at hew
      · cases hew
      · rw [replace_absent chain habsent] at hew
        cases hew
  | shared nr' address i_count p t _ was alive lt sharing lent lost task =>
      obtain ⟨rfl, rfl⟩ := hf
      obtain ⟨e₀, hs⟩ := lent.shared
      rw [hs.ent, update_self] at hew
      obtain rfl := Option.some.inj hew
      refine ⟨fun hd => hs.clean ((dirty_wrprotect e₀).mp hd), ?_, .of_eq task⟩
      rw [lost, update_self]
      exact hok _ _ sharing
  | filled nr' address i_count page t' _ was alive lt mapped behind lost task =>
      obtain ⟨rfl, rfl⟩ := hf
      obtain rfl := Option.some.inj (was.symm.trans ht)
      have hle := behind e hexe
      omega
  | loaded nr' e' tmp' page t' _ was loading executable mapped contents lost tame =>
      rw [mapped.ent] at hew
      rcases eq_or_ne (posOf (linear nr tmp)) (posOf (linear nr' tmp')) with heq | hne
      · rw [heq, update_self] at hew
        obtain rfl := Option.some.inj hew
        refine ⟨not_dirty_entry page, ?_, tame.keepsFiles⟩
        rw [lost, heq, update_self]
      · rw [update_of_ne hne, habsent] at hew
        cases hew
  | stored _ nr' address e₀ _ alive lt stored lost task =>
      rw [stored.ent] at hew
      rcases eq_or_ne (posOf (linear nr tmp)) (posOf (linear nr' address)) with heq | hne
      · rw [heq, stored.was] at habsent
        cases habsent
      · rw [update_of_ne hne, habsent] at hew
        cases hew
  | _ => exact hf.elim

/-- **Demand-loaded pages show the file**: in every run in which the kernel stores only
where the write bit is set, a page below `end_data` that `do_no_page` maps for a task
has the bytes of its executable, and zeros from `end_data` on. The one exception is a
page that `share_page` takes from a copy that `un_wp_page` made of a dirty page: the
copy has lost the dirty bit that would have kept it from being shared. -/
theorem demand_pages (z : Zone) (exe : Nat → Executable) (rest : Nat → Slot → Word)
    {task : Nat → Option Task} (htask : Fresh task)
    (hfirst : ∀ t, task 0 = some t → t.executable = none) {s s' : State}
    (h : Reach (step exe) PutWritable (start z rest task) s) {a : Act} (hok : Unlost s a)
    (hs : step exe s a = some s') {nr tmp e : Nat} {t : Task} (hf : Faults s a nr tmp)
    (ht : s.task nr = some t) (hexe : t.executable = some e) (hlt : tmp < (exe e).end_data)
    (hmap : s'.mem.ent (posOf (linear nr tmp)) ≠ none) : ShowsFile (exe e) s' nr tmp := by
  obtain ⟨hb, hc⟩ : Base z exe s ∧ Clean exe s := by
    refine h.invariant (I := fun s => Base z exe s ∧ Clean exe s)
      ⟨base_start z exe rest htask, clean_start z rest hfirst⟩ ?_
    rintro s a s' ⟨hb, hc⟩ hput hs
    obtain ⟨hb', he⟩ := step_effect hb hput hs
    exact ⟨hb', hc.effect hb he⟩
  obtain ⟨hb', he⟩ := step_effect hb hok.putWritable hs
  obtain ⟨hnr, htmp, halign, habsent⟩ := hf.absent hb hs
  obtain ⟨ew, hew⟩ := Option.ne_none_iff_exists'.mp hmap
  obtain ⟨hclean, hlost, hfiles⟩ := hf.mapped hok he ht hexe hlt habsent hew
  have htaskOf := taskOf_linear hnr htmp
  -- the task is still there, as its page is
  obtain ⟨t', ht'⟩ : ∃ t', s'.task nr = some t' := by
    refine Option.ne_none_iff_exists'.mp fun hdead => ?_
    rw [hb'.dead_ent hnr.1 hdead _ htaskOf] at hew
    cases hew
  obtain ⟨t₀, ht₀, hsame⟩ := hfiles nr t' ht'
  obtain rfl := Option.some.inj (ht.symm.trans ht₀)
  have haddr : pageAddress (posOf (linear nr tmp)) = tmp := by
    rw [pageAddress_linear hnr.2 htmp, pageOf_aligned halign]
  obtain ⟨-, hfile⟩ := (hc.effect hb he).pages _ (linear_spec hnr.1 hnr.2 htmp).1 ew t' e hew
    (htaskOf.symm ▸ ht') (hsame.symm.trans hexe)
  rw [haddr] at hfile
  have hpage := hfile hlt hclean hlost
  intro j hj
  have hpos : posOf (linear nr (tmp + j)) = posOf (linear nr tmp) := by
    have hin : tmp + j < TASK_SIZE := by
      simp only [TASK_SIZE] at htmp ⊢
      omega
    have hp := (pageOf_spec hin nr).2.2
    have heq : pageOf (tmp + j) = tmp := by
      unfold pageOf
      omega
    rw [← hp, heq]
  have hbyte : s'.mem.byteAt (linear nr (tmp + j)) = byteIn (loadPage (exe e) tmp) j := by
    obtain ⟨hword, hmod⟩ := wordSlot_linear nr halign hj
    rw [Mem.byteAt, hpos, page_of_present hew, ← hpage, byteIn]
    show byteOf _ _ = byteOf _ _
    rw [hword, hmod]
  rw [hbyte, byteIn_loadPage (exe e) halign hlt hj]

theorem open_iff (m : Mem) (x : Pos) :
    Open m x ↔ (m.ent x).all (fun e => decide (Writable e)) = true := by
  unfold Open
  cases m.ent x with
  | none => simp
  | some e => simp

instance (s : State) (a : Act) : Decidable (PutWritable s a) := by
  cases a with
  | putFsByte nr address value =>
      exact decidable_of_iff
        ((s.mem.ent (posOf (linear nr address))).all (fun e => decide (Writable e)) = true)
        (open_iff _ _).symm
  | _ => exact instDecidableTrue

/-- The page that `share_page` finds. -/
def lender (s : State) (current address i_count : Nat) : Option Nat :=
  match sharing s current address i_count with
  | .ok (.page p, _) => some p
  | _ => none

/-- Task 2 gets the page that task 1 has read. -/
theorem demand_pages_two : ∃ s s',
    Runs.exec (checked (step fun _ => ⟨4096, fun _ => 3⟩) PutWritable)
      (start ⟨4000, 4096, by decide, by decide⟩ (fun _ _ => 0) twoRun) [.doNoPage 1 0 2, .loaded 1]
      = some s ∧ step (fun _ => ⟨4096, fun _ => 3⟩) s (.doNoPage 2 0 2) = some s' ∧
      ShowsFile ⟨4096, fun _ => 3⟩ s' 2 0 := by
  let z : Zone := ⟨4000, 4096, by decide, by decide⟩
  let exe : Nat → Executable := fun _ => ⟨4096, fun _ => 3⟩
  obtain ⟨s, hs, hnext, hlender, hlost, htask⟩ : ∃ s, Runs.exec (checked (step exe) PutWritable)
      (start z (fun _ _ => 0) twoRun) [.doNoPage 1 0 2, .loaded 1] = some s ∧
        ((step exe s (.doNoPage 2 0 2)).any fun s' =>
          (s'.mem.ent (posOf (linear 2 0))).isSome) = true ∧
        lender s 2 0 2 = some 1 ∧ s.lost (posOf (linear 1 0)) = false ∧
        (s.task 2).map Task.executable = some (some 0) :=
    exec_any (by decide +kernel)
  obtain ⟨s', hs', hmap⟩ := (Option.any_eq_true _ _).mp hnext
  obtain ⟨t, ht, hexe⟩ := Option.map_eq_some_iff.mp htask
  have hok : Unlost s (.doNoPage 2 0 2) := by
    intro p m hshare
    have hp : lender s 2 0 2 = some p := by
      show (match sharing s 2 (pageOf 0) 2 with | .ok (.page p, _) => some p | _ => none) = some p
      rw [hshare]
    obtain rfl := Option.some.inj (hlender.symm.trans hp)
    exact hlost
  exact ⟨s, s', hs, hs', demand_pages z exe (fun _ _ => 0) fresh_twoRun (fun _ hno => nomatch hno)
    (exec_checked hs) hok hs' ⟨rfl, rfl⟩ ht hexe (by decide) (Option.isSome_iff_ne_none.mp hmap)⟩

/-- Task 1 stores into its page and has a child; the copy that it gets then has no dirty bit, and
task 2 takes it. -/
def sharedCopy : List Act :=
  [.doNoPage 1 0 2, .loaded 1, .store 1 0 1, .fork 1 3, .doWpPage 1 0]

set_option maxRecDepth 100000 in
theorem not_demand_pages :
    ¬∀ (z : Zone) (exe : Nat → Executable) (rest : Nat → Slot → Word) (task : Nat → Option Task)
      (s s' : State), Fresh task → (∀ t, task 0 = some t → t.executable = none) →
        Reach (step exe) PutWritable (start z rest task) s → ∀ a, step exe s a = some s' →
          ∀ nr tmp e t, Faults s a nr tmp → s.task nr = some t → t.executable = some e →
            tmp < (exe e).end_data → s'.mem.ent (posOf (linear nr tmp)) ≠ none →
              ShowsFile (exe e) s' nr tmp := by
  intro hall
  let z : Zone := ⟨4000, 4096, by decide, by decide⟩
  let exe : Nat → Executable := fun _ => ⟨4096, fun _ => 0⟩
  obtain ⟨s, hs, hnext, htask⟩ : ∃ s, Runs.exec (checked (step exe) PutWritable)
      (start z (fun _ _ => 0) twoRun) sharedCopy = some s ∧
        ((step exe s (.doNoPage 2 0 2)).any fun s' =>
          (s'.mem.ent (posOf (linear 2 0))).isSome && decide (s'.mem.byteAt (linear 2 0) = 1)) =
            true ∧ (s.task 2).map Task.executable = some (some 0) :=
    exec_any (by decide +kernel)
  obtain ⟨s', hs', hboth⟩ := (Option.any_eq_true _ _).mp hnext
  obtain ⟨hmap, hbyte⟩ := Bool.and_eq_true_iff.mp hboth
  obtain ⟨t, ht, hexe⟩ := Option.map_eq_some_iff.mp htask
  have hfile := hall z exe (fun _ _ => 0) twoRun s s' fresh_twoRun (fun _ hno => nomatch hno)
    (exec_checked hs) _ hs' 2 0 0 t ⟨rfl, rfl⟩ ht hexe (by decide)
    (Option.isSome_iff_ne_none.mp hmap) 0 (by decide)
  rw [of_decide_eq_true hbyte, if_pos (by decide)] at hfile
  exact absurd hfile (by decide)

end DemandPages

end Linux011
