import Linux011.DemandSteps

/-!
# Kernel writes after verify_area

The store of the kernel into the buffer of a system call does not look at the write bit. What
keeps it private is the `verify_area` at the start of the call, and that nothing shares the pages
of the buffer before the call is over.

The store of `put_fs_byte` is private if its entry has the write bit, since by `Guarded` such an
entry is the only one that names its page. So what has to be kept while a system call lasts is
one bit for each page of its buffer (`Checked`). It is set when the call begins, because the loop
of `verify_area` comes to every page of the range (`verifyPages_cover`), where the count is an
`int` that may not overflow. The steps that take write bits away are `fork`, which the task
itself cannot make while it is in the call, and `share_page` of some other task, which the
condition of the runs excludes for these pages. All other changes of `Effect` leave the bit or
set it. Where no executable is used twice nothing is ever shared, and the condition holds of
itself (`undisturbed_of_unshared`).
-/

namespace Linux011

open Function RefCount Runs Views CopyOnWrite

namespace DemandPages

variable {z : Zone} {exe : Nat → Executable} {s s' : State} {x y : Pos} {e e' : Word}

/-- Task `nr` is in a system call that has passed a range with the address `a` to
`verify_area`. -/
def InCall (s : State) (nr a : Nat) : Prop :=
  ∃ t buf count, s.task nr = some t ∧ t.call = some (buf, count) ∧ buf ≤ a ∧ a < buf + count ∧
    a < TASK_SIZE

/-- The page at `a` is writable and mapped by task `nr` alone, if it is present. -/
def PrivatePage (s : State) (nr a : Nat) : Prop :=
  ∀ e, s.mem.ent (posOf (linear nr a)) = some e →
    Writable e ∧ s.mem.memMap (frame e) = 1 ∧
      ∀ y, User y → y ≠ posOf (linear nr a) → s.mem.page y ≠ some (frame e)

/-- The `int` that `verify_area` counts down does not overflow, and no page of a buffer is
shared while the call lasts, by its task or with it. -/
def Undisturbed (s : State) : Act → Prop
  | .verifyArea _ buf count => count + buf % 0x1000 < 0x80000000
  | .doNoPage nr address i_count =>
    ∀ p m, sharing s nr (pageOf address) i_count = .ok (.page p, m) →
      ∀ a, pageOf a = pageOf address → ¬InCall s p a ∧ ¬InCall s nr a
  | _ => True

/-- What the buffers of the system calls rely on. -/
structure Checked (s : State) : Prop where
  alive : ∀ nr a, InCall s nr a → 1 ≤ nr ∧ nr < 64
  writable : ∀ nr a, InCall s nr a → Open s.mem (posOf (linear nr a))

/-! ## Entries that get a write bit -/

theorem Open.of_update {m m' : Mem} (h : Open m y) (he : m'.ent = update m.ent x (some e'))
    (hw : x = y → Writable e') : Open m' y := by
  intro e hye
  rw [he] at hye
  rcases eq_or_ne y x with rfl | hne
  · rw [update_self] at hye
    exact Option.some.inj hye ▸ hw rfl
  · rw [update_of_ne hne] at hye
    exact h e hye

theorem Open.of_eq {m m' : Mem} (h : Open m y) (he : m'.ent y = m.ent y) : Open m' y :=
  fun e hye => h e (he ▸ hye)

theorem posOf_linear_inj {nr nr' a a' : Nat} (hnr : 1 ≤ nr ∧ nr < 64) (hnr' : 1 ≤ nr' ∧ nr' < 64)
    (ha : a < TASK_SIZE) (ha' : a' < TASK_SIZE)
    (h : posOf (linear nr a) = posOf (linear nr' a')) : nr = nr' ∧ pageOf a = pageOf a' := by
  have htask : nr = nr' := by
    rw [← taskOf_linear hnr ha, h, taskOf_linear hnr' ha']
  subst htask
  obtain ⟨hdir, hslot⟩ := Prod.mk.inj h
  have hd : (a + nr * 0x4000000) / 0x400000 % 1024 = (a' + nr * 0x4000000) / 0x400000 % 1024 :=
    congrArg Fin.val hdir
  have ht : (a + nr * 0x4000000) / 0x1000 % 1024 = (a' + nr * 0x4000000) / 0x1000 % 1024 :=
    congrArg Fin.val hslot
  simp only [TASK_SIZE] at ha ha'
  refine ⟨rfl, ?_⟩
  unfold pageOf
  omega

theorem verifyPages_cover (nr : Nat) {buf count a : Nat} (hsize : count + buf % 0x1000 < 0x80000000)
    (hbuf : buf ≤ a) (ha : a < buf + count) :
    ∃ b ∈ verifyPages (nr * TASK_SIZE) buf count, posOf b = posOf (linear nr a) := by
  have hwrap : (count + buf % 0x1000) % 0x100000000 = count + buf % 0x1000 :=
    Nat.mod_eq_of_lt (by omega)
  unfold verifyPages
  rw [hwrap]
  dsimp only
  rw [if_pos hsize]
  refine ⟨_, List.mem_map_of_mem (a := a / 0x1000 - buf / 0x1000) (List.mem_range.mpr ?_), ?_⟩
  · omega
  · refine Prod.ext (Fin.ext ?_) (Fin.ext ?_)
    · show (buf / 0x1000 * 0x1000 + nr * 0x4000000 + (a / 0x1000 - buf / 0x1000) * 0x1000) /
        0x400000 % 1024 = (a + nr * 0x4000000) / 0x400000 % 1024
      omega
    · show (buf / 0x1000 * 0x1000 + nr * 0x4000000 + (a / 0x1000 - buf / 0x1000) * 0x1000) /
        0x1000 % 1024 = (a + nr * 0x4000000) / 0x1000 % 1024
      omega

/-! ## What the steps keep -/

/-- The tasks in a system call were in it before. -/
theorem InCall.of_tame (h : Tame s s') {nr a : Nat} (hin : InCall s' nr a) : InCall s nr a := by
  obtain ⟨t', buf, count, ht', hcall, hrange⟩ := hin
  obtain ⟨t, ht, -, hor⟩ := h nr t' ht'
  rcases hor with hnone | hsame
  · rw [hnone] at hcall
    cases hcall
  · exact ⟨t, buf, count, ht, hsame ▸ hcall, hrange⟩

theorem InCall.of_eq (h : s'.task = s.task) {nr a : Nat} (hin : InCall s' nr a) :
    InCall s nr a :=
  hin.of_tame (.of_eq h)

theorem InCall.of_update {nr' : Nat} {o : Option Task} (h : s'.task = update s.task nr' o)
    {nr a : Nat} (hin : InCall s' nr a) : nr = nr' ∧ (∃ t buf count, o = some t ∧
      t.call = some (buf, count) ∧ buf ≤ a ∧ a < buf + count ∧ a < TASK_SIZE) ∨
      nr ≠ nr' ∧ InCall s nr a := by
  obtain ⟨t, buf, count, ht, hrange⟩ := hin
  rw [h] at ht
  rcases eq_or_ne nr nr' with rfl | hne
  · rw [update_self] at ht
    exact .inl ⟨rfl, t, buf, count, ht, hrange⟩
  · rw [update_of_ne hne] at ht
    exact .inr ⟨hne, t, buf, count, ht, hrange⟩

theorem Checked.of_tame (h : Checked s) (ht : Tame s s')
    (ho : ∀ nr a, InCall s nr a → Open s'.mem (posOf (linear nr a))) : Checked s' :=
  ⟨fun nr a hin => h.alive nr a (hin.of_tame ht), fun nr a hin => ho nr a (hin.of_tame ht)⟩

/-- A page is mapped where none was, with its write bit. -/
theorem Checked.mapped (h : Checked s) {p : Nat} (hm : Mapped x p s.mem s'.mem)
    (ht : Tame s s') : Checked s' :=
  h.of_tame ht fun nr a hin => (h.writable nr a hin).of_update hm.ent fun _ => writable_entry p

theorem Checked.left (h : Checked s) {nr : Nat} {o : Option Task} {s₁ : State}
    (hchain : Relation.ReflTransGen Replace s s₁) (hl : Left nr s₁.mem s'.mem)
    (htask : s'.task = update s.task nr o) (hcall : ∀ t, o = some t → 1 ≤ nr ∧ t.call = none) :
    Checked s' := by
  have hold : ∀ nr' a, InCall s' nr' a → InCall s nr' a := by
    intro nr' a hin
    rcases hin.of_update htask with ⟨-, t, buf, count, ho, hc, -⟩ | ⟨-, hin⟩
    · rw [(hcall t ho).2] at hc
      cases hc
    · exact hin
  refine ⟨fun nr' a hin => h.alive nr' a (hold nr' a hin), fun nr' a hin e he => ?_⟩
  rw [hl.ent] at he
  split at he
  · cases he
  · exact replace_open hchain (h.writable nr' a (hold nr' a hin)) e he

theorem Checked.forked (h : Checked s) {src dst : Nat} {t : Task} (was : s.task src = some t)
    (hcall : t.call = none) (hdead : s.task dst = none) (hf : Forked src dst s.mem s'.mem)
    (htask : s'.task = s.task ∨ s'.task = update s.task dst (some t)) : Checked s' := by
  have hold : ∀ nr a, InCall s' nr a → InCall s nr a := by
    intro nr a hin
    rcases htask with hsame | hnew
    · exact hin.of_eq hsame
    · rcases hin.of_update hnew with ⟨-, t', buf, count, ho, hc, -⟩ | ⟨-, hin⟩
      · obtain rfl := Option.some.inj ho
        rw [hcall] at hc
        cases hc
      · exact hin
  refine ⟨fun nr a hin => h.alive nr a (hold nr a hin), fun nr a hin => ?_⟩
  have hin := hold nr a hin
  have hnr := h.alive nr a hin
  obtain ⟨t', buf, count, ht', hc, -, -, ha⟩ := id hin
  have hsrc : nr ≠ src := by
    rintro rfl
    obtain rfl := Option.some.inj (was.symm.trans ht')
    rw [hcall] at hc
    cases hc
  have hdst : nr ≠ dst := by
    rintro rfl
    rw [hdead] at ht'
    cases ht'
  have hx := taskOf_linear hnr ha
  refine (h.writable nr a hin).of_eq ?_
  rcases hf.others _ (hx.trans_ne hdst) with hsame | ⟨hno, -⟩
  · exact hsame
  · exact absurd (hx.symm.trans hno) hsrc

theorem Checked.shared (h : Checked s) {nr address i_count p : Nat}
    (hnr : 1 ≤ nr ∧ nr < 64) (hlt : address < TASK_SIZE)
    (hs : sharing s nr (pageOf address) i_count = .ok (.page p, s'.mem))
    (hl : Lent z s.held s nr (pageOf address) p s.mem s'.mem)
    (hok : Undisturbed s (.doNoPage nr address i_count)) (ht : Tame s s') : Checked s' := by
  refine h.of_tame ht fun nr' a hin => ?_
  have hnr' := h.alive nr' a hin
  obtain ⟨-, -, -, -, -, -, -, ha⟩ := id hin
  obtain ⟨htmp, -, -⟩ := pageOf_spec hlt nr
  have hpage : pageOf (pageOf address) = pageOf address := by
    unfold pageOf
    omega
  obtain ⟨e, hsh⟩ := hl.shared
  -- neither the lent entry nor the new one belongs to a buffer
  refine (h.writable nr' a hin).of_eq ?_
  rw [hsh.ent, update_of_ne, update_of_ne]
  · intro heq
    obtain ⟨rfl, hpa⟩ := posOf_linear_inj hnr' hl.lender ha htmp heq
    exact (hok _ _ hs a (hpa.trans hpage)).1 hin
  · intro heq
    obtain ⟨rfl, hpa⟩ := posOf_linear_inj hnr' hnr ha htmp heq
    exact (hok _ _ hs a (hpa.trans hpage)).2 hin

theorem Checked.verified (h : Checked s) {nr buf count : Nat} {t : Task} {s₁ : State}
    (hnr : 1 ≤ nr ∧ nr < 64) (hchain : Relation.ReflTransGen Replace s s₁)
    (hchecked : ∀ a ∈ verifyPages (nr * TASK_SIZE) buf count, Open s₁.mem (posOf a))
    (hmem : s'.mem = s₁.mem)
    (htask : s'.task = update s.task nr (some { t with call := some (buf, count) }))
    (hok : Undisturbed s (.verifyArea nr buf count)) : Checked s' := by
  refine ⟨fun nr' a hin => ?_, fun nr' a hin => ?_⟩
  · rcases hin.of_update htask with ⟨rfl, -⟩ | ⟨-, hin⟩
    · exact hnr
    · exact h.alive nr' a hin
  · rw [hmem]
    rcases hin.of_update htask with ⟨rfl, t', buf', count', ho, hc, hbuf, ha, -⟩ | ⟨-, hin⟩
    · obtain rfl := Option.some.inj ho
      obtain ⟨rfl, rfl⟩ := Prod.mk.inj (Option.some.inj hc)
      obtain ⟨b, hb, hpos⟩ := verifyPages_cover nr' hok hbuf ha
      exact hpos ▸ hchecked b hb
    · exact replace_open hchain (h.writable nr' a hin)

theorem Checked.effect (h : Checked s) {a : Act} (hok : Undisturbed s a)
    (he : Effect z exe s a s') : Checked s' := by
  cases he with
  | quiet _ _ ent _ _ tame =>
      exact h.of_tame tame fun nr a hin => (h.writable nr a hin).of_eq (congrFun ent _)
  | left _ nr o s₁ _ chain left _ task call => exact h.left chain left task call
  | forked src dst t _ was _ call dead forked _ task => exact h.forked was call dead forked task
  | replaced nr address _ replace =>
      exact h.of_tame (.of_eq replace.1) fun nr a hin =>
        replace_open (.single replace) (h.writable nr a hin)
  | verified nr buf count t s₁ _ was alive chain checked mem _ task =>
      exact h.verified alive chain checked mem task hok
  | shared nr address i_count p t _ was alive lt sharing lent _ task =>
      exact h.shared alive lt sharing lent hok (.of_eq task)
  | filled nr address i_count page t _ was alive lt mapped _ _ task =>
      exact h.mapped mapped (.of_eq task)
  | loaded nr e tmp page t _ was loading _ mapped _ _ tame => exact h.mapped mapped tame
  | marked nr address e _ alive lt was ent _ _ task =>
      refine h.of_tame (.of_eq task) fun nr' a hin => ?_
      refine (h.writable nr' a hin).of_update ent fun heq => (writable_access e false).mpr ?_
      exact h.writable nr' a hin e (heq ▸ was)
  | stored _ nr address e _ alive lt stored _ task =>
      refine h.of_tame (.of_eq task) fun nr' a hin => ?_
      exact (h.writable nr' a hin).of_update stored.ent fun _ =>
        (writable_access e true).mpr stored.writable

/-- The store of the kernel finds the write bit. -/
theorem Checked.putWritable (h : Checked s) {a : Act} (hs : step exe s a = some s') :
    PutWritable s a := by
  cases a with
  | putFsByte nr address value =>
      simp only [step] at hs
      split at hs
      · rename_i t buf count l ha
        obtain ⟨⟨-, hbuf, hlt, hsize, -⟩, -⟩ := Option.ite_none_right_eq_some.mp hs
        exact h.writable nr address ⟨_, buf, count, (awake_spec ha).1, rfl, hbuf, hlt, hsize⟩
      · cases hs
  | _ => trivial

/-! ## Runs -/

/-- No task has a page, and none is in the kernel. -/
structure Fresh (task : Nat → Option Task) : Prop where
  alive : ∀ nr t, task nr = some t → nr < 64
  user : ∀ nr t, task nr = some t → t.call = none ∧ t.loading = none

theorem base_start (z : Zone) (exe : Nat → Executable) (rest : Nat → Slot → Word)
    {task : Nat → Option Task} (h : Fresh task) : Base z exe (start z rest task) := by
  have huser : ∀ x e, User x → (memInit rest z.start z.stop).ent x ≠ some e := by
    intro x e hx he
    have hlt := (memInit_page (page_of_present he)).1
    unfold User at hx
    omega
  refine ⟨tasks_start z rest, ⟨fun x e hx he => absurd he (huser x e hx),
    fun x y e e' hx _ he => absurd he (huser x e hx), fun x e hx he => ?_⟩, h.alive,
    fun d hd _ => ?_, fun d t hd ht => ?_, fun nr t tmp page ht hl => ?_,
    fun nr nr' t t' tmp tmp' page ht _ hl => ?_⟩
  · rw [(memInit_ent he).2]
    exact writable_entry _
  · show (memInit rest z.start z.stop).tableOf d = none
    rw [memInit_tableOf, if_neg (by omega)]
  · change (memInit rest z.start z.stop).tableOf d = some t at ht
    rw [memInit_tableOf, if_pos hd] at ht
    obtain rfl := Option.some.inj ht
    show d.val + 1 < 256
    omega
  · rw [(h.user nr t ht).2] at hl
    cases hl
  · rw [(h.user nr t ht).2] at hl
    cases hl

theorem checked_start (z : Zone) (rest : Nat → Slot → Word) {task : Nat → Option Task}
    (h : Fresh task) : Checked (start z rest task) := by
  have hno : ∀ nr a, ¬InCall (start z rest task) nr a := by
    rintro nr a ⟨t, buf, count, ht, hc, -⟩
    rw [(h.user nr t ht).1] at hc
    cases hc
  exact ⟨fun nr a hin => absurd hin (hno nr a), fun nr a hin => absurd hin (hno nr a)⟩

/-- A page with its write bit belongs to one task and is counted once. -/
theorem Base.alone (h : Base z exe s) (hx : User x) (he : s.mem.ent x = some e)
    (hw : Writable e) : s.mem.memMap (frame e) = 1 ∧
      ∀ y, User y → y ≠ x → s.mem.page y ≠ some (frame e) := by
  have hlow := h.guarded.low x e hx he hw
  have hpx := page_of_present he
  have hmanaged := h.tasks.paged.page_managed hx hpx hlow
  have hsole : ∀ y, User y → y ≠ x → s.mem.page y ≠ some (frame e) := by
    intro y hy hyx hpy
    obtain ⟨e', hye, hframe⟩ := Option.map_eq_some_iff.mp hpy
    exact hyx (h.guarded.sole x y e e' hx hy he hye hw hframe)
  have hrefs : refs (s.mem.ref user) (frame e) = 1 := by
    refine refs_eq_one (r := .inr x) (by simp [Mem.ref, hx.counted, hpx]) fun r hr => ?_
    rcases r with d | y
    · exact absurd hr (h.tasks.kinds.page_table x _ d hx hpx hlow)
    · obtain ⟨hy, hpy⟩ := ref_user_eq_some hr
      by_contra hne
      exact hsole y hy (fun heq => hne (congrArg Sum.inr heq)) hpy
  refine ⟨?_, hsole⟩
  have hcount := h.tasks.paged.balanced _ hmanaged
  have hheld := h.tasks.kinds.page_held x _ hx hpx
  omega

/-- **The buffer of a system call stays private**: in every run in which no page of a
checked buffer is shared before the call is over, by its task or with it, each page of
the buffer that is present is writable, is counted once and is named by no other entry.
So the stores of the kernel, which ignore the write bit, meet pages of their own task
only. -/
theorem verify_area_private (z : Zone) (exe : Nat → Executable) (rest : Nat → Slot → Word)
    {task : Nat → Option Task} (htask : Fresh task) {s : State}
    (h : Reach (step exe) Undisturbed (start z rest task) s) {nr a : Nat} (hin : InCall s nr a) :
    PrivatePage s nr a := by
  have hinv : Base z exe s ∧ Checked s := by
    refine h.invariant (I := fun s => Base z exe s ∧ Checked s)
      ⟨base_start z exe rest htask, checked_start z rest htask⟩ ?_
    rintro s a s' ⟨hb, hc⟩ hok hs
    obtain ⟨hb', he⟩ := step_effect hb (hc.putWritable hs) hs
    exact ⟨hb', hc.effect hok he⟩
  obtain ⟨hb, hc⟩ := hinv
  have hnr := hc.alive nr a hin
  obtain ⟨-, -, -, -, -, -, -, ha⟩ := id hin
  intro e he
  have hw := hc.writable nr a hin e he
  exact ⟨hw, hb.alone (linear_spec hnr.1 hnr.2 ha).1 he hw⟩

/-- No executable is used twice. -/
def unshared : Act → Bool
  | .doNoPage _ _ i_count => decide (i_count < 2)
  | .verifyArea _ buf count => decide (count + buf % 0x1000 < 0x80000000)
  | _ => true

theorem undisturbed_of_unshared (s : State) (a : Act) (h : unshared a = true) :
    Undisturbed s a := by
  cases a with
  | doNoPage nr address i_count =>
      intro p m hs
      rw [sharing, if_pos (of_decide_eq_true h)] at hs
      cases hs
  | verifyArea nr buf count =>
      have hsize : count + buf % 0x1000 < 0x80000000 := of_decide_eq_true h
      exact hsize
  | _ => trivial

/-- The executable is empty, tasks 1 and 2 run it. -/
def twoRun (nr : Nat) : Option Task :=
  if nr = 1 ∨ nr = 2 then some ⟨some 0, none, none⟩ else none

theorem fresh_twoRun : Fresh twoRun := by
  constructor
  · intro nr t ht
    obtain ⟨hnr, -⟩ := Option.ite_none_right_eq_some.mp ht
    omega
  · intro nr t ht
    obtain ⟨-, hsome⟩ := Option.ite_none_right_eq_some.mp ht
    obtain rfl := Option.some.inj hsome
    exact ⟨rfl, rfl⟩

/-- Task 1 reads a byte into its first page. -/
def readOne : List Act := [.doNoPage 1 0 1, .loaded 1, .verifyArea 1 0 1, .putFsByte 1 0 7]

theorem verify_area_private_one : ∃ s,
    Runs.exec (checked (step fun _ => ⟨4096, fun _ => 0⟩) fun _ a => unshared a = true)
      (start ⟨4000, 4096, by decide, by decide⟩ (fun _ _ => 0) twoRun) readOne = some s ∧
      InCall s 1 0 ∧ s.mem.byteAt (linear 1 0) = 7 ∧ PrivatePage s 1 0 := by
  let z : Zone := ⟨4000, 4096, by decide, by decide⟩
  let exe : Nat → Executable := fun _ => ⟨4096, fun _ => 0⟩
  obtain ⟨s, hs, hcall, hbyte⟩ : ∃ s, Runs.exec (checked (step exe) fun _ a => unshared a = true)
      (start z (fun _ _ => 0) twoRun) readOne = some s ∧
        (s.task 1).map Task.call = some (some (0, 1)) ∧ s.mem.byteAt (linear 1 0) = 7 :=
    exec_any (by decide +kernel)
  obtain ⟨t, ht, hc⟩ := Option.map_eq_some_iff.mp hcall
  have hin : InCall s 1 0 :=
    ⟨t, 0, 1, ht, hc, Nat.le_refl 0, Nat.one_pos, by decide⟩
  exact ⟨s, hs, hin, hbyte, verify_area_private z exe (fun _ _ => 0) fresh_twoRun
    ((exec_checked hs).weaken undisturbed_of_unshared) hin⟩

/-- Task 2 faults on the page that the system call of task 1 has checked. -/
def sharedBuffer : List Act := [.doNoPage 1 0 2, .loaded 1, .verifyArea 1 0 1, .doNoPage 2 0 2]

theorem not_verify_area_private :
    ¬∀ (z : Zone) (exe : Nat → Executable) (rest : Nat → Slot → Word) (task : Nat → Option Task)
      (s : State), Fresh task → Reach (step exe) Free (start z rest task) s →
        ∀ nr a, InCall s nr a → PrivatePage s nr a := by
  intro hall
  let z : Zone := ⟨4000, 4096, by decide, by decide⟩
  let exe : Nat → Executable := fun _ => ⟨4096, fun _ => 0⟩
  obtain ⟨s, hs, hcall, he⟩ : ∃ s,
      Runs.exec (step exe) (start z (fun _ _ => 0) twoRun) sharedBuffer =
      some s ∧ (s.task 1).map Task.call = some (some (0, 1)) ∧
        (s.mem.ent (posOf (linear 1 0))).map frame = some 4095 ∧ s.mem.memMap 4095 = 2 :=
    exec_any (by decide +kernel)
  obtain ⟨t, ht, hc⟩ := Option.map_eq_some_iff.mp hcall
  obtain ⟨e, hpage, hframe⟩ := Option.map_eq_some_iff.mp he.1
  have hprivate := hall z exe (fun _ _ => 0) twoRun s fresh_twoRun (exec_reach hs) 1 0
    ⟨t, 0, 1, ht, hc, Nat.le_refl 0, Nat.one_pos, by decide⟩ e hpage
  rw [hframe, he.2] at hprivate
  exact absurd hprivate.2.1 (by decide)

end DemandPages

end Linux011
