import Linux011.ExecHeader
import Linux011.ExecScript

/-!
# The arguments of a new program

The calls of `copy_strings` that `do_execve` makes for a binary and for a script, on valid lists
of strings. A call that returns 0 makes `do_execve` fail with `ENOMEM`, and all argument pages
are free again; a call returns as long as its strings fit below `p` (`arguments_refused`).

A call for a binary is two calls of `copy_strings` and one for a script is five, each with the
`p` that the one before has left; `Copying` composes them. A call with `p` equal to 0 does
nothing and returns 0, so that a failure is passed on to the end, where `do_execve` frees what
was taken. That all pages are free again is the count of before for every frame
(`freePages_spec`). For the equivalence the three outcomes of `ExecStrings` are compared with the
two that the source knows: a call that runs below 0 neither copies nor returns 0, because the
test for it compares an unsigned `p` with 0. It happens exactly if the strings do not fit and no
page is missing on the way down.
-/

namespace Linux011

open Function

namespace Exec

variable {m₀ : Mem} {b b' : Block} {z : Zone} {counted : Pos → Bool} {held : Nat → Nat}

/-! ## Freeing the pages -/

theorem freePages_spec (h : Holds m₀ b) (hm : Paged z counted held m₀) :
    ∃ mem, freePages b = .ok mem ∧ mem.memMap = m₀.memMap := by
  have hrun := Loops.foldlM_ok (f := freeArg b.page) (l := List.finRange MAX_ARG_PAGES) (p := [])
    (s := b.mem)
    (fun done m => m.HIGH_MEMORY = b.mem.HIGH_MEMORY ∧
      ∀ q, m.memMap q = if ∃ i ∈ done, b.page i = some q then 0 else b.mem.memMap q)
    ⟨rfl, fun q => by simp⟩ (by
      intro done i rest m hl ⟨hhigh, hmap⟩
      have hnodup : i ∉ done := by
        have := List.nodup_finRange MAX_ARG_PAGES
        rw [show List.finRange MAX_ARG_PAGES = done ++ i :: rest from hl] at this
        exact fun hi => (List.nodup_append.mp this).2.2 i hi i (List.mem_cons_self ..) rfl
      cases hpag : b.page i with
      | none =>
          refine ⟨m, by simp only [freeArg, hpag], hhigh, fun q => ?_⟩
          rw [hmap]
          simp [hpag]
      | some f =>
          obtain ⟨hlow, hfree⟩ := h.free i f hpag
          have hstop := (hm.managed_of_free hlow hfree).2
          have hone : m.memMap f = 1 := by
            rw [hmap, if_neg, h.held i f hpag]
            rintro ⟨j, hj, hjf⟩
            exact hnodup (h.inj j i f hjf hpag ▸ hj)
          have hok : freePage m f = .ok (m.setCount f 0) := by
            unfold freePage
            rw [if_neg (by omega), if_neg (by rw [hhigh, h.high, hm.high]; omega), hone,
              if_pos (by decide)]
          refine ⟨m.setCount f 0, by simp only [freeArg, hpag, hok, ofMemory], hhigh, fun q => ?_⟩
          show update m.memMap f 0 q = _
          rcases eq_or_ne q f with rfl | hne
          · rw [update_self, if_pos ⟨i, by simp, hpag⟩]
          · rw [update_of_ne hne, hmap]
            have hnew : b.page i ≠ some q := by
              rw [hpag]
              exact fun e => hne (Option.some.inj e).symm
            simp [hnew])
  obtain ⟨mem, hmem, -, hmap⟩ := hrun
  refine ⟨mem, hmem, funext fun q => ?_⟩
  rw [hmap]
  split
  · rename_i hheld
    obtain ⟨i, -, hi⟩ := hheld
    exact (h.free i q hi).2.symm
  · rename_i hnot
    exact h.memMap q fun i hi => hnot ⟨i, by simp, hi⟩

/-! ## The calls for a binary and for a script -/

/-- The first `p`. -/
def TOP : Word := BitVec.ofNat 32 (PAGE_SIZE * MAX_ARG_PAGES - 4)

theorem Placed.append {p p₁ p₂ : Word} {b₁ b₂ : Block} {front back : List Byte}
    (h₁ : Placed m₀ b p back b₁ p₁) (h₂ : Placed m₀ b₁ p₁ front b₂ p₂) :
    Placed m₀ b p (front ++ back) b₂ p₂ := by
  have hl₁ := h₁.length
  have hl₂ := h₂.length
  refine ⟨h₂.holds, by rw [List.length_append]; omega, fun j hj => ?_, fun x v hx hv => ?_, h₂.fs⟩
  · rw [List.length_append] at hj
    rcases Nat.lt_or_ge j front.length with hlt | hge
    · rw [List.getElem_append_left hlt]
      exact h₂.bytes j hlt
    · rw [List.getElem_append_right hge]
      refine h₂.kept _ _ (by omega) ?_
      have := h₁.bytes (j - front.length) (by omega)
      rwa [show p₁.toNat + (j - front.length) = p₂.toNat + j by omega] at this
  · exact h₂.kept x v (by omega) (h₁.kept x v hx hv)

/-- The strings so far, if `p` is not 0. -/
structure Copying (m₀ : Mem) (b : Block) (strs : List (List Byte)) (p : Word) (b' : Block) :
    Prop where
  holds : Holds m₀ b'
  fs : b'.fs = .user
  bound : p.toNat < MAX_ARG_PAGES * PAGE_SIZE
  placed : p ≠ 0 → Placed m₀ b TOP (flat strs) b' p

theorem Copying.start (h : Holds m₀ b) (hfs : b.fs = .user) : Copying m₀ b [] TOP b :=
  ⟨h, hfs, by decide, fun _ => ⟨h, rfl, fun j hj => absurd hj (Nat.not_lt_zero j),
    fun _ _ _ hv => hv, hfs⟩⟩

theorem Copying.call {segs : Fs → Segment} {argc : Int} {argv : Argv} {from_kmem : Nat}
    {strs l : List (List Byte)} {p p' : Word} {b₁ : Block} (h : Copying m₀ b strs p b₁)
    (hl : Strings segs argv from_kmem l) (hargc : argc.toNat = l.length)
    (hr : copyStrings segs argc argv b₁ p from_kmem = .ok (p', b')) :
    Copying m₀ b (l ++ strs) p' b' := by
  obtain ⟨hholds, hfs, hbound, hplaced⟩ := copyStrings_ok h.holds h.fs h.bound hl hargc hr
  refine ⟨hholds, hfs, hbound, fun hp' => ?_⟩
  obtain ⟨hp, hone⟩ := hplaced hp'
  rw [flat_append]
  exact (h.placed hp).append hone

theorem copyBinary_ok {user : Segment} {argv envp : Nat} {args env : List (List Byte)} {p : Word}
    (h : Holds m₀ b) (hfs : b.fs = .user) (hargs : ListAt user argv args)
    (henv : ListAt user envp env)
    (hr : copyBinary user b argv envp args.length env.length = .ok (p, b')) :
    Copying m₀ b (args ++ env) p b' := by
  unfold copyBinary at hr
  obtain ⟨⟨p₁, b₁⟩, h₁, hr⟩ := Loops.bind_eq_ok hr
  have hc₁ := (Copying.start h hfs).call henv.copied (Int.toNat_natCast _) h₁
  rw [List.append_nil] at hc₁
  exact hc₁.call hargs.copied (Int.toNat_natCast _) hr

/-- The strings of a script. -/
def scriptArgs (sh : Shebang) (name : List Byte) (args : List (List Byte)) : List (List Byte) :=
  baseName sh.path :: (sh.arg.toList ++ name :: args.tail)

/-- What a string in the buffer has for an address. -/
theorem buf_address {buf i : Nat} {sc : Script} {l : List Byte}
    (hbuf : 0 < buf ∧ buf + BUF ≤ 0x100000000)
    (h : StringAt ⟨fun a => sc.buf (a - buf), buf + BUF⟩ (buf + i) l) :
    buf + i ≠ 0 ∧ buf + i < 0x100000000 := by
  have hlt : buf + i + l.length < buf + BUF := Segment.get_lt h.nul
  omega

theorem Copying.interpArg {user : Segment} {buf : Nat} {sc : Script} {sh : Shebang}
    {strs : List (List Byte)} {p : Word} {b₁ : Block} {argc : Int} {r : Word × Block × Int}
    (h : Copying m₀ b strs p b₁) (hbuf : 0 < buf ∧ buf + BUF ≤ 0x100000000) (hsc : Found sc sh buf)
    (hr : copyInterpArg (scriptSegs user buf sc) buf sc.i_arg b₁ p argc = .ok r) :
    Copying m₀ b (sh.arg.toList ++ strs) r.1 r.2.1 ∧ r.2.2 = argc + sh.arg.toList.length := by
  unfold copyInterpArg at hr
  split at hr
  · rename_i harg
    obtain rfl := Except.ok.inj hr
    rw [hsc.no_arg harg]
    exact ⟨h, (Int.add_zero argc).symm⟩
  · rename_i i harg
    obtain ⟨arg, hsh, hstr⟩ := hsc.i_arg i harg
    obtain ⟨⟨p', b'⟩, hcall, hr⟩ := Loops.bind_eq_ok hr
    obtain rfl := Except.ok.inj hr
    obtain ⟨h0, hlt⟩ := buf_address hbuf hstr
    have hstrs : Strings (scriptSegs user buf sc) (.kernel (buf + i)) 2 [arg] :=
      strings_kernel (.inr rfl) h0 hlt hstr
    rw [hsh]
    exact ⟨h.call hstrs rfl hcall, rfl⟩

theorem copyScript_ok {user : Segment} {buf filename argv envp : Nat} {sc : Script} {sh : Shebang}
    {name : List Byte} {args env : List (List Byte)} {p : Word} {argc : Int} (h : Holds m₀ b)
    (hfs : b.fs = .user) (hargs : ListAt user argv args) (henv : ListAt user envp env)
    (hname : StringAt user filename name) (hfile : filename ≠ 0 ∧ filename < 0x100000000)
    (hbuf : 0 < buf ∧ buf + BUF ≤ 0x100000000) (hsc : Found sc sh buf)
    (hr : copyScript (scriptSegs user buf sc) buf sc b filename argv envp args.length env.length
      = .ok (p, b', argc)) :
    Copying m₀ b (scriptArgs sh name args ++ env) p b' ∧
      argc = args.length + sh.arg.toList.length + 1 := by
  have htail : ((args.length : Int) - 1).toNat = args.tail.length := by
    rw [List.length_tail]
    omega
  obtain ⟨h0, hlt⟩ := buf_address hbuf hsc.i_name
  unfold copyScript at hr
  dsimp only at hr
  obtain ⟨⟨p₁, b₁⟩, h₁, hr⟩ := Loops.bind_eq_ok hr
  have henv' : Strings (scriptSegs user buf sc) (.user envp) 0 env := ListAt.copied henv
  have hc₁ := (Copying.start h hfs).call henv' (Int.toNat_natCast _) h₁
  obtain ⟨⟨p₂, b₂⟩, h₂, hr⟩ := Loops.bind_eq_ok hr
  have hargs' : Strings (scriptSegs user buf sc) (.user (argv + 4)) 0 args.tail :=
    ListAt.copied_tail hargs
  have hc₂ := hc₁.call hargs' htail h₂
  obtain ⟨⟨p₃, b₃⟩, h₃, hr⟩ := Loops.bind_eq_ok hr
  have hname' : Strings (scriptSegs user buf sc) (.kernel filename) 1 [name] :=
    strings_kernel (.inl rfl) hfile.1 hfile.2 hname
  have hc₃ := hc₂.call hname' rfl h₃
  obtain ⟨⟨p₄, b₄, argc₄⟩, h₄, hr⟩ := Loops.bind_eq_ok hr
  obtain ⟨hc₄, hargc⟩ := hc₃.interpArg hbuf hsc h₄
  obtain ⟨⟨p₅, b₅⟩, h₅, hr⟩ := Loops.bind_eq_ok hr
  have hbase : Strings (scriptSegs user buf sc) (.kernel (buf + sc.i_name)) 2 [baseName sh.path] :=
    strings_kernel (.inr rfl) h0 hlt hsc.i_name
  have hc₅ := hc₄.call hbase rfl h₅
  have hret := Except.ok.inj hr
  obtain ⟨hp, hret⟩ := Prod.mk.inj hret
  obtain ⟨hb, hret⟩ := Prod.mk.inj hret
  dsimp only at hp hb hret hargc
  subst hp hb
  have hstrs : scriptArgs sh name args ++ env
      = [baseName sh.path] ++ (sh.arg.toList ++ ([name] ++ (args.tail ++ (env ++ [])))) := by
    simp [scriptArgs]
  rw [hstrs]
  exact ⟨hc₅, by omega⟩

/-! ## Room for the arguments -/

/-- A block has at most one frame for each entry of `page[]`. -/
theorem Holds.free_card (h : Holds m₀ b) :
    (freeFrames m₀).card ≤ (freeFrames b.mem).card + MAX_ARG_PAGES := by
  have hsub : freeFrames m₀
      ⊆ freeFrames b.mem ∪ Finset.univ.biUnion fun i => (b.page i).toFinset := by
    intro q hq
    obtain ⟨hin, h0⟩ := Finset.mem_filter.mp hq
    by_cases hheld : ∃ i, b.page i = some q
    · obtain ⟨i, hi⟩ := hheld
      exact Finset.mem_union_right _ (Finset.mem_biUnion.mpr ⟨i, Finset.mem_univ i, by simp [hi]⟩)
    · refine Finset.mem_union_left _ (Finset.mem_filter.mpr ⟨hin, ?_⟩)
      rw [h.memMap q fun i hi => hheld ⟨i, hi⟩, h0]
  refine (Finset.card_le_card hsub).trans ((Finset.card_union_le _ _).trans ?_)
  refine Nat.add_le_add_left (Finset.card_biUnion_le.trans ?_) _
  have hone : ∀ i ∈ Finset.univ, (b.page i).toFinset.card ≤ 1 := by
    intro i _
    cases b.page i <;> simp
  refine (Finset.sum_le_card_nsmul _ _ 1 hone).trans ?_
  rw [Finset.card_univ, Fintype.card_fin]
  exact Nat.le_refl _

/-- With as many free pages again no page is missing. -/
theorem Holds.not_short {p : Word} (h : Holds m₀ b)
    (hfree : 2 * MAX_ARG_PAGES ≤ (freeFrames m₀).card) : ¬Short b p := by
  have hcard : (lacking b.page p.toNat).card ≤ MAX_ARG_PAGES :=
    (Finset.card_le_univ _).trans (Fintype.card_fin _).le
  have := h.free_card
  unfold Short
  omega

theorem Copying.room {segs : Fs → Segment} {argc : Int} {argv : Argv} {from_kmem : Nat}
    {strs l : List (List Byte)} {p : Word} {b₁ : Block} (h : Copying m₀ b strs p b₁) (hp : p ≠ 0)
    (hfree : 2 * MAX_ARG_PAGES ≤ (freeFrames m₀).card) (hl : Strings segs argv from_kmem l)
    (hargc : argc.toNat = l.length) (hfit : (flat (l ++ strs)).length < TOP.toNat) :
    ∃ p' b', copyStrings segs argc argv b₁ p from_kmem = .ok (p', b') ∧ p' ≠ 0 := by
  have hlen := (h.placed hp).length
  rw [flat_append, List.length_append] at hfit
  have hresult := copyStrings_result h.holds h.fs h.bound hl hargc hp
  generalize copyStrings segs argc argv b₁ p from_kmem = r at hresult
  cases hresult with
  | placed p' b' hplaced =>
      have hlen' := hplaced.length
      refine ⟨p', b', rfl, fun h0 => ?_⟩
      rw [h0] at hlen'
      have hlen' : 0 + (flat l).length = p.toNat := hlen'
      omega
  | full b' short => exact absurd short (h.holds.not_short hfree)
  | wild short long => omega

theorem copyBinary_room {user : Segment} {argv envp : Nat} {args env : List (List Byte)}
    (h : Holds m₀ b) (hfs : b.fs = .user) (hargs : ListAt user argv args)
    (henv : ListAt user envp env) (hfree : 2 * MAX_ARG_PAGES ≤ (freeFrames m₀).card)
    (hfit : (flat (args ++ env)).length < TOP.toNat) :
    ∃ p b', copyBinary user b argv envp args.length env.length = .ok (p, b') ∧ p ≠ 0 := by
  have hsum := hfit
  rw [flat_append, List.length_append] at hsum
  have hstart := Copying.start h hfs
  have henv' : Strings (fun _ => user) (.user envp) 0 env := ListAt.copied henv
  obtain ⟨p₁, b₁, hcall₁, hp₁⟩ := hstart.room (by decide) hfree henv' (Int.toNat_natCast _)
    (by rw [List.append_nil]; omega)
  have hc₁ := hstart.call henv' (Int.toNat_natCast _) hcall₁
  rw [List.append_nil] at hc₁
  have hargs' : Strings (fun _ => user) (.user argv) 0 args := ListAt.copied hargs
  obtain ⟨p₂, b₂, hcall₂, hp₂⟩ := hc₁.room hp₁ hfree hargs' (Int.toNat_natCast _) hfit
  refine ⟨p₂, b₂, ?_, hp₂⟩
  unfold copyBinary
  dsimp only
  have hcall₁ : copyStrings (fun _ => user) env.length (.user envp) b
      (BitVec.ofNat 32 (PAGE_SIZE * MAX_ARG_PAGES - 4)) 0 = .ok (p₁, b₁) := hcall₁
  rw [hcall₁]
  exact hcall₂

theorem Copying.interpArg_room (user : Segment) {buf : Nat} {sc : Script} {sh : Shebang}
    {strs : List (List Byte)} {p : Word} {b₁ : Block} (h : Copying m₀ b strs p b₁) (hp : p ≠ 0)
    (hfree : 2 * MAX_ARG_PAGES ≤ (freeFrames m₀).card)
    (hbuf : 0 < buf ∧ buf + BUF ≤ 0x100000000) (hsc : Found sc sh buf)
    (hfit : (flat (sh.arg.toList ++ strs)).length < TOP.toNat) (argc : Int) :
    ∃ p' b' argc', copyInterpArg (scriptSegs user buf sc) buf sc.i_arg b₁ p argc
      = .ok (p', b', argc') ∧ p' ≠ 0 := by
  unfold copyInterpArg
  split
  · exact ⟨p, b₁, argc, rfl, hp⟩
  · rename_i i harg
    obtain ⟨arg, hsh, hstr⟩ := hsc.i_arg i harg
    obtain ⟨h0, hlt⟩ := buf_address hbuf hstr
    rw [hsh] at hfit
    have hone : (1 : Int).toNat = [arg].length := rfl
    have hstrs : Strings (scriptSegs user buf sc) (.kernel (buf + i)) 2 [arg] :=
      strings_kernel (.inr rfl) h0 hlt hstr
    obtain ⟨p', b', hcall, hp'⟩ := h.room hp hfree hstrs hone hfit
    refine ⟨p', b', argc + 1, ?_, hp'⟩
    rw [hcall]
    rfl

theorem copyScript_room {user : Segment} {buf filename argv envp : Nat} {sc : Script}
    {sh : Shebang} {name : List Byte} {args env : List (List Byte)} (h : Holds m₀ b)
    (hfs : b.fs = .user) (hargs : ListAt user argv args) (henv : ListAt user envp env)
    (hname : StringAt user filename name) (hfile : filename ≠ 0 ∧ filename < 0x100000000)
    (hbuf : 0 < buf ∧ buf + BUF ≤ 0x100000000) (hsc : Found sc sh buf)
    (hfree : 2 * MAX_ARG_PAGES ≤ (freeFrames m₀).card)
    (hfit : (flat (scriptArgs sh name args ++ env)).length < TOP.toNat) :
    ∃ p b' argc, copyScript (scriptSegs user buf sc) buf sc b filename argv envp args.length
      env.length = .ok (p, b', argc) ∧ p ≠ 0 := by
  have hstrs : scriptArgs sh name args ++ env
      = [baseName sh.path] ++ (sh.arg.toList ++ ([name] ++ (args.tail ++ (env ++ [])))) := by
    simp [scriptArgs]
  have htail : ((args.length : Int) - 1).toNat = args.tail.length := by
    rw [List.length_tail]
    omega
  obtain ⟨h0, hlt⟩ := buf_address hbuf hsc.i_name
  rw [hstrs] at hfit
  have hsum := hfit
  simp only [flat_append, List.length_append] at hsum
  have hstart := Copying.start h hfs
  have henv' : Strings (scriptSegs user buf sc) (.user envp) 0 env := ListAt.copied henv
  obtain ⟨p₁, b₁, h₁, hp₁⟩ := hstart.room (by decide) hfree henv' (Int.toNat_natCast _)
    (by simp only [flat_append, List.length_append]; omega)
  have hc₁ := hstart.call henv' (Int.toNat_natCast _) h₁
  have hargs' : Strings (scriptSegs user buf sc) (.user (argv + 4)) 0 args.tail :=
    ListAt.copied_tail hargs
  obtain ⟨p₂, b₂, h₂, hp₂⟩ := hc₁.room hp₁ hfree hargs' htail
    (by simp only [flat_append, List.length_append]; omega)
  have hc₂ := hc₁.call hargs' htail h₂
  have hone : ∀ str : List Byte, (1 : Int).toNat = [str].length := fun _ => rfl
  have hname' : Strings (scriptSegs user buf sc) (.kernel filename) 1 [name] :=
    strings_kernel (.inl rfl) hfile.1 hfile.2 hname
  obtain ⟨p₃, b₃, h₃, hp₃⟩ := hc₂.room hp₂ hfree hname' (hone name)
    (by simp only [flat_append, List.length_append]; omega)
  have hc₃ := hc₂.call hname' (hone name) h₃
  obtain ⟨p₄, b₄, argc₄, h₄, hp₄⟩ := hc₃.interpArg_room user hp₃ hfree hbuf hsc
    (by simp only [flat_append, List.length_append]; omega) ((args.length : Int) - 1 + 1)
  obtain ⟨hc₄, -⟩ := hc₃.interpArg hbuf hsc h₄
  have hbase : Strings (scriptSegs user buf sc) (.kernel (buf + sc.i_name)) 2 [baseName sh.path] :=
    strings_kernel (.inr rfl) h0 hlt hsc.i_name
  obtain ⟨p₅, b₅, h₅, hp₅⟩ := hc₄.room hp₄ hfree hbase (hone _) hfit
  refine ⟨p₅, b₅, argc₄ + 1, ?_, hp₅⟩
  unfold copyScript
  dsimp only
  have h₁ : copyStrings (scriptSegs user buf sc) env.length (.user envp) b
      (BitVec.ofNat 32 (PAGE_SIZE * MAX_ARG_PAGES - 4)) 0 = .ok (p₁, b₁) := h₁
  simp only [h₁, h₂, h₃, h₄, h₅, bind, Except.bind]
  rfl

/-! ## No room for the arguments -/

variable {F : Type}

/-- `do_execve` has the file and its first block. -/
structure Opened (k : Kernel F) (s : State F) (filename : Nat) (im : Image) (files : F) :
    Prop where
  mode : s.frame.cs &&& 0xffff = 0x000f
  file : ∃ inode files₁, k.namei s.files s.user filename = (some inode, files₁) ∧
    openImage k s.task files₁ inode = (.inr im, files)

/-- The strings that `do_execve` is given. -/
structure Given (k : Kernel F) (s : State F) (filename argv envp : Nat) (name : List Byte)
    (args env : List (List Byte)) : Prop where
  name : StringAt s.user filename name
  file : filename ≠ 0 ∧ filename < 0x100000000
  args : ListAt s.user argv args
  env : ListAt s.user envp env
  buf : 0 < k.buf ∧ k.buf + BUF ≤ 0x100000000

/-- The argument pages at first. -/
def State.block (s : State F) : Block := ⟨s.mem, fun _ => none, .user⟩

/-- What the calls of `copy_strings` come to, for `argc` and `envc` strings. -/
inductive Copies (k : Kernel F) (s : State F) (filename argv envp argc envc : Nat) (im : Image) :
    Word → Block → Prop where
  | binary (p : Word) (b : Block) (magic : isScript im.b_data = false)
      (ok : HeaderOk (header im.b_data) im.inode.i_size)
      (copied : copyBinary s.user s.block argv envp argc envc = .ok (p, b)) :
      Copies k s filename argv envp argc envc im p b
  | script (p : Word) (b : Block) (sc : Script) (count : Int) (magic : isScript im.b_data = true)
      (parsed : parseScript im.b_data = some sc)
      (copied : copyScript (scriptSegs s.user k.buf sc) k.buf sc s.block filename argv envp argc
        envc = .ok (p, b, count)) :
      Copies k s filename argv envp argc envc im p b

theorem execError1_freed (s : State F) (retval : Int) (h : Holds m₀ b)
    (hm : Paged z counted held m₀) :
    ∃ mem, execError1 s b retval = .ok (retval, { s with mem := mem }) ∧
      mem.memMap = m₀.memMap := by
  obtain ⟨mem, hmem, hmap⟩ := freePages_spec h hm
  refine ⟨mem, ?_, hmap⟩
  unfold execError1
  rw [hmem]
  rfl

theorem ListAt.orFault_count {user : Segment} {argv : Nat} {l : List (List Byte)}
    (h : ListAt user argv l) :
    orFault (do let n ← user.count argv; return (n : Int)) = .ok (l.length : Int) := by
  rw [h.count]
  rfl

theorem Opened.exec {k : Kernel F} {s : State F} {filename argv envp : Nat} {im : Image}
    {files : F} {args env : List (List Byte)} (h : Opened k s filename im files)
    (hargs : ListAt s.user argv args) (henv : ListAt s.user envp env) :
    doExecve k s filename argv envp
      = if isScript im.b_data then
          execScript k { s with files := files } im s.block filename argv envp args.length
            env.length
        else
          execBinary k { s with files := files } im s.block argv envp args.length env.length
            none := by
  obtain ⟨hmode, inode, files₁, hname, himage⟩ := h
  unfold doExecve
  rw [if_neg (not_not.mpr hmode), hname]
  dsimp only
  rw [hargs.orFault_count, henv.orFault_count]
  simp only [himage]
  rfl

/-- Without room for the arguments `do_execve` fails, and their pages are free again. -/
theorem doExecve_enomem {k : Kernel F} {s : State F} {filename argv envp : Nat} {im : Image}
    {files : F} {name : List Byte} {args env : List (List Byte)}
    (hm : Paged z counted held s.mem) (hopen : Opened k s filename im files)
    (hgiven : Given k s filename argv envp name args env)
    (hcopies : Copies k s filename argv envp args.length env.length im 0 b) :
    ∃ files' mem, doExecve k s filename argv envp
        = .ok (-ENOMEM, { s with files := files', mem := mem }) ∧ mem.memMap = s.mem.memMap := by
  have hstart : Holds s.mem s.block := .start s.mem .user
  rw [hopen.exec hgiven.args hgiven.env]
  cases hcopies with
  | binary magic ok copied =>
      have hcopied := copyBinary_ok hstart rfl hgiven.args hgiven.env copied
      rw [magic, if_neg Bool.false_ne_true]
      unfold execBinary
      dsimp only
      rw [if_neg (not_not.mpr ok), copied]
      obtain ⟨mem, herror, hmap⟩ := execError1_freed
        { s with files := k.iput (k.brelse files) im.inode } (-ENOMEM) hcopied.holds hm
      exact ⟨_, mem, herror, hmap⟩
  | script sc count magic parsed copied =>
      obtain ⟨sh, -, hsc⟩ := parseScript_spec parsed k.buf
      obtain ⟨hcopied, -⟩ := copyScript_ok hstart rfl hgiven.args hgiven.env hgiven.name
        hgiven.file hgiven.buf hsc copied
      rw [magic, if_pos rfl]
      unfold execScript
      dsimp only
      rw [parsed]
      dsimp only
      rw [copied]
      obtain ⟨mem, herror, hmap⟩ := execError1_freed
        { s with files := k.iput (k.brelse files) im.inode } (-ENOMEM) hcopied.holds hm
      exact ⟨_, mem, herror, hmap⟩

/-! ## A file system with one file -/

/-- At 4 a list of one string, which is at 0x1000 and has `n` bytes. -/
def row (n : Nat) : Segment where
  byte a := if a = 5 then 0x10 else if 4096 ≤ a ∧ a < 4096 + n then 97 else 0
  limit := DATA_LIMIT

theorem row_string {n : Nat} (hn : n < 0x1000000) :
    StringAt (row n) 0x1000 (List.replicate n 97) := by
  have hbyte : ∀ a, 4096 ≤ a → a ≤ 4096 + n →
      (row n).get a = some (if a < 4096 + n then 97 else 0) := by
    intro a hlo hhi
    have hlim : a < DATA_LIMIT := by
      unfold DATA_LIMIT
      omega
    unfold Segment.get
    rw [if_pos (show a < (row n).limit from hlim)]
    unfold row
    simp only [show a ≠ 5 by omega, hlo, true_and, if_false]
  refine ⟨fun j hj => ?_, fun c hc => ?_, ?_⟩
  · rw [List.length_replicate] at hj
    rw [hbyte _ (by omega) (by omega), if_pos (by omega), List.getElem_replicate]
  · rw [List.eq_of_mem_replicate hc]
    decide
  · rw [List.length_replicate, hbyte _ (by omega) (Nat.le_refl _), if_neg (by omega)]

theorem row_long (n : Nat) {a : Nat} (ha : a + 3 < 4096) : (row n).long a = (row 0).long a := by
  have hbyte : ∀ a < 4096, (row n).byte a = (row 0).byte a := by
    intro a ha
    unfold row
    simp only [show ¬4096 ≤ a by omega, false_and]
  unfold Segment.long word
  rw [hbyte _ ha, hbyte _ (by omega), hbyte _ (by omega), hbyte _ (by omega)]
  rfl

theorem row_list {n : Nat} (hn : n < 0x1000000) : ListAt (row n) 4 [List.replicate n 97] := by
  refine ⟨fun i hi => ?_, fun _ => ?_, fun h => absurd h (by decide)⟩
  · obtain rfl : i = 0 := by
      have : i < 1 := hi
      omega
    exact ⟨0x1000, (row_long n (by decide)).trans rfl, by decide, row_string hn⟩
  · exact (row_long n (a := 8) (by decide)).trans rfl

theorem row_none (n : Nat) : ListAt (row n) 0 [] :=
  ⟨fun _ hi => absurd hi (Nat.not_lt_zero _), fun h => absurd rfl h, fun _ => rfl⟩

def file : Inode := ⟨1, 0o100755, 0, 0, 1024⟩

/-- A header without text. -/
def firstBlock (k : Nat) : Byte := if k = 0 then 0x0B else if k = 1 then 1 else 0

/-- A file system with one file. -/
def disk : Kernel Unit where
  namei _ _ _ := (some file, ())
  bread _ _ := (some firstBlock, ())
  brelse := id
  iput _ _ := ()
  sysClose _ _ := ()
  buf := 0x10000
  fresh _ := 0

def caller (n : Nat) (mem : Mem) : State Unit where
  files := ()
  mem := mem
  user := row n
  task := noTask
  frame := ⟨0, 0x0f, 0, 0, 0⟩
  math := false

def fileImage : Image := ⟨file, 0, 0, firstBlock⟩

theorem caller_opened (n : Nat) (mem : Mem) : Opened disk (caller n mem) 0x1000 fileImage () := by
  have hopen : openImage disk noTask () file = (.inr fileImage, ()) :=
    (if_neg (by decide)).trans (if_neg (by decide))
  exact ⟨(by decide : (0x0f : Word) &&& 0xffff = 0x0f), file, (), rfl, hopen⟩

/-- A machine where all pages are free. -/
def allPages : Zone := ⟨LOW_MEM, LOW_MEM + PAGING_PAGES, by decide, by decide⟩

theorem allPages_free (rest : Nat → Slot → Word) :
    (freeFrames (memInit rest allPages.start allPages.stop)).card = PAGING_PAGES := by
  have hfree : freeFrames (memInit rest allPages.start allPages.stop)
      = Finset.Ico LOW_MEM (LOW_MEM + PAGING_PAGES) :=
    Finset.filter_true_of_mem fun q hq => if_pos (Finset.mem_Ico.mp hq)
  rw [hfree, Nat.card_Ico, Nat.add_sub_cancel_left]

/-- Where there is no environment, a binary's first call copies nothing. -/
theorem copyBinary_no_env (user : Segment) (b : Block) (argv : Nat) (argc : Int) :
    copyBinary user b argv 0 argc ((([] : List (List Byte)).length : Nat) : Int)
      = copyStrings (fun _ => user) argc (.user argv) b TOP 0 := by
  have hfirst : copyStrings (fun _ => user) ((([] : List (List Byte)).length : Nat) : Int)
      (.user 0) b TOP 0 = .ok (TOP, b) := rfl
  unfold copyBinary
  dsimp only
  rw [show BitVec.ofNat 32 (PAGE_SIZE * MAX_ARG_PAGES - 4) = TOP from rfl, hfirst]
  rfl

theorem caller_exec {n : Nat} (mem : Mem) (hn : n < 0x1000000) :
    doExecve disk (caller n mem) 0x1000 4 0
      = (copyStrings (fun _ => row n) 1 (.user 4) (caller n mem).block TOP 0 >>= fun r =>
          if r.1 = 0 then execError2 disk (caller n mem) r.2 file (-ENOMEM)
          else install disk (caller n mem) fileImage r.2 r.1 1 0) := by
  rw [(caller_opened n mem).exec (row_list hn) (row_none n)]
  have hmagic : isScript fileImage.b_data = false := rfl
  rw [hmagic, if_neg Bool.false_ne_true]
  unfold execBinary
  dsimp only
  rw [if_neg (by decide)]
  have hcopies := copyBinary_no_env (row n) (caller n mem).block 4 1
  have hcall : copyBinary (caller n mem).user (caller n mem).block 4 0
      (([List.replicate n (97 : Byte)].length : Nat) : Int)
      ((([] : List (List Byte)).length : Nat) : Int)
      = copyStrings (fun _ => row n) 1 (.user 4) (caller n mem).block TOP 0 := hcopies
  rw [hcall]
  rfl

/-- A machine without pages. -/
def noPages : Zone := ⟨LOW_MEM + PAGING_PAGES, LOW_MEM + PAGING_PAGES, by decide, by decide⟩

theorem noPages_full :
    ∃ b, copyStrings (fun _ => row 3) 1 (.user 4) (caller 3
      (memInit (fun _ _ => 0) noPages.start noPages.stop)).block TOP 0 = .ok (0, b) := by
  have hone : (1 : Int).toNat = [List.replicate 3 (97 : Byte)].length := rfl
  have hargs : Strings (fun _ => row 3) (.user 4) 0 [List.replicate 3 97] :=
    (row_list (by omega)).copied
  have hresult := copyStrings_result
    (Holds.start (memInit (fun _ _ => 0) noPages.start noPages.stop) .user) rfl (p := TOP)
    (by decide) hargs hone (by decide)
  have hused : ∀ f, (memInit (fun _ _ => 0) noPages.start noPages.stop).memMap f ≠ 0 := by
    intro f
    have hmap : (memInit (fun _ _ => 0) noPages.start noPages.stop).memMap f = USED :=
      if_neg fun h => Nat.lt_irrefl _ (Nat.lt_of_le_of_lt h.1 h.2)
    rw [hmap]
    decide
  show ∃ b, copyStrings _ _ _ ⟨memInit (fun _ _ => 0) noPages.start noPages.stop, fun _ => none,
      .user⟩ _ _ = .ok (0, b)
  generalize copyStrings (fun _ => row 3) 1 (.user 4)
    ⟨memInit (fun _ _ => 0) noPages.start noPages.stop, fun _ => none, .user⟩ TOP 0 = r at hresult
  cases hresult with
  | placed p' b' h =>
      obtain ⟨i, f, -, hf, -⟩ := area_some (h.bytes 0 (by decide))
      exact absurd (h.holds.free i f hf).2 (hused f)
  | full b' short => exact ⟨b', rfl⟩
  | wild short =>
      refine absurd ?_ short
      have hfree : freeFrames (memInit (fun _ _ => 0) noPages.start noPages.stop) = ∅ :=
        Finset.filter_eq_empty_iff.mpr fun q _ => hused q
      have hpage : 0 < MAX_ARG_PAGES := by decide
      have hlack : ⟨0, hpage⟩ ∈ lacking (fun _ => none) TOP.toNat :=
        Finset.mem_filter.mpr ⟨Finset.mem_univ _, (by decide : 0 * PAGE_SIZE < TOP.toNat), rfl⟩
      unfold Short
      dsimp only
      rw [hfree, Finset.card_empty]
      exact Finset.card_pos.mpr ⟨_, hlack⟩

/-! ## Too many arguments -/

/-- For valid lists of strings of any number and length: a call copies its strings or
returns 0 exactly if they fit below `p`, or a page is missing before they do not. And
where the calls of `do_execve` end with 0, it fails with `ENOMEM` and has freed the
pages, so that every count is what it was before. -/
theorem arguments_refused (m₀ : Mem) :
    (∀ (segs : Fs → Segment) (b : Block) (p : Word) (argc : Int) (argv : Argv)
      (from_kmem : Nat) (strs : List (List Byte)), Holds m₀ b → b.fs = .user →
      p.toNat < MAX_ARG_PAGES * PAGE_SIZE → Strings segs argv from_kmem strs →
      argc.toNat = strs.length →
      (Returns m₀ b p (flat strs) (copyStrings segs argc argv b p from_kmem) ↔
        p = 0 ∨ (flat strs).length ≤ p.toNat ∨ Short b p)) ∧
    ∀ (F : Type) (k : Kernel F) (s : State F) (z : Zone) (counted : Pos → Bool) (held : Nat → Nat)
      (filename argv envp : Nat) (im : Image) (files : F) (name : List Byte)
      (args env : List (List Byte)) (b : Block), Paged z counted held s.mem →
      Opened k s filename im files → Given k s filename argv envp name args env →
      Copies k s filename argv envp args.length env.length im 0 b →
      ∃ files' mem, doExecve k s filename argv envp
          = .ok (-ENOMEM, { s with files := files', mem := mem }) ∧
        mem.memMap = s.mem.memMap :=
  ⟨fun _ _ _ _ _ _ _ h hfs hbound hstrs hargc => copyStrings_returns h hfs hbound hstrs hargc,
    fun _ _ _ _ _ _ _ _ _ _ _ _ _ _ _ hm hopen hgiven hcopies =>
      doExecve_enomem hm hopen hgiven hcopies⟩

/-- An argument of three bytes, with enough pages and with none. -/
theorem arguments_refused_short :
    (Returns (memInit (fun _ _ => 0) allPages.start allPages.stop)
      ⟨memInit (fun _ _ => 0) allPages.start allPages.stop, fun _ => none, .user⟩ TOP
      [97, 97, 97, 0]
      (copyStrings (fun _ => row 3) 1 (.user 4)
        ⟨memInit (fun _ _ => 0) allPages.start allPages.stop, fun _ => none, .user⟩ TOP 0)) ∧
    ∃ files' mem, doExecve disk (caller 3 (memInit (fun _ _ => 0) noPages.start noPages.stop))
        0x1000 4 0
        = .ok (-ENOMEM, { caller 3 (memInit (fun _ _ => 0) noPages.start noPages.stop) with
          files := files', mem := mem }) ∧
      mem.memMap = (memInit (fun _ _ => 0) noPages.start noPages.stop).memMap := by
  constructor
  · exact ((arguments_refused _).1 (fun _ => row 3) _ TOP 1 (.user 4) 0 [[97, 97, 97]]
      (.start _ .user) rfl (by decide) (row_list (n := 3) (by omega)).copied rfl).mpr
      (.inr (.inl (by decide)))
  · obtain ⟨b, hcall⟩ := noPages_full
    have hmagic : isScript fileImage.b_data = false := rfl
    exact (arguments_refused b.mem).2 Unit disk _ noPages user _ 0x1000 4 0 fileImage () [97, 97, 97]
      [[97, 97, 97]] [] b (tasks_start noPages _).paged (caller_opened 3 _)
      ⟨row_string (n := 3) (by omega), by decide, row_list (n := 3) (by omega), row_none 3,
        by decide⟩
      (.binary 0 b hmagic (by decide) ((copyBinary_no_env _ _ 4 1).trans hcall))

theorem length_flat_replicate (n : Nat) :
    (flat [List.replicate n (97 : Byte)]).length = n + 1 := by
  simp only [flat, List.flatMap_cons, List.flatMap_nil, List.append_nil, List.length_append,
    List.length_replicate, List.length_singleton]

/-- An argument of 131068 bytes. -/
theorem not_arguments_refused :
    doExecve disk (caller 131068 (memInit (fun _ _ => 0) allPages.start allPages.stop)) 0x1000 4 0
      = .error .wildIndex := by
  have hone : (1 : Int).toNat = [List.replicate 131068 (97 : Byte)].length := rfl
  have hargs : Strings (fun _ => row 131068) (.user 4) 0 [List.replicate 131068 97] :=
    (row_list (by omega)).copied
  have hresult := copyStrings_result
    (Holds.start (memInit (fun _ _ => 0) allPages.start allPages.stop) .user) rfl (p := TOP)
    (by decide) hargs hone (by decide)
  rw [caller_exec _ (by omega)]
  have hlen : (flat [List.replicate 131068 (97 : Byte)]).length = 131069 :=
    length_flat_replicate 131068
  have hcall : copyStrings (fun _ => row 131068) 1 (.user 4) (caller 131068
      (memInit (fun _ _ => 0) allPages.start allPages.stop)).block TOP 0 = .error .wildIndex := by
    show copyStrings _ _ _ ⟨memInit (fun _ _ => 0) allPages.start allPages.stop, fun _ => none,
      .user⟩ _ _ = _
    generalize copyStrings (fun _ => row 131068) 1 (.user 4)
      ⟨memInit (fun _ _ => 0) allPages.start allPages.stop, fun _ => none, .user⟩ TOP 0 = r
      at hresult
    cases hresult with
    | placed p' b' h =>
        have hsum : p'.toNat + (flat [List.replicate 131068 (97 : Byte)]).length = 131068 :=
          h.length
        omega
    | full b' short =>
        refine absurd short ((Holds.start _ .user).not_short ?_)
        rw [allPages_free]
        decide
    | wild => rfl
  rw [hcall]
  rfl

end Exec

end Linux011
