import Linux011.ExecHeader
import Linux011.ExecSpace
import Linux011.ExecTables

/-!
# The arguments of a program that runs

After a successful `do_execve` the stack of the new program has the strings that were given
(`arguments_delivered`). A script loses one of its strings if there is no `argv[0]`.

The modules before are put together along `do_execve`. For a call that succeeds, `execBinary_ok`
and `execScript_ok` give the strings that were copied, and with them the row of bytes at the end
of the data segment; `install_spec` goes through the point of no return to the stack of the new
program, and `Tables` says what it has there. The count that `create_tables` is given is that of
the strings for a binary. For a script it is `argc` plus the interpreter, its argument and the
name of the file, less the old `argv[0]`; if there was none, one string is not counted, and with
a count that is too small the program does not find its arguments (`Tables.not_delivered`). So
the two directions of the result are two lemmas about `install`.
-/

namespace Linux011

open Function

namespace Exec

variable {m₀ : Mem} {b : Block} {z : Zone} {counted : Pos → Bool} {held : Nat → Nat} {nr : Nat}

/-! ## The point of no return -/

variable {F : Type}

/-- Where the first string is, when the strings have `n` bytes. -/
def stringsStart (n : Nat) : Nat := DATA_LIMIT - 4 - n

/-- With the strings copied, `install` goes on to the zeros behind the data, which a stack with as
many strings as are counted is below. -/
theorem install_spec (k : Kernel F) {s : State F} (im : Image) {b₀ : Block} {p : Word}
    {args env rest : List (List Byte)} (hr : Ready z counted held s.task nr m₀)
    (hc : Copying m₀ b₀ (args ++ env ++ rest) p b) (hp : p ≠ 0)
    (hne : ∀ str ∈ args ++ env ++ rest, ∀ c ∈ str, c ≠ 0) :
    ∃ user : Segment, user.limit = DATA_LIMIT ∧
      Tables user (stringsStart (flat (args ++ env ++ rest)).length)
        (stackStart (stringsStart (flat (args ++ env ++ rest)).length) args.length env.length)
        args env ∧
      (∀ u, zeroFill user (header im.b_data) = .ok u →
        ∃ s', install k s im b p args.length env.length = .ok (0, s')) ∧
      ∀ s', install k s im b p args.length env.length = .ok (0, s') →
        zeroFill user (header im.b_data) = .ok s'.user ∧ s'.frame.esp = BitVec.ofNat 32
          (stackStart (stringsStart (flat (args ++ env ++ rest)).length) args.length
            env.length) := by
  have hplaced := hc.placed hp
  have hlen : p.toNat + (flat (args ++ env ++ rest)).length = 131068 := hplaced.length
  have hcount := length_le_flat (args ++ env ++ rest)
  rw [List.length_append, List.length_append] at hcount
  obtain ⟨m₁, m₂, hm₁, hm₂, he⟩ := hr.freed hc.holds
  have hput := fun i f => he.putPages (i := i) (f := f) hr.paged hc.holds hr.lt hr.counted
  have hstart : stringsStart (flat (args ++ env ++ rest)).length
      = DATA_LIMIT - MAX_ARG_PAGES * PAGE_SIZE + p.toNat := by
    simp only [stringsStart, DATA_LIMIT, MAX_ARG_PAGES, PAGE_SIZE]
    omega
  generalize stringsStart (flat (args ++ env ++ rest)).length = a at hstart ⊢
  have haddr : p + BitVec.ofNat 32 DATA_LIMIT - BitVec.ofNat 32 (MAX_ARG_PAGES * PAGE_SIZE)
      = BitVec.ofNat 32 a := by
    apply BitVec.eq_of_toNat_eq
    simp only [DATA_LIMIT, MAX_ARG_PAGES, PAGE_SIZE] at hstart ⊢
    rw [BitVec.toNat_sub, BitVec.toNat_add, toNat_ofNat (by omega), toNat_ofNat (by omega),
      toNat_ofNat (by omega)]
    omega
  have hseen : Listed (seen (putPages m₂ b.page (nr * TASK_SIZE)) (nr * TASK_SIZE) k.fresh) a
      (args ++ env ++ rest) := by
    refine .of_flat (fun j hj => ?_) hne
    have hbyte := seen_byte k.fresh hr.lt hput (hplaced.bytes j hj)
    unfold Segment.get
    rw [hstart, Nat.add_assoc, if_pos, hbyte]
    show _ < DATA_LIMIT
    simp only [DATA_LIMIT, MAX_ARG_PAGES, PAGE_SIZE]
    omega
  obtain ⟨user, htables, hwrote, hstack⟩ := createTables_spec hseen (by
      simp only [DATA_LIMIT, MAX_ARG_PAGES, PAGE_SIZE] at hstart
      omega) (by
      show a ≤ DATA_LIMIT
      simp only [DATA_LIMIT, MAX_ARG_PAGES, PAGE_SIZE] at hstart ⊢
      omega) (show DATA_LIMIT < 0x100000000 by decide)
  have htask : s.task.codeBase = nr * TASK_SIZE := hr.bases.1
  refine ⟨user, hwrote.limit, hstack, ?_⟩
  unfold install changeLdt
  dsimp only
  rw [hm₁, haddr, htask]
  simp only [ofMemory, bind, Except.bind]
  rw [hm₂]
  dsimp only
  rw [htables]
  dsimp only
  cases zeroFill user (header im.b_data) with
  | error e =>
      constructor
      · intro u hu
        cases hu
      · intro s' hs
        cases hs
  | ok u =>
      refine ⟨fun _ _ => ⟨_, rfl⟩, fun s' hs => ?_⟩
      obtain ⟨-, rfl⟩ := Prod.mk.inj (Except.ok.inj hs)
      exact ⟨rfl, rfl⟩

/-! ## What is expected -/

/-- The strings that the new program is to find. -/
def expected (b_data : Nat → Byte) (name : List Byte) (args : List (List Byte)) :
    List (List Byte) :=
  if isScript b_data then
    match shebang b_data with
    | some sh => scriptArgs sh name args
    | none => args
  else args

/-- The image that is run: the file itself, or the interpreter of a script. -/
inductive Runs (k : Kernel F) (s : State F) (files : F) (im : Image) : Image → Prop where
  | binary (magic : isScript im.b_data = false) : Runs k s files im im
  | script (sc : Script) (inode : Inode) (im' : Image) (files₁ files₂ : F)
      (magic : isScript im.b_data = true) (parsed : parseScript im.b_data = some sc)
      (found : k.namei (k.iput (k.brelse files) im.inode) (scriptSegs s.user k.buf sc .kernel)
        (k.buf + sc.interp) = (some inode, files₁))
      (opened : openImage k s.task files₁ inode = (.inr im', files₂)) : Runs k s files im im'

/-- The zeros behind the data are not written to the stack. -/
def Clear (ex : Header) (strs env : List (List Byte)) : Prop :=
  ∀ i ∈ fillAddrs PAGE_SIZE (ex.a_text + ex.a_data),
    i.toNat < stackStart (stringsStart (flat (strs ++ env)).length) strs.length env.length ∨
      DATA_LIMIT - 4 ≤ i.toNat

theorem stack_bounds {strs env : List (List Byte)} (h : (flat (strs ++ env)).length ≤ 131068) :
    stackStart (stringsStart (flat (strs ++ env)).length) strs.length env.length + 12
        + 4 * (strs.length + 1) + 4 * (env.length + 1) ≤ stringsStart (flat (strs ++ env)).length ∧
      0x3001000 ≤ stackStart (stringsStart (flat (strs ++ env)).length) strs.length env.length ∧
      stringsStart (flat (strs ++ env)).length + (flat (strs ++ env)).length = DATA_LIMIT - 4 := by
  have hcount := length_le_flat (strs ++ env)
  rw [List.length_append] at hcount
  simp only [stackStart, stringsStart, DATA_LIMIT]
  omega

theorem fill_below {ex : Header} (hsize : sizeSum ex ≤ 0x3000000) {i : Word}
    (hi : i ∈ fillAddrs PAGE_SIZE (ex.a_text + ex.a_data)) : i.toNat < 0x3001000 := by
  obtain ⟨-, k, hk, rfl, -⟩ := mem_fillAddrs hi
  have hk : k < 4096 := hk
  unfold sizeSum at hsize
  bv_omega

/-- Without a wrapped sum in the header the zeros are far below the stack. -/
theorem clear_of_size {ex : Header} {strs env : List (List Byte)} (hsize : sizeSum ex ≤ 0x3000000)
    (h : (flat (strs ++ env)).length ≤ 131068) : Clear ex strs env := by
  obtain ⟨-, hstart, -⟩ := stack_bounds h
  exact fun i hi => .inl (Nat.lt_of_lt_of_le (fill_below hsize hi) hstart)

theorem Tables.kept {user u : Segment} {ex : Header} {strs env : List (List Byte)}
    (h : Tables user (stringsStart (flat (strs ++ env)).length)
      (stackStart (stringsStart (flat (strs ++ env)).length) strs.length env.length) strs env)
    (hlim : user.limit = DATA_LIMIT) (hfit : (flat (strs ++ env)).length ≤ 131068)
    (hclear : Clear ex strs env) (hfill : zeroFill user ex = .ok u) :
    Delivered u (stackStart (stringsStart (flat (strs ++ env)).length) strs.length env.length)
      strs env := by
  obtain ⟨hstack, -, hend⟩ := stack_bounds hfit
  obtain ⟨hlimit, hbyte⟩ := zeroFill_spec hfill
  refine (h.congr hlimit hstack fun x hlo hhi => ?_).delivered ?_ ?_
  · refine (hbyte x).resolve_right ?_
    rintro ⟨-, i, hi, rfl⟩
    rcases hclear i hi with hlt | hge
    · omega
    · omega
  · rw [hlimit, hlim]
    decide
  · omega

/-- With a count that is too small the program does not find its arguments. -/
theorem Tables.not_delivered {user u : Segment} {ex : Header} {a q : Nat}
    {args env strs environ : List (List Byte)} (h : Tables user a q args environ)
    (hlt : args.length < strs.length) (hstrs : strs.length < 0x100000000)
    (hfill : zeroFill user ex = .ok u) : ¬Delivered u q strs env := by
  intro hd
  obtain ⟨hlimit, hbyte⟩ := zeroFill_spec hfill
  obtain ⟨v, hv, hle⟩ := long_le hlimit (fun x => (hbyte x).imp_right fun hx => hx.1) h.argc
  rw [hd.argc] at hv
  obtain rfl := Option.some.inj hv
  rw [toNat_ofNat hstrs, toNat_ofNat (by omega)] at hle
  omega

/-! ## A run that succeeds -/

theorem execError1_ne {s s' : State F} {retval : Int} (h : retval ≠ 0) :
    execError1 s b retval ≠ .ok (0, s') := by
  intro hr
  obtain ⟨mem, -, hr⟩ := Loops.bind_eq_ok hr
  exact h (Prod.mk.inj (Except.ok.inj hr)).1

theorem execBinary_ok {k : Kernel F} {s s' : State F} {im : Image} {argv envp : Nat}
    {argc envc : Int} (h : execBinary k s im b argv envp argc envc none = .ok (0, s')) :
    ∃ p b', copyBinary s.user b argv envp argc envc = .ok (p, b') ∧ p ≠ 0 ∧
      install k { s with files := k.brelse s.files } im b' p argc envc = .ok (0, s') := by
  unfold execBinary at h
  dsimp only at h
  split at h
  · exact absurd h (execError1_ne (by decide))
  · obtain ⟨⟨p, b'⟩, hcopy, h⟩ := Loops.bind_eq_ok h
    dsimp only at h
    split at h
    · exact absurd h (execError1_ne (by decide))
    · exact ⟨p, b', hcopy, by assumption, h⟩

theorem execScript_ok {k : Kernel F} {s s' : State F} {im im' : Image} {sc : Script}
    {inode : Inode} {files files₁ files₂ : F} {filename argv envp : Nat} {argc envc : Int}
    (hparse : parseScript im.b_data = some sc) (hfiles : k.iput (k.brelse s.files) im.inode = files)
    (hname : k.namei files (scriptSegs s.user k.buf sc .kernel) (k.buf + sc.interp)
      = (some inode, files₁)) (hopen : openImage k s.task files₁ inode = (.inr im', files₂))
    (h : execScript k s im b filename argv envp argc envc = .ok (0, s')) :
    ∃ p b' argc', copyScript (scriptSegs s.user k.buf sc) k.buf sc b filename argv envp argc envc
        = .ok (p, b', argc') ∧ p ≠ 0 ∧
      install k { s with files := k.brelse files₂ } im' b' p argc' envc = .ok (0, s') := by
  subst hfiles
  unfold execScript at h
  dsimp only at h
  rw [hparse] at h
  dsimp only at h
  obtain ⟨⟨p, b', argc'⟩, hcopy, h⟩ := Loops.bind_eq_ok h
  dsimp only at h
  split at h
  · exact absurd h (execError1_ne (by decide))
  · rename_i hp
    rw [hname] at h
    dsimp only at h
    rw [hopen] at h
    dsimp only [execBinary] at h
    split at h
    · exact absurd h (execError1_ne (by decide))
    · exact ⟨p, b', argc', hcopy, hp, h⟩

theorem ListAt.nonzero {user : Segment} {argv : Nat} {strs : List (List Byte)}
    (h : ListAt user argv strs) : ∀ str ∈ strs, ∀ c ∈ str, c ≠ 0 := by
  intro str hstr
  obtain ⟨i, hi, rfl⟩ := List.mem_iff_getElem.mp hstr
  obtain ⟨v, -, -, hat⟩ := h.strings i hi
  exact hat.nonzero

theorem Found.nonzero {sc : Script} {sh : Shebang} {base : Nat} {name : List Byte}
    {args : List (List Byte)} (h : Found sc sh base) (hname : ∀ c ∈ name, c ≠ 0)
    (hargs : ∀ str ∈ args, ∀ c ∈ str, c ≠ 0) :
    ∀ str ∈ scriptArgs sh name args, ∀ c ∈ str, c ≠ 0 := by
  intro str hstr
  rcases List.mem_cons.mp hstr with rfl | hstr
  · exact h.i_name.nonzero
  · rcases List.mem_append.mp hstr with hstr | hstr
    · cases hi : sc.i_arg with
      | none =>
          rw [h.no_arg hi] at hstr
          cases hstr
      | some i =>
          obtain ⟨arg, harg, hat⟩ := h.i_arg i hi
          rw [harg] at hstr
          obtain rfl := List.mem_singleton.mp hstr
          exact hat.nonzero
    · rcases List.mem_cons.mp hstr with rfl | hstr
      · exact hname
      · exact hargs str (List.mem_of_mem_tail hstr)

theorem Copying.length {strs : List (List Byte)} {p : Word} {b₀ : Block}
    (h : Copying m₀ b₀ strs p b) (hp : p ≠ 0) : (flat strs).length ≤ 131068 := by
  have hlen : p.toNat + (flat strs).length = 131068 := (h.placed hp).length
  omega

theorem install_delivered {k : Kernel F} {s s' : State F} {im : Image} {b₀ : Block} {p : Word}
    {strs env : List (List Byte)} (hr : Ready z counted held s.task nr m₀)
    (hc : Copying m₀ b₀ (strs ++ env) p b) (hp : p ≠ 0)
    (hne : ∀ str ∈ strs ++ env, ∀ c ∈ str, c ≠ 0) (hclear : Clear (header im.b_data) strs env)
    (hok : install k s im b p strs.length env.length = .ok (0, s')) :
    Delivered s'.user s'.frame.esp.toNat strs env := by
  have hfit := hc.length hp
  rw [← List.append_nil (strs ++ env)] at hc hne
  obtain ⟨user, hlim, htables, -, hinstall⟩ := install_spec k im hr hc hp hne
  rw [List.append_nil] at htables hinstall
  obtain ⟨hfill, hesp⟩ := hinstall s' hok
  obtain ⟨hstack, -, hend⟩ := stack_bounds hfit
  rw [hesp, toNat_ofNat (by simp only [DATA_LIMIT] at hend; omega)]
  exact htables.kept hlim hfit hclear hfill

theorem install_not_delivered {k : Kernel F} {s s' : State F} {im : Image} {b₀ : Block}
    {p : Word} {args strs env : List (List Byte)} {str : List Byte}
    (hr : Ready z counted held s.task nr m₀) (hstrs : strs = args ++ [str])
    (hc : Copying m₀ b₀ (strs ++ env) p b) (hp : p ≠ 0)
    (hne : ∀ str ∈ strs ++ env, ∀ c ∈ str, c ≠ 0)
    (hok : install k s im b p args.length env.length = .ok (0, s')) :
    ¬Delivered s'.user s'.frame.esp.toNat strs env := by
  have hfit := hc.length hp
  have hcount := length_le_flat (strs ++ env)
  have hlen : strs.length = args.length + 1 := by rw [hstrs, List.length_append]; rfl
  -- the strings as `create_tables` counts them
  have hsplit : strs ++ env
      = args ++ (str :: env).dropLast ++ [(str :: env).getLast (by simp)] := by
    rw [hstrs, List.append_assoc, List.append_assoc, List.dropLast_append_getLast]
    rfl
  have henv : (str :: env).dropLast.length = env.length := by simp
  rw [hsplit] at hc hne
  obtain ⟨user, hlim, htables, -, hinstall⟩ := install_spec k im hr hc hp hne
  rw [← hsplit, henv] at htables hinstall
  obtain ⟨hfill, hesp⟩ := hinstall s' hok
  rw [List.length_append] at hcount
  rw [hesp, toNat_ofNat (by simp only [stackStart, stringsStart, DATA_LIMIT]; omega)]
  exact htables.not_delivered (by omega) (by omega) hfill

theorem script_run {k : Kernel F} {s s' : State F} {filename argv envp : Nat} {name : List Byte}
    {args env : List (List Byte)} {im im' : Image} {files : F}
    (hopen : Opened k s filename im files) (hgiven : Given k s filename argv envp name args env)
    (hruns : Runs k s files im im') (magic : isScript im.b_data = true)
    (hok : doExecve k s filename argv envp = .ok (0, s')) :
    ∃ sh files' p b, expected im.b_data name args = scriptArgs sh name args ∧ p ≠ 0 ∧
      Copying s.mem s.block (scriptArgs sh name args ++ env) p b ∧
      (∀ str ∈ scriptArgs sh name args ++ env, ∀ c ∈ str, c ≠ 0) ∧
      install k { s with files := files' } im' b p (args.length + sh.arg.toList.length + 1)
        env.length = .ok (0, s') := by
  rw [hopen.exec hgiven.args hgiven.env, magic, if_pos rfl] at hok
  cases hruns with
  | binary hbinary =>
      rw [magic] at hbinary
      cases hbinary
  | script sc inode _ files₁ files₂ _ parsed found opened =>
      obtain ⟨p, b, argc, hcopy, hp, hinstall⟩ := execScript_ok
        (s := { s with files := files }) parsed rfl found opened hok
      obtain ⟨sh, hsh, hsc⟩ := parseScript_spec parsed k.buf
      obtain ⟨hc, rfl⟩ := copyScript_ok (.start s.mem .user) rfl hgiven.args hgiven.env
        hgiven.name hgiven.file hgiven.buf hsc hcopy
      refine ⟨sh, k.brelse files₂, p, b, ?_, hp, hc, fun str hstr => ?_, hinstall⟩
      · unfold expected
        rw [magic, if_pos rfl, hsh]
      · exact (List.mem_append.mp hstr).elim
          (hsc.nonzero hgiven.name.nonzero hgiven.args.nonzero str) (hgiven.env.nonzero str)

/-- A script whose `argc` was 0 has one string more than are counted. -/
theorem script_unnamed {k : Kernel F} {s s' : State F} {filename argv envp : Nat}
    {name : List Byte} {env : List (List Byte)} {im im' : Image} {files : F}
    (hready : Ready z counted held s.task nr s.mem) (hopen : Opened k s filename im files)
    (hgiven : Given k s filename argv envp name [] env) (hruns : Runs k s files im im')
    (magic : isScript im.b_data = true) (hok : doExecve k s filename argv envp = .ok (0, s')) :
    ¬Delivered s'.user s'.frame.esp.toNat (expected im.b_data name []) env := by
  obtain ⟨sh, files', p, b, hexp, hp, hc, hne, hinstall⟩ :=
    script_run hopen hgiven hruns magic hok
  have hcount : (((baseName sh.path :: sh.arg.toList).length : Nat) : Int)
      = (([] : List (List Byte)).length : Int) + sh.arg.toList.length + 1 := by
    simp
  rw [← hcount] at hinstall
  rw [hexp]
  exact install_not_delivered (s := { s with files := files' }) hready
    (show scriptArgs sh name [] = baseName sh.path :: sh.arg.toList ++ [name] from rfl) hc hp hne
    hinstall

/-! ## Runs that succeed -/

theorem install_succeeds {k : Kernel F} {s : State F} {im : Image} {b₀ : Block} {p : Word}
    {args env rest : List (List Byte)} (hr : Ready z counted held s.task nr m₀)
    (hc : Copying m₀ b₀ (args ++ env ++ rest) p b) (hp : p ≠ 0)
    (hne : ∀ str ∈ args ++ env ++ rest, ∀ c ∈ str, c ≠ 0)
    (hsize : sizeSum (header im.b_data) ≤ 0x3000000) :
    ∃ s', install k s im b p args.length env.length = .ok (0, s') := by
  obtain ⟨user, hlim, -, hinstall, -⟩ := install_spec k im hr hc hp hne
  obtain ⟨u, hu⟩ := zeroFill_ok (s := user) fun i hi => by
    rw [hlim]
    exact Nat.lt_trans (fill_below hsize hi) (by decide)
  exact hinstall u hu

/-- With pages left, strings that fit and a proper header, `do_execve` succeeds. -/
theorem doExecve_succeeds {k : Kernel F} {s : State F} {filename argv envp : Nat}
    {name : List Byte} {args env : List (List Byte)} {im im' : Image} {files : F}
    (hready : Ready z counted held s.task nr s.mem) (hopen : Opened k s filename im files)
    (hgiven : Given k s filename argv envp name args env) (hruns : Runs k s files im im')
    (hheader : HeaderOk (header im'.b_data) im'.inode.i_size)
    (hsize : sizeSum (header im'.b_data) ≤ 0x3000000)
    (hfree : 2 * MAX_ARG_PAGES ≤ (freeFrames s.mem).card)
    (hfit : (flat (expected im.b_data name args ++ env)).length < TOP.toNat) :
    ∃ s', doExecve k s filename argv envp = .ok (0, s') := by
  have hstart : Holds s.mem s.block := .start s.mem .user
  rw [hopen.exec hgiven.args hgiven.env]
  cases hruns with
  | binary magic =>
      unfold expected at hfit
      rw [magic, if_neg Bool.false_ne_true] at hfit ⊢
      obtain ⟨p, b, hcopy, hp⟩ := copyBinary_room hstart rfl hgiven.args hgiven.env hfree hfit
      have hc := copyBinary_ok hstart rfl hgiven.args hgiven.env hcopy
      rw [← List.append_nil (args ++ env)] at hc
      obtain ⟨s', hs'⟩ := install_succeeds (k := k) (s := { s with files := k.brelse files })
        hready hc hp (fun str hstr => by
          rw [List.append_nil] at hstr
          exact (List.mem_append.mp hstr).elim (hgiven.args.nonzero str) (hgiven.env.nonzero str))
        hsize
      refine ⟨s', ?_⟩
      unfold execBinary
      dsimp only
      rw [if_neg (not_not.mpr hheader), hcopy]
      exact (if_neg hp).trans hs'
  | script sc inode _ files₁ files₂ magic parsed found opened =>
      obtain ⟨sh, hsh, hsc⟩ := parseScript_spec parsed k.buf
      unfold expected at hfit
      rw [magic, if_pos rfl] at hfit ⊢
      rw [hsh] at hfit
      obtain ⟨p, b, argc, hcopy, hp⟩ := copyScript_room hstart rfl hgiven.args hgiven.env
        hgiven.name hgiven.file hgiven.buf hsc hfree hfit
      obtain ⟨hc, hargc⟩ := copyScript_ok hstart rfl hgiven.args hgiven.env hgiven.name
        hgiven.file hgiven.buf hsc hcopy
      have hne : ∀ str ∈ scriptArgs sh name args ++ env, ∀ c ∈ str, c ≠ 0 := fun str hstr =>
        (List.mem_append.mp hstr).elim
          (hsc.nonzero hgiven.name.nonzero hgiven.args.nonzero str) (hgiven.env.nonzero str)
      -- the strings as they are counted
      obtain ⟨l₁, l₂, l₃, hsplit, hargc', hlen⟩ : ∃ l₁ l₂ l₃ : List (List Byte),
          scriptArgs sh name args ++ env = l₁ ++ l₂ ++ l₃ ∧ argc = l₁.length ∧
            l₂.length = env.length := by
        have hcount : (scriptArgs sh name args ++ env).length
            = sh.arg.toList.length + 2 + (args.length - 1) + env.length := by
          simp only [scriptArgs, List.cons_append, List.length_cons, List.length_append,
            List.length_tail]
          omega
        refine ⟨(scriptArgs sh name args ++ env).take argc.toNat,
          ((scriptArgs sh name args ++ env).drop argc.toNat).take env.length,
          ((scriptArgs sh name args ++ env).drop argc.toNat).drop env.length, ?_, ?_, ?_⟩
        · rw [List.append_assoc, List.take_append_drop, List.take_append_drop]
        · rw [List.length_take]
          omega
        · rw [List.length_take, List.length_drop]
          omega
      rw [hsplit] at hc hne
      obtain ⟨s', hs'⟩ := install_succeeds (k := k) (s := { s with files := k.brelse files₂ })
        hready hc hp hne hsize
      rw [hlen, ← hargc'] at hs'
      refine ⟨s', ?_⟩
      unfold execScript
      dsimp only
      rw [parsed]
      dsimp only
      rw [hcopy]
      simp only [bind, Except.bind]
      rw [if_neg hp, found]
      dsimp only
      rw [opened]
      dsimp only [execBinary]
      rw [if_neg (not_not.mpr hheader)]
      exact hs'

/-! ## A task with one page table -/

/-- Memory with a page table for task 1. -/
def taskMem : Mem :=
  match pageTable (memInit (fun _ _ => 0) allPages.start allPages.stop) (dirSlot TASK_SIZE) with
  | none => memInit (fun _ _ => 0) allPages.start allPages.stop
  | some (_, m) => m

theorem taskMem_ready :
    Ready allPages user (fun _ => 0) noTask 1 taskMem ∧
      2 * MAX_ARG_PAGES ≤ (freeFrames taskMem).card := by
  have hpaged := (tasks_start allPages fun _ _ => 0).paged
  have hcard := allPages_free fun _ _ => 0
  have hnone : ∀ d : Slot, 4 ≤ d.val →
      (memInit (fun _ _ => 0) allPages.start allPages.stop).tableOf d = none := by
    intro d hd
    rw [memInit_tableOf, if_neg (by omega)]
  have hdir : (dirSlot TASK_SIZE).val = 16 := rfl
  unfold taskMem
  generalize memInit (fun _ _ => 0) allPages.start allPages.stop = m₀ at hpaged hcard hnone ⊢
  have habsent : ¬Present (m₀.dir (dirSlot TASK_SIZE)) := by
    intro hpres
    have := hnone (dirSlot TASK_SIZE) (by omega)
    unfold Mem.tableOf at this
    rw [if_pos hpres] at this
    cases this
  rcases hpaged.pageTable_spec (dirSlot TASK_SIZE) with ⟨-, -, hfull⟩ | ⟨t, m, hsome, htab, -, hm⟩
  · rw [freeFrames_none hfull] at hcard
    cases hcard
  · rw [hsome]
    dsimp only
    unfold pageTable at hsome
    rw [if_neg habsent] at hsome
    obtain ⟨⟨tmp, m₁⟩, hget, he⟩ := Option.map_eq_some_iff.mp hsome
    obtain ⟨rfl, rfl⟩ := Prod.mk.inj he
    obtain ⟨hlow, hlt, -, hm₁⟩ := getFreePage_eq hget
    have hfrees := freeFrames_get hget
    have hnew : (m₁.write 0 (dirSlot TASK_SIZE) (entry tmp)).tableOf (dirSlot TASK_SIZE)
        = some tmp := by
      rw [htab.tableOf]
      exact update_self ..
    refine ⟨⟨hm, by decide, by decide, ⟨rfl, rfl⟩, ⟨by decide, Nat.le_refl _⟩, fun x hx => ?_,
      fun d hd hcode _ => ?_, dirSlot TASK_SIZE, tmp, .inl ?_, hnew, ⟨hlow, hlt⟩, ?_⟩, ?_⟩
    · have hx : x.1.val / 16 = 1 := hx
      exact decide_eq_true (show 16 ≤ x.1.val by omega)
    · rw [htab.tableOf, update_of_ne]
      · exact hnone d (by omega)
      · rintro rfl
        exact hcode (by decide)
    · decide
    · rw [hm₁]
      exact update_self ..
    · show 64 ≤ (freeFrames m₁).card
      have : PAGING_PAGES = 3840 := rfl
      omega

/-- `#!i`. -/
def scriptBlock (k : Nat) : Byte :=
  if k = 0 then 35 else if k = 1 then 33 else if k = 2 then 105 else if k = 3 then 10 else 0

/-- A file system with a script and its interpreter. -/
def scriptDisk : Kernel Unit :=
  { disk with
    namei := fun _ _ a => (some (if a = 0x1000 then { file with i_num := 2 } else file), ())
    bread := fun _ inode => (some (if inode.i_num = 2 then scriptBlock else firstBlock), ()) }

def scriptImage : Image := ⟨{ file with i_num := 2 }, 0, 0, scriptBlock⟩

theorem script_opened (n : Nat) (mem : Mem) :
    Opened scriptDisk (caller n mem) 0x1000 scriptImage () := by
  have hopen : openImage scriptDisk noTask () { file with i_num := 2 } = (.inr scriptImage, ()) :=
    (if_neg (by decide)).trans (if_neg (by decide))
  exact ⟨(by decide : (0x0f : Word) &&& 0xffff = 0x0f), _, (), rfl, hopen⟩

theorem script_runs (n : Nat) (mem : Mem) :
    Runs scriptDisk (caller n mem) () scriptImage fileImage := by
  have hsome : (parseScript scriptBlock).isSome = true := by decide +kernel
  obtain ⟨sc, hsc⟩ := Option.isSome_iff_exists.mp hsome
  have hopen : openImage scriptDisk noTask () file = (.inr fileImage, ()) :=
    (if_neg (by decide)).trans (if_neg (by decide))
  have hne : 0x10000 + sc.interp ≠ 0x1000 := by omega
  refine .script sc file fileImage () () rfl hsc ?_ hopen
  exact Prod.ext (congrArg some (if_neg hne)) rfl

/-! ## Delivery -/

/-- After a successful `do_execve` whose zeros are not on the stack the program finds
the strings it was given, arguments and environment with both tables and `argc`, exactly
if it is not a script without an `argv[0]`. A script finds those of its interpreter in
front, and without an `argv[0]` never the right ones. -/
theorem arguments_delivered {k : Kernel F} {s s' : State F} {filename argv envp : Nat}
    {name : List Byte} {args env : List (List Byte)} {im im' : Image} {files : F}
    (hready : Ready z counted held s.task nr s.mem) (hopen : Opened k s filename im files)
    (hgiven : Given k s filename argv envp name args env) (hruns : Runs k s files im im')
    (hok : doExecve k s filename argv envp = .ok (0, s')) :
    (Clear (header im'.b_data) (expected im.b_data name args) env →
      (Delivered s'.user s'.frame.esp.toNat (expected im.b_data name args) env ↔
        ¬(isScript im.b_data = true ∧ args = []))) ∧
    (isScript im.b_data = true ∧ args = [] →
      ¬Delivered s'.user s'.frame.esp.toNat (expected im.b_data name args) env) := by
  have hunnamed : isScript im.b_data = true ∧ args = [] →
      ¬Delivered s'.user s'.frame.esp.toNat (expected im.b_data name args) env := by
    rintro ⟨magic, rfl⟩
    exact script_unnamed hready hopen hgiven hruns magic hok
  refine ⟨fun hclear => ⟨fun hd hno => hunnamed hno hd, fun hnamed => ?_⟩, hunnamed⟩
  by_cases magic : isScript im.b_data = true
  · obtain ⟨sh, files', p, b, hexp, hp, hc, hne, hinstall⟩ :=
      script_run hopen hgiven hruns magic hok
    have hargs : 1 ≤ args.length := List.length_pos_iff.mpr fun h => hnamed ⟨magic, h⟩
    have hcount : ((scriptArgs sh name args).length : Int)
        = (args.length : Int) + sh.arg.toList.length + 1 := by
      simp only [scriptArgs, List.length_cons, List.length_append, List.length_tail]
      omega
    rw [hexp] at hclear ⊢
    rw [← hcount] at hinstall
    exact install_delivered (s := { s with files := files' }) hready hc hp hne hclear hinstall
  · have magic : isScript im.b_data = false := Bool.eq_false_iff.mpr magic
    have hexp : expected im.b_data name args = args := by
      unfold expected
      rw [magic, if_neg Bool.false_ne_true]
    obtain rfl : im' = im := by
      cases hruns with
      | binary _ => rfl
      | script _ _ _ _ _ hscript =>
          rw [magic] at hscript
          cases hscript
    rw [hopen.exec hgiven.args hgiven.env, magic, if_neg Bool.false_ne_true] at hok
    obtain ⟨p, b, hcopy, hp, hinstall⟩ := execBinary_ok hok
    have hc := copyBinary_ok (.start s.mem .user) rfl hgiven.args hgiven.env hcopy
    have hne : ∀ str ∈ args ++ env, ∀ c ∈ str, c ≠ 0 := fun str hstr =>
      (List.mem_append.mp hstr).elim (hgiven.args.nonzero str) (hgiven.env.nonzero str)
    rw [hexp] at hclear ⊢
    exact install_delivered (s := { s with files := k.brelse files }) hready hc hp hne hclear
      hinstall

/-- One argument for a binary. -/
theorem arguments_delivered_one :
    ∃ s', doExecve disk (caller 3 taskMem) 0x1000 4 0 = .ok (0, s') ∧
      Delivered s'.user s'.frame.esp.toNat [[97, 97, 97]] [] := by
  obtain ⟨hready, hfree⟩ := taskMem_ready
  have hgiven : Given disk (caller 3 taskMem) 0x1000 4 0 [97, 97, 97] [[97, 97, 97]] [] :=
    ⟨row_string (n := 3) (by omega), by decide, row_list (n := 3) (by omega), row_none 3, by decide⟩
  have hruns : Runs disk (caller 3 taskMem) () fileImage fileImage := .binary rfl
  obtain ⟨s', hs'⟩ := doExecve_succeeds hready (caller_opened 3 _) hgiven hruns (by decide)
    (by decide) hfree (by decide)
  refine ⟨s', hs', ?_⟩
  exact ((arguments_delivered hready (caller_opened 3 _) hgiven hruns hs').1
    (clear_of_size (by decide) (by decide))).mpr fun h => Bool.false_ne_true h.1

/-- A script without arguments: the name of its file is not among the strings that are counted. -/
theorem not_arguments_delivered :
    ∃ s', doExecve scriptDisk (caller 3 taskMem) 0x1000 0 0 = .ok (0, s') ∧
      ¬Delivered s'.user s'.frame.esp.toNat [[105], [97, 97, 97]] [] := by
  obtain ⟨hready, hfree⟩ := taskMem_ready
  have hgiven : Given scriptDisk (caller 3 taskMem) 0x1000 0 0 [97, 97, 97] [] [] :=
    ⟨row_string (n := 3) (by omega), by decide, row_none 3, row_none 3, by decide⟩
  have hexp : expected scriptBlock [97, 97, 97] [] = [[105], [97, 97, 97]] := by decide +kernel
  obtain ⟨s', hs'⟩ := doExecve_succeeds hready (script_opened 3 _) hgiven (script_runs 3 _)
    (by decide) (by decide) hfree (by
      show (flat (expected scriptBlock [97, 97, 97] [] ++ [])).length < TOP.toNat
      rw [hexp]
      decide)
  have hnot := script_unnamed hready (script_opened 3 _) hgiven (script_runs 3 _) rfl hs'
  have hexp : expected scriptImage.b_data [97, 97, 97] [] = [[105], [97, 97, 97]] := hexp
  rw [hexp] at hnot
  exact ⟨s', hs', hnot⟩

end Exec

end Linux011
