import Linux011.Cpu
import Linux011.TaskPages
import Linux011.UserAccess

/-!
# copy_process

`kernel/fork.c`: the page of the new task with its kernel stack, the copied page tables, and
the counts of what the child shares with its parent. When there is no page left, `fork`
fails with `EAGAIN` and has changed no count, no page directory entry and no table
(`copyProcess_eagain`).

`copy_process` takes a page, copies the page tables and only then counts what the child shares,
so that all that has to be undone when it fails is in memory. The result for a failure goes along
the order of the source: `Taken` is the memory with the page of the new task and nothing else,
`copyMem_undone` says that a copy of the page tables that runs out of pages is freed again by
`free_page_tables` with the counts of before, and giving the page back leaves the count of before
too. The page directory is followed word by word besides, because the books of `PageLedger` only
see which page tables there are. What stays of the attempt is that entries of the parent above
the first megabyte may have lost their write bit, which `NoTrace` says. For a success `Started`
lists what the child and its kernel stack are, for the module on the first return.
-/

namespace Linux011

open Function RefCount

theorem write_load (m : Mem) (a v : Word) :
    (m.write (a.toNat / 0x1000) (wordSlot a.toNat) v).phys (a.toNat / 0x1000) (wordSlot a.toNat)
      = v := by
  simp [Mem.write]

theorem write_load_of_ne (m : Mem) (a b v : Word) (ha : a.toNat % 4 = 0) (hb : b.toNat % 4 = 0)
    (hne : b ≠ a) :
    (m.write (a.toNat / 0x1000) (wordSlot a.toNat) v).phys (b.toNat / 0x1000) (wordSlot b.toNat)
      = m.phys (b.toNat / 0x1000) (wordSlot b.toNat) := by
  by_cases hframe : b.toNat / 0x1000 = a.toNat / 0x1000
  · have hslot : wordSlot b.toNat ≠ wordSlot a.toNat := fun e => by
      have e : b.toNat % 0x1000 / 4 = a.toNat % 0x1000 / 4 := congrArg Fin.val e
      exact hne (BitVec.eq_of_toNat_eq (by omega))
    rw [hframe, Mem.write]
    dsimp only
    rw [update_self, update_of_ne hslot]
  · rw [write_phys_of_ne hframe]

/-- The words of the physical memory. -/
instance : Cpu.Memory Mem where
  load m a := m.phys (a.toNat / 0x1000) (wordSlot a.toNat)
  store m a v := m.write (a.toNat / 0x1000) (wordSlot a.toNat) v
  load_store := write_load
  load_store_of_ne := write_load_of_ne

/-- A store in one frame is not seen in another. -/
theorem load_store_frame (m : Mem) {a b : Word} (v : Word)
    (h : b.toNat / 0x1000 ≠ a.toNat / 0x1000) :
    Cpu.Memory.load (Cpu.Memory.store m a v) b = Cpu.Memory.load m b :=
  congrFun (write_phys_of_ne h) _

namespace Fork

def PAGE_SIZE : Nat := 4096
def NR_OPEN : Nat := 20
def EAGAIN : Int := 11
def ENOMEM : Int := 12
def TASK_RUNNING : Word := 0
def TASK_UNINTERRUPTIBLE : Word := 2

/-- The fields that `copy_process` reads or changes. The descriptors of the code and data
segment are given by their base and `get_limit`. -/
structure TaskStruct where
  state : Word
  counter : Word
  priority : Word
  signal : Word
  kernelstack : Word
  start_code : Nat
  pid : Word
  father : Word
  leader : Word
  alarm : Word
  utime : Word
  stime : Word
  cutime : Word
  cstime : Word
  start_time : Word
  pwd : Option Nat
  root : Option Nat
  executable : Option Nat
  filp : Fin NR_OPEN → Option Nat
  codeBase : Nat
  codeLimit : Nat
  dataBase : Nat
  dataLimit : Nat

/-- Tasks are named by the address of their `task_struct`, files and inodes by their place
in the tables. `desc` are the tasks of the TSS and LDT descriptors. -/
structure State where
  mem : Mem
  task : Nat → Option Nat
  proc : Nat → TaskStruct
  current : Nat
  f_count : Nat → Nat
  i_count : Nat → Nat
  desc : Nat → Option Nat
  last_pid : Word
  jiffies : Word

inductive Panic where
  | separateInstructionsAndData
  | badDataLimit
  | memory (p : Linux011.Panic)

/-- The arguments of `copy_process` behind `nr`, from the stack of the parent. -/
structure Args where
  ebp : Word
  edi : Word
  esi : Word
  gs : Word
  none : Word
  ebx : Word
  ecx : Word
  edx : Word
  fs : Word
  es : Word
  ds : Word
  eip : Word
  cs : Word
  eflags : Word
  esp : Word
  ss : Word

/-- A function of `mm/memory.c`. -/
def ofMemory {α : Type} : Except Linux011.Panic α → Except Panic α
  | .ok a => .ok a
  | .error p => .error (.memory p)

/-- `p` is the address of the new task. -/
def copyMem (s : State) (nr p : Nat) : Except Panic (Int × State) :=
  let current := s.proc s.current
  if current.dataBase ≠ current.codeBase then .error .separateInstructionsAndData
  else if current.dataLimit < current.codeLimit then .error .badDataLimit
  else
    let new_base := nr * 0x4000000
    let s := { s with proc := update s.proc p { s.proc p with
      start_code := new_base, codeBase := new_base, dataBase := new_base } }
    do
      let (r, mem) ← ofMemory (copyPageTables s.mem current.dataBase new_base current.dataLimit)
      if r ≠ 0 then
        let mem ← ofMemory (freePageTables mem new_base current.dataLimit)
        pure (-ENOMEM, { s with mem := mem })
      else pure (0, { s with mem := mem })

/-- The words that `copy_process` puts on the kernel stack of the child, in this order. -/
def krnstack (first_return_from_kernel : Word) (a : Args) : List Word :=
  [a.ss &&& 0xffff, a.esp, a.eflags, a.cs &&& 0xffff, a.eip,
    a.ds &&& 0xffff, a.es &&& 0xffff, a.fs &&& 0xffff, a.gs &&& 0xffff,
    a.esi, a.edi, a.edx, first_return_from_kernel, a.ebp, a.ecx, a.ebx, 0]

/-- `++` of an unsigned short that a pointer leads to, if there is one. -/
def bump (count : Nat → Nat) : Option Nat → Nat → Nat
  | none => count
  | some i => update count i ((count i + 1) % 0x10000)

/-- The copy of the current task. -/
def child (s : State) : TaskStruct :=
  { s.proc s.current with
    state := TASK_UNINTERRUPTIBLE
    pid := s.last_pid
    father := (s.proc s.current).pid
    counter := (s.proc s.current).priority
    signal := 0
    alarm := 0
    leader := 0
    utime := 0
    stime := 0
    cutime := 0
    cstime := 0
    start_time := s.jiffies }

/-- The child with its page, before its memory is copied. -/
def newTask (first_return_from_kernel : Word) (s : State) (nr : Nat) (a : Args) (page : Nat)
    (mem : Mem) : State :=
  let stack := (Cpu.Stack.mk mem (BitVec.ofNat 32 (page * PAGE_SIZE + PAGE_SIZE))).pushAll
    (krnstack first_return_from_kernel a)
  { s with
    mem := stack.mem
    task := update s.task nr (some (page * PAGE_SIZE))
    proc := update s.proc (page * PAGE_SIZE) { child s with kernelstack := stack.esp } }

/-- The child is counted, gets its descriptors, and runs. -/
def startTask (s : State) (nr p : Nat) : State :=
  let current := s.proc s.current
  { s with
    f_count := (List.finRange NR_OPEN).foldl (fun count i => bump count ((s.proc p).filp i))
      s.f_count
    i_count := bump (bump (bump s.i_count current.pwd) current.root) current.executable
    desc := update s.desc nr (some p)
    proc := update s.proc p { s.proc p with state := TASK_RUNNING } }

def copyProcess (first_return_from_kernel : Word) (s : State) (nr : Nat) (a : Args) :
    Except Panic (Int × State) :=
  match getFreePage s.mem with
  | none => .ok (-EAGAIN, s)
  | some (page, mem) => do
    let p := page * PAGE_SIZE
    let (r, s) ← copyMem (newTask first_return_from_kernel s nr a page mem) nr p
    if r ≠ 0 then
      let mem ← ofMemory (freePage s.mem page)
      pure (-EAGAIN, { s with mem := mem, task := update s.task nr none })
    else pure (s.last_pid.toInt, startTask s nr p)

variable {z : Zone} {counted : Pos → Bool} {held : Nat → Nat} {s s' : State} {m m' : Mem}
  {nr src page : Nat} {a : Args} {label : Word}

/-! ## The page directory, word by word -/

/-- Page tables are not in the frame of the page directory. -/
def TablesApart (m : Mem) : Prop := ∀ d, Present (m.dir d) → m.table d ≠ 0

theorem dir_write {q : Nat} (hq : q ≠ 0) (i : Slot) (e : Word) : (m.write q i e).dir = m.dir := by
  funext d
  rw [Mem.dir, write_phys_of_ne hq.symm, Mem.dir]

theorem dir_getFreePage {t : Nat} (h : getFreePage m = some (t, m')) :
    m'.dir = m.dir ∧ t ≠ 0 ∧ frame (entry t) = t := by
  obtain ⟨hlow, hlt, -, rfl⟩ := getFreePage_eq h
  have h256 : LOW_MEM = 256 := rfl
  refine ⟨?_, by omega, frame_entry (Nat.lt_of_lt_of_le hlt (by decide))⟩
  funext d
  rw [Mem.dir, Mem.dir]
  dsimp only
  rw [update_of_ne (by omega)]

theorem dir_copyEntries {entries : List Slot} {ts td : Nat} (hs : ts ≠ 0) (hd : td ≠ 0) :
    (entries.foldl (copyEntry ts td) m).dir = m.dir := by
  induction entries generalizing m with
  | nil => rfl
  | cons i entries ih =>
      rw [List.foldl_cons, ih]
      unfold copyEntry
      split
      · dsimp only
        split
        · show ((m.write td i _).write ts i _).dir = m.dir
          rw [dir_write hs, dir_write hd]
        · exact dir_write hd ..
      · rfl

/-- `copy_page_tables` stores directory entries that are present, at the new places only. -/
theorem dir_copyDirs {entries : List Slot} {dirs : List (Slot × Slot)} {r : Int}
    (ht : TablesApart m) (h : copyDirs entries dirs m = .ok (r, m')) :
    TablesApart m' ∧ ∀ d, m'.dir d = m.dir d ∨ (∃ x ∈ dirs, x.2 = d) ∧ Present (m'.dir d) := by
  induction dirs generalizing m with
  | nil =>
      obtain ⟨-, rfl⟩ := Prod.mk.inj (Except.ok.inj h)
      exact ⟨ht, fun d => .inl rfl⟩
  | cons x dirs ih =>
      obtain ⟨s, d⟩ := x
      rw [copyDirs] at h
      split at h
      · cases h
      · split at h
        · rename_i hs
          split at h
          · obtain ⟨-, rfl⟩ := Prod.mk.inj (Except.ok.inj h)
            exact ⟨ht, fun d => .inl rfl⟩
          · rename_i t m₁ hg
            obtain ⟨hdir, ht0, hframe⟩ := dir_getFreePage hg
            dsimp only at h
            have hnew : (entries.foldl (copyEntry (m.table s) t) (m₁.write 0 d (entry t))).dir
                = update m.dir d (entry t) := by
              rw [dir_copyEntries (ht s hs) ht0, ← hdir]
              exact write_phys_self ..
            have happ : TablesApart
                (entries.foldl (copyEntry (m.table s) t) (m₁.write 0 d (entry t))) := by
              intro d' hp
              rw [hnew] at hp
              rw [Mem.table, hnew]
              rcases eq_or_ne d' d with rfl | hne
              · rwa [update_self, hframe]
              · rw [update_of_ne hne] at hp ⊢
                exact ht d' hp
            obtain ⟨ht', hd'⟩ := ih happ h
            refine ⟨ht', fun d' => ?_⟩
            rcases hd' d' with he | ⟨⟨x, hx, e⟩, hp⟩
            · rw [hnew] at he
              rcases eq_or_ne d' d with rfl | hne
              · rw [update_self] at he
                exact .inr ⟨⟨(s, d'), List.mem_cons_self .., rfl⟩, he ▸ present_entry t⟩
              · rw [update_of_ne hne] at he
                exact .inl he
            · exact .inr ⟨⟨x, List.mem_cons_of_mem _ hx, e⟩, hp⟩
        · obtain ⟨ht', hd'⟩ := ih ht h
          refine ⟨ht', fun d => ?_⟩
          rcases hd' d with he | ⟨⟨x, hx, e⟩, hp⟩
          · exact .inl he
          · exact .inr ⟨⟨x, List.mem_cons_of_mem _ hx, e⟩, hp⟩

theorem freePage_phys {p : Nat} (h : freePage m p = .ok m') : m'.phys = m.phys := by
  unfold freePage at h
  split at h
  · exact congrArg Mem.phys (Except.ok.inj h).symm
  · split at h
    · cases h
    · split at h
      · obtain rfl := Except.ok.inj h
        rfl
      · cases h

theorem dir_of_phys (h : m'.phys = m.phys) : m'.dir = m.dir := by
  funext d
  rw [Mem.dir, h, Mem.dir]

theorem dir_freeEntries {t : Nat} {is : List Slot} (ht : t ≠ 0)
    (h : is.foldlM (freeEntry t) m = .ok m') : m'.dir = m.dir := by
  induction is generalizing m with
  | nil =>
      obtain rfl := Except.ok.inj h
      rfl
  | cons i is ih =>
      rw [List.foldlM_cons] at h
      obtain ⟨m₁, h₁, h⟩ := Loops.bind_eq_ok h
      rw [ih h]
      unfold freeEntry at h₁
      dsimp only at h₁
      split at h₁
      · obtain ⟨m₂, h₂, h₁⟩ := Loops.bind_eq_ok h₁
        obtain rfl := Except.ok.inj h₁
        rw [dir_write ht]
        exact dir_of_phys (freePage_phys h₂)
      · obtain rfl := Except.ok.inj h₁
        exact dir_write ht ..

/-- `free_page_tables` clears the directory entries that are present. -/
theorem dir_freeDirs {dirs : List Slot} (ht : TablesApart m)
    (h : dirs.foldlM freeDir m = .ok m') :
    ∀ d, m'.dir d = if d ∈ dirs ∧ Present (m.dir d) then 0 else m.dir d := by
  induction dirs generalizing m with
  | nil =>
      obtain rfl := Except.ok.inj h
      exact fun d => (if_neg fun hd => List.not_mem_nil hd.1).symm
  | cons d dirs ih =>
      rw [List.foldlM_cons] at h
      obtain ⟨m₁, h₁, h⟩ := Loops.bind_eq_ok h
      have hdir : m₁.dir = if Present (m.dir d) then update m.dir d 0 else m.dir := by
        unfold freeDir at h₁
        split at h₁
        · rename_i hp
          obtain ⟨m₂, h₂, h₁⟩ := Loops.bind_eq_ok h₁
          obtain ⟨m₃, h₃, h₁⟩ := Loops.bind_eq_ok h₁
          obtain rfl := Except.ok.inj h₁
          have h₂ := dir_freeEntries (ht d hp) h₂
          rw [if_pos hp, ← h₂, ← dir_of_phys (freePage_phys h₃)]
          exact write_phys_self ..
        · rename_i hp
          obtain rfl := Except.ok.inj h₁
          rw [if_neg hp]
      have ht₁ : TablesApart m₁ := fun d' hp => by
        rw [Mem.table, hdir]
        rw [hdir] at hp
        split at hp
        · rename_i hd
          rw [if_pos hd]
          rcases eq_or_ne d' d with rfl | hne
          · rw [update_self] at hp
            exact absurd hp not_present_zero
          · rw [update_of_ne hne] at hp ⊢
            exact ht d' hp
        · rename_i hd
          rw [if_neg hd]
          exact ht d' hp
      intro d'
      rw [ih ht₁ h d', hdir]
      rcases eq_or_ne d' d with rfl | hne
      · by_cases hp : Present (m.dir d') <;> simp [hp]
      · by_cases hp : Present (m.dir d) <;> simp [hp, hne]

/-! ## The kernel stack of the child -/

/-- What is pushed stays in the page of the stack. -/
theorem pushAll_page (st : Cpu.Stack Mem) (vs : List Word) {n : Nat}
    (hesp : st.esp.toNat = page * 4096 + 4 * n) (hn : n ≤ 1024) (hlen : vs.length ≤ n) :
    (∀ q, q ≠ page → (st.pushAll vs).mem.phys q = st.mem.phys q) ∧
      (st.pushAll vs).mem.memMap = st.mem.memMap ∧
      (st.pushAll vs).mem.HIGH_MEMORY = st.mem.HIGH_MEMORY := by
  induction vs generalizing st n with
  | nil => exact ⟨fun _ _ => rfl, rfl, rfl⟩
  | cons v vs ih =>
      rw [List.length_cons] at hlen
      have hnext : (st.push v).esp.toNat = page * 4096 + 4 * (n - 1) := by
        show (st.esp - 4).toNat = _
        bv_omega
      obtain ⟨hphys, hmap, hhigh⟩ := ih (st.push v) hnext (by omega) (by omega)
      refine ⟨fun q hq => (hphys q hq).trans ?_, hmap, hhigh⟩
      have hframe : (st.esp - 4).toNat / 0x1000 = page := by
        have : (st.esp - 4).toNat = page * 4096 + 4 * (n - 1) := hnext
        omega
      show (st.mem.write ((st.esp - 4).toNat / 0x1000) _ v).phys q = _
      rw [hframe, write_phys_of_ne hq]

/-- The state in which `fork` calls `copy_process`: memory is accounted for, the slot and its
part of the page directory are empty, and `mem_map` can count the copies. -/
structure Ready (z : Zone) (counted : Pos → Bool) (held : Nat → Nat) (s : State) (src nr : Nat) :
    Prop where
  paged : Paged z counted held s.mem
  source : src < 64 ∧ src ≠ nr ∧ (s.proc s.current).dataBase = src * TASK_SIZE
  limit : (s.proc s.current).dataLimit ≤ TASK_SIZE
  limit_zero : src = 0 → (s.proc s.current).dataLimit ≤ TASK0_LIMIT
  slot : 1 ≤ nr ∧ nr < 64 ∧ s.task nr = none
  empty : ∀ d, d.val / 16 = nr → s.mem.dir d = 0
  counted : ∀ d i, d.val / 16 = nr → counted (d, i) = true
  room : ∀ p, LOW_MEM ≤ p → max 1 (s.mem.memMap p) +
    ((dirSlots (src * TASK_SIZE) (s.proc s.current).dataLimit).map fun d =>
      copies s.mem (copiedEntries (src * TASK_SIZE)) d p).sum ≤ 255
  pid : 0 < s.last_pid.toInt

/-- In the states that `mm/memory.c` reaches by itself, where every page has one use, the
counts have room for every fork. -/
theorem Ready.of_tasks (h : Tasks z held s.mem)
    (hsource : src < 64 ∧ src ≠ nr ∧ (s.proc s.current).dataBase = src * TASK_SIZE)
    (hlimit : (s.proc s.current).dataLimit ≤ TASK_SIZE)
    (hzero : src = 0 → (s.proc s.current).dataLimit ≤ TASK0_LIMIT)
    (hslot : 1 ≤ nr ∧ nr < 64 ∧ s.task nr = none)
    (hempty : ∀ d, d.val / 16 = nr → s.mem.dir d = 0) (hpid : 0 < s.last_pid.toInt) :
    Ready z user held s src nr where
  paged := h.paged
  source := hsource
  limit := hlimit
  limit_zero := hzero
  slot := hslot
  empty := hempty
  counted d _ hd := User.counted (show 16 ≤ d.val by have := hslot.1; omega)
  room _ := h.room hsource.1 hlimit hzero
  pid := hpid

/-- The page of the new task is taken, and nothing else has changed in memory but its
words. -/
structure Taken (z : Zone) (m : Mem) (page : Nat) (m' : Mem) : Prop where
  managed : z.Managed page
  free : m.memMap page = 0
  not_table : ∀ d, m.tableOf d ≠ some page
  memMap : m'.memMap = update m.memMap page 1
  tableOf : m'.tableOf = m.tableOf
  ent : m'.ent = m.ent
  dir : m'.dir = m.dir
  phys : ∀ q, q ≠ page → m'.phys q = m.phys q

theorem newTask_taken (h : Paged z counted held s.mem) (hg : getFreePage s.mem = some (page, m))
    (label : Word) (nr : Nat) (a : Args) :
    Taken z s.mem page (newTask label s nr a page m).mem ∧
      Paged z counted (update held page 1) (newTask label s nr a page m).mem := by
  obtain ⟨hf, h₁⟩ := h.getFreePage_spec hg
  have hlow := hf.lowMem_le
  have h256 : LOW_MEM = 256 := rfl
  have hesp : (BitVec.ofNat 32 (page * PAGE_SIZE + PAGE_SIZE)).toNat = page * 4096 + 4 * 1024 := by
    have hstop := hf.managed.2
    have hhigh : z.stop ≤ 0x1000 := z.le_high
    show (page * 4096 + 4096) % 0x100000000 = _
    omega
  obtain ⟨hphys, hmap, hhigh⟩ := pushAll_page
    ⟨m, BitVec.ofNat 32 (page * PAGE_SIZE + PAGE_SIZE)⟩ (krnstack label a) hesp
    (Nat.le_refl _) (show 17 ≤ 1024 by decide)
  have hdir : (newTask label s nr a page m).mem.dir = m.dir := by
    funext d
    show (newTask label s nr a page m).mem.phys 0 d = m.phys 0 d
    exact congrFun (hphys 0 (by omega)) d
  have hdir₀ := (dir_getFreePage hg).1
  have htab := tableOf_congr fun d => congrFun hdir d
  have hent : (newTask label s nr a page m).mem.ent = m.ent :=
    ent_congr (fun d => congrFun hdir d) fun d t i ht => by
      have hne : t ≠ page := fun e => hf.not_table d (by rw [← hf.tableOf, ht, e])
      exact congrFun (hphys t hne) i
  refine ⟨⟨hf.managed, hf.free, hf.not_table, hmap.trans hf.memMap, htab.trans hf.tableOf,
    hent.trans hf.ent, hdir.trans hdir₀, fun q hq => (hphys q hq).trans ?_⟩,
    h₁.congr htab hent hmap hhigh⟩
  show m.phys q = s.mem.phys q
  rw [hf.phys, update_of_ne hq]

/-- What a failed `fork` leaves: every count, the page directory and the tables of tasks,
files and inodes as they were; entries of the parent may have lost their write bit. -/
structure NoTrace (s s' : State) : Prop where
  mem_map : ∀ p, LOW_MEM ≤ p → s'.mem.memMap p = s.mem.memMap p
  pg_dir : ∀ d, s'.mem.dir d = s.mem.dir d
  entries : ∀ x, s'.mem.ent x = s.mem.ent x ∨ s'.mem.ent x = (s.mem.ent x).map wrprotectAbove
  task : s'.task = s.task
  f_count : s'.f_count = s.f_count
  i_count : s'.i_count = s.i_count

theorem tableOf_of_dir {d : Slot} (h : m.dir d = 0) : m.tableOf d = none :=
  if_neg (h ▸ not_present_zero)

theorem tablesApart (h : Paged z counted held m) : TablesApart m := fun d hp => by
  have := h.table_pos d (m.table d) (if_pos hp)
  omega

/-- No entry that is ordinary, and no page directory entry, leads to a frame that
`get_free_page` does not give out. -/
theorem page_ne {x : Pos} {q : Nat} (h : Paged z counted held m) (hx : Ordinary x)
    (hlow : LOW_MEM ≤ q) (hq : ¬z.Managed q) : m.page x ≠ some q := fun hp => by
  obtain ⟨e, he, rfl⟩ := Option.map_eq_some_iff.mp hp
  exact (h.ent_ok x e hx he).elim (by omega) hq

theorem table_ne {d : Slot} {q : Nat} (h : Paged z counted held m) (hlow : LOW_MEM ≤ q)
    (hq : ¬z.Managed q) : m.tableOf d ≠ some q := fun ht =>
  (h.table_ok d q ht).elim (by omega) hq

theorem Ready.canCopy (h : Ready z counted held s src nr) (hm : Taken z s.mem page m) :
    CanCopy counted (copiedEntries (src * TASK_SIZE))
      ((dirSlots (src * TASK_SIZE) (s.proc s.current).dataLimit).zip
        (dirSlots (nr * TASK_SIZE) (s.proc s.current).dataLimit)) m := by
  refine canCopy_task h.source.1 h.slot.2.1 h.source.2.1 h.limit h.limit_zero (fun d hd => ?_)
    h.counted fun p hp => ?_
  · rw [hm.tableOf]
    exact tableOf_of_dir (h.empty d hd)
  · have hroom := h.room p hp
    have hcopies : copies m (copiedEntries (src * TASK_SIZE))
        = copies s.mem (copiedEntries (src * TASK_SIZE)) := by
      funext d p
      rw [copies, page_of_ent hm.ent, copies]
    rw [hcopies, hm.memMap]
    rcases eq_or_ne p page with rfl | hne
    · rw [update_self]
      omega
    · rw [update_of_ne hne]
      exact hroom

/-- `copy_page_tables` that fails, and `free_page_tables` over the same range. -/
theorem copyMem_undone (h : Ready z counted held s src nr) (hm : Taken z s.mem page m)
    (hp : Paged z counted (update held page 1) m) {r : Int} {m₁ m₂ : Mem}
    (hc : copyPageTables m (src * TASK_SIZE) (nr * TASK_SIZE) (s.proc s.current).dataLimit
      = .ok (r, m₁))
    (hf : freePageTables m₁ (nr * TASK_SIZE) (s.proc s.current).dataLimit = .ok m₂) :
    Paged z counted (update held page 1) m₂ ∧
      (∀ q, LOW_MEM ≤ q → ¬z.Managed q → m₂.memMap q = m.memMap q) ∧
      m₂.tableOf = m.tableOf ∧ m₂.dir = m.dir ∧
      ∀ x, m₂.ent x = m.ent x ∨ m₂.ent x = (m.ent x).map wrprotectAbove := by
  have hcan := h.canCopy hm
  obtain ⟨h1, hnr, -⟩ := h.slot
  -- the new places
  have hdest : ∀ d ∈ dirSlots (nr * TASK_SIZE) (s.proc s.current).dataLimit,
      d.val / 16 = nr ∧ m.dir d = 0 := fun d hd => by
    have hd := mem_dirSlots_task hnr h.limit hd
    exact ⟨hd, hm.dir ▸ h.empty d hd⟩
  have hzip : ∀ x ∈ (dirSlots (src * TASK_SIZE) (s.proc s.current).dataLimit).zip
      (dirSlots (nr * TASK_SIZE) (s.proc s.current).dataLimit),
      x.2 ∈ dirSlots (nr * TASK_SIZE) (s.proc s.current).dataLimit := fun x hx =>
    (List.of_mem_zip (show (x.1, x.2) ∈ _ from hx)).2
  rw [copyPageTables, if_neg (by simp only [TASK_SIZE]; omega)] at hc
  obtain ⟨r', m', hok, hp₁, hcop⟩ := hp.copyDirs_spec hcan
  obtain ⟨rfl, rfl⟩ := Prod.mk.inj (Except.ok.inj (hc.symm.trans hok))
  obtain ⟨m', hok', hp₂, hfree⟩ := hp₁.freePageTables_spec
    (show nr * TASK_SIZE % 0x400000 = 0 by simp only [TASK_SIZE]; omega)
    (by simp only [TASK_SIZE]; omega)
    fun d (hd : d ∈ dirSlots (nr * TASK_SIZE) (s.proc s.current).dataLimit) => by
      have hd := (hdest d hd).1
      exact ⟨by omega, fun i _ _ _ => h.counted d i hd⟩
  obtain rfl := Except.ok.inj (hf.symm.trans hok')
  refine ⟨hp₂, fun q hlow hq => ?_, ?_, ?_, fun x => ?_⟩
  · rw [hfree.memMap q fun d hd => ⟨table_ne hp₁ hlow hq, fun i => ?_⟩,
      hcop.memMap q hlow hq fun x hx i hi => page_ne hp (hcan.ordinary x hx i hi) hlow hq]
    have hd := (hdest d hd).1
    exact page_ne hp₁ (Or.inl (show 4 ≤ d.val by omega)) hlow hq
  · funext d
    rw [hfree.tableOf]
    split
    · rename_i hd
      exact (tableOf_of_dir (hdest d hd).2).symm
    · rename_i hd
      exact hcop.tableOf d fun x hx e => hd (e ▸ hzip x hx)
  · funext d
    obtain ⟨happ, hdir⟩ := dir_copyDirs (tablesApart hp) hc
    rw [freePageTables, if_neg (by simp only [TASK_SIZE]; omega),
      if_neg (by simp only [TASK_SIZE]; omega)] at hf
    rw [dir_freeDirs happ hf d]
    rcases hdir d with he | ⟨⟨x, hx, rfl⟩, hpres⟩
    · rw [he]
      refine ite_eq_right_iff.mpr fun hd => ?_
      exact (hdest d hd.1).2.symm
    · rw [if_pos ⟨hzip x hx, hpres⟩, (hdest _ (hzip x hx)).2]
  · rw [hfree.ent]
    split
    · rename_i hx
      exact .inl (tableOf_none_ent (tableOf_of_dir (hdest _ hx).2)).symm
    · rename_i hx
      exact (hcop.ent x fun y hy e => hx (e ▸ hzip y hy)).imp_right And.right

/-- The child has the segments of its parent until `copy_mem` sets their base. -/
theorem newTask_segments (label : Word) (s : State) (nr : Nat) (a : Args) (page : Nat) (m : Mem) :
    ((newTask label s nr a page m).proc (newTask label s nr a page m).current).dataBase
        = (s.proc s.current).dataBase ∧
      ((newTask label s nr a page m).proc (newTask label s nr a page m).current).dataLimit
        = (s.proc s.current).dataLimit := by
  unfold newTask
  dsimp only
  rcases eq_or_ne s.current (page * PAGE_SIZE) with he | hne
  · rw [← he, update_self]
    exact ⟨rfl, rfl⟩
  · rw [update_of_ne hne]
    exact ⟨rfl, rfl⟩

theorem ofMemory_eq_ok {α : Type} {x : Except Linux011.Panic α} {b : α}
    (h : ofMemory x = .ok b) : x = .ok b := by
  cases x with
  | error e => cases h
  | ok b' => exact congrArg Except.ok (Except.ok.inj h)

theorem ofMemory_of_ok {α : Type} {x : Except Linux011.Panic α} {b : α} (h : x = .ok b) :
    ofMemory x = .ok b := by
  rw [h]
  rfl

/-- What `copy_mem` does: the tables are copied, or what was copied is freed again; the
tables of the kernel keep what they have, but for the child's segments. -/
theorem copyMem_cases {p : Nat} {r : Int} (h : copyMem s nr p = .ok (r, s')) :
    (∃ proc mem, s' = { s with proc := proc, mem := mem } ∧
      ∀ q, (proc q).kernelstack = (s.proc q).kernelstack) ∧ ∃ r₁ m₁,
      copyPageTables s.mem (s.proc s.current).dataBase (nr * 0x4000000)
        (s.proc s.current).dataLimit = .ok (r₁, m₁) ∧
      ((r₁ ≠ 0 ∧ r = -ENOMEM ∧
          freePageTables m₁ (nr * 0x4000000) (s.proc s.current).dataLimit = .ok s'.mem) ∨
        (r₁ = 0 ∧ r = 0 ∧ s'.mem = m₁)) := by
  unfold copyMem at h
  dsimp only at h
  split at h
  · cases h
  · split at h
    · cases h
    · obtain ⟨⟨r₁, m₁⟩, hc, h⟩ := Loops.bind_eq_ok h
      have hstack : ∀ q, (update s.proc p { s.proc p with
          start_code := nr * 0x4000000, codeBase := nr * 0x4000000
          dataBase := nr * 0x4000000 } q).kernelstack = (s.proc q).kernelstack := fun q => by
        rcases eq_or_ne q p with rfl | hne
        · rw [update_self]
        · rw [update_of_ne hne]
      dsimp only at h
      split at h
      · rename_i hr₁
        obtain ⟨m₂, hf, h⟩ := Loops.bind_eq_ok h
        obtain ⟨rfl, rfl⟩ := Prod.mk.inj (Except.ok.inj h)
        exact ⟨⟨_, _, rfl, hstack⟩, r₁, m₁, ofMemory_eq_ok hc,
          .inl ⟨hr₁, rfl, ofMemory_eq_ok hf⟩⟩
      · rename_i hr₁
        obtain ⟨rfl, rfl⟩ := Prod.mk.inj (Except.ok.inj h)
        exact ⟨⟨_, _, rfl, hstack⟩, r₁, m₁, ofMemory_eq_ok hc,
          .inr ⟨not_not.mp hr₁, rfl, rfl⟩⟩

/-- **A failed fork leaves no trace**: whenever `copy_process` returns `-EAGAIN`, be it
for want of a page for the task or in the middle of the page tables, every count of
`mem_map`, the page directory, the tables of tasks, files and inodes and their counts
are as before, and the entries of the parent have at most lost their write bits. -/
theorem copyProcess_eagain (h : Ready z counted held s src nr)
    (hr : copyProcess label s nr a = .ok (-EAGAIN, s')) : NoTrace s s' := by
  unfold copyProcess at hr
  split at hr
  · obtain ⟨-, rfl⟩ := Prod.mk.inj (Except.ok.inj hr)
    exact ⟨fun _ _ => rfl, fun _ => rfl, fun _ => .inl rfl, rfl, rfl, rfl⟩
  · rename_i page mem hg
    obtain ⟨⟨r, s₁⟩, hc, hr⟩ := Loops.bind_eq_ok hr
    obtain ⟨htaken, hpaged⟩ := newTask_taken h.paged hg label nr a
    obtain ⟨⟨proc, m₂, rfl, -⟩, r₁, m₁, hcopy, hres⟩ := copyMem_cases hc
    obtain ⟨hbase, hlimit⟩ := newTask_segments label s nr a page mem
    rw [hbase, hlimit, h.source.2.2] at hcopy
    rw [hlimit] at hres
    dsimp only at hr hres
    rcases hres with ⟨-, rfl, hfree⟩ | ⟨-, rfl, -⟩
    · rw [if_pos (by decide)] at hr
      obtain ⟨m₃, hfreed, hr⟩ := Loops.bind_eq_ok hr
      obtain ⟨-, rfl⟩ := Prod.mk.inj (Except.ok.inj hr)
      obtain ⟨hp₂, hmap, htab, hdir, hent⟩ := copyMem_undone h htaken hpaged hcopy hfree
      obtain ⟨hok, hp₃⟩ := hp₂.drop htaken.managed (by rw [update_self])
      obtain rfl := Except.ok.inj (hfreed.symm.trans (ofMemory_of_ok hok))
      have hphys := uncount_phys m₂ page
      have hheld : update (update held page 1) page (update held page 1 page - 1) = held := by
        have hzero := (h.paged.unused htaken.managed htaken.free).2.2
        rw [update_self, update_idem, Nat.sub_self, ← hzero, update_eq_self]
      rw [hheld] at hp₃
      have htab₃ := (tableOf_of_phys hphys).trans (htab.trans htaken.tableOf)
      have hent₃ : ∀ x, (uncount m₂ page).ent x = s.mem.ent x ∨
          (uncount m₂ page).ent x = (s.mem.ent x).map wrprotectAbove := fun x => by
        rw [ent_of_phys hphys, ← htaken.ent]
        exact hent x
      refine ⟨fun q hlow => ?_, fun d => ?_, hent₃, ?_, rfl, rfl⟩
      · by_cases hq : z.Managed q
        · -- the references are the same, so the counts are
          have href : (uncount m₂ page).ref counted = s.mem.ref counted := by
            funext x
            rcases x with d | x
            · exact congrFun htab₃ d
            · simp only [Mem.ref, Mem.page]
              rcases hent₃ x with he | he
              · rw [he]
              · have hcomp : frame ∘ wrprotectAbove = frame := funext frame_wrprotectAbove
                rw [he, Option.map_map, hcomp]
          have h₁ := hp₃.balanced q hq
          have h₀ := h.paged.balanced q hq
          rw [href] at h₁
          exact h₁.trans h₀.symm
        · have hne : q ≠ page := fun e => hq (e ▸ htaken.managed)
          show (uncount m₂ page).memMap q = _
          rw [uncount_memMap_of_ne hne, hmap q hlow hq, htaken.memMap, update_of_ne hne]
      · show (uncount m₂ page).dir d = _
        rw [dir_of_phys hphys, hdir, htaken.dir]
      · show update (update s.task nr _) nr none = s.task
        rw [update_idem, ← h.slot.2.2, update_eq_self]
    · rw [if_neg (by decide)] at hr
      obtain ⟨hpid, -⟩ := Prod.mk.inj (Except.ok.inj hr)
      have hpid : s.last_pid.toInt = -11 := hpid
      have := h.pid
      omega

/-- A frame that is neither free nor a page table, such as the one of a kernel stack. -/
def Occupied (m : Mem) (q : Nat) : Prop :=
  1 ≤ q ∧ (∀ d, m.tableOf d ≠ some q) ∧ (LOW_MEM ≤ q → m.memMap q ≠ 0)

theorem load_pushAll (st : Cpu.Stack Mem) (vs : List Word) {b : Word}
    (h : ∀ j, 1 ≤ j → j ≤ vs.length →
      b.toNat / 0x1000 ≠ (st.esp - BitVec.ofNat 32 (4 * j)).toNat / 0x1000) :
    Cpu.Memory.load (st.pushAll vs).mem b = Cpu.Memory.load st.mem b := by
  induction vs generalizing st with
  | nil => rfl
  | cons v vs ih =>
      refine (ih (st.push v) fun j h1 hj => ?_).trans ?_
      · have haddr : (st.push v).esp - BitVec.ofNat 32 (4 * j)
            = st.esp - BitVec.ofNat 32 (4 * (j + 1)) := by
          show st.esp - 4 - _ = _
          bv_omega
        rw [haddr]
        exact h (j + 1) (by omega) (Nat.succ_le_succ hj)
      · exact load_store_frame st.mem v (h 1 (Nat.le_refl 1) (Nat.succ_le_succ (Nat.zero_le _)))

/-- The words of the kernel stack are in the page of the task. -/
theorem stack_frame {i : Nat} (hlt : page < 0x1000) (hi : i < 17) :
    (BitVec.ofNat 32 (page * PAGE_SIZE + PAGE_SIZE) - BitVec.ofNat 32 (4 * 17)
      + BitVec.ofNat 32 (4 * i)).toNat / 0x1000 = page := by
  have : (BitVec.ofNat 32 (page * 4096 + 4096) - BitVec.ofNat 32 (4 * 17)
      + BitVec.ofNat 32 (4 * i)).toNat = page * 4096 + 4096 - 68 + 4 * i := by bv_omega
  show (BitVec.ofNat 32 (page * 4096 + 4096) - _ + _).toNat / 0x1000 = page
  omega

/-- What `copy_process` leaves when it succeeds: the child with its kernel stack, and all other
frames that are in use but for page tables as they were. -/
structure Started (label : Word) (s : State) (nr : Nat) (a : Args) (r : Int) (s' : State)
    (page : Nat) : Prop where
  result : r = s.last_pid.toInt
  task : s'.task nr = some (page * PAGE_SIZE)
  bound : LOW_MEM ≤ page ∧ page < 0x1000
  kernelstack : (s'.proc (page * PAGE_SIZE)).kernelstack
    = BitVec.ofNat 32 (page * PAGE_SIZE + PAGE_SIZE) - BitVec.ofNat 32 (4 * 17)
  words : Cpu.Stack.At ⟨s'.mem, (s'.proc (page * PAGE_SIZE)).kernelstack⟩
    (krnstack label a).reverse
  apart : ¬Occupied s.mem page
  frames : ∀ q, Occupied s.mem q → s'.mem.phys q = s.mem.phys q

theorem copyProcess_started (h : Ready z counted held s src nr) {r : Int}
    (hr : copyProcess label s nr a = .ok (r, s')) (hne : r ≠ -EAGAIN) :
    ∃ page, Started label s nr a r s' page := by
  unfold copyProcess at hr
  split at hr
  · obtain ⟨rfl, -⟩ := Prod.mk.inj (Except.ok.inj hr)
    exact absurd rfl hne
  · rename_i page mem hg
    obtain ⟨⟨r₀, s₁⟩, hc, hr⟩ := Loops.bind_eq_ok hr
    obtain ⟨htaken, hpaged⟩ := newTask_taken h.paged hg label nr a
    obtain ⟨⟨proc, m₂, rfl, hstack⟩, r₁, m₁, hcopy, hres⟩ := copyMem_cases hc
    obtain ⟨hbase, hlimit⟩ := newTask_segments label s nr a page mem
    rw [hbase, hlimit, h.source.2.2] at hcopy
    dsimp only at hr hres
    rcases hres with ⟨-, rfl, -⟩ | ⟨rfl, rfl, rfl⟩
    · rw [if_pos (by decide)] at hr
      obtain ⟨m₃, -, hr⟩ := Loops.bind_eq_ok hr
      obtain ⟨rfl, -⟩ := Prod.mk.inj (Except.ok.inj hr)
      exact absurd rfl hne
    · rw [if_neg (by decide)] at hr
      obtain ⟨rfl, rfl⟩ := Prod.mk.inj (Except.ok.inj hr)
      -- frames that are not free and not tables are not touched by `copy_page_tables`
      have hkeep : ∀ q, 1 ≤ q → (∀ d, s.mem.tableOf d ≠ some q) →
          (z.Managed q → (newTask label s nr a page mem).mem.memMap q ≠ 0) →
          m₂.phys q = (newTask label s nr a page mem).mem.phys q := fun q h1 ht hq => by
        rw [copyPageTables, if_neg (by simp only [TASK_SIZE]; omega)] at hcopy
        obtain ⟨r', m', hok, -, hcop⟩ := hpaged.copyDirs_spec (h.canCopy htaken)
        obtain ⟨-, rfl⟩ := Prod.mk.inj (Except.ok.inj (hcopy.symm.trans hok))
        refine hcop.phys q h1 fun d hd => ?_
        rcases hcop.fresh d q hd with hold | ⟨hm, h0⟩
        · exact ht d (htaken.tableOf ▸ hold)
        · exact hq hm h0
      have hlow := Nat.le_trans z.lowMem_le htaken.managed.1
      have hlt := Nat.lt_of_lt_of_le htaken.managed.2 (show z.stop ≤ 0x1000 from z.le_high)
      have h256 : LOW_MEM = 256 := rfl
      have hpage : m₂.phys page = (newTask label s nr a page mem).mem.phys page :=
        hkeep page (by omega) htaken.not_table fun _ => by
          rw [htaken.memMap, update_self]
          decide
      have hfree : ¬Occupied s.mem page := fun ho => ho.2.2 hlow htaken.free
      have hnew : ((newTask label s nr a page mem).proc (page * PAGE_SIZE)).kernelstack
          = (Cpu.Stack.pushAll ⟨mem, BitVec.ofNat 32 (page * PAGE_SIZE + PAGE_SIZE)⟩
              (krnstack label a)).esp := by
        unfold newTask
        dsimp only
        rw [update_self]
      have hks : (startTask { newTask label s nr a page mem with proc := proc, mem := m₂ } nr
          (page * PAGE_SIZE)).proc (page * PAGE_SIZE) =
          { proc (page * PAGE_SIZE) with state := TASK_RUNNING } := by
        unfold startTask
        dsimp only
        rw [update_self]
      have hat := (Cpu.Stack.at_nil (s := ⟨mem, BitVec.ofNat 32 (page * PAGE_SIZE + PAGE_SIZE)⟩)
        ?_).pushAll (krnstack label a) (by simp [krnstack])
      · refine ⟨page, rfl, update_self .., ⟨hlow, hlt⟩, ?_, ?_, hfree, fun q hq => ?_⟩
        · rw [hks, hstack, hnew, Cpu.Stack.esp_pushAll]
          rfl
        · rw [hks, hstack, hnew]
          rw [List.append_nil] at hat
          refine hat.congr fun i hi => ?_
          have hi : i < 17 := hi
          rw [Cpu.Stack.word, Cpu.Stack.esp_pushAll]
          have hframe := stack_frame hlt hi
          show m₂.phys ((BitVec.ofNat 32 (page * PAGE_SIZE + PAGE_SIZE) - BitVec.ofNat 32 (4 * 17)
              + BitVec.ofNat 32 (4 * i)).toNat / 0x1000) _ = _
          rw [hframe, hpage]
          show _ = (newTask label s nr a page mem).mem.phys _ _
          congr 1
          exact hframe.symm
        · have hne : q ≠ page := fun e => hfree (e ▸ hq)
          refine (hkeep q hq.1 hq.2.1 fun hm => ?_).trans (htaken.phys q hne)
          rw [htaken.memMap, update_of_ne hne]
          exact hq.2.2 (Nat.le_trans z.lowMem_le hm.1)
      · show (page * 4096 + 4096) % 0x100000000 % 4 = 0
        omega

/-- Task 0, before it forks for the first time. -/
def initTask : TaskStruct where
  state := TASK_RUNNING
  counter := 15
  priority := 15
  signal := 0
  kernelstack := 0
  start_code := 0
  pid := 0
  father := -1
  leader := 0
  alarm := 0
  utime := 0
  stime := 0
  cutime := 0
  cstime := 0
  start_time := 0
  pwd := none
  root := none
  executable := none
  filp _ := none
  codeBase := 0
  codeLimit := 0xA0000
  dataBase := 0
  dataLimit := 0xA0000

/-- A machine with one page to give out. -/
def onePage : Zone := ⟨4095, 4096, by decide, by decide⟩

def first : State where
  mem := memInit (fun _ _ => 0) onePage.start onePage.stop
  task nr := if nr = 0 then some 0x5000 else none
  proc _ := initTask
  current := 0x5000
  f_count _ := 0
  i_count _ := 0
  desc _ := none
  last_pid := 1
  jiffies := 0

def noArgs : Args := ⟨0, 0, 0, 0, 0, 0, 0, 0, 0, 0, 0, 0, 0, 0, 0, 0⟩

theorem first_ready : Ready onePage user (fun _ => 0) first 0 1 :=
  Ready.of_tasks (tasks_start onePage _) ⟨by decide, by decide, rfl⟩ (by decide)
    (fun _ => by decide) ⟨by decide, by decide, rfl⟩
    (fun d hd => if_neg (show ¬d.val < 4 by omega)) (by decide)

/-- There is a page for the task, and none for its page tables. -/
theorem copyProcess_eagain_first : ∃ s', copyProcess 0 first 1 noArgs = .ok (-EAGAIN, s') ∧
    NoTrace first s' := by
  have hr : (copyProcess 0 first 1 noArgs).toOption.map Prod.fst = some (-EAGAIN) := by
    decide +kernel
  cases hc : copyProcess 0 first 1 noArgs with
  | error e =>
      rw [hc] at hr
      cases hr
  | ok r =>
      obtain ⟨r, s'⟩ := r
      rw [hc] at hr
      obtain rfl : r = -EAGAIN := Option.some.inj hr
      exact ⟨s', rfl, copyProcess_eagain first_ready hc⟩

end Fork

end Linux011
