import Linux011.Fork

/-!
# The first return of a forked child

`kernel/system_call.s`: the registers of the user go to the kernel stack in `system_call` and
`sys_fork`, `copy_process` takes them from there to the kernel stack of the child, and
`switch_too` and `first_return_from_kernel` take them off it. The child returns to user mode
with the registers of its parent and 0 in `eax` (`fork_returns`).

The proof is a symbolic execution on the processor of `Cpu`. A sequence of pushes, from the `int
$0x80` to the first instruction of `copy_process`, leaves eighteen words, and `enterFork_stack`
says which register is in which of them. `copy_process` reads its arguments from there
(`args_user`) and pushes seventeen words onto the stack of the child, in the order in which
`switch_too` and `first_return_from_kernel` will take them off. That the words of both stacks are
still there when they are read is the point of `Occupied`: a frame that is in use and no page
table is not changed by `copy_process`, whatever pages it takes in between. The child is followed
from any state in which `schedule` selects it for the first time (`Selected`), and the segment
registers survive because a selector has 16 bits of the word that is pushed.
-/

namespace Linux011

open Function Cpu

namespace ForkReturn

open Fork

/-! ## The code -/

/-- The labels whose addresses are on the stacks. -/
structure Labels where
  /-- behind the `call` in `system_call` -/
  system_call : Word
  /-- behind `call copy_process` -/
  sys_fork : Word
  first_return_from_kernel : Word

/-- `system_call` up to the call. -/
def systemCall : List Instr :=
  [.push .ds, .push .es, .push .fs, .pushl .edx, .pushl .ecx, .pushl .ebx,
    .movl 0x10 .edx, .mov .edx .ds, .mov .edx .es, .movl 0x17 .edx, .mov .edx .fs]

/-- `sys_fork` behind `find_empty_process`, whose result is in `eax`. -/
def sysFork : List Instr := [.push .gs, .pushl .esi, .pushl .edi, .pushl .ebp, .pushl .eax]

/-- `sys_fork` behind `copy_process`. -/
def sysForkEnd : List Instr := [.addEsp 20, .ret]

/-- The label 3 of `ret_from_sys_call`. -/
def retFromSysCall : List Instr :=
  [.popl .eax, .popl .ebx, .popl .ecx, .popl .edx, .pop .fs, .pop .es, .pop .ds, .iret]

/-- What `switch_too` puts on the stack of the old task. -/
def switchTooStart : List Instr :=
  [.pushl .ebp, .movEsp .ebp, .pushl .ecx, .pushl .ebx, .pushl .eax]

/-- `switch_too` from its label 1 on. -/
def switchTooEnd : List Instr := [.popl .eax, .popl .ebx, .popl .ecx, .popl .ebp, .ret]

/-- `first_return_from_kernel` up to its `iret`. -/
def firstReturnFromKernel : List Instr :=
  [.popl .edx, .popl .edi, .popl .esi, .pop .gs, .pop .fs, .pop .es, .pop .ds]

/-- A C function returns: its result is in `eax`, and `ecx` and `edx` hold anything. -/
def returned (c : Cpu.State Mem) (eax ecx edx : Word) : Cpu.State Mem :=
  ((c.setReg .eax eax).setReg .ecx ecx).setReg .edx edx

/-- From the `int 0x80` of the user to the first instruction of `copy_process`, where
`find_empty_process` has found `nr`. -/
def enterFork (l : Labels) (g : Gate) (esp0 nr ecx edx : Word) (u : Cpu.State Mem) :
    Cpu.State Mem :=
  let c := (u.trap g esp0).run systemCall
  let c := c.setStack (c.push l.system_call)
  let c := (returned c nr ecx edx).run sysFork
  c.setStack (c.push l.sys_fork)

/-- What `copy_process` finds on the stack, behind its return address and `nr`. -/
def args (c : Cpu.State Mem) : Args where
  ebp := c.word 2
  edi := c.word 3
  esi := c.word 4
  gs := c.word 5
  none := c.word 6
  ebx := c.word 7
  ecx := c.word 8
  edx := c.word 9
  fs := c.word 10
  es := c.word 11
  ds := c.word 12
  eip := c.word 13
  cs := c.word 14
  eflags := c.word 15
  esp := c.word 16
  ss := c.word 17

/-- The return of `copy_process` with `r`, up to the `pushl %eax` of `system_call`. -/
def leaveFork (c : Cpu.State Mem) (mem : Mem) (r : Int) (ecx edx : Word) : Cpu.State Mem :=
  let c := c.setStack ⟨mem, c.esp⟩
  let c := (returned c (BitVec.ofInt 32 r) ecx edx).exec .ret
  (c.run sysForkEnd).exec (.pushl .eax)

/-- What `switch_too` reads and changes: the processor, `current`, the field `kernelstack` of
the tasks, `esp0` of the TSS, the LDT, and whether the next use of the math processor
traps. -/
structure Switch where
  cpu : Cpu.State Mem
  current : Word
  kernelstack : Word → Word
  esp0 : Word
  ldt : BitVec 16
  last_task_used_math : Word
  ts : Bool

/-- `switch_too` up to its label 1. The arguments are behind the return address. -/
def switchToo (k : Switch) : Switch :=
  let pnext := k.cpu.word 1
  let ldt := k.cpu.word 2
  let c := k.cpu.run switchTooStart
  let c := c.setReg .ebx pnext
  if pnext = k.current ∨ pnext = 0 then { k with cpu := c }
  else
    -- `xchgl %eax,current`: the old task is in `eax` from here on
    let old := k.current
    let kernelstack := update k.kernelstack old c.esp
    let c := (c.setStack ⟨c.mem, kernelstack pnext⟩).setReg .eax old
    let c := (c.setReg .ebx (pnext + 4096)).run [.movl 0x17 .ecx, .mov .ecx .fs]
    { cpu := c
      current := pnext
      kernelstack := kernelstack
      esp0 := pnext + 4096
      ldt := ldt.setWidth 16
      last_task_used_math := k.last_task_used_math
      ts := if old = k.last_task_used_math then false else k.ts }

variable {l : Labels} {g : Gate} {u c : Cpu.State Mem} {esp0 nr ecx edx : Word}

/-! ## The stack of the parent -/

/-- The stack at the entry of `copy_process`: the return addresses, and the registers of the
user. The upper halves of the words of segment registers are left open. -/
theorem enterFork_stack (l : Labels) (g : Gate) (nr ecx edx : Word) (u : Cpu.State Mem)
    (h : esp0.toNat % 4 = 0) :
    ∃ gs fs es ds cs ss : Word, gs.setWidth 16 = u.seg .gs ∧ fs.setWidth 16 = u.seg .fs ∧
      es.setWidth 16 = u.seg .es ∧ ds.setWidth 16 = u.seg .ds ∧ cs.setWidth 16 = u.seg .cs ∧
      ss.setWidth 16 = u.seg .ss ∧ (enterFork l g esp0 nr ecx edx u).At
        [l.sys_fork, nr, u.reg .ebp, u.reg .edi, u.reg .esi, gs, l.system_call,
          u.reg .ebx, u.reg .ecx, u.reg .edx, fs, es, ds, u.eip, cs, u.eflags, u.esp, ss] := by
  obtain ⟨cs, ss, hcs, hss, h₀⟩ := State.at_trap u g h
  obtain ⟨ds, hds, h₁⟩ := State.at_push h₀ (by simp) .ds
  obtain ⟨es, hes, h₂⟩ := State.at_push h₁ (by simp) .es
  obtain ⟨fs, hfs, h₃⟩ := State.at_push h₂ (by simp) .fs
  have h₄ := State.at_pushl h₃ (by simp) .edx
  have h₅ := State.at_pushl h₄ (by simp) .ecx
  have h₆ := State.at_pushl h₅ (by simp) .ebx
  have h₇ := Stack.At.push (show ((u.trap g esp0).run systemCall).At _ from h₆) (by simp)
    l.system_call
  obtain ⟨gs, hgs, h₈⟩ := State.at_push (c := returned (State.setStack _ _) nr ecx edx) h₇
    (by simp) .gs
  have h₉ := State.at_pushl h₈ (by simp) .esi
  have h₁₀ := State.at_pushl h₉ (by simp) .edi
  have h₁₁ := State.at_pushl h₁₀ (by simp) .ebp
  have h₁₂ := State.at_pushl h₁₁ (by simp) .eax
  exact ⟨gs, fs, es, ds, cs, ss, hgs, hfs, hes, hds, hcs, hss, h₁₂.push (by simp) l.sys_fork⟩

/-- The arguments of `copy_process` are the registers of the user. -/
structure UserArgs (u : Cpu.State Mem) (a : Args) : Prop where
  ebp : a.ebp = u.reg .ebp
  edi : a.edi = u.reg .edi
  esi : a.esi = u.reg .esi
  ebx : a.ebx = u.reg .ebx
  ecx : a.ecx = u.reg .ecx
  edx : a.edx = u.reg .edx
  gs : a.gs.setWidth 16 = u.seg .gs
  fs : a.fs.setWidth 16 = u.seg .fs
  es : a.es.setWidth 16 = u.seg .es
  ds : a.ds.setWidth 16 = u.seg .ds
  cs : a.cs.setWidth 16 = u.seg .cs
  ss : a.ss.setWidth 16 = u.seg .ss
  eip : a.eip = u.eip
  eflags : a.eflags = u.eflags
  esp : a.esp = u.esp

theorem args_user (h : esp0.toNat % 4 = 0) :
    UserArgs u (args (enterFork l g esp0 nr ecx edx u)) := by
  obtain ⟨gs, fs, es, ds, cs, ss, hgs, hfs, hes, hds, hcs, hss, hat⟩ :=
    enterFork_stack l g nr ecx edx u h
  have hw := hat.holds
  exact
    { ebp := hw 2 (by simp)
      edi := hw 3 (by simp)
      esi := hw 4 (by simp)
      ebx := hw 7 (by simp)
      ecx := hw 8 (by simp)
      edx := hw 9 (by simp)
      gs := hgs ▸ congrArg (BitVec.setWidth 16) (hw 5 (by simp))
      fs := hfs ▸ congrArg (BitVec.setWidth 16) (hw 10 (by simp))
      es := hes ▸ congrArg (BitVec.setWidth 16) (hw 11 (by simp))
      ds := hds ▸ congrArg (BitVec.setWidth 16) (hw 12 (by simp))
      cs := hcs ▸ congrArg (BitVec.setWidth 16) (hw 14 (by simp))
      ss := hss ▸ congrArg (BitVec.setWidth 16) (hw 17 (by simp))
      eip := hw 13 (by simp)
      eflags := hw 15 (by simp)
      esp := hw 16 (by simp) }

/-! ## The stack of the child -/

/-- The registers of a user, but for `eax`. -/
structure SameUser (c u : Cpu.State Mem) : Prop where
  eip : c.eip = u.eip
  eflags : c.eflags = u.eflags
  esp : c.esp = u.esp
  seg : c.seg = u.seg
  reg : ∀ r, r ≠ .eax → c.reg r = u.reg r

theorem setWidth_and (w : Word) : (w &&& 0xffff).setWidth 16 = w.setWidth 16 := by
  have hone : ∀ i : Fin 16, (0xffff : BitVec 16)[i.val] = true := by decide
  ext i hi
  simpa using fun _ => hone ⟨i, hi⟩

/-- `switch_too` takes five words off the stack of the child. -/
theorem switchTooEnd_spec {a : Args} (h : c.At (krnstack l.first_return_from_kernel a).reverse) :
    (c.run switchTooEnd).eip = l.first_return_from_kernel ∧
      (c.run switchTooEnd).esp = c.esp + 20 ∧
      (c.run switchTooEnd).reg = update (update (update (update c.reg .eax 0) .ebx a.ebx)
        .ecx a.ecx) .ebp a.ebp ∧
      (c.run switchTooEnd).At [a.edx, a.edi, a.esi, a.gs &&& 0xffff, a.fs &&& 0xffff,
        a.es &&& 0xffff, a.ds &&& 0xffff, a.eip, a.cs &&& 0xffff, a.eflags, a.esp,
        a.ss &&& 0xffff] := by
  have h : c.At [0, a.ebx, a.ecx, a.ebp, l.first_return_from_kernel, a.edx, a.edi, a.esi,
    a.gs &&& 0xffff, a.fs &&& 0xffff, a.es &&& 0xffff, a.ds &&& 0xffff, a.eip,
    a.cs &&& 0xffff, a.eflags, a.esp, a.ss &&& 0xffff] := h
  obtain ⟨h₁, hr₁, -⟩ := State.at_popl h .eax
  obtain ⟨h₂, hr₂, -⟩ := State.at_popl h₁ .ebx
  obtain ⟨h₃, hr₃, -⟩ := State.at_popl h₂ .ecx
  obtain ⟨h₄, hr₄, -⟩ := State.at_popl h₃ .ebp
  obtain ⟨h₅, heip, hr₅, -⟩ := State.at_ret h₄
  refine ⟨heip, ?_, ?_, h₅⟩
  · show c.esp + BitVec.ofNat 32 (4 * 1) + BitVec.ofNat 32 (4 * 1) + BitVec.ofNat 32 (4 * 1)
      + BitVec.ofNat 32 (4 * 1) + BitVec.ofNat 32 (4 * 1) = c.esp + 20
    bv_omega
  · exact hr₅.trans (by rw [hr₄, hr₃, hr₂, hr₁])

/-- `first_return_from_kernel` takes the other twelve, and the user goes on. -/
theorem firstReturn_spec {a : Args} (ha : UserArgs u a)
    (h : c.At [a.edx, a.edi, a.esi, a.gs &&& 0xffff, a.fs &&& 0xffff, a.es &&& 0xffff,
      a.ds &&& 0xffff, a.eip, a.cs &&& 0xffff, a.eflags, a.esp, a.ss &&& 0xffff])
    (hreg : ∀ r, r ≠ .eax → r ≠ .edx → r ≠ .edi → r ≠ .esi → c.reg r = u.reg r) :
    SameUser ((c.run firstReturnFromKernel).exec .iret) u ∧
      ((c.run firstReturnFromKernel).exec .iret).reg .eax = c.reg .eax ∧
      ((c.run firstReturnFromKernel).drop 5).esp = c.esp + 48 := by
  obtain ⟨h₁, hr₁, hs₁⟩ := State.at_popl h .edx
  obtain ⟨h₂, hr₂, hs₂⟩ := State.at_popl h₁ .edi
  obtain ⟨h₃, hr₃, hs₃⟩ := State.at_popl h₂ .esi
  obtain ⟨h₄, hs₄, hr₄⟩ := State.at_pop h₃ .gs
  obtain ⟨h₅, hs₅, hr₅⟩ := State.at_pop h₄ .fs
  obtain ⟨h₆, hs₆, hr₆⟩ := State.at_pop h₅ .es
  obtain ⟨h₇, hs₇, hr₇⟩ := State.at_pop h₆ .ds
  obtain ⟨heip, hflags, hesp, hr₈, hs₈⟩ := State.at_iret h₇
  have hreg' : ((c.run firstReturnFromKernel).exec .iret).reg
      = update (update (update c.reg .edx a.edx) .edi a.edi) .esi a.esi := by
    refine hr₈.trans ?_
    rw [hr₇, hr₆, hr₅, hr₄, hr₃, hr₂, hr₁]
  have hseg' : ((c.run firstReturnFromKernel).exec .iret).seg
      = update (update (update (update (update (update c.seg .gs (u.seg .gs)) .fs (u.seg .fs))
        .es (u.seg .es)) .ds (u.seg .ds)) .cs (u.seg .cs)) .ss (u.seg .ss) := by
    refine hs₈.trans ?_
    rw [hs₇, hs₆, hs₅, hs₄, hs₃, hs₂, hs₁]
    simp only [setWidth_and, ha.gs, ha.fs, ha.es, ha.ds, ha.cs, ha.ss]
  refine ⟨⟨heip.trans ha.eip, hflags.trans ha.eflags, hesp.trans ha.esp, ?_, fun r hr => ?_⟩,
    ?_, ?_⟩
  · rw [hseg']
    funext r
    cases r <;> rfl
  · rw [hreg', ha.edx, ha.edi, ha.esi]
    cases r with
    | eax => exact absurd rfl hr
    | edx => rfl
    | edi => rfl
    | esi => rfl
    | ebx => exact hreg .ebx (by decide) (by decide) (by decide) (by decide)
    | ecx => exact hreg .ecx (by decide) (by decide) (by decide) (by decide)
    | ebp => exact hreg .ebp (by decide) (by decide) (by decide) (by decide)
  · rw [hreg']
    rfl
  · show c.esp + BitVec.ofNat 32 (4 * 1) + BitVec.ofNat 32 (4 * 1) + BitVec.ofNat 32 (4 * 1)
      + BitVec.ofNat 32 (4 * 1) + BitVec.ofNat 32 (4 * 1) + BitVec.ofNat 32 (4 * 1)
      + BitVec.ofNat 32 (4 * 1) + BitVec.ofNat 32 (4 * 5) = c.esp + 48
    bv_omega

/-- `schedule` selects the child for the first time: it runs on the stack of another task, and
the kernel stack of the child is as `copy_process` left it. -/
structure Selected (s : Fork.State) (page : Nat) (k : Switch) : Prop where
  pnext : k.cpu.word 1 = BitVec.ofNat 32 (page * Fork.PAGE_SIZE)
  other : k.current ≠ BitVec.ofNat 32 (page * Fork.PAGE_SIZE)
  kernelstack : k.kernelstack (BitVec.ofNat 32 (page * Fork.PAGE_SIZE))
    = (s.proc (page * Fork.PAGE_SIZE)).kernelstack
  words : ∀ i < 17,
    Memory.load k.cpu.mem ((s.proc (page * Fork.PAGE_SIZE)).kernelstack + BitVec.ofNat 32 (4 * i))
      = Memory.load s.mem ((s.proc (page * Fork.PAGE_SIZE)).kernelstack + BitVec.ofNat 32 (4 * i))
  apart : ∀ j, 1 ≤ j → j ≤ 4 → (k.cpu.esp - BitVec.ofNat 32 (4 * j)).toNat / 0x1000 ≠ page

/-- `switch_too` comes to the kernel stack of the child. -/
theorem switchToo_selected {s s' : Fork.State} {n : Nat} {a : Args} {r : Int} {page : Nat}
    {k : Switch} {label : Word} (hs : Started label s n a r s' page) (hk : Selected s' page k) :
    (switchToo k).cpu.At (krnstack label a).reverse ∧
      (switchToo k).cpu.esp = BitVec.ofNat 32 (page * Fork.PAGE_SIZE + Fork.PAGE_SIZE) - 68 ∧
      (switchToo k).current = BitVec.ofNat 32 (page * Fork.PAGE_SIZE) ∧
      (switchToo k).esp0 = BitVec.ofNat 32 (page * Fork.PAGE_SIZE + Fork.PAGE_SIZE) := by
  obtain ⟨hlow, hhigh⟩ := hs.bound
  have h256 : LOW_MEM = 256 := rfl
  have hzero : BitVec.ofNat 32 (page * Fork.PAGE_SIZE) ≠ 0 := fun e => by
    have : page * 4096 % 0x100000000 = 0 := congrArg BitVec.toNat e
    omega
  unfold switchToo
  dsimp only
  rw [hk.pnext, if_neg (not_or.mpr ⟨hk.other.symm, hzero⟩)]
  have hesp : ∀ esp, update k.kernelstack k.current esp (BitVec.ofNat 32 (page * Fork.PAGE_SIZE))
      = (s'.proc (page * Fork.PAGE_SIZE)).kernelstack := fun esp => by
    rw [update_of_ne hk.other.symm, hk.kernelstack]
  refine ⟨?_, (hesp _).trans hs.kernelstack, rfl, ?_⟩
  · show Stack.At ⟨(k.cpu.run switchTooStart).mem, update k.kernelstack k.current _ _⟩ _
    rw [hesp]
    refine hs.words.congr fun i hi => ?_
    have hi : i < 17 := hi
    rw [Stack.word, ← hk.words i hi, hs.kernelstack]
    -- the pushes go to the stack of the old task
    have hframe := stack_frame hhigh hi
    exact load_pushAll k.cpu.toStack
      [k.cpu.reg .ebp, k.cpu.reg .ecx, k.cpu.reg .ebx, k.cpu.reg .eax]
      fun j h1 h4 e => hk.apart j h1 h4 (e.symm.trans hframe)
  · show BitVec.ofNat 32 (page * 4096) + 4096 = BitVec.ofNat 32 (page * 4096 + 4096)
    bv_omega

/-! ## Both returns -/

/-- The parent comes back to `system_call` with the pid on top of its stack, where
`ret_from_sys_call` takes it from, unless `schedule` or a signal handler changes the word. -/
structure ParentReturns (l : Labels) (c : Cpu.State Mem) (pid : Word) : Prop where
  eip : c.eip = l.system_call
  eax : ∀ c' : Cpu.State Mem, c'.word 0 = c.word 0 → (c'.run retFromSysCall).reg .eax = pid

/-- The child comes from `switch_too` to `first_return_from_kernel` and from there to user mode,
with the registers of the parent and 0 in `eax`; its kernel stack is empty. -/
structure ChildReturns (l : Labels) (u : Cpu.State Mem) (page : Nat) (k : Switch) : Prop where
  eip : ((switchToo k).cpu.run switchTooEnd).eip = l.first_return_from_kernel
  user : SameUser ((((switchToo k).cpu.run switchTooEnd).run firstReturnFromKernel).exec .iret) u
  eax : ((((switchToo k).cpu.run switchTooEnd).run firstReturnFromKernel).exec .iret).reg .eax = 0
  empty : ((((switchToo k).cpu.run switchTooEnd).run firstReturnFromKernel).drop 5).esp
    = BitVec.ofNat 32 (page * Fork.PAGE_SIZE + Fork.PAGE_SIZE)

/-- The word that `retFromSysCall` takes first is the one that stays in `eax`. -/
theorem retFromSysCall_eax (c : Cpu.State Mem) : (c.run retFromSysCall).reg .eax = c.word 0 := rfl

/-- The parent goes back over the arguments of `copy_process`. -/
theorem leaveFork_spec {mem : Mem} {r : Int} {xs : List Word} {a₁ a₂ a₃ a₄ a₅ : Word}
    (h : Stack.At ⟨mem, c.esp⟩ (l.sys_fork :: a₁ :: a₂ :: a₃ :: a₄ :: a₅ :: l.system_call :: xs))
    (hlen : 4 * (xs.length + 1) < 0x100000000) :
    ParentReturns l (leaveFork c mem r ecx edx) (BitVec.ofInt 32 r) := by
  obtain ⟨h₁, -, hr₁, -⟩ :=
    State.at_ret (c := returned (c.setStack ⟨mem, c.esp⟩) (BitVec.ofInt 32 r) ecx edx) h
  have h₂ := State.at_addEsp
    (show Stack.At _ ([a₁, a₂, a₃, a₄, a₅] ++ l.system_call :: xs) from h₁)
  obtain ⟨h₃, heip, hr₃, -⟩ := State.at_ret h₂
  have h₄ := State.at_pushl h₃ hlen .eax
  refine ⟨heip, fun c' hc' => ?_⟩
  rw [retFromSysCall_eax, hc']
  refine (Stack.At.word (show (leaveFork c mem r ecx edx).At _ from h₄)).trans ?_
  rw [hr₃]
  rfl

/-- **The first return of a forked child.** `esp0` is the top of the kernel stack of the
parent, and `u` is the user at its `int $0x80`. If `copy_process` does not fail, the
parent comes back with the pid of the child, whatever the C code leaves in `ecx` and
`edx`, and the child, when it is selected for the first time, returns to user mode with
the registers of the parent and 0 in `eax`. -/
theorem fork_returns {z : Zone} {counted : Pos → Bool} {held : Nat → Nat} {s s' : Fork.State}
    {src n : Nat} {r : Int} (h : Ready z counted held s src n) (halign : esp0.toNat % 4 = 0)
    (hmem : s.mem = (enterFork l g esp0 (BitVec.ofNat 32 n) ecx edx u).mem)
    (hstack : ∀ i < 18, Occupied s.mem
      (((enterFork l g esp0 (BitVec.ofNat 32 n) ecx edx u).esp
        + BitVec.ofNat 32 (4 * i)).toNat / 0x1000))
    (hr : copyProcess l.first_return_from_kernel s n
      (args (enterFork l g esp0 (BitVec.ofNat 32 n) ecx edx u)) = .ok (r, s'))
    (hne : r ≠ -EAGAIN) :
    (∀ ecx' edx', ParentReturns l
      (leaveFork (enterFork l g esp0 (BitVec.ofNat 32 n) ecx edx u) s'.mem r ecx' edx')
      s.last_pid) ∧
    ∃ page, s'.task n = some (page * Fork.PAGE_SIZE) ∧
      ∀ k, Selected s' page k → ChildReturns l u page k := by
  obtain ⟨page, hs⟩ := copyProcess_started h hr hne
  obtain ⟨gs, fs, es, ds, cs, ss, -, -, -, -, -, -, hat⟩ :=
    enterFork_stack l g (BitVec.ofNat 32 n) ecx edx u halign
  have ha : UserArgs u (args (enterFork l g esp0 (BitVec.ofNat 32 n) ecx edx u)) :=
    args_user halign
  refine ⟨fun ecx' edx' => ?_, page, hs.task, fun k hk => ?_⟩
  · -- the stack of the parent is in frames that are in use
    have hkept : Stack.At ⟨s'.mem, (enterFork l g esp0 (BitVec.ofNat 32 n) ecx edx u).esp⟩ _ :=
      hat.congr fun i hi => by
        have hframe := hs.frames _ (hstack i hi)
        rw [hmem] at hframe
        exact congrFun hframe _
    have hret : ParentReturns l
        (leaveFork (enterFork l g esp0 (BitVec.ofNat 32 n) ecx edx u) s'.mem r ecx' edx')
        (BitVec.ofInt 32 r) := leaveFork_spec hkept (by simp)
    rw [hs.result, BitVec.ofInt_toInt] at hret
    rwa [hs.result]
  · obtain ⟨hat', hesp, -, -⟩ := switchToo_selected hs hk
    obtain ⟨heip, hesp₁, hreg, hat₁⟩ := switchTooEnd_spec hat'
    obtain ⟨huser, heax, hempty⟩ := firstReturn_spec ha hat₁ fun r h₁ h₂ h₃ h₄ => by
      rw [hreg, ha.ebx, ha.ecx, ha.ebp]
      cases r with
      | eax => exact absurd rfl h₁
      | edx => exact absurd rfl h₂
      | edi => exact absurd rfl h₃
      | esi => exact absurd rfl h₄
      | ebx => rfl
      | ecx => rfl
      | ebp => rfl
    refine ⟨heip, huser, ?_, ?_⟩
    · rw [heax, hreg]
      rfl
    · rw [hempty, hesp₁, hesp]
      bv_omega

/-- A child that has been started can be selected, here by a task whose stack is in frame 5. -/
theorem exists_selected {s s' : Fork.State} {n : Nat} {a : Args} {r : Int} {page : Nat}
    {label : Word} (hs : Started label s n a r s' page) (u : Cpu.State Mem) :
    ∃ k, Selected s' page k := by
  obtain ⟨hlow, hhigh⟩ := hs.bound
  have h256 : LOW_MEM = 256 := rfl
  refine ⟨{
    cpu := u.setStack ⟨Memory.store s'.mem 0x5F04 (BitVec.ofNat 32 (page * Fork.PAGE_SIZE)), 0x5F00⟩
    current := 0x5000
    kernelstack := fun _ => (s'.proc (page * Fork.PAGE_SIZE)).kernelstack
    esp0 := 0x6000
    ldt := 0
    last_task_used_math := 0
    ts := false }, ?_, ?_, rfl, fun i hi => ?_, fun j h1 h4 => ?_⟩
  · exact Memory.load_store s'.mem (0x5F04 : Word) _
  · show (0x5000 : Word) ≠ BitVec.ofNat 32 (page * 4096)
    bv_omega
  · refine load_store_frame s'.mem _ ?_
    rw [hs.kernelstack, stack_frame hhigh hi]
    show page ≠ 5
    omega
  · have : ((0x5F00 : Word) - BitVec.ofNat 32 (4 * j)).toNat / 0x1000 = 5 := by
      have : ((0x5F00 : Word) - BitVec.ofNat 32 (4 * j)).toNat = 0x5F00 - 4 * j := by bv_omega
      omega
    show ((0x5F00 : Word) - BitVec.ofNat 32 (4 * j)).toNat / 0x1000 ≠ page
    omega

/-! ## A child of task 0 -/

/-- On the way to `copy_process` eighteen words are pushed. -/
theorem enterFork_pushes (l : Labels) (g : Gate) (esp0 nr ecx edx : Word) (u : Cpu.State Mem) :
    ∃ vs : List Word, vs.length = 18 ∧
      (enterFork l g esp0 nr ecx edx u).toStack = Stack.pushAll ⟨u.mem, esp0⟩ vs :=
  ⟨[_, _, _, _, _, _, _, _, _, _, _, _, _, _, _, _, _, _], rfl, rfl⟩

/-- A machine with pages for a task and its page table. -/
def somePages : Zone := ⟨4000, 4096, low_mem_le, le_high_mem⟩

/-- Task 0 in user mode. -/
def user0 : Cpu.State Mem where
  mem := memInit (fun _ _ => 0) somePages.start somePages.stop
  esp := 0x4F00
  reg
    | .eax => 2
    | .ebx => 11
    | .ecx => 12
    | .edx => 13
    | .esi => 14
    | .edi => 15
    | .ebp => 16
  seg
    | .cs => 0x0f
    | _ => 0x17
  eip := 0x6800
  eflags := 0x202

def labels : Labels := ⟨0x7700, 0x7800, 0x7900⟩

/-- Memory that differs from the first one in frame 5 is a first memory too. -/
theorem memInit_kept {m : Mem} {rest : Nat → Slot → Word} {lo hi : Nat}
    (hphys : ∀ q, q ≠ 5 → m.phys q = (memInit rest lo hi).phys q)
    (hmap : m.memMap = (memInit rest lo hi).memMap) (hhigh : m.HIGH_MEMORY = hi) :
    memInit m.phys lo hi = m := by
  have hwords : headPhys m.phys = m.phys := by
    funext q i
    unfold headPhys
    split
    · rename_i h0
      rw [hphys q (by omega), h0]
      rfl
    · split
      · rename_i h0 h4
        rw [hphys q (by omega)]
        exact ((if_neg h0).trans (if_pos h4)).symm
      · rfl
  obtain ⟨phys, map, high⟩ := m
  obtain rfl : map = _ := hmap
  obtain rfl : high = hi := hhigh
  exact congrArg (fun phys => Mem.mk phys _ _) hwords

/-- The parent in `copy_process`. -/
def forking : Cpu.State Mem := enterFork labels ⟨8, 16, 0x7600⟩ 0x6000 1 0 0 user0

def parent : Fork.State :=
  { first with mem := memInit forking.mem.phys somePages.start somePages.stop }

theorem parent_mem : parent.mem = forking.mem := by
  obtain ⟨vs, hlen, hpush⟩ := enterFork_pushes labels ⟨8, 16, 0x7600⟩ 0x6000 1 0 0 user0
  have hesp : (0x6000 : Word).toNat = 5 * 4096 + 4 * 1024 := rfl
  have hpage := pushAll_page ⟨user0.mem, 0x6000⟩ vs hesp (Nat.le_refl _) (by omega)
  rw [← hpush] at hpage
  exact memInit_kept hpage.1 hpage.2.1 hpage.2.2

theorem parent_ready : Ready somePages user (fun _ => 0) parent 0 1 :=
  Ready.of_tasks (tasks_start somePages _) ⟨by decide, by decide, rfl⟩ (by decide)
    (fun _ => by decide) ⟨by decide, by decide, rfl⟩
    (fun d hd => if_neg (show ¬d.val < 4 by omega)) (by decide)

theorem occupied_five : Occupied parent.mem 5 := by
  refine ⟨by decide, fun d hd => ?_, fun h => absurd h (by decide)⟩
  have hd : (memInit forking.mem.phys somePages.start somePages.stop).tableOf d = some 5 := hd
  rw [memInit_tableOf] at hd
  split at hd
  · have := Option.some.inj hd
    omega
  · cases hd

/-- Task 0 forks: the parent has the pid, and the child that is selected has its registers. -/
theorem fork_returns_first : ∃ s' page k,
    copyProcess labels.first_return_from_kernel parent 1 (args forking) = .ok (1, s') ∧
      Selected s' page k ∧ ParentReturns labels (leaveFork forking s'.mem 1 0 0) 1 ∧
      ChildReturns labels user0 page k := by
  have hr : (copyProcess labels.first_return_from_kernel parent 1 (args forking)).toOption.map
      Prod.fst = some 1 := by
    decide +kernel
  cases hc : copyProcess labels.first_return_from_kernel parent 1 (args forking) with
  | error e =>
      rw [hc] at hr
      cases hr
  | ok r =>
      obtain ⟨r, s'⟩ := r
      rw [hc] at hr
      obtain rfl : r = 1 := Option.some.inj hr
      have hstack : ∀ i < 18,
          Occupied parent.mem ((forking.esp + BitVec.ofNat 32 (4 * i)).toNat / 0x1000) :=
        fun i hi => by
          have hesp : forking.esp = 0x5FB8 := rfl
          have hframe : (forking.esp + BitVec.ofNat 32 (4 * i)).toNat / 0x1000 = 5 := by
            rw [hesp]
            have : ((0x5FB8 : Word) + BitVec.ofNat 32 (4 * i)).toNat = 0x5FB8 + 4 * i := by
              bv_omega
            omega
          exact hframe ▸ occupied_five
      obtain ⟨hparent, page, htask, hchild⟩ := fork_returns (l := labels) parent_ready rfl
        parent_mem hstack hc (by decide)
      obtain ⟨page', hs⟩ := copyProcess_started parent_ready hc (by decide)
      obtain rfl : page = page' := by
        have := Option.some.inj (htask.symm.trans hs.task)
        simp only [Fork.PAGE_SIZE] at this
        omega
      obtain ⟨k, hk⟩ := exists_selected hs user0
      exact ⟨s', page, k, rfl, hk, hparent 0 0, hchild k hk⟩

end ForkReturn

end Linux011
