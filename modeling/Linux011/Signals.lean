import Linux011.Scheduler

/-!
# Signals of a process

`kernel/signal.c` and the end of `ret_from_sys_call`, for one process other than task 0:
the calls that change handlers and the blocked mask, and the delivery of the signal with
the lowest number that is pending and not blocked. `sys_ssetmask` keeps SIGKILL out of the
mask. `sys_sigaction` stores the `sa_mask` of the caller, and `do_signal` adds it to the
mask when a signal is handled (`sigkill_unblocked`).

The result has three parts with three kinds of argument. That SIGKILL stays out of the mask and
keeps its default handler (`Killable`) is an invariant: `sys_ssetmask` masks it out, the two
calls that change handlers refuse its number, and the mask that a handler adds when it is started
has it only where the condition of the runs is not met. That a pending SIGKILL is acted on is
about one return to user mode: `bsf` finds the lowest signal that is pending and not blocked, so
that this is SIGKILL or one with a lower number, and the default action ends the process. That
the condition is exact is `blocks_kill`: the first handler with SIGKILL in its `sa_mask` that is
started leaves it blocked.
-/

namespace Linux011

open Function Runs

def SIGCHLD : Nat := 17

namespace Signals

def SA_NOMASK : BitVec 32 := 0x40000000
def SA_ONESHOT : BitVec 32 := 0x80000000

structure Sigaction where
  sa_handler : BitVec 32
  sa_mask : BitVec 32
  sa_flags : BitVec 32
  sa_restorer : BitVec 32

/-- `sigaction` is indexed by `signum - 1`; `exited` holds the code of `do_exit`. -/
structure Process where
  signal : BitVec 32
  blocked : BitVec 32
  sigaction : Nat → Sigaction
  exited : Option (BitVec 32)

/-- The registers of the user that `do_signal` reads or changes. -/
structure Frame where
  eax : BitVec 32
  ecx : BitVec 32
  edx : BitVec 32
  eip : BitVec 32
  eflags : BitVec 32
  esp : BitVec 32

/-- The signal numbers that `sys_signal` and `sys_sigaction` take. -/
def SignumOk (signum : Int) : Prop := 1 ≤ signum ∧ signum ≤ 32 ∧ signum ≠ SIGKILL

instance (signum : Int) : Decidable (SignumOk signum) := inferInstanceAs (Decidable (_ ∧ _))

def sysSsetmask (p : Process) (newmask : BitVec 32) : BitVec 32 × Process :=
  (p.blocked, { p with blocked := newmask &&& ~~~sigBit SIGKILL })

/-- The old handler, or -1. -/
def sysSignal (p : Process) (signum : Int) (handler restorer : BitVec 32) :
    BitVec 32 × Process :=
  if SignumOk signum then
    let i := (signum - 1).toNat
    let tmp := ⟨handler, 0, SA_ONESHOT ||| SA_NOMASK, restorer⟩
    ((p.sigaction i).sa_handler, { p with sigaction := update p.sigaction i tmp })
  else (-1, p)

/-- What `sys_sigaction` stores for the contents of `action`. -/
def newAction (i : Nat) (action : Sigaction) : Sigaction :=
  if action.sa_flags &&& SA_NOMASK ≠ 0 then { action with sa_mask := 0 }
  else { action with sa_mask := action.sa_mask ||| (1 : BitVec 32) <<< i }

/-- The old action, which is copied to `oldaction`, or `none` for -1. -/
def sysSigaction (p : Process) (signum : Int) (action : Sigaction) :
    Option Sigaction × Process :=
  if SignumOk signum then
    let i := (signum - 1).toNat
    (some (p.sigaction i), { p with sigaction := update p.sigaction i (newAction i action) })
  else (none, p)

/-- `do_signal` for the signal `i + 1`: the process, its registers, and the longs that are
stored from the new `esp` on. -/
def doSignal (p : Process) (f : Frame) (i : Nat) : Process × Frame × List (BitVec 32) :=
  let sa := p.sigaction i
  if sa.sa_handler = 1 then (p, f, [])
  else if sa.sa_handler = 0 then
    if i + 1 = SIGCHLD then (p, f, [])
    else ({ p with exited := some ((1 : BitVec 32) <<< i) }, f, [])
  else
    let longs : BitVec 32 := if sa.sa_flags &&& SA_NOMASK ≠ 0 then 7 else 8
    let saved := if sa.sa_flags &&& SA_NOMASK ≠ 0 then [] else [p.blocked]
    ({ p with
        sigaction := if sa.sa_flags &&& SA_ONESHOT ≠ 0 then
            update p.sigaction i { sa with sa_handler := 0 } else p.sigaction
        blocked := p.blocked ||| sa.sa_mask },
      { f with eip := sa.sa_handler, esp := f.esp - 4 * longs },
      [sa.sa_restorer, BitVec.ofNat 32 (i + 1)] ++ saved ++
        [f.eax, f.ecx, f.edx, f.eflags, f.eip])

/-- `bsfl`: the lowest bit that is set. -/
def bsf (w : BitVec 32) : Option Nat := (List.range 32).find? fun i => w.getLsbD i

/-- The signal that is delivered next, less 1. -/
def deliverable (p : Process) : Option Nat := bsf (p.signal &&& ~~~p.blocked)

/-- `ret_from_sys_call` on the way back to user mode. -/
def retFromSysCall (p : Process) (f : Frame) : Process × Frame × List (BitVec 32) :=
  match deliverable p with
  | none => (p, f, [])
  | some i => doSignal { p with signal := p.signal &&& ~~~((1 : BitVec 32) <<< i) } f i

/-- The calls of the process, its returns to user mode, and signals that are sent to it or
taken from it. `fork` goes on with the child, and `execve` drops the handlers. -/
inductive Act where
  | ssetmask (newmask : BitVec 32)
  | signal (signum : Int) (handler restorer : BitVec 32)
  | sigaction (signum : Int) (action : Sigaction)
  | ret (f : Frame)
  | send (signals : BitVec 32)
  | take (signals : BitVec 32)
  | fork
  | execve

def step (p : Process) (a : Act) : Option Process :=
  if p.exited ≠ none then none
  else match a with
    | .ssetmask newmask => some (sysSsetmask p newmask).2
    | .signal signum handler restorer => some (sysSignal p signum handler restorer).2
    | .sigaction signum action => some (sysSigaction p signum action).2
    | .ret f => some (retFromSysCall p f).1
    | .send signals => some { p with signal := p.signal ||| signals }
    | .take signals => some { p with signal := p.signal &&& ~~~signals }
    | .fork => some { p with signal := 0 }
    | .execve => some { p with sigaction := fun i => { p.sigaction i with sa_handler := 0 } }

/-- The signals of `INIT_TASK`. -/
def start : Process := ⟨0, 0, fun _ => ⟨0, 0, 0, 0⟩, none⟩

/-- SIGKILL is in a mask. -/
def HasKill (mask : BitVec 32) : Prop := mask.getLsbD (SIGKILL - 1) = true

instance (mask : BitVec 32) : Decidable (HasKill mask) := inferInstanceAs (Decidable (_ = _))

/-- A user function handles the signal. -/
def Handled (sa : Sigaction) : Prop := sa.sa_handler ≠ 0 ∧ sa.sa_handler ≠ 1

instance (sa : Sigaction) : Decidable (Handled sa) := inferInstanceAs (Decidable (_ ∧ _))

/-- No handler is started whose mask has SIGKILL. -/
def Harmless (p : Process) : Act → Prop
  | .ret _ => ∀ i ∈ deliverable p, Handled (p.sigaction i) → ¬HasKill (p.sigaction i).sa_mask
  | _ => True

instance (p : Process) : ∀ a, Decidable (Harmless p a)
  | .ret _ => inferInstanceAs (Decidable (∀ i ∈ deliverable p, _))
  | .ssetmask _ | .signal .. | .sigaction .. | .send _ | .take _ | .fork | .execve =>
      isTrue trivial

variable {p p' : Process} {f : Frame} {i : Nat}

/-! ## Delivery -/

theorem bsf_some {w : BitVec 32} (h : bsf w = some i) :
    w.getLsbD i = true ∧ i < 32 ∧ ∀ j < i, w.getLsbD j = false := by
  obtain ⟨hi, hlt, hbefore⟩ := List.find?_range_eq_some.mp h
  exact ⟨hi, List.mem_range.mp hlt, fun j hj => by simpa using hbefore j hj⟩

/-- A bit that is set has the lowest one at or before it. -/
theorem bsf_le {w : BitVec 32} {j : Nat} (hj : j < 32) (hset : w.getLsbD j = true) :
    ∃ i ≤ j, bsf w = some i := by
  have hsome : (bsf w).isSome := by
    rw [bsf, List.find?_isSome]
    exact ⟨j, List.mem_range.mpr hj, hset⟩
  obtain ⟨i, hi⟩ := Option.isSome_iff_exists.mp hsome
  refine ⟨i, ?_, hi⟩
  by_contra hij
  have := (bsf_some hi).2.2 j (Nat.lt_of_not_le hij)
  rw [hset] at this
  cases this

theorem hasKill_or {a b : BitVec 32} : HasKill (a ||| b) ↔ HasKill a ∨ HasKill b := by
  simp [HasKill]

/-- A handler adds its mask to the blocked mask, and nothing else does. -/
theorem doSignal_handled (h : Handled (p.sigaction i)) :
    (doSignal p f i).1.blocked = p.blocked ||| (p.sigaction i).sa_mask := by
  rw [doSignal]
  dsimp only
  rw [if_neg h.2, if_neg h.1]

theorem doSignal_not_handled (h : ¬Handled (p.sigaction i)) :
    (doSignal p f i).1.blocked = p.blocked := by
  rw [doSignal]
  dsimp only
  by_cases hign : (p.sigaction i).sa_handler = 1
  · rw [if_pos hign]
  · have hdfl : (p.sigaction i).sa_handler = 0 := by
      by_contra hdfl
      exact h ⟨hdfl, hign⟩
    rw [if_neg hign, if_pos hdfl]
    split <;> rfl

theorem ret_handled (hi : deliverable p = some i) (h : Handled (p.sigaction i)) :
    (retFromSysCall p f).1.blocked = p.blocked ||| (p.sigaction i).sa_mask := by
  rw [retFromSysCall, hi]
  exact doSignal_handled (p := { p with signal := _ }) h

theorem ret_not_handled (hi : deliverable p = some i) (h : ¬Handled (p.sigaction i)) :
    (retFromSysCall p f).1.blocked = p.blocked := by
  rw [retFromSysCall, hi]
  exact doSignal_not_handled (p := { p with signal := _ }) h

theorem doSignal_default {j : Nat} (h : (p.sigaction j).sa_handler = 0) :
    ((doSignal p f i).1.sigaction j).sa_handler = 0 := by
  unfold doSignal
  dsimp only
  split
  · exact h
  · split
    · split <;> exact h
    · dsimp only
      split
      · rcases eq_or_ne j i with rfl | hji
        · rw [update_self]
        · rw [update_of_ne hji]
          exact h
      · exact h

/-! ## Runs -/

/-- SIGKILL is not blocked, and its handler is the default one. -/
structure Killable (p : Process) : Prop where
  blocked : ¬HasKill p.blocked
  handler : (p.sigaction (SIGKILL - 1)).sa_handler = 0

theorem not_hasKill_masked (newmask : BitVec 32) : ¬HasKill (newmask &&& ~~~sigBit SIGKILL) := by
  simp [HasKill, sigBit, SIGKILL]

theorem signum_ne {signum : Int} (h : SignumOk signum) : SIGKILL - 1 ≠ (signum - 1).toNat := by
  obtain ⟨hlow, -, hne⟩ := h
  have hkill : (SIGKILL : Int) = 9 := rfl
  have hkill' : SIGKILL = 9 := rfl
  omega

theorem Killable.sysSignal (h : Killable p) (signum : Int) (handler restorer : BitVec 32) :
    Killable (sysSignal p signum handler restorer).2 := by
  unfold Signals.sysSignal
  split
  · rename_i hok
    refine ⟨h.blocked, ?_⟩
    dsimp only
    rw [update_of_ne (signum_ne hok)]
    exact h.handler
  · exact h

theorem Killable.sysSigaction (h : Killable p) (signum : Int) (action : Sigaction) :
    Killable (sysSigaction p signum action).2 := by
  unfold Signals.sysSigaction
  split
  · rename_i hok
    refine ⟨h.blocked, ?_⟩
    dsimp only
    rw [update_of_ne (signum_ne hok)]
    exact h.handler
  · exact h

theorem Killable.ret (h : Killable p) (hmask : Harmless p (.ret f)) :
    Killable (retFromSysCall p f).1 := by
  cases hi : deliverable p with
  | none =>
      rw [retFromSysCall, hi]
      exact h
  | some i =>
      constructor
      · by_cases hh : Handled (p.sigaction i)
        · rw [ret_handled hi hh, hasKill_or]
          rintro (hb | hm)
          · exact h.blocked hb
          · exact hmask i hi hh hm
        · rw [ret_not_handled hi hh]
          exact h.blocked
      · rw [retFromSysCall, hi]
        exact doSignal_default h.handler

theorem Killable.step {a : Act} (h : Killable p) (hmask : Harmless p a)
    (hs : step p a = some p') : Killable p' := by
  unfold Signals.step at hs
  split at hs
  · cases hs
  · cases a with
    | ssetmask newmask =>
        obtain rfl := Option.some.inj hs
        exact ⟨not_hasKill_masked newmask, h.handler⟩
    | signal signum handler restorer =>
        obtain rfl := Option.some.inj hs
        exact h.sysSignal signum handler restorer
    | sigaction signum action =>
        obtain rfl := Option.some.inj hs
        exact h.sysSigaction signum action
    | ret f =>
        obtain rfl := Option.some.inj hs
        exact h.ret hmask
    | send signals =>
        obtain rfl := Option.some.inj hs
        exact ⟨h.blocked, h.handler⟩
    | take signals =>
        obtain rfl := Option.some.inj hs
        exact ⟨h.blocked, h.handler⟩
    | fork =>
        obtain rfl := Option.some.inj hs
        exact ⟨h.blocked, h.handler⟩
    | execve =>
        obtain rfl := Option.some.inj hs
        exact ⟨h.blocked, rfl⟩

/-- A pending SIGKILL that is not blocked is delivered, after the signals with lower
numbers that are deliverable, and ends the process. -/
theorem Killable.delivers (h : Killable p) (hpending : HasKill p.signal) (f : Frame) :
    ∃ i ≤ SIGKILL - 1, deliverable p = some i ∧
      (i = SIGKILL - 1 → (retFromSysCall p f).1.exited = some (sigBit SIGKILL)) := by
  have hset : (p.signal &&& ~~~p.blocked).getLsbD (SIGKILL - 1) = true := by
    have hb : p.blocked.getLsbD (SIGKILL - 1) = false := by simpa [HasKill] using h.blocked
    have hp : p.signal.getLsbD (SIGKILL - 1) = true := hpending
    have hlt : SIGKILL - 1 < 32 := by decide
    rw [BitVec.getLsbD_and, BitVec.getLsbD_not, hb, hp, decide_eq_true hlt]
    rfl
  obtain ⟨i, hle, hi⟩ := bsf_le (by decide) hset
  refine ⟨i, hle, hi, fun e => ?_⟩
  have hd : deliverable p = some i := hi
  have hdfl : (p.sigaction i).sa_handler = 0 := by rw [e]; exact h.handler
  have hign : (0 : BitVec 32) ≠ 1 := by decide
  have hchld : i + 1 ≠ SIGCHLD := by rw [e]; decide
  rw [retFromSysCall, hd]
  dsimp only
  rw [doSignal]
  dsimp only
  rw [hdfl, if_neg hign, if_pos rfl, if_neg hchld, e]
  rfl

theorem blocks_kill (hbad : ¬Harmless p (.ret f)) (hs : step p (.ret f) = some p') :
    HasKill p'.blocked := by
  unfold Signals.step at hs
  split at hs
  · cases hs
  · obtain rfl := Option.some.inj hs
    simp only [Harmless, not_forall, not_not] at hbad
    obtain ⟨i, hi, hh, hm⟩ := hbad
    rw [ret_handled hi hh]
    exact hasKill_or.mpr (Or.inr hm)

/-- **SIGKILL is never blocked** in the runs in which no handler is started whose `sa_mask`
has it, and a pending one is delivered: the next return to user mode delivers a signal
with this or a lower number, and SIGKILL ends the process. The first handler with SIGKILL
in its `sa_mask` blocks it. -/
theorem sigkill_unblocked (h : Reach step Harmless start p) :
    ¬HasKill p.blocked ∧
    (HasKill p.signal → ∀ f, ∃ i ≤ SIGKILL - 1, deliverable p = some i ∧
      (i = SIGKILL - 1 → (retFromSysCall p f).1.exited = some (sigBit SIGKILL))) ∧
    ∀ f p', ¬Harmless p (.ret f) → step p (.ret f) = some p' → HasKill p'.blocked := by
  have hkill : Killable p :=
    h.invariant ⟨by decide, rfl⟩ fun _ _ _ hp hmask hs => hp.step hmask hs
  exact ⟨hkill.blocked, hkill.delivers, fun _ _ => blocks_kill⟩

/-- A handler for SIGINT without a mask, and SIGINT arrives. -/
def interrupted : List Act := [.sigaction 2 ⟨0x1000, 0, 0, 0⟩, .send 2, .ret ⟨0, 0, 0, 0, 0, 0⟩]

theorem sigkill_unblocked_interrupted :
    ∃ p, exec (checked step Harmless) start interrupted = some p ∧ ¬HasKill p.blocked := by
  obtain ⟨p, hp, -⟩ : ∃ p, exec (checked step Harmless) start interrupted = some p ∧ True :=
    exec_any (by decide)
  exact ⟨p, hp, (sigkill_unblocked (exec_checked hp)).1⟩

/-- The same with all signals in the mask; SIGKILL is then not deliverable. -/
theorem not_sigkill_unblocked :
    ∃ p, exec step start [.sigaction 2 ⟨0x1000, -1, 0, 0⟩, .send 2, .ret ⟨0, 0, 0, 0, 0, 0⟩,
        .send (sigBit SIGKILL)] = some p ∧
      HasKill p.blocked ∧ HasKill p.signal ∧ deliverable p = none :=
  exec_any (by decide)

end Signals

end Linux011
