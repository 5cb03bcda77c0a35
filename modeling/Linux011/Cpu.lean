import Mathlib.Logic.Function.Basic
import Mathlib.Tactic.Common

/-!
# A processor with a stack

Straight-line code that pushes and pops: the general registers, the segment registers, and
a stack in any memory of double words. `Holds` says which words are on the stack, from the
top; a push puts one more word there, and a pop takes the first.

A push writes below everything that `Holds` speaks of, so that the words on the stack stay where
they are as long as the stack does not wrap and its words are apart from one another; this is
what the memory class asks for and what `At` keeps. Each instruction has one lemma that says how
it moves the list of words. A segment register is pushed as a half word, whose upper half is what
the memory had there, so that only the lower half of such a word is ever known.
-/

namespace Cpu

open Function

/-- A memory of double words. Words at different aligned addresses are apart. -/
class Memory (M : Type*) where
  load : M → BitVec 32 → BitVec 32
  store : M → BitVec 32 → BitVec 32 → M
  load_store : ∀ m a v, load (store m a v) a = v
  load_store_of_ne : ∀ m a b v, a.toNat % 4 = 0 → b.toNat % 4 = 0 → b ≠ a →
    load (store m a v) b = load m b

structure Stack (M : Type*) where
  mem : M
  esp : BitVec 32

namespace Stack

variable {M : Type*} [Memory M] {s : Stack M} {x : BitVec 32} {xs : List (BitVec 32)}

def push (s : Stack M) (v : BitVec 32) : Stack M := ⟨Memory.store s.mem (s.esp - 4) v, s.esp - 4⟩

def pushAll (s : Stack M) (vs : List (BitVec 32)) : Stack M := vs.foldl push s

/-- The word at the index `i` from the top. -/
def word (s : Stack M) (i : Nat) : BitVec 32 :=
  Memory.load s.mem (s.esp + BitVec.ofNat 32 (4 * i))

def drop (s : Stack M) (n : Nat) : Stack M :=
  { s with esp := s.esp + BitVec.ofNat 32 (4 * n) }

/-- The words on the stack, the top first. -/
def Holds (s : Stack M) (xs : List (BitVec 32)) : Prop :=
  ∀ i (h : i < xs.length), s.word i = xs[i]

/-- The words on an aligned stack. -/
structure At (s : Stack M) (xs : List (BitVec 32)) : Prop where
  aligned : s.esp.toNat % 4 = 0
  holds : s.Holds xs

theorem word_drop (s : Stack M) (n i : Nat) : (s.drop n).word i = s.word (n + i) := by
  unfold word drop
  congr 1
  bv_omega

theorem at_nil (h : s.esp.toNat % 4 = 0) : s.At [] := ⟨h, fun i hi => absurd hi (Nat.not_lt_zero i)⟩

theorem At.word (h : s.At (x :: xs)) : s.word 0 = x := h.holds 0 (Nat.zero_lt_succ _)

theorem At.drop {ys : List (BitVec 32)} (h : s.At (ys ++ xs)) : (s.drop ys.length).At xs := by
  refine ⟨?_, fun i hi => ?_⟩
  · have ha := h.aligned
    show (s.esp + BitVec.ofNat 32 (4 * ys.length)).toNat % 4 = 0
    bv_omega
  · rw [word_drop, h.holds (ys.length + i) (by rw [List.length_append]; omega),
      List.getElem_append_right (Nat.le_add_right _ _)]
    simp only [Nat.add_sub_cancel_left]

theorem At.pop (h : s.At (x :: xs)) : (s.drop 1).At xs := (show s.At ([x] ++ xs) from h).drop

theorem At.push (h : s.At xs) (hlen : 4 * (xs.length + 1) < 0x100000000) (v : BitVec 32) :
    (s.push v).At (v :: xs) := by
  have ha := h.aligned
  have halign : (s.push v).esp.toNat % 4 = 0 := by
    show (s.esp - 4).toNat % 4 = 0
    bv_omega
  refine ⟨halign, fun i hi => ?_⟩
  cases i with
  | zero =>
      show Memory.load (Memory.store s.mem (s.esp - 4) v) (s.esp - 4 + BitVec.ofNat 32 (4 * 0)) = v
      rw [show s.esp - 4 + BitVec.ofNat 32 (4 * 0) = s.esp - 4 by bv_omega, Memory.load_store]
  | succ i =>
      have hi : i < xs.length := Nat.lt_of_succ_lt_succ hi
      have haddr : s.esp - 4 + BitVec.ofNat 32 (4 * (i + 1))
          = s.esp + BitVec.ofNat 32 (4 * i) := by bv_omega
      show Memory.load (Memory.store s.mem (s.esp - 4) v)
        (s.esp - 4 + BitVec.ofNat 32 (4 * (i + 1))) = xs[i]
      rw [haddr, Memory.load_store_of_ne _ _ _ _ (by bv_omega) (by bv_omega) (by bv_omega)]
      exact h.holds i hi

/-- A row of pushes: the last word that was pushed is on top. -/
theorem At.pushAll (h : s.At xs) (vs : List (BitVec 32))
    (hlen : 4 * (xs.length + vs.length) < 0x100000000) :
    (s.pushAll vs).At (vs.reverse ++ xs) := by
  induction vs generalizing s xs with
  | nil => exact h
  | cons v vs ih =>
      rw [List.length_cons] at hlen
      have := ih (h.push (by omega) v) (by rw [List.length_cons]; omega)
      rwa [List.reverse_cons, List.append_assoc, List.singleton_append]

theorem esp_pushAll (s : Stack M) (vs : List (BitVec 32)) :
    (s.pushAll vs).esp = s.esp - BitVec.ofNat 32 (4 * vs.length) := by
  induction vs generalizing s with
  | nil => exact (BitVec.sub_zero _).symm
  | cons v vs ih =>
      show ((s.push v).pushAll vs).esp = _
      rw [ih, List.length_cons]
      show s.esp - 4 - _ = _
      bv_omega

/-- A memory that agrees on the words has them on the stack too. -/
theorem At.congr {m : M} (h : s.At xs) (hm : ∀ i < xs.length,
      Memory.load m (s.esp + BitVec.ofNat 32 (4 * i)) = s.word i) : At ⟨m, s.esp⟩ xs :=
  ⟨h.aligned, fun i hi => (hm i hi).trans (h.holds i hi)⟩

end Stack

/-! ## Instructions -/

inductive Reg where
  | eax | ebx | ecx | edx | esi | edi | ebp
deriving DecidableEq

inductive Seg where
  | cs | ds | es | fs | gs | ss
deriving DecidableEq

structure State (M : Type*) extends Stack M where
  reg : Reg → BitVec 32
  seg : Seg → BitVec 16
  eip : BitVec 32
  eflags : BitVec 32

/-- A segment register is pushed as a half word: the upper half keeps what was there. -/
def halfPush (old : BitVec 32) (sel : BitVec 16) : BitVec 32 :=
  (old &&& 0xFFFF0000#32) ||| sel.setWidth 32

theorem setWidth_halfPush (old : BitVec 32) (sel : BitVec 16) :
    (halfPush old sel).setWidth 16 = sel := by
  unfold halfPush
  ext i hi
  simp

inductive Instr where
  /-- `pushl %reg` -/
  | pushl (r : Reg)
  /-- `push %seg` -/
  | push (s : Seg)
  /-- `popl %reg` -/
  | popl (r : Reg)
  /-- `pop %seg` -/
  | pop (s : Seg)
  /-- `movl $imm,%reg` -/
  | movl (imm : BitVec 32) (r : Reg)
  /-- `mov %reg,%seg`, with the lower half of the register -/
  | mov (r : Reg) (s : Seg)
  /-- `movl %esp,%reg` -/
  | movEsp (r : Reg)
  /-- `addl $imm,%esp` -/
  | addEsp (imm : BitVec 32)
  | ret
  /-- `iret` to an outer ring -/
  | iret

/-- Where a trap gate leads: the code and stack segment of the kernel, and the handler. -/
structure Gate where
  cs : BitVec 16
  ss : BitVec 16
  handler : BitVec 32

namespace State

variable {M : Type*} [Memory M]

def setStack (c : State M) (s : Stack M) : State M := { c with toStack := s }

def setReg (c : State M) (r : Reg) (v : BitVec 32) : State M := { c with reg := update c.reg r v }

def setSeg (c : State M) (s : Seg) (sel : BitVec 16) : State M :=
  { c with seg := update c.seg s sel }

/-- The half words that are pushed for a segment register. -/
def pushSeg (c : State M) (s : Seg) : State M :=
  c.setStack (c.push (halfPush (Memory.load c.mem (c.esp - 4)) (c.seg s)))

/-- A trap in ring 3: the stack is the one of the kernel, and the registers that `iret` needs
are on it. -/
def trap (c : State M) (g : Gate) (esp0 : BitVec 32) : State M :=
  let k := c.setStack ⟨c.mem, esp0⟩
  let k := k.pushSeg .ss
  let k := k.setStack (k.push c.esp)
  let k := k.setStack (k.push c.eflags)
  let k := k.pushSeg .cs
  let k := k.setStack (k.push c.eip)
  { (k.setSeg .cs g.cs).setSeg .ss g.ss with eip := g.handler }

def exec (c : State M) : Instr → State M
  | .pushl r => c.setStack (c.push (c.reg r))
  | .push s => c.pushSeg s
  | .popl r => (c.setStack (c.drop 1)).setReg r (c.word 0)
  | .pop s => (c.setStack (c.drop 1)).setSeg s ((c.word 0).setWidth 16)
  | .movl imm r => c.setReg r imm
  | .mov r s => c.setSeg s ((c.reg r).setWidth 16)
  | .movEsp r => c.setReg r c.esp
  | .addEsp imm => c.setStack ⟨c.mem, c.esp + imm⟩
  | .ret => { c.setStack (c.drop 1) with eip := c.word 0 }
  | .iret =>
    { mem := c.mem, esp := c.word 3, reg := c.reg
      seg := update (update c.seg .cs ((c.word 1).setWidth 16)) .ss ((c.word 4).setWidth 16)
      eip := c.word 0, eflags := c.word 2 }

def run (c : State M) (is : List Instr) : State M := is.foldl exec c

variable {c : State M} {x : BitVec 32} {xs : List (BitVec 32)}

/-! ## What the instructions do to the stack -/

theorem at_pushl (h : c.At xs) (hlen : 4 * (xs.length + 1) < 0x100000000) (r : Reg) :
    (c.exec (.pushl r)).At (c.reg r :: xs) := h.push hlen _

theorem at_push (h : c.At xs) (hlen : 4 * (xs.length + 1) < 0x100000000) (s : Seg) :
    ∃ w, w.setWidth 16 = c.seg s ∧ (c.exec (.push s)).At (w :: xs) :=
  ⟨_, setWidth_halfPush _ _, h.push hlen _⟩

theorem at_popl (h : c.At (x :: xs)) (r : Reg) :
    (c.exec (.popl r)).At xs ∧ (c.exec (.popl r)).reg = update c.reg r x ∧
      (c.exec (.popl r)).seg = c.seg :=
  ⟨h.pop, congrArg (update c.reg r) h.word, rfl⟩

theorem at_pop (h : c.At (x :: xs)) (s : Seg) :
    (c.exec (.pop s)).At xs ∧ (c.exec (.pop s)).seg = update c.seg s (x.setWidth 16) ∧
      (c.exec (.pop s)).reg = c.reg :=
  ⟨h.pop, congrArg (fun w : BitVec 32 => update c.seg s (w.setWidth 16)) h.word, rfl⟩

theorem at_addEsp {ys : List (BitVec 32)} (h : c.At (ys ++ xs)) :
    (c.exec (.addEsp (BitVec.ofNat 32 (4 * ys.length)))).At xs := h.drop

theorem at_ret (h : c.At (x :: xs)) :
    (c.exec .ret).At xs ∧ (c.exec .ret).eip = x ∧ (c.exec .ret).reg = c.reg ∧
      (c.exec .ret).seg = c.seg :=
  ⟨h.pop, h.word, rfl, rfl⟩

theorem at_trap (c : State M) (g : Gate) {esp0 : BitVec 32} (h : esp0.toNat % 4 = 0) :
    ∃ cs ss, cs.setWidth 16 = c.seg .cs ∧ ss.setWidth 16 = c.seg .ss ∧
      (c.trap g esp0).At [c.eip, cs, c.eflags, c.esp, ss] := by
  have h₀ : Stack.At ⟨c.mem, esp0⟩ [] := Stack.at_nil h
  obtain ⟨ss, hss, h₁⟩ := at_push (c := c.setStack ⟨c.mem, esp0⟩) h₀ (by simp) .ss
  have h₂ := (h₁.push (by simp) c.esp).push (by simp) c.eflags
  obtain ⟨cs, hcs, h₃⟩ := at_push (c := c.setStack _) h₂ (by simp) .cs
  exact ⟨cs, ss, hcs, hss, h₃.push (by simp) c.eip⟩

theorem at_iret {eip cs eflags esp ss : BitVec 32}
    (h : c.At (eip :: cs :: eflags :: esp :: ss :: xs)) :
    (c.exec .iret).eip = eip ∧ (c.exec .iret).eflags = eflags ∧ (c.exec .iret).esp = esp ∧
      (c.exec .iret).reg = c.reg ∧
      (c.exec .iret).seg = update (update c.seg .cs (cs.setWidth 16)) .ss (ss.setWidth 16) := by
  have hw := h.holds
  refine ⟨hw 0 (by simp), hw 2 (by simp), hw 3 (by simp), rfl, ?_⟩
  show update (update c.seg .cs ((c.word 1).setWidth 16)) .ss ((c.word 4).setWidth 16) = _
  rw [hw 1 (by simp), hw 4 (by simp)]
  rfl

end State

end Cpu
