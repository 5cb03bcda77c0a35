import Linux011.Echo

/-!
# Serial lines

`rs_write` of `serial.c` and the interrupt of `rs_io.s`, below the tty of `Echo`: the calls of
`tty_write` and of `copy_to_cooked` put characters into the write queue and end in `rs_write`, and
the interrupt takes them off. The 8250 behind it has one place for the next character, and tells
when it is empty.

A round of the interrupt may come between any two steps of the tty. That is more than a line does,
whose interrupt waits until the last one has ended.

The tty above is not proved about again. A step of the line is a step of `Echo` or one that
leaves it alone (`step_refines`), so that the runs of a line are runs of the tty, and that
nothing is lost there holds here too. What is added is the way down: the characters on the line
and in the chip are those that were taken off the queue (`Driven`), and as long as the queue has
something in it, the interrupt for sending is enabled or somebody is on the way to `rs_write`,
which enables it. The chip tells that it is empty when this interrupt is enabled and once more
for each character that it has sent. So the queue drains: with nobody on the way, every two steps
of the chip send one character, and `Driven.drains` is an induction over the characters that are
left.
-/

namespace Linux011

open Function Runs
open Tty (Given Line TtyQueue TtyStruct INC)
open Echo (Cook Pc)

namespace Serial

variable {T : Type*}

/-! ## The chip -/

/-- What there is for sending. -/
structure Uart where
  /-- the interrupts that are enabled, at `data+1` -/
  ier : UInt8
  /-- the character that is next on the line -/
  thr : Option Int8
  /-- an interrupt tells that `thr` is empty -/
  empty : Bool
  line : List Int8

namespace Uart

def sends (u : Uart) : Bool := decide (u.ier &&& 0x02 ≠ 0)

/-- `outb(value,data+1)`: the interrupt that is enabled tells at once. -/
def setIer (u : Uart) (value : UInt8) : Uart :=
  { u with
    ier := value
    empty := decide (value &&& 0x02 ≠ 0) && (u.empty || !u.sends && u.thr.isNone) }

/-- `outb(c,data)` -/
def outb (u : Uart) (c : Int8) : Uart := { u with thr := some c, empty := false }

/-- The chip has sent the character. -/
def shift (u : Uart) : Option Uart :=
  u.thr.map fun c => { u with thr := none, empty := u.sends, line := u.line ++ [c] }

/-- Behind `init`: "enable all intrs but writes". -/
def init : Uart := ⟨0x0d, none, false, []⟩

end Uart

/-! ## The driver -/

structure State (T : Type*) where
  tty : Echo.State T
  uart : Uart

/-- `rs_write` -/
def State.rsWrite (s : State T) : State T :=
  if s.tty.write_q.EMPTY then s else { s with uart := s.uart.setIer (s.uart.ier ||| 0x02) }

/-- `write_buffer_empty`, without the sleeping process: it may wake up at any time. -/
def State.writeBufferEmpty (s : State T) : State T :=
  { s with uart := s.uart.setIer (s.uart.ier &&& 0x0d) }

/-- The next character goes to the chip. -/
def State.send (s : State T) : State T :=
  let (al, q) := s.tty.write_q.GETCH
  ⟨{ s.tty with taken := s.tty.taken ++ [al] }.setWrite q, s.uart.outb al⟩

/-- `write_char` -/
def State.writeChar (s : State T) : State T :=
  if s.tty.write_q.CHARS = 0 then s.writeBufferEmpty
  else
    let s := s.send
    if s.tty.write_q.EMPTY then s.writeBufferEmpty else s

/-- `read_char`, up to the loop of `copy_to_cooked`. -/
def State.readChar (s : State T) (al : Int8) : State T :=
  let tty := s.tty.line.tty
  let q := { tty.read_q with buf := update tty.read_q.buf tty.read_q.head al }
  let q := if INC q.head = q.tail then q else { q with head := INC q.head }
  { s with tty := { s.tty with
      line := { s.tty.line with tty := { tty with read_q := q } }
      intr := .round :: s.tty.intr } }

/-- A round of `rep_int`: the chip has told `al` why it interrupts, and `data` is what it has
received. -/
def State.repInt (s : State T) (al : Nat) (data : Int8) : State T :=
  if al % 2 = 1 ∨ 6 < al then s
  else match al / 2 with
    | 1 => s.writeChar
    | 2 => s.readChar data
    -- `modem_status` and `line_status` read a register
    | _ => s

inductive Act (T : Type*) where
  /-- what is not done by the driver -/
  | tty (a : Echo.Act T)
  | interrupt (al : Nat) (data : Int8)
  /-- a character is on the line -/
  | shift

/-- The queues of a serial line are not those of the keyboard, and nothing but the interrupt takes
from the write queue. -/
def own : Echo.Act T → Bool
  | .put_queue _ | .getch => false
  | _ => true

/-- The step is the call of `tty->write`. -/
def writes (s : Echo.State T) : Echo.Act T → Bool
  | .cook =>
      match s.intr with
      | .write _ :: _ => true
      | _ => false
  | .go t _ =>
      match s.pc t with
      | .write _ => true
      | _ => false
  | _ => false

section Step

variable [DecidableEq T]

def step (g : Given) (below : Int8 → Bool) (s : State T) : Act T → Option (State T)
  | .tty a =>
      if own a then
        (Echo.step g below s.tty a).map fun tty =>
          if writes s.tty a then State.rsWrite ⟨tty, s.uart⟩ else ⟨tty, s.uart⟩
      else none
  | .interrupt al data =>
      if al = 2 then
        -- that it has been told clears the interrupt
        if s.uart.empty then
          some ({ s with uart := { s.uart with empty := false } }.repInt al data)
        else none
      else some (s.repInt al data)
  | .shift => s.uart.shift.map fun uart => { s with uart := uart }

def start (line : Line T) (c_oflag : UInt32) (cr_flag : Bool) : State T where
  tty := Echo.start line c_oflag cr_flag
  uart := .init

end Step

/-- The echo finds the places that it needs. -/
def Roomy [Fintype T] (g : Given) (s : State T) : Act T → Prop
  | .tty a => Echo.Roomy g s.tty a
  | _ => True

instance [Fintype T] (g : Given) (s : State T) : ∀ a : Act T, Decidable (Roomy g s a)
  | .tty a => inferInstanceAs (Decidable (Echo.Roomy g s.tty a))
  | .interrupt .. | .shift => inferInstanceAs (Decidable True)

/-- The chip does it, or has it done. -/
def Chip (_ : State T) (a : Act T) : Prop := a = .shift ∨ ∃ data, a = .interrupt 2 data

def Cook.due : Cook → Bool
  | .put .. | .inc .. | .write _ => true
  | .round | .kill => false

def Pc.due : Pc → Bool
  | .test _ | .fetch _ | .put _ _ | .inc _ _ | .write _ => true
  | .user _ | .loop _ | .asleep _ | .schedule _ => false

/-- Somebody is on the way to `rs_write`. -/
def Due (s : Echo.State T) : Prop := (∃ a ∈ s.intr, Cook.due a = true) ∨ ∃ t, Pc.due (s.pc t) = true

/-- Everything that has been put is on the line, in the chip or in the queue. What is in the queue
is going to be sent, as soon as everybody has come to `rs_write`; the interrupts then send all of
it, and are switched off. -/
structure Flows (g : Given) (below : Int8 → Bool) [DecidableEq T] (s : State T) : Prop where
  kept : s.uart.line ++ s.uart.thr.toList ++ s.tty.write_q.contents = s.tty.accepted
  told : s.uart.empty = true → s.uart.thr = none
  driven : s.tty.write_q.EMPTY = false →
    Due s.tty ∨ s.uart.sends = true ∧ (s.uart.thr ≠ none ∨ s.uart.empty = true)
  drains : ¬Due s.tty → ∃ s', Reach (step g below) Chip s s' ∧ s'.uart.line = s.tty.accepted ∧
    s'.tty.write_q.EMPTY = true ∧ s'.uart.ier = 0x0d

variable {g : Given} {below : Int8 → Bool} {s s' : State T} {e e' : Echo.State T} {u : Uart}
  {t : T}

/-! ## The tty above -/

/-- What a step of the tty leaves to the driver. -/
structure Onward (e : Echo.State T) (write : Bool) (e' : Echo.State T) : Prop where
  taken : e'.taken = e.taken
  queue : e'.write_q.EMPTY = e.write_q.EMPTY ∨ Due e'
  due : write = false → Due e → Due e'

theorem due_puts (k : Echo.Then) (cs : List Int8) : Cook.due (Echo.puts k cs) = true := by
  cases cs <;> rfl

theorem cook_onward {a : Cook} {rest : List Cook} (hintr : e.intr = a :: rest) :
    Onward e (writes e .cook) (e.cook g rest a) := by
  have hquiet : a.owes = 0 → (Cook.due a = true → writes e .cook = true) →
      Onward e (writes e .cook) (e.cook g rest a) := by
    intro howes hdue
    have hopens := Echo.cook_opens (g := g) (s := e) howes rest
    refine ⟨hopens.taken, .inl (congrArg TtyQueue.EMPTY hopens.write_q), fun hw h => ?_⟩
    have hsub : ∀ b ∈ rest, b ∈ (e.cook g rest a).intr := fun b hb => by
      rcases hopens.intr with h | ⟨a', h, -, -⟩
      · rw [h]
        exact hb
      · rw [h]
        exact List.mem_cons_of_mem _ hb
    rcases h with ⟨b, hb, hbdue⟩ | ⟨t, ht⟩
    · rw [hintr] at hb
      rcases List.mem_cons.mp hb with rfl | hb
      · exact absurd (hdue hbdue) (Bool.eq_false_iff.mp hw)
      · exact .inl ⟨b, hsub b hb, hbdue⟩
    · rw [← hopens.pc] at ht
      exact .inr ⟨t, ht⟩
  cases a with
  | round | kill => exact hquiet rfl fun h => absurd h Bool.false_ne_true
  | write k => exact hquiet rfl fun _ => by simp only [writes, hintr]
  | put c cs k =>
      have hdue : Due (e.cook g rest (.put c cs k)) := .inl ⟨_, List.mem_cons_self .., rfl⟩
      exact ⟨rfl, .inr hdue, fun _ _ => hdue⟩
  | inc c cs k =>
      have hdue : Due (e.cook g rest (.inc c cs k)) :=
        .inl ⟨_, List.mem_cons_self .., due_puts k cs⟩
      exact ⟨rfl, .inr hdue, fun _ _ => hdue⟩

section Tasks

variable [DecidableEq T]

theorem moveTo_onward {e₁ : Echo.State T} {w : Bool} (pc : Pc) (htaken : e₁.taken = e.taken)
    (hintr : e₁.intr = e.intr) (hpc : e₁.pc = e.pc)
    (hq : e₁.write_q.EMPTY = e.write_q.EMPTY ∨ Pc.due pc = true)
    (hdue : w = false → Pc.due (e.pc t) = true → Pc.due pc = true) :
    Onward e w (e₁.moveTo t pc) := by
  have hself : (e₁.moveTo t pc).pc t = pc := Echo.pc_moveTo e₁ t pc
  refine ⟨htaken, hq.imp id fun h => .inr ⟨t, by rwa [hself]⟩, fun hw h => ?_⟩
  rcases h with ⟨a, ha, hadue⟩ | ⟨t', ht'⟩
  · rw [← hintr] at ha
    exact .inl ⟨a, ha, hadue⟩
  · by_cases ht : t' = t
    · subst ht
      refine .inr ⟨t', ?_⟩
      rw [hself]
      exact hdue hw ht'
    · exact .inr ⟨t', by rwa [Echo.pc_moveTo_of_ne e₁ ht, hpc]⟩

theorem post_due (below : Int8 → Bool) (c_oflag : UInt32) (cr_flag : Bool) (c : Int8)
    (w : Echo.Writer) : Pc.due (Echo.post below c_oflag cr_flag c w).1 = true := by
  unfold Echo.post
  split
  · dsimp only
    generalize (if c.toInt = 13 ∧ Echo.OCRNL c_oflag = true then (10 : Int8)
      else if c.toInt = 10 ∧ Echo.ONLRET c_oflag = true then 13 else c) = c
    split <;> rfl
  · rfl

omit [DecidableEq T] in
theorem not_due {pc : Pc} (hpc : e.pc t = pc) (hquiet : Pc.due pc = false) :
    ¬Pc.due (e.pc t) = true := by
  rw [hpc, hquiet]
  exact Bool.false_ne_true

theorem go_onward {c : Int8} (h : e.go below t c (e.pc t) = some e') :
    Onward e (writes e (.go t c)) e' := by
  cases hpc : e.pc t with
  | user ret =>
      rw [hpc] at h
      cases h
  | loop w =>
      have hdue : ∀ (b : Bool) (pc : Pc), b = false → Pc.due (e.pc t) = true → Pc.due pc = true :=
        fun _ _ _ h => absurd h (not_due hpc rfl)
      rw [hpc] at h
      obtain rfl := Option.some.inj h
      split
      · exact moveTo_onward _ rfl rfl rfl (.inl rfl) (hdue _ _)
      · split
        · exact moveTo_onward _ rfl rfl rfl (.inl rfl) (hdue _ _)
        · exact moveTo_onward _ rfl rfl rfl (.inl rfl) (hdue _ _)
  | asleep w =>
      rw [hpc] at h
      obtain ⟨-, h⟩ := Option.ite_none_right_eq_some.mp h
      obtain rfl := Option.some.inj h
      exact moveTo_onward _ rfl rfl rfl (.inl rfl) fun _ h => absurd h (not_due hpc rfl)
  | test w =>
      rw [hpc] at h
      obtain rfl := Option.some.inj h
      exact moveTo_onward _ rfl rfl rfl (.inl rfl) fun _ _ => by split <;> rfl
  | fetch w =>
      rw [hpc] at h
      obtain rfl := Option.some.inj h
      exact moveTo_onward _ rfl rfl rfl (.inl rfl) fun _ _ => post_due ..
  | put c w =>
      rw [hpc] at h
      obtain rfl := Option.some.inj h
      exact moveTo_onward _ rfl rfl rfl (.inl rfl) fun _ _ => rfl
  | inc c w =>
      rw [hpc] at h
      obtain rfl := Option.some.inj h
      exact moveTo_onward _ rfl rfl rfl (.inr rfl) fun _ _ => rfl
  | write w =>
      rw [hpc] at h
      obtain rfl := Option.some.inj h
      have hw : writes e (.go t c) = true := by simp only [writes, hpc]
      exact moveTo_onward _ rfl rfl rfl (.inl rfl) fun h => absurd (hw.symm.trans h) (by decide)
  | schedule w =>
      rw [hpc] at h
      obtain rfl := Option.some.inj h
      exact moveTo_onward _ rfl rfl rfl (.inl rfl) fun _ h => absurd h (not_due hpc rfl)

theorem tty_onward {a : Echo.Act T} (hown : own a = true) (h : Echo.step g below e a = some e') :
    Onward e (writes e a) e' := by
  cases a with
  | put_queue | getch => cases hown
  | copy_to_cooked =>
      obtain rfl := Option.some.inj h
      exact ⟨rfl, .inl rfl, fun _ h => h.imp_left fun ⟨a, ha, hdue⟩ =>
        ⟨a, List.mem_cons_of_mem _ ha, hdue⟩⟩
  | cook =>
      cases hintr : e.intr with
      | nil =>
          simp only [Echo.step, hintr] at h
          cases h
      | cons a rest =>
          simp only [Echo.step, hintr] at h
          obtain rfl := Option.some.inj h
          exact cook_onward hintr
  | tty_read secondary =>
      obtain ⟨-, h⟩ := Option.ite_none_right_eq_some.mp h
      obtain rfl := Option.some.inj h
      exact ⟨rfl, .inl rfl, fun _ => id⟩
  | other cr_flag =>
      obtain ⟨-, h⟩ := Option.ite_none_right_eq_some.mp h
      obtain rfl := Option.some.inj h
      exact ⟨rfl, .inl rfl, fun _ => id⟩
  | kill t signal =>
      obtain rfl := Option.some.inj h
      exact ⟨rfl, .inl rfl, fun _ => id⟩
  | tty_write t nr =>
      simp only [Echo.step] at h
      split at h
      · rename_i ret _ hpc
        obtain rfl := Option.some.inj h
        exact moveTo_onward _ rfl rfl rfl (.inl rfl) fun _ h => absurd h (not_due hpc rfl)
      · cases h
  | go t c =>
      obtain ⟨-, h⟩ := Option.ite_none_right_eq_some.mp h
      exact go_onward h

/-! ## The runs of the tty -/

omit [DecidableEq T] in
theorem repInt_cases (s : State T) (al : Nat) (data : Int8) : s.repInt al data = s ∨
    al = 2 ∧ s.repInt al data = s.writeChar ∨ s.repInt al data = s.readChar data := by
  unfold State.repInt
  split
  · exact .inl rfl
  · rename_i hal
    split
    · exact .inr (.inl ⟨by omega, rfl⟩)
    · exact .inr (.inr rfl)
    · exact .inl rfl

omit [DecidableEq T] in
theorem writeChar_tty (s : State T) : s.writeChar.tty = s.tty ∨
    s.tty.write_q.EMPTY = false ∧ s.writeChar.tty = s.send.tty := by
  unfold State.writeChar
  split
  · exact .inl rfl
  · rename_i hchars
    refine .inr ⟨TtyQueue.EMPTY_eq_false.mpr (Nat.pos_of_ne_zero hchars), ?_⟩
    dsimp only
    split <;> rfl

/-- A step of the line is a step of the tty, or some, or none. -/
theorem step_refines [Fintype T] {a : Act T} (hok : Roomy g s a) (h : step g below s a = some s') :
    Reach (Echo.step g below) (Echo.Roomy g) s.tty s'.tty := by
  have hwrite : ∀ s : State T,
      Reach (Echo.step g below) (Echo.Roomy g) s.tty s.writeChar.tty := by
    intro s
    rcases writeChar_tty s with h | ⟨hempty, h⟩
    · rw [h]
      exact .start
    · rw [h]
      exact .one (a := .getch) hempty rfl
  have hread : ∀ al, Reach (Echo.step g below) (Echo.Roomy g) s.tty (s.readChar al).tty := by
    intro al
    obtain ⟨e, hput, hcall⟩ : ∃ e, Echo.step g below s.tty (.put_queue [al]) = some e ∧
        Echo.step g below e .copy_to_cooked = some (s.readChar al).tty := ⟨_, rfl, rfl⟩
    exact (Reach.one trivial hput).next (show Echo.Roomy g e .copy_to_cooked from trivial) hcall
  cases a with
  | tty a =>
      obtain ⟨-, h⟩ := Option.ite_none_right_eq_some.mp h
      obtain ⟨e', he', rfl⟩ := Option.map_eq_some_iff.mp h
      refine .one (a := a) hok (he'.trans (congrArg some ?_))
      split
      · unfold State.rsWrite
        split <;> rfl
      · rfl
  | shift =>
      obtain ⟨u, -, rfl⟩ := Option.map_eq_some_iff.mp h
      exact .start
  | interrupt al data =>
      simp only [step] at h
      split at h
      · rename_i hal
        obtain ⟨-, h⟩ := Option.ite_none_right_eq_some.mp h
        obtain rfl := Option.some.inj h
        subst hal
        exact hwrite { s with uart := { s.uart with empty := false } }
      · obtain rfl := Option.some.inj h
        rcases repInt_cases s al data with h | ⟨-, h⟩ | h
        · rw [h]
          exact .start
        · rw [h]
          exact hwrite s
        · rw [h]
          exact hread data

end Tasks

/-! ## The chip -/

theorem Uart.empty_setIer (u : Uart) (value : UInt8) : (u.setIer value).empty =
    ((u.setIer value).sends && (u.empty || !u.sends && u.thr.isNone)) := rfl

structure Uart.Ok (u : Uart) : Prop where
  ier : u.ier = 0x0d ∨ u.ier = 0x0f
  told : u.empty = true → u.thr = none
  pending : u.sends = true → u.thr ≠ none ∨ u.empty = true

theorem Uart.Ok.setIer (h : u.Ok) {value : UInt8} (hvalue : value = 0x0d ∨ value = 0x0f) :
    (u.setIer value).Ok where
  ier := hvalue
  told := fun hempty => by
    obtain ⟨-, hor⟩ := Bool.and_eq_true_iff.mp hempty
    rcases Bool.or_eq_true_iff.mp hor with htold | hnew
    · exact h.told htold
    · exact Option.isNone_iff_eq_none.mp (Bool.and_eq_true_iff.mp hnew).2
  pending := fun hsends => by
    cases hthr : u.thr with
    | some c =>
        have hthr' : (u.setIer value).thr = some c := hthr
        refine .inl ?_
        rw [hthr']
        exact Option.some_ne_none c
    | none =>
        refine .inr (Bool.and_eq_true_iff.mpr ⟨hsends, Bool.or_eq_true_iff.mpr ?_⟩)
        cases hold : u.sends with
        | true => exact .inl ((h.pending hold).resolve_left (not_not.mpr hthr))
        | false =>
            rw [hthr]
            exact .inr rfl

theorem Uart.off (hier : u.ier = 0x0d ∨ u.ier = 0x0f) : u.ier &&& 0x0d = 0x0d := by
  rcases hier with h | h <;> rw [h] <;> rfl

theorem Uart.on (hier : u.ier = 0x0d ∨ u.ier = 0x0f) : u.ier ||| 0x02 = 0x0f := by
  rcases hier with h | h <;> rw [h] <;> rfl

theorem Uart.sends_off (hier : u.ier = 0x0d) : u.sends = false := by
  unfold Uart.sends
  rw [hier]
  decide

theorem Uart.sends_on (hier : u.ier = 0x0f) : u.sends = true := by
  unfold Uart.sends
  rw [hier]
  decide

theorem Uart.ok_off (hier : u.ier = 0x0d ∨ u.ier = 0x0f) : (u.setIer (u.ier &&& 0x0d)).Ok := by
  rw [Uart.off hier]
  exact {
    ier := .inl rfl
    told := fun hempty => by
      have hsends : (u.setIer 0x0d).sends = false := sends_off rfl
      rw [Uart.empty_setIer, hsends, Bool.false_and] at hempty
      cases hempty
    pending := fun hsends => absurd ((sends_off rfl).symm.trans hsends) Bool.noConfusion }

theorem Uart.ok_outb (hier : u.ier = 0x0d ∨ u.ier = 0x0f) (c : Int8) : (u.outb c).Ok where
  ier := hier
  told := fun h => by cases h
  pending := fun _ => .inl (Option.some_ne_none c)

/-! ## The invariant -/

structure Driven (s : State T) : Prop where
  uart : s.uart.Ok
  sent : s.uart.line ++ s.uart.thr.toList = s.tty.taken
  driven : s.tty.write_q.EMPTY = false → Due s.tty ∨ s.uart.sends = true

/-- The chip has told that it is empty, and is given the next character or is switched off. -/
theorem Driven.writeChar (h : Driven s) (hempty : s.uart.empty = true) :
    Driven ({ s with uart := { s.uart with empty := false } } : State T).writeChar := by
  have hthr := h.uart.told hempty
  have hsent : s.uart.line ++ [s.tty.write_q.GETCH.1] = s.tty.taken ++ [s.tty.write_q.GETCH.1] := by
    rw [← h.sent, hthr, Option.toList_none, List.append_nil]
  unfold State.writeChar
  split
  · rename_i hchars
    have hnone : s.tty.write_q.EMPTY = true := TtyQueue.EMPTY_iff.mpr hchars
    exact ⟨Uart.ok_off h.uart.ier, h.sent, fun hne =>
      absurd (hnone.symm.trans hne) Bool.noConfusion⟩
  · rename_i hchars
    dsimp only
    split
    · rename_i hlast
      refine ⟨Uart.ok_off h.uart.ier, hsent, fun hne => ?_⟩
      exact absurd (hlast.symm.trans hne) Bool.noConfusion
    · exact ⟨Uart.ok_outb h.uart.ier _, hsent, fun _ =>
        h.driven (TtyQueue.EMPTY_eq_false.mpr (Nat.pos_of_ne_zero hchars))⟩

theorem Driven.readChar (h : Driven s) (al : Int8) : Driven (s.readChar al) where
  uart := h.uart
  sent := h.sent
  driven := fun hne => (h.driven hne).imp_left fun hdue =>
    hdue.imp_left fun ⟨a, ha, hadue⟩ => ⟨a, List.mem_cons_of_mem _ ha, hadue⟩

theorem Driven.step [DecidableEq T] {a : Act T} (h : Driven s)
    (hstep : step g below s a = some s') : Driven s' := by
  cases a with
  | tty a =>
      obtain ⟨hown, hstep⟩ := Option.ite_none_right_eq_some.mp hstep
      obtain ⟨e', he', rfl⟩ := Option.map_eq_some_iff.mp hstep
      have honward := tty_onward hown he'
      have hsent : s.uart.line ++ s.uart.thr.toList = e'.taken := h.sent.trans honward.taken.symm
      cases hw : writes s.tty a with
      | true =>
          rw [if_pos rfl]
          unfold State.rsWrite
          split
          · rename_i hempty
            exact ⟨h.uart, hsent, fun hne => absurd (hempty.symm.trans hne) Bool.noConfusion⟩
          · refine ⟨?_, hsent, fun _ => .inr ?_⟩
            · rw [Uart.on h.uart.ier]
              exact h.uart.setIer (.inr rfl)
            · rw [Uart.on h.uart.ier]
              exact Uart.sends_on rfl
      | false =>
          rw [if_neg Bool.false_ne_true]
          refine ⟨h.uart, hsent, fun hne => ?_⟩
          rcases honward.queue with hq | hdue
          · exact (h.driven (hq.symm.trans hne)).imp_left (honward.due hw)
          · exact .inl hdue
  | shift =>
      obtain ⟨u, hu, rfl⟩ := Option.map_eq_some_iff.mp hstep
      obtain ⟨c, hc, rfl⟩ := Option.map_eq_some_iff.mp hu
      refine ⟨⟨h.uart.ier, fun _ => rfl, fun hsends => .inr hsends⟩, ?_, h.driven⟩
      rw [← h.sent, hc]
      exact List.append_nil _
  | interrupt al data =>
      simp only [Serial.step] at hstep
      split at hstep
      · rename_i hal
        obtain ⟨hempty, hstep⟩ := Option.ite_none_right_eq_some.mp hstep
        obtain rfl := Option.some.inj hstep
        subst hal
        exact h.writeChar hempty
      · rename_i hal
        obtain rfl := Option.some.inj hstep
        rcases repInt_cases s al data with heq | ⟨hal', -⟩ | heq
        · rwa [heq]
        · exact absurd hal' hal
        · rw [heq]
          exact h.readChar data

/-! ## The line is driven to its end -/

section Drains

variable [DecidableEq T]

theorem interrupt_step (g : Given) (below : Int8 → Bool) (hempty : s.uart.empty = true) :
    step g below s (.interrupt 2 0) =
      some ({ s with uart := { s.uart with empty := false } } : State T).writeChar := by
  simp only [step, hempty, if_true]
  rfl

theorem Driven.emptied (h : Driven s) (g : Given) (below : Int8 → Bool) :
    ∃ u : Uart, u.Ok ∧ u.thr = none ∧ u.ier = s.uart.ier ∧ u.line = s.tty.taken ∧
      Reach (Serial.step g below) Chip s { s with uart := u } := by
  cases hthr : s.uart.thr with
  | none =>
      have hsent := h.sent
      rw [hthr] at hsent
      exact ⟨s.uart, h.uart, hthr, rfl, (List.append_nil _).symm.trans hsent, .start⟩
  | some c =>
      have hshift : Serial.step g below s .shift = some { s with uart :=
          { s.uart with thr := none, empty := s.uart.sends, line := s.uart.line ++ [c] } } := by
        simp only [Serial.step, Uart.shift, hthr, Option.map_some]
      have hsent := (h.step hshift).sent
      exact ⟨_, (h.step hshift).uart, rfl, rfl, (List.append_nil _).symm.trans hsent,
        .one (.inl rfl) hshift⟩

omit [DecidableEq T] in
theorem writeChar_send (hne : s.tty.write_q.EMPTY = false) : s.writeChar.tty = s.send.tty ∧
    (s.writeChar.tty.write_q.EMPTY = false → s.writeChar.uart.ier = s.uart.ier) := by
  unfold State.writeChar
  rw [if_neg (Nat.ne_of_gt (TtyQueue.EMPTY_eq_false.mp hne))]
  dsimp only
  split
  · rename_i hlast
    exact ⟨rfl, fun hmore => absurd (hlast.symm.trans hmore) Bool.noConfusion⟩
  · exact ⟨rfl, fun _ => rfl⟩

theorem sends_congr {u' : Uart} (h : u'.ier = u.ier) : u'.sends = u.sends := by
  unfold Uart.sends
  rw [h]

theorem Driven.drains (g : Given) (below : Int8 → Bool) (n : Nat) :
    ∀ s : State T, Driven s → s.tty.write_q.CHARS = n →
    (s.tty.write_q.EMPTY = false → s.uart.sends = true) →
    ∃ s', Reach (Serial.step g below) Chip s s' ∧
      s'.uart.line = s.tty.taken ++ s.tty.write_q.contents ∧
      s'.tty.write_q.EMPTY = true ∧ s'.uart.ier = 0x0d := by
  induction n with
  | zero =>
      intro s h hchars _
      obtain ⟨u, hok, hthr, -, hline, hreach⟩ := h.emptied g below
      have hnone : s.tty.write_q.contents = [] :=
        List.length_eq_zero_iff.mp ((TtyQueue.contents_length _).trans hchars)
      have hempty : s.tty.write_q.EMPTY = true := TtyQueue.EMPTY_iff.mpr hchars
      rw [hnone, List.append_nil]
      rcases hok.ier with hier | hier
      · exact ⟨_, hreach, hline, hempty, hier⟩
      · -- the interrupt finds nothing, and is switched off
        have htold := (hok.pending (Uart.sends_on hier)).resolve_left (not_not.mpr hthr)
        have hoff := Uart.off hok.ier
        refine ⟨_, hreach.next (.inr ⟨0, rfl⟩) (interrupt_step g below htold), ?_⟩
        unfold State.writeChar
        rw [if_pos hchars]
        exact ⟨hline, hempty, hoff⟩
  | succ n ih =>
      intro s h hchars hsends
      obtain ⟨u, hok, hthr, hier, hline, hreach⟩ := h.emptied g below
      have hne : s.tty.write_q.EMPTY = false := TtyQueue.EMPTY_eq_false.mpr (by omega)
      have htold : u.empty = true :=
        (hok.pending ((sends_congr hier).trans (hsends hne))).resolve_left (not_not.mpr hthr)
      have hstep := interrupt_step g below (s := { s with uart := u }) htold
      obtain ⟨htty, hier₂⟩ :=
        writeChar_send (s := { s with uart := { u with empty := false } }) hne
      have h₂ := (hreach.invariant h fun _ _ _ h _ hs => h.step hs).step hstep
      have hcontents := TtyQueue.contents_GETCH hne
      have hlength := congrArg List.length hcontents
      rw [List.length_cons, TtyQueue.contents_length, TtyQueue.contents_length] at hlength
      obtain ⟨s', hreach', hline', hrest⟩ := ih _ h₂
        (by
          rw [htty]
          show s.tty.write_q.GETCH.2.CHARS = n
          omega)
        fun hmore => (sends_congr ((hier₂ hmore).trans hier)).trans (hsends hne)
      refine ⟨s', (hreach.next (.inr ⟨0, rfl⟩) hstep).trans hreach', ?_, hrest⟩
      rw [hline', htty, hcontents]
      show s.tty.taken ++ [s.tty.write_q.GETCH.1] ++ s.tty.write_q.GETCH.2.contents = _
      rw [List.append_assoc, List.singleton_append]

end Drains

/-! ## Runs -/

section Counts

variable [DecidableEq T] [Fintype T]

/-- The runs of the tty that the line makes. -/
theorem reach_tty {line : Line T} {c_oflag : UInt32} {cr_flag : Bool}
    (h : Reach (step g below) (Roomy g) (start line c_oflag cr_flag) s) :
    Reach (Echo.step g below) (Echo.Roomy g) (Echo.start line c_oflag cr_flag) s.tty :=
  h.invariant (I := fun s => Reach (Echo.step g below) (Echo.Roomy g)
    (Echo.start line c_oflag cr_flag) s.tty) .start
    fun _ _ _ hreach hok hstep => hreach.trans (step_refines hok hstep)

omit [DecidableEq T] [Fintype T] in
theorem Driven.start {line : Line T} (c_oflag : UInt32) (cr_flag : Bool)
    (hempty : line.tty.write_q.EMPTY = true) : Driven (start line c_oflag cr_flag) where
  uart := {
    ier := .inl rfl
    told := fun h => by cases h
    pending := fun h => absurd ((Uart.sends_off rfl).symm.trans h) Bool.noConfusion }
  sent := rfl
  driven := fun hne => absurd (hempty.symm.trans hne) Bool.noConfusion

/-- In every run in which the echo finds the places that it needs, a serial line sends what it is
given, once and in its order, and never stops with something in its queue. -/
theorem serial_flows {line : Line T} {c_oflag : UInt32} {cr_flag : Bool}
    (hempty : line.tty.write_q.EMPTY = true)
    (h : Reach (step g below) (Roomy g) (start line c_oflag cr_flag) s) : Flows g below s := by
  have hdriven : Driven s := h.invariant (.start c_oflag cr_flag hempty)
    fun _ _ _ h _ hstep => h.step hstep
  have hkept := (Echo.sound_of_reach (reach_tty h)).safe.kept
  exact {
    kept := by
      rw [hdriven.sent]
      exact hkept
    told := hdriven.uart.told
    driven := fun hne => (hdriven.driven hne).imp_right fun hsends =>
      ⟨hsends, hdriven.uart.pending hsends⟩
    drains := fun hdue => by
      obtain ⟨s', hreach, hline, hrest⟩ := Driven.drains g below _ s hdriven rfl
        fun hne => (hdriven.driven hne).resolve_left hdue
      exact ⟨s', hreach, hline.trans hkept, hrest⟩ }

end Counts

/-- A task writes two characters, and the first one is sent. -/
def twoWritten : List (Act Unit) :=
  [.tty (.tty_write () 2), .tty (.go () 0), .tty (.go () 0), .tty (.go () 97), .tty (.go () 0),
    .tty (.go () 0), .tty (.go () 0), .tty (.go () 98), .tty (.go () 0), .tty (.go () 0),
    .tty (.go () 0), .tty (.go () 0), .interrupt 2 0, .shift]

theorem serial_flows_two : ∃ s : State Unit,
    exec (checked (step Tty.consoleGiven fun _ => false) (Roomy Tty.consoleGiven))
      (start (Echo.consoleLine Tty.place0) 0 false) twoWritten = some s ∧
      (s.uart.line, s.tty.write_q.contents) = ([97], [98]) ∧
      Flows Tty.consoleGiven (fun _ => false) s := by
  obtain ⟨s, hs, hline⟩ : ∃ s, exec (checked (step Tty.consoleGiven fun _ => false)
      (Roomy Tty.consoleGiven)) (start (Echo.consoleLine Tty.place0) 0 false) twoWritten = some s ∧
      (s.uart.line, s.tty.write_q.contents) = ([97], [98]) := exec_any (by decide +kernel)
  exact ⟨s, hs, hline, serial_flows (by decide) (exec_checked hs)⟩

end Serial

end Linux011
