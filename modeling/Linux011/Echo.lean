import Linux011.Tally
import Linux011.Tty
import Mathlib.Algebra.GroupWithZero.Nat

/-!
# Output and its echo

The two producers of the write queue of a tty: `tty_write`, in which any number of tasks may be,
and the echo of `copy_to_cooked`. Interrupts call it in front of any step, those of the keyboard
also in front of a step of another interrupt, and what is interrupted goes on when they have
returned. Each of the two assignments of `PUTCH` into the write queue is a step. Characters are
taken off the queue, by `tty->write` or by the interrupt of a serial line, at any time.

Other tasks run where `tty_write` sleeps, in `get_fs_byte` and in `schedule`. A task that waits may
wake up at any time.

`tty_write` tests for one free place and then puts up to two characters, and `copy_to_cooked`
does not test at all before it echoes. So the invariant counts ahead: `owed` is the number of
`PUTCH`es that have begun, or that nothing keeps from beginning, over all calls and tasks, and
`Sound` says that the queue has a place for each of them. A `PUTCH` pays what is owed for it, and
an echo or a test that begins takes on a new debt, which is where the condition of the runs comes
in. That the two assignments of a `PUTCH` can be torn apart by an interrupt needs a second part:
the character that has been stored and is not yet in the queue still stands at the head. The
calls of `copy_to_cooked` are kept as a stack, the interrupted ones below, so that a step is
always one of the top, or of the task when the stack is empty.

The model of a single character agrees with the one of `Tty` when no interrupt comes in between
(`tty_cookChar_eq`).
-/

namespace Linux011

open Function Runs Tally
open Tty (Given Line Termios TtyQueue TtyStruct INC DEC eq translate atLineEnd INTMASK QUITMASK)

namespace Echo

variable {T : Type*}

/-! ## `copy_to_cooked` -/

/-- What a character is after the translation. -/
inductive Kind where
  | dropped
  | killChar
  | eraseChar
  | stopChar
  | startChar
  | intrChar
  | quitChar
  | plain (c : Int8)

/-- The tests of `copy_to_cooked`, in their order. -/
def kind (g : Given) (t : Termios) (c : Int8) : Kind :=
  match translate g t c with
  | none => .dropped
  | some c =>
    if t.ICANON && eq c t.KILL_CHAR then .killChar
    else if t.ICANON && eq c t.ERASE_CHAR then .eraseChar
    else if t.ICANON && eq c t.STOP_CHAR then .stopChar
    else if t.ICANON && eq c t.START_CHAR then .startChar
    else if t.ISIG && eq c t.INTR_CHAR then .intrChar
    else if t.ISIG && eq c t.QUIT_CHAR then .quitChar
    else .plain c

/-- What is echoed of a character. -/
def echoed (t : Termios) (c : Int8) : List Int8 :=
  if c.toInt = 10 then [10, 13]
  else if c.toInt < 32 then if t.ECHOCTL then [94, c + 64] else []
  else [c]

/-- What is echoed when `c` goes from the secondary queue. -/
def rubbed (c : Int8) : List Int8 := if c.toInt < 32 then [127, 127] else [127]

/-- What comes behind an echo. -/
inductive Then where
  /-- `PUTCH(c,tty->secondary)` -/
  | cooked (c : Int8)
  /-- `DEC(tty->secondary.head); continue;` -/
  | erase
  /-- `DEC(tty->secondary.head)` in the loop of `KILL_CHAR` -/
  | kill

/-- Where a call of `copy_to_cooked` is. -/
inductive Cook where
  /-- at the head of the loop -/
  | round
  /-- at the head of the loop of `KILL_CHAR` -/
  | kill
  /-- before `PUTCH(c,tty->write_q)`, with what is to be echoed behind it -/
  | put (c : Int8) (cs : List Int8) (k : Then)
  /-- between the two assignments -/
  | inc (c : Int8) (cs : List Int8) (k : Then)
  /-- in `tty->write` -/
  | write (k : Then)

def puts (k : Then) : List Int8 → Cook
  | [] => .write k
  | c :: cs => .put c cs k

def after (tty : TtyStruct) : Then → TtyStruct × Cook
  | .cooked c => ({ tty with secondary := tty.secondary.PUTCH c }, .round)
  | .erase =>
      ({ tty with secondary := { tty.secondary with head := DEC tty.secondary.head } }, .round)
  | .kill =>
      ({ tty with secondary := { tty.secondary with head := DEC tty.secondary.head } }, .kill)

/-- `if (L_ECHO(tty)) { … }` -/
def echo (tty : TtyStruct) (cs : List Int8) (k : Then) : TtyStruct × Cook :=
  if tty.termios.ECHO then (tty, puts k cs) else after tty k

/-- A round up to its first `PUTCH`. -/
def cookChar (l : Line T) : Kind → Line T × Cook
  | .dropped => (l, .round)
  | .killChar => (l, .kill)
  | .eraseChar =>
      if atLineEnd l.tty then (l, .round)
      else
        let (tty, a) := echo l.tty (rubbed l.tty.secondary.LAST) .erase
        ({ l with tty := tty }, a)
  | .stopChar => ({ l with tty := { l.tty with stopped := true } }, .round)
  | .startChar => ({ l with tty := { l.tty with stopped := false } }, .round)
  | .intrChar => (l.tty_intr INTMASK, .round)
  | .quitChar => (l.tty_intr QUITMASK, .round)
  | .plain c =>
      let t := l.tty.termios
      let data :=
        if t.endsLine c then l.tty.secondary.data + 1 else l.tty.secondary.data
      let (tty, a) := echo { l.tty with secondary := { l.tty.secondary with data := data } }
        (echoed t c) (.cooked c)
      ({ l with tty := tty }, a)

/-- The first assignment of `PUTCH`. -/
def store (c : Int8) (q : TtyQueue) : TtyQueue := { q with buf := update q.buf q.head c }

/-- The second one. -/
def inc (q : TtyQueue) : TtyQueue := { q with head := INC q.head }

/-! ## Calls that are not interrupted -/

theorem PUTCH_eq (c : Int8) (q : TtyQueue) : q.PUTCH c = inc (store c q) := rfl

/-- What an echo puts when nothing comes in between. -/
theorem tty_echo_eq (g : Given) (t : Termios) (c : Int8) (q : TtyQueue) :
    Tty.echo g t c q =
      if t.ECHO then g.write ((echoed t c).foldl (fun q c => q.PUTCH c) q) else q := by
  unfold Tty.echo echoed
  cases t.ECHO with
  | true =>
      rw [if_pos rfl, if_pos rfl]
      split
      · rfl
      · split
        · cases t.ECHOCTL <;> rfl
        · rfl
  | false => rfl

theorem rubOut_eq (g : Given) (tty : TtyStruct) : (Tty.rubOut g tty).write_q =
    if tty.termios.ECHO then
      g.write ((rubbed tty.secondary.LAST).foldl (fun q c => q.PUTCH c) tty.write_q)
    else tty.write_q := by
  unfold Tty.rubOut rubbed
  dsimp only
  split
  · split <;> rfl
  · rfl

theorem tty_cookChar_eq (g : Given) (l : Line T) (c : Int8) :
    Tty.cookChar g l c = match kind g l.tty.termios c with
      | .dropped => l
      | .killChar => { l with tty := Tty.killLine g l.tty.secondary.CHARS l.tty }
      | .eraseChar => if atLineEnd l.tty then l else { l with tty := Tty.rubOut g l.tty }
      | .stopChar => { l with tty := { l.tty with stopped := true } }
      | .startChar => { l with tty := { l.tty with stopped := false } }
      | .intrChar => l.tty_intr INTMASK
      | .quitChar => l.tty_intr QUITMASK
      | .plain c => { l with tty := Tty.putCooked g l.tty c } := by
  unfold Tty.cookChar kind
  dsimp only
  cases translate g l.tty.termios c with
  | none => rfl
  | some c =>
      dsimp only
      generalize l.tty.termios = t
      by_cases hkill : (t.ICANON && eq c t.KILL_CHAR) = true
      · rw [if_pos hkill, if_pos hkill]
      rw [if_neg hkill, if_neg hkill]
      by_cases herase : (t.ICANON && eq c t.ERASE_CHAR) = true
      · rw [if_pos herase, if_pos herase]
      rw [if_neg herase, if_neg herase]
      by_cases hstop : (t.ICANON && eq c t.STOP_CHAR) = true
      · rw [if_pos hstop, if_pos hstop]
      rw [if_neg hstop, if_neg hstop]
      by_cases hstart : (t.ICANON && eq c t.START_CHAR) = true
      · rw [if_pos hstart, if_pos hstart]
      rw [if_neg hstart, if_neg hstart]
      by_cases hintr : (t.ISIG && eq c t.INTR_CHAR) = true
      · rw [if_pos hintr, if_pos hintr]
      rw [if_neg hintr, if_neg hintr]
      by_cases hquit : (t.ISIG && eq c t.QUIT_CHAR) = true
      · rw [if_pos hquit, if_pos hquit]
      rw [if_neg hquit, if_neg hquit]

/-! ## `tty_write` -/

def OPOST (c_oflag : UInt32) : Bool := decide (c_oflag &&& 1 ≠ 0)
def OLCUC (c_oflag : UInt32) : Bool := decide (c_oflag &&& 2 ≠ 0)
def ONLCR (c_oflag : UInt32) : Bool := decide (c_oflag &&& 4 ≠ 0)
def OCRNL (c_oflag : UInt32) : Bool := decide (c_oflag &&& 8 ≠ 0)
def ONLRET (c_oflag : UInt32) : Bool := decide (c_oflag &&& 32 ≠ 0)

/-- `toupper`; `below` tells whether the memory before `_ctype` has the bit of the lower case
letters where the index is negative. -/
def toupper (below : Int8 → Bool) (c : Int8) : Int8 :=
  let islower := if c.toInt < -1 then below c else decide (97 ≤ c.toInt ∧ c.toInt ≤ 122)
  if islower then c - 32 else c

/-- The variables of a call: `nr`, and `b-buf`. -/
structure Writer where
  nr : Nat
  b : Nat

/-- Where a task is in `tty_write`. -/
inductive Pc where
  /-- with what the last call has returned -/
  | user (ret : Int)
  /-- at the head of the loop -/
  | loop (w : Writer)
  /-- in `sleep_if_full` -/
  | asleep (w : Writer)
  /-- before `while (nr>0 && !FULL(tty->write_q))` -/
  | test (w : Writer)
  /-- in `get_fs_byte` -/
  | fetch (w : Writer)
  /-- before `PUTCH(c,tty->write_q)` -/
  | put (c : Int8) (w : Writer)
  /-- between the two assignments -/
  | inc (c : Int8) (w : Writer)
  /-- in `tty->write` -/
  | write (w : Writer)
  /-- in `schedule` -/
  | schedule (w : Writer)

/-- What is put for a character of the user, and `cr_flag` behind it. -/
def post (below : Int8 → Bool) (c_oflag : UInt32) (cr_flag : Bool) (c : Int8) (w : Writer) :
    Pc × Bool :=
  let next : Writer := ⟨w.nr - 1, w.b + 1⟩
  if OPOST c_oflag then
    let c :=
      if c.toInt = 13 ∧ OCRNL c_oflag = true then 10
      else if c.toInt = 10 ∧ ONLRET c_oflag = true then 13
      else c
    if c.toInt = 10 ∧ cr_flag = false ∧ ONLCR c_oflag = true then (.put 13 w, true)
    else (.put (if OLCUC c_oflag then toupper below c else c) next, false)
  else (.put c next, false)

/-! ## The system -/

structure State (T : Type*) where
  line : Line T
  c_oflag : UInt32
  cr_flag : Bool
  pc : T → Pc
  /-- the task that is in `tty_write` where it does not sleep -/
  current : Option T
  /-- the calls of `copy_to_cooked`, the last one first -/
  intr : List Cook
  /-- what has been put into the write queue -/
  accepted : List Int8
  /-- what has been taken off it -/
  taken : List Int8

inductive Act (T : Type*) where
  /-- an interrupt puts bytes into the read queue -/
  | put_queue (bytes : List Int8)
  /-- an interrupt calls `copy_to_cooked` -/
  | copy_to_cooked
  /-- the last call of `copy_to_cooked` goes on -/
  | cook
  /-- `tty->write` or an interrupt takes a character off the write queue -/
  | getch
  /-- `tty_read` leaves this of the secondary queue -/
  | tty_read (secondary : TtyQueue)
  /-- `tty_write` for another tty leaves `cr_flag` so -/
  | other (cr_flag : Bool)
  /-- the signals of a task change -/
  | kill (t : T) (signal : UInt32)
  | tty_write (t : T) (nr : Int)
  /-- the task goes on in `tty_write`; `c` is the character at `b` -/
  | go (t : T) (c : Int8)

def State.write_q (s : State T) : TtyQueue := s.line.tty.write_q

def State.setWrite (s : State T) (q : TtyQueue) : State T :=
  { s with line := { s.line with tty := { s.line.tty with write_q := q } } }

/-- A step of a call of `copy_to_cooked`, above those that it interrupts. -/
def State.cook (g : Given) (s : State T) (below : List Cook) : Cook → State T
  | .round =>
      let tty := s.line.tty
      if tty.read_q.EMPTY || tty.secondary.FULL then { s with intr := below }
      else
        let (c, read_q) := tty.read_q.GETCH
        let (l, a) := cookChar { s.line with tty := { tty with read_q := read_q } }
          (kind g tty.termios c)
        { s with line := l, intr := a :: below }
  | .kill =>
      if atLineEnd s.line.tty then { s with intr := .round :: below }
      else
        let (tty, a) := echo s.line.tty (rubbed s.line.tty.secondary.LAST) .kill
        { s with line := { s.line with tty := tty }, intr := a :: below }
  | .put c cs k => { s with intr := .inc c cs k :: below }.setWrite (store c s.write_q)
  | .inc c cs k =>
      { s with intr := puts k cs :: below, accepted := s.accepted ++ [c] }.setWrite (inc s.write_q)
  | .write k =>
      let (tty, a) := after s.line.tty k
      { s with line := { s.line with tty := tty }, intr := a :: below }

section Step

variable [DecidableEq T]

/-- The task stops, or goes on without giving up the processor. -/
def State.moveTo (s : State T) (t : T) (pc : Pc) : State T :=
  { s with
    pc := update s.pc t pc
    current := match pc with
      | .user _ | .asleep _ | .fetch _ | .schedule _ => none
      | _ => some t }

/-- `if (current->signal) break;` behind `sleep_if_full`. -/
def State.awake (s : State T) (t : T) (w : Writer) : State T :=
  s.moveTo t (if s.line.signal t ≠ 0 then .user w.b else .test w)

def State.go (below : Int8 → Bool) (s : State T) (t : T) (c : Int8) : Pc → Option (State T)
  | .user _ => none
  | .loop w =>
      some <| if w.nr = 0 then s.moveTo t (.user w.b)
        else if s.write_q.FULL then s.moveTo t (.asleep w)
        else s.awake t w
  | .asleep w =>
      if s.line.signal t ≠ 0 ∨ 128 ≤ s.write_q.LEFT then some (s.awake t w) else none
  | .test w => some (s.moveTo t (if w.nr ≠ 0 ∧ s.write_q.FULL = false then .fetch w else .write w))
  | .fetch w =>
      let (pc, cr_flag) := post below s.c_oflag s.cr_flag c w
      some ({ s with cr_flag := cr_flag }.moveTo t pc)
  | .put c w => some ((s.setWrite (store c s.write_q)).moveTo t (.inc c w))
  | .inc c w =>
      some (({ s with accepted := s.accepted ++ [c] }.setWrite (inc s.write_q)).moveTo t (.test w))
  | .write w => some (s.moveTo t (if w.nr ≠ 0 then .schedule w else .user w.b))
  | .schedule w => some (s.moveTo t (.loop w))

/-- Nothing runs that keeps the processor. -/
def State.idle (s : State T) : Bool := s.intr.isEmpty && s.current.isNone

def step (g : Given) (below : Int8 → Bool) (s : State T) : Act T → Option (State T)
  | .put_queue bytes =>
      let tty := s.line.tty
      let read_q := Tty.put_queue tty.read_q tty.read_q.head bytes
      some { s with line := { s.line with tty := { tty with read_q := read_q } } }
  | .copy_to_cooked => some { s with intr := .round :: s.intr }
  | .cook =>
      match s.intr with
      | [] => none
      | a :: rest => some (s.cook g rest a)
  | .getch =>
      let (c, q) := s.write_q.GETCH
      some ({ s with taken := s.taken ++ [c] }.setWrite q)
  | .tty_read secondary =>
      if s.idle then
        some { s with line := { s.line with tty := { s.line.tty with secondary := secondary } } }
      else none
  | .other cr_flag => if s.idle then some { s with cr_flag := cr_flag } else none
  | .kill t signal =>
      some { s with line := { s.line with signal := update s.line.signal t signal } }
  | .tty_write t nr =>
      match s.idle, s.pc t with
      | true, .user _ => some (s.moveTo t (if nr < 0 then .user (-1) else .loop ⟨nr.toNat, 0⟩))
      | _, _ => none
  | .go t c =>
      if s.intr.isEmpty = true ∧ (s.current = none ∨ s.current = some t) then
        s.go below t c (s.pc t)
      else none

/-- Any tty with anything in its queues, and no call. -/
def start (line : Line T) (c_oflag : UInt32) (cr_flag : Bool) : State T where
  line := line
  c_oflag := c_oflag
  cr_flag := cr_flag
  pc _ := .user 0
  current := none
  intr := []
  accepted := line.tty.write_q.contents
  taken := []

end Step

/-! ## What is to hold -/

/-- `PUTCH`es into the write queue that have begun, or that nothing keeps from beginning. -/
def Cook.owes : Cook → Nat
  | .put _ cs _ | .inc _ cs _ => cs.length + 1
  | _ => 0

def Pc.owes : Pc → Nat
  | .fetch _ | .put _ _ | .inc _ _ => 1
  | _ => 0

def State.owed [Fintype T] (s : State T) : Nat := (s.intr.map Cook.owes).sum + tally Pc.owes s.pc

/-- The character that has been stored and is not yet in the queue. -/
def Cook.stored : Cook → Option Int8
  | .inc c _ _ => some c
  | _ => none

def Pc.stored : Pc → Option Int8
  | .inc c _ => some c
  | _ => none

/-- Something stands between the two assignments of `PUTCH`. -/
def State.midPutch (s : State T) : Bool :=
  s.intr.any (fun a => a.stored.isSome) || s.current.any fun t => (s.pc t).stored.isSome

def echoes (tty : TtyStruct) : Kind → List Int8
  | .plain c => echoed tty.termios c
  | .eraseChar => if atLineEnd tty then [] else rubbed tty.secondary.LAST
  | _ => []

/-- What is echoed of the next character, or of the one that goes from the secondary queue. -/
def begins (g : Given) (tty : TtyStruct) : Cook → List Int8
  | .round =>
      if tty.termios.ECHO = false ∨ tty.read_q.EMPTY = true ∨ tty.secondary.FULL = true then []
      else echoes tty (kind g tty.termios tty.read_q.GETCH.1)
  | .kill =>
      if tty.termios.ECHO = false ∨ atLineEnd tty = true then [] else rubbed tty.secondary.LAST
  | _ => []

/-- The step is an assignment of a `PUTCH` into the write queue. -/
def Putting (s : State T) : Act T → Prop
  | .cook => ∃ c cs k rest, s.intr = .put c cs k :: rest ∨ s.intr = .inc c cs k :: rest
  | .go t _ => ∃ c w, s.pc t = .put c w ∨ s.pc t = .inc c w
  | _ => False

/-- No `PUTCH` meets a full queue or makes the head catch up with the tail, and nothing that has
been put is lost. -/
structure Safe (s : State T) : Prop where
  room : ∀ a, Putting s a → s.write_q.FULL = false ∧ INC s.write_q.head ≠ s.write_q.tail
  kept : s.taken ++ s.write_q.contents = s.accepted

def Pc.atTest : Pc → Bool
  | .test w => decide (w.nr ≠ 0)
  | _ => false

/-- An echo begins where the queue has places for all of it and for what is owed, and not between
the assignments of a `PUTCH`. A task finds a place that nothing else is owed. No more is taken off
the queue than is in it. -/
def Roomy [Fintype T] (g : Given) (s : State T) : Act T → Prop
  | .cook => ∀ a ∈ s.intr.head?, begins g s.line.tty a ≠ [] →
      s.owed + (begins g s.line.tty a).length ≤ s.write_q.LEFT ∧ s.midPutch = false
  | .go t _ => (s.pc t).atTest = true → s.write_q.FULL = false → s.owed + 1 ≤ s.write_q.LEFT
  | .getch => s.write_q.EMPTY = false
  | _ => True

instance [Fintype T] (g : Given) (s : State T) : ∀ a : Act T, Decidable (Roomy g s a)
  | .cook => inferInstanceAs (Decidable (∀ a ∈ s.intr.head?, begins g s.line.tty a ≠ [] →
      s.owed + (begins g s.line.tty a).length ≤ s.write_q.LEFT ∧ s.midPutch = false))
  | .go t _ => inferInstanceAs (Decidable
      ((s.pc t).atTest = true → s.write_q.FULL = false → s.owed + 1 ≤ s.write_q.LEFT))
  | .getch => inferInstanceAs (Decidable (s.write_q.EMPTY = false))
  | .put_queue _ | .copy_to_cooked | .tty_read _ | .other _ | .kill _ _ | .tty_write _ _ =>
      inferInstanceAs (Decidable True)

/-! ## The queue -/

variable {q : TtyQueue}

theorem FULL_eq_false (h : 1 ≤ q.LEFT) : q.FULL = false :=
  decide_eq_false (Nat.pos_iff_ne_zero.mp h)

theorem LEFT_inc (h : 1 ≤ q.LEFT) : (inc q).LEFT + 1 = q.LEFT := by
  have hh : q.head.val < 1024 := q.head.isLt
  have ht : q.tail.val < 1024 := q.tail.isLt
  have hinc : (inc q).head.val = (q.head.val + 1) % 1024 := rfl
  have htail : (inc q).tail = q.tail := rfl
  unfold TtyQueue.LEFT Tty.TTY_BUF_SIZE at h ⊢
  rw [hinc, htail]
  omega

theorem INC_head_ne (h : 1 ≤ q.LEFT) : INC q.head ≠ q.tail := by
  intro heq
  have hh : q.head.val < 1024 := q.head.isLt
  have hval : (q.head.val + 1) % 1024 = q.tail.val := congrArg Fin.val heq
  unfold TtyQueue.LEFT Tty.TTY_BUF_SIZE at h
  omega

/-- The place of the head is outside of the queue. -/
theorem contents_store (c : Int8) (q : TtyQueue) : (store c q).contents = q.contents := by
  have hh : q.head.val < 1024 := q.head.isLt
  have ht : q.tail.val < 1024 := q.tail.isLt
  have hchars : (store c q).CHARS = q.CHARS := rfl
  unfold TtyQueue.contents
  rw [hchars]
  refine List.map_congr_left fun i hi => update_of_ne (fun heq => ?_) ..
  have hi := List.mem_range.mp hi
  have hval : (q.tail.val + i) % 1024 = q.head.val := congrArg Fin.val heq
  rw [TtyQueue.CHARS_eq] at hi
  omega

theorem contents_inc (h : 1 ≤ q.LEFT) : (inc q).contents = q.contents ++ [q.buf q.head] := by
  have hput := TtyQueue.contents_PUTCH (FULL_eq_false h) (q.buf q.head)
  have hsame : q.PUTCH (q.buf q.head) = inc q := by
    unfold TtyQueue.PUTCH inc
    rw [update_eq_self]
  rwa [hsame] at hput

theorem LEFT_GETCH (h : q.EMPTY = false) : q.GETCH.2.LEFT = q.LEFT + 1 := by
  have hlen := congrArg List.length (TtyQueue.contents_GETCH h)
  rw [List.length_cons, TtyQueue.contents_length, TtyQueue.contents_length] at hlen
  have hbefore := q.LEFT_eq
  have hbehind := q.GETCH.2.LEFT_eq
  omega

/-! ## The invariant -/

variable {g : Given} {s s' : State T} {t : T}

section Counts

variable [Fintype T]

/-- There are places for all that is owed, and what has been stored stands where the head is. -/
structure Sound (s : State T) : Prop where
  room : s.owed ≤ s.write_q.LEFT
  kept : s.taken ++ s.write_q.contents = s.accepted
  running : ∀ t c, (s.pc t).stored = some c → s.current = some t
  task : ∀ t c, (s.pc t).stored = some c →
    s.write_q.buf s.write_q.head = c ∧ ∀ a ∈ s.intr, a.owes = 0
  /-- nothing is owed above a `PUTCH` that has been interrupted -/
  nested : s.intr.Pairwise fun above below => below.stored ≠ none → above.owes = 0
  stored : ∀ a ∈ s.intr, ∀ c, a.stored = some c → s.write_q.buf s.write_q.head = c

theorem owes_puts (k : Then) (cs : List Int8) : (puts k cs).owes = cs.length := by
  cases cs <;> rfl

theorem stored_puts (k : Then) (cs : List Int8) : (puts k cs).stored = none := by
  cases cs <;> rfl

theorem owed_cons {a : Cook} {rest : List Cook} (h : s.intr = a :: rest) :
    s.owed = a.owes + ((rest.map Cook.owes).sum + tally Pc.owes s.pc) := by
  unfold State.owed
  rw [h, List.map_cons, List.sum_cons, Nat.add_assoc]

/-- Whoever is in a `PUTCH` has a place. -/
theorem Sound.safe (h : Sound s) : Safe s where
  kept := h.kept
  room a hput := by
    have hleft : 1 ≤ s.write_q.LEFT := by
      refine Nat.le_trans ?_ h.room
      cases a with
      | cook =>
          obtain ⟨c, cs, k, rest, hintr | hintr⟩ := hput
          · rw [owed_cons hintr, Cook.owes]
            omega
          · rw [owed_cons hintr, Cook.owes]
            omega
      | go t c =>
          have htally := le_tally Pc.owes s.pc t
          obtain ⟨c, w, hpc | hpc⟩ := hput
          · rw [hpc, Pc.owes] at htally
            exact Nat.le_trans htally (Nat.le_add_left ..)
          · rw [hpc, Pc.owes] at htally
            exact Nat.le_trans htally (Nat.le_add_left ..)
      | put_queue | copy_to_cooked | getch | tty_read | other | kill | tty_write => cases hput
    exact ⟨FULL_eq_false hleft, INC_head_ne hleft⟩

theorem Sound.start (line : Line T) (c_oflag : UInt32) (cr_flag : Bool) :
    Sound (start line c_oflag cr_flag) where
  room := by
    have hzero : (Echo.start line c_oflag cr_flag).owed = 0 :=
      congrArg (0 + ·) (tally_eq_zero fun _ => rfl)
    rw [hzero]
    exact Nat.zero_le _
  kept := List.nil_append _
  running _ _ h := by cases h
  task _ _ h := by cases h
  nested := List.Pairwise.nil
  stored _ h := by cases h

end Counts

/-! ## Steps of `copy_to_cooked` -/

/-- A step that begins the echo of `n` characters, or returns. -/
structure Opens (s s' : State T) (below : List Cook) (n : Nat) : Prop where
  write_q : s'.write_q = s.write_q
  pc : s'.pc = s.pc
  current : s'.current = s.current
  accepted : s'.accepted = s.accepted
  taken : s'.taken = s.taken
  intr : s'.intr = below ∨ ∃ a, s'.intr = a :: below ∧ a.stored = none ∧ a.owes = n

theorem after_spec (tty : TtyStruct) (k : Then) : (after tty k).1.write_q = tty.write_q ∧
    (after tty k).2.stored = none ∧ (after tty k).2.owes = 0 := by
  cases k <;> simp only [after, Cook.stored, Cook.owes, and_self]

theorem echo_spec (tty : TtyStruct) (cs : List Int8) (k : Then) :
    (echo tty cs k).1.write_q = tty.write_q ∧ (echo tty cs k).2.stored = none ∧
      (echo tty cs k).2.owes = if tty.termios.ECHO then cs.length else 0 := by
  unfold echo
  split
  · exact ⟨rfl, stored_puts k cs, owes_puts k cs⟩
  · exact after_spec tty k

theorem cookChar_spec (l : Line T) (k : Kind) :
    (cookChar l k).1.tty.write_q = l.tty.write_q ∧ (cookChar l k).2.stored = none ∧
      (cookChar l k).2.owes = if l.tty.termios.ECHO then (echoes l.tty k).length else 0 := by
  cases k with
  | dropped | killChar | stopChar | startChar => exact ⟨rfl, rfl, (ite_self 0).symm⟩
  | intrChar | quitChar =>
      refine ⟨?_, rfl, (ite_self 0).symm⟩
      rw [cookChar, Tty.tty_intr_tty]
  | eraseChar =>
      rw [cookChar, echoes]
      split
      · exact ⟨rfl, rfl, (ite_self 0).symm⟩
      · exact echo_spec ..
  | plain c => exact echo_spec ..

theorem cook_opens {a : Cook} (ha : a.owes = 0) (below : List Cook) :
    Opens s (s.cook g below a) below (begins g s.line.tty a).length := by
  cases a with
  | round =>
      rw [State.cook, begins]
      by_cases hend : s.line.tty.read_q.EMPTY = true ∨ s.line.tty.secondary.FULL = true
      · have hor : (s.line.tty.read_q.EMPTY || s.line.tty.secondary.FULL) = true :=
          Bool.or_eq_true_iff.mpr hend
        rw [if_pos hor]
        exact ⟨rfl, rfl, rfl, rfl, rfl, .inl rfl⟩
      · have hor : ¬(s.line.tty.read_q.EMPTY || s.line.tty.secondary.FULL) = true :=
          fun h => hend (Bool.or_eq_true_iff.mp h)
        rw [if_neg hor]
        obtain ⟨hwrite, hstored, howes⟩ := cookChar_spec
          { s.line with tty := { s.line.tty with read_q := s.line.tty.read_q.GETCH.2 } }
          (kind g s.line.tty.termios s.line.tty.read_q.GETCH.1)
        refine ⟨hwrite, rfl, rfl, rfl, rfl, .inr ⟨_, rfl, hstored, howes.trans ?_⟩⟩
        cases hecho : s.line.tty.termios.ECHO with
        | true => simp [hend, echoes, atLineEnd]
        | false => simp
  | kill =>
      rw [State.cook, begins]
      by_cases hend : atLineEnd s.line.tty = true
      · rw [if_pos hend, if_pos (.inr hend)]
        exact ⟨rfl, rfl, rfl, rfl, rfl, .inr ⟨.round, rfl, rfl, rfl⟩⟩
      · rw [if_neg hend]
        obtain ⟨hwrite, hstored, howes⟩ :=
          echo_spec s.line.tty (rubbed s.line.tty.secondary.LAST) .kill
        refine ⟨hwrite, rfl, rfl, rfl, rfl, .inr ⟨_, rfl, hstored, howes.trans ?_⟩⟩
        cases hecho : s.line.tty.termios.ECHO with
        | true => simp [hend]
        | false => simp
  | write k =>
      obtain ⟨hwrite, hstored, howes⟩ := after_spec s.line.tty k
      exact ⟨hwrite, rfl, rfl, rfl, rfl, .inr ⟨_, rfl, hstored, howes⟩⟩
  | put | inc => cases ha

section Step

variable [DecidableEq T]

theorem pc_moveTo_of_ne (s : State T) {t t' : T} (hne : t' ≠ t) (pc : Pc) :
    (s.moveTo t pc).pc t' = s.pc t' := update_of_ne hne ..

theorem pc_moveTo (s : State T) (t : T) (pc : Pc) : (s.moveTo t pc).pc t = pc := update_self ..

end Step

theorem idle_iff : s.idle = true ↔ s.intr = [] ∧ s.current = none := by
  rw [State.idle, Bool.and_eq_true, List.isEmpty_iff, Option.isNone_iff_eq_none]

theorem stored_of_midPutch (hmid : s.midPutch = false) :
    (∀ a ∈ s.intr, a.stored = none) ∧ ∀ t, s.current = some t → (s.pc t).stored = none := by
  obtain ⟨hintr, hcur⟩ := Bool.or_eq_false_iff.mp hmid
  constructor
  · intro a ha
    have hno := List.any_eq_false.mp hintr a ha
    cases hstored : a.stored with
    | none => rfl
    | some c => exact absurd (by rw [hstored]; rfl) hno
  · intro t ht
    rw [ht] at hcur
    cases hstored : (s.pc t).stored with
    | none => rfl
    | some c =>
        rw [Option.any_some, hstored] at hcur
        cases hcur

section Counts

variable [Fintype T]

/-- Nothing has been stored below a call that has something to put. -/
theorem Sound.stored_below {a : Cook} {below : List Cook} (h : Sound s)
    (hintr : s.intr = a :: below) (ha : a.owes ≠ 0) : ∀ b ∈ below, b.stored = none := by
  intro b hb
  have hnested := h.nested
  rw [hintr] at hnested
  by_contra hne
  exact ha (List.rel_of_pairwise_cons hnested hb hne)

theorem Sound.task_below {a : Cook} {below : List Cook} (h : Sound s)
    (hintr : s.intr = a :: below) (ha : a.owes ≠ 0) (t : T) : (s.pc t).stored = none := by
  cases hstored : (s.pc t).stored with
  | none => rfl
  | some c => exact absurd ((h.task t c hstored).2 a (hintr ▸ List.mem_cons_self)) ha

theorem Sound.opens {a : Cook} {below : List Cook} {n : Nat} (h : Sound s)
    (hintr : s.intr = a :: below) (ha : a.owes = 0) (ho : Opens s s' below n)
    (hroom : n ≠ 0 → s.owed + n ≤ s.write_q.LEFT ∧ s.midPutch = false) : Sound s' := by
  have howed := owed_cons hintr
  have hbelow : ∀ b ∈ below, b ∈ s.intr := fun b hb => hintr ▸ List.mem_cons_of_mem a hb
  have hnested := h.nested
  rw [hintr] at hnested
  have hkept : s'.taken ++ s'.write_q.contents = s'.accepted := by
    rw [ho.taken, ho.write_q, ho.accepted]
    exact h.kept
  have hrunning : ∀ t c, (s'.pc t).stored = some c → s'.current = some t := by
    rw [ho.pc, ho.current]
    exact h.running
  obtain hnone | ⟨b, hsome, hstored, howes⟩ := ho.intr
  · refine ⟨?_, hkept, hrunning, ?_, ?_, ?_⟩
    · have hsum : s'.owed = (below.map Cook.owes).sum + tally Pc.owes s.pc := by
        unfold State.owed
        rw [hnone, ho.pc]
      have hle := h.room
      rw [ho.write_q]
      omega
    · intro t c ht
      rw [ho.pc] at ht
      obtain ⟨hbuf, hintr'⟩ := h.task t c ht
      rw [ho.write_q, hnone]
      exact ⟨hbuf, fun b hb => hintr' b (hbelow b hb)⟩
    · rw [hnone]
      exact hnested.of_cons
    · rw [hnone, ho.write_q]
      exact fun b hb => h.stored b (hbelow b hb)
  · refine ⟨?_, hkept, hrunning, ?_, ?_, ?_⟩
    · have hsum := owed_cons hsome
      have hle := h.room
      rw [ho.pc] at hsum
      rw [ho.write_q]
      by_cases hn : n = 0
      · omega
      · have hplaces := (hroom hn).1
        omega
    · intro t c ht
      have hcur := hrunning t c ht
      rw [ho.pc] at ht
      rw [ho.current] at hcur
      obtain ⟨hbuf, hintr'⟩ := h.task t c ht
      rw [ho.write_q, hsome]
      refine ⟨hbuf, List.forall_mem_cons.mpr ⟨?_, fun b hb => hintr' b (hbelow b hb)⟩⟩
      rw [howes]
      by_contra hn
      rw [(stored_of_midPutch (hroom hn).2).2 t hcur] at ht
      cases ht
    · rw [hsome]
      refine List.pairwise_cons.mpr ⟨fun b hb hne => ?_, hnested.of_cons⟩
      rw [howes]
      by_contra hn
      exact hne ((stored_of_midPutch (hroom hn).2).1 b (hbelow b hb))
    · rw [hsome, ho.write_q]
      refine List.forall_mem_cons.mpr ⟨fun c hc => ?_, fun b hb => h.stored b (hbelow b hb)⟩
      rw [hstored] at hc
      cases hc

/-- Where nothing below has been stored, the last call alone counts. -/
theorem sound_of_top {a : Cook} {below : List Cook} (hintr : s.intr = a :: below)
    (hroom : s.owed ≤ s.write_q.LEFT) (hkept : s.taken ++ s.write_q.contents = s.accepted)
    (htask : ∀ t, (s.pc t).stored = none) (hbelow : ∀ b ∈ below, b.stored = none)
    (hnested : below.Pairwise fun above below => below.stored ≠ none → above.owes = 0)
    (htop : ∀ c, a.stored = some c → s.write_q.buf s.write_q.head = c) : Sound s where
  room := hroom
  kept := hkept
  running t c ht := by
    rw [htask t] at ht
    cases ht
  task t c ht := by
    rw [htask t] at ht
    cases ht
  nested := by
    rw [hintr]
    exact List.pairwise_cons.mpr ⟨fun b hb hne => absurd (hbelow b hb) hne, hnested⟩
  stored := by
    rw [hintr]
    refine List.forall_mem_cons.mpr ⟨htop, fun b hb c hc => ?_⟩
    rw [hbelow b hb] at hc
    cases hc

theorem Sound.store {c : Int8} {cs : List Int8} {k : Then} {below : List Cook} (h : Sound s)
    (hintr : s.intr = .put c cs k :: below) :
    Sound (({ s with intr := .inc c cs k :: below } : State T).setWrite (store c s.write_q)) := by
  have hput : (Cook.put c cs k).owes ≠ 0 := Nat.succ_ne_zero _
  have hnested := h.nested
  rw [hintr] at hnested
  refine sound_of_top rfl ?_ ?_ (h.task_below hintr hput) (h.stored_below hintr hput)
    hnested.of_cons fun c' hc => ?_
  · have hle := h.room
    rw [owed_cons hintr, ← Nat.add_assoc] at hle
    exact hle
  · exact (congrArg (s.taken ++ ·) (contents_store c s.write_q)).trans h.kept
  · obtain rfl := Option.some.inj hc
    exact update_self ..

theorem Sound.inc {c : Int8} {cs : List Int8} {k : Then} {below : List Cook} (h : Sound s)
    (hintr : s.intr = .inc c cs k :: below) :
    Sound (({ s with intr := puts k cs :: below, accepted := s.accepted ++ [c] } :
      State T).setWrite (inc s.write_q)) := by
  have hinc : (Cook.inc c cs k).owes = cs.length + 1 := rfl
  have howes : (Cook.inc c cs k).owes ≠ 0 := Nat.succ_ne_zero _
  have howed := owed_cons hintr
  have hle := h.room
  have hleft : 1 ≤ s.write_q.LEFT := by omega
  have hnested := h.nested
  rw [hintr] at hnested
  refine sound_of_top rfl ?_ ?_ (h.task_below hintr howes) (h.stored_below hintr howes)
    hnested.of_cons fun c' hc => ?_
  · have hnext := LEFT_inc hleft
    change (puts k cs).owes + (below.map Cook.owes).sum + tally Pc.owes s.pc ≤
      (Echo.inc s.write_q).LEFT
    rw [owes_puts]
    omega
  · have hbuf := h.stored _ (hintr ▸ List.mem_cons_self) c rfl
    change s.taken ++ (Echo.inc s.write_q).contents = s.accepted ++ [c]
    rw [contents_inc hleft, hbuf, ← List.append_assoc, h.kept]
  · rw [stored_puts] at hc
    cases hc

theorem Sound.cook {a : Cook} {below : List Cook} (h : Sound s) (hintr : s.intr = a :: below)
    (hroom : begins g s.line.tty a ≠ [] →
      s.owed + (begins g s.line.tty a).length ≤ s.write_q.LEFT ∧ s.midPutch = false) :
    Sound (s.cook g below a) := by
  cases a with
  | put c cs k => exact h.store hintr
  | inc c cs k => exact h.inc hintr
  | round | kill | write =>
      refine h.opens hintr rfl (cook_opens rfl below) fun hn => hroom fun hnil => hn ?_
      rw [hnil]
      rfl

theorem Sound.getch (h : Sound s) (hempty : s.write_q.EMPTY = false) :
    Sound (({ s with taken := s.taken ++ [s.write_q.GETCH.1] } :
      State T).setWrite s.write_q.GETCH.2) := by
  refine ⟨?_, ?_, h.running, h.task, h.nested, h.stored⟩
  · change s.owed ≤ s.write_q.GETCH.2.LEFT
    rw [LEFT_GETCH hempty]
    exact Nat.le_succ_of_le h.room
  · change s.taken ++ [s.write_q.GETCH.1] ++ s.write_q.GETCH.2.contents = s.accepted
    rw [List.append_assoc, List.singleton_append, ← TtyQueue.contents_GETCH hempty, h.kept]

/-! ## Steps of `tty_write` -/

/-- A task goes on with what it has stored in the queue, or with nothing stored. -/
theorem sound_of_task (hintr : s.intr = []) (hroom : s.owed ≤ s.write_q.LEFT)
    (hkept : s.taken ++ s.write_q.contents = s.accepted)
    (hother : ∀ t', t' ≠ t → (s.pc t').stored = none)
    (hstored : ∀ c, (s.pc t).stored = some c →
      s.current = some t ∧ s.write_q.buf s.write_q.head = c) : Sound s := by
  have honly : ∀ t' c, (s.pc t').stored = some c → t' = t := by
    intro t' c ht
    by_contra hne
    rw [hother t' hne] at ht
    cases ht
  refine ⟨hroom, hkept, ?_, ?_, ?_, ?_⟩
  · intro t' c ht
    obtain rfl := honly t' c ht
    exact (hstored c ht).1
  · intro t' c ht
    obtain rfl := honly t' c ht
    rw [hintr]
    exact ⟨(hstored c ht).2, fun _ ha => absurd ha List.not_mem_nil⟩
  · rw [hintr]
    exact List.Pairwise.nil
  · rw [hintr]
    exact fun _ ha => absurd ha List.not_mem_nil

theorem Sound.stored_other (h : Sound s) (hcur : s.current = none ∨ s.current = some t) :
    ∀ t', t' ≠ t → (s.pc t').stored = none := by
  intro t' hne
  cases hstored : (s.pc t').stored with
  | none => rfl
  | some c =>
      have hrun := h.running t' c hstored
      obtain hnone | hsome := hcur
      · rw [hnone] at hrun
        cases hrun
      · rw [hsome] at hrun
        exact absurd (Option.some.inj hrun).symm hne

variable [DecidableEq T]

theorem owed_moveTo (hintr : s.intr = []) (t : T) (pc : Pc) :
    (s.moveTo t pc).owed + (s.pc t).owes = s.owed + pc.owes := by
  have htally := tally_update Pc.owes s.pc t pc
  have hbefore : s.owed = tally Pc.owes s.pc := by
    rw [State.owed, hintr]
    exact Nat.zero_add _
  have hafter : (s.moveTo t pc).owed = tally Pc.owes (update s.pc t pc) := by
    rw [State.owed]
    change ((s.intr).map Cook.owes).sum + _ = _
    rw [hintr]
    exact Nat.zero_add _
  omega

theorem Sound.moveTo {pc : Pc} (h : Sound s) (hintr : s.intr = [])
    (hcur : s.current = none ∨ s.current = some t) (hstored : pc.stored = none)
    (hroom : s.owed + pc.owes ≤ s.write_q.LEFT + (s.pc t).owes) : Sound (s.moveTo t pc) := by
  have howed := owed_moveTo hintr t pc
  refine sound_of_task (t := t) hintr ?_ h.kept ?_ ?_
  · change _ ≤ s.write_q.LEFT
    omega
  · intro t' hne
    rw [pc_moveTo_of_ne s hne]
    exact h.stored_other hcur t' hne
  · intro c hc
    rw [pc_moveTo, hstored] at hc
    cases hc

theorem Sound.awake (h : Sound s) (hintr : s.intr = [])
    (hcur : s.current = none ∨ s.current = some t) (w : Writer) : Sound (s.awake t w) := by
  have hle := h.room
  unfold State.awake
  split
  · exact h.moveTo hintr hcur rfl (Nat.le_add_right_of_le hle)
  · exact h.moveTo hintr hcur rfl (Nat.le_add_right_of_le hle)

theorem post_spec (below : Int8 → Bool) (c_oflag : UInt32) (cr_flag : Bool) (c : Int8)
    (w : Writer) : (post below c_oflag cr_flag c w).1.stored = none ∧
      (post below c_oflag cr_flag c w).1.owes = 1 := by
  have hput : ∀ (b : Prop) [Decidable b] (p q : Pc × Bool),
      p.1.stored = none ∧ p.1.owes = 1 → q.1.stored = none ∧ q.1.owes = 1 →
      (if b then p else q).1.stored = none ∧ (if b then p else q).1.owes = 1 := by
    intro b _ p q hp hq
    split
    · exact hp
    · exact hq
  unfold post
  split
  · exact hput _ _ _ ⟨rfl, rfl⟩ ⟨rfl, rfl⟩
  · exact ⟨rfl, rfl⟩

theorem Sound.go {below : Int8 → Bool} {c : Int8} (h : Sound s) (hintr : s.intr = [])
    (hcur : s.current = none ∨ s.current = some t)
    (hroom : (s.pc t).atTest = true → s.write_q.FULL = false → s.owed + 1 ≤ s.write_q.LEFT)
    (hgo : s.go below t c (s.pc t) = some s') : Sound s' := by
  have hle := h.room
  cases hpc : s.pc t with
  | user ret =>
      rw [hpc] at hgo
      cases hgo
  | loop w =>
      rw [hpc] at hgo
      obtain rfl := Option.some.inj hgo
      split
      · exact h.moveTo hintr hcur rfl (Nat.le_add_right_of_le hle)
      · split
        · exact h.moveTo hintr hcur rfl (Nat.le_add_right_of_le hle)
        · exact h.awake hintr hcur w
  | asleep w =>
      rw [hpc] at hgo
      obtain ⟨-, hgo⟩ := Option.ite_none_right_eq_some.mp hgo
      obtain rfl := Option.some.inj hgo
      exact h.awake hintr hcur w
  | test w =>
      rw [hpc] at hgo hroom
      obtain rfl := Option.some.inj hgo
      split
      · rename_i hfull
        have hplace := hroom (decide_eq_true hfull.1) hfull.2
        exact h.moveTo hintr hcur rfl (Nat.le_add_right_of_le hplace)
      · exact h.moveTo hintr hcur rfl (Nat.le_add_right_of_le hle)
  | fetch w =>
      obtain ⟨hstored, howes⟩ := post_spec below s.c_oflag s.cr_flag c w
      rw [hpc, State.go] at hgo
      generalize post below s.c_oflag s.cr_flag c w = p at hgo hstored howes
      obtain ⟨pc, cr_flag⟩ := p
      obtain rfl := Option.some.inj hgo
      have hflag : Sound ({ s with cr_flag := cr_flag } : State T) :=
        ⟨h.room, h.kept, h.running, h.task, h.nested, h.stored⟩
      refine hflag.moveTo hintr hcur hstored ?_
      change s.owed + pc.owes ≤ s.write_q.LEFT + (s.pc t).owes
      rw [show pc.owes = 1 from howes]
      rw [hpc]
      exact Nat.succ_le_succ hle
  | put c' w =>
      have hother := h.stored_other hcur
      have howed := owed_moveTo hintr t (.inc c' w)
      rw [hpc] at hgo
      obtain rfl := Option.some.inj hgo
      refine sound_of_task (t := t) hintr ?_ ?_ ?_ ?_
      · rw [hpc] at howed
        change (s.moveTo t (.inc c' w)).owed ≤ s.write_q.LEFT
        exact (Nat.add_right_cancel howed).trans_le hle
      · exact (congrArg (s.taken ++ ·) (contents_store c' s.write_q)).trans h.kept
      · intro t' hne
        rw [pc_moveTo_of_ne _ hne]
        exact hother t' hne
      · intro c'' hc
        rw [pc_moveTo] at hc
        obtain rfl := Option.some.inj hc
        exact ⟨rfl, update_self ..⟩
  | inc c' w =>
      have hother := h.stored_other hcur
      have howed := owed_moveTo hintr t (.test w)
      have hbuf := (h.task t c' (by rw [hpc]; rfl)).1
      rw [hpc] at hgo howed
      obtain rfl := Option.some.inj hgo
      have hone : (Pc.inc c' w).owes = 1 := rfl
      have hzero : (Pc.test w).owes = 0 := rfl
      have hleft : 1 ≤ s.write_q.LEFT := by omega
      have hnext := LEFT_inc hleft
      refine sound_of_task (t := t) hintr ?_ ?_ ?_ ?_
      · change (s.moveTo t (.test w)).owed ≤ (Echo.inc s.write_q).LEFT
        omega
      · change s.taken ++ (Echo.inc s.write_q).contents = s.accepted ++ [c']
        rw [contents_inc hleft, hbuf, ← List.append_assoc, h.kept]
      · intro t' hne
        rw [pc_moveTo_of_ne _ hne]
        exact hother t' hne
      · intro c'' hc
        rw [pc_moveTo] at hc
        cases hc
  | write w =>
      rw [hpc] at hgo
      obtain rfl := Option.some.inj hgo
      split <;> exact h.moveTo hintr hcur rfl (Nat.le_add_right_of_le hle)
  | schedule w =>
      rw [hpc] at hgo
      obtain rfl := Option.some.inj hgo
      exact h.moveTo hintr hcur rfl (Nat.le_add_right_of_le hle)

/-! ## Runs -/

theorem Sound.step {below : Int8 → Bool} {a : Act T} (h : Sound s) (hok : Roomy g s a)
    (hstep : step g below s a = some s') : Sound s' := by
  cases a with
  | put_queue bytes =>
      obtain rfl := Option.some.inj hstep
      exact ⟨h.room, h.kept, h.running, h.task, h.nested, h.stored⟩
  | copy_to_cooked =>
      obtain rfl := Option.some.inj hstep
      refine ⟨?_, h.kept, h.running, fun t c ht => ?_, ?_, ?_⟩
      · have hle := h.room
        rw [owed_cons rfl]
        exact (Nat.zero_add _).trans_le hle
      · obtain ⟨hbuf, hintr⟩ := h.task t c ht
        exact ⟨hbuf, List.forall_mem_cons.mpr ⟨rfl, hintr⟩⟩
      · exact List.pairwise_cons.mpr ⟨fun _ _ _ => rfl, h.nested⟩
      · refine List.forall_mem_cons.mpr ⟨fun c hc => ?_, h.stored⟩
        cases hc
  | cook =>
      cases hintr : s.intr with
      | nil =>
          simp only [Echo.step, hintr] at hstep
          cases hstep
      | cons b below =>
          simp only [Echo.step, hintr] at hstep
          obtain rfl := Option.some.inj hstep
          refine h.cook hintr (hok b ?_)
          rw [hintr]
          exact rfl
  | getch =>
      obtain rfl := Option.some.inj hstep
      exact h.getch hok
  | tty_read secondary =>
      obtain ⟨-, hsome⟩ := Option.ite_none_right_eq_some.mp hstep
      obtain rfl := Option.some.inj hsome
      exact ⟨h.room, h.kept, h.running, h.task, h.nested, h.stored⟩
  | other cr_flag =>
      obtain ⟨-, hsome⟩ := Option.ite_none_right_eq_some.mp hstep
      obtain rfl := Option.some.inj hsome
      exact ⟨h.room, h.kept, h.running, h.task, h.nested, h.stored⟩
  | kill t signal =>
      obtain rfl := Option.some.inj hstep
      exact ⟨h.room, h.kept, h.running, h.task, h.nested, h.stored⟩
  | tty_write t nr =>
      simp only [Echo.step] at hstep
      split at hstep
      · rename_i hidle _
        obtain ⟨hintr, hcur⟩ := idle_iff.mp hidle
        obtain rfl := Option.some.inj hstep
        split
        · exact h.moveTo hintr (.inl hcur) rfl (Nat.le_add_right_of_le h.room)
        · exact h.moveTo hintr (.inl hcur) rfl (Nat.le_add_right_of_le h.room)
      · cases hstep
  | go t c =>
      obtain ⟨⟨hintr, hcur⟩, hgo⟩ := Option.ite_none_right_eq_some.mp hstep
      exact h.go (List.isEmpty_iff.mp hintr) hcur hok hgo

theorem sound_of_reach {below : Int8 → Bool} {line : Line T} {c_oflag : UInt32} {cr_flag : Bool}
    (h : Reach (step g below) (Roomy g) (start line c_oflag cr_flag) s) : Sound s :=
  h.invariant (Sound.start line c_oflag cr_flag) fun _ _ _ hs hok hstep => hs.step hok hstep

/-- In the runs in which every echo, and every task behind its test, finds the places
that it needs, no output is destroyed: no `PUTCH` meets a full queue, the head never
comes to the tail, and what has been taken off the queue together with what is in it is
all that was put, in its order. The calls may interrupt one another anywhere, also
inside of a `PUTCH`. -/
theorem echo_keeps {below : Int8 → Bool} {line : Line T} {c_oflag : UInt32} {cr_flag : Bool}
    (h : Reach (step g below) (Roomy g) (start line c_oflag cr_flag) s) : Safe s :=
  (sound_of_reach h).safe

end Counts

/-! ## A full queue -/

/-- The console with what stands in front of `head` in its write queue. -/
def consoleLine (head : Tty.Place) : Line Unit where
  tty :=
    { termios := Tty.consoleTermios
      pgrp := 0
      stopped := false
      read_q := TtyQueue.clear 0
      write_q := { TtyQueue.clear 0 with head := head }
      secondary := TtyQueue.clear 0 }
  signal _ := 0
  pgrp _ := 0

/-- The end of a line is echoed while a task is in front of its test. -/
def echoedInFront : List (Act Unit) :=
  [.tty_write () 1, .go () 0, .put_queue [10], .copy_to_cooked, .cook, .cook, .cook, .cook, .cook,
    .cook, .cook, .go () 0, .go () 98, .go () 0, .go () 0, .getch]

theorem echo_keeps_console : ∃ s : State Unit,
    exec (checked (step Tty.consoleGiven fun _ => false) (Roomy Tty.consoleGiven))
      (start (consoleLine Tty.place0) 5 false) echoedInFront = some s ∧
      (s.taken, s.write_q.contents) = ([10], [13, 98]) ∧ Safe s := by
  obtain ⟨s, hs, hqueue⟩ : ∃ s, exec (checked (step Tty.consoleGiven fun _ => false)
      (Roomy Tty.consoleGiven)) (start (consoleLine Tty.place0) 5 false) echoedInFront = some s ∧
      (s.taken, s.write_q.contents) = ([10], [13, 98]) := exec_any (by decide +kernel)
  exact ⟨s, hs, hqueue, echo_keeps (exec_checked hs)⟩

/-- A character is typed and echoed. -/
def typed : List (Act Unit) := [.put_queue [97], .copy_to_cooked, .cook, .cook, .cook]

/-- The echo into a full queue leaves it empty. -/
theorem not_echo_keeps : ¬∀ (g : Given) (below : Int8 → Bool) (line : Line Unit)
    (c_oflag : UInt32) (cr_flag : Bool) (s : State Unit),
    Reach (step g below) Free (start line c_oflag cr_flag) s → Safe s := by
  intro h
  obtain ⟨s, hs, hlost⟩ : ∃ s, exec (step Tty.consoleGiven fun _ => false)
      (start (consoleLine (DEC Tty.place0)) 5 false) typed = some s ∧
      s.taken.length + s.write_q.CHARS ≠ s.accepted.length := exec_any (by decide +kernel)
  refine hlost ?_
  rw [← (h _ _ _ _ _ s (exec_reach hs)).kept, List.length_append, TtyQueue.contents_length]

end Echo

end Linux011
