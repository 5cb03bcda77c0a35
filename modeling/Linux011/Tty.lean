import Linux011.Runs
import Mathlib.Data.List.Count
import Mathlib.Data.List.Range
import Mathlib.Logic.Function.Basic
import Mathlib.Tactic.Common

/-!
# Terminals in cooked mode

The queues of `include/linux/tty.h`, `copy_to_cooked` and `tty_read` of `kernel/chr_drv/tty_io.c`
for one tty, with `put_queue` of `keyboard.S`. The characters of a queue are signed and those of
`c_cc` are not, and `==` compares their values.

`copy_to_cooked` is called by the interrupts of the keyboard and the serial lines. While
`tty_read` spins on an incomplete line it relies on them, and it does not shut them out where
it takes a character, so that its steps are: the tests before the characters, `GETCH`, the
count of the lines, and the copy to user space with the test behind it. In between there may
be interrupts; other tasks run only where `tty_read` may sleep, in `sleep_if_empty` and in
`put_fs_byte`. A task that waits may wake up at any time.

`tty->write` is any function of the write queue.

The invariant `Sound` compares the counter with the secondary queue. It may be ahead by one, for
a character that ends a line and was taken off the queue but not yet counted off, and this can
only be so for the one task that is in `tty_read` where it does not sleep (`State.owed`). A round
of `copy_to_cooked` edits the queue at its end: it puts a character and counts it, or takes the
last one back, which it does only while this is no end of a line. `Keeps` says both, the edits
and the counter, is composed over the rounds, and also holds while the counter is ahead. The ring
of the source is read as a list first (`contents`), with `PUTCH`, `GETCH` and `DEC` as changes at
its two ends.

What can go wrong is between a test and `GETCH`. An interrupt may erase the only character there
is, and `GETCH` from an empty queue goes round the whole ring; the condition of the runs excludes
just this step.
-/

namespace Linux011

open Function Runs

namespace Tty

/-! ## `tty.h` -/

def TTY_BUF_SIZE : Nat := 1024

/-- A place of a queue. -/
abbrev Place : Type := Fin TTY_BUF_SIZE

structure TtyQueue where
  data : UInt32
  head : Place
  tail : Place
  buf : Place → Int8

def INC (a : Place) : Place :=
  ⟨(a.val + 1) % TTY_BUF_SIZE, Nat.mod_lt _ (Nat.zero_lt_of_lt a.isLt)⟩

def DEC (a : Place) : Place :=
  ⟨(a.val + (TTY_BUF_SIZE - 1)) % TTY_BUF_SIZE, Nat.mod_lt _ (Nat.zero_lt_of_lt a.isLt)⟩

namespace TtyQueue

def EMPTY (q : TtyQueue) : Bool := decide (q.head = q.tail)

/-- `(tail-head-1)&(TTY_BUF_SIZE-1)`. -/
def LEFT (q : TtyQueue) : Nat := (((q.tail.val : Int) - q.head.val - 1) % TTY_BUF_SIZE).toNat

def FULL (q : TtyQueue) : Bool := decide (q.LEFT = 0)

/-- `(head-tail)&(TTY_BUF_SIZE-1)`. -/
def CHARS (q : TtyQueue) : Nat := (((q.head.val : Int) - q.tail.val) % TTY_BUF_SIZE).toNat

def LAST (q : TtyQueue) : Int8 := q.buf (DEC q.head)

def GETCH (q : TtyQueue) : Int8 × TtyQueue := (q.buf q.tail, { q with tail := INC q.tail })

def PUTCH (c : Int8) (q : TtyQueue) : TtyQueue :=
  { q with buf := update q.buf q.head c, head := INC q.head }

/-- The characters in the queue, the oldest first. -/
def contents (q : TtyQueue) : List Int8 :=
  (List.range q.CHARS).map fun i => q.buf
    ⟨(q.tail.val + i) % TTY_BUF_SIZE, Nat.mod_lt _ (Nat.zero_lt_of_lt q.tail.isLt)⟩

end TtyQueue

/-- The part of `struct termios` that the input uses. -/
structure Termios where
  c_iflag : UInt32
  c_lflag : UInt32
  c_cc : Nat → UInt8

namespace Termios

variable (t : Termios)

def ICRNL : Bool := decide (t.c_iflag &&& 256 ≠ 0)
def IGNCR : Bool := decide (t.c_iflag &&& 128 ≠ 0)
def INLCR : Bool := decide (t.c_iflag &&& 64 ≠ 0)
def IUCLC : Bool := decide (t.c_iflag &&& 512 ≠ 0)
def ISIG : Bool := decide (t.c_lflag &&& 1 ≠ 0)
def ICANON : Bool := decide (t.c_lflag &&& 2 ≠ 0)
def ECHO : Bool := decide (t.c_lflag &&& 8 ≠ 0)
def ECHOCTL : Bool := decide (t.c_lflag &&& 512 ≠ 0)

def INTR_CHAR : UInt8 := t.c_cc 0
def QUIT_CHAR : UInt8 := t.c_cc 1
def ERASE_CHAR : UInt8 := t.c_cc 2
def KILL_CHAR : UInt8 := t.c_cc 3
def EOF_CHAR : UInt8 := t.c_cc 4
def VTIME : UInt8 := t.c_cc 5
def VMIN : UInt8 := t.c_cc 6
def START_CHAR : UInt8 := t.c_cc 8
def STOP_CHAR : UInt8 := t.c_cc 9

end Termios

/-- `c==k`, of a signed character and an unsigned one. -/
def eq (c : Int8) (k : UInt8) : Bool := decide (c.toInt = (k.toNat : Int))

/-- `c==10 || c==EOF_CHAR(tty)`. -/
def Termios.endsLine (t : Termios) (c : Int8) : Bool := decide (c.toInt = 10) || eq c t.EOF_CHAR

structure TtyStruct where
  termios : Termios
  pgrp : Int
  stopped : Bool
  read_q : TtyQueue
  write_q : TtyQueue
  secondary : TtyQueue

/-! ## `copy_to_cooked` -/

def INTMASK : UInt32 := 2
def QUITMASK : UInt32 := 4
def ALRMMASK : UInt32 := 8192

/-- What the code is given: `tty->write`, and whether the memory before `_ctype` has the bit
of the upper case letters where the index is negative. -/
structure Given where
  write : TtyQueue → TtyQueue
  below : Int8 → Bool

/-- `tolower`. -/
def Given.tolower (g : Given) (c : Int8) : Int8 :=
  let isupper := if c.toInt < -1 then g.below c else decide (65 ≤ c.toInt ∧ c.toInt ≤ 90)
  if isupper then c + 32 else c

/-- The tty and the signals of the tasks, with their process groups. -/
structure Line (T : Type*) where
  tty : TtyStruct
  signal : T → UInt32
  pgrp : T → Int

variable {T : Type*}

def Line.tty_intr (l : Line T) (mask : UInt32) : Line T :=
  let signal t := if l.pgrp t = l.tty.pgrp then l.signal t ||| mask else l.signal t
  if l.tty.pgrp ≤ 0 then l else { l with signal := signal }

/-- The tests before the modes; `none` is a character that is dropped. -/
def translate (g : Given) (t : Termios) (c : Int8) : Option Int8 :=
  let mapped :=
    if c.toInt = 13 then
      if t.ICRNL then some 10 else if t.IGNCR then none else some c
    else if c.toInt = 10 ∧ t.INLCR = true then some 13
    else some c
  mapped.map fun c => if t.IUCLC then g.tolower c else c

/-- The last character of the secondary queue goes, and its echo. -/
def rubOut (g : Given) (tty : TtyStruct) : TtyStruct :=
  let c := tty.secondary.LAST
  let write_q :=
    if tty.termios.ECHO then
      g.write ((if c.toInt < 32 then tty.write_q.PUTCH 127 else tty.write_q).PUTCH 127)
    else tty.write_q
  { tty with
    write_q := write_q
    secondary := { tty.secondary with head := DEC tty.secondary.head } }

/-- `EMPTY(secondary) || (c=LAST(secondary))==10 || c==EOF_CHAR(tty)`. -/
def atLineEnd (tty : TtyStruct) : Bool :=
  tty.secondary.EMPTY || tty.termios.endsLine tty.secondary.LAST

/-- The loop of `KILL_CHAR`. -/
def killLine (g : Given) : Nat → TtyStruct → TtyStruct
  | 0, tty => tty
  | n + 1, tty => if atLineEnd tty then tty else killLine g n (rubOut g tty)

/-- The echo of a character. -/
def echo (g : Given) (t : Termios) (c : Int8) (write_q : TtyQueue) : TtyQueue :=
  if t.ECHO then
    g.write <|
      if c.toInt = 10 then (write_q.PUTCH 10).PUTCH 13
      else if c.toInt < 32 then
        if t.ECHOCTL then (write_q.PUTCH 94).PUTCH (c + 64) else write_q
      else write_q.PUTCH c
  else write_q

/-- The end of a round: the character goes to the secondary queue. -/
def putCooked (g : Given) (tty : TtyStruct) (c : Int8) : TtyStruct :=
  let data := if tty.termios.endsLine c then tty.secondary.data + 1 else tty.secondary.data
  { tty with
    write_q := echo g tty.termios c tty.write_q
    secondary := { tty.secondary with data := data }.PUTCH c }

/-- A round of the loop, with the character that has been taken off the read queue. -/
def cookChar (g : Given) (l : Line T) (c : Int8) : Line T :=
  let t := l.tty.termios
  match translate g t c with
  | none => l
  | some c =>
    if t.ICANON && eq c t.KILL_CHAR then
      { l with tty := killLine g l.tty.secondary.CHARS l.tty }
    else if t.ICANON && eq c t.ERASE_CHAR then
      if atLineEnd l.tty then l else { l with tty := rubOut g l.tty }
    else if t.ICANON && eq c t.STOP_CHAR then { l with tty := { l.tty with stopped := true } }
    else if t.ICANON && eq c t.START_CHAR then { l with tty := { l.tty with stopped := false } }
    else if t.ISIG && eq c t.INTR_CHAR then l.tty_intr INTMASK
    else if t.ISIG && eq c t.QUIT_CHAR then l.tty_intr QUITMASK
    else { l with tty := putCooked g l.tty c }

def cookRound (g : Given) (l : Line T) : Line T :=
  let (c, read_q) := l.tty.read_q.GETCH
  cookChar g { l with tty := { l.tty with read_q := read_q } } c

/-- The loop of `copy_to_cooked`, for at most `n` rounds. -/
def cook (g : Given) : Nat → Line T → Line T
  | 0, l => l
  | n + 1, l =>
    if l.tty.read_q.EMPTY || l.tty.secondary.FULL then l else cook g n (cookRound g l)

/-- Each round takes a character off the read queue. -/
def copy_to_cooked (g : Given) (l : Line T) : Line T := cook g l.tty.read_q.CHARS l

/-! ## `tty_read` -/

/-- The variables of a call. -/
structure Reader where
  nr : Nat
  /-- what has gone to user space -/
  buf : List Int8
  time : Int
  minimum : Int
  flag : Bool
  oldalarm : Int

/-- Where a task is in `tty_read`. -/
inductive Pc where
  /-- with what the last call has returned -/
  | user (ret : Int)
  /-- at the head of the loop -/
  | loop (r : Reader)
  /-- in `sleep_if_empty` -/
  | asleep (r : Reader)
  /-- before `GETCH` -/
  | getch (r : Reader)
  /-- before the count of the lines -/
  | count (r : Reader) (c : Int8)
  /-- in `put_fs_byte` -/
  | store (r : Reader) (c : Int8)

structure State (T : Type*) where
  line : Line T
  alarm : T → Int
  pc : T → Pc
  /-- the task that is in `tty_read` where it does not sleep -/
  current : Option T

inductive Act (T : Type*) where
  /-- an interrupt puts bytes into the read queue -/
  | put_queue (bytes : List Int8)
  /-- an interrupt calls `copy_to_cooked` -/
  | copy_to_cooked
  /-- a signal that is not of this tty -/
  | kill (t : T) (mask : UInt32)
  | tty_read (t : T) (nr : Nat) (jiffies : Int)
  /-- the task goes on in `tty_read` -/
  | go (t : T) (jiffies : Int)

/-- `put_queue` of `keyboard.S`: when the buffer is full everything is discarded. -/
def put_queue (q : TtyQueue) (ecx : Place) : List Int8 → TtyQueue
  | [] => { q with head := ecx }
  | al :: bytes =>
    let q := { q with buf := update q.buf ecx al }
    if INC ecx = q.tail then q else put_queue q (INC ecx) bytes

section Step

variable [DecidableEq T]

/-- The task stops, or goes on without giving up the processor. -/
def State.moveTo (s : State T) (t : T) (pc : Pc) : State T :=
  { s with
    pc := update s.pc t pc
    current := match pc with
      | .user _ | .asleep _ | .store _ _ => none
      | _ => some t }

/-- The end of `tty_read`. -/
def State.finish (s : State T) (t : T) (r : Reader) : State T :=
  let ret : Int := if s.line.signal t ≠ 0 ∧ r.buf = [] then -4 else r.buf.length
  { s with alarm := update s.alarm t r.oldalarm }.moveTo t (.user ret)

/-- The head of the loop, up to the first `GETCH`. -/
def State.loopHead (s : State T) (t : T) (r : Reader) : State T :=
  let tty := s.line.tty
  if r.nr = 0 then s.finish t r
  else if r.flag = true ∧ s.line.signal t &&& ALRMMASK ≠ 0 then
    { s with line := { s.line with
      signal := update s.line.signal t (s.line.signal t &&& ~~~ALRMMASK) } }.finish t r
  else if s.line.signal t ≠ 0 then s.finish t r
  else if tty.secondary.EMPTY = true ∨
      (tty.termios.ICANON = true ∧ tty.secondary.data = 0 ∧ 20 < tty.secondary.LEFT) then
    s.moveTo t (if tty.secondary.EMPTY then .asleep r else .loop r)
  else s.moveTo t (.getch r)

/-- The rest of the round behind the characters. -/
def State.afterChars (s : State T) (t : T) (r : Reader) (jiffies : Int) : State T :=
  let canon := s.line.tty.termios.ICANON
  let flag := decide (r.oldalarm = 0 ∨ r.time + jiffies < r.oldalarm)
  let timed := decide (r.time ≠ 0) && !canon
  let enough := if canon then decide (r.buf ≠ []) else decide (r.minimum ≤ r.buf.length)
  let r := if timed then { r with flag := flag } else r
  let s := if timed then
      { s with alarm := update s.alarm t (if flag then r.time + jiffies else r.oldalarm) }
    else s
  if enough then s.finish t r else s.moveTo t (.loop r)

/-- The call up to the loop. -/
def State.begin (s : State T) (t : T) (nr : Nat) (jiffies : Int) : State T :=
  let oldalarm := s.alarm t
  let time : Int := 10 * s.line.tty.termios.VTIME.toNat
  let minimum : Int := s.line.tty.termios.VMIN.toNat
  let timed := time ≠ 0 ∧ minimum = 0
  let flag := decide (timed ∧ (oldalarm = 0 ∨ time + jiffies < oldalarm))
  let minimum := if timed then 1 else minimum
  let r : Reader := ⟨nr, [], time, min minimum nr, flag, oldalarm⟩
  { s with alarm := if flag then update s.alarm t (time + jiffies) else s.alarm }.moveTo t (.loop r)

def State.setSecondary (s : State T) (q : TtyQueue) : State T :=
  { s with line := { s.line with tty := { s.line.tty with secondary := q } } }

/-- A character that ends a line is counted off. -/
def State.countOff (s : State T) (c : Int8) : State T :=
  let q := s.line.tty.secondary
  s.setSecondary { q with
    data := if s.line.tty.termios.endsLine c then q.data - 1 else q.data }

/-- A step of `tty_read`. -/
def State.go (s : State T) (t : T) (jiffies : Int) : Pc → Option (State T)
  | .user _ => none
  | .loop r => some (s.loopHead t r)
  | .asleep r =>
    if s.line.signal t = 0 ∧ s.line.tty.secondary.EMPTY = true then some s
    else some (s.moveTo t (.loop r))
  | .getch r =>
    let (c, q) := s.line.tty.secondary.GETCH
    some ((s.setSecondary q).moveTo t (.count r c))
  | .count r c =>
    let eof := eq c s.line.tty.termios.EOF_CHAR && s.line.tty.termios.ICANON
    some ((s.countOff c).moveTo t (if eof then .user r.buf.length else .store r c))
  | .store r c =>
    let r := { r with buf := r.buf ++ [c], nr := r.nr - 1 }
    if r.nr ≠ 0 ∧ s.line.tty.secondary.EMPTY = false then some (s.moveTo t (.getch r))
    else some (s.afterChars t r jiffies)

def step (g : Given) (s : State T) : Act T → Option (State T)
  | .put_queue bytes =>
    let tty := s.line.tty
    some { s with line := { s.line with
      tty := { tty with read_q := put_queue tty.read_q tty.read_q.head bytes } } }
  | .copy_to_cooked => some { s with line := copy_to_cooked g s.line }
  | .kill t mask => some { s with line := { s.line with
      signal := update s.line.signal t (s.line.signal t ||| mask) } }
  | .tty_read t nr jiffies =>
    match s.current, s.pc t with
    | none, .user _ => some (s.begin t nr jiffies)
    | _, _ => none
  | .go t jiffies =>
    if s.current = none ∨ s.current = some t then s.go t jiffies (s.pc t) else none

end Step

def place0 : Place := ⟨0, Nat.zero_lt_succ 1023⟩

/-- An empty queue. -/
def TtyQueue.clear (data : UInt32) : TtyQueue := ⟨data, place0, place0, fun _ => 0⟩

/-- A tty with empty queues; `port` is in the `data` of the other two queues. -/
def start (t : Termios) (tty_pgrp : Int) (port : UInt32) (pgrp alarm : T → Int) : State T where
  line := ⟨⟨t, tty_pgrp, false, .clear port, .clear port, .clear 0⟩, fun _ => 0, pgrp⟩
  alarm := alarm
  pc _ := .user 0
  current := none

/-! ## The count of the lines -/

/-- What a round of `copy_to_cooked` may do to the secondary queue: a character is added
where there is room, or the last one goes, which does not end a line. -/
inductive Edit (endsLine : Int8 → Bool) (l : List Int8) : List Int8 → Prop
  | put (c : Int8) (h : l.length < TTY_BUF_SIZE - 1) : Edit endsLine l (l ++ [c])
  | rubOut (l' : List Int8) (c : Int8) (hl : l = l' ++ [c]) (h : endsLine c = false) :
      Edit endsLine l l'

/-- The characters that end a line are counted while no call is in progress, and
`copy_to_cooked` neither overflows the queue nor takes away anything before the end of the
last line in it. -/
structure Counted (g : Given) (s : State T) : Prop where
  lines : (∀ t, ∃ ret, s.pc t = .user ret) → s.line.tty.secondary.data.toNat =
    s.line.tty.secondary.contents.countP s.line.tty.termios.endsLine
  edits : Relation.ReflTransGen (Edit s.line.tty.termios.endsLine)
    s.line.tty.secondary.contents (copy_to_cooked g s.line).tty.secondary.contents

def Pc.atGetch : Pc → Bool
  | .getch _ => true
  | _ => false

/-- A character is taken only off a queue that has one. -/
def NotEmptied (s : State T) : Act T → Prop
  | .go t _ => (s.pc t).atGetch = true → s.line.tty.secondary.EMPTY = false
  | _ => True

instance (s : State T) : ∀ a : Act T, Decidable (NotEmptied s a)
  | .go t _ =>
    inferInstanceAs (Decidable ((s.pc t).atGetch = true → s.line.tty.secondary.EMPTY = false))
  | .put_queue _ | .copy_to_cooked | .kill _ _ | .tty_read _ _ _ => inferInstanceAs (Decidable True)

/-! ## The ring -/

namespace TtyQueue

variable {q : TtyQueue}

theorem CHARS_eq (q : TtyQueue) : q.CHARS = (q.head.val + (1024 - q.tail.val)) % 1024 := by
  have hh : q.head.val < 1024 := q.head.isLt
  have ht : q.tail.val < 1024 := q.tail.isLt
  unfold CHARS TTY_BUF_SIZE
  omega

theorem LEFT_eq (q : TtyQueue) : q.LEFT + q.CHARS = 1023 := by
  have hh : q.head.val < 1024 := q.head.isLt
  have ht : q.tail.val < 1024 := q.tail.isLt
  unfold LEFT CHARS TTY_BUF_SIZE
  omega

theorem CHARS_le (q : TtyQueue) : q.CHARS ≤ 1023 := by
  have := q.LEFT_eq
  omega

theorem EMPTY_iff : q.EMPTY = true ↔ q.CHARS = 0 := by
  have hh : q.head.val < 1024 := q.head.isLt
  have ht : q.tail.val < 1024 := q.tail.isLt
  rw [EMPTY, decide_eq_true_iff, Fin.ext_iff, CHARS_eq]
  omega

theorem EMPTY_eq_false : q.EMPTY = false ↔ 1 ≤ q.CHARS := by
  rw [← Bool.not_eq_true, EMPTY_iff]
  omega

theorem FULL_eq_false : q.FULL = false ↔ q.CHARS < 1023 := by
  have := q.LEFT_eq
  rw [FULL, decide_eq_false_iff_not]
  omega

theorem contents_length (q : TtyQueue) : q.contents.length = q.CHARS := by
  simp [contents]

theorem contents_PUTCH (h : q.FULL = false) (c : Int8) :
    (q.PUTCH c).contents = q.contents ++ [c] := by
  have hlt := FULL_eq_false.mp h
  have hh : q.head.val < 1024 := q.head.isLt
  have ht : q.tail.val < 1024 := q.tail.isLt
  have hhead : (q.PUTCH c).head.val = (q.head.val + 1) % 1024 := rfl
  have hn : (q.PUTCH c).CHARS = q.CHARS + 1 := by
    rw [CHARS_eq] at hlt ⊢
    rw [hhead, CHARS_eq]
    change ((q.head.val + 1) % 1024 + (1024 - q.tail.val)) % 1024 = _
    omega
  unfold contents
  rw [hn, List.range_succ, List.map_append, List.map_singleton]
  refine congrArg₂ (· ++ ·) (List.map_congr_left fun i hi => ?_) (congrArg (fun c => [c]) ?_)
  · have hi := List.mem_range.mp hi
    refine update_of_ne (fun e => ?_) ..
    have e := congrArg Fin.val e
    change (q.tail.val + i) % 1024 = q.head.val at e
    rw [CHARS_eq] at hi
    omega
  · have hplace : (⟨((q.PUTCH c).tail.val + q.CHARS) % TTY_BUF_SIZE,
        Nat.mod_lt _ (Nat.zero_lt_of_lt q.tail.isLt)⟩ : Place) = q.head := by
      refine Fin.ext ?_
      change (q.tail.val + q.CHARS) % 1024 = q.head.val
      rw [CHARS_eq]
      omega
    rw [hplace]
    exact update_self ..

theorem contents_GETCH (h : q.EMPTY = false) :
    q.contents = q.GETCH.1 :: q.GETCH.2.contents := by
  have hpos := EMPTY_eq_false.mp h
  have hh : q.head.val < 1024 := q.head.isLt
  have ht : q.tail.val < 1024 := q.tail.isLt
  have hn : q.CHARS = q.GETCH.2.CHARS + 1 := by
    rw [CHARS_eq] at hpos ⊢
    rw [CHARS_eq]
    change _ = (q.head.val + (1024 - (q.tail.val + 1) % 1024)) % 1024 + 1
    omega
  unfold contents
  rw [hn, List.range_succ_eq_map, List.map_cons, List.map_map]
  refine congrArg₂ List.cons ?_ (List.map_congr_left fun i _ => ?_)
  · refine congrArg q.buf (Fin.ext ?_)
    exact Nat.mod_eq_of_lt ht
  · refine congrArg q.buf (Fin.ext ?_)
    change (q.tail.val + (i + 1)) % 1024 = ((q.tail.val + 1) % 1024 + i) % 1024
    omega

/-- `DEC` of the head takes the newest one. -/
theorem contents_DEC (h : q.EMPTY = false) :
    q.contents = { q with head := DEC q.head }.contents ++ [q.LAST] := by
  have hpos := EMPTY_eq_false.mp h
  have hh : q.head.val < 1024 := q.head.isLt
  have ht : q.tail.val < 1024 := q.tail.isLt
  have hn : q.CHARS = { q with head := DEC q.head }.CHARS + 1 := by
    rw [CHARS_eq] at hpos ⊢
    rw [CHARS_eq]
    change _ = ((q.head.val + 1023) % 1024 + (1024 - q.tail.val)) % 1024 + 1
    omega
  have hlast : (q.tail.val + { q with head := DEC q.head }.CHARS) % 1024
      = (q.head.val + 1023) % 1024 := by
    rw [CHARS_eq] at hn
    omega
  unfold contents
  rw [hn, List.range_succ, List.map_append, List.map_singleton]
  exact congrArg (fun c => _ ++ [c]) (congrArg q.buf (Fin.ext hlast))

end TtyQueue

/-! ## Rounds of `copy_to_cooked` -/

/-- The counter is ahead of the queue by `e`. -/
def Balanced (e : Nat) (tty : TtyStruct) : Prop :=
  tty.secondary.data.toNat = tty.secondary.contents.countP tty.termios.endsLine + e

/-- The queue is edited and the counter kept. -/
structure Keeps (tty tty' : TtyStruct) : Prop where
  termios : tty'.termios = tty.termios
  edits : Relation.ReflTransGen (Edit tty.termios.endsLine) tty.secondary.contents
    tty'.secondary.contents
  lines : ∀ e ≤ 1, Balanced e tty → Balanced e tty'

variable {g : Given} {tty tty' tty'' : TtyStruct} {l : Line T}

theorem Keeps.refl (tty : TtyStruct) : Keeps tty tty := ⟨rfl, .refl, fun _ _ h => h⟩

theorem Keeps.trans (h : Keeps tty tty') (h' : Keeps tty' tty'') : Keeps tty tty'' where
  termios := h'.termios.trans h.termios
  edits := h.edits.trans (h.termios ▸ h'.edits)
  lines e he hb := h'.lines e he (h.lines e he hb)

/-- What is not the secondary queue does not matter. -/
theorem Keeps.of_eq (ht : tty'.termios = tty.termios) (hq : tty'.secondary = tty.secondary) :
    Keeps tty tty' where
  termios := ht
  edits := by rw [hq]
  lines e _ hb := by
    unfold Balanced
    rw [hq, ht]
    exact hb

theorem rubOut_keeps (h : atLineEnd tty = false) : Keeps tty (rubOut g tty) := by
  obtain ⟨hempty, hlast⟩ := Bool.or_eq_false_iff.mp h
  have hcontents : tty.secondary.contents
      = (rubOut g tty).secondary.contents ++ [tty.secondary.LAST] :=
    TtyQueue.contents_DEC hempty
  have hdata : (rubOut g tty).secondary.data = tty.secondary.data := by
    dsimp only [rubOut]
  have ht : (rubOut g tty).termios = tty.termios := rfl
  refine ⟨ht, .single (.rubOut _ _ hcontents hlast), fun e _ hb => ?_⟩
  unfold Balanced at hb ⊢
  rw [hcontents, List.countP_append, List.countP_singleton, hlast] at hb
  rw [hdata, ht, hb]
  simp only [Bool.false_eq_true, if_false, Nat.add_zero]

theorem killLine_keeps : ∀ (n : Nat) (tty : TtyStruct), Keeps tty (killLine g n tty)
  | 0, tty => Keeps.refl tty
  | n + 1, tty => by
      rw [killLine]
      split
      · exact Keeps.refl tty
      · rename_i h
        exact (rubOut_keeps (Bool.eq_false_iff.mpr h)).trans (killLine_keeps n (rubOut g tty))

theorem countP_le (tty : TtyStruct) :
    tty.secondary.contents.countP tty.termios.endsLine ≤ 1023 :=
  List.countP_le_length.trans ((TtyQueue.contents_length _).trans_le (TtyQueue.CHARS_le _))

theorem putCooked_keeps (h : tty.secondary.FULL = false) (c : Int8) :
    Keeps tty (putCooked g tty c) := by
  have hcontents : (putCooked g tty c).secondary.contents = tty.secondary.contents ++ [c] :=
    TtyQueue.contents_PUTCH (q := { tty.secondary with
      data := (putCooked g tty c).secondary.data }) h c
  refine ⟨rfl, ?_, fun e he hb => ?_⟩
  · rw [hcontents]
    refine .single (.put c ?_)
    rw [TtyQueue.contents_length]
    exact TtyQueue.FULL_eq_false.mp h
  · have hle := countP_le tty
    have hdata : (putCooked g tty c).secondary.data = if tty.termios.endsLine c then
        tty.secondary.data + 1 else tty.secondary.data := rfl
    have ht : (putCooked g tty c).termios = tty.termios := rfl
    unfold Balanced at hb ⊢
    rw [hcontents, List.countP_append, List.countP_singleton, hdata, ht]
    by_cases hc : tty.termios.endsLine c = true
    · have h1 : (1 : UInt32).toNat = 1 := rfl
      rw [if_pos hc, if_pos hc, UInt32.toNat_add, h1]
      omega
    · rw [if_neg hc, if_neg hc]
      omega

theorem tty_intr_tty (l : Line T) (mask : UInt32) : (l.tty_intr mask).tty = l.tty := by
  unfold Line.tty_intr
  dsimp only
  split <;> rfl

theorem cookChar_keeps (h : l.tty.secondary.FULL = false) (c : Int8) :
    Keeps l.tty (cookChar g l c).tty := by
  unfold cookChar
  dsimp only
  split
  · exact Keeps.refl _
  · rename_i c _
    split
    · exact killLine_keeps _ _
    · split
      · split
        · exact Keeps.refl _
        · rename_i hend
          exact rubOut_keeps (Bool.eq_false_iff.mpr hend)
      · split
        · exact Keeps.of_eq rfl rfl
        · split
          · exact Keeps.of_eq rfl rfl
          · split
            · rw [tty_intr_tty]
              exact Keeps.refl _
            · split
              · rw [tty_intr_tty]
                exact Keeps.refl _
              · exact putCooked_keeps h c

theorem cookRound_keeps (h : l.tty.secondary.FULL = false) :
    Keeps l.tty (cookRound g l).tty := by
  have hround : cookRound g l = cookChar g
      { l with tty := { l.tty with read_q := l.tty.read_q.GETCH.2 } } l.tty.read_q.GETCH.1 := rfl
  have hget : Keeps l.tty { l.tty with read_q := l.tty.read_q.GETCH.2 } := Keeps.of_eq rfl rfl
  rw [hround]
  exact hget.trans
    (cookChar_keeps (l := { l with tty := { l.tty with read_q := l.tty.read_q.GETCH.2 } }) h _)

theorem cook_keeps : ∀ (n : Nat) (l : Line T), Keeps l.tty (cook g n l).tty
  | 0, l => Keeps.refl _
  | n + 1, l => by
      rw [cook]
      split
      · exact Keeps.refl _
      · rename_i h
        have hfull := (Bool.or_eq_false_iff.mp (Bool.eq_false_iff.mpr h)).2
        exact (cookRound_keeps hfull).trans (cook_keeps n (cookRound g l))

/-! ## Enough rounds -/

theorem killLine_read_q : ∀ (n : Nat) (tty : TtyStruct),
    (killLine g n tty).read_q = tty.read_q
  | 0, _ => rfl
  | n + 1, tty => by
      rw [killLine]
      split
      · rfl
      · exact killLine_read_q n (rubOut g tty)

theorem cookChar_read_q (l : Line T) (c : Int8) :
    (cookChar g l c).tty.read_q = l.tty.read_q := by
  unfold cookChar
  dsimp only
  split
  · rfl
  · split
    · exact killLine_read_q _ _
    · split
      · split
        · rfl
        · rfl
      · split
        · rfl
        · split
          · rfl
          · split
            · rw [tty_intr_tty]
            · split
              · rw [tty_intr_tty]
              · rfl

/-- `copy_to_cooked` goes on until there is nothing to read or no room. -/
theorem cook_done : ∀ (n : Nat) (l : Line T), l.tty.read_q.CHARS ≤ n →
    (cook g n l).tty.read_q.EMPTY = true ∨ (cook g n l).tty.secondary.FULL = true
  | 0, l, h => Or.inl (TtyQueue.EMPTY_iff.mpr (Nat.le_zero.mp h))
  | n + 1, l, h => by
      rw [cook]
      split
      · rename_i hstop
        exact Bool.or_eq_true_iff.mp hstop
      · rename_i hgo
        have hempty := (Bool.or_eq_false_iff.mp (Bool.eq_false_iff.mpr hgo)).1
        refine cook_done n _ ?_
        have hlen := congrArg List.length (TtyQueue.contents_GETCH hempty)
        rw [List.length_cons, TtyQueue.contents_length, TtyQueue.contents_length] at hlen
        have hread : (cookRound g l).tty.read_q = l.tty.read_q.GETCH.2 := cookChar_read_q _ _
        rw [hread]
        omega

/-- The loop of `KILL_CHAR` goes on to the end of a line. -/
theorem killLine_done : ∀ (n : Nat) (tty : TtyStruct), tty.secondary.CHARS ≤ n →
    atLineEnd (killLine g n tty) = true
  | 0, tty, h => by
      rw [killLine, atLineEnd, TtyQueue.EMPTY_iff.mpr (Nat.le_zero.mp h), Bool.true_or]
  | n + 1, tty, h => by
      rw [killLine]
      split
      · assumption
      · rename_i hend
        have hempty := (Bool.or_eq_false_iff.mp (Bool.eq_false_iff.mpr hend)).1
        refine killLine_done n _ ?_
        have hcontents : tty.secondary.contents
            = (rubOut g tty).secondary.contents ++ [tty.secondary.LAST] :=
          TtyQueue.contents_DEC hempty
        have hlen := congrArg List.length hcontents
        rw [List.length_append, List.length_singleton, TtyQueue.contents_length,
          TtyQueue.contents_length] at hlen
        omega

/-! ## Runs -/

/-- The task may be switched out here. -/
def Pc.resting : Pc → Bool
  | .user _ | .asleep _ | .store _ _ => true
  | _ => false

/-- The end of a line that has been taken and not been counted off. -/
def Pc.pending (t : Termios) : Pc → Nat
  | .count _ c => if t.endsLine c then 1 else 0
  | _ => 0

theorem Pc.pending_le (t : Termios) (pc : Pc) : pc.pending t ≤ 1 := by
  unfold Pc.pending
  split
  · split
    · exact le_rfl
    · exact Nat.zero_le 1
  · exact Nat.zero_le 1

theorem Pc.pending_of_resting {pc : Pc} (h : pc.resting = true) (t : Termios) :
    pc.pending t = 0 := by
  cases pc with
  | count r c => cases h
  | _ => rfl

/-- The counter is ahead by what the task on the processor has taken. -/
def State.owed (s : State T) : Nat :=
  match s.current with
  | none => 0
  | some t => (s.pc t).pending s.line.tty.termios

/-- The counter is right, and only the task on the processor is not at rest. -/
structure Sound (s : State T) : Prop where
  balanced : Balanced s.owed s.line.tty
  sole : ∀ t, s.current ≠ some t → (s.pc t).resting = true

variable {s s' : State T} {t : T}

theorem State.owed_le (s : State T) : s.owed ≤ 1 := by
  unfold State.owed
  split
  · exact Nat.zero_le 1
  · exact Pc.pending_le ..

/-- What the task owes is what is owed at all. -/
theorem Sound.balanced_pc (h : Sound s) (hcur : s.current = none ∨ s.current = some t) :
    Balanced ((s.pc t).pending s.line.tty.termios) s.line.tty := by
  have hb := h.balanced
  unfold State.owed at hb
  obtain hcur | hcur := hcur
  · have hrest := h.sole t (by rw [hcur]; exact fun h => by cases h)
    rw [hcur] at hb
    rw [Pc.pending_of_resting hrest]
    exact hb
  · rw [hcur] at hb
    exact hb

theorem Sound.line (h : Sound s) {l : Line T} (hk : Keeps s.line.tty l.tty) :
    Sound { s with line := l } where
  balanced := by
    have ho : State.owed { s with line := l } = s.owed := by
      unfold State.owed
      rw [hk.termios]
    rw [ho]
    exact hk.lines _ s.owed_le h.balanced
  sole := h.sole

theorem Sound.start (t : Termios) (tty_pgrp : Int) (port : UInt32) (pgrp alarm : T → Int) :
    Sound (start t tty_pgrp port pgrp alarm) where
  balanced := by
    have hcontents : (TtyQueue.clear 0).contents = [] := by
      rw [← List.length_eq_zero_iff, TtyQueue.contents_length]
      rfl
    have hcount : (TtyQueue.clear 0).contents.countP t.endsLine = 0 := by
      rw [hcontents]
      rfl
    exact hcount.symm
  sole _ _ := rfl

theorem Sound.counted (h : Sound s) (g : Given) : Counted g s where
  lines hpc := by
    have ho : s.owed = 0 := by
      unfold State.owed
      split
      · rfl
      · rename_i t _
        obtain ⟨ret, ht⟩ := hpc t
        rw [ht]
        rfl
    have hb := h.balanced
    rw [ho] at hb
    exact hb
  edits := (cook_keeps _ _).edits

section Step

variable [DecidableEq T]

theorem moveTo_sound {pc : Pc} (hcur : s.current = none ∨ s.current = some t)
    (hsole : ∀ t, s.current ≠ some t → (s.pc t).resting = true)
    (hb : Balanced (pc.pending s.line.tty.termios) s.line.tty) : Sound (s.moveTo t pc) where
  balanced := by
    have ho : (s.moveTo t pc).owed = pc.pending s.line.tty.termios := by
      unfold State.owed
      cases pc with
      | user | asleep | store => rfl
      | loop | getch | count => exact congrArg (Pc.pending _) (update_self ..)
    rw [ho]
    exact hb
  sole u hu := by
    by_cases hut : u = t
    · subst hut
      have hpc : (s.moveTo u pc).pc u = pc := update_self ..
      rw [hpc]
      cases pc with
      | loop | getch | count => exact absurd rfl hu
      | _ => rfl
    · have hpc : (s.moveTo t pc).pc u = s.pc u := update_of_ne hut ..
      rw [hpc]
      refine hsole u fun hcu => ?_
      rw [hcu] at hcur
      obtain hcur | hcur := hcur
      · cases hcur
      · exact hut (Option.some.inj hcur)

section Go

variable (hcur : s.current = none ∨ s.current = some t)
  (hsole : ∀ t, s.current ≠ some t → (s.pc t).resting = true)

include hcur hsole

theorem finish_sound (hb : Balanced 0 s.line.tty) (r : Reader) : Sound (s.finish t r) :=
  moveTo_sound (s := { s with alarm := update s.alarm t r.oldalarm }) hcur hsole hb

theorem begin_sound (hb : Balanced 0 s.line.tty) (nr : Nat) (jiffies : Int) :
    Sound (s.begin t nr jiffies) := by
  unfold State.begin
  dsimp only
  exact moveTo_sound hcur hsole hb

theorem loopHead_sound (hb : Balanced 0 s.line.tty) (r : Reader) : Sound (s.loopHead t r) := by
  unfold State.loopHead
  dsimp only
  split
  · exact finish_sound hcur hsole hb r
  · split
    · exact finish_sound (s := { s with line := { s.line with
        signal := update s.line.signal t (s.line.signal t &&& ~~~ALRMMASK) } }) hcur hsole hb r
    · split
      · exact finish_sound hcur hsole hb r
      · split
        · split
          · exact moveTo_sound hcur hsole hb
          · exact moveTo_sound hcur hsole hb
        · exact moveTo_sound hcur hsole hb

theorem afterChars_sound (hb : Balanced 0 s.line.tty) (r : Reader) (jiffies : Int) :
    Sound (s.afterChars t r jiffies) := by
  unfold State.afterChars
  dsimp only
  split_ifs
  all_goals first
    | exact finish_sound hcur hsole hb _
    | exact moveTo_sound hcur hsole hb

/-- `GETCH`, of a queue that is not empty. -/
theorem getch_sound (hb : Balanced 0 s.line.tty)
    (hempty : s.line.tty.secondary.EMPTY = false) (r : Reader) :
    Sound ((s.setSecondary s.line.tty.secondary.GETCH.2).moveTo t
      (.count r s.line.tty.secondary.GETCH.1)) := by
  refine moveTo_sound (s := s.setSecondary s.line.tty.secondary.GETCH.2) hcur hsole ?_
  have hcontents := TtyQueue.contents_GETCH hempty
  unfold Balanced at hb
  rw [hcontents, List.countP_cons] at hb
  exact hb

theorem count_sound {r : Reader} {c : Int8}
    (hb : Balanced ((Pc.count r c).pending s.line.tty.termios) s.line.tty) {pc : Pc}
    (hpc : pc.pending s.line.tty.termios = 0) : Sound ((s.countOff c).moveTo t pc) := by
  have hcount : (if s.line.tty.termios.endsLine c then s.line.tty.secondary.data - 1
      else s.line.tty.secondary.data).toNat
      = s.line.tty.secondary.contents.countP s.line.tty.termios.endsLine := by
    unfold Balanced Pc.pending at hb
    dsimp only at hb
    by_cases hc : s.line.tty.termios.endsLine c = true
    · rw [if_pos hc] at hb ⊢
      have h1 : (1 : UInt32).toNat = 1 := rfl
      have hle : (1 : UInt32) ≤ s.line.tty.secondary.data := by
        rw [UInt32.le_iff_toNat_le]
        omega
      rw [UInt32.toNat_sub_of_le _ _ hle, h1, hb, Nat.add_sub_cancel]
    · rw [if_neg hc] at hb ⊢
      exact hb
  have hnext : Balanced (pc.pending s.line.tty.termios) (s.countOff c).line.tty := by
    rw [hpc]
    exact hcount
  exact moveTo_sound (s := s.countOff c) hcur hsole hnext

end Go

/-- A step of `tty_read` that takes nothing off an empty queue. -/
theorem Sound.go (h : Sound s) (hcur : s.current = none ∨ s.current = some t)
    (hok : ∀ r, s.pc t = .getch r → s.line.tty.secondary.EMPTY = false) {jiffies : Int}
    (hgo : s.go t jiffies (s.pc t) = some s') : Sound s' := by
  have hb := h.balanced_pc hcur
  cases hpc : s.pc t with
  | user ret =>
    rw [hpc] at hgo
    cases hgo
  | loop r =>
    rw [hpc] at hgo hb
    obtain rfl := Option.some.inj hgo
    exact loopHead_sound hcur h.sole hb r
  | asleep r =>
    rw [hpc] at hgo hb
    unfold State.go at hgo
    dsimp only at hgo
    split at hgo
    · obtain rfl := Option.some.inj hgo
      exact h
    · obtain rfl := Option.some.inj hgo
      exact moveTo_sound hcur h.sole hb
  | getch r =>
    rw [hpc] at hgo hb
    obtain rfl := Option.some.inj hgo
    exact getch_sound hcur h.sole hb (hok r hpc) r
  | count r c =>
    rw [hpc] at hgo hb
    obtain rfl := Option.some.inj hgo
    refine count_sound hcur h.sole hb ?_
    split
    · rfl
    · rfl
  | store r c =>
    rw [hpc] at hgo hb
    unfold State.go at hgo
    dsimp only at hgo
    split at hgo
    · obtain rfl := Option.some.inj hgo
      exact moveTo_sound hcur h.sole hb
    · obtain rfl := Option.some.inj hgo
      exact afterChars_sound hcur h.sole hb _ jiffies

theorem Sound.step {a : Act T} (h : Sound s) (hok : NotEmptied s a)
    (hstep : Tty.step g s a = some s') : Sound s' := by
  cases a with
  | put_queue bytes =>
    obtain rfl := Option.some.inj hstep
    exact h.line (Keeps.of_eq rfl rfl)
  | copy_to_cooked =>
    obtain rfl := Option.some.inj hstep
    exact h.line (cook_keeps _ _)
  | kill t mask =>
    obtain rfl := Option.some.inj hstep
    exact h.line (Keeps.of_eq rfl rfl)
  | tty_read t nr jiffies =>
    unfold Tty.step at hstep
    dsimp only at hstep
    split at hstep
    · rename_i ret hcur hpc
      obtain rfl := Option.some.inj hstep
      have hb := h.balanced_pc (t := t) (Or.inl hcur)
      rw [hpc] at hb
      exact begin_sound (Or.inl hcur) h.sole hb nr jiffies
    · cases hstep
  | go t jiffies =>
    obtain ⟨hcur, hgo⟩ := Option.ite_none_right_eq_some.mp hstep
    refine h.go hcur (fun r hpc => hok ?_) hgo
    rw [hpc]
    rfl

/-- In every run of any tasks in `tty_read`, of `put_queue` and of the interrupts, in
which no interrupt takes away the character that `tty_read` has seen: while no call is
in progress the count of the lines is the number of characters in the secondary queue
that end a line, and no call of `copy_to_cooked` overflows the queue or takes away
anything before the last end of a line. -/
theorem cooked_lines {t : Termios} {tty_pgrp : Int} {port : UInt32} {pgrp alarm : T → Int}
    (h : Reach (Tty.step g) NotEmptied (Tty.start t tty_pgrp port pgrp alarm) s) : Counted g s :=
  (h.invariant (Sound.start t tty_pgrp port pgrp alarm) fun _ _ _ hs hok hstep =>
    hs.step hok hstep).counted g

end Step

/-! ## The console of `tty_table` -/

/-- `INIT_C_CC`. -/
def INIT_C_CC (n : Nat) : UInt8 :=
  [3, 28, 127, 21, 4, 0, 1, 0, 17, 19, 26, 0, 18, 15, 23, 22, 0].getD n 0

/-- `ICRNL`; `ISIG | ICANON | ECHO | ECHOCTL | ECHOKE`. -/
def consoleTermios : Termios := ⟨256, 2571, INIT_C_CC⟩

def console : State Unit := start consoleTermios 0 0 (fun _ => 0) (fun _ => 0)

/-- The whole queue is written. -/
def consoleGiven : Given where
  write q := { q with tail := q.head }
  below _ := false

def State.idle (s : State Unit) : Bool :=
  match s.pc () with
  | .user _ => true
  | _ => false

/-- A call of `tty_read` that has taken the first of the two characters of the queue. -/
def oneTaken : List (Act Unit) :=
  [.put_queue [10, 97], .copy_to_cooked, .tty_read () 3 0, .go () 0, .go () 0, .go () 0, .go () 0]

/-- The second one is erased before `GETCH`. -/
def erasedBeforeGetch : List (Act Unit) :=
  oneTaken ++ [.put_queue [127], .copy_to_cooked] ++ List.replicate 6 (.go () 0)

theorem State.user_of_idle {s : State Unit} (h : s.idle = true) (t : Unit) :
    ∃ ret, s.pc t = .user ret := by
  unfold State.idle at h
  split at h
  · rename_i ret hpc
    exact ⟨ret, hpc⟩
  · cases h

/-- The count of the lines is not kept by every run. -/
theorem not_cooked_lines :
    ¬ ∀ s, Reach (step consoleGiven) Free console s → Counted consoleGiven s := by
  intro h
  obtain ⟨s, hs, hidle, hne⟩ : ∃ s, exec (step consoleGiven) console erasedBeforeGetch = some s ∧
      s.idle = true ∧ s.line.tty.secondary.data.toNat ≠
        s.line.tty.secondary.contents.countP s.line.tty.termios.endsLine :=
    exec_any (by decide +kernel)
  exact hne ((h s (exec_reach hs)).lines (State.user_of_idle hidle))

theorem cooked_lines_oneTaken : ∃ s : State Unit,
    exec (checked (step consoleGiven) NotEmptied) console oneTaken = some s ∧
      s.line.tty.secondary.contents = [97] ∧ Counted consoleGiven s := by
  obtain ⟨s, hs, hc⟩ : ∃ s, exec (checked (step consoleGiven) NotEmptied) console oneTaken
      = some s ∧ s.line.tty.secondary.contents = [97] := exec_any (by decide +kernel)
  exact ⟨s, hs, hc, cooked_lines (exec_checked hs)⟩

end Tty

end Linux011
