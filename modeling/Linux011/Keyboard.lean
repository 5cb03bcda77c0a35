import Linux011.Tty

/-!
# The keyboard

`kernel/chr_drv/keyboard.S`, for the American keyboard. An interrupt gives a scan code to a routine
of `key_table`, behind 0xe0 or 0xe1 perhaps; the routines keep `mode` and `leds`, and put characters
into the read queue of the console. The numbers in brackets of `mode` and `leds` are the masks of
the source.

`func` tests `ecx`, which holds what the interrupted program left there. What is written to ports,
the list of `show_stat` and the wakeup of a reader are left out; `reboot` does not return.

The tables are those of the source, with the key code as the index; a routine of `key_table` is a
constructor of `Routine`, and `Routine.call` says what it does. The state is the three bytes that
the source keeps and the read queue, whose places `put_queue` writes before it knows whether all
of a sequence fits. `ctrl`, `alt` and `shift` come in two sides, and a prefix code is remembered
in `e0` for one interrupt. What all this does for somebody who types is said in `Typing`.
-/

namespace Linux011

open Function Runs

namespace Keyboard

open Tty (Place TtyQueue INC)

/-! ## The tables -/

def ascii (l : List Char) : List (BitVec 8) := l.map fun c => .ofNat 8 c.toNat

def fill (n : Nat) : List (BitVec 8) := List.replicate n 0

def key_map : List (BitVec 8) :=
  [0, 27] ++ ascii ['1', '2', '3', '4', '5', '6', '7', '8', '9', '0', '-', '='] ++ [127, 9] ++
    ascii ['q', 'w', 'e', 'r', 't', 'y', 'u', 'i', 'o', 'p', '[', ']'] ++ [13, 0] ++
    ascii ['a', 's', 'd', 'f', 'g', 'h', 'j', 'k', 'l', ';'] ++ [39, 96, 0, 92] ++
    ascii ['z', 'x', 'c', 'v', 'b', 'n', 'm', ',', '.', '/'] ++ [0, 42, 0, 32] ++ fill 16 ++
    [45, 0, 0, 0, 43] ++ fill 7 ++ [60] ++ fill 10

def shift_map : List (BitVec 8) :=
  [0, 27] ++ ascii ['!', '@', '#', '$', '%', '^', '&', '*', '(', ')', '_', '+'] ++ [127, 9] ++
    ascii ['Q', 'W', 'E', 'R', 'T', 'Y', 'U', 'I', 'O', 'P'] ++ [123, 125, 13, 0] ++
    ascii ['A', 'S', 'D', 'F', 'G', 'H', 'J', 'K', 'L', ':'] ++ [34, 126, 0, 124] ++
    ascii ['Z', 'X', 'C', 'V', 'B', 'N', 'M', '<', '>', '?'] ++ [0, 42, 0, 32] ++ fill 16 ++
    [45, 0, 0, 0, 43] ++ fill 7 ++ [62] ++ fill 10

def alt_map : List (BitVec 8) :=
  [0, 0] ++ [0, 64, 0, 36, 0, 0, 123, 91, 93, 125, 92, 0] ++ [0, 0] ++ fill 11 ++ [126, 13, 0] ++
    fill 11 ++ [0, 0] ++ fill 11 ++ fill 4 ++ fill 16 ++ fill 5 ++ fill 7 ++ [124] ++ fill 10

def num_table : List (BitVec 8) :=
  ascii ['7', '8', '9', ' ', '4', '5', '6', ' ', '1', '2', '3', '0', ',']

def cur_table : List (BitVec 8) :=
  ascii ['H', 'A', '5', ' ', 'D', 'G', 'C', ' ', 'Y', 'B', '6', '2', '3']

def func_table : List (BitVec 32) :=
  [0x415b5b1b, 0x425b5b1b, 0x435b5b1b, 0x445b5b1b,
    0x455b5b1b, 0x465b5b1b, 0x475b5b1b, 0x485b5b1b,
    0x495b5b1b, 0x4a5b5b1b, 0x4b5b5b1b, 0x4c5b5b1b]

inductive Routine where
  | none
  | do_self
  | minus
  | cursor
  | func
  | lshift
  | unlshift
  | rshift
  | unrshift
  | ctrl
  | unctrl
  | alt
  | unalt
  | caps
  | uncaps
  | scroll
  | num
deriving DecidableEq

def key_table (code : BitVec 8) : Routine :=
  match code with
  | 0x00 => .none
  | 0x1d => .ctrl
  | 0x2a => .lshift
  | 0x35 => .minus
  | 0x36 => .rshift
  | 0x38 => .alt
  | 0x3a => .caps
  | 0x45 => .num
  | 0x46 => .scroll
  | 0x4a | 0x4e | 0x56 => .do_self
  | 0x57 | 0x58 => .func
  | 0x9d => .unctrl
  | 0xaa => .unlshift
  | 0xb6 => .unrshift
  | 0xb8 => .unalt
  | 0xba => .uncaps
  | code =>
      if code < 0x3b then .do_self
      else if code < 0x47 then .func
      else if code < 0x54 then .cursor
      else .none

/-! ## put_queue -/

/-- The loop of `put_queue`; a queue that gets full is left as it was but for the cells behind its
head. -/
def putLoop : Nat → TtyQueue → Place → BitVec 32 → BitVec 32 → Option TtyQueue
  | 0, _, _, _, _ => none
  | n + 1, q, ecx, eax, ebx =>
      let q := { q with buf := update q.buf ecx (.ofBitVec (eax.setWidth 8)) }
      let ecx := INC ecx
      if ecx = q.tail then some q
      else
        let eax := eax >>> 8 ||| ebx <<< 24
        if eax = 0 then some { q with head := ecx } else putLoop n q ecx eax (ebx >>> 8)

/-- At most 8 bytes, from the lowest of `eax` on, until the rest is zero. -/
def putQueue (q : TtyQueue) (eax ebx : BitVec 32) : Option TtyQueue := putLoop 8 q q.head eax ebx

/-! ## The routines -/

structure Kbd where
  mode : BitVec 8
  leds : BitVec 8
  e0 : BitVec 8
  /-- of the console -/
  read_q : TtyQueue

def Kbd.put (s : Kbd) (eax : BitVec 32) : Option Kbd :=
  (putQueue s.read_q eax 0).map fun q => { s with read_q := q }

/-- The key on the right has the bit above that of the key on the left. -/
def Kbd.side (s : Kbd) (al : BitVec 8) : BitVec 8 := if s.e0 = 0 then al else al + al

def ctrl (s : Kbd) : Kbd := { s with mode := s.mode ||| s.side 0x04 }
def alt (s : Kbd) : Kbd := { s with mode := s.mode ||| s.side 0x10 }
def unctrl (s : Kbd) : Kbd := { s with mode := s.mode &&& ~~~s.side 0x04 }
def unalt (s : Kbd) : Kbd := { s with mode := s.mode &&& ~~~s.side 0x10 }
def lshift (s : Kbd) : Kbd := { s with mode := s.mode ||| 0x01 }
def unlshift (s : Kbd) : Kbd := { s with mode := s.mode &&& 0xfe }
def rshift (s : Kbd) : Kbd := { s with mode := s.mode ||| 0x02 }
def unrshift (s : Kbd) : Kbd := { s with mode := s.mode &&& 0xfd }

def caps (s : Kbd) : Kbd :=
  if s.mode &&& 0x80 ≠ 0 then s
  else { s with leds := s.leds ^^^ 4, mode := s.mode ^^^ 0x40 ||| 0x80 }

def uncaps (s : Kbd) : Kbd := { s with mode := s.mode &&& 0x7f }
def scroll (s : Kbd) : Kbd := { s with leds := s.leds ^^^ 1 }
def num (s : Kbd) : Kbd := { s with leds := s.leds ^^^ 2 }

/-- `eax` behind `ok_cur`. -/
def cur (al : BitVec 8) : BitVec 32 :=
  let al := cur_table.getD al.toNat 0
  let ah : BitVec 8 := if 57 < al then 0 else 126
  (ah ++ al).setWidth 32 <<< 16 ||| 0x5b1b

def cursor (s : Kbd) (al : BitVec 8) : Option Kbd :=
  if al < 0x47 then some s
  else
    let al := al - 0x47
    if 12 < al then some s
    else if al = 12 ∧ s.mode &&& 0x0c ≠ 0 ∧ s.mode &&& 0x30 ≠ 0 then none
    else if s.e0 = 1 ∨ s.leds &&& 0x02 = 0 ∨ s.mode &&& 0x03 ≠ 0 then s.put (cur al)
    else s.put ((num_table.getD al.toNat 0).setWidth 32)

/-- `func` behind `show_stat`: the keys F1 to F10, and F11 and F12. -/
def func (s : Kbd) (al : BitVec 8) (ecx : BitVec 32) : Option Kbd :=
  if al < 0x3b then some s
  else
    let al := al - 0x3b
    let al' := al - 18
    if 9 < al ∧ (al' < 10 ∨ 11 < al') then some s
    else if ecx.slt 4 then some s
    else s.put (func_table.getD (if 9 < al then al' else al).toNat 0)

def do_self (s : Kbd) (al : BitVec 8) : Option Kbd :=
  let ebx :=
    if s.mode &&& 0x20 ≠ 0 then alt_map
    else if s.mode &&& 0x03 ≠ 0 then shift_map
    else key_map
  let al := ebx.getD al.toNat 0
  if al = 0 then some s
  else
    let al := if s.mode &&& 0x4c ≠ 0 ∧ 97 ≤ al ∧ al ≤ 125 then al - 32 else al
    let al := if s.mode &&& 0x0c ≠ 0 ∧ 64 ≤ al ∧ al < 64 + 32 then al - 64 else al
    let al := if s.mode &&& 0x10 ≠ 0 then al ||| 0x80 else al
    s.put (al.setWidth 32)

/-- Behind 0xe0 this is the slash of the numeric keypad. -/
def minus (s : Kbd) (al : BitVec 8) : Option Kbd := if s.e0 = 1 then s.put 47 else do_self s al

def Routine.call (s : Kbd) (al : BitVec 8) (ecx : BitVec 32) : Routine → Option Kbd
  | .none => some s
  | .do_self => Keyboard.do_self s al
  | .minus => Keyboard.minus s al
  | .cursor => Keyboard.cursor s al
  | .func => Keyboard.func s al ecx
  | .lshift => some (Keyboard.lshift s)
  | .unlshift => some (Keyboard.unlshift s)
  | .rshift => some (Keyboard.rshift s)
  | .unrshift => some (Keyboard.unrshift s)
  | .ctrl => some (Keyboard.ctrl s)
  | .unctrl => some (Keyboard.unctrl s)
  | .alt => some (Keyboard.alt s)
  | .unalt => some (Keyboard.unalt s)
  | .caps => some (Keyboard.caps s)
  | .uncaps => some (Keyboard.uncaps s)
  | .scroll => some (Keyboard.scroll s)
  | .num => some (Keyboard.num s)

/-- `keyboard_interrupt`, up to `do_tty_interrupt`. -/
def keyboard_interrupt (s : Kbd) (code : BitVec 8) (ecx : BitVec 32) : Option Kbd :=
  if code = 0xe0 then some { s with e0 := 1 }
  else if code = 0xe1 then some { s with e0 := 2 }
  else ((key_table code).call s code ecx).map fun s => { s with e0 := 0 }

/-- `copy_to_cooked` and `flush` take characters out of the queue. -/
inductive Act where
  | keyboard_interrupt (code : BitVec 8) (ecx : BitVec 32)
  | getch
  | flush

def step (s : Kbd) : Act → Option Kbd
  | .keyboard_interrupt code ecx => Keyboard.keyboard_interrupt s code ecx
  | .getch => if s.read_q.EMPTY then none else some { s with read_q := s.read_q.GETCH.2 }
  | .flush => some { s with read_q := { s.read_q with head := s.read_q.tail } }

def boot (q : TtyQueue) : Kbd := ⟨0, 2, 0, q⟩

end Keyboard

end Linux011
