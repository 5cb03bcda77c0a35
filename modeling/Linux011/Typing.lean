import Linux011.Bits
import Linux011.Echo
import Linux011.Keyboard
import Mathlib.Tactic.Ring

/-!
# What the keyboard types

The keyboard as its user knows it: keys that are held, three locks, and a line of at most 1023
characters to which a key adds all that it stands for, or nothing. All of it is read off the keys
that have been pressed and released. The interrupt of `keyboard.S` does just this, whatever scan
codes it gets (`keyboard_types`): the bits of `mode` are the keys that are held, and `put_queue`
never leaves a part of a sequence behind.

The abstract side is a function of the keys alone: `held` and the three locks are recursions over
what has been pressed and released, and `typed` is what a key adds with the modifiers that are
held. `Sim` relates it to the bits of `mode` and `leds`, the prefix byte and the characters in
the queue. An interrupt is a table lookup and one routine, so that `call_spec` has one case for
each kind of routine: a modifier turns one bit (`Reads.turn`), a lock flips two, and a key that
types calls `put_queue`, whose loop writes at most eight bytes and moves the head only if all of
them were written (`putLoop_spec`). That each entry of the tables is the right one is a
computation over the 128 codes, and the only one; everything else is a proof about any state.
-/

namespace Linux011

open Bits Function Runs

namespace Keyboard

open Tty (Place TtyQueue INC)

/-! ## The keyboard of the user -/

/-- What comes before a scan code. -/
inductive Lead where
  | none
  | e0
  | e1
deriving DecidableEq

inductive Modifier where
  | lshift
  | rshift
  | lctrl
  | rctrl
  | lalt
  | ralt
  | caps
deriving DecidableEq

/-- The modifier that a key is; its code when it is released is 0x80 more. -/
def modifier (lead : Lead) (code : BitVec 8) : Option Modifier :=
  match code with
  | 0x2a => some .lshift
  | 0x36 => some .rshift
  | 0x1d => some (if lead = .none then .lctrl else .rctrl)
  | 0x38 => some (if lead = .none then .lalt else .ralt)
  | 0x3a => some .caps
  | _ => none

/-- The keys so far, the last one first. -/
abbrev Keys := List (Lead × BitVec 8)

/-- A modifier is held when it has been pressed and not been released since. -/
def held (m : Modifier) : Keys → Bool
  | [] => false
  | (lead, code) :: keys =>
      if modifier lead (code &&& 0x7f) = some m then decide (code < 0x80) else held m keys

/-- A key that is held down repeats, but does not lock. -/
def capsLock : Keys → Bool
  | [] => false
  | (_, code) :: keys =>
      if code = 0x3a ∧ held .caps keys = false then !capsLock keys else capsLock keys

def numLock : Keys → Bool
  | [] => true
  | (_, code) :: keys => if code = 0x45 then !numLock keys else numLock keys

def scrollLock : Keys → Bool
  | [] => false
  | (_, code) :: keys => if code = 0x46 then !scrollLock keys else scrollLock keys

def shifted (keys : Keys) : Prop := held .lshift keys ∨ held .rshift keys

def controlled (keys : Keys) : Prop := held .lctrl keys ∨ held .rctrl keys

instance (keys : Keys) : Decidable (shifted keys) := inferInstanceAs (Decidable (_ ∨ _))

instance (keys : Keys) : Decidable (controlled keys) := inferInstanceAs (Decidable (_ ∨ _))

/-- What is printed on a key. -/
def symbol (keys : Keys) (code : BitVec 8) : BitVec 8 :=
  (if held .ralt keys then alt_map else if shifted keys then shift_map else key_map).getD
    code.toNat 0

def modified (keys : Keys) (c : BitVec 8) : BitVec 8 :=
  let c := if (controlled keys ∨ capsLock keys) ∧ 97 ≤ c ∧ c ≤ 125 then c - 32 else c
  let c := if controlled keys ∧ 64 ≤ c ∧ c < 64 + 32 then c - 64 else c
  if held .lalt keys then c ||| 0x80 else c

def plain (keys : Keys) (code : BitVec 8) : List (BitVec 8) :=
  if symbol keys code = 0 then [] else [modified keys (symbol keys code)]

/-- `ESC [` and a letter, or a digit and a tilde. -/
def arrow (i : Nat) : List (BitVec 8) :=
  [27, 91, cur_table.getD i 0] ++ if 57 < cur_table.getD i 0 then [] else [126]

/-- What a key adds to the line; `room` is what `func` takes for the room that is left. -/
def typed (lead : Lead) (keys : Keys) (room : BitVec 32) (code : BitVec 8) : List (BitVec 8) :=
  match key_table code with
  | .do_self => plain keys code
  | .minus => if lead = .e0 then [47] else plain keys code
  | .cursor =>
      if lead = .e0 ∨ numLock keys = false ∨ shifted keys then arrow (code - 0x47).toNat
      else [num_table.getD (code - 0x47).toNat 0]
  | .func =>
      if room.slt 4 then []
      else [27, 91, 91, if code < 0x45 then code - 0x3b + 65 else code - 0x57 + 75]
  | _ => []

/-- Ctrl, Alt and Del. -/
def Reboots (keys : Keys) (code : BitVec 8) : Prop :=
  code = 0x53 ∧ controlled keys ∧ (held .lalt keys ∨ held .ralt keys)

instance (keys : Keys) (code : BitVec 8) : Decidable (Reboots keys code) :=
  inferInstanceAs (Decidable (_ ∧ _ ∧ _))

structure Typing where
  lead : Lead
  keys : Keys
  line : List (BitVec 8)

/-- All characters, or none. -/
def add (line cs : List (BitVec 8)) : List (BitVec 8) :=
  if line.length + cs.length ≤ 1023 then line ++ cs else line

def Typing.step (t : Typing) : Act → Option Typing
  | .keyboard_interrupt code room =>
      if code = 0xe0 then some { t with lead := .e0 }
      else if code = 0xe1 then some { t with lead := .e1 }
      else if Reboots t.keys code then none
      else some ⟨.none, (t.lead, code) :: t.keys, add t.line (typed t.lead t.keys room code)⟩
  | .getch => match t.line with
      | [] => none
      | _ :: line => some { t with line := line }
  | .flush => some { t with line := [] }

def Typing.start : Typing := ⟨.none, [], []⟩

/-! ## put_queue -/

/-- The bytes of `%ebx:%eax` that `put_queue` writes. -/
def bytes : Nat → BitVec 32 → BitVec 32 → List (BitVec 8)
  | 0, _, _ => []
  | n + 1, eax, ebx =>
      eax.setWidth 8 ::
        let eax := eax >>> 8 ||| ebx <<< 24
        if eax = 0 then [] else bytes n eax (ebx >>> 8)

variable {q : TtyQueue} {l : List Int8}

/-- A queue with less of the cells has less of the characters. -/
theorem contents_take {ecx : Place} (h : q.CHARS ≤ { q with head := ecx }.CHARS) :
    q.contents = { q with head := ecx }.contents.take q.CHARS := by
  unfold TtyQueue.contents
  rw [← List.map_take, List.take_range, Nat.min_eq_left h]

theorem inc_eq_tail {ecx : Place} : INC ecx = q.tail ↔ { q with head := ecx }.CHARS = 1023 := by
  have hh : ecx.val < 1024 := ecx.isLt
  have ht : q.tail.val < 1024 := q.tail.isLt
  rw [Fin.ext_iff, TtyQueue.CHARS_eq]
  show (ecx.val + 1) % 1024 = q.tail.val ↔ (ecx.val + (1024 - q.tail.val)) % 1024 = 1023
  omega

/-- A round takes one byte out of the registers. -/
theorem shrd_lt {m : Nat} {eax ebx : BitVec 32} (h : ebx.toNat * 2 ^ 32 + eax.toNat < m * 2 ^ 8) :
    (ebx >>> 8).toNat * 2 ^ 32 + (eax >>> 8 ||| ebx <<< 24).toNat < m := by
  have heax := eax.isLt
  have hshift : (ebx <<< 24).toNat = ebx.toNat % 2 ^ 8 * 2 ^ 24 := by
    rw [BitVec.toNat_shiftLeft, Nat.shiftLeft_eq]
    omega
  have hlow : (eax >>> 8).toNat = eax.toNat / 2 ^ 8 := by
    rw [BitVec.toNat_ushiftRight, Nat.shiftRight_eq_div_pow]
  have hor : (eax >>> 8 ||| ebx <<< 24).toNat =
      ebx.toNat % 2 ^ 8 * 2 ^ 24 + eax.toNat / 2 ^ 8 := by
    rw [BitVec.toNat_or, hshift, hlow, Nat.or_comm, Nat.mul_comm,
      ← Nat.two_pow_add_eq_or_of_lt (by omega : eax.toNat / 2 ^ 8 < 2 ^ 24)]
  rw [hor, BitVec.toNat_ushiftRight, Nat.shiftRight_eq_div_pow]
  refine Nat.lt_of_mul_lt_mul_right (Nat.lt_of_le_of_lt ?_ h)
  calc (ebx.toNat / 2 ^ 8 * 2 ^ 32 + (ebx.toNat % 2 ^ 8 * 2 ^ 24 + eax.toNat / 2 ^ 8)) * 2 ^ 8
      = (2 ^ 8 * (ebx.toNat / 2 ^ 8) + ebx.toNat % 2 ^ 8) * 2 ^ 32 +
          eax.toNat / 2 ^ 8 * 2 ^ 8 := by ring
    _ ≤ ebx.toNat * 2 ^ 32 + eax.toNat := by
        rw [Nat.div_add_mod]
        exact Nat.add_le_add_left (Nat.div_mul_le_self _ _) _

/-- With `w` written behind the characters of the queue, the loop adds the rest or gives all of it
up. -/
theorem putLoop_spec (n : Nat) : ∀ {q : TtyQueue} {ecx : Place} {eax ebx : BitVec 32}
    {w : List Int8}, q.contents = l → { q with head := ecx }.contents = l ++ w →
    ebx.toNat * 2 ^ 32 + eax.toNat < 256 ^ n → 0 < n →
    ∃ q', putLoop n q ecx eax ebx = some q' ∧ q'.contents =
      if l.length + w.length + (bytes n eax ebx).length ≤ 1023 then
        l ++ w ++ (bytes n eax ebx).map .ofBitVec
      else l := by
  induction n with
  | zero => exact fun _ _ _ h => absurd h (Nat.lt_irrefl 0)
  | succ n ih =>
      intro q ecx eax ebx w hq hw hlt _
      have hlt : ebx.toNat * 2 ^ 32 + eax.toNat < 256 ^ n * 2 ^ 8 := hlt
      let c : Int8 := .ofBitVec (eax.setWidth 8)
      let q₁ : TtyQueue := { q with buf := update q.buf ecx c }
      have hchars : q.CHARS = l.length := by rw [← TtyQueue.contents_length, hq]
      have hcharsw : { q with head := ecx }.CHARS = l.length + w.length := by
        rw [← TtyQueue.contents_length, hw, List.length_append]
      have hle := { q with head := ecx }.CHARS_le
      -- the cell behind the head is not in the queue
      have hsame : q₁.contents = l := by
        have hstore : { q₁ with head := ecx }.contents = l ++ w :=
          (Echo.contents_store c { q with head := ecx }).trans hw
        have htake : q₁.contents = { q₁ with head := ecx }.contents.take q₁.CHARS :=
          contents_take (show q.CHARS ≤ { q with head := ecx }.CHARS by omega)
        rw [htake, hstore, show q₁.CHARS = l.length from hchars, List.take_left]
      rw [putLoop, bytes]
      dsimp only
      by_cases hfull : INC ecx = q.tail
      · have hno := inc_eq_tail.mp hfull
        rw [if_pos hfull]
        refine ⟨q₁, rfl, hsame.trans (if_neg ?_).symm⟩
        rw [List.length_cons]
        omega
      · have hmore := mt inc_eq_tail.mpr hfull
        have hroom : { q with head := ecx }.FULL = false :=
          TtyQueue.FULL_eq_false.mpr (by omega)
        have hput : { q₁ with head := INC ecx }.contents = l ++ w ++ [c] :=
          (TtyQueue.contents_PUTCH hroom c).trans (congrArg (· ++ [c]) hw)
        rw [if_neg hfull]
        by_cases hlast : eax >>> 8 ||| ebx <<< 24 = 0
        · rw [if_pos hlast, if_pos hlast]
          refine ⟨_, rfl, hput.trans (if_pos ?_).symm⟩
          rw [List.length_singleton]
          omega
        · rw [if_neg hlast, if_neg hlast]
          have hpos : 0 < n := by
            refine Nat.pos_of_ne_zero fun hn => hlast ?_
            have hzero := shrd_lt hlt
            rw [hn, Nat.pow_zero, Nat.lt_one_iff] at hzero
            exact BitVec.eq_of_toNat_eq (Nat.eq_zero_of_add_eq_zero_left hzero)
          rw [List.append_assoc] at hput
          obtain ⟨q', hq', hcontents⟩ := ih hsame hput (shrd_lt hlt) hpos
          refine ⟨q', hq', hcontents.trans ?_⟩
          rw [List.length_append, List.length_singleton, List.length_cons, List.map_cons,
            Nat.add_assoc, Nat.add_assoc, Nat.add_comm 1, Nat.add_assoc,
            ← List.append_assoc, List.append_assoc (l ++ w), List.singleton_append]

/-! ## The bits of mode and leds -/

def Modifier.bit : Modifier → Nat
  | .lshift => 0
  | .rshift => 1
  | .lctrl => 2
  | .rctrl => 3
  | .lalt => 4
  | .ralt => 5
  | .caps => 7

theorem Modifier.bit_inj {m m' : Modifier} (h : m.bit = m'.bit) : m = m' := by
  revert m m'
  rintro ⟨⟩ ⟨⟩ h <;> first | rfl | cases h

/-- What the tests of `mode` and `leds` ask for. -/
theorem masks (x : BitVec 8) :
    (x &&& 0x03 ≠ 0 ↔ x.getLsbD 0 = true ∨ x.getLsbD 1 = true) ∧
    (x &&& 0x0c ≠ 0 ↔ x.getLsbD 2 = true ∨ x.getLsbD 3 = true) ∧
    (x &&& 0x10 ≠ 0 ↔ x.getLsbD 4 = true) ∧ (x &&& 0x20 ≠ 0 ↔ x.getLsbD 5 = true) ∧
    (x &&& 0x30 ≠ 0 ↔ x.getLsbD 4 = true ∨ x.getLsbD 5 = true) ∧
    (x &&& 0x4c ≠ 0 ↔ (x.getLsbD 2 = true ∨ x.getLsbD 3 = true) ∨ x.getLsbD 6 = true) ∧
    (x &&& 0x80 ≠ 0 ↔ x.getLsbD 7 = true) ∧ (x &&& 0x02 = 0 ↔ x.getLsbD 1 = false) := by
  revert x
  decide +kernel

/-! ## The table of the routines -/

/-- The modifier that a routine is for, and whether it is held behind it. -/
def Routine.turns (lead : Lead) : Routine → Option (Modifier × Bool)
  | .lshift => some (.lshift, true)
  | .unlshift => some (.lshift, false)
  | .rshift => some (.rshift, true)
  | .unrshift => some (.rshift, false)
  | .ctrl => some (if lead = .none then .lctrl else .rctrl, true)
  | .unctrl => some (if lead = .none then .lctrl else .rctrl, false)
  | .alt => some (if lead = .none then .lalt else .ralt, true)
  | .unalt => some (if lead = .none then .lalt else .ralt, false)
  | .caps => some (.caps, true)
  | .uncaps => some (.caps, false)
  | _ => Option.none

theorem key_table_turns (lead : Lead) (code : BitVec 8) :
    (modifier lead (code &&& 0x7f)).map (fun m => (m, decide (code < 0x80))) =
      (key_table code).turns lead := by
  revert code
  cases lead
  · decide +kernel
  · decide +kernel
  · decide +kernel

theorem key_table_locks (code : BitVec 8) : (code = 0x3a ↔ key_table code = .caps) ∧
    (code = 0x45 ↔ key_table code = .num) ∧ (code = 0x46 ↔ key_table code = .scroll) := by
  revert code
  decide +kernel

theorem key_table_cursor (code : BitVec 8) (h : key_table code = .cursor) : ¬code < 0x47 ∧
    ¬12 < code - 0x47 ∧ (code - 0x47 = 12 ↔ code = 0x53) ∧
    bytes 8 (cur (code - 0x47)) 0 = arrow (code - 0x47).toNat := by
  revert code
  decide +kernel

theorem key_table_func (code : BitVec 8) (h : key_table code = .func) : ¬code < 0x3b ∧
    ¬(9 < code - 0x3b ∧ (code - 0x3b - 18 < 10 ∨ 11 < code - 0x3b - 18)) ∧
    bytes 8 (func_table.getD
      (if 9 < code - 0x3b then code - 0x3b - 18 else code - 0x3b).toNat 0) 0 =
        [27, 91, 91, if code < 0x45 then code - 0x3b + 65 else code - 0x57 + 75] := by
  revert code
  decide +kernel

theorem bytes_one (c : BitVec 8) : bytes 8 (c.setWidth 32) 0 = [c] := by
  revert c
  decide +kernel

/-! ## The interrupt and the keyboard -/

/-- The bits are what the keys say. -/
structure Reads (mode leds : BitVec 8) (keys : Keys) : Prop where
  held : ∀ m : Modifier, mode.getLsbD m.bit = Keyboard.held m keys
  caps : mode.getLsbD 6 = capsLock keys
  caps_led : leds.getLsbD 2 = capsLock keys
  num_led : leds.getLsbD 1 = numLock keys
  scroll_led : leds.getLsbD 0 = scrollLock keys

def Lead.e0Byte : Lead → BitVec 8
  | .none => 0
  | .e0 => 1
  | .e1 => 2

structure Sim (s : Kbd) (t : Typing) : Prop where
  reads : Reads s.mode s.leds t.keys
  e0 : s.e0 = t.lead.e0Byte
  line : s.read_q.contents = t.line.map .ofBitVec

variable {s s' : Kbd} {t : Typing} {mode leds : BitVec 8} {keys : Keys} {lead : Lead}
  {code : BitVec 8}

theorem held_cons (m : Modifier) (lead : Lead) (code : BitVec 8) (keys : Keys) :
    held m ((lead, code) :: keys) = match (key_table code).turns lead with
      | some (m', b) => if m' = m then b else held m keys
      | none => held m keys := by
  rw [← key_table_turns lead code, held]
  cases modifier lead (code &&& 0x7f) with
  | none => rfl
  | some m' =>
      by_cases hm : m' = m
      · rw [if_pos (congrArg some hm)]
        exact (if_pos hm).symm
      · rw [if_neg fun h => hm (Option.some.inj h)]
        exact (if_neg hm).symm

/-- The locks of a key that is no lock. -/
theorem locks_cons (hcaps : key_table code ≠ .caps) (hnum : key_table code ≠ .num)
    (hscroll : key_table code ≠ .scroll) (lead : Lead) (keys : Keys) :
    capsLock ((lead, code) :: keys) = capsLock keys ∧
      numLock ((lead, code) :: keys) = numLock keys ∧
      scrollLock ((lead, code) :: keys) = scrollLock keys := by
  obtain ⟨h1, h2, h3⟩ := key_table_locks code
  rw [capsLock, numLock, scrollLock, if_neg fun h => hcaps (h1.mp h.1),
    if_neg fun h => hnum (h2.mp h), if_neg fun h => hscroll (h3.mp h)]
  exact ⟨rfl, rfl, rfl⟩

/-- A key that is neither a modifier nor a lock. -/
theorem Reads.other (h : Reads mode leds keys) (hturns : (key_table code).turns lead = none)
    (hnum : key_table code ≠ .num) (hscroll : key_table code ≠ .scroll) :
    Reads mode leds ((lead, code) :: keys) := by
  have hcaps : key_table code ≠ .caps := fun hc => by
    rw [hc] at hturns
    cases hturns
  obtain ⟨h1, h2, h3⟩ := locks_cons hcaps hnum hscroll lead keys
  refine ⟨fun m => ?_, h1 ▸ h.caps, h1 ▸ h.caps_led, h2 ▸ h.num_led, h3 ▸ h.scroll_led⟩
  rw [held_cons, hturns]
  exact h.held m

theorem Reads.turn {mode' : BitVec 8} {m : Modifier} {b : Bool} (h : Reads mode leds keys)
    (hturns : (key_table code).turns lead = some (m, b)) (hcaps : key_table code ≠ .caps)
    (hmode : ∀ j, mode'.getLsbD j = if j = m.bit then b else mode.getLsbD j) :
    Reads mode' leds ((lead, code) :: keys) := by
  have hnum : key_table code ≠ .num := fun hc => by
    rw [hc] at hturns
    cases hturns
  have hscroll : key_table code ≠ .scroll := fun hc => by
    rw [hc] at hturns
    cases hturns
  obtain ⟨h1, h2, h3⟩ := locks_cons hcaps hnum hscroll lead keys
  refine ⟨fun m' => ?_, ?_, h1 ▸ h.caps_led, h2 ▸ h.num_led, h3 ▸ h.scroll_led⟩
  · rw [held_cons, hturns, hmode]
    dsimp only
    by_cases hm : m = m'
    · rw [if_pos hm, if_pos (congrArg Modifier.bit hm.symm)]
    · rw [if_neg hm, if_neg fun hbit => hm (Modifier.bit_inj hbit).symm, h.held]
  · rw [h1, hmode, if_neg (by cases m <;> decide)]
    exact h.caps

theorem Reads.caps_key (h : Reads mode leds keys) (lead : Lead) : Reads
    (if mode &&& 0x80 ≠ 0 then mode else mode ^^^ 0x40 ||| 0x80)
    (if mode &&& 0x80 ≠ 0 then leds else leds ^^^ 4) ((lead, 0x3a) :: keys) := by
  have htest : mode &&& 0x80 ≠ 0 ↔ Keyboard.held .caps keys = true := by
    rw [← h.held]
    exact (masks mode).2.2.2.2.2.2.1
  have hheld : ∀ m, Keyboard.held m ((lead, 0x3a) :: keys) =
      if Modifier.caps = m then true else Keyboard.held m keys := fun m => by
    rw [held_cons, show key_table 0x3a = .caps from rfl]
    rfl
  have hkeys : capsLock ((lead, 0x3a) :: keys) =
      if Keyboard.held .caps keys = false then !capsLock keys else capsLock keys := by
    rw [capsLock]
    simp only [true_and]
  rw [show (0x40 : BitVec 8) = BitVec.twoPow 8 6 by decide,
    show (0x80 : BitVec 8) = BitVec.twoPow 8 7 by decide,
    show (4 : BitVec 8) = BitVec.twoPow 8 2 by decide] at *
  have hbits : ∀ j, (mode ^^^ BitVec.twoPow 8 6 ||| BitVec.twoPow 8 7).getLsbD j =
      if j = 7 then true else if j = 6 then !mode.getLsbD j else mode.getLsbD j := fun j => by
    rw [getLsbD_set _ (by decide), getLsbD_flip _ (by decide)]
  by_cases hcaps : Keyboard.held .caps keys = true
  · rw [if_pos (htest.mpr hcaps), if_pos (htest.mpr hcaps)]
    have hlock : capsLock ((lead, 0x3a) :: keys) = capsLock keys :=
      hkeys.trans (if_neg fun h => Bool.false_ne_true (h.symm.trans hcaps))
    refine ⟨fun m => ?_, hlock ▸ h.caps, hlock ▸ h.caps_led, ?_, ?_⟩
    · rw [hheld]
      by_cases hm : Modifier.caps = m
      · rw [if_pos hm, ← hm, h.held, hcaps]
      · rw [if_neg hm, h.held]
    · rw [numLock, if_neg (by decide)]
      exact h.num_led
    · rw [scrollLock, if_neg (by decide)]
      exact h.scroll_led
  · rw [if_neg (mt htest.mp hcaps), if_neg (mt htest.mp hcaps)]
    have hlock : capsLock ((lead, 0x3a) :: keys) = !capsLock keys :=
      hkeys.trans (if_pos (Bool.eq_false_of_not_eq_true hcaps))
    refine ⟨fun m => ?_, ?_, ?_, ?_, ?_⟩
    · rw [hheld, hbits]
      by_cases hm : Modifier.caps = m
      · rw [if_pos hm, ← hm]
        rfl
      · have hseven : m.bit ≠ 7 := fun hbit => hm (Modifier.bit_inj hbit).symm
        have hsix : m.bit ≠ 6 := by cases m <;> decide
        rw [if_neg hm, if_neg hseven, if_neg hsix, h.held]
    · rw [hbits, hlock, ← h.caps]
      rfl
    · rw [getLsbD_flip _ (by decide), hlock, ← h.caps_led]
      rfl
    · rw [getLsbD_flip _ (by decide), numLock, if_neg (by decide)]
      exact h.num_led
    · rw [getLsbD_flip _ (by decide), scrollLock, if_neg (by decide)]
      exact h.scroll_led

theorem Reads.num_key (h : Reads mode leds keys) (lead : Lead) :
    Reads mode (leds ^^^ 2) ((lead, 0x45) :: keys) := by
  have hcaps : capsLock ((lead, 0x45) :: keys) = capsLock keys :=
    if_neg fun hc => absurd hc.1 (by decide)
  rw [show (2 : BitVec 8) = BitVec.twoPow 8 1 by decide]
  refine ⟨fun m => ?_, hcaps ▸ h.caps, ?_, ?_, ?_⟩
  · rw [held_cons, show key_table 0x45 = .num from rfl]
    exact h.held m
  · rw [hcaps, getLsbD_flip _ (by decide)]
    exact h.caps_led
  · rw [numLock, if_pos rfl, getLsbD_flip _ (by decide), h.num_led]
    rfl
  · rw [scrollLock, if_neg (by decide), getLsbD_flip _ (by decide)]
    exact h.scroll_led

theorem Reads.scroll_key (h : Reads mode leds keys) (lead : Lead) :
    Reads mode (leds ^^^ 1) ((lead, 0x46) :: keys) := by
  have hcaps : capsLock ((lead, 0x46) :: keys) = capsLock keys :=
    if_neg fun hc => absurd hc.1 (by decide)
  rw [show (1 : BitVec 8) = BitVec.twoPow 8 0 by decide]
  refine ⟨fun m => ?_, hcaps ▸ h.caps, ?_, ?_, ?_⟩
  · rw [held_cons, show key_table 0x46 = .scroll from rfl]
    exact h.held m
  · rw [hcaps, getLsbD_flip _ (by decide)]
    exact h.caps_led
  · rw [numLock, if_neg (by decide), getLsbD_flip _ (by decide)]
    exact h.num_led
  · rw [scrollLock, if_pos rfl, getLsbD_flip _ (by decide), h.scroll_led]
    rfl

/-- A state behind the routine of a key. -/
structure Behind (t : Typing) (room : BitVec 32) (code : BitVec 8) (s : Kbd) : Prop where
  reads : Reads s.mode s.leds ((t.lead, code) :: t.keys)
  line : s.read_q.contents = (add t.line (typed t.lead t.keys room code)).map .ofBitVec

variable {room : BitVec 32}

theorem put_spec {line : List (BitVec 8)} (h : s.read_q.contents = line.map .ofBitVec)
    (eax : BitVec 32) : ∃ q, s.put eax = some { s with read_q := q } ∧
      q.contents = (add line (bytes 8 eax 0)).map .ofBitVec := by
  have heax := eax.isLt
  have hlt : (0 : BitVec 32).toNat * 2 ^ 32 + eax.toNat < 256 ^ 8 := by
    rw [show (0 : BitVec 32).toNat = 0 from rfl]
    omega
  obtain ⟨q, hq, hcontents⟩ := putLoop_spec 8 h (h.trans (List.append_nil _).symm) hlt (by decide)
  refine ⟨q, ?_, hcontents.trans ?_⟩
  · rw [Kbd.put, putQueue, hq]
    rfl
  · rw [List.length_nil, Nat.add_zero, List.length_map, List.append_nil, add]
    by_cases hroom : line.length + (bytes 8 eax 0).length ≤ 1023
    · rw [if_pos hroom, if_pos hroom, List.map_append]
    · rw [if_neg hroom, if_neg hroom]

theorem add_nil (line : List (BitVec 8)) : add line [] = line := by
  rw [add, List.append_nil, ite_self]

theorem Sim.puts (h : Sim s t) (hturns : (key_table code).turns t.lead = none)
    (hnum : key_table code ≠ .num) (hscroll : key_table code ≠ .scroll) {eax : BitVec 32}
    (hbytes : bytes 8 eax 0 = typed t.lead t.keys room code) :
    ∃ s', s.put eax = some s' ∧ Behind t room code s' := by
  obtain ⟨q, hput, hcontents⟩ := put_spec h.line eax
  exact ⟨_, hput, h.reads.other hturns hnum hscroll, hbytes ▸ hcontents⟩

theorem Sim.quiet (h : Sim s t) {mode leds : BitVec 8}
    (hreads : Reads mode leds ((t.lead, code) :: t.keys))
    (htyped : typed t.lead t.keys room code = []) :
    Behind t room code { s with mode := mode, leds := leds } :=
  ⟨hreads, by rw [htyped, add_nil]; exact h.line⟩

/-- What is printed on a key is never the character 0. -/
theorem do_self_spec (h : Sim s t) (hturns : (key_table code).turns t.lead = none)
    (hnum : key_table code ≠ .num) (hscroll : key_table code ≠ .scroll)
    (htyped : typed t.lead t.keys room code = plain t.keys code) :
    ∃ s', do_self s code = some s' ∧ Behind t room code s' := by
  obtain ⟨h03, h0c, h10, h20, -, h4c, -, -⟩ := masks s.mode
  have hheld := h.reads.held
  rw [show s.mode.getLsbD 0 = _ from hheld .lshift,
    show s.mode.getLsbD 1 = _ from hheld .rshift] at h03
  rw [show s.mode.getLsbD 2 = _ from hheld .lctrl,
    show s.mode.getLsbD 3 = _ from hheld .rctrl] at h0c h4c
  rw [show s.mode.getLsbD 4 = _ from hheld .lalt] at h10
  rw [show s.mode.getLsbD 5 = _ from hheld .ralt] at h20
  rw [h.reads.caps] at h4c
  have hsymbol : (if s.mode &&& 0x20 ≠ 0 then alt_map
      else if s.mode &&& 0x03 ≠ 0 then shift_map else key_map).getD code.toNat 0 =
        symbol t.keys code :=
    congrArg (fun l : List (BitVec 8) => l.getD code.toNat 0)
      (if_congr h20 rfl (if_congr h03 rfl rfl))
  have hcaps : ∀ c : BitVec 8,
      (if s.mode &&& 0x4c ≠ 0 ∧ 97 ≤ c ∧ c ≤ 125 then c - 32 else c) =
        if (controlled t.keys ∨ capsLock t.keys) ∧ 97 ≤ c ∧ c ≤ 125 then c - 32 else c :=
    fun c => if_congr (and_congr_left' h4c) rfl rfl
  have hctrl : ∀ c : BitVec 8,
      (if s.mode &&& 0x0c ≠ 0 ∧ 64 ≤ c ∧ c < 64 + 32 then c - 64 else c) =
        if controlled t.keys ∧ 64 ≤ c ∧ c < 64 + 32 then c - 64 else c :=
    fun c => if_congr (and_congr_left' h0c) rfl rfl
  have halt : ∀ c : BitVec 8, (if s.mode &&& 0x10 ≠ 0 then c ||| 0x80 else c) =
      if held .lalt t.keys then c ||| 0x80 else c :=
    fun c => if_congr h10 rfl rfl
  have hself : do_self s code = if symbol t.keys code = 0 then some s
      else s.put ((modified t.keys (symbol t.keys code)).setWidth 32) := by
    unfold do_self modified
    dsimp only
    rw [hsymbol, hcaps, hctrl, halt]
  rw [hself]
  by_cases hzero : symbol t.keys code = 0
  · rw [if_pos hzero]
    exact ⟨s, rfl, h.quiet (h.reads.other hturns hnum hscroll)
      (htyped.trans (if_pos hzero))⟩
  · rw [if_neg hzero]
    refine h.puts hturns hnum hscroll ?_
    rw [bytes_one, htyped, plain, if_neg hzero]

theorem cursor_spec (h : Sim s t) (hcode : key_table code = .cursor) :
    if Reboots t.keys code then cursor s code = none
    else ∃ s', cursor s code = some s' ∧ Behind t room code s' := by
  obtain ⟨hlow, hhigh, hdel, hcur⟩ := key_table_cursor code hcode
  obtain ⟨h03, h0c, -, -, h30, -, -, -⟩ := masks s.mode
  have hnumlock := (masks s.leds).2.2.2.2.2.2.2
  have hheld := h.reads.held
  have hturns : (key_table code).turns t.lead = none := by rw [hcode]; rfl
  have hnum : key_table code ≠ .num := by rw [hcode]; decide
  have hscroll : key_table code ≠ .scroll := by rw [hcode]; decide
  rw [show s.mode.getLsbD 0 = _ from hheld .lshift,
    show s.mode.getLsbD 1 = _ from hheld .rshift] at h03
  rw [show s.mode.getLsbD 2 = _ from hheld .lctrl,
    show s.mode.getLsbD 3 = _ from hheld .rctrl] at h0c
  rw [show s.mode.getLsbD 4 = _ from hheld .lalt,
    show s.mode.getLsbD 5 = _ from hheld .ralt] at h30
  rw [h.reads.num_led] at hnumlock
  have he0 : s.e0 = 1 ↔ t.lead = .e0 := by
    rw [h.e0]
    cases t.lead <;> decide
  unfold cursor
  dsimp only
  rw [if_neg hlow, if_neg hhigh]
  by_cases hreboot : Reboots t.keys code
  · rw [if_pos hreboot, if_pos ⟨hdel.mpr hreboot.1, h0c.mpr hreboot.2.1, h30.mpr hreboot.2.2⟩]
  · rw [if_neg hreboot, if_neg fun hc =>
      hreboot ⟨hdel.mp hc.1, h0c.mp hc.2.1, h30.mp hc.2.2⟩]
    have htyped : typed t.lead t.keys room code =
        if t.lead = .e0 ∨ numLock t.keys = false ∨ shifted t.keys then
          arrow (code - 0x47).toNat
        else [num_table.getD (code - 0x47).toNat 0] := by
      rw [typed, hcode]
    by_cases harrow : t.lead = .e0 ∨ numLock t.keys = false ∨ shifted t.keys
    · rw [if_pos (by rw [he0, hnumlock, h03]; exact harrow)]
      refine h.puts hturns hnum hscroll ?_
      rw [hcur, htyped, if_pos harrow]
    · rw [if_neg (by rw [he0, hnumlock, h03]; exact harrow)]
      refine h.puts hturns hnum hscroll ?_
      rw [bytes_one, htyped, if_neg harrow]

theorem func_spec (h : Sim s t) (hcode : key_table code = .func) :
    ∃ s', func s code room = some s' ∧ Behind t room code s' := by
  obtain ⟨hlow, hhigh, hbytes⟩ := key_table_func code hcode
  have hturns : (key_table code).turns t.lead = none := by rw [hcode]; rfl
  have hnum : key_table code ≠ .num := by rw [hcode]; decide
  have hscroll : key_table code ≠ .scroll := by rw [hcode]; decide
  have htyped : typed t.lead t.keys room code = if room.slt 4 then []
      else [27, 91, 91, if code < 0x45 then code - 0x3b + 65 else code - 0x57 + 75] := by
    rw [typed, hcode]
  unfold func
  dsimp only
  rw [if_neg hlow, if_neg hhigh]
  by_cases hroom : room.slt 4
  · rw [if_pos hroom]
    exact ⟨s, rfl, h.quiet (h.reads.other hturns hnum hscroll) (htyped.trans (if_pos hroom))⟩
  · rw [if_neg hroom]
    refine h.puts hturns hnum hscroll ?_
    rw [hbytes, htyped, if_neg hroom]

theorem Modifier.bit_lt (m : Modifier) : m.bit < 8 := by
  cases m <;> decide

theorem Sim.sides (h : Sim s t) :
    s.side 0x04 = BitVec.twoPow 8 (if t.lead = .none then Modifier.lctrl else .rctrl).bit ∧
      s.side 0x10 = BitVec.twoPow 8 (if t.lead = .none then Modifier.lalt else .ralt).bit := by
  unfold Kbd.side
  rw [h.e0]
  cases t.lead <;> exact ⟨by decide, by decide⟩

/-- The routine of a key does what the user knows of it. -/
theorem call_spec (h : Sim s t) (code : BitVec 8) (room : BitVec 32) :
    if Reboots t.keys code then (key_table code).call s code room = none
    else ∃ s', (key_table code).call s code room = some s' ∧ Behind t room code s' := by
  by_cases hcursor : key_table code = .cursor
  · rw [hcursor]
    exact cursor_spec h hcursor
  rw [if_neg fun hr => hcursor (by rw [hr.1]; rfl)]
  obtain ⟨hcaps, hnum, hscroll⟩ := key_table_locks code
  obtain ⟨hctrl, halt⟩ := h.sides
  -- a modifier sets or clears its bit, and types nothing
  have hsets : ∀ {m x}, x = BitVec.twoPow 8 m.bit →
      (key_table code).turns t.lead = some (m, true) → key_table code ≠ .caps →
      typed t.lead t.keys room code = [] → Behind t room code { s with mode := s.mode ||| x } :=
    fun {m x} hx hturns hcaps htyped =>
      h.quiet (h.reads.turn hturns hcaps (hx ▸ getLsbD_set s.mode m.bit_lt)) htyped
  have hclears : ∀ {m x}, x = ~~~BitVec.twoPow 8 m.bit →
      (key_table code).turns t.lead = some (m, false) → key_table code ≠ .caps →
      typed t.lead t.keys room code = [] → Behind t room code { s with mode := s.mode &&& x } :=
    fun {m x} hx hturns hcaps htyped =>
      h.quiet (h.reads.turn hturns hcaps (hx ▸ getLsbD_clear s.mode m.bit_lt)) htyped
  cases hcode : key_table code with
  | none =>
      exact ⟨s, rfl, h.quiet (h.reads.other (by rw [hcode]; rfl) (by rw [hcode]; decide)
        (by rw [hcode]; decide)) (by rw [typed, hcode])⟩
  | do_self =>
      exact do_self_spec h (by rw [hcode]; rfl) (by rw [hcode]; decide) (by rw [hcode]; decide)
        (by rw [typed, hcode])
  | minus =>
      have he0 : s.e0 = 1 ↔ t.lead = .e0 := by
        rw [h.e0]
        cases t.lead <;> decide
      have htyped : typed t.lead t.keys room code =
          if t.lead = .e0 then [47] else plain t.keys code := by rw [typed, hcode]
      show ∃ s', minus s code = some s' ∧ _
      unfold minus
      by_cases hlead : t.lead = .e0
      · rw [if_pos (he0.mpr hlead)]
        refine h.puts (by rw [hcode]; rfl) (by rw [hcode]; decide) (by rw [hcode]; decide) ?_
        rw [htyped, if_pos hlead]
        exact bytes_one 47
      · rw [if_neg (mt he0.mp hlead)]
        exact do_self_spec h (by rw [hcode]; rfl) (by rw [hcode]; decide) (by rw [hcode]; decide)
          (htyped.trans (if_neg hlead))
  | cursor => exact absurd hcode hcursor
  | func => exact func_spec h hcode
  | caps =>
      obtain rfl := hcaps.mpr hcode
      have hreads := h.reads.caps_key t.lead
      have hbehind : Behind t room 0x3a _ := h.quiet hreads rfl
      refine ⟨caps s, rfl, ?_⟩
      unfold caps
      by_cases hheld : s.mode &&& 0x80 ≠ 0
      · rw [if_pos hheld, if_pos hheld] at hbehind
        rw [if_pos hheld]
        exact hbehind
      · rw [if_neg hheld, if_neg hheld] at hbehind
        rw [if_neg hheld]
        exact hbehind
  | num =>
      obtain rfl := hnum.mpr hcode
      exact ⟨num s, rfl, h.quiet (h.reads.num_key t.lead) rfl⟩
  | scroll =>
      obtain rfl := hscroll.mpr hcode
      exact ⟨scroll s, rfl, h.quiet (h.reads.scroll_key t.lead) rfl⟩
  | lshift =>
      exact ⟨lshift s, rfl, hsets (m := .lshift) (by decide) (by rw [hcode]; rfl) (by rw [hcode]; decide)
        (by rw [typed, hcode])⟩
  | unlshift =>
      exact ⟨unlshift s, rfl, hclears (m := .lshift) (by decide) (by rw [hcode]; rfl) (by rw [hcode]; decide)
        (by rw [typed, hcode])⟩
  | rshift =>
      exact ⟨rshift s, rfl, hsets (m := .rshift) (by decide) (by rw [hcode]; rfl) (by rw [hcode]; decide)
        (by rw [typed, hcode])⟩
  | unrshift =>
      exact ⟨unrshift s, rfl, hclears (m := .rshift) (by decide) (by rw [hcode]; rfl) (by rw [hcode]; decide)
        (by rw [typed, hcode])⟩
  | uncaps =>
      exact ⟨uncaps s, rfl, hclears (m := .caps) (by decide) (by rw [hcode]; rfl) (by rw [hcode]; decide)
        (by rw [typed, hcode])⟩
  | ctrl =>
      exact ⟨ctrl s, rfl, hsets hctrl (by rw [hcode]; rfl) (by rw [hcode]; decide)
        (by rw [typed, hcode])⟩
  | unctrl =>
      exact ⟨unctrl s, rfl, hclears (congrArg (~~~·) hctrl) (by rw [hcode]; rfl) (by rw [hcode]; decide)
        (by rw [typed, hcode])⟩
  | alt =>
      exact ⟨alt s, rfl, hsets halt (by rw [hcode]; rfl) (by rw [hcode]; decide)
        (by rw [typed, hcode])⟩
  | unalt =>
      exact ⟨unalt s, rfl, hclears (congrArg (~~~·) halt) (by rw [hcode]; rfl) (by rw [hcode]; decide)
        (by rw [typed, hcode])⟩

theorem interrupt_sim (h : Sim s t) (code : BitVec 8) (room : BitVec 32) :
    Option.Rel Sim (keyboard_interrupt s code room)
      (Typing.step t (.keyboard_interrupt code room)) := by
  unfold keyboard_interrupt Typing.step
  dsimp only
  by_cases h0 : code = 0xe0
  · rw [if_pos h0, if_pos h0]
    exact .some ⟨h.reads, rfl, h.line⟩
  rw [if_neg h0, if_neg h0]
  by_cases h1 : code = 0xe1
  · rw [if_pos h1, if_pos h1]
    exact .some ⟨h.reads, rfl, h.line⟩
  rw [if_neg h1, if_neg h1]
  have hcall := call_spec h code room
  by_cases hreboot : Reboots t.keys code
  · rw [if_pos hreboot] at hcall ⊢
    rw [hcall]
    exact .none
  · rw [if_neg hreboot] at hcall ⊢
    obtain ⟨s', hs', hbehind⟩ := hcall
    rw [hs']
    exact .some ⟨hbehind.reads, rfl, hbehind.line⟩

theorem step_sim (s : Kbd) (t : Typing) (a : Act) (h : Sim s t) :
    Option.Rel Sim (step s a) (t.step a) := by
  cases a with
  | keyboard_interrupt code ecx => exact interrupt_sim h code ecx
  | getch =>
      have hline := h.line
      unfold step Typing.step
      dsimp only
      cases hempty : s.read_q.EMPTY with
      | true =>
          have hlen := congrArg List.length hline
          rw [TtyQueue.contents_length, TtyQueue.EMPTY_iff.mp hempty, List.length_map] at hlen
          rw [if_pos rfl, List.length_eq_zero_iff.mp hlen.symm]
          exact .none
      | false =>
          rw [TtyQueue.contents_GETCH hempty] at hline
          rw [if_neg Bool.false_ne_true]
          cases ht : t.line with
          | nil =>
              rw [ht] at hline
              cases hline
          | cons c line =>
              rw [ht] at hline
              exact .some ⟨h.reads, h.e0, (List.cons.inj hline).2⟩
  | flush =>
      refine .some ⟨h.reads, h.e0, List.eq_nil_of_length_eq_zero ?_⟩
      rw [TtyQueue.contents_length]
      exact congrArg (fun n : Int => (n % 1024).toNat) (Int.sub_self _)

theorem reads_start : Reads 0 2 [] :=
  ⟨fun m => by cases m <;> rfl, by decide, by decide, by decide, by decide⟩

/-- Whatever scan codes come, and whenever characters are taken from the queue, the
interrupt does what the user expects of the keyboard: `mode` and `leds` are what the
keys that are held and the locks say, and the queue has all the characters of a key, or
none when they do not fit. Only Ctrl, Alt and Del reboots. The runs of both sides go on
for the same time. -/
theorem keyboard_types (q : TtyQueue) (hq : q.EMPTY = true) (as : List Act) :
    Option.Rel Sim (exec step (boot q) as) (exec Typing.step Typing.start as) :=
  exec_rel step_sim as ⟨reads_start, rfl, List.eq_nil_of_length_eq_zero
    ((TtyQueue.contents_length q).trans (TtyQueue.EMPTY_iff.mp hq))⟩

/-- Alt-a, and an arrow behind it. -/
def typedOne : List Act := [.keyboard_interrupt 0x38 0, .keyboard_interrupt 0x1e 0,
  .keyboard_interrupt 0xe0 0, .keyboard_interrupt 0x48 0]

theorem keyboard_types_one : ∃ s, exec step (boot (.clear 0)) typedOne = some s ∧
    s.read_q.contents = [-31, 27, 91, 65] ∧ s.mode.getLsbD 4 = true := by
  have hrun : (exec Typing.step Typing.start typedOne).map (fun t => (t.line, held .lalt t.keys)) =
      some ([225, 27, 91, 65], true) := by decide +kernel
  obtain ⟨t, ht, heq⟩ := Option.map_eq_some_iff.mp hrun
  obtain ⟨hline, hheld⟩ := Prod.mk.inj heq
  have hrel := keyboard_types (.clear 0) rfl typedOne
  rw [ht] at hrel
  revert hrel
  cases exec step (boot (.clear 0)) typedOne with
  | none => exact fun hrel => nomatch hrel
  | some s =>
      rintro (h | -)
      refine ⟨s, rfl, ?_, (h.reads.held .lalt).trans hheld⟩
      rw [h.line, hline]
      rfl

end Keyboard

end Linux011
