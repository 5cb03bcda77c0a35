import Linux011.HdInfo
import Linux011.Number

/-!
# Formats

The loop of `vsprintf`: what stands between the directives is copied, and a directive is taken
apart from the left, flags, field width, precision, qualifier and conversion. What is put for the
formats that are written by the rules is said by `Item.render`.

A string ends in front of its 0, and an argument is a word or the address of a string. A `*` for a
width or a precision takes an argument, but is not skipped in the format.

What a format means is defined on a list of pieces. `Item.format` writes a piece down,
`Item.render` says what is put for it, and the theorem is that the loop puts for the string of
all pieces what it should for each. It is an induction over the pieces, where a piece that is
copied is a round for each character, and a directive is one round whose parts are parsed one
after the other (`directive_spec`). Each part stops at the first character that cannot belong to
it, so that its lemma says what the format goes on with (`Behind`). The numbers in a format are
`int`s made from decimal digits, and have to fit. For a number the text is that of `Number`, so
that for the lines of `/proc` the formats of the source and the texts that `PsInfo` and `HdInfo`
use are compared at the end.
-/

namespace Linux011

namespace Format

open Number (ZEROPAD SIGN PLUS SPACE LEFT SPECIAL SMALL has)

inductive Arg where
  | word (n : Int32)
  | str (s : List UInt8)

/-- What has been put, and stored for `%n`. -/
structure Out where
  buf : List UInt8
  stored : List Int32
deriving DecidableEq

/-! ## `vsprintf` -/

/-- `is_digit` -/
def isDigit (c : UInt8) : Bool := decide (48 ≤ c ∧ c ≤ 57)

/-- `skip_atoi`, behind digits that have the value `i`. -/
def skipAtoi (i : Int32) : List UInt8 → Int32 × List UInt8
  | [] => (i, [])
  | c :: fmt =>
      if isDigit c then skipAtoi (i * 10 + Int32.ofNat c.toNat - 48) fmt else (i, c :: fmt)

/-- `-`, `+`, a blank, `#` and `0`. -/
def flagOf (c : UInt8) : Option UInt32 :=
  if c = 45 then some LEFT
  else if c = 43 then some PLUS
  else if c = 32 then some SPACE
  else if c = 35 then some SPECIAL
  else if c = 48 then some ZEROPAD
  else none

/-- The loop of `repeat`. -/
def skipFlags (flags : UInt32) : List UInt8 → UInt32 × List UInt8
  | [] => (flags, [])
  | c :: fmt =>
      match flagOf c with
      | some flag => skipFlags (flags ||| flag) fmt
      | none => (flags, c :: fmt)

/-- `va_arg` of a word. -/
def vaArg : List Arg → Option (Int32 × List Arg)
  | .word n :: args => some (n, args)
  | _ => none

/-- What is known of a directive. -/
structure Spec where
  flags : UInt32
  field_width : Int32
  precision : Int32

/-- "get field width": digits, or a `*`. -/
def fieldWidth (flags : UInt32) (fmt : List UInt8) (args : List Arg) :
    Option (UInt32 × Int32 × List UInt8 × List Arg) :=
  if isDigit (fmt.headD 0) then
    let (field_width, fmt) := skipAtoi 0 fmt
    some (flags, field_width, fmt, args)
  else if fmt.headD 0 = 42 then
    (vaArg args).map fun (field_width, args) =>
      if field_width < 0 then (flags ||| LEFT, -field_width, fmt, args)
      else (flags, field_width, fmt, args)
  else some (flags, -1, fmt, args)

/-- "get the precision", behind a `.`. -/
def precision (fmt : List UInt8) (args : List Arg) : Option (Int32 × List UInt8 × List Arg) :=
  if fmt.headD 0 = 46 then
    let fmt := fmt.tail
    let r :=
      if isDigit (fmt.headD 0) then
        let (precision, fmt) := skipAtoi 0 fmt
        some (precision, fmt, args)
      else if fmt.headD 0 = 42 then
        (vaArg args).map fun (precision, args) => (precision, fmt, args)
      else some (-1, fmt, args)
    r.map fun (precision, r) => (if precision < 0 then 0 else precision, r)
  else some (-1, fmt, args)

/-- `h`, `l` or `L`, which is not looked at again. -/
def qualifier (fmt : List UInt8) : List UInt8 :=
  if fmt.headD 0 = 104 ∨ fmt.headD 0 = 108 ∨ fmt.headD 0 = 76 then fmt.tail else fmt

/-- `while (--field_width > 0) *str++ = ' ';`, at most `n` times. -/
def padCharLoop : Nat → Int32 → List UInt8 × Int32
  | 0, field_width => ([], field_width - 1)
  | n + 1, field_width =>
      if field_width - 1 > 0 then
        let (out, field_width) := padCharLoop n (field_width - 1)
        (32 :: out, field_width)
      else ([], field_width - 1)

def padChar (field_width : Int32) : List UInt8 × Int32 :=
  padCharLoop (field_width - 1).toInt.toNat field_width

/-- `while (len < field_width--) *str++ = ' ';`, at most `n` times. -/
def padStringLoop (len : Int32) : Nat → Int32 → List UInt8 × Int32
  | 0, field_width => ([], field_width - 1)
  | n + 1, field_width =>
      if len < field_width then
        let (out, field_width) := padStringLoop len n (field_width - 1)
        (32 :: out, field_width)
      else ([], field_width - 1)

def padString (len field_width : Int32) : List UInt8 × Int32 :=
  padStringLoop len field_width.toInt.toNat field_width

/-- `case 'c'` -/
def charText (s : Spec) (n : Int32) : List UInt8 :=
  let (before, field_width) :=
    if has s.flags LEFT then ([], s.field_width) else padChar s.field_width
  let (behind, _) := padChar field_width
  before ++ [n.toUInt32.toUInt8] ++ behind

/-- `case 's'` -/
def stringText (s : Spec) (str : List UInt8) : List UInt8 :=
  let len := Int32.ofNat str.length
  let len := if s.precision < 0 then len else if len > s.precision then s.precision else len
  let (before, field_width) :=
    if has s.flags LEFT then ([], s.field_width) else padString len s.field_width
  let (behind, _) := padString len field_width
  before ++ str.take len.toInt.toNat ++ behind

def Out.put (out : Out) (text : List UInt8) : Out := { out with buf := out.buf ++ text }

def numberText (s : Spec) (base : Int32) (out : Out) (args : List Arg) :
    Option (Out × List Arg) := do
  let (num, args) ← vaArg args
  let text ← Number.number num base s.field_width s.precision s.flags
  some (out.put text, args)

/-- The last `switch`: `c`, `s`, `o`, `p`, `x`, `X`, `d` or `i`, `u`, `n` and what is left. Behind
the format stands a 0. -/
def convert (s : Spec) (out : Out) (fmt : List UInt8) (args : List Arg) :
    Option (Out × List UInt8 × List Arg) :=
  let c := fmt.headD 0
  let behind (r : Option (Out × List Arg)) := r.map fun (out, args) => (out, fmt.tail, args)
  if c = 99 then behind ((vaArg args).map fun (n, args) => (out.put (charText s n), args))
  else if c = 115 then
    match args with
    | .str str :: args => some (out.put (stringText s str), fmt.tail, args)
    | _ => none
  else if c = 111 then behind (numberText s 8 out args)
  else if c = 112 then
    let s := if s.field_width = -1 then { s with field_width := 8, flags := s.flags ||| ZEROPAD }
      else s
    behind (numberText s 16 out args)
  else if c = 120 then behind (numberText { s with flags := s.flags ||| SMALL } 16 out args)
  else if c = 88 then behind (numberText s 16 out args)
  else if c = 100 ∨ c = 105 then
    behind (numberText { s with flags := s.flags ||| SIGN } 10 out args)
  else if c = 117 then behind (numberText s 10 out args)
  else if c = 110 then
    match args with
    | _ :: args =>
        some ({ out with stored := out.stored ++ [Int32.ofNat out.buf.length] }, fmt.tail, args)
    | [] => none
  else
    let out := if c ≠ 37 then out.put [37] else out
    match fmt with
    | [] => some (out, [], args)
    | c :: fmt => some (out.put [c], fmt, args)

/-- A directive, from behind its `%`. -/
def directive (out : Out) (fmt : List UInt8) (args : List Arg) :
    Option (Out × List UInt8 × List Arg) := do
  let (flags, fmt) := skipFlags 0 fmt
  let (flags, field_width, fmt, args) ← fieldWidth flags fmt args
  let (precision, fmt, args) ← precision fmt args
  convert ⟨flags, field_width, precision⟩ out (qualifier fmt) args

/-- The loop, for at most `n` rounds. -/
def loop : Nat → Out → List UInt8 → List Arg → Option Out
  | 0, _, _, _ => none
  | _ + 1, out, [], _ => some out
  | n + 1, out, c :: fmt, args =>
      if c ≠ 37 then loop n (out.put [c]) fmt args
      else (directive out fmt args).bind fun (out, fmt, args) => loop n out fmt args

def vsprintf (fmt : List UInt8) (args : List Arg) : Option Out :=
  loop (fmt.length + 1) ⟨[], []⟩ fmt args

/-! ## Formats that are written by the rules -/

inductive Conv where
  | char (n : Int32)
  | string (str : List UInt8)
  | octal (n : Int32)
  | pointer (n : Int32)
  | hex (n : Int32)
  | upperHex (n : Int32)
  | decimal (n : Int32)
  | integer (n : Int32)
  | unsigned (n : Int32)

def Conv.letter : Conv → UInt8
  | .char _ => 99
  | .string _ => 115
  | .octal _ => 111
  | .pointer _ => 112
  | .hex _ => 120
  | .upperHex _ => 88
  | .decimal _ => 100
  | .integer _ => 105
  | .unsigned _ => 117

def Conv.arg : Conv → Arg
  | .string str => .str str
  | .char n | .octal n | .pointer n | .hex n | .upperHex n | .decimal n | .integer n
  | .unsigned n => .word n

/-- A piece of a format, with its argument. -/
inductive Item where
  | text (c : UInt8)
  | percent
  | conv (flags : List UInt8) (width precision : Option Nat) (qualifier : Option UInt8) (v : Conv)

/-- The decimal digits. -/
def decimal (n : Nat) : List UInt8 := (Nat.digits 10 n).reverse.map fun d => (d + 48).toUInt8

def Item.format : Item → List UInt8
  | .text c => [c]
  | .percent => [37, 37]
  | .conv flags width precision qualifier v =>
      37 :: flags ++ width.elim [] decimal ++ (precision.elim [] fun p => 46 :: decimal p) ++
        qualifier.toList ++ [v.letter]

def Item.args : Item → List Arg
  | .conv _ _ _ _ v => [v.arg]
  | _ => []

/-- A directive by the rules, with numbers that an `int` can hold. -/
structure Wellformed (flags : List UInt8) (width precision : Option Nat) (qualifier : Option UInt8)
    (v : Conv) : Prop where
  flags : ∀ c ∈ flags, (flagOf c).isSome = true
  width : ∀ n ∈ width, 1 ≤ n ∧ n < 0x80000000
  precision : ∀ n ∈ precision, n < 0x80000000
  qualifier : ∀ c ∈ qualifier, c = 104 ∨ c = 108 ∨ c = 76
  string : ∀ str, v = .string str → 0 ∉ str ∧ str.length < 0x80000000

def Item.Ok : Item → Prop
  | .text c => c ≠ 0 ∧ c ≠ 37
  | .percent => True
  | .conv flags width precision qualifier v => Wellformed flags width precision qualifier v

/-- A text in its field. -/
def field (left : Bool) (width : Option Nat) (text : List UInt8) : List UInt8 :=
  let blank := List.replicate (width.getD 0 - text.length) 32
  if left then text ++ blank else blank ++ text

/-- What is put for a piece. -/
def Item.render : Item → List UInt8
  | .text c => [c]
  | .percent => [37]
  | .conv flags width precision _ v =>
      let type := flags.foldl (fun type c => type ||| (flagOf c).getD 0) 0
      let size := width.elim (-1) Int32.ofNat
      let digits := precision.elim (-1) Int32.ofNat
      match v with
      | .char n => field (has type LEFT) width [n.toUInt32.toUInt8]
      | .string str =>
          field (has type LEFT) width (str.take (precision.getD str.length))
      | .octal n => (Number.number n 8 size digits type).getD []
      | .pointer n =>
          (Number.number n 16 (width.elim 8 Int32.ofNat) digits
            (width.elim (type ||| ZEROPAD) fun _ => type)).getD []
      | .hex n => (Number.number n 16 size digits (type ||| SMALL)).getD []
      | .upperHex n => (Number.number n 16 size digits type).getD []
      | .decimal n | .integer n => (Number.number n 10 size digits (type ||| SIGN)).getD []
      | .unsigned n => (Number.number n 10 size digits type).getD []

variable {flags : UInt32} {fmt rest : List UInt8} {args : List Arg} {out : Out}

/-! ## Words -/

theorem word_lt {m n : Nat} (hm : m < 0x80000000) (hn : n < 0x80000000) :
    Int32.ofNat m < Int32.ofNat n ↔ m < n := by
  rw [Int32.lt_iff_toInt_lt, Int32.toInt_ofNat_of_lt hm, Int32.toInt_ofNat_of_lt hn, Int.ofNat_lt]

/-- What counts something is not below a word that is not positive. -/
theorem not_word_lt_nonpos {m : Int32} {n : Nat} (hn : n < 0x80000000) (hm : m.toInt ≤ 0) :
    ¬Int32.ofNat n < m := by
  rw [Int32.lt_iff_toInt_lt, Int32.toInt_ofNat_of_lt hn]
  omega

theorem word_ne {n : Nat} (hn : n < 0x80000000) : Int32.ofNat n ≠ -1 := by
  intro h
  have hneg : Int32.ofNat n < 0 := by
    rw [h]
    decide
  exact not_word_lt_nonpos hn (by decide) hneg

theorem word_sub_one {n : Nat} (hn : 1 ≤ n) : Int32.ofNat n - 1 = Int32.ofNat (n - 1) := by
  obtain ⟨n, rfl⟩ := Nat.exists_eq_add_of_le' hn
  rw [Int32.ofNat_add, Nat.add_sub_cancel]
  exact Int32.add_sub_cancel ..

theorem not_word_lt {w len : Nat} (hlen : len < 0x80000000) :
    ¬Int32.ofNat len < Int32.ofNat (min w len) - 1 := by
  rcases Nat.eq_zero_or_pos (min w len) with hzero | hpos
  · rw [hzero]
    exact not_word_lt_nonpos hlen (by decide)
  · intro h
    rw [word_sub_one hpos, word_lt hlen (by omega)] at h
    omega

/-! ## The parts of a directive -/

theorem skipFlags_spec (hrest : flagOf (rest.headD 0) = none) (fs : List UInt8)
    (hfs : ∀ c ∈ fs, (flagOf c).isSome = true) (flags : UInt32) : skipFlags flags (fs ++ rest) =
      (fs.foldl (fun type c => type ||| (flagOf c).getD 0) flags, rest) := by
  induction fs generalizing flags with
  | nil =>
      cases rest with
      | nil => rfl
      | cons c rest =>
          have hc : flagOf c = none := hrest
          simp only [List.nil_append, skipFlags, hc, List.foldl_nil]
  | cons c fs ih =>
      obtain ⟨flag, hflag⟩ := Option.isSome_iff_exists.mp (hfs c (List.mem_cons_self ..))
      have hskip := ih (fun c hc => hfs c (List.mem_cons_of_mem _ hc)) (flags ||| flag)
      simp only [List.cons_append, skipFlags, hflag, List.foldl_cons, Option.getD_some]
      exact hskip

theorem toNat_decimal {d : Nat} (hd : d < 10) : ((d + 48).toUInt8).toNat = d + 48 := by
  rw [Nat.toUInt8_eq, UInt8.toNat_ofNat']
  exact Nat.mod_eq_of_lt (by omega)

theorem isDigit_decimal {d : Nat} (hd : d < 10) : isDigit (d + 48).toUInt8 = true := by
  have hnat := toNat_decimal hd
  refine decide_eq_true ⟨UInt8.le_iff_toNat_le.mpr ?_, UInt8.le_iff_toNat_le.mpr ?_⟩
  · rw [hnat]
    exact Nat.le_add_left ..
  · rw [hnat]
    show d + 48 ≤ 57
    omega

theorem skipAtoi_digits (hrest : isDigit (rest.headD 0) = false) (ds : List Nat)
    (hds : ∀ d ∈ ds, d < 10) (i : Nat) :
    skipAtoi (Int32.ofNat i) (ds.map (fun d => (d + 48).toUInt8) ++ rest) =
      (Int32.ofNat (ds.foldl (fun i d => i * 10 + d) i), rest) := by
  induction ds generalizing i with
  | nil =>
      cases rest with
      | nil => rfl
      | cons c rest =>
          have hc : isDigit c = false := hrest
          simp only [List.map_nil, List.nil_append, skipAtoi, hc, List.foldl_nil]
          rfl
  | cons d ds ih =>
      have hd := hds d (List.mem_cons_self ..)
      have hnext : Int32.ofNat i * 10 + Int32.ofNat (d + 48) - 48 = Int32.ofNat (i * 10 + d) := by
        rw [Int32.ofNat_add, Int32.ofNat_add, Int32.ofNat_mul, ← Int32.add_assoc]
        exact Int32.add_sub_cancel ..
      simp only [List.map_cons, List.cons_append, skipAtoi, isDigit_decimal hd, if_true,
        toNat_decimal hd, hnext, List.foldl_cons]
      exact ih (fun d hd => hds d (List.mem_cons_of_mem _ hd)) _

theorem foldl_decimal (n : Nat) :
    ((Nat.digits 10 n).reverse).foldl (fun i d => i * 10 + d) 0 = n := by
  have hof := Nat.ofDigits_digits 10 n
  rw [Nat.ofDigits_eq_foldr] at hof
  rw [List.foldl_reverse]
  refine Eq.trans ?_ hof
  congr 1
  funext d i
  show i * 10 + d = d + 10 * i
  omega

theorem skipAtoi_decimal (hrest : isDigit (rest.headD 0) = false) (n : Nat) :
    skipAtoi 0 (decimal n ++ rest) = (Int32.ofNat n, rest) := by
  have h := skipAtoi_digits hrest (Nat.digits 10 n).reverse
    (fun d hd => Nat.digits_lt_base (by decide) (List.mem_reverse.mp hd)) 0
  rw [foldl_decimal] at h
  exact h

theorem decimal_head {n : Nat} (hn : 1 ≤ n) (rest : List UInt8) :
    ∃ d, 1 ≤ d ∧ d < 10 ∧ (decimal n ++ rest).headD 0 = (d + 48).toUInt8 := by
  have hne : Nat.digits 10 n ≠ [] := Nat.digits_ne_nil_iff_ne_zero.mpr (by omega)
  have hlast := Nat.getLast_digit_ne_zero 10 (m := n) (by omega)
  obtain ⟨l, d, hl⟩ := (List.eq_nil_or_concat _).resolve_left hne
  rw [List.concat_eq_append] at hl
  have hd : d < 10 := Nat.digits_lt_base (m := n) (by decide) (by simp only [hl, List.mem_append,
    List.mem_singleton, or_true])
  simp only [hl, List.getLast_append_singleton] at hlast
  refine ⟨d, Nat.pos_of_ne_zero hlast, hd, ?_⟩
  unfold decimal
  rw [hl, List.reverse_append]
  rfl

theorem flagOf_decimal {d : Nat} (hpos : 1 ≤ d) (hd : d < 10) : flagOf (d + 48).toUInt8 = none := by
  interval_cases d <;> rfl

/-- `fmt` goes on with a qualifier or a conversion. -/
def Behind (fmt : List UInt8) : Prop :=
  flagOf (fmt.headD 0) = none ∧ isDigit (fmt.headD 0) = false ∧ fmt.headD 0 ≠ 42

theorem fieldWidth_spec (width : Option Nat) (hwidth : ∀ n ∈ width, 1 ≤ n)
    (hrest : Behind rest) : fieldWidth flags (width.elim [] decimal ++ rest) args =
      some (flags, width.elim (-1) Int32.ofNat, rest, args) := by
  obtain ⟨-, hdigit, hstar⟩ := hrest
  unfold fieldWidth
  cases width with
  | none =>
      simp only [Option.elim_none, List.nil_append, hdigit, hstar, Bool.false_eq_true, if_false]
  | some n =>
      obtain ⟨d, -, hd, hhead⟩ := decimal_head (hwidth n rfl) rest
      simp only [Option.elim_some, hhead, isDigit_decimal hd, if_true, skipAtoi_decimal hdigit]

theorem precision_spec (digits : Option Nat) (hdigits : ∀ n ∈ digits, n < 0x80000000)
    (hrest : Behind rest) (hdot : rest.headD 0 ≠ 46) :
    precision ((digits.elim [] fun p => 46 :: decimal p) ++ rest) args =
      some (digits.elim (-1) Int32.ofNat, rest, args) := by
  obtain ⟨-, hdigit, hstar⟩ := hrest
  unfold precision
  cases digits with
  | none => simp only [Option.elim_none, List.nil_append, hdot, if_false]
  | some n =>
      have hpos : ¬Int32.ofNat n < 0 := not_word_lt_nonpos (hdigits n rfl) (by decide)
      simp only [Option.elim_some, List.cons_append, List.headD_cons, if_true, List.tail_cons]
      rcases Nat.eq_zero_or_pos n with rfl | hn
      · have hzero : decimal 0 = [] := rfl
        simp only [hzero, List.nil_append, hdigit, hstar, Bool.false_eq_true, if_false,
          Option.map_some]
        rfl
      · obtain ⟨d, -, hd, hhead⟩ := decimal_head hn rest
        simp only [hhead, isDigit_decimal hd, if_true, skipAtoi_decimal hdigit, Option.map_some,
          if_neg hpos]

theorem qualifier_spec (q : Option UInt8) (hq : ∀ c ∈ q, c = 104 ∨ c = 108 ∨ c = 76)
    (v : Conv) (rest : List UInt8) :
    qualifier (q.toList ++ (v.letter :: rest)) = v.letter :: rest := by
  unfold qualifier
  cases q with
  | none => cases v <;> rfl
  | some c => exact if_pos (hq c rfl)

/-! ## Fields -/

theorem padCharLoop_word (n : Nat) : ∀ w, 1 ≤ w → w ≤ n + 1 → w < 0x80000000 →
    padCharLoop n (Int32.ofNat w) = (List.replicate (w - 1) 32, 0) := by
  induction n with
  | zero =>
      intro w hpos hle _
      obtain rfl : w = 1 := by omega
      rfl
  | succ n ih =>
      intro w hpos hle hw
      have hzero : Int32.ofNat (w - 1) > 0 ↔ 0 < w - 1 := word_lt (by decide) (by omega)
      simp only [padCharLoop, word_sub_one hpos, hzero]
      split
      · rename_i hmore
        rw [ih (w - 1) hmore (by omega) (by omega)]
        obtain ⟨m, hm⟩ := Nat.exists_eq_add_of_le' hmore
        rw [hm]
        rfl
      · rename_i hlast
        have hone : w - 1 = 0 := by omega
        rw [hone]
        rfl

theorem padChar_word {w : Nat} (hpos : 1 ≤ w) (hw : w < 0x80000000) :
    padChar (Int32.ofNat w) = (List.replicate (w - 1) 32, 0) := by
  have hrounds : (Int32.ofNat w - 1).toInt.toNat = w - 1 := by
    rw [word_sub_one hpos, Int32.toInt_ofNat_of_lt (by omega), Int.toNat_natCast]
  unfold padChar
  rw [hrounds]
  exact padCharLoop_word (w - 1) w hpos (by omega) hw

theorem padChar_none {field_width : Int32} (h : ¬field_width - 1 > 0) :
    padChar field_width = ([], field_width - 1) := by
  unfold padChar
  cases (field_width - 1).toInt.toNat with
  | zero => rfl
  | succ n => simp only [padCharLoop, if_neg h]

theorem padStringLoop_word {len : Nat} (hlen : len < 0x80000000) (n : Nat) : ∀ w, w ≤ n →
    w < 0x80000000 → padStringLoop (Int32.ofNat len) n (Int32.ofNat w) =
      (List.replicate (w - len) 32, Int32.ofNat (min w len) - 1) := by
  induction n with
  | zero =>
      intro w hle _
      obtain rfl := Nat.le_zero.mp hle
      simp only [padStringLoop, Nat.zero_sub, Nat.zero_min, List.replicate_zero]
  | succ n ih =>
      intro w hle hw
      simp only [padStringLoop, word_lt hlen hw]
      split
      · rename_i hmore
        rw [word_sub_one (by omega), ih (w - 1) (by omega) (by omega)]
        obtain ⟨m, rfl⟩ := Nat.exists_eq_add_of_lt hmore
        have hleft : len + m + 1 - 1 - len = m := by omega
        have hright : len + m + 1 - len = m + 1 := by omega
        rw [hleft, hright, Nat.min_eq_right (by omega), Nat.min_eq_right (by omega)]
        rfl
      · rename_i hlast
        rw [Nat.sub_eq_zero_of_le (by omega), Nat.min_eq_left (by omega)]
        rfl

theorem padString_word {len w : Nat} (hlen : len < 0x80000000) (hw : w < 0x80000000) :
    padString (Int32.ofNat len) (Int32.ofNat w) =
      (List.replicate (w - len) 32, Int32.ofNat (min w len) - 1) := by
  unfold padString
  rw [Int32.toInt_ofNat_of_lt hw, Int.toNat_natCast]
  exact padStringLoop_word hlen w w (Nat.le_refl w) hw

theorem padString_none {len field_width : Int32} (h : ¬len < field_width) :
    padString len field_width = ([], field_width - 1) := by
  unfold padString
  cases field_width.toInt.toNat with
  | zero => rfl
  | succ n => simp only [padStringLoop, if_neg h]

theorem charText_spec (width : Option Nat) (hwidth : ∀ n ∈ width, 1 ≤ n ∧ n < 0x80000000)
    (precision n : Int32) : charText ⟨flags, width.elim (-1) Int32.ofNat, precision⟩ n =
      field (has flags LEFT) width [n.toUInt32.toUInt8] := by
  unfold charText field
  cases width with
  | none =>
      have hbefore : padChar (-1) = ([], -2) := padChar_none (by decide)
      have hbehind : padChar (-2) = ([], -3) := padChar_none (by decide)
      cases has flags LEFT <;> simp [hbefore, hbehind]
  | some w =>
      obtain ⟨hpos, hw⟩ := hwidth w rfl
      have hpad := padChar_word hpos hw
      cases has flags LEFT with
      | true => simp only [Option.elim_some, hpad, if_true, List.nil_append, Option.getD_some,
          List.length_singleton]
      | false =>
          have hbehind : padChar 0 = ([], -1) := padChar_none (by decide)
          simp only [Option.elim_some, hpad, Bool.false_eq_true, if_false, hbehind,
            List.append_nil, Option.getD_some, List.length_singleton]

theorem shown_length {l : Nat} (hl : l < 0x80000000) (digits : Option Nat)
    (hdigits : ∀ n ∈ digits, n < 0x80000000) :
    (if digits.elim (-1) Int32.ofNat < 0 then Int32.ofNat l
      else if Int32.ofNat l > digits.elim (-1) Int32.ofNat then digits.elim (-1) Int32.ofNat
      else Int32.ofNat l) = Int32.ofNat (min (digits.getD l) l) := by
  cases digits with
  | none =>
      rw [Option.getD_none, Nat.min_self]
      rfl
  | some n =>
      have hn := hdigits n rfl
      have hpos : ¬Int32.ofNat n < 0 := not_word_lt_nonpos hn (by decide)
      have hcut : Int32.ofNat l > Int32.ofNat n ↔ n < l := word_lt hn hl
      simp only [Option.elim_some, Option.getD_some, if_neg hpos, hcut]
      split
      · rw [Nat.min_eq_left (by omega)]
      · rw [Nat.min_eq_right (by omega)]

theorem stringText_spec (width digits : Option Nat) (hwidth : ∀ n ∈ width, 1 ≤ n ∧ n < 0x80000000)
    (hdigits : ∀ n ∈ digits, n < 0x80000000) {str : List UInt8} (hstr : str.length < 0x80000000) :
    stringText ⟨flags, width.elim (-1) Int32.ofNat, digits.elim (-1) Int32.ofNat⟩ str =
      field (has flags LEFT) width (str.take (digits.getD str.length)) := by
  have hlen : min (digits.getD str.length) str.length < 0x80000000 :=
    Nat.lt_of_le_of_lt (Nat.min_le_right ..) hstr
  have htake : str.take (Int32.ofNat (min (digits.getD str.length) str.length)).toInt.toNat =
      str.take (digits.getD str.length) := by
    rw [Int32.toInt_ofNat_of_lt hlen, Int.toNat_natCast, ← List.take_eq_take_min]
  unfold stringText field
  dsimp only
  rw [shown_length hstr digits hdigits, htake, List.length_take]
  generalize min (digits.getD str.length) str.length = len at hlen
  cases width with
  | none =>
      have hneg : ¬Int32.ofNat len < -1 := not_word_lt_nonpos hlen (by decide)
      have hless : ¬Int32.ofNat len < -2 := not_word_lt_nonpos hlen (by decide)
      cases has flags LEFT <;> simp [padString_none hneg, padString_none hless]
  | some w =>
      have hpad := padString_word hlen (hwidth w rfl).2
      cases has flags LEFT with
      | true => simp only [Option.elim_some, hpad, if_true, List.nil_append, Option.getD_some]
      | false =>
          have hbehind := padString_none (not_word_lt (w := w) hlen)
          simp only [Option.elim_some, hpad, Bool.false_eq_true, if_false, hbehind,
            List.append_nil, Option.getD_some]

/-! ## Conversions -/

theorem number_some {base : Int32} (hbase : ¬(base < 2 ∨ base > 36)) (num size precision : Int32)
    (type : UInt32) : Number.number num base size precision type =
      some ((Number.number num base size precision type).getD []) := by
  unfold Number.number
  rw [if_neg hbase]
  rfl

section Directive

variable {fs : List UInt8} {width digits : Option Nat} {q : Option UInt8} {v : Conv}

/-- What is known of a directive by the rules. -/
def Spec.of (fs : List UInt8) (width digits : Option Nat) : Spec where
  flags := fs.foldl (fun type c => type ||| (flagOf c).getD 0) 0
  field_width := width.elim (-1) Int32.ofNat
  precision := digits.elim (-1) Int32.ofNat

theorem numberText_word (s : Spec) {base : Int32} (hbase : ¬(base < 2 ∨ base > 36)) (n : Int32) :
    (numberText s base out (.word n :: args)).map (fun r => (r.1, rest, r.2)) = some
      (out.put ((Number.number n base s.field_width s.precision s.flags).getD []), rest, args) := by
  have htext := number_some hbase n s.field_width s.precision s.flags
  simp only [numberText, vaArg, Option.bind_eq_bind, Option.bind_some]
  obtain ⟨text, hsome⟩ : ∃ text, Number.number n base s.field_width s.precision s.flags =
      some text := ⟨_, htext⟩
  rw [hsome]
  rfl

theorem convert_spec (hok : Wellformed fs width digits q v) :
    convert (.of fs width digits) out (v.letter :: rest) (v.arg :: args) =
      some (out.put (Item.conv fs width digits q v).render, rest, args) := by
  have hwidth := hok.width
  have hoctal : ¬((8 : Int32) < 2 ∨ (8 : Int32) > 36) := by decide
  have hdecimal : ¬((10 : Int32) < 2 ∨ (10 : Int32) > 36) := by decide
  have hhex : ¬((16 : Int32) < 2 ∨ (16 : Int32) > 36) := by decide
  cases v with
  | char n =>
      have hconv : convert (.of fs width digits) out ((Conv.char n).letter :: rest)
          ((Conv.char n).arg :: args) =
            some (out.put (charText (.of fs width digits) n), rest, args) := rfl
      rw [hconv, Spec.of, charText_spec width hwidth]
      rfl
  | string str =>
      have hconv : convert (.of fs width digits) out ((Conv.string str).letter :: rest)
          ((Conv.string str).arg :: args) =
            some (out.put (stringText (.of fs width digits) str), rest, args) := rfl
      rw [hconv, Spec.of, stringText_spec width digits hwidth hok.precision (hok.string str rfl).2]
      rfl
  | octal n => exact numberText_word (.of fs width digits) hoctal n
  | pointer n =>
      have hconv : convert (.of fs width digits) out ((Conv.pointer n).letter :: rest)
          ((Conv.pointer n).arg :: args) = (numberText
            (if (Spec.of fs width digits).field_width = -1 then
              { Spec.of fs width digits with
                field_width := 8, flags := (Spec.of fs width digits).flags ||| ZEROPAD }
            else .of fs width digits) 16 out (.word n :: args)).map
              fun r => (r.1, rest, r.2) := rfl
      rw [hconv]
      cases width with
      | none =>
          have hfree : (Spec.of fs none digits).field_width = -1 := rfl
          rw [if_pos hfree]
          exact numberText_word _ hhex n
      | some w =>
          have hgiven : (Spec.of fs (some w) digits).field_width ≠ -1 :=
            word_ne (hwidth w rfl).2
          rw [if_neg hgiven]
          exact numberText_word (.of fs (some w) digits) hhex n
  | hex n =>
      exact numberText_word ⟨(Spec.of fs width digits).flags ||| SMALL,
        (Spec.of fs width digits).field_width, (Spec.of fs width digits).precision⟩ hhex n
  | upperHex n => exact numberText_word (.of fs width digits) hhex n
  | decimal n =>
      exact numberText_word ⟨(Spec.of fs width digits).flags ||| SIGN,
        (Spec.of fs width digits).field_width, (Spec.of fs width digits).precision⟩ hdecimal n
  | integer n =>
      exact numberText_word ⟨(Spec.of fs width digits).flags ||| SIGN,
        (Spec.of fs width digits).field_width, (Spec.of fs width digits).precision⟩ hdecimal n
  | unsigned n => exact numberText_word (.of fs width digits) hdecimal n

theorem behind_letter (v : Conv) (rest : List UInt8) :
    Behind (v.letter :: rest) ∧ (v.letter :: rest).headD 0 ≠ 46 := by
  have hletter : (flagOf v.letter = none ∧ isDigit v.letter = false ∧ v.letter ≠ 42) ∧
      v.letter ≠ 46 := by
    cases v <;> simp only [Conv.letter] <;> decide
  exact hletter

theorem behind_qualifier (hq : ∀ c ∈ q, c = 104 ∨ c = 108 ∨ c = 76) (v : Conv)
    (rest : List UInt8) : Behind (q.toList ++ (v.letter :: rest)) ∧
      (q.toList ++ (v.letter :: rest)).headD 0 ≠ 46 := by
  cases q with
  | none => exact behind_letter v rest
  | some c =>
      have hqualifier : (flagOf c = none ∧ isDigit c = false ∧ c ≠ 42) ∧ c ≠ 46 := by
        rcases hq c rfl with rfl | rfl | rfl <;> decide
      exact hqualifier

theorem behind_precision (digits : Option Nat) (hrest : Behind rest) :
    Behind ((digits.elim [] fun p => 46 :: decimal p) ++ rest) := by
  cases digits with
  | none => exact hrest
  | some n =>
      have hdot : flagOf 46 = none ∧ isDigit 46 = false ∧ (46 : UInt8) ≠ 42 := by decide
      exact hdot

theorem flagOf_width (hwidth : ∀ n ∈ width, 1 ≤ n) (hrest : Behind rest) :
    flagOf ((width.elim [] decimal ++ rest).headD 0) = none := by
  cases width with
  | none => exact hrest.1
  | some n =>
      obtain ⟨d, hpos, hd, hhead⟩ := decimal_head (hwidth n rfl) rest
      rw [Option.elim_some, hhead]
      exact flagOf_decimal hpos hd

theorem directive_spec (hok : Wellformed fs width digits q v) :
    directive out (fs ++ (width.elim [] decimal ++ ((digits.elim [] fun p => 46 :: decimal p) ++
      (q.toList ++ (v.letter :: rest))))) (v.arg :: args) =
        some (out.put (Item.conv fs width digits q v).render, rest, args) := by
  have hpos : ∀ n ∈ width, 1 ≤ n := fun n hn => (hok.width n hn).1
  obtain ⟨hq, hdot⟩ := behind_qualifier hok.qualifier v rest
  have hp := behind_precision digits hq
  unfold directive
  rw [skipFlags_spec (flagOf_width hpos hp) fs hok.flags]
  simp only [fieldWidth_spec width hpos hp, Option.bind_eq_bind, Option.bind_some,
    precision_spec digits hok.precision hq hdot, qualifier_spec q hok.qualifier]
  exact convert_spec hok

/-- A `*` takes the width from the arguments, and is then not known as a conversion. -/
theorem directive_star (hflags : ∀ c ∈ fs, (flagOf c).isSome = true) (w : Int32) :
    directive out (fs ++ 42 :: rest) (.word w :: args) = some (out.put [37, 42], rest, args) := by
  have hstar : flagOf ((42 :: rest).headD 0) = none := by
    rw [List.headD_cons]
    decide
  unfold directive
  rw [skipFlags_spec hstar fs hflags]
  by_cases hw : w < 0
  · simp [fieldWidth, isDigit, vaArg, hw, precision, qualifier, convert, Out.put]
  · simp [fieldWidth, isDigit, vaArg, hw, precision, qualifier, convert, Out.put]

end Directive

/-! ## The loop -/

theorem loop_item {item : Item} (hok : item.Ok) (n : Nat) (out : Out) (rest : List UInt8)
    (args : List Arg) : loop (n + 1) out (item.format ++ rest) (item.args ++ args) =
      loop n (out.put item.render) rest args := by
  cases item with
  | text c => exact if_pos hok.2
  | percent => rfl
  | conv fs width digits q v =>
      have hdir : directive out (fs ++ (width.elim [] decimal ++
          ((digits.elim [] fun p => 46 :: decimal p) ++ (q.toList ++ (v.letter :: rest)))))
            (v.arg :: args) = some (out.put (Item.conv fs width digits q v).render, rest, args) :=
        directive_spec hok
      simp only [Item.format, Item.args, List.append_assoc, List.cons_append, List.nil_append,
        loop, ne_eq, not_true_eq_false, if_false, hdir, Option.bind_some]

theorem Item.format_length (item : Item) : 1 ≤ item.format.length := by
  cases item <;> simp only [Item.format, List.cons_append, List.length_cons] <;> omega

theorem loop_items (items : List Item) (hok : ∀ item ∈ items, item.Ok) (more : List Arg) (n : Nat)
    (hn : items.length < n) (out : Out) : loop n out (items.flatMap Item.format)
      (items.flatMap Item.args ++ more) = some (out.put (items.flatMap Item.render)) := by
  induction items generalizing n out with
  | nil =>
      obtain ⟨n, rfl⟩ := Nat.exists_eq_add_of_lt hn
      exact congrArg some (by simp [Out.put])
  | cons item items ih =>
      cases n with
      | zero => exact absurd hn (Nat.not_lt_zero _)
      | succ n =>
          rw [List.flatMap_cons, List.flatMap_cons, List.append_assoc,
            loop_item (hok item (List.mem_cons_self ..)),
            ih (fun item hitem => hok item (List.mem_cons_of_mem _ hitem)) n
              (Nat.lt_of_succ_lt_succ hn), List.flatMap_cons]
          simp only [Out.put, List.append_assoc]

/-- A format by the rules is printed piece by piece. -/
theorem vsprintf_items (items : List Item) (hok : ∀ item ∈ items, item.Ok) (more : List Arg) :
    vsprintf (items.flatMap Item.format) (items.flatMap Item.args ++ more) =
      some ⟨items.flatMap Item.render, []⟩ := by
  refine (loop_items items hok more _ (Nat.lt_succ_of_le ?_) ⟨[], []⟩).trans ?_
  · induction items with
    | nil => exact Nat.zero_le _
    | cons item items ih =>
        have hone := item.format_length
        have hrest := ih fun item hitem => hok item (List.mem_cons_of_mem _ hitem)
        rw [List.flatMap_cons, List.length_cons, List.length_append]
        omega
  · rfl

/-! ## The lines of `/proc` -/

theorem text_ok {s : List UInt8} (hs : ∀ c ∈ s, c ≠ 0 ∧ c ≠ 37) :
    ∀ item ∈ s.map Item.text, item.Ok := by
  intro item hitem
  obtain ⟨c, hc, rfl⟩ := List.mem_map.mp hitem
  exact hs c hc

theorem text_format (s : List UInt8) : (s.map Item.text).flatMap Item.format = s := by
  rw [List.flatMap_map]
  exact List.flatMap_singleton' s

theorem text_render (s : List UInt8) : (s.map Item.text).flatMap Item.render = s := by
  rw [List.flatMap_map]
  exact List.flatMap_singleton' s

theorem text_args (s : List UInt8) : (s.map Item.text).flatMap Item.args = [] := by
  rw [List.flatMap_map]
  exact List.flatMap_eq_nil_iff.mpr fun _ _ => rfl

/-- `%-0` and a width, with `d`. -/
def column (size : Nat) (n : Int32) : Item := .conv [45, 48] (some size) none none (.decimal n)

theorem column_ok {size : Nat} (hpos : 1 ≤ size) (hsize : size < 0x80000000) (n : Int32) :
    (column size n).Ok where
  flags := List.all_eq_true.mp (by decide)
  width := fun k hk => by
    obtain rfl := Option.some.inj hk
    exact ⟨hpos, hsize⟩
  precision := fun k hk => by cases hk
  qualifier := fun c hc => by cases hc
  string := fun str h => by cases h

theorem column_render {size : Nat} (hsize : size < 0x80000000) (n : Int32) :
    (column size n).render = PsInfo.number n size := by
  have htype : (0 ||| LEFT) ||| ZEROPAD ||| SIGN = ZEROPAD + LEFT + SIGN := by decide
  show (Number.number n 10 (Int32.ofNat size) (-1) ((0 ||| LEFT) ||| ZEROPAD ||| SIGN)).getD [] = _
  rw [htype, Number.number_psInfo n hsize, Option.getD_some]

theorem column_format (size : Nat) (n : Int32) :
    (column size n).format = PsInfo.chars "%-0" ++ decimal size ++ PsInfo.chars "d" := by
  have hflags : PsInfo.chars "%-0" = [37, 45, 48] := by decide
  have hletter : PsInfo.chars "d" = [100] := by decide
  rw [hflags, hletter]
  simp [column, Item.format, Conv.letter]

/-- What `pro_ps` has for the first line of `/proc/psinfo` is what `vsprintf` writes. -/
theorem vsprintf_header : vsprintf PsInfo.header [] = some ⟨PsInfo.header, []⟩ := by
  have hplain : PsInfo.header.all (fun c => decide (c ≠ 0 ∧ c ≠ 37)) = true := by decide
  have hok : ∀ item ∈ PsInfo.header.map Item.text, item.Ok :=
    text_ok fun c hc => of_decide_eq_true (List.all_eq_true.mp hplain c hc)
  have h := vsprintf_items (PsInfo.header.map .text) hok []
  rwa [text_format, text_render, text_args, List.append_nil] at h

/-- So it is for the lines of the tasks. -/
theorem vsprintf_psInfo (t : PsInfo.TaskStruct) :
    vsprintf (PsInfo.chars "%-010d%-010d%-010d%-010d%-010d\n")
      [.word t.pid, .word t.state, .word t.father, .word t.counter, .word t.start_time] =
        some ⟨PsInfo.line t, []⟩ := by
  have hcolumn : ∀ n, (column 10 n).Ok := column_ok (by decide) (by decide)
  have hrender : ∀ n, (column 10 n).render = PsInfo.number n 10 := column_render (by decide)
  have hend : (Item.text 10).Ok := ⟨by decide, by decide⟩
  have h := vsprintf_items [column 10 t.pid, column 10 t.state, column 10 t.father,
    column 10 t.counter, column 10 t.start_time, .text 10] (by
      simp only [List.forall_mem_cons, hcolumn, hend, true_and]
      exact fun _ h => absurd h List.not_mem_nil) []
  have hformat : ∀ n, (column 10 n).format = PsInfo.chars "%-010d" := fun n => by
    rw [column_format]
    decide
  have htext : (Item.text 10).format = PsInfo.chars "\n" := by decide
  have hchars : PsInfo.chars "%-010d" ++ (PsInfo.chars "%-010d" ++ (PsInfo.chars "%-010d" ++
      (PsInfo.chars "%-010d" ++ (PsInfo.chars "%-010d" ++ (PsInfo.chars "\n" ++ []))))) =
        PsInfo.chars "%-010d%-010d%-010d%-010d%-010d\n" := by decide
  have hline : PsInfo.number t.pid 10 ++ (PsInfo.number t.state 10 ++ (PsInfo.number t.father 10 ++
      (PsInfo.number t.counter 10 ++ (PsInfo.number t.start_time 10 ++
        ((Item.text 10).render ++ []))))) = PsInfo.line t := by
    simp only [PsInfo.line, List.append_assoc]
    rfl
  simp only [List.flatMap_cons, List.flatMap_nil, hformat, htext, hchars, hrender, hline] at h
  exact h

theorem vsprintf_hdInfo {name : String} (hname : ∀ c ∈ PsInfo.chars name, c ≠ 0 ∧ c ≠ 37)
    (num : Int) :
    vsprintf (PsInfo.chars name ++ PsInfo.chars "%-08d\n") [.word (Int32.ofInt num)] =
      some ⟨HdInfo.line name num, []⟩ := by
  have hcolumn : ∀ n, (column 8 n).Ok := column_ok (by decide) (by decide)
  have hrender : ∀ n, (column 8 n).render = PsInfo.number n 8 := column_render (by decide)
  have hend : (Item.text 10).Ok := ⟨by decide, by decide⟩
  have h := vsprintf_items ((PsInfo.chars name).map .text ++
    [column 8 (Int32.ofInt num), .text 10]) (by
      simp only [List.forall_mem_append, List.forall_mem_cons, hcolumn, hend, true_and]
      exact ⟨text_ok hname, fun _ h => absurd h List.not_mem_nil⟩) []
  have hformat : PsInfo.chars "%-0" ++ decimal 8 ++ PsInfo.chars "d" ++
      ((Item.text 10).format ++ []) = PsInfo.chars "%-08d\n" := by decide
  have hline : PsInfo.chars name ++ (PsInfo.number (Int32.ofInt num) 8 ++
      ((Item.text 10).render ++ [])) = HdInfo.line name num := by
    simp only [HdInfo.line, List.append_assoc]
    rfl
  simp only [List.flatMap_append, List.flatMap_cons, List.flatMap_nil, text_format, text_render,
    text_args, column_format, hrender, hformat, hline] at h
  exact h

/-- Every format by the rules is printed piece by piece: each directive takes its argument and puts
its text, and everything else is copied. So the lines of `/proc` are those that `pro_ps` and
`pro_hd` have for their formats. -/
theorem vsprintf_formats :
    (∀ items : List Item, (∀ item ∈ items, item.Ok) → ∀ more : List Arg,
      vsprintf (items.flatMap Item.format) (items.flatMap Item.args ++ more) =
        some ⟨items.flatMap Item.render, []⟩) ∧
    vsprintf PsInfo.header [] = some ⟨PsInfo.header, []⟩ ∧
    (∀ t : PsInfo.TaskStruct, vsprintf (PsInfo.chars "%-010d%-010d%-010d%-010d%-010d\n")
      [.word t.pid, .word t.state, .word t.father, .word t.counter, .word t.start_time] =
        some ⟨PsInfo.line t, []⟩) ∧
    ∀ name : String, (∀ c ∈ PsInfo.chars name, c ≠ 0 ∧ c ≠ 37) → ∀ num : Int,
      vsprintf (PsInfo.chars name ++ PsInfo.chars "%-08d\n") [.word (Int32.ofInt num)] =
        some ⟨HdInfo.line name num, []⟩ :=
  ⟨vsprintf_items, vsprintf_header, vsprintf_psInfo, fun _ => vsprintf_hdInfo⟩

/-- A number is at the left of its column, and there is a string in front. -/
def shortLine : List Item :=
  [.conv [] (some 4) (some 2) none (.string (PsInfo.chars "abc")), .percent,
    .conv [45] (some 5) none (some 108) (.decimal (-42)), .text 10]

theorem vsprintf_formats_short : vsprintf (PsInfo.chars "%4.2s%%%-5ld\n")
    [.str (PsInfo.chars "abc"), .word (-42)] = some ⟨PsInfo.chars "  ab%-42  \n", []⟩ := by
  have hok : ∀ item ∈ shortLine, item.Ok := by
    intro item hitem
    simp only [shortLine, List.mem_cons, List.not_mem_nil, or_false] at hitem
    rcases hitem with rfl | rfl | rfl | rfl
    · exact {
        flags := List.all_eq_true.mp (by decide)
        width := by simp
        precision := by simp
        qualifier := by simp
        string := fun str h => by
          cases h
          decide }
    · exact trivial
    · exact {
        flags := List.all_eq_true.mp (by decide)
        width := by simp
        precision := by simp
        qualifier := by simp
        string := fun str h => by cases h }
    · exact ⟨by decide, by decide⟩
  have hformat : shortLine.flatMap Item.format = PsInfo.chars "%4.2s%%%-5ld\n" := by
    decide +kernel
  have hrender : shortLine.flatMap Item.render = PsInfo.chars "  ab%-42  \n" := by
    decide +kernel
  have h := vsprintf_formats.1 shortLine hok []
  rw [hformat, hrender] at h
  exact h

end Format

end Linux011
