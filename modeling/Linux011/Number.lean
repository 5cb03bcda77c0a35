import Linux011.PsInfo
import Mathlib.Data.Nat.Digits.Lemmas

/-!
# Formatting numbers

`number` of `kernel/vsprintf.c`, loop by loop. `size` and `precision` are `int`s that wrap around,
`do_div` is `divl` on an unsigned word. What is written is read back by `readNumber`, which knows
the base and the length of what `SPECIAL` puts in front of the digits.

`number` writes into a buffer and counts `size` down in up to three loops, of which each may find
it negative. The text is put together first: `number_text` says what is written for given lengths
of the paddings, with the sign, what `SPECIAL` puts there, the zeros of the precision and the
digits, which are those of `Nat.digits` (`tmp_eq`). What it denotes does not depend on the
paddings, and reading it back is a walk over these parts. Its length is where the `int`s come in.
The least `int` less one is the greatest, so that a `size` that is as low as that grows a long
padding; `Fits` says when the remainder modulo 2 ^ 32 makes no difference, and the equivalence is
then about two numbers, the length that is wanted and the one that is written.
-/

namespace Linux011

namespace Number

def ZEROPAD : UInt32 := 1
def SIGN : UInt32 := 2
def PLUS : UInt32 := 4
def SPACE : UInt32 := 8
def LEFT : UInt32 := 16
def SPECIAL : UInt32 := 32
def SMALL : UInt32 := 64

/-- `type & flag` -/
def has (type flag : UInt32) : Bool := decide (type &&& flag ≠ 0)

def digits (small : Bool) : List UInt8 :=
  PsInfo.chars (if small then "0123456789abcdefghijklmnopqrstuvwxyz"
    else "0123456789ABCDEFGHIJKLMNOPQRSTUVWXYZ")

/-- `digits[k]` -/
def digit (small : Bool) (k : Nat) : UInt8 := (digits small).getD k 0

/-- `while (size-- > 0) *str++ = c;` with what `size` is behind the loop; the first argument bounds
the rounds. -/
def padLoop (c : UInt8) : Nat → Int32 → List UInt8 × Int32
  | 0, size => ([], size - 1)
  | n + 1, size =>
      if size > 0 then
        let (out, size) := padLoop c n (size - 1)
        (c :: out, size)
      else ([], size - 1)

def pad (c : UInt8) (size : Int32) : List UInt8 × Int32 := padLoop c size.toInt.toNat size

/-- `while (num != 0) tmp[i++] = digits[do_div(num,base)];` for a number of at most `n` digits. -/
def digitLoop (small : Bool) (base : UInt32) : Nat → UInt32 → List UInt8
  | 0, _ => []
  | n + 1, num =>
      if num = 0 then []
      else digit small (num % base).toNat :: digitLoop small base n (num / base)

/-- `while (i < precision--) *str++ = '0';` for at most `n` rounds. -/
def zeroLoop (i : Int32) : Nat → Int32 → List UInt8
  | 0, _ => []
  | n + 1, precision => if i < precision then 48 :: zeroLoop i n (precision - 1) else []

/-- The character for the sign, 0 for none, and the number without it. -/
def signOf (num : Int32) (type : UInt32) : UInt8 × Int32 :=
  if has type SIGN = true ∧ num < 0 then (45, -num)
  else (if has type PLUS then 43 else if has type SPACE then 32 else 0, num)

/-- What `SPECIAL` puts in front of the digits. -/
def special (base : Int32) (type : UInt32) : List UInt8 :=
  if has type SPECIAL then
    if base = 8 then [48]
    else if base = 16 then [48, digit (has type SMALL) 33]
    else []
  else []

/-- `number`, `none` is the null pointer. -/
def number (num base size precision : Int32) (type : UInt32) : Option (List UInt8) :=
  let small := has type SMALL
  let type := if has type LEFT then type &&& ~~~ZEROPAD else type
  if base < 2 ∨ base > 36 then none
  else
    let c := if has type ZEROPAD then 48 else 32
    let (sign, num) := signOf num type
    let size := if sign ≠ 0 then size - 1 else size
    let size :=
      if has type SPECIAL then
        if base = 16 then size - 2 else if base = 8 then size - 1 else size
      else size
    let tmp := if num = 0 then [48] else digitLoop small base.toUInt32 32 num.toUInt32
    let i := Int32.ofNat tmp.length
    let precision := if i > precision then i else precision
    let size := size - precision
    let (before, size) := if has type (ZEROPAD + LEFT) then ([], size) else pad 32 size
    let signs := if sign ≠ 0 then [sign] else []
    let (middle, size) := if has type LEFT then ([], size) else pad c size
    let zeros := zeroLoop i (precision - i).toInt.toNat precision
    let (rest, _) := pad 32 size
    some (before ++ signs ++ special base type ++ middle ++ zeros ++ tmp.reverse ++ rest)

/-! ## Reading -/

def digitValue (c : UInt8) : Option Nat :=
  if 48 ≤ c ∧ c ≤ 57 then some (c.toNat - 48)
  else if 65 ≤ c ∧ c ≤ 90 then some (c.toNat - 55)
  else if 97 ≤ c ∧ c ≤ 122 then some (c.toNat - 87)
  else none

/-- The digits up to the first other character, behind those that have the value `v`. -/
def readDigits (base : Nat) : Nat → List UInt8 → Nat
  | v, [] => v
  | v, c :: cs =>
      match digitValue c with
      | some k => readDigits base (v * base + k) cs
      | none => v

/-- Spaces, a sign, `q` characters that do not count, and digits. -/
def readNumber (base q : Nat) (out : List UInt8) : Int :=
  match out.dropWhile (· = 32) with
  | 45 :: out => -(readDigits base 0 (out.drop q) : Int)
  | 43 :: out => readDigits base 0 (out.drop q)
  | out => readDigits base 0 (out.drop q)

/-! ## What is to be written -/

/-- The number that is meant. -/
def meant (num : Int32) (type : UInt32) : Int :=
  if has type SIGN then num.toInt else num.toUInt32.toNat

/-- The digits that a number has. -/
def digitCount (base n : Nat) : Nat := max 1 (Nat.digits base n).length

/-- A sign character is shown. -/
def signed (num : Int32) (type : UInt32) : Nat :=
  if (has type SIGN = true ∧ num < 0) ∨ has type PLUS = true ∨ has type SPACE = true then 1 else 0

/-- The length of what `SPECIAL` shows. -/
def specialLength (base : Int32) (type : UInt32) : Nat :=
  if has type SPECIAL then if base = 16 then 2 else if base = 8 then 1 else 0 else 0

/-- `s + q + max(d, precision)` -/
def needed (num base precision : Int32) (type : UInt32) : Int :=
  signed num type + specialLength base type +
    max (digitCount base.toInt.toNat (meant num type).natAbs : Int) precision.toInt

/-- The characters are as many as they are to be, and they denote the number. -/
def Exact (num base size precision : Int32) (type : UInt32) : Prop :=
  ∃ out, number num base size precision type = some out ∧
    (out.length : Int) = max size.toInt (needed num base precision type) ∧
    readNumber base.toInt.toNat (specialLength base type) out = meant num type

/-- The loops that count `size` down. -/
def loops (type : UInt32) : Int :=
  if has type LEFT then 1 else if has type ZEROPAD then 2 else 3

/-- `size` stays above the least `int`, or comes round to what counts as no room. -/
def Fits (num base size precision : Int32) (type : UInt32) : Prop :=
  needed num base precision type ≤ size.toInt ∨
    (needed num base precision type - size.toInt) % 0x100000000 + loops type ≤ 0x80000001

/-! ## The loops -/

/-- What `size` is behind a loop. -/
def behind (size : Int32) : Int32 := if size > 0 then -1 else size - 1

theorem toInt_sub_emod (a b : Int32) :
    (a - b).toInt % 0x100000000 = (a.toInt - b.toInt) % 0x100000000 := by
  rw [Int32.toInt_sub]
  exact Int.bmod_emod

theorem toInt_sub_one {a : Int32} (h : a > 0) : (a - 1).toInt = a.toInt - 1 := by
  have hpos := Int32.lt_iff_toInt_lt.mp h
  have hmod := toInt_sub_emod a 1
  have hlow := (a - 1).le_toInt
  have hhigh := (a - 1).toInt_lt
  have hlt := a.toInt_lt
  rw [show (0 : Int32).toInt = 0 from rfl] at hpos
  rw [show (1 : Int32).toInt = 1 from rfl] at hmod
  omega

theorem padLoop_eq (c : UInt8) (n : Nat) : ∀ size : Int32, size.toInt.toNat = n →
    padLoop c n size = (List.replicate n c, behind size) := by
  have hzero : (0 : Int32).toInt = 0 := rfl
  induction n with
  | zero =>
      intro size hsize
      have hno : ¬size > 0 := fun h => by
        have hpos := Int32.lt_iff_toInt_lt.mp h
        omega
      rw [behind, if_neg hno]
      rfl
  | succ n ih =>
      intro size hsize
      have hyes : size > 0 := Int32.lt_iff_toInt_lt.mpr (by omega)
      have hsub := toInt_sub_one hyes
      have hend : behind (size - 1) = -1 := by
        unfold behind
        split
        · rfl
        · rename_i hno
          have hle : ¬(0 : Int32).toInt < (size - 1).toInt := fun h =>
            hno (Int32.lt_iff_toInt_lt.mpr h)
          have hone : size - 1 = 0 := Int32.toInt_inj.mp (by omega)
          rw [hone]
          rfl
      unfold padLoop
      rw [if_pos hyes, ih (size - 1) (by omega), hend, behind, if_pos hyes]
      rfl

theorem pad_eq (c : UInt8) (size : Int32) :
    pad c size = (List.replicate size.toInt.toNat c, behind size) := padLoop_eq c _ size rfl

/-- A count that is no longer positive goes down, and from the least `int` to the greatest. -/
theorem behind_toInt (size : Int32) :
    (behind size).toInt = if 0 < size.toInt then -1
      else if size.toInt = -0x80000000 then 0x7fffffff else size.toInt - 1 := by
  have hzero : (0 : Int32).toInt = 0 := rfl
  unfold behind
  by_cases hpos : size > 0
  · have h := Int32.lt_iff_toInt_lt.mp hpos
    rw [if_pos hpos, if_pos (by omega)]
    rfl
  · have h : ¬(0 : Int32).toInt < size.toInt := fun h => hpos (Int32.lt_iff_toInt_lt.mpr h)
    have hmod := toInt_sub_emod size 1
    have hlow := (size - 1).le_toInt
    have hhigh := (size - 1).toInt_lt
    have hle := size.le_toInt
    rw [show (1 : Int32).toInt = 1 from rfl] at hmod
    rw [if_neg hpos, if_neg (by omega)]
    split <;> omega

theorem zeroLoop_eq (i : Int32) (n : Nat) : ∀ precision : Int32,
    (precision.toInt - i.toInt).toNat = n → zeroLoop i n precision = List.replicate n 48 := by
  induction n with
  | zero => exact fun _ _ => rfl
  | succ n ih =>
      intro precision hn
      have hlt : i < precision := Int32.lt_iff_toInt_lt.mpr (by omega)
      have hsub : (precision - 1).toInt = precision.toInt - 1 := by
        have hmod := toInt_sub_emod precision 1
        have hlow := (precision - 1).le_toInt
        have hhigh := (precision - 1).toInt_lt
        have hle := i.le_toInt
        have hp := precision.toInt_lt
        rw [show (1 : Int32).toInt = 1 from rfl] at hmod
        omega
      unfold zeroLoop
      rw [if_pos hlt, ih (precision - 1) (by omega)]
      rfl

/-! ## The digits -/

/-- The values of the digits, the lowest first; 0 has one. -/
def values (base n : Nat) : List Nat := if n = 0 then [0] else Nat.digits base n

theorem digitLoop_eq (small : Bool) {base : UInt32} (hbase : 1 < base.toNat) (n : Nat) :
    ∀ num : UInt32, num.toNat < base.toNat ^ n →
      digitLoop small base n num = (Nat.digits base.toNat num.toNat).map (digit small) := by
  induction n with
  | zero =>
      intro num hlt
      rw [pow_zero, Nat.lt_one_iff] at hlt
      rw [hlt, Nat.digits_zero]
      rfl
  | succ n ih =>
      intro num hlt
      unfold digitLoop
      by_cases hzero : num = 0
      · rw [if_pos hzero, hzero]
        exact (congrArg (List.map _) (Nat.digits_zero _)).symm
      · have hpos : 0 < num.toNat := Nat.pos_of_ne_zero fun h => hzero (UInt32.toNat_inj.mp h)
        have hdiv : (num / base).toNat = num.toNat / base.toNat := UInt32.toNat_div _ _
        have hmod : (num % base).toNat = num.toNat % base.toNat := UInt32.toNat_mod _ _
        have hquot : (num / base).toNat < base.toNat ^ n := by
          rw [hdiv]
          exact Nat.div_lt_of_lt_mul (by rwa [← pow_succ'])
        rw [if_neg hzero, ih _ hquot, hdiv, hmod, Nat.digits_def' hbase hpos]
        rfl

theorem length_values (base n : Nat) (hbase : 1 < base) :
    (values base n).length = digitCount base n := by
  unfold values digitCount
  by_cases hn : n = 0
  · rw [if_pos hn, hn, Nat.digits_zero]
    rfl
  · rw [if_neg hn]
    have hlen := Nat.length_digits base n hbase hn
    omega

theorem ofDigits_values (base n : Nat) : Nat.ofDigits base (values base n) = n := by
  unfold values
  split
  · rename_i hn
    rw [hn]
    rfl
  · exact Nat.ofDigits_digits base n

theorem values_lt {base n k : Nat} (hbase : 1 < base) (hk : k ∈ values base n) : k < base := by
  unfold values at hk
  split at hk
  · rw [List.mem_singleton.mp hk]
    omega
  · exact Nat.digits_lt_base hbase hk

theorem digitValue_digit (small : Bool) : ∀ k < 36, digitValue (digit small k) = some k := by
  cases small <;> decide

/-! ## The flags -/

variable {num base size precision : Int32} {type : UInt32}

/-- `type` behind the test of `LEFT`. -/
def cleared (type : UInt32) : UInt32 := if has type LEFT then type &&& ~~~ZEROPAD else type

theorem has_cleared (flag : UInt32) (h : ~~~ZEROPAD &&& flag = flag) :
    has (cleared type) flag = has type flag := by
  unfold cleared
  split
  · unfold has
    rw [UInt32.and_assoc, h]
  · rfl

theorem has_cleared_zeropad :
    has (cleared type) ZEROPAD = (has type ZEROPAD && !has type LEFT) := by
  unfold cleared
  cases hleft : has type LEFT with
  | true =>
      rw [if_pos rfl, Bool.not_true, Bool.and_false]
      unfold has
      rw [UInt32.and_assoc]
      exact decide_eq_false (not_not.mpr (UInt32.and_zero ..))
  | false => rw [if_neg Bool.false_ne_true, Bool.not_false, Bool.and_true]

theorem has_both : has type (ZEROPAD + LEFT) = (has type ZEROPAD || has type LEFT) := by
  have hor : type &&& (ZEROPAD ||| LEFT) = type &&& ZEROPAD ||| type &&& LEFT :=
    UInt32.toBitVec_inj.mp BitVec.and_or_distrib_left
  have hsum : ZEROPAD + LEFT = ZEROPAD ||| LEFT := rfl
  unfold has
  rw [hsum, hor, ← Bool.decide_or]
  refine decide_eq_decide.mpr ?_
  rw [ne_eq, UInt32.or_eq_zero_iff]
  tauto

theorem signOf_cleared : signOf num (cleared type) = signOf num type := by
  unfold signOf
  rw [has_cleared SIGN (by decide), has_cleared PLUS (by decide), has_cleared SPACE (by decide)]

theorem special_cleared : special base (cleared type) = special base type := by
  unfold special
  rw [has_cleared SPECIAL (by decide), has_cleared SMALL (by decide)]

/-! ## The sign -/

/-- The character for the sign, if there is one. -/
def signs (num : Int32) (type : UInt32) : List UInt8 :=
  if (signOf num type).1 ≠ 0 then [(signOf num type).1] else []

theorem length_signs : (signs num type).length = signed num type := by
  unfold signs signOf signed
  by_cases hneg : has type SIGN = true ∧ num < 0
  · simp [hneg]
  · rw [if_neg hneg]
    cases hplus : has type PLUS <;> cases hspace : has type SPACE <;> simp [hneg]

theorem length_special : (special base type).length = specialLength base type := by
  unfold special specialLength
  split
  · by_cases h8 : base = 8
    · rw [h8]
      rfl
    · rw [if_neg h8, if_neg h8]
      split <;> rfl
  · rfl

theorem toInt_eq (num : Int32) : num.toInt =
    if num.toUInt32.toNat < 0x80000000 then (num.toUInt32.toNat : Int)
    else num.toUInt32.toNat - 0x100000000 := by
  have h : num.toInt = num.toBitVec.toInt := rfl
  have htoNat : num.toUInt32.toNat = num.toBitVec.toNat := rfl
  rw [h, htoNat, BitVec.toInt_eq_toNat_cond]
  split <;> split <;> omega

/-- The number without its sign, also for the least one. -/
theorem magnitude : (signOf num type).2.toUInt32.toNat = (meant num type).natAbs := by
  have hnum := toInt_eq num
  have hlt : num.toUInt32.toNat < 0x100000000 := num.toUInt32.toNat_lt
  unfold signOf meant
  by_cases hneg : has type SIGN = true ∧ num < 0
  · obtain ⟨hsign, hlt0⟩ := hneg
    have hzero : num.toInt < 0 := Int32.lt_iff_toInt_lt.mp hlt0
    have hopp : (-num).toUInt32.toNat = (0x100000000 - num.toUInt32.toNat) % 0x100000000 :=
      UInt32.toNat_neg _
    rw [if_pos ⟨hsign, hlt0⟩, if_pos hsign]
    dsimp only
    split at hnum <;> omega
  · rw [if_neg hneg]
    dsimp only
    cases hsign : has type SIGN with
    | true =>
        have hle : ¬num.toInt < 0 := fun h => hneg ⟨hsign, Int32.lt_iff_toInt_lt.mpr h⟩
        rw [if_pos rfl]
        split at hnum <;> omega
    | false =>
        rw [if_neg Bool.false_ne_true]
        omega

/-! ## What is written -/

theorem two_le (hbase : 2 ≤ base) : 2 ≤ base.toInt.toNat := by
  have hle : (2 : Int32).toInt ≤ base.toInt := Int32.le_iff_toInt_le.mp hbase
  rw [show (2 : Int32).toInt = 2 from rfl] at hle
  omega

theorem toNat_base (hbase : 2 ≤ base) : base.toUInt32.toNat = base.toInt.toNat := by
  have hle := two_le hbase
  have heq := toInt_eq base
  have hlt : base.toUInt32.toNat < 0x100000000 := base.toUInt32.toNat_lt
  split at heq <;> omega

/-- `tmp` behind the division loop; 32 rounds are enough. -/
theorem tmp_eq (small : Bool) (hbase : 2 ≤ base) (num : Int32) :
    (if num = 0 then [48] else digitLoop small base.toUInt32 32 num.toUInt32) =
      (values base.toInt.toNat num.toUInt32.toNat).map (digit small) := by
  have hle := two_le hbase
  have heq := toNat_base hbase
  unfold values
  by_cases hzero : num = 0
  · rw [if_pos hzero, hzero]
    cases small <;> rfl
  · have hnat : num.toUInt32.toNat ≠ 0 := fun h =>
      hzero (Int32.toInt_inj.mp (by rw [toInt_eq, h]; rfl))
    have hlt : num.toUInt32.toNat < base.toUInt32.toNat ^ 32 :=
      calc num.toUInt32.toNat < 2 ^ 32 := num.toUInt32.toNat_lt
        _ ≤ base.toUInt32.toNat ^ 32 := Nat.pow_le_pow_left (by omega) 32
    rw [if_neg hzero, if_neg hnat, digitLoop_eq small (by omega) 32 _ hlt, heq]

theorem length_le {n : Nat} (b : Nat) (hb : 2 ≤ b) (hn : n < 2 ^ 32) :
    (values b n).length ≤ 32 := by
  rw [length_values b n hb, digitCount]
  have hlen : (Nat.digits b n).length ≤ 32 :=
    Nat.digits_length_le_iff hb n |>.mpr (hn.trans_le (Nat.pow_le_pow_left hb 32))
  omega

theorem size_behind_sign (num : Int32) (type : UInt32) (size : Int32) :
    (if (signOf num type).1 ≠ 0 then size - 1 else size).toInt % 0x100000000 =
      (size.toInt - (signs num type).length) % 0x100000000 := by
  unfold signs
  split
  · exact toInt_sub_emod size 1
  · rw [List.length_nil, Int.ofNat_zero, Int.sub_zero]

theorem size_behind_special (base : Int32) (type : UInt32) (size : Int32) :
    (if has type SPECIAL then
        if base = 16 then size - 2 else if base = 8 then size - 1 else size
      else size).toInt % 0x100000000 = (size.toInt - specialLength base type) % 0x100000000 := by
  unfold specialLength
  split
  · split
    · exact toInt_sub_emod size 2
    · split
      · exact toInt_sub_emod size 1
      · rw [Int.ofNat_zero, Int.sub_zero]
  · rw [Int.ofNat_zero, Int.sub_zero]

/-- How many characters the loops write that count `size` down: in front of the sign, in front of
the digits and behind them. -/
def paddings (type : UInt32) (size : Int32) : Nat × Nat × Nat :=
  if has type LEFT then (0, 0, size.toInt.toNat)
  else if has type ZEROPAD then (0, size.toInt.toNat, (behind size).toInt.toNat)
  else (size.toInt.toNat, (behind size).toInt.toNat, (behind (behind size)).toInt.toNat)

/-- The digits, the highest first. -/
def shown (num base : Int32) (type : UInt32) : List UInt8 :=
  ((values base.toInt.toNat (meant num type).natAbs).map (digit (has type SMALL))).reverse

theorem length_shown (num : Int32) (type : UInt32) (hbase : 2 ≤ base) :
    (shown num base type).length = digitCount base.toInt.toNat (meant num type).natAbs := by
  rw [shown, List.length_reverse, List.length_map, length_values _ _ (two_le hbase)]

theorem length_shown_le (num : Int32) (type : UInt32) (hbase : 2 ≤ base) :
    (shown num base type).length ≤ 32 := by
  have hlt : (meant num type).natAbs < 2 ^ 32 := by
    rw [← magnitude]
    exact UInt32.toNat_lt _
  rw [shown, List.length_reverse, List.length_map]
  exact length_le _ (two_le hbase) hlt

theorem precision_eq (precision : Int32) {n : Nat} (hn : n ≤ 32) :
    (if Int32.ofNat n > precision then Int32.ofNat n else precision).toInt =
      max (n : Int) precision.toInt := by
  have hof : (Int32.ofNat n).toInt = n := Int32.toInt_ofNat_of_lt (by omega)
  split
  · rename_i h
    have hlt := Int32.lt_iff_toInt_lt.mp h
    omega
  · rename_i h
    have hle : ¬precision.toInt < (Int32.ofNat n).toInt := fun hlt =>
      h (Int32.lt_iff_toInt_lt.mpr hlt)
    omega

/-- What `number` writes, and what `size` is in front of the loops: the room left, modulo 2^32. -/
theorem number_text (num size precision : Int32) (type : UInt32) (hlow : 2 ≤ base)
    (hhigh : base ≤ 36) : ∃ room : Int32,
    room.toInt % 0x100000000 = (size.toInt - needed num base precision type) % 0x100000000 ∧
    number num base size precision type = some (List.replicate (paddings type room).1 32 ++
      signs num type ++ special base type ++
      List.replicate (paddings type room).2.1 (if has type ZEROPAD then 48 else 32) ++
      List.replicate (precision.toInt - (shown num base type).length).toNat 48 ++
      shown num base type ++ List.replicate (paddings type room).2.2 32) := by
  have hno : ¬(base < 2 ∨ base > 36) := by
    have h1 := Int32.le_iff_toInt_le.mp hlow
    have h2 := Int32.le_iff_toInt_le.mp hhigh
    rw [Int32.lt_iff_toInt_lt, gt_iff_lt, Int32.lt_iff_toInt_lt]
    omega
  unfold number
  dsimp only
  rw [if_neg hno]
  rw [show (if has type LEFT then type &&& ~~~ZEROPAD else type) = cleared type from rfl]
  rw [signOf_cleared, special_cleared, has_both,
    has_cleared SPECIAL (by decide), has_cleared LEFT (by decide), has_cleared_zeropad]
  rw [tmp_eq _ hlow, magnitude]
  have hlen : (shown num base type).length = ((values base.toInt.toNat
      (meant num type).natAbs).map (digit (has type SMALL))).length := List.length_reverse
  have hle := length_shown_le num type hlow
  have hprecision := precision_eq precision hle
  rw [← hlen]
  generalize hshown : (if Int32.ofNat (shown num base type).length > precision then
    Int32.ofNat (shown num base type).length else precision) = p at hprecision ⊢
  have hof : (Int32.ofNat (shown num base type).length).toInt = (shown num base type).length :=
    Int32.toInt_ofNat_of_lt (by omega)
  have hsub : (p - Int32.ofNat (shown num base type).length).toInt =
      p.toInt - (shown num base type).length := by
    have hmod := toInt_sub_emod p (Int32.ofNat (shown num base type).length)
    have h1 := p.toInt_lt
    have h2 := (p - Int32.ofNat (shown num base type).length).le_toInt
    have h3 := (p - Int32.ofNat (shown num base type).length).toInt_lt
    omega
  rw [zeroLoop_eq _ _ p (by rw [hof, hsub])]
  have hsign := size_behind_sign num type size
  generalize (if (signOf num type).1 ≠ 0 then size - 1 else size) = size₁ at hsign ⊢
  have hspecial := size_behind_special base type size₁
  generalize (if has type SPECIAL then
      if base = 16 then size₁ - 2 else if base = 8 then size₁ - 1 else size₁
    else size₁) = size₂ at hspecial ⊢
  refine ⟨size₂ - p, ?_, ?_⟩
  · have hroom := toInt_sub_emod size₂ p
    have hdigits : ((shown num base type).length : Int) =
      digitCount base.toInt.toNat (meant num type).natAbs := by rw [length_shown num type hlow]
    have hsigns : ((signs num type).length : Int) = signed num type := by rw [length_signs]
    unfold needed
    omega
  · simp only [pad_eq, paddings]
    have hzeros : (p - Int32.ofNat (shown num base type).length).toInt.toNat =
        (precision.toInt - (shown num base type).length).toNat := by omega
    rw [hzeros]
    cases has type LEFT <;> cases has type ZEROPAD <;> simp [signs, shown]

/-! ## The length -/

/-- The paddings are what is missing to `size` if and only if `size` did not come round. -/
theorem paddings_fit (type : UInt32) {room : Int32} {n : Int} (hn : 1 ≤ n)
    (hroom : room.toInt % 0x100000000 = (size.toInt - n) % 0x100000000) :
    ((paddings type room).1 + (paddings type room).2.1 + (paddings type room).2.2 : Int) =
        max size.toInt n - n ↔
      n ≤ size.toInt ∨ (n - size.toInt) % 0x100000000 + loops type ≤ 0x80000001 := by
  have hlow := room.le_toInt
  have hhigh := room.toInt_lt
  have hsize := size.toInt_lt
  have hbehind := behind_toInt room
  have htwice := behind_toInt (behind room)
  unfold paddings loops
  cases has type LEFT with
  | true =>
      simp only [if_true]
      split at hbehind <;> omega
  | false =>
      cases has type ZEROPAD with
      | true =>
          simp only [Bool.false_eq_true, if_false, if_true]
          split at hbehind
          · omega
          · split at hbehind <;> omega
      | false =>
          simp only [Bool.false_eq_true, if_false]
          split at hbehind
          · rw [if_neg (by omega), if_neg (by omega)] at htwice
            omega
          · split at hbehind
            · rw [if_pos (by omega)] at htwice
              omega
            · rw [if_neg (by omega)] at htwice
              split at htwice <;> omega

/-- Where they fit, nothing but zeros stands in front of the digits. -/
theorem paddings_zero {room : Int32} {n : Int} (hn : 1 ≤ n)
    (hroom : room.toInt % 0x100000000 = (size.toInt - n) % 0x100000000)
    (hfit : n ≤ size.toInt ∨ (n - size.toInt) % 0x100000000 + loops type ≤ 0x80000001) :
    has type ZEROPAD ∨ (paddings type room).2.1 = 0 := by
  have hlow := room.le_toInt
  have hhigh := room.toInt_lt
  have hsize := size.toInt_lt
  have hbehind := behind_toInt room
  unfold loops at hfit
  unfold paddings
  cases hzero : has type ZEROPAD with
  | true => exact .inl rfl
  | false =>
      right
      cases hleft : has type LEFT with
      | true => rfl
      | false =>
          simp only [hleft, hzero, Bool.false_eq_true, if_false] at hfit ⊢
          split at hbehind
          · omega
          · have hno : ¬room.toInt = -0x80000000 := by omega
            rw [if_neg hno] at hbehind
            omega

/-! ## Reading it back -/

theorem readDigits_spaces (b v n : Nat) : readDigits b v (List.replicate n 32) = v := by
  cases n <;> rfl

theorem readDigits_zeros (b n : Nat) (out : List UInt8) :
    readDigits b 0 (List.replicate n 48 ++ out) = readDigits b 0 out := by
  induction n with
  | zero => rfl
  | succ n ih =>
      rw [List.replicate_succ, List.cons_append, readDigits]
      have hzero : digitValue 48 = some 0 := rfl
      rw [hzero]
      dsimp only
      rw [Nat.zero_mul, ih]

theorem readDigits_digits (small : Bool) (b : Nat) (out : List UInt8) (ds : List Nat) :
    ∀ v, (∀ k ∈ ds, k < 36) → readDigits b v (ds.map (digit small) ++ out) =
      readDigits b (ds.foldl (fun v k => v * b + k) v) out := by
  induction ds with
  | nil => exact fun _ _ => rfl
  | cons k ds ih =>
      intro v hds
      rw [List.map_cons, List.cons_append, readDigits,
        digitValue_digit small k (hds k List.mem_cons_self)]
      exact ih _ fun k' hk' => hds k' (List.mem_cons_of_mem k hk')

theorem foldl_reverse_values (b n : Nat) :
    (values b n).reverse.foldl (fun v k => v * b + k) 0 = n := by
  rw [List.foldl_reverse]
  have hsame : (fun k v => v * b + k) = (fun k v : Nat => k + b * v) := by
    funext k v
    rw [Nat.mul_comm, Nat.add_comm]
  have hdigits := Nat.ofDigits_eq_foldr b (values b n)
  rw [ofDigits_values] at hdigits
  rw [hsame]
  exact hdigits.symm

theorem readDigits_shown (hlow : 2 ≤ base) (hhigh : base ≤ 36) (zeros spaces : Nat) :
    readDigits base.toInt.toNat 0 (List.replicate zeros 48 ++ (shown num base type ++
      List.replicate spaces 32)) = (meant num type).natAbs := by
  have hle := Int32.le_iff_toInt_le.mp hhigh
  have hds : ∀ k ∈ (values base.toInt.toNat (meant num type).natAbs).reverse, k < 36 := by
    intro k hk
    have hlt := values_lt (two_le hlow) (List.mem_reverse.mp hk)
    rw [show (36 : Int32).toInt = 36 from rfl] at hle
    omega
  rw [readDigits_zeros, shown, ← List.map_reverse, readDigits_digits _ _ _ _ _ hds,
    foldl_reverse_values, readDigits_spaces]

/-! ## In front of the digits -/

theorem special_cases (base : Int32) (type : UInt32) :
    special base type = [] ∨ ∃ cs, special base type = 48 :: cs := by
  unfold special
  by_cases h8 : base = 8
  · cases has type SPECIAL <;> simp [h8]
  · by_cases h16 : base = 16
    · cases has type SPECIAL <;> simp [h16]
    · cases has type SPECIAL <;> simp [h8, h16]

theorem digitValue_shown (hlow : 2 ≤ base) (hhigh : base ≤ 36) {c : UInt8}
    (hc : c ∈ shown num base type) : (digitValue c).isSome := by
  have hle := Int32.le_iff_toInt_le.mp hhigh
  obtain ⟨k, hk, rfl⟩ := List.mem_map.mp (List.mem_reverse.mp hc)
  have hlt := values_lt (two_le hlow) hk
  rw [show (36 : Int32).toInt = 36 from rfl] at hle
  rw [digitValue_digit _ k (by omega)]
  rfl

theorem behind_sign (num : Int32) (type : UInt32) (hlow : 2 ≤ base) (hhigh : base ≤ 36)
    (zeros : Nat) (out : List UInt8) :
    ∃ c cs, special base type ++ (List.replicate zeros 48 ++ (shown num base type ++ out)) =
      c :: cs ∧ (digitValue c).isSome := by
  obtain hnil | ⟨cs, hcs⟩ := special_cases base type
  · cases zeros with
    | succ n => exact ⟨48, _, by rw [hnil]; rfl, rfl⟩
    | zero =>
        cases hshown : shown num base type with
        | nil =>
            have hlen := length_shown num type hlow
            rw [hshown, List.length_nil, digitCount] at hlen
            omega
        | cons c cs =>
            have hmem : c ∈ shown num base type := hshown ▸ List.mem_cons_self
            exact ⟨c, _, by rw [hnil]; rfl, digitValue_shown hlow hhigh hmem⟩
  · exact ⟨48, _, by rw [hcs]; rfl, rfl⟩

theorem dropWhile_spaces (n : Nat) (out : List UInt8) :
    (List.replicate n 32 ++ out).dropWhile (· = 32) = out.dropWhile (· = 32) :=
  List.dropWhile_append_of_pos fun _ hc => decide_eq_true (List.eq_of_mem_replicate hc)

theorem readNumber_signs {c : UInt8} (hc : (digitValue c).isSome) (b q spaces : Nat)
    (cs : List UInt8) :
    readNumber b q (List.replicate spaces 32 ++ (signs num type ++ c :: cs)) =
      (if has type SIGN = true ∧ num < 0 then -1 else 1) *
        (readDigits b 0 ((c :: cs).drop q) : Int) := by
  have h32 : c ≠ 32 := by rintro rfl; cases hc
  have h43 : c ≠ 43 := by rintro rfl; cases hc
  have h45 : c ≠ 45 := by rintro rfl; cases hc
  have hbody : readNumber b q (c :: cs) = (readDigits b 0 ((c :: cs).drop q) : Int) := by
    unfold readNumber
    rw [List.dropWhile_cons_of_neg (by simpa using h32)]
    split
    · rename_i heq
      exact absurd (List.cons.inj heq).1 h45
    · rename_i heq
      exact absurd (List.cons.inj heq).1 h43
    · rfl
  have hspaces : ∀ out, readNumber b q (List.replicate spaces 32 ++ out) = readNumber b q out := by
    intro out
    unfold readNumber
    rw [dropWhile_spaces]
  rw [hspaces]
  unfold signs signOf
  by_cases hneg : has type SIGN = true ∧ num < 0
  · simp [hneg, readNumber]
  · rw [if_neg hneg, if_neg hneg, Int.one_mul]
    cases has type PLUS with
    | true => simp [readNumber]
    | false =>
        cases has type SPACE with
        | true =>
            have hspace : readNumber b q (32 :: c :: cs) = readNumber b q (c :: cs) := by
              unfold readNumber
              rw [List.dropWhile_cons_of_pos rfl]
            simpa [hspace] using hbody
        | false => simpa using hbody

theorem sign_meant (num : Int32) (type : UInt32) :
    (if has type SIGN = true ∧ num < 0 then -1 else 1) * ((meant num type).natAbs : Int) =
      meant num type := by
  have hlt : num < 0 ↔ num.toInt < 0 := Int32.lt_iff_toInt_lt
  unfold meant
  cases has type SIGN with
  | true =>
      simp only [true_and, hlt, if_true]
      split <;> omega
  | false =>
      simp only [Bool.false_eq_true, false_and, if_false]
      omega

theorem needed_pos (num base precision : Int32) (type : UInt32) :
    1 ≤ needed num base precision type := by
  have hdigits : 1 ≤ digitCount base.toInt.toNat (meant num type).natAbs := Nat.le_max_left ..
  unfold needed
  omega

theorem length_text (num precision : Int32) (type : UInt32) (hlow : 2 ≤ base) :
    ((signs num type).length : Int) + (special base type).length +
      (precision.toInt - (shown num base type).length).toNat + (shown num base type).length =
      needed num base precision type := by
  rw [length_signs, length_special, length_shown num type hlow]
  unfold needed
  omega

theorem fits_of_exact (hlow : 2 ≤ base) (hhigh : base ≤ 36)
    (hexact : Exact num base size precision type) : Fits num base size precision type := by
  obtain ⟨room, hroom, htext⟩ := number_text num size precision type hlow hhigh
  obtain ⟨out, hout, hlen, -⟩ := hexact
  rw [htext] at hout
  cases hout
  have htexts := length_text num precision type hlow
  simp only [List.length_append, List.length_replicate] at hlen
  exact (paddings_fit type (needed_pos num base precision type) hroom).mp (by omega)

theorem exact_of_fits (hlow : 2 ≤ base) (hhigh : base ≤ 36)
    (hfits : Fits num base size precision type) : Exact num base size precision type := by
  obtain ⟨room, hroom, htext⟩ := number_text num size precision type hlow hhigh
  have hneeded := needed_pos num base precision type
  refine ⟨_, htext, ?_, ?_⟩
  · have htexts := length_text num precision type hlow
    have hsum := (paddings_fit type hneeded hroom).mpr hfits
    simp only [List.length_append, List.length_replicate]
    omega
  · have hzeros : List.replicate (paddings type room).2.1
          (if has type ZEROPAD then (48 : UInt8) else 32) =
        List.replicate (paddings type room).2.1 48 := by
      obtain hpad | hnone := paddings_zero hneeded hroom hfits
      · rw [if_pos hpad]
      · rw [hnone]
        rfl
    rw [hzeros]
    simp only [List.append_assoc]
    rw [← List.append_assoc (List.replicate _ 48), List.replicate_append_replicate]
    obtain ⟨c, cs, hcs, hc⟩ := behind_sign num type hlow hhigh
      ((paddings type room).2.1 + (precision.toInt - (shown num base type).length).toNat)
      (List.replicate (paddings type room).2.2 32)
    rw [hcs, readNumber_signs hc, ← hcs, ← length_special, List.drop_left,
      readDigits_shown hlow hhigh, sign_meant]

/-- For every number, width, precision and type and every base from 2 to 36, `number`
writes what it is to write if and only if `size` does not come round: as many characters
as the width and the parts ask for, with the sign and the base that the type says, which
denote the number. -/
theorem number_exact (hlow : 2 ≤ base) (hhigh : base ≤ 36) :
    Exact num base size precision type ↔ Fits num base size precision type :=
  ⟨fits_of_exact hlow hhigh, exact_of_fits hlow hhigh⟩

/-- The least `int`, with its sign, in a column of 14. -/
theorem number_exact_least : Exact (-2147483648) 10 14 (-1) (SIGN + ZEROPAD) :=
  (number_exact (by decide) (by decide)).mpr (.inl (by decide))

/-- Without a column, the least `int` as `size` becomes the greatest. -/
theorem not_number_exact : ¬∀ num base size precision type, 2 ≤ base → base ≤ 36 →
    Exact num base size precision type := by
  intro h
  have hfits := fits_of_exact (by decide) (by decide)
    (h 5 10 (-2147483648) (-1) LEFT (by decide) (by decide))
  unfold Fits at hfits
  revert hfits
  decide

/-! ## The columns of a table -/

theorem values_of_lt {b n : Nat} (h : n < b) : values b n = [n] := by
  unfold values
  by_cases hn : n = 0
  · rw [if_pos hn, hn]
  · rw [if_neg hn, Nat.digits_of_lt b n hn h]

theorem values_of_ge {b n : Nat} (hb : 1 < b) (h : b ≤ n) :
    values b n = n % b :: values b (n / b) := by
  have hn : n ≠ 0 := by omega
  have hquot : n / b ≠ 0 := (Nat.div_pos h (by omega)).ne'
  unfold values
  rw [if_neg hn, if_neg hquot, Nat.digits_def' hb (by omega)]

theorem chars_repr (small : Bool) (n : Nat) :
    PsInfo.chars (Nat.repr n) = ((values 10 n).map (digit small)).reverse := by
  have hone : ∀ n < 10, PsInfo.chars (Nat.repr n) = [digit small n] := by
    cases small <;> decide
  induction n using Nat.strongRecOn with
  | ind n ih =>
      by_cases hn : n < 10
      · rw [hone n hn, values_of_lt hn]
        rfl
      · have hge : 10 ≤ n := by omega
        have hlast := hone (n % 10) (Nat.mod_lt n (by omega))
        rw [Nat.repr_of_lt (Nat.mod_lt n (by omega))] at hlast
        rw [values_of_ge (by omega) hge, List.map_cons, List.reverse_cons,
          ← ih (n / 10) (by omega), ← hlast, Nat.repr_of_ge hge]
        simp [PsInfo.chars]

/-- The columns of `/proc/psinfo` are written by `%-010d`. -/
theorem number_psInfo (num : Int32) {size : Nat} (hsize : size < 0x80000000) :
    number num 10 (Int32.ofNat size) (-1) (ZEROPAD + LEFT + SIGN) =
      some (PsInfo.number num size) := by
  have hten : (2 : Int32) ≤ 10 := by decide
  obtain ⟨room, hroom, htext⟩ := number_text num (Int32.ofNat size) (-1)
    (ZEROPAD + LEFT + SIGN) hten (by decide)
  have hof : (Int32.ofNat size).toInt = size := Int32.toInt_ofNat_of_lt hsize
  have hlow := room.le_toInt
  have hhigh := room.toInt_lt
  have hmeant : meant num (ZEROPAD + LEFT + SIGN) = num.toInt := if_pos (by decide)
  have hshown : shown num 10 (ZEROPAD + LEFT + SIGN) =
      PsInfo.chars (Nat.repr num.toInt.natAbs) := by
    rw [chars_repr false, shown, hmeant]
    rfl
  have hsigns : signs num (ZEROPAD + LEFT + SIGN) = if num < 0 then PsInfo.chars "-" else [] := by
    have hsign : has (ZEROPAD + LEFT + SIGN) SIGN = true := by decide
    have hplus : has (ZEROPAD + LEFT + SIGN) PLUS = false := by decide
    have hspace : has (ZEROPAD + LEFT + SIGN) SPACE = false := by decide
    unfold signs signOf
    by_cases hneg : num < 0
    · simp [hneg, hsign]
      rfl
    · simp [hneg, hplus, hspace]
  have hneeded := length_text num (-1) (ZEROPAD + LEFT + SIGN) hten
  have hle : (signs num (ZEROPAD + LEFT + SIGN)).length ≤ 1 := by
    rw [hsigns]
    split
    · exact Nat.le_refl 1
    · exact Nat.zero_le 1
  have hspecial : special 10 (ZEROPAD + LEFT + SIGN) = [] := rfl
  have hpaddings : paddings (ZEROPAD + LEFT + SIGN) room = (0, 0, room.toInt.toNat) := rfl
  have hone : (-1 : Int32).toInt = -1 := rfl
  rw [hspecial, hone, List.length_nil] at hneeded
  have hzeros : ((-1 : Int) - (shown num 10 (ZEROPAD + LEFT + SIGN)).length).toNat = 0 := by omega
  have hroom' : room.toInt.toNat = size - (signs num (ZEROPAD + LEFT + SIGN)).length -
      (shown num 10 (ZEROPAD + LEFT + SIGN)).length := by
    have hdigits := length_shown_le num (ZEROPAD + LEFT + SIGN) hten
    omega
  rw [htext, hpaddings, hspecial, hone, hzeros]
  unfold PsInfo.number
  dsimp only
  rw [← hsigns, ← hshown, hroom']
  simp

end Number

end Linux011
