import Mathlib.Tactic.Common
import Mathlib.Tactic.IntervalCases
import Mathlib.Tactic.NormNum

/-!
# The clock at boot time

`time_init` reads the date from the clock of the machine, which goes on meanwhile, and
`kernel_mktime` makes a number of seconds of it. The clock keeps two digits of the year.

The calendar is defined by counting: `next` makes the date a second later out of a date, and
`date n` is what comes of it after `n` seconds. So nothing about months and leap years is
assumed. `kernel_mktime` is shown to count the other way: `seconds_next` says that a second later
its sum is one more, for all years that follow the rule of four, and `seconds_date` is the
induction. A year that is read from the clock has lost its century, so that the sum is right just
for the years before 2000, of which only 1900 and 2000 could differ in their leap days
(`mktime_iff`). For the loop of `time_init` the clock is any function of the number of the read
that does not go back and is fast enough; a round that begins and ends in the same second has
read the date of this second, and the loop ends with the first such round.
-/

namespace Linux011

namespace Clock

/-! ## The calendar -/

/-- `struct tm`, without the days of the week and of the year. -/
structure Tm where
  tm_sec : Nat
  tm_min : Nat
  tm_hour : Nat
  tm_mday : Nat
  tm_mon : Nat
  tm_year : Nat

/-- Of the year `tm_year + 1900`. -/
def leap (tm_year : Nat) : Prop :=
  (tm_year + 1900) % 4 = 0 ∧ (tm_year + 1900) % 100 ≠ 0 ∨ (tm_year + 1900) % 400 = 0

instance (tm_year : Nat) : Decidable (leap tm_year) := inferInstanceAs (Decidable (_ ∨ _))

def days (tm_year tm_mon : Nat) : Nat :=
  if tm_mon = 1 then if leap tm_year then 29 else 28
  else if tm_mon = 3 ∨ tm_mon = 5 ∨ tm_mon = 8 ∨ tm_mon = 10 then 30
  else 31

/-- A second later. -/
def next (tm : Tm) : Tm :=
  if tm.tm_sec < 59 then { tm with tm_sec := tm.tm_sec + 1 }
  else if tm.tm_min < 59 then { tm with tm_sec := 0, tm_min := tm.tm_min + 1 }
  else if tm.tm_hour < 23 then { tm with tm_sec := 0, tm_min := 0, tm_hour := tm.tm_hour + 1 }
  else if tm.tm_mday < days tm.tm_year tm.tm_mon then
    { tm with tm_sec := 0, tm_min := 0, tm_hour := 0, tm_mday := tm.tm_mday + 1 }
  else if tm.tm_mon < 11 then ⟨0, 0, 0, 1, tm.tm_mon + 1, tm.tm_year⟩
  else ⟨0, 0, 0, 1, 0, tm.tm_year + 1⟩

/-- The date `n` seconds after the beginning of 1970. -/
def date : Nat → Tm
  | 0 => ⟨0, 0, 0, 1, 0, 70⟩
  | n + 1 => next (date n)

structure Valid (tm : Tm) : Prop where
  sec : tm.tm_sec ≤ 59
  min : tm.tm_min ≤ 59
  hour : tm.tm_hour ≤ 23
  one : 1 ≤ tm.tm_mday
  mday : tm.tm_mday ≤ days tm.tm_year tm.tm_mon
  mon : tm.tm_mon ≤ 11
  year : 70 ≤ tm.tm_year

/-! ## `mktime.c` -/

def MINUTE : Int := 60
def HOUR : Int := 60 * MINUTE
def DAY : Int := 24 * HOUR
def YEAR : Int := 365 * DAY

def month : List Int :=
  [0, DAY * 31, DAY * (31 + 29), DAY * (31 + 29 + 31), DAY * (31 + 29 + 31 + 30),
    DAY * (31 + 29 + 31 + 30 + 31), DAY * (31 + 29 + 31 + 30 + 31 + 30),
    DAY * (31 + 29 + 31 + 30 + 31 + 30 + 31), DAY * (31 + 29 + 31 + 30 + 31 + 30 + 31 + 31),
    DAY * (31 + 29 + 31 + 30 + 31 + 30 + 31 + 31 + 30),
    DAY * (31 + 29 + 31 + 30 + 31 + 30 + 31 + 31 + 30 + 31),
    DAY * (31 + 29 + 31 + 30 + 31 + 30 + 31 + 31 + 30 + 31 + 30)]

/-- `kernel_mktime`, before the result is cut to a `long`. -/
def seconds (tm : Tm) : Int :=
  let year : Int := tm.tm_year - 70
  let res := YEAR * year + DAY * (year + 1).tdiv 4
  let res := res + month.getD tm.tm_mon 0
  let res := if tm.tm_mon > 1 ∧ (year + 2).tmod 4 ≠ 0 then res - DAY else res
  let res := res + DAY * (tm.tm_mday - 1)
  let res := res + HOUR * tm.tm_hour
  let res := res + MINUTE * tm.tm_min
  res + tm.tm_sec

def kernelMktime (tm : Tm) : Int := (seconds tm).bmod 0x100000000

/-! ## `time_init` -/

/-- `BCD_TO_BIN` -/
def bcdToBin (val : Nat) : Nat := (val &&& 15) + (val >>> 4) * 10

def binToBcd (x : Nat) : Nat := x / 10 * 16 + x % 10

/-- What the clock has at an address in second `n`. -/
def cmosRead (n addr : Nat) : Nat :=
  match addr with
  | 0 => binToBcd (date n).tm_sec
  | 2 => binToBcd (date n).tm_min
  | 4 => binToBcd (date n).tm_hour
  | 7 => binToBcd (date n).tm_mday
  | 8 => binToBcd ((date n).tm_mon + 1)
  | 9 => binToBcd ((date n).tm_year % 100)
  | _ => 0

/-- `time_init` from its round `j` on, with `fuel` rounds at most: `clock k` is the second of
`CMOS_READ` number `k`. -/
def timeInit (clock : Nat → Nat) : Nat → Nat → Option Int
  | 0, _ => none
  | fuel + 1, j =>
      let tm_sec := cmosRead (clock (7 * j)) 0
      let tm_min := cmosRead (clock (7 * j + 1)) 2
      let tm_hour := cmosRead (clock (7 * j + 2)) 4
      let tm_mday := cmosRead (clock (7 * j + 3)) 7
      let tm_mon := cmosRead (clock (7 * j + 4)) 8
      let tm_year := cmosRead (clock (7 * j + 5)) 9
      if tm_sec ≠ cmosRead (clock (7 * j + 6)) 0 then timeInit clock fuel (j + 1)
      else some (kernelMktime
        ⟨bcdToBin tm_sec, bcdToBin tm_min, bcdToBin tm_hour, bcdToBin tm_mday,
          bcdToBin tm_mon - 1, bcdToBin tm_year⟩)

/-! ## The seconds are counted -/

variable {tm : Tm} {n : Nat}

theorem days_le (tm_year tm_mon : Nat) : 28 ≤ days tm_year tm_mon ∧ days tm_year tm_mon ≤ 31 := by
  unfold days
  split
  · split <;> decide
  · split <;> decide

theorem Valid.next (h : Valid tm) : Valid (next tm) := by
  obtain ⟨hsec, hmin, hhour, hone, hmday, hmon, hyear⟩ := h
  have hfirst : ∀ tm_year tm_mon, 1 ≤ days tm_year tm_mon := fun tm_year tm_mon =>
    Nat.le_trans (by decide) (days_le tm_year tm_mon).1
  unfold Clock.next
  split
  · rename_i h
    exact ⟨h, hmin, hhour, hone, hmday, hmon, hyear⟩
  split
  · rename_i h
    exact ⟨Nat.zero_le _, h, hhour, hone, hmday, hmon, hyear⟩
  split
  · rename_i h
    exact ⟨Nat.zero_le _, Nat.zero_le _, h, hone, hmday, hmon, hyear⟩
  split
  · rename_i h
    exact ⟨Nat.zero_le _, Nat.zero_le _, Nat.zero_le _, Nat.le_add_left .., h, hmon, hyear⟩
  split
  · rename_i h
    exact ⟨Nat.zero_le _, Nat.zero_le _, Nat.zero_le _, Nat.le_refl 1, hfirst .., h, hyear⟩
  · exact ⟨Nat.zero_le _, Nat.zero_le _, Nat.zero_le _, Nat.le_refl 1, hfirst .., Nat.zero_le _,
      Nat.le_succ_of_le hyear⟩

theorem date_valid (n : Nat) : Valid (date n) := by
  induction n with
  | zero => exact ⟨by decide, by decide, by decide, by decide, by decide, by decide, by decide⟩
  | succ n ih => exact ih.next

theorem next_sec (tm : Tm) :
    (next tm).tm_sec = if tm.tm_sec < 59 then tm.tm_sec + 1 else 0 := by
  unfold next
  split
  · rfl
  split
  · rfl
  split
  · rfl
  split
  · rfl
  split <;> rfl

theorem date_sec (n : Nat) : (date n).tm_sec = n % 60 := by
  induction n with
  | zero => rfl
  | succ n ih =>
      have hsec := (date_valid n).sec
      show (next (date n)).tm_sec = _
      rw [next_sec]
      split <;> omega

/-- Up to 2099 every fourth year is a leap year. -/
theorem leap_iff (hyear : 70 ≤ tm.tm_year) (hlt : tm.tm_year < 200) :
    leap tm.tm_year ↔ tm.tm_year % 4 = 0 := by
  unfold leap
  omega

/-- The table has the days of a leap year. -/
theorem month_succ {m : Nat} (hm : m < 11) (y : Nat) : month.getD (m + 1) 0 =
    month.getD m 0 + DAY * (if m = 1 then 29 else days y m) := by
  interval_cases m <;> simp [month, days, DAY, HOUR, MINUTE]

/-- The same with the years as they are for a date behind 1970. -/
theorem seconds_eq (hyear : 70 ≤ tm.tm_year) : seconds tm =
    YEAR * (tm.tm_year - 70) + DAY * ((tm.tm_year - 69) / 4) + month.getD tm.tm_mon 0 -
      (if 1 < tm.tm_mon ∧ tm.tm_year % 4 ≠ 0 then DAY else 0) + DAY * (tm.tm_mday - 1) +
      HOUR * tm.tm_hour + MINUTE * tm.tm_min + tm.tm_sec := by
  have hdiv : ((tm.tm_year : Int) - 70 + 1).tdiv 4 = (tm.tm_year - 69) / 4 := by
    rw [Int.tdiv_eq_ediv_of_nonneg (by omega)]
    congr 1
    omega
  have hmod : ((tm.tm_year : Int) - 70 + 2).tmod 4 ≠ 0 ↔ tm.tm_year % 4 ≠ 0 := by
    rw [Int.tmod_eq_emod_of_nonneg (by omega)]
    omega
  unfold seconds
  dsimp only
  rw [hdiv]
  by_cases hadjust : 1 < tm.tm_mon ∧ tm.tm_year % 4 ≠ 0
  · rw [if_pos hadjust, if_pos ⟨hadjust.1, hmod.mpr hadjust.2⟩]
  · rw [if_neg hadjust, if_neg fun h => hadjust ⟨h.1, hmod.mp h.2⟩, Int.sub_zero]

theorem seconds_next (h : Valid tm) (hlt : tm.tm_year < 200) :
    seconds (next tm) = seconds tm + 1 := by
  have hsec := h.sec
  have hmin := h.min
  have hhour := h.hour
  have hmday := h.mday
  have hmon := h.mon
  rw [seconds_eq h.next.year, seconds_eq h.year]
  unfold next
  split
  · simp only [Nat.cast_add, Nat.cast_one]
    omega
  have hlast : tm.tm_sec = 59 := by omega
  split
  · simp only [hlast, HOUR, MINUTE]
    push_cast
    omega
  have hlast : tm.tm_min = 59 := by omega
  split
  · simp only [*, HOUR, MINUTE]
    push_cast
    omega
  have hlast : tm.tm_hour = 23 := by omega
  split
  · simp only [*, DAY, HOUR, MINUTE]
    push_cast
    omega
  have hlast : tm.tm_mday = days tm.tm_year tm.tm_mon := by omega
  split
  · rename_i hm
    have hleap := leap_iff h.year hlt
    have hsucc := month_succ hm tm.tm_year
    simp only [*, DAY, HOUR, MINUTE]
    -- only behind February it matters what the table takes the year for
    rcases Nat.lt_trichotomy tm.tm_mon 1 with hlow | hfeb | hhigh
    · rw [if_neg (Nat.ne_of_lt hlow), if_neg fun h => by omega, if_neg fun h => by omega]
      push_cast
      omega
    · have hdays : days tm.tm_year 1 = if leap tm.tm_year then 29 else 28 := rfl
      rw [hfeb, if_pos rfl, hdays]
      by_cases hfour : tm.tm_year % 4 = 0
      · rw [if_pos (hleap.mpr hfour), if_neg fun h => h.2 hfour, if_neg fun h => h.2 hfour]
        push_cast
        omega
      · rw [if_neg fun h => hfour (hleap.mp h), if_pos ⟨by decide, hfour⟩,
          if_neg fun h => absurd h.1 (Nat.lt_irrefl 1)]
        push_cast
        omega
    · rw [if_neg (Nat.ne_of_gt hhigh)]
      by_cases hfour : tm.tm_year % 4 = 0
      · rw [if_neg fun h => h.2 hfour, if_neg fun h => h.2 hfour]
        push_cast
        omega
      · rw [if_pos ⟨Nat.lt_succ_of_lt hhigh, hfour⟩, if_pos ⟨hhigh, hfour⟩]
        push_cast
        omega
  · rename_i hm
    have hmon : tm.tm_mon = 11 := by omega
    have hdays : days tm.tm_year 11 = 31 := rfl
    have hmonth : month.getD 11 0 = DAY * 335 := rfl
    have hfirst : month.getD 0 0 = 0 := rfl
    simp only [*, YEAR, DAY, HOUR, MINUTE]
    by_cases hfour : tm.tm_year % 4 = 0
    · rw [if_neg fun h => absurd h.1 (by decide), if_neg fun h => h.2 hfour]
      push_cast
      omega
    · rw [if_neg fun h => absurd h.1 (by decide), if_pos ⟨by decide, hfour⟩]
      push_cast
      omega

theorem month_bounds {m : Nat} (hm : m ≤ 11) :
    0 ≤ month.getD m 0 ∧ (1 < m → DAY ≤ month.getD m 0) := by
  interval_cases m <;> simp [month, DAY, HOUR, MINUTE]

theorem seconds_ge (h : Valid tm) : YEAR * (tm.tm_year - 70) ≤ seconds tm := by
  have hyear := h.year
  have hone := h.one
  obtain ⟨hpos, hbehind⟩ := month_bounds h.mon
  rw [seconds_eq hyear]
  simp only [DAY, HOUR, MINUTE, YEAR] at hbehind ⊢
  split
  · rename_i hadjust
    have hday := hbehind hadjust.1
    omega
  · omega

/-- Up to the year 2038 the seconds are counted from the beginning of 1970. -/
theorem seconds_date (hn : n < 0x80000000) : seconds (date n) = n := by
  induction n with
  | zero => rfl
  | succ n ih =>
      have hdate := ih (Nat.lt_of_succ_lt hn)
      have hlt : (date n).tm_year < 200 := by
        have hge := seconds_ge (date_valid n)
        simp only [hdate, YEAR, DAY, HOUR, MINUTE] at hge
        omega
      show seconds (next (date n)) = _
      rw [seconds_next (date_valid n) hlt, hdate, Nat.cast_add, Nat.cast_one]

theorem year_le (hn : n < 0x80000000) : (date n).tm_year ≤ 138 := by
  have hge := seconds_ge (date_valid n)
  simp only [seconds_date hn, YEAR, DAY, HOUR, MINUTE] at hge
  omega

/-! ## The year of two digits -/

theorem bcd_bin (x : Nat) : bcdToBin (binToBcd x) = x := by
  unfold bcdToBin binToBcd
  rw [Nat.and_two_pow_sub_one_eq_mod _ 4, Nat.shiftRight_eq_div_pow]
  omega

/-- What `kernel_mktime` is given. -/
def readDate (n : Nat) : Tm := { date n with tm_year := (date n).tm_year % 100 }

/-- A date of the year 2000 or later is taken for one a hundred years before. -/
theorem seconds_behind (hlow : 100 ≤ tm.tm_year) (hhigh : tm.tm_year ≤ 138) :
    seconds tm - 3156624000 ≤ seconds { tm with tm_year := tm.tm_year % 100 } ∧
      seconds { tm with tm_year := tm.tm_year % 100 } ≤ seconds tm - 3153600000 := by
  have hyear : ((tm.tm_year % 100 : Nat) : Int) = tm.tm_year - 100 := by omega
  have hdiv : ((tm.tm_year : Int) - 100 - 70 + 1).tdiv 4 = -((169 - tm.tm_year) / 4) := by
    rw [show (tm.tm_year : Int) - 100 - 70 + 1 = -(169 - tm.tm_year) by omega, Int.neg_tdiv,
      Int.tdiv_eq_ediv_of_nonneg (by omega)]
  have hmod : ((tm.tm_year : Int) - 100 - 70 + 2).tmod 4 ≠ 0 ↔ tm.tm_year % 4 ≠ 0 := by
    rw [show (tm.tm_year : Int) - 100 - 70 + 2 = -(168 - tm.tm_year) by omega, Int.neg_tmod,
      Int.tmod_eq_emod_of_nonneg (by omega)]
    omega
  rw [seconds_eq (show 70 ≤ tm.tm_year by omega)]
  unfold seconds
  dsimp only
  rw [hyear, hdiv]
  by_cases hadjust : 1 < tm.tm_mon ∧ tm.tm_year % 4 ≠ 0
  · rw [if_pos hadjust, if_pos ⟨hadjust.1, hmod.mpr hadjust.2⟩]
    simp only [YEAR, DAY, HOUR, MINUTE]
    omega
  · rw [if_neg hadjust, if_neg fun h => hadjust ⟨h.1, hmod.mp h.2⟩]
    simp only [YEAR, DAY, HOUR, MINUTE]
    omega

theorem mktime_iff (hn : n < 0x80000000) :
    kernelMktime (readDate n) = n ↔ (date n).tm_year < 100 := by
  have hdate := seconds_date hn
  constructor
  · intro h
    by_contra hlate
    obtain ⟨hlow, hhigh⟩ := seconds_behind (Nat.le_of_not_lt hlate) (year_le hn)
    rw [hdate] at hlow hhigh
    unfold kernelMktime readDate Int.bmod at h
    dsimp only at h
    generalize seconds { date n with tm_year := (date n).tm_year % 100 } = x at h hlow hhigh
    norm_num at h
    split at h <;> omega
  · intro hyear
    have hsame : readDate n = date n := by
      unfold readDate
      rw [Nat.mod_eq_of_lt hyear]
    unfold kernelMktime Int.bmod
    rw [hsame, hdate]
    dsimp only
    norm_num
    omega

/-! ## Reading while the clock goes on -/

variable {clock : Nat → Nat} {fuel j : Nat} {r : Int}

/-- Two reads of the second tell whether a second has gone by. -/
theorem sec_iff {m : Nat} (hle : n ≤ m) (hlt : m < n + 60) :
    cmosRead n 0 = cmosRead m 0 ↔ n = m := by
  refine ⟨fun h => ?_, fun h => by rw [h]⟩
  have hsec := congrArg bcdToBin h
  simp only [cmosRead, bcd_bin, date_sec] at hsec
  omega

/-- A round in which the second has not changed has read one date. -/
theorem round_reads (hsame : ∀ k ≤ 6, clock (7 * j + k) = n) :
    (⟨bcdToBin (cmosRead (clock (7 * j)) 0), bcdToBin (cmosRead (clock (7 * j + 1)) 2),
      bcdToBin (cmosRead (clock (7 * j + 2)) 4), bcdToBin (cmosRead (clock (7 * j + 3)) 7),
      bcdToBin (cmosRead (clock (7 * j + 4)) 8) - 1,
      bcdToBin (cmosRead (clock (7 * j + 5)) 9)⟩ : Tm) = readDate n := by
  have hzero : clock (7 * j) = n := hsame 0 (by decide)
  rw [hzero, hsame 1 (by decide), hsame 2 (by decide), hsame 3 (by decide), hsame 4 (by decide),
    hsame 5 (by decide)]
  simp only [cmosRead, bcd_bin]
  rfl

theorem same_second (hmono : ∀ k l, k ≤ l → clock k ≤ clock l)
    (h : clock (7 * j) = clock (7 * j + 6)) {k : Nat} (hk : k ≤ 6) :
    clock (7 * j + k) = clock (7 * j) :=
  Nat.le_antisymm ((hmono _ _ (Nat.add_le_add_left hk _)).trans_eq h.symm)
    (hmono _ _ (Nat.le_add_right ..))

theorem timeInit_spec (hmono : ∀ k l, k ≤ l → clock k ≤ clock l)
    (hfast : ∀ j, clock (7 * j + 6) < clock (7 * j) + 60) (fuel j : Nat) :
    timeInit clock fuel j = none ∧ (∀ i < fuel, clock (7 * (j + i)) ≠ clock (7 * (j + i) + 6)) ∨
      ∃ i < fuel, (∀ i' < i, clock (7 * (j + i')) ≠ clock (7 * (j + i') + 6)) ∧
        (∀ k ≤ 6, clock (7 * (j + i) + k) = clock (7 * (j + i))) ∧
        timeInit clock fuel j = some (kernelMktime (readDate (clock (7 * (j + i))))) := by
  induction fuel generalizing j with
  | zero => exact .inl ⟨rfl, fun i hi => absurd hi (Nat.not_lt_zero i)⟩
  | succ fuel ih =>
      have hsec := sec_iff (hmono _ _ (Nat.le_add_right (7 * j) 6)) (hfast j)
      by_cases hsame : clock (7 * j) = clock (7 * j + 6)
      · have hall : ∀ k ≤ 6, clock (7 * j + k) = clock (7 * j) := fun k hk =>
          same_second hmono hsame hk
        refine .inr ⟨0, Nat.succ_pos fuel, fun i' hi' => absurd hi' (Nat.not_lt_zero i'), hall, ?_⟩
        unfold timeInit
        dsimp only
        rw [if_neg (not_not.mpr (hsec.mpr hsame)), round_reads hall]
        rfl
      · have hagain : timeInit clock (fuel + 1) j = timeInit clock fuel (j + 1) :=
          if_pos fun h => hsame (hsec.mp h)
        have hfirst : ∀ n, (∀ i < n, clock (7 * (j + 1 + i)) ≠ clock (7 * (j + 1 + i) + 6)) →
            ∀ i < n + 1, clock (7 * (j + i)) ≠ clock (7 * (j + i) + 6) := by
          intro n hn i hi
          cases i with
          | zero => exact hsame
          | succ i =>
              rw [← Nat.succ_add_eq_add_succ]
              exact hn i (Nat.lt_of_succ_lt_succ hi)
        rw [hagain]
        rcases ih (j + 1) with ⟨hnone, hnever⟩ | ⟨i, hi, hnever, hall, hsome⟩
        · exact .inl ⟨hnone, hfirst fuel hnever⟩
        · have hbefore := hfirst i hnever
          rw [Nat.succ_add_eq_add_succ] at hall hsome
          exact .inr ⟨i + 1, Nat.succ_lt_succ hi, hbefore, hall, hsome⟩

/-- `time_init` ends with the first round within one second, if there is one, for any
clock that does not go back and takes less than a minute for a round. It has then read
the date of that second, and the time that `kernel_mktime` makes of it is right for the
years before 2000 only. -/
theorem startup_time_exact (hmono : ∀ k l, k ≤ l → clock k ≤ clock l)
    (hfast : ∀ j, clock (7 * j + 6) < clock (7 * j) + 60) (hrange : ∀ k, clock k < 0x80000000)
    (fuel : Nat) :
    timeInit clock fuel 0 = none ∧ (∀ j < fuel, clock (7 * j) ≠ clock (7 * j + 6)) ∨
      ∃ j < fuel, ∃ r, timeInit clock fuel 0 = some r ∧
        (∀ i < j, clock (7 * i) ≠ clock (7 * i + 6)) ∧
        (∀ k ≤ 6, clock (7 * j + k) = clock (7 * j)) ∧
        (r = clock (7 * j) ↔ (date (clock (7 * j))).tm_year < 100) := by
  have hspec := timeInit_spec hmono hfast fuel 0
  simp only [Nat.zero_add] at hspec
  rcases hspec with hnone | ⟨j, hj, hbefore, hall, hsome⟩
  · exact .inl hnone
  · exact .inr ⟨j, hj, _, hsome, hbefore, hall, mktime_iff (hrange _)⟩

/-- A minute ends in the first round. -/
def lateMinute (k : Nat) : Nat := if k < 3 then 59 else 60

theorem startup_time_exact_late : ∃ j < 2, ∃ r, timeInit lateMinute 2 0 = some r ∧
    (∀ i < j, lateMinute (7 * i) ≠ lateMinute (7 * i + 6)) ∧
    (∀ k ≤ 6, lateMinute (7 * j + k) = lateMinute (7 * j)) ∧
    (r = lateMinute (7 * j) ↔ (date (lateMinute (7 * j))).tm_year < 100) := by
  have hmono : ∀ k l, k ≤ l → lateMinute k ≤ lateMinute l := by
    intro k l hkl
    unfold lateMinute
    split
    · split <;> decide
    · rw [if_neg (by omega)]
  have hbounds : ∀ k, 59 ≤ lateMinute k ∧ lateMinute k ≤ 60 := by
    intro k
    unfold lateMinute
    split <;> decide
  have hfast : ∀ j, lateMinute (7 * j + 6) < lateMinute (7 * j) + 60 := fun j =>
    Nat.lt_of_le_of_lt (hbounds _).2 (by have := (hbounds (7 * j)).1; omega)
  have hrange : ∀ k, lateMinute k < 0x80000000 := fun k =>
    Nat.lt_of_le_of_lt (hbounds k).2 (by decide)
  rcases startup_time_exact hmono hfast hrange 2 with ⟨-, hnever⟩ | h
  · exact absurd rfl (hnever 1 (by decide))
  · exact h

end Clock

end Linux011
