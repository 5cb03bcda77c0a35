import Linux011.StringOps
import Linux011.Tty

/-!
# The console

`con_write` of `kernel/chr_drv/console.c` with its helpers, and `con_init`. The variables
are 32 bit words, the screen is video memory, and the registers of the controller are those
that `set_origin` and `set_cursor` set.

A step is a byte that `con_write` takes off the write queue. `respond` puts the answer into the
read queue and calls `copy_to_cooked`, which may call `con_write` again for the echo; nothing is
done to the console behind it, so that the bytes of the call inside are further steps.

`con_init` finds the number of columns in a byte and takes 25 lines; here both are words.

The invariant `Safe` is about numbers: the cursor is at its row and column, the screen is a
number of rows in the video memory, and the scroll region is on the screen. The variables are
words, so that each piece of the code has one lemma that says what it does to the numbers and
that nothing wraps; these are the lemmas of `Safe` with the names of the functions. The stores go
through `StringOps`, where every store is recorded, and a repeated instruction stays within
bounds if its first and last place do. In this way the parts of `con_write` are put together
state by state of its machine, as the source falls through them, and a call is the bytes that it
takes one after the other (`con_write_run`).

Two places need a closer look: the column may be one behind the last, which is mended before the
next character is shown, and when the screen comes to the end of the video memory it is copied to
the start, so that the screen and a line must fit.
-/

namespace Linux011

open Function Runs StringOps Tty

namespace Console

inductive VideoType where
  | MDA
  | CGA
  | EGAM
  | EGAC
  deriving DecidableEq

/-- What `con_init` finds out, and what stays as it is. -/
structure Video where
  video_type : VideoType
  video_num_columns : UInt32
  video_size_row : UInt32
  video_num_lines : UInt32
  video_mem_start : UInt32
  video_mem_end : UInt32
  video_erase_char : UInt16

def NPAR : Nat := 16

/-- `state`: 0 to 4. -/
inductive Esc where
  | text
  | escape
  | bracket
  | params
  | final

/-- The other variables, the memory and the registers of the controller. -/
structure State where
  origin : UInt32
  scr_end : UInt32
  pos : UInt32
  x : UInt32
  y : UInt32
  top : UInt32
  bottom : UInt32
  state : Esc
  npar : Fin NPAR
  par : Fin NPAR → UInt32
  ques : Bool
  attr : UInt8
  saved_x : UInt32
  saved_y : UInt32
  ram : Ram
  reg : UInt8 → UInt8

def Video.ega (v : Video) : Bool := v.video_type = .EGAC || v.video_type = .EGAM

namespace State

variable (v : Video) (s : State)

/-- It thinks that `x` behind the last column is right. -/
def gotoxy (new_x new_y : UInt32) : State :=
  if v.video_num_columns < new_x ∨ v.video_num_lines ≤ new_y then s
  else { s with
    x := new_x
    y := new_y
    pos := s.origin + new_y * v.video_size_row + (new_x <<< 1) }

/-- A place in the video memory, for two registers of the controller. -/
def outb_p (high : UInt8) (place : UInt32) : State :=
  let offset := place - v.video_mem_start
  let reg := update s.reg high (offset >>> 9).toUInt8
  { s with reg := update reg (high + 1) (offset >>> 1).toUInt8 }

def set_origin : State := s.outb_p v 12 s.origin

def set_cursor : State := s.outb_p v 14 s.pos

/-- `count` words from `start` on are erased. -/
def erase (count start : UInt32) : State :=
  { s with ram := s.ram.stosw .cld v.video_erase_char count.toNat start }

/-- The lines from `top` to `bottom` go up, and the last one is cleared. -/
def rollUp : State :=
  let ecx := ((s.bottom - s.top - 1) * v.video_num_columns) >>> 1
  let (edi, ram) := s.ram.movsl .cld ecx.toNat (s.origin + v.video_size_row * s.top)
    (s.origin + v.video_size_row * (s.top + 1))
  { s with ram := ram.stosw .cld v.video_erase_char v.video_num_columns.toNat edi }

/-- The screen is copied to the start of the video memory, but for the first line. -/
def rewind : State :=
  let ecx := ((v.video_num_lines - 1) * v.video_num_columns) >>> 1
  let (edi, ram) := s.ram.movsl .cld ecx.toNat v.video_mem_start s.origin
  { s with
    ram := ram.stosw .cld v.video_erase_char v.video_num_columns.toNat edi
    scr_end := s.scr_end - (s.origin - v.video_mem_start)
    pos := s.pos - (s.origin - v.video_mem_start)
    origin := v.video_mem_start }

/-- The screen is a line further in the video memory, and the last line is cleared. -/
def advance : State :=
  let s := { s with
    origin := s.origin + v.video_size_row
    pos := s.pos + v.video_size_row
    scr_end := s.scr_end + v.video_size_row }
  if v.video_mem_end < s.scr_end then s.rewind v
  else s.erase v v.video_num_columns (s.scr_end - v.video_size_row)

def scrup : State :=
  if v.ega ∧ s.top = 0 ∧ s.bottom = v.video_num_lines then (s.advance v).set_origin v
  else s.rollUp v

/-- The same for every video type. -/
def scrdown : State :=
  let ecx := ((s.bottom - s.top - 1) * v.video_num_columns) >>> 1
  let (edi, ram) := s.ram.movsl .std ecx.toNat (s.origin + v.video_size_row * s.bottom - 4)
    (s.origin + v.video_size_row * (s.bottom - 1) - 4)
  { s with ram := ram.stosw .std v.video_erase_char v.video_num_columns.toNat (edi + 2) }

def lf : State :=
  if s.y + 1 < s.bottom then { s with y := s.y + 1, pos := s.pos + v.video_size_row }
  else s.scrup v

def ri : State :=
  if s.top < s.y then { s with y := s.y - 1, pos := s.pos - v.video_size_row }
  else s.scrdown v

def cr : State := { s with pos := s.pos - (s.x <<< 1), x := 0 }

def del : State :=
  if s.x ≠ 0 then { s with
    pos := s.pos - 2
    x := s.x - 1
    ram := s.ram.storew (s.pos - 2) v.video_erase_char }
  else s

def csi_J (par : UInt32) : State :=
  if par = 0 then s.erase v ((s.scr_end - s.pos) >>> 1) s.pos
  else if par = 1 then s.erase v ((s.pos - s.origin) >>> 1) s.origin
  else if par = 2 then s.erase v (v.video_num_columns * v.video_num_lines) s.origin
  else s

def csi_K (par : UInt32) : State :=
  if par = 0 then
    if v.video_num_columns ≤ s.x then s else s.erase v (v.video_num_columns - s.x) s.pos
  else if par = 1 then
    s.erase v (if s.x < v.video_num_columns then s.x else v.video_num_columns)
      (s.pos - (s.x <<< 1))
  else if par = 2 then s.erase v v.video_num_columns (s.pos - (s.x <<< 1))
  else s

def sgr (attr : UInt8) (par : UInt32) : UInt8 :=
  if par = 0 then 0x07
  else if par = 1 then 0x0f
  else if par = 4 then 0x0f
  else if par = 7 then 0x70
  else if par = 27 then 0x07
  else attr

def csi_m : State :=
  let used := (List.finRange NPAR).filter fun i => decide (i ≤ s.npar)
  { s with attr := used.foldl (fun attr i => sgr attr (s.par i)) s.attr }

/-- The loop of `insert_char`: a word is put in the place of each of `n` words. -/
def insertWords : Nat → UInt32 → UInt16 → Ram → Ram
  | 0, _, _, ram => ram
  | n + 1, p, old, ram => insertWords n (p + 2) (ram.loadw p) (ram.storew p old)

def insert_char : State :=
  let n := v.video_num_columns.toNat - s.x.toNat
  { s with ram := insertWords n s.pos v.video_erase_char s.ram }

/-- The scroll region is from `y` to the end of the screen for the time of a call. -/
def below (f : State → State) : State :=
  let s' := f { s with top := s.y, bottom := v.video_num_lines }
  { s' with top := s.top, bottom := s.bottom }

def insert_line : State := s.below v fun s => s.scrdown v

/-- The loop of `delete_char`: each of `n` words becomes the next one, and the word behind
them is erased. -/
def deleteWords (erase_char : UInt16) : Nat → UInt32 → Ram → Ram
  | 0, p, ram => ram.storew p erase_char
  | n + 1, p, ram => deleteWords erase_char n (p + 2) (ram.storew p (ram.loadw (p + 2)))

def delete_char : State :=
  let n := v.video_num_columns.toNat - s.x.toNat - 1
  if v.video_num_columns ≤ s.x then s
  else { s with ram := deleteWords v.video_erase_char n s.pos s.ram }

def delete_line : State := s.below v fun s => s.scrup v

/-- As often as the parameter says, at least once and at most `most` times. -/
def times (most nr : UInt32) (f : State → State) : State :=
  let nr := if most < nr then most else if nr = 0 then 1 else nr
  f^[nr.toNat] s

def csi_at (nr : UInt32) : State := s.times v.video_num_columns nr fun s => s.insert_char v
def csi_L (nr : UInt32) : State := s.times v.video_num_lines nr fun s => s.insert_line v
def csi_P (nr : UInt32) : State := s.times v.video_num_columns nr fun s => s.delete_char v
def csi_M (nr : UInt32) : State := s.times v.video_num_lines nr fun s => s.delete_line v

def save_cur : State := { s with saved_x := s.x, saved_y := s.y }

def restore_cur : State := s.gotoxy v s.saved_x s.saved_y

/-! ### `con_write` -/

def par0 : Fin NPAR := ⟨0, Nat.zero_lt_succ 15⟩
def par1 : Fin NPAR := ⟨1, Nat.succ_lt_succ (Nat.zero_lt_succ 14)⟩

/-- `if (par[i]) par[i]--;` -/
def decPar (i : Fin NPAR) : State :=
  { s with par := update s.par i (if s.par i ≠ 0 then s.par i - 1 else s.par i) }

/-- `if (!par[0]) par[0]++;` -/
def incPar : State :=
  { s with par := update s.par par0 (if s.par par0 = 0 then s.par par0 + 1 else s.par par0) }

/-- `if (!par[1]) par[1] = video_num_lines;` -/
def linesPar : State :=
  { s with par := update s.par par1 (if s.par par1 = 0 then v.video_num_lines else s.par par1) }

def setRegion (top bottom : UInt32) : State :=
  if top < bottom ∧ bottom ≤ v.video_num_lines then { s with top := top, bottom := bottom } else s

def csi_r : State :=
  let s := (s.decPar par0).linesPar v
  s.setRegion v (s.par par0) (s.par par1)

def ch (c : Char) : Int8 := .ofNat c.toNat

/-- `x -= video_num_columns` to the next line. -/
def wrap : State :=
  lf v { s with x := s.x - v.video_num_columns, pos := s.pos - v.video_size_row }

/-- A character that is shown. -/
def put (c : Int8) : State :=
  let s := if v.video_num_columns ≤ s.x then s.wrap v else s
  { s with
    ram := s.ram.storew s.pos (s.attr.toUInt16 <<< 8 ||| c.toUInt8.toUInt16)
    pos := s.pos + 2
    x := s.x + 1 }

def tab : State :=
  let c := 8 - (s.x &&& 7)
  let s := { s with x := s.x + c, pos := s.pos + (c <<< 1) }
  if v.video_num_columns < s.x then s.wrap v else s

/-- State 0. -/
def text (t : Termios) (c : Int8) : State :=
  if 31 < c ∧ c < 127 then s.put v c
  else if c = 27 then { s with state := .escape }
  else if c = 10 ∨ c = 11 ∨ c = 12 then s.lf v
  else if c = 13 then s.cr
  else if Tty.eq c t.ERASE_CHAR then s.del v
  else if c = 8 then
    if s.x ≠ 0 then { s with x := s.x - 1, pos := s.pos - 2 } else s
  else if c = 9 then s.tab v
  else s

/-- State 1; the last two tests are of `x`. -/
def escape (c : Int8) : State :=
  let s := { s with state := .text }
  if c = ch '[' then { s with state := .bracket }
  else if c = ch 'E' then s.gotoxy v 0 (s.y + 1)
  else if c = ch 'M' then s.ri v
  else if c = ch 'D' then s.lf v
  else if c = ch 'Z' then s
  else if s.x = 55 then s.save_cur
  else if s.x = 56 then s.restore_cur v
  else s

/-- `gotoxy` to a place that the parameters give. -/
def goto (place : State → UInt32 × UInt32) : State := s.gotoxy v (place s).1 (place s).2

/-- The character that ends an escape sequence; 96 is the grave accent. -/
def dispatch (c : Int8) : State :=
  if c = ch 'G' ∨ c = 96 then (s.decPar par0).goto v fun s => (s.par par0, s.y)
  else if c = ch 'A' then s.incPar.goto v fun s => (s.x, s.y - s.par par0)
  else if c = ch 'B' ∨ c = ch 'e' then s.incPar.goto v fun s => (s.x, s.y + s.par par0)
  else if c = ch 'C' ∨ c = ch 'a' then s.incPar.goto v fun s => (s.x + s.par par0, s.y)
  else if c = ch 'D' then s.incPar.goto v fun s => (s.x - s.par par0, s.y)
  else if c = ch 'E' then s.incPar.goto v fun s => (0, s.y + s.par par0)
  else if c = ch 'F' then s.incPar.goto v fun s => (0, s.y - s.par par0)
  else if c = ch 'd' then (s.decPar par0).goto v fun s => (s.x, s.par par0)
  else if c = ch 'H' ∨ c = ch 'f' then
    ((s.decPar par0).decPar par1).goto v fun s => (s.par par1, s.par par0)
  else if c = ch 'J' then s.csi_J v (s.par par0)
  else if c = ch 'K' then s.csi_K v (s.par par0)
  else if c = ch 'L' then s.csi_L v (s.par par0)
  else if c = ch 'M' then s.csi_M v (s.par par0)
  else if c = ch 'P' then s.csi_P v (s.par par0)
  else if c = ch '@' then s.csi_at v (s.par par0)
  else if c = ch 'm' then s.csi_m
  else if c = ch 'r' then s.csi_r v
  else if c = ch 's' then s.save_cur
  else if c = ch 'u' then s.restore_cur v
  else s

/-- State 4. -/
def final (c : Int8) : State := dispatch v { s with state := .text } c

/-- State 3, and what falls through to 4. -/
def params (c : Int8) : State :=
  if h : c = ch ';' ∧ s.npar.val + 1 < NPAR then { s with npar := ⟨s.npar.val + 1, h.2⟩ }
  else if ch '0' ≤ c ∧ c ≤ ch '9' then
    { s with par := update s.par s.npar (10 * s.par s.npar + .ofInt c.toInt - 48) }
  else s.final v c

/-- State 2, and what falls through to 3. -/
def bracket (c : Int8) : State :=
  let s := { s with
    par := fun _ => 0
    npar := par0
    state := .params
    ques := decide (c = ch '?') }
  if c = ch '?' then s else s.params v c

/-- A round of the loop of `con_write`. -/
def byte (t : Termios) (c : Int8) : State :=
  match s.state with
  | .text => s.text v t c
  | .escape => s.escape v c
  | .bracket => s.bracket v c
  | .params => s.params v c
  | .final => s.final v c

end State

def conLoop (v : Video) (t : Termios) : Nat → TtyQueue × State → TtyQueue × State
  | 0, p => p
  | nr + 1, (q, s) =>
    let (c, q) := q.GETCH
    conLoop v t nr (q, s.byte v t c)

def con_write (v : Video) (tty : TtyStruct) (s : State) : TtyStruct × State :=
  let (q, s) := conLoop v tty.termios tty.write_q.CHARS (tty.write_q, s)
  ({ tty with write_q := q }, s.set_cursor v)

/-! ## `con_init` -/

/-- The type and the video memory, from the mode and the answer of the EGA BIOS. -/
def video (ORIG_VIDEO_MODE : UInt8) (ORIG_VIDEO_EGA_BX : UInt16) (cols lines : UInt32) : Video :=
  let ega := decide (ORIG_VIDEO_EGA_BX &&& 0xff ≠ 0x10)
  let mono := decide (ORIG_VIDEO_MODE = 7)
  { video_type :=
      if mono then if ega then .EGAM else .MDA
      else if ega then .EGAC else .CGA
    video_num_columns := cols
    video_size_row := cols * 2
    video_num_lines := lines
    video_mem_start := if mono then 0xb0000 else 0xb8000
    video_mem_end :=
      if mono then if ega then 0xb8000 else 0xb2000
      else if ega then 0xbc000 else 0xba000
    video_erase_char := 0x0720 }

def VideoType.display_desc : VideoType → List Char
  | .EGAM => ['E', 'G', 'A', 'm']
  | .MDA => ['*', 'M', 'D', 'A']
  | .EGAC => ['E', 'G', 'A', 'c']
  | .CGA => ['*', 'C', 'G', 'A']

/-- The description is in every second byte. -/
def describe : List Char → UInt32 → Ram → Ram
  | [], _, ram => ram
  | c :: desc, display_ptr, ram =>
    describe desc (display_ptr + 2) (ram.storeb display_ptr (.ofNat c.toNat))

/-- `con_init` up to `gotoxy`. -/
def con_vars (v : Video) (byte : UInt32 → UInt8) (reg : UInt8 → UInt8) : State where
  origin := v.video_mem_start
  scr_end := v.video_mem_start + v.video_num_lines * v.video_size_row
  pos := 0
  x := 0
  y := 0
  top := 0
  bottom := v.video_num_lines
  state := .text
  npar := State.par0
  par _ := 0
  ques := false
  attr := 0x07
  saved_x := 0
  saved_y := 0
  ram := describe v.video_type.display_desc (v.video_mem_start + v.video_size_row - 8) ⟨byte, []⟩
  reg := reg

def con_init (v : Video) (ORIG_X ORIG_Y : UInt8) (byte : UInt32 → UInt8) (reg : UInt8 → UInt8) :
    State :=
  (con_vars v byte reg).gotoxy v ORIG_X.toUInt32 ORIG_Y.toUInt32

/-! ## Steps -/

inductive Act where
  /-- `con_write` takes a byte off the write queue -/
  | byte (t : Termios) (c : Int8)
  /-- the end of `con_write` -/
  | set_cursor

def step (v : Video) (s : State) : Act → Option State
  | .byte t c => some (s.byte v t c)
  | .set_cursor => some (s.set_cursor v)

/-- The cursor is on the screen, the screen in the video memory, and nothing else has been
stored to. -/
structure Safe (v : Video) (s : State) : Prop where
  pos : s.pos.toNat = s.origin.toNat + s.y.toNat * v.video_size_row.toNat + 2 * s.x.toNat
  x_le : s.x.toNat ≤ v.video_num_columns.toNat
  y_lt : s.y.toNat < v.video_num_lines.toNat
  top_lt : s.top.toNat < s.bottom.toNat
  bottom_le : s.bottom.toNat ≤ v.video_num_lines.toNat
  scr_end : s.scr_end.toNat = s.origin.toNat + v.video_num_lines.toNat * v.video_size_row.toNat
  start_le : v.video_mem_start.toNat ≤ s.origin.toNat
  le_end : s.scr_end.toNat ≤ v.video_mem_end.toNat
  stores : s.ram.Within v.video_mem_start.toNat v.video_mem_end.toNat

/-- A video memory that the rows fit in; the columns are even for the moves of long words. -/
structure Fits (v : Video) : Prop where
  even : v.video_num_columns.toNat % 2 = 0
  eight_le : 8 ≤ v.video_num_columns.toNat
  row : v.video_size_row.toNat = 2 * v.video_num_columns.toNat
  start_ge : 4 ≤ v.video_mem_start.toNat
  end_le : v.video_mem_end.toNat ≤ 0xbc000

/-! ## Words -/

theorem toNat_shl {a : UInt32} (h : 2 * a.toNat < 4294967296) : (a <<< 1).toNat = 2 * a.toNat := by
  rw [UInt32.toNat_shiftLeft, Nat.shiftLeft_eq]
  change a.toNat * 2 ^ 1 % 4294967296 = _
  rw [Nat.pow_one, Nat.mul_comm]
  exact Nat.mod_eq_of_lt h

theorem toNat_shr (a : UInt32) : (a >>> 1).toNat = a.toNat / 2 := by
  rw [UInt32.toNat_shiftRight, Nat.shiftRight_eq_div_pow]
  rfl

theorem toNat_mul_of_lt {a b : UInt32} (h : a.toNat * b.toNat < 4294967296) :
    (a * b).toNat = a.toNat * b.toNat := by
  rw [UInt32.toNat_mul]
  exact Nat.mod_eq_of_lt h

theorem Fits.end_lt {v : Video} (hv : Fits v) : v.video_mem_end.toNat < 4294967296 := by
  have := hv.end_le
  omega

theorem Fits.longs {v : Video} (hv : Fits v) (n : Nat) :
    4 * (n * v.video_num_columns.toNat / 2) = n * v.video_size_row.toNat := by
  obtain ⟨k, hk⟩ := Nat.dvd_of_mod_eq_zero hv.even
  rw [hv.row, hk, Nat.mul_left_comm, Nat.mul_div_cancel_left _ Nat.two_pos,
    Nat.mul_left_comm n, Nat.mul_left_comm n, ← Nat.mul_assoc 2 2]

/-- The rows before a row that is on the screen. -/
theorem rows_lt {n l : Nat} (h : n < l) (r : Nat) : n * r + r ≤ l * r := by
  have := Nat.mul_le_mul_right r (Nat.succ_le_of_lt h)
  rwa [Nat.succ_mul] at this

namespace Safe

variable {v : Video} {s : State}

theorem move (h : Safe v s) {pos x y : UInt32}
    (hpos : pos.toNat = s.origin.toNat + y.toNat * v.video_size_row.toNat + 2 * x.toNat)
    (hx : x.toNat ≤ v.video_num_columns.toNat) (hy : y.toNat < v.video_num_lines.toNat) :
    Safe v { s with pos := pos, x := x, y := y } :=
  { h with pos := hpos, x_le := hx, y_lt := hy }

/-- Either branch. -/
protected theorem ite {p : Prop} [Decidable p] {s s' : State} (h : Safe v s) (h' : Safe v s') :
    Safe v (if p then s else s') := by
  split
  · exact h
  · exact h'

theorem write (h : Safe v s) {ram : Ram}
    (hram : ram.Within v.video_mem_start.toNat v.video_mem_end.toNat) :
    Safe v { s with ram := ram } :=
  { h with stores := hram }

theorem region (h : Safe v s) {top bottom : UInt32} (hlt : top.toNat < bottom.toNat)
    (hle : bottom.toNat ≤ v.video_num_lines.toNat) :
    Safe v { s with top := top, bottom := bottom } :=
  { h with top_lt := hlt, bottom_le := hle }

theorem shift (h : Safe v s) {origin scr_end pos : UInt32}
    (hpos : pos.toNat = origin.toNat + s.y.toNat * v.video_size_row.toNat + 2 * s.x.toNat)
    (hscr : scr_end.toNat
      = origin.toNat + v.video_num_lines.toNat * v.video_size_row.toNat)
    (hstart : v.video_mem_start.toNat ≤ origin.toNat)
    (hend : scr_end.toNat ≤ v.video_mem_end.toNat) :
    Safe v { s with origin := origin, scr_end := scr_end, pos := pos } :=
  { h with pos := hpos, scr_end := hscr, start_le := hstart, le_end := hend }

/-- To the column that is `n` columns before. -/
theorem back (h : Safe v s) {n x pos : UInt32} (hx : x.toNat + n.toNat = s.x.toNat)
    (hpos : pos.toNat + 2 * n.toNat = s.pos.toNat) : Safe v { s with pos := pos, x := x } := by
  have hat := h.pos
  have hle := h.x_le
  exact h.move (by omega) (by omega) h.y_lt

theorem one_back (h : Safe v s) (hx : s.x ≠ 0) :
    Safe v { s with pos := s.pos - 2, x := s.x - 1 } := by
  have hat := h.pos
  have hpos : s.x.toNat ≠ 0 := fun h0 => hx (UInt32.toNat_inj.mp h0)
  refine h.back (n := 1) ?_ ?_
  · rw [toNat_sub_of_le (n := 1) rfl (by omega)]
    change _ + 1 = _
    omega
  · rw [toNat_sub_of_le (n := 2) rfl (by omega)]
    change _ + 2 * 1 = _
    omega

/-- The line of the cursor is on the screen. -/
theorem row_le (h : Safe v s) :
    s.origin.toNat + s.y.toNat * v.video_size_row.toNat + v.video_size_row.toNat
      ≤ s.scr_end.toNat := by
  have hrows := rows_lt h.y_lt v.video_size_row.toNat
  have hend := h.scr_end
  omega

variable (hv : Fits v)

include hv

theorem gotoxy (h : Safe v s) (new_x new_y : UInt32) : Safe v (s.gotoxy v new_x new_y) := by
  unfold State.gotoxy
  split
  · exact h
  · rename_i hno
    obtain ⟨hx, hy⟩ := not_or.mp hno
    rw [UInt32.lt_iff_toNat_lt, Nat.not_lt] at hx
    rw [UInt32.le_iff_toNat_le, Nat.not_le] at hy
    have hrows := rows_lt hy v.video_size_row.toNat
    have hrow := hv.row
    have hend := h.scr_end
    have hle := h.le_end
    have hlim := hv.end_le
    have hmul : (new_y * v.video_size_row).toNat = new_y.toNat * v.video_size_row.toNat :=
      toNat_mul_of_lt (by omega)
    have hshl : (new_x <<< 1).toNat = 2 * new_x.toNat := toNat_shl (by omega)
    have hsum : (s.origin + new_y * v.video_size_row).toNat
        = s.origin.toNat + new_y.toNat * v.video_size_row.toNat := toNat_add_of_lt hmul (by omega)
    refine h.move ?_ hx hy
    rw [toNat_add_of_lt hshl (by omega), hsum]

theorem erase (h : Safe v s) {count start : UInt32}
    (hlo : v.video_mem_start.toNat ≤ start.toNat)
    (hhi : start.toNat + 2 * count.toNat ≤ v.video_mem_end.toNat) :
    Safe v (s.erase v count start) :=
  h.write (h.stores.stosw_cld hv.end_lt _ _ hlo hhi)

end Safe

namespace Safe

variable {v : Video} {s : State}

/-- The number of long words that a scroll moves. -/
theorem longs (hv : Fits v) (h : Safe v s) :
    4 * (((s.bottom - s.top - 1) * v.video_num_columns) >>> 1).toNat
      + s.top.toNat * v.video_size_row.toNat + v.video_size_row.toNat
      = s.bottom.toNat * v.video_size_row.toNat := by
  have htop := h.top_lt
  have hbottom := h.bottom_le
  have hsub : (s.bottom - s.top - 1).toNat = s.bottom.toNat - s.top.toNat - 1 := by
    have hsub : (s.bottom - s.top).toNat = s.bottom.toNat - s.top.toNat :=
      toNat_sub_of_le rfl htop.le
    rw [toNat_sub_of_le (n := 1) rfl (by omega), hsub]
  have hrows : (s.bottom.toNat - s.top.toNat - 1) * v.video_size_row.toNat
      + s.top.toNat * v.video_size_row.toNat + v.video_size_row.toNat
      = s.bottom.toNat * v.video_size_row.toNat := by
    rw [← Nat.add_mul, ← Nat.succ_mul]
    congr 1
    omega
  have hle := Nat.mul_le_mul_right v.video_size_row.toNat hbottom
  have hscreen := h.scr_end
  have hend := h.le_end
  have hlim := hv.end_le
  have hcols : (s.bottom.toNat - s.top.toNat - 1) * v.video_num_columns.toNat
      ≤ (s.bottom.toNat - s.top.toNat - 1) * v.video_size_row.toNat :=
    Nat.mul_le_mul_left _ (by rw [hv.row]; omega)
  have hmul : ((s.bottom - s.top - 1) * v.video_num_columns).toNat
      = (s.bottom.toNat - s.top.toNat - 1) * v.video_num_columns.toNat := by
    rw [toNat_mul_of_lt, hsub]
    rw [hsub]
    omega
  rw [toNat_shr, hmul, hv.longs]
  exact hrows

variable (hv : Fits v)

include hv

/-- The start of row `n` of the screen. -/
theorem row_toNat (h : Safe v s) {n : UInt32} (hn : n.toNat ≤ v.video_num_lines.toNat) :
    (s.origin + v.video_size_row * n).toNat
      = s.origin.toNat + n.toNat * v.video_size_row.toNat := by
  have hle := Nat.mul_le_mul_right v.video_size_row.toNat hn
  have hscreen := h.scr_end
  have hend := h.le_end
  have hlim := hv.end_le
  have hmul : (v.video_size_row * n).toNat = n.toNat * v.video_size_row.toNat := by
    rw [toNat_mul_of_lt, Nat.mul_comm]
    rw [Nat.mul_comm]
    omega
  exact toNat_add_of_lt hmul (by omega)

theorem rollUp (h : Safe v s) : Safe v (s.rollUp v) := by
  have htop := h.top_lt
  have hbottom := h.bottom_le
  have hlongs := h.longs hv
  have hle := Nat.mul_le_mul_right v.video_size_row.toNat hbottom
  have hscreen := h.scr_end
  have hstart := h.start_le
  have hend := h.le_end
  have hrow := hv.row
  have hedi := h.row_toNat hv (n := s.top) (htop.le.trans hbottom)
  obtain ⟨hmoved, hw⟩ := h.stores.movsl_cld hv.end_lt
    (((s.bottom - s.top - 1) * v.video_num_columns) >>> 1).toNat
    (d := s.origin + v.video_size_row * s.top)
    (e := s.origin + v.video_size_row * (s.top + 1)) (by omega) (by omega)
  refine h.write (hw.stosw_cld hv.end_lt _ _ ?_ ?_)
  · omega
  · omega

theorem scrdown (h : Safe v s) : Safe v (s.scrdown v) := by
  have htop := h.top_lt
  have hbottom := h.bottom_le
  have hlongs := h.longs hv
  have hle := Nat.mul_le_mul_right v.video_size_row.toNat hbottom
  have hscreen := h.scr_end
  have hstart := h.start_le
  have hend := h.le_end
  have hrow := hv.row
  have hlow := hv.start_ge
  have hcols := hv.eight_le
  have hlast : (s.origin + v.video_size_row * s.bottom - 4).toNat
      = s.origin.toNat + s.bottom.toNat * v.video_size_row.toNat - 4 := by
    rw [toNat_sub_of_le (n := 4) rfl, h.row_toNat hv hbottom]
    rw [h.row_toNat hv hbottom]
    omega
  obtain ⟨hmoved, hw⟩ := h.stores.movsl_std hv.end_lt hlow
    (((s.bottom - s.top - 1) * v.video_num_columns) >>> 1).toNat
    (d := s.origin + v.video_size_row * s.bottom - 4)
    (e := s.origin + v.video_size_row * (s.bottom - 1) - 4) (by omega) (by omega)
  have hedi : ((s.ram.movsl .std (((s.bottom - s.top - 1) * v.video_num_columns) >>> 1).toNat
      (s.origin + v.video_size_row * s.bottom - 4)
      (s.origin + v.video_size_row * (s.bottom - 1) - 4)).1 + 2).toNat
      = (s.ram.movsl .std (((s.bottom - s.top - 1) * v.video_num_columns) >>> 1).toNat
      (s.origin + v.video_size_row * s.bottom - 4)
      (s.origin + v.video_size_row * (s.bottom - 1) - 4)).1.toNat + 2 :=
    toNat_add_of_lt rfl (by have := hv.end_le; omega)
  refine h.write (hw.stosw_std hv.end_lt hlow _ _ ?_ ?_)
  · omega
  · omega

end Safe

namespace Safe

variable {v : Video} {s : State} (hv : Fits v)

include hv

/-- The number of long words that `rewind` moves. -/
theorem screen_longs (h : Safe v s) :
    4 * (((v.video_num_lines - 1) * v.video_num_columns) >>> 1).toNat + v.video_size_row.toNat
      = v.video_num_lines.toNat * v.video_size_row.toNat := by
  have hy := h.y_lt
  have hscreen := h.scr_end
  have hend := h.le_end
  have hlim := hv.end_le
  have hsub : (v.video_num_lines - 1).toNat = v.video_num_lines.toNat - 1 :=
    toNat_sub_of_le rfl (by omega)
  have hcols : (v.video_num_lines.toNat - 1) * v.video_num_columns.toNat
      ≤ v.video_num_lines.toNat * v.video_size_row.toNat :=
    Nat.mul_le_mul (Nat.sub_le _ _) (by rw [hv.row]; omega)
  have hmul : ((v.video_num_lines - 1) * v.video_num_columns).toNat
      = (v.video_num_lines.toNat - 1) * v.video_num_columns.toNat := by
    rw [toNat_mul_of_lt, hsub]
    rw [hsub]
    omega
  rw [toNat_shr, hmul, hv.longs, ← Nat.succ_mul]
  congr 1
  omega

theorem rewind (h : Safe v s) {origin scr_end pos : UInt32}
    (horigin : origin.toNat = s.origin.toNat + v.video_size_row.toNat)
    (hpos : pos.toNat = s.pos.toNat + v.video_size_row.toNat)
    (hscr : scr_end.toNat = s.scr_end.toNat + v.video_size_row.toNat) :
    Safe v (State.rewind v { s with origin := origin, scr_end := scr_end, pos := pos }) := by
  have hlongs := h.screen_longs hv
  have hscreen := h.scr_end
  have hstart := h.start_le
  have hend := h.le_end
  have hrow := hv.row
  have hat := h.pos
  obtain ⟨hmoved, hw⟩ := h.stores.movsl_cld hv.end_lt
    (((v.video_num_lines - 1) * v.video_num_columns) >>> 1).toNat
    (d := v.video_mem_start) (e := origin) le_rfl (by omega)
  have hback : (origin - v.video_mem_start).toNat
      = origin.toNat - v.video_mem_start.toNat := toNat_sub_of_le rfl (by omega)
  have hpos' := toNat_sub_of_le (a := pos) hback (by omega)
  have hscr' := toNat_sub_of_le (a := scr_end) hback (by omega)
  have hcleared := hw.stosw_cld hv.end_lt v.video_erase_char v.video_num_columns.toNat
    (d := (s.ram.movsl .cld (((v.video_num_lines - 1) * v.video_num_columns) >>> 1).toNat
      v.video_mem_start origin).1) (by omega) (by omega)
  refine (h.write hcleared).shift ?_ ?_ le_rfl ?_
  · change (pos - (origin - v.video_mem_start)).toNat = _ + s.y.toNat * _ + 2 * s.x.toNat
    omega
  · change (scr_end - (origin - v.video_mem_start)).toNat = _
    omega
  · change (scr_end - (origin - v.video_mem_start)).toNat ≤ _
    omega

/-- The screen goes on in the video memory, or back to its start. -/
theorem advance (h : Safe v s) : Safe v (s.advance v) := by
  have hscreen := h.scr_end
  have hstart := h.start_le
  have hend := h.le_end
  have hlim := hv.end_le
  have hrow := hv.row
  have hpos := h.pos
  have hline := h.row_le
  have hx := h.x_le
  have hrows := rows_lt (Nat.zero_lt_of_lt h.y_lt) v.video_size_row.toNat
  have horigin : (s.origin + v.video_size_row).toNat
      = s.origin.toNat + v.video_size_row.toNat := toNat_add_of_lt rfl (by omega)
  have hpos' : (s.pos + v.video_size_row).toNat = s.pos.toNat + v.video_size_row.toNat :=
    toNat_add_of_lt rfl (by omega)
  have hscr_end : (s.scr_end + v.video_size_row).toNat
      = s.scr_end.toNat + v.video_size_row.toNat := toNat_add_of_lt rfl (by omega)
  unfold State.advance
  dsimp only
  split
  · exact h.rewind hv horigin hpos' hscr_end
  · rename_i hroom
    rw [UInt32.lt_iff_toNat_lt, Nat.not_lt, hscr_end] at hroom
    have hlast : (s.scr_end + v.video_size_row - v.video_size_row).toNat = s.scr_end.toNat := by
      rw [toNat_sub_of_le rfl (by omega), hscr_end, Nat.add_sub_cancel]
    have hmoved : Safe v { s with
        origin := s.origin + v.video_size_row
        pos := s.pos + v.video_size_row
        scr_end := s.scr_end + v.video_size_row } :=
      h.shift (by omega) (by omega) (by omega) (by omega)
    refine hmoved.erase hv ?_ ?_
    · omega
    · omega

end Safe

namespace Safe

variable {v : Video} {s : State} (hv : Fits v)

include hv

theorem scrup (h : Safe v s) : Safe v (s.scrup v) := by
  unfold State.scrup
  split
  · exact { h.advance hv with }
  · exact h.rollUp hv

theorem lf (h : Safe v s) : Safe v (s.lf v) := by
  unfold State.lf
  split
  · rename_i hlt
    have hy := h.y_lt
    have hbottom := h.bottom_le
    have hpos := h.pos
    have hline := h.row_le
    have hx := h.x_le
    have hrow := hv.row
    have hend := h.le_end
    have hlim := hv.end_le
    have hrows := rows_lt hy v.video_size_row.toNat
    have hlines : v.video_num_lines.toNat < 4294967296 := UInt32.toNat_lt _
    have hnext : (s.y + 1).toNat = s.y.toNat + 1 := toNat_add_of_lt rfl (by omega)
    rw [UInt32.lt_iff_toNat_lt, hnext] at hlt
    refine h.move ?_ hx ?_
    · rw [toNat_add_of_lt rfl (by omega), hnext, Nat.succ_mul]
      omega
    · omega
  · exact h.scrup hv

theorem ri (h : Safe v s) : Safe v (s.ri v) := by
  unfold State.ri
  split
  · rename_i hlt
    rw [UInt32.lt_iff_toNat_lt] at hlt
    have hpos := h.pos
    have hy := h.y_lt
    have hprev : (s.y - 1).toNat + 1 = s.y.toNat := by
      rw [toNat_sub_of_le (n := 1) rfl (by omega)]
      omega
    have hrow := Nat.succ_mul (s.y - 1).toNat v.video_size_row.toNat
    rw [Nat.succ_eq_add_one, hprev] at hrow
    refine h.move ?_ h.x_le ?_
    · rw [toNat_sub_of_le rfl (by omega)]
      omega
    · omega
  · exact h.scrdown hv

theorem cr (h : Safe v s) : Safe v s.cr := by
  have hat := h.pos
  have hline := h.row_le
  have hx := h.x_le
  have hrow := hv.row
  have hend := h.le_end
  have hlim := hv.end_le
  have hshl : (s.x <<< 1).toNat = 2 * s.x.toNat := toNat_shl (by omega)
  refine h.back (n := s.x) ?_ ?_
  · exact Nat.zero_add _
  · rw [toNat_sub_of_le hshl (by omega)]
    omega

/-- The place of the cursor can be stored to unless it is behind the last column. -/
theorem storew (h : Safe v s) (hx : s.x.toNat < v.video_num_columns.toNat) (w : UInt16) :
    (s.ram.storew s.pos w).Within v.video_mem_start.toNat v.video_mem_end.toNat := by
  have hat := h.pos
  have hline := h.row_le
  have hrow := hv.row
  have hstart := h.start_le
  have hend := h.le_end
  exact h.stores.storew hv.end_lt (by omega) (by omega) w

theorem del (h : Safe v s) : Safe v (s.del v) := by
  unfold State.del
  split
  · rename_i hx
    have hback := h.one_back hx
    have hle := h.x_le
    have hpos : s.x.toNat ≠ 0 := fun h0 => hx (UInt32.toNat_inj.mp h0)
    have hprev : (s.x - 1).toNat = s.x.toNat - 1 := toNat_sub_of_le rfl (by omega)
    exact hback.write (hback.storew hv (by change (s.x - 1).toNat < _; omega) _)
  · exact h

theorem csi_J (h : Safe v s) (par : UInt32) : Safe v (s.csi_J v par) := by
  have hat := h.pos
  have hline := h.row_le
  have hx := h.x_le
  have hrow := hv.row
  have hstart := h.start_le
  have hend := h.le_end
  have hscreen := h.scr_end
  unfold State.csi_J
  split
  · have hcount : ((s.scr_end - s.pos) >>> 1).toNat = (s.scr_end.toNat - s.pos.toNat) / 2 := by
      rw [toNat_shr, toNat_sub_of_le rfl (by omega)]
    exact h.erase hv (by omega) (by omega)
  · split
    · have hcount : ((s.pos - s.origin) >>> 1).toNat = (s.pos.toNat - s.origin.toNat) / 2 := by
        rw [toNat_shr, toNat_sub_of_le rfl (by omega)]
      exact h.erase hv hstart (by omega)
    · split
      · have hlim := hv.end_le
        have hcells : 2 * (v.video_num_columns.toNat * v.video_num_lines.toNat)
            = v.video_num_lines.toNat * v.video_size_row.toNat := by
          rw [hrow, ← Nat.mul_assoc, Nat.mul_comm]
        have hcount : (v.video_num_columns * v.video_num_lines).toNat
            = v.video_num_columns.toNat * v.video_num_lines.toNat := toNat_mul_of_lt (by omega)
        exact h.erase hv hstart (by omega)
      · exact h

theorem csi_K (h : Safe v s) (par : UInt32) : Safe v (s.csi_K v par) := by
  have hat := h.pos
  have hline := h.row_le
  have hx := h.x_le
  have hrow := hv.row
  have hstart := h.start_le
  have hend := h.le_end
  have hlim := hv.end_le
  have hshl : (s.x <<< 1).toNat = 2 * s.x.toNat := toNat_shl (by omega)
  have hbegin : (s.pos - (s.x <<< 1)).toNat = s.pos.toNat - 2 * s.x.toNat :=
    toNat_sub_of_le hshl (by omega)
  unfold State.csi_K
  split
  · split
    · exact h
    · have hcount : (v.video_num_columns - s.x).toNat
          = v.video_num_columns.toNat - s.x.toNat := toNat_sub_of_le rfl hx
      exact h.erase hv (by omega) (by omega)
  · split
    · have hcount : (if s.x < v.video_num_columns then s.x else v.video_num_columns).toNat
          ≤ v.video_num_columns.toNat := by
        split
        · exact hx
        · exact le_rfl
      exact h.erase hv (by omega) (by omega)
    · split
      · exact h.erase hv (by omega) (by omega)
      · exact h

end Safe

section Words

variable {lo hi : Nat} (h32 : hi < 4294967296)

include h32

theorem insertWords_within : ∀ (n : Nat) {p : UInt32} (old : UInt16) {ram : Ram},
    ram.Within lo hi → lo ≤ p.toNat → p.toNat + 2 * n ≤ hi →
    (State.insertWords n p old ram).Within lo hi
  | 0, _, _, _, h, _, _ => h
  | n + 1, p, old, ram, h, hlo, hhi => by
      have hnext : (p + 2).toNat = p.toNat + 2 := toNat_add_of_lt rfl (by omega)
      refine insertWords_within n _ (h.storew h32 hlo (by omega) old) ?_ ?_
      · omega
      · omega

theorem deleteWords_within (erase_char : UInt16) : ∀ (n : Nat) {p : UInt32} {ram : Ram},
    ram.Within lo hi → lo ≤ p.toNat → p.toNat + 2 * n + 2 ≤ hi →
    (State.deleteWords erase_char n p ram).Within lo hi
  | 0, _, _, h, hlo, hhi => h.storew h32 hlo hhi erase_char
  | n + 1, p, ram, h, hlo, hhi => by
      have hnext : (p + 2).toNat = p.toNat + 2 := toNat_add_of_lt rfl (by omega)
      refine deleteWords_within erase_char n
        (h.storew h32 hlo (by omega) (ram.loadw (p + 2))) ?_ ?_
      · omega
      · omega

end Words

namespace Safe

variable {v : Video} {s : State}

/-- What is called as often as the parameter says. -/
theorem times (h : Safe v s) {f : State → State} (hf : ∀ s, Safe v s → Safe v (f s))
    (most nr : UInt32) : Safe v (s.times most nr f) :=
  Function.Iterate.rec (Safe v) h hf _

/-- The scroll region of a call is given back. -/
theorem below (h : Safe v s) {f : State → State} (hf : ∀ s, Safe v s → Safe v (f s)) :
    Safe v (s.below v f) :=
  (hf _ (h.region h.y_lt le_rfl)).region h.top_lt h.bottom_le

variable (hv : Fits v)

include hv

theorem insert_char (h : Safe v s) : Safe v (s.insert_char v) := by
  have hat := h.pos
  have hline := h.row_le
  have hrow := hv.row
  have hstart := h.start_le
  have hend := h.le_end
  have hx := h.x_le
  exact h.write (insertWords_within hv.end_lt _ _ h.stores (by omega) (by omega))

theorem delete_char (h : Safe v s) : Safe v (s.delete_char v) := by
  unfold State.delete_char
  dsimp only
  split
  · exact h
  · rename_i hlt
    rw [UInt32.le_iff_toNat_le, Nat.not_le] at hlt
    have hat := h.pos
    have hline := h.row_le
    have hrow := hv.row
    have hstart := h.start_le
    have hend := h.le_end
    exact h.write (deleteWords_within hv.end_lt _ _ h.stores (by omega) (by omega))

theorem insert_line (h : Safe v s) : Safe v (s.insert_line v) :=
  h.below fun _ h => h.scrdown hv

theorem delete_line (h : Safe v s) : Safe v (s.delete_line v) := h.below fun _ h => h.scrup hv

/-- The cursor in the next line, from a column that may be behind the last one. -/
theorem wrap (h : Safe v s) {x pos : UInt32} (hx : v.video_num_columns.toNat ≤ x.toNat)
    (hle : x.toNat ≤ 2 * v.video_num_columns.toNat)
    (hpos : pos.toNat = s.origin.toNat + s.y.toNat * v.video_size_row.toNat + 2 * x.toNat) :
    Safe v (State.wrap v { s with pos := pos, x := x }) := by
  have hrow := hv.row
  have hx' : (x - v.video_num_columns).toNat = x.toNat - v.video_num_columns.toNat :=
    toNat_sub_of_le rfl hx
  have hpos' : (pos - v.video_size_row).toNat = pos.toNat - v.video_size_row.toNat :=
    toNat_sub_of_le rfl (by omega)
  have hline : Safe v { s with pos := pos - v.video_size_row, x := x - v.video_num_columns } :=
    h.move (by omega) (by omega) h.y_lt
  exact hline.lf hv

end Safe

theorem lf_x (v : Video) (s : State) : (s.lf v).x = s.x := by
  unfold State.lf State.scrup State.advance
  dsimp only
  split_ifs
  all_goals rfl

namespace Safe

variable {v : Video} {s : State} (hv : Fits v)

include hv

theorem put_at (h : Safe v s) (hx : s.x.toNat < v.video_num_columns.toNat) (w : UInt16) :
    Safe v { s with ram := s.ram.storew s.pos w, pos := s.pos + 2, x := s.x + 1 } := by
  have hat := h.pos
  have hline := h.row_le
  have hrow := hv.row
  have hend := h.le_end
  have hlim := hv.end_le
  have hpos : (s.pos + 2).toNat = s.pos.toNat + 2 := toNat_add_of_lt rfl (by omega)
  have hnext : (s.x + 1).toNat = s.x.toNat + 1 := toNat_add_of_lt rfl (by omega)
  exact (h.write (h.storew hv hx w)).move (by
    change _ = s.origin.toNat + s.y.toNat * _ + _
    omega) (by omega) h.y_lt

theorem put (h : Safe v s) (c : Int8) : Safe v (s.put v c) := by
  unfold State.put
  dsimp only
  split
  · rename_i hle
    rw [UInt32.le_iff_toNat_le] at hle
    have hcols := hv.eight_le
    have hx := h.x_le
    have hwrap : Safe v (s.wrap v) := h.wrap hv hle (by omega) h.pos
    refine hwrap.put_at hv ?_ _
    have hcol : (s.wrap v).x = s.x - v.video_num_columns := lf_x ..
    rw [hcol, toNat_sub_of_le rfl hle]
    omega
  · rename_i hlt
    rw [UInt32.le_iff_toNat_le, Nat.not_le] at hlt
    exact h.put_at hv hlt _

theorem tab (h : Safe v s) : Safe v (s.tab v) := by
  have hat := h.pos
  have hline := h.row_le
  have hrow := hv.row
  have hend := h.le_end
  have hlim := hv.end_le
  have hx := h.x_le
  have hcols := hv.eight_le
  have hand : (s.x &&& 7).toNat ≤ 7 := by
    rw [UInt32.toNat_and]
    exact Nat.and_le_right
  have hc : (8 - (s.x &&& 7)).toNat ≤ 8 := by
    rw [toNat_sub_of_le (n := (s.x &&& 7).toNat) rfl (hand.trans (by decide))]
    exact Nat.sub_le _ _
  have hshl : ((8 - (s.x &&& 7)) <<< 1).toNat = 2 * (8 - (s.x &&& 7)).toNat :=
    toNat_shl (by omega)
  have hx' : (s.x + (8 - (s.x &&& 7))).toNat = s.x.toNat + (8 - (s.x &&& 7)).toNat :=
    toNat_add_of_lt rfl (by omega)
  have hpos' : (s.pos + ((8 - (s.x &&& 7)) <<< 1)).toNat
      = s.pos.toNat + 2 * (8 - (s.x &&& 7)).toNat := toNat_add_of_lt hshl (by omega)
  unfold State.tab
  dsimp only
  split
  · rename_i hlt
    rw [UInt32.lt_iff_toNat_lt] at hlt
    exact h.wrap hv hlt.le (by omega) (by omega)
  · rename_i hle
    rw [UInt32.lt_iff_toNat_lt, Nat.not_lt] at hle
    exact h.move (by omega) hle h.y_lt

end Safe

namespace Safe

variable {v : Video} {s : State} (hv : Fits v)

include hv

theorem text (h : Safe v s) (t : Termios) (c : Int8) : Safe v (s.text v t c) := by
  unfold State.text
  split
  · exact h.put hv c
  · split
    · exact { h with }
    · split
      · exact h.lf hv
      · split
        · exact h.cr hv
        · split
          · exact h.del hv
          · split
            · split
              · rename_i hx
                exact h.one_back hx
              · exact h
            · split
              · exact h.tab hv
              · exact h

theorem escape (h : Safe v s) (c : Int8) : Safe v (s.escape v c) := by
  have h : Safe v { s with state := .text } := { h with }
  unfold State.escape
  dsimp only
  split
  · exact { h with }
  · split
    · exact h.gotoxy hv _ _
    · split
      · exact h.ri hv
      · split
        · exact h.lf hv
        · split
          · exact h
          · split
            · exact { h with }
            · split
              · exact h.gotoxy hv _ _
              · exact h

omit hv in
theorem csi_r (h : Safe v s) : Safe v (s.csi_r v) := by
  have h : Safe v ((s.decPar State.par0).linesPar v) := { h with }
  unfold State.csi_r State.setRegion
  dsimp only
  split
  · rename_i hregion
    obtain ⟨hlt, hle⟩ := hregion
    rw [UInt32.lt_iff_toNat_lt] at hlt
    rw [UInt32.le_iff_toNat_le] at hle
    exact h.region hlt hle
  · exact h

theorem goto (h : Safe v s) (place : State → UInt32 × UInt32) : Safe v (s.goto v place) :=
  h.gotoxy hv _ _

theorem dispatch (h : Safe v s) (c : Int8) : Safe v (s.dispatch v c) := by
  have hdec : Safe v (s.decPar State.par0) := { h with }
  have hdec2 : Safe v ((s.decPar State.par0).decPar State.par1) := { h with }
  have hinc : Safe v s.incPar := { h with }
  -- the cursor
  refine .ite (hdec.goto hv _) (.ite (hinc.goto hv _) (.ite (hinc.goto hv _)
    (.ite (hinc.goto hv _) (.ite (hinc.goto hv _) (.ite (hinc.goto hv _) (.ite (hinc.goto hv _)
    (.ite (hdec.goto hv _) (.ite (hdec2.goto hv _) ?_))))))))
  -- the screen
  refine .ite (h.csi_J hv _) (.ite (h.csi_K hv _) ?_)
  refine .ite (h.times (fun _ h => h.insert_line hv) _ _)
    (.ite (h.times (fun _ h => h.delete_line hv) _ _) ?_)
  refine .ite (h.times (fun _ h => h.delete_char hv) _ _)
    (.ite (h.times (fun _ h => h.insert_char hv) _ _) ?_)
  -- attributes, scroll region and saved cursor
  exact .ite { h with } (.ite h.csi_r (.ite { h with } (.ite (h.gotoxy hv _ _) h)))

theorem final (h : Safe v s) (c : Int8) : Safe v (s.final v c) := by
  have h : Safe v { s with state := .text } := { h with }
  exact h.dispatch hv c

theorem params (h : Safe v s) (c : Int8) : Safe v (s.params v c) := by
  unfold State.params
  split
  · exact { h with }
  · split
    · exact { h with }
    · exact h.final hv c

theorem bracket (h : Safe v s) (c : Int8) : Safe v (s.bracket v c) := by
  have h : Safe v { s with
      par := fun _ => 0
      npar := State.par0
      state := .params
      ques := decide (c = State.ch '?') } := { h with }
  exact .ite h (h.params hv c)

theorem byte (h : Safe v s) (t : Termios) (c : Int8) : Safe v (s.byte v t c) := by
  unfold State.byte
  split
  · exact h.text hv t c
  · exact h.escape hv c
  · exact h.bracket hv c
  · exact h.params hv c
  · exact h.final hv c

theorem step (h : Safe v s) {a : Act} {s' : State} (hstep : Console.step v s a = some s') :
    Safe v s' := by
  cases a with
  | byte t c =>
    obtain rfl := Option.some.inj hstep
    exact h.byte hv t c
  | set_cursor =>
    obtain rfl := Option.some.inj hstep
    exact { h with }

end Safe

/-! ## `con_write` -/

theorem conLoop_run (v : Video) (t : Termios) : ∀ (nr : Nat) (q : TtyQueue) (s : State),
    Reach (step v) Free s (conLoop v t nr (q, s)).2
  | 0, _, _ => .start
  | nr + 1, q, s =>
    (Reach.one (a := .byte t q.GETCH.1) trivial rfl).trans
      (conLoop_run v t nr q.GETCH.2 (s.byte v t q.GETCH.1))

/-- A call of `con_write` is a run of steps. -/
theorem con_write_run (v : Video) (tty : TtyStruct) (s : State) :
    Reach (step v) Free s (con_write v tty s).2 :=
  (conLoop_run v tty.termios tty.write_q.CHARS tty.write_q s).next (a := .set_cursor) trivial rfl

/-! ## The start -/

section Start

variable {mode : UInt8} {ega_bx : UInt16} {cols lines : UInt32}

/-- Each video memory is where the processor sees it. -/
theorem video_mem (mode : UInt8) (ega_bx : UInt16) (cols lines : UInt32) :
    4 ≤ (video mode ega_bx cols lines).video_mem_start.toNat ∧
      (video mode ega_bx cols lines).video_mem_end.toNat ≤ 0xbc000 := by
  unfold video
  dsimp only
  split_ifs
  all_goals exact ⟨by decide, by decide⟩

theorem video_fits (heven : cols.toNat % 2 = 0) (height : 8 ≤ cols.toNat)
    (hlines : 1 ≤ lines.toNat)
    (hroom : lines.toNat * (2 * cols.toNat) ≤ (video mode ega_bx cols lines).video_mem_end.toNat
      - (video mode ega_bx cols lines).video_mem_start.toNat) :
    Fits (video mode ega_bx cols lines) := by
  obtain ⟨hstart, hend⟩ := video_mem mode ega_bx cols lines
  have hone := Nat.mul_le_mul_right (2 * cols.toNat) hlines
  refine ⟨heven, height, ?_, hstart, hend⟩
  have hrow : (cols * 2).toNat = cols.toNat * 2 :=
    toNat_mul_of_lt (by change cols.toNat * 2 < _; omega)
  exact hrow.trans (Nat.mul_comm _ _)

theorem describe_within {lo hi : Nat} (h32 : hi < 4294967296) : ∀ (desc : List Char) {p : UInt32}
    {m : Ram}, m.Within lo hi → lo ≤ p.toNat → p.toNat + 2 * desc.length ≤ hi →
    (describe desc p m).Within lo hi
  | [], _, _, h, _, _ => h
  | c :: desc, p, m, h, hlo, hhi => by
      rw [List.length_cons] at hhi
      have hnext : (p + 2).toNat = p.toNat + 2 := toNat_add_of_lt rfl (by omega)
      refine describe_within h32 desc (h.storeb hlo (by omega) _) ?_ ?_
      · omega
      · omega

theorem display_desc_length (t : VideoType) : t.display_desc.length = 4 := by
  cases t <;> rfl

/-- At the start of the screen, before the cursor is set. -/
theorem con_vars_safe {v : Video} (hv : Fits v) (hlines : 1 ≤ v.video_num_lines.toNat)
    (hroom : v.video_num_lines.toNat * v.video_size_row.toNat
      ≤ v.video_mem_end.toNat - v.video_mem_start.toNat)
    (byte : UInt32 → UInt8) (reg : UInt8 → UInt8) :
    Safe v { con_vars v byte reg with pos := v.video_mem_start } := by
  have hrows := rows_lt hlines v.video_size_row.toNat
  have hrow := hv.row
  have hcols := hv.eight_le
  have hlim := hv.end_le
  have hmul : (v.video_num_lines * v.video_size_row).toNat
      = v.video_num_lines.toNat * v.video_size_row.toNat := toNat_mul_of_lt (by omega)
  have hscr_end : (v.video_mem_start + v.video_num_lines * v.video_size_row).toNat
      = v.video_mem_start.toNat + v.video_num_lines.toNat * v.video_size_row.toNat :=
    toNat_add_of_lt hmul (by omega)
  have hptr : (v.video_mem_start + v.video_size_row - 8).toNat
      = v.video_mem_start.toNat + v.video_size_row.toNat - 8 := by
    have hadd : (v.video_mem_start + v.video_size_row).toNat
        = v.video_mem_start.toNat + v.video_size_row.toNat := toNat_add_of_lt rfl (by omega)
    rw [toNat_sub_of_le (n := 8) rfl (by omega), hadd]
  have hlen := display_desc_length v.video_type
  have hnone : Ram.Within v.video_mem_start.toNat v.video_mem_end.toNat ⟨byte, []⟩ :=
    List.forall_mem_nil _
  exact {
    pos := by
      change v.video_mem_start.toNat = v.video_mem_start.toNat + 0 * v.video_size_row.toNat + 0
      omega
    x_le := Nat.zero_le _
    y_lt := hlines
    top_lt := hlines
    bottom_le := le_rfl
    scr_end := hscr_end
    start_le := le_rfl
    le_end := by
      change (v.video_mem_start + v.video_num_lines * v.video_size_row).toNat ≤ _
      omega
    stores := describe_within hv.end_lt _ hnone (by omega) (by omega) }

theorem con_init_safe {v : Video} (hv : Fits v) {ORIG_X ORIG_Y : UInt8}
    (hroom : v.video_num_lines.toNat * v.video_size_row.toNat
      ≤ v.video_mem_end.toNat - v.video_mem_start.toNat)
    (hx : ORIG_X.toNat ≤ v.video_num_columns.toNat) (hy : ORIG_Y.toNat < v.video_num_lines.toNat)
    (byte : UInt32 → UInt8) (reg : UInt8 → UInt8) :
    Safe v (con_init v ORIG_X ORIG_Y byte reg) := by
  have hvars := con_vars_safe hv (Nat.zero_lt_of_lt hy) hroom byte reg
  have hon : ¬ (v.video_num_columns < ORIG_X.toUInt32 ∨ v.video_num_lines ≤ ORIG_Y.toUInt32) := by
    rw [UInt32.lt_iff_toNat_lt, UInt32.le_iff_toNat_le, UInt8.toNat_toUInt32,
      UInt8.toNat_toUInt32]
    omega
  -- `gotoxy` does not look at the old place of the cursor
  have hgoto : con_init v ORIG_X ORIG_Y byte reg = State.gotoxy v
      { con_vars v byte reg with pos := v.video_mem_start } ORIG_X.toUInt32 ORIG_Y.toUInt32 := by
    unfold con_init State.gotoxy
    rw [if_neg hon, if_neg hon]
  rw [hgoto]
  exact hvars.gotoxy hv _ _

end Start

/-- The cursor of the console is safe, for every kind of display and every size of the
screen that fits into its memory: after every byte, of any bytes in any pieces, it is on
the screen, the scroll region and the screen are where they should be, and every store
was to the video memory. -/
theorem console_safe {mode : UInt8} {ega_bx : UInt16} {cols lines : UInt32} {ORIG_X ORIG_Y : UInt8}
    {byte : UInt32 → UInt8} {reg : UInt8 → UInt8} {s : State}
    (heven : cols.toNat % 2 = 0) (height : 8 ≤ cols.toNat) (hlines : 1 ≤ lines.toNat)
    (hroom : lines.toNat * (2 * cols.toNat) ≤ (video mode ega_bx cols lines).video_mem_end.toNat
      - (video mode ega_bx cols lines).video_mem_start.toNat)
    (hx : ORIG_X.toNat ≤ cols.toNat) (hy : ORIG_Y.toNat < lines.toNat)
    (h : Reach (step (video mode ega_bx cols lines)) Free
      (con_init (video mode ega_bx cols lines) ORIG_X ORIG_Y byte reg) s) :
    Safe (video mode ega_bx cols lines) s := by
  have hv := video_fits heven height hlines hroom
  have hroom' : lines.toNat * (video mode ega_bx cols lines).video_size_row.toNat ≤ _ :=
    hv.row ▸ hroom
  exact h.invariant (con_init_safe hv hroom' hx hy byte reg)
    fun _ _ _ hs _ hstep => hs.step hv hstep

/-- A tty with a character in its write queue. -/
def oneChar : TtyStruct := { Tty.console.line.tty with write_q := (TtyQueue.clear 0).PUTCH 65 }

theorem console_safe_80x25 : ∃ s, s = (con_write (video 3 0 80 25) oneChar
    (con_init (video 3 0 80 25) 0 24 (fun _ => 0) fun _ => 0)).2 ∧ Safe (video 3 0 80 25) s :=
  ⟨_, rfl, console_safe (by decide) (by decide) (by decide) (by decide) (by decide) (by decide)
    (con_write_run ..)⟩

end Console

end Linux011
