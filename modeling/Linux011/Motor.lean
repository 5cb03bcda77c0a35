import Linux011.Bits
import Linux011.Runs
import Mathlib.Data.List.FinRange
import Mathlib.Logic.Function.Basic
import Mathlib.Tactic.Common

/-!
# The motors of the diskette drives

`ticks_to_floppy_on`, `floppy_off` and `do_floppy_timer` of `kernel/sched.c`, with the places of
`kernel/blk_drv/floppy.c` that choose a drive. A motor runs for half a second before a call says
that it is ready, it is not switched off in the three seconds behind the last `floppy_off`, and it
is switched off in the end when nobody asks for it (`motors_kept`).

`floppy_on` calls `ticks_to_floppy_on` until it returns 0; the sleep between the calls is left out,
and so is the wakeup of the sleepers. The timers are never negative.

Both histories are set in `step`, from the action alone: `wanted` by the calls that ask for a
drive, and `since` by the register, when the bit of a motor comes on. The functions of the driver
know neither. `Follows` is what a single action does to a timer, and `Kept.step` derives the
invariant from it, which compares the timers with the histories: a motor that is on has been on
for half a second less what its `mon_timer` says, and it is wanted no longer than its
`moff_timer` says. The loop of `do_floppy_timer` is a fold over the four drives, and since a
round touches the timers of its own drive only, a tick is described for each drive by itself
(`drive`, `tick`). That a motor goes off in the end (`ticks_off`) counts the ticks down with
nobody asking.
-/

namespace Linux011

open Bits Function Runs

namespace Motor

def HZ : Nat := 100

abbrev Drive := Fin 4

structure State where
  current_DOR : BitVec 8
  mon_timer : Drive → Nat
  moff_timer : Drive → Nat
  selected : Bool
  /-- the register of the controller -/
  FD_DOR : BitVec 8
  /-- history: the ticks so far -/
  jiffies : Nat
  /-- history: when the motor came on -/
  since : Drive → Nat
  /-- history: up to when the motor is asked for -/
  wanted : Drive → Nat

def motorBit (nr : Drive) : BitVec 8 := 0x10 <<< nr.val

/-- `outb(mask,FD_DOR)` with what belongs to it. -/
def State.outDor (s : State) (mask : BitVec 8) : State :=
  { s with FD_DOR := mask, current_DOR := mask }

def On (s : State) (nr : Drive) : Prop := s.current_DOR.getLsbD (4 + nr) = true

instance (s : State) (nr : Drive) : Decidable (On s nr) := inferInstanceAs (Decidable (_ = _))

/-- The mask of `ticks_to_floppy_on`. -/
def wish (s : State) (nr : Drive) : BitVec 8 :=
  let mask := motorBit nr ||| s.current_DOR
  if s.selected then mask else mask &&& 0xfc ||| .ofNat 8 nr

/-- `ticks_to_floppy_on` behind `cli`. -/
def switchOn (s : State) (nr : Drive) : State :=
  let mask := wish s nr
  if mask ≠ s.current_DOR then
    { s.outDor mask with
      mon_timer :=
        if (mask ^^^ s.current_DOR) &&& 0xf0 ≠ 0 then update s.mon_timer nr (HZ / 2)
        else if s.mon_timer nr < 2 then update s.mon_timer nr 2
        else s.mon_timer }
  else s

def State.setMoff (s : State) (nr : Drive) (n : Nat) : State :=
  { s with moff_timer := update s.moff_timer nr n }

def ticks_to_floppy_on (s : State) (nr : Drive) : Nat × State :=
  let s := switchOn (s.setMoff nr 10000) nr
  (s.mon_timer nr, s)

def floppy_off (s : State) (nr : Drive) : State := s.setMoff nr (3 * HZ)

/-- A round of `do_floppy_timer`. -/
def motorTimer (s : State) (i : Drive) : State :=
  let mask := motorBit i
  if mask &&& s.current_DOR = 0 then s
  else if s.mon_timer i ≠ 0 then { s with mon_timer := update s.mon_timer i (s.mon_timer i - 1) }
  else if s.moff_timer i = 0 then s.outDor (s.current_DOR &&& ~~~mask)
  else { s with moff_timer := update s.moff_timer i (s.moff_timer i - 1) }

def do_floppy_timer (s : State) : State := (List.finRange 4).foldl motorTimer s

/-- The part of `do_timer` that is about the motors. -/
def do_timer (s : State) : State :=
  if s.current_DOR &&& 0xf0 ≠ 0 then do_floppy_timer s else s

/-- `floppy_on_interrupt`, up to the transfer. -/
def floppy_on_interrupt (s : State) (current_drive : Drive) : State :=
  let s := { s with selected := true }
  if s.current_DOR &&& 3 ≠ .ofNat 8 current_drive then
    s.outDor (s.current_DOR &&& 0xfc ||| .ofNat 8 current_drive)
  else s

/-- `reset_floppy` writes the register twice. -/
inductive Act where
  | ticks_to_floppy_on (nr : Drive)
  | floppy_off (nr : Drive)
  | floppy_on_interrupt (current_drive : Drive)
  | floppy_deselect
  | reset_floppy
  | do_timer

/-- What the driver and the timer do. -/
def perform (s : State) : Act → State
  | .ticks_to_floppy_on nr => (Motor.ticks_to_floppy_on s nr).2
  | .floppy_off nr => Motor.floppy_off s nr
  | .floppy_on_interrupt drive => Motor.floppy_on_interrupt s drive
  | .floppy_deselect => { s with selected := false }
  | .reset_floppy => { s with FD_DOR := s.current_DOR }
  | .do_timer => Motor.do_timer s

def elapsed : Act → Nat
  | .do_timer => 1
  | _ => 0

/-- `ticks_to_floppy_on` asks for a drive for 100 s, and `floppy_off` for 3 s more. -/
def asked (s : State) : Act → Drive → Nat
  | .ticks_to_floppy_on nr => update s.wanted nr (s.jiffies + 100 * HZ)
  | .floppy_off nr => update s.wanted nr (s.jiffies + 3 * HZ)
  | _ => s.wanted

/-- A step with its history. -/
def step (s : State) (a : Act) : Option State :=
  some { perform s a with
    jiffies := s.jiffies + elapsed a
    since := fun nr => if On s nr then s.since nr else
      if On (perform s a) nr then s.jiffies else s.since nr
    wanted := asked s a }

def start : State := ⟨0x0c, fun _ => 0, fun _ => 0, false, 0x0c, 0, fun _ => 0, fun _ => 0⟩

variable {s s' : State} {nr i : Drive}

/-! ## The bits of the register -/

theorem motorBit_eq (nr : Drive) : motorBit nr = BitVec.twoPow 8 (4 + nr) := by
  revert nr
  decide

theorem bit_lt (nr : Drive) : 4 + nr.val < 8 := Nat.add_lt_add_left nr.isLt 4

theorem bit_inj : 4 + nr.val = 4 + i.val ↔ nr = i :=
  Nat.add_left_cancel_iff.trans Fin.ext_iff.symm

theorem on_iff (s : State) (nr : Drive) : motorBit nr &&& s.current_DOR ≠ 0 ↔ On s nr := by
  rw [motorBit_eq]
  exact twoPow_and_ne_zero _ (bit_lt nr)

theorem none_on (x : BitVec 8) (nr : Drive) (h : x &&& 0xf0 = 0) : x.getLsbD (4 + nr) = false := by
  revert x nr
  decide +kernel

/-- Another drive is chosen, and the motors are as they were. -/
theorem select_bit (x : BitVec 8) (nr drive : Drive) :
    (x &&& 0xfc ||| .ofNat 8 drive).getLsbD (4 + nr) = x.getLsbD (4 + nr) := by
  have hmask : (0xfc : BitVec 8).getLsbD (4 + nr) = true := by
    revert nr
    decide
  have hdrive : (BitVec.ofNat 8 drive).getLsbD (4 + nr) = false := by
    revert nr drive
    decide
  rw [BitVec.getLsbD_or, BitVec.getLsbD_and, hmask, hdrive, Bool.and_true, Bool.or_false]

theorem wish_bit (s : State) (nr i : Drive) :
    (wish s i).getLsbD (4 + nr) = if nr = i then true else s.current_DOR.getLsbD (4 + nr) := by
  have hor : (motorBit i ||| s.current_DOR).getLsbD (4 + nr) =
      if nr = i then true else s.current_DOR.getLsbD (4 + nr) := by
    rw [BitVec.or_comm, motorBit_eq, getLsbD_set _ (bit_lt i)]
    exact if_congr bit_inj rfl rfl
  unfold wish
  by_cases hsel : s.selected = true
  · rw [if_pos hsel, hor]
  · rw [if_neg hsel, select_bit, hor]

/-- The register changes above the drive just when the motor was off. -/
theorem wish_changes (s : State) (nr : Drive) :
    (wish s nr ^^^ s.current_DOR) &&& 0xf0 ≠ 0 ↔ ¬On s nr := by
  have hall : ∀ (x : BitVec 8) (nr : Drive) (b : Bool),
      ((if b then motorBit nr ||| x else (motorBit nr ||| x) &&& 0xfc ||| .ofNat 8 nr) ^^^ x) &&&
        0xf0 ≠ 0 ↔ ¬x.getLsbD (4 + nr) = true := by
    decide +kernel
  exact hall s.current_DOR nr s.selected

/-! ## A tick -/

/-- What a tick is about: whether the motor is on, and its timers. -/
def drive (s : State) (nr : Drive) : Bool × Nat × Nat :=
  (s.current_DOR.getLsbD (4 + nr), s.mon_timer nr, s.moff_timer nr)

def tick : Bool × Nat × Nat → Bool × Nat × Nat
  | (false, mon, moff) => (false, mon, moff)
  | (true, mon + 1, moff) => (true, mon, moff)
  | (true, 0, moff + 1) => (true, 0, moff)
  | (true, 0, 0) => (false, 0, 0)

theorem motorTimer_drive (s : State) (i nr : Drive) :
    drive (motorTimer s i) nr = if nr = i then tick (drive s nr) else drive s nr := by
  unfold motorTimer
  dsimp only
  by_cases hoff : motorBit i &&& s.current_DOR = 0
  · have hbit : s.current_DOR.getLsbD (4 + i) = false :=
      Bool.eq_false_of_not_eq_true fun hon => (on_iff s i).mpr hon hoff
    rw [if_pos hoff]
    by_cases hi : nr = i
    · rw [if_pos hi, hi, drive, hbit, tick]
    · rw [if_neg hi]
  · have hbit : s.current_DOR.getLsbD (4 + i) = true := (on_iff s i).mp hoff
    rw [if_neg hoff]
    cases hmon : s.mon_timer i with
    | succ mon =>
        rw [if_pos (Nat.succ_ne_zero mon)]
        by_cases hi : nr = i
        · rw [if_pos hi, hi, drive, drive, hbit, hmon]
          exact congrArg (fun n => (true, n, s.moff_timer i)) (update_self ..)
        · rw [if_neg hi]
          exact congrArg (fun n => (_, n, s.moff_timer nr)) (update_of_ne hi ..)
    | zero =>
        rw [if_neg (not_not.mpr rfl)]
        cases hmoff : s.moff_timer i with
        | zero =>
            rw [if_pos rfl, motorBit_eq]
            have hclear : (s.current_DOR &&& ~~~BitVec.twoPow 8 (4 + i)).getLsbD (4 + nr) =
                if nr = i then false else s.current_DOR.getLsbD (4 + nr) :=
              (getLsbD_clear _ (bit_lt i) _).trans (if_congr bit_inj rfl rfl)
            by_cases hi : nr = i
            · rw [if_pos hi] at hclear ⊢
              rw [hi, drive, drive, hbit, hmon, hmoff, tick]
              rw [hi] at hclear
              exact congrArg₂ Prod.mk hclear (congrArg₂ Prod.mk hmon hmoff)
            · rw [if_neg hi] at hclear ⊢
              exact congrArg (·, s.mon_timer nr, s.moff_timer nr) hclear
        | succ moff =>
            rw [if_neg (Nat.succ_ne_zero moff)]
            by_cases hi : nr = i
            · rw [if_pos hi, hi, drive, drive, hbit, hmon, hmoff, tick]
              exact congrArg (fun n => (true, 0, n)) (update_self ..)
            · rw [if_neg hi]
              exact congrArg (fun n => (_, s.mon_timer nr, n)) (update_of_ne hi ..)

theorem motorTimer_port (i : Drive) (h : s.FD_DOR = s.current_DOR) :
    (motorTimer s i).FD_DOR = (motorTimer s i).current_DOR := by
  unfold motorTimer
  dsimp only
  split
  · exact h
  · split
    · exact h
    · split
      · rfl
      · exact h

theorem foldl_drive (nr : Drive) (l : List Drive) (hl : l.Nodup) (s : State) :
    drive (l.foldl motorTimer s) nr = if nr ∈ l then tick (drive s nr) else drive s nr := by
  induction l generalizing s with
  | nil => rfl
  | cons i l ih =>
      obtain ⟨hi, hl⟩ := List.nodup_cons.mp hl
      rw [List.foldl_cons, ih hl, motorTimer_drive]
      by_cases hnr : nr = i
      · rw [if_pos hnr, if_neg (hnr ▸ hi), if_pos (hnr ▸ List.mem_cons_self ..)]
      · rw [if_neg hnr]
        exact if_congr ⟨List.mem_cons_of_mem i, fun h => (List.mem_cons.mp h).resolve_left hnr⟩
          rfl rfl

theorem foldl_port (l : List Drive) (h : s.FD_DOR = s.current_DOR) :
    (l.foldl motorTimer s).FD_DOR = (l.foldl motorTimer s).current_DOR := by
  induction l generalizing s with
  | nil => exact h
  | cons i l ih => exact ih (motorTimer_port i h)

theorem do_timer_drive (s : State) (nr : Drive) : drive (do_timer s) nr = tick (drive s nr) := by
  unfold do_timer
  by_cases hany : s.current_DOR &&& 0xf0 ≠ 0
  · rw [if_pos hany, do_floppy_timer, foldl_drive nr _ (List.nodup_finRange 4),
      if_pos (List.mem_finRange nr)]
  · rw [if_neg hany, drive, none_on s.current_DOR nr (not_not.mp hany), tick]

theorem do_timer_port (h : s.FD_DOR = s.current_DOR) :
    (do_timer s).FD_DOR = (do_timer s).current_DOR := by
  unfold do_timer
  split
  · exact foldl_port _ h
  · exact h

theorem tick_cases (d : Bool × Nat × Nat) : (tick d).2.1 ≤ d.2.1 ∧ (tick d).2.2 ≤ d.2.2 ∧
    d.2.2 ≤ (tick d).2.2 + 1 ∧
    ((tick d).1 = true → d.1 = true ∧ d.2.1 ≤ (tick d).2.1 + 1 ∧
      (tick d).2.1 + (tick d).2.2 + 1 = d.2.1 + d.2.2) ∧
    (d.1 = true → (tick d).1 = false → d.2.2 = 0) := by
  match d with
  | (false, mon, moff) =>
      exact ⟨Nat.le_refl _, Nat.le_refl _, Nat.le_succ _, fun h => (nomatch h),
        fun h => (nomatch h)⟩
  | (true, mon + 1, moff) =>
      refine ⟨Nat.le_succ _, Nat.le_refl _, Nat.le_succ _, fun _ => ⟨rfl, Nat.le_refl _, ?_⟩,
        fun _ h => nomatch h⟩
      dsimp only [tick]
      omega
  | (true, 0, moff + 1) =>
      exact ⟨Nat.le_refl _, Nat.le_succ _, Nat.le_refl _, fun _ => ⟨rfl, Nat.le_succ _, rfl⟩,
        fun _ h => nomatch h⟩
  | (true, 0, 0) =>
      exact ⟨Nat.le_refl _, Nat.le_refl _, Nat.le_succ _, fun h => (nomatch h), fun _ _ => rfl⟩

/-! ## Every run -/

structure Kept (s : State) : Prop where
  port : s.FD_DOR = s.current_DOR
  mon_le : ∀ nr, s.mon_timer nr ≤ HZ / 2
  moff_le : ∀ nr, s.moff_timer nr ≤ 10000
  spun : ∀ nr, On s nr → s.since nr + HZ / 2 ≤ s.jiffies + s.mon_timer nr
  wanted : ∀ nr, s.wanted nr ≤ s.jiffies + s.moff_timer nr

/-- What an action leaves of the register and of the timers: one of a motor that comes on starts
at its full time, and none runs faster than the clock. -/
structure Follows (s : State) (a : Act) (s' : State) : Prop where
  port : s'.FD_DOR = s'.current_DOR
  mon_le : ∀ nr, s'.mon_timer nr ≤ HZ / 2
  moff_le : ∀ nr, s'.moff_timer nr ≤ 10000
  spun : ∀ nr, On s' nr → (if On s nr then s.mon_timer nr else HZ / 2) ≤
    s'.mon_timer nr + elapsed a
  wanted : ∀ nr, asked s a nr ≤ s.jiffies + elapsed a + s'.moff_timer nr

theorem Kept.setMoff (h : Kept s) (nr : Drive) {n : Nat} (hn : n ≤ 10000) (i : Drive) :
    (s.setMoff nr n).moff_timer i ≤ 10000 := by
  show update s.moff_timer nr n i ≤ 10000
  by_cases hi : i = nr
  · rw [hi, update_self]
    exact hn
  · rw [update_of_ne hi]
    exact h.moff_le i

/-- A drive is asked for as long as its timer is set. -/
theorem Kept.asks (h : Kept s) (nr : Drive) (n : Nat) (i : Drive) :
    update s.wanted nr (s.jiffies + n) i ≤ s.jiffies + 0 + update s.moff_timer nr n i := by
  by_cases hi : i = nr
  · rw [hi, update_self, update_self, Nat.add_zero]
  · rw [update_of_ne hi, update_of_ne hi, Nat.add_zero]
    exact h.wanted i

/-- The motors and their timers are as they were. -/
theorem Kept.still (h : Kept s) {a : Act} {s' : State} (ha : elapsed a = 0)
    (hasked : asked s a = s.wanted) (hport : s'.FD_DOR = s'.current_DOR)
    (hmon : s'.mon_timer = s.mon_timer) (hmoff : s'.moff_timer = s.moff_timer)
    (hon : ∀ nr, On s' nr → On s nr) : Follows s a s' where
  port := hport
  mon_le nr := hmon ▸ h.mon_le nr
  moff_le nr := hmoff ▸ h.moff_le nr
  spun nr hi := by rw [if_pos (hon nr hi), hmon, ha, Nat.add_zero]
  wanted nr := by
    rw [hasked, hmoff, ha, Nat.add_zero]
    exact h.wanted nr

theorem Kept.do_timer (h : Kept s) : Follows s .do_timer (do_timer s) := by
  have hcases := fun nr => do_timer_drive s nr ▸ tick_cases (drive s nr)
  refine ⟨do_timer_port h.port, fun nr => (hcases nr).1.trans (h.mon_le nr),
    fun nr => (hcases nr).2.1.trans (h.moff_le nr), fun nr hon => ?_, fun nr => ?_⟩
  · obtain ⟨hon', hmon, -⟩ := (hcases nr).2.2.2.1 hon
    rw [if_pos (show On s nr from hon')]
    exact hmon
  · have hmoff : s.moff_timer nr ≤ (Motor.do_timer s).moff_timer nr + 1 := (hcases nr).2.2.1
    have hwanted : s.wanted nr ≤ s.jiffies + s.moff_timer nr := h.wanted nr
    show s.wanted nr ≤ s.jiffies + 1 + (Motor.do_timer s).moff_timer nr
    omega

/-- What `switchOn` does to the timers of the motors, behind any setting of the others. -/
theorem switchOn_mon (s : State) (nr : Drive) (hport : s.FD_DOR = s.current_DOR)
    (hle : ∀ i, s.mon_timer i ≤ HZ / 2) :
    (switchOn s nr).FD_DOR = (switchOn s nr).current_DOR ∧
    (switchOn s nr).moff_timer = s.moff_timer ∧
    (∀ i, (switchOn s nr).mon_timer i ≤ HZ / 2) ∧
    ∀ i, On (switchOn s nr) i →
      (if On s i then s.mon_timer i else HZ / 2) ≤ (switchOn s nr).mon_timer i := by
  unfold Motor.switchOn
  dsimp only
  by_cases hmask : wish s nr ≠ s.current_DOR
  · have hon : ∀ i : Drive, (wish s nr).getLsbD (4 + i) = true → i ≠ nr → On s i :=
        fun i hi hne => by
      rwa [wish_bit, if_neg hne] at hi
    rw [if_pos hmask]
    by_cases hold : On s nr
    · -- only the drive is another one
      rw [if_neg (not_not.mpr hold ∘ (wish_changes s nr).mp)]
      have hmon : ∀ i, s.mon_timer i ≤ (if s.mon_timer nr < 2 then update s.mon_timer nr 2
          else s.mon_timer) i ∧ (if s.mon_timer nr < 2 then update s.mon_timer nr 2
          else s.mon_timer) i ≤ HZ / 2 := fun i => by
        by_cases hsmall : s.mon_timer nr < 2
        · rw [if_pos hsmall]
          by_cases hi : i = nr
          · rw [hi, update_self]
            exact ⟨hsmall.le, by decide⟩
          · rw [update_of_ne hi]
            exact ⟨Nat.le_refl _, hle i⟩
        · rw [if_neg hsmall]
          exact ⟨Nat.le_refl _, hle i⟩
      refine ⟨rfl, rfl, fun i => (hmon i).2, fun i hi => ?_⟩
      have hon' : On s i := if hne : i = nr then hne ▸ hold else hon i hi hne
      rw [if_pos hon']
      exact (hmon i).1
    · rw [if_pos ((wish_changes s nr).mpr hold)]
      refine ⟨rfl, rfl, fun i => ?_, fun i hi => ?_⟩
      · show update s.mon_timer nr (HZ / 2) i ≤ HZ / 2
        by_cases hne : i = nr
        · rw [hne, update_self]
        · rw [update_of_ne hne]
          exact hle i
      · show _ ≤ update s.mon_timer nr (HZ / 2) i
        by_cases hne : i = nr
        · rw [hne, update_self, if_neg hold]
        · rw [update_of_ne hne, if_pos (hon i hi hne)]
  · rw [if_neg hmask]
    exact ⟨hport, rfl, hle, fun i hi => by rw [if_pos hi]⟩

theorem Kept.perform (h : Kept s) (a : Act) : Follows s a (perform s a) := by
  cases a with
  | ticks_to_floppy_on nr =>
      obtain ⟨hport, hmoff, hle, hon⟩ :=
        switchOn_mon (s.setMoff nr 10000) nr h.port h.mon_le
      refine ⟨hport, hle, fun i => ?_, hon, fun i => ?_⟩
      · rw [Motor.perform, Motor.ticks_to_floppy_on, hmoff]
        exact h.setMoff nr (Nat.le_refl _) i
      · rw [Motor.perform, Motor.ticks_to_floppy_on, hmoff]
        exact h.asks nr 10000 i
  | floppy_off nr =>
      refine ⟨h.port, h.mon_le, h.setMoff nr (by decide), fun i hi => ?_, h.asks nr (3 * HZ)⟩
      rw [if_pos (show On s i from hi)]
      exact Nat.le_refl _
  | floppy_on_interrupt current_drive =>
      unfold Motor.perform floppy_on_interrupt
      dsimp only
      split
      · refine h.still rfl rfl rfl rfl rfl fun i hi => ?_
        exact (select_bit s.current_DOR i current_drive).symm.trans hi
      · exact h.still rfl rfl h.port rfl rfl fun _ => id
  | floppy_deselect => exact h.still rfl rfl h.port rfl rfl fun _ => id
  | reset_floppy => exact h.still rfl rfl rfl rfl rfl fun _ => id
  | do_timer => exact h.do_timer

theorem Kept.step {a : Act} (h : Kept s) (hs : step s a = some s') : Kept s' := by
  obtain rfl := Option.some.inj hs
  obtain ⟨hport, hmon, hmoff, hspun, hwanted⟩ := h.perform a
  refine ⟨hport, hmon, hmoff, fun nr hon => ?_, hwanted⟩
  have hspun' := hspun nr hon
  show (if On s nr then s.since nr else
    if On (Motor.perform s a) nr then s.jiffies else s.since nr) + HZ / 2 ≤
    s.jiffies + elapsed a + (Motor.perform s a).mon_timer nr
  by_cases hold : On s nr
  · have hbefore := h.spun nr hold
    rw [if_pos hold] at hspun' ⊢
    omega
  · rw [if_neg hold] at hspun' ⊢
    rw [if_pos (show On (Motor.perform s a) nr from hon)]
    omega

theorem start_kept : Kept start :=
  ⟨rfl, fun _ => Nat.zero_le _, fun _ => Nat.zero_le _,
    fun nr hon => absurd hon (by revert nr; decide), fun _ => Nat.zero_le _⟩

/-- A call that returns 0 has found the motor running. -/
theorem Kept.ready (h : Kept s) (hzero : (ticks_to_floppy_on s nr).1 = 0) :
    On s nr ∧ s.since nr + HZ / 2 ≤ s.jiffies := by
  have hmask : ¬wish (s.setMoff nr 10000) nr ≠ s.current_DOR := fun hmask => by
    have hset : (ticks_to_floppy_on s nr).1 ≠ 0 := by
      show (Motor.switchOn (s.setMoff nr 10000) nr).mon_timer nr ≠ 0
      unfold Motor.switchOn
      dsimp only
      rw [if_pos (show wish (s.setMoff nr 10000) nr ≠ (s.setMoff nr 10000).current_DOR from hmask)]
      dsimp only
      split
      · rw [update_self]
        decide
      · split
        · rw [update_self]
          decide
        · rename_i hsmall
          exact fun hz => hsmall (hz ▸ Nat.two_pos)
    exact hset hzero
  have hon : On s nr := by
    have hbit := wish_bit (s.setMoff nr 10000) nr nr
    rwa [if_pos rfl, not_not.mp hmask] at hbit
  have hmon : s.mon_timer nr = 0 := by
    have hsame : Motor.switchOn (s.setMoff nr 10000) nr = s.setMoff nr 10000 := if_neg hmask
    rwa [ticks_to_floppy_on, hsame] at hzero
  have hspun := h.spun nr hon
  rw [hmon] at hspun
  exact ⟨hon, hspun⟩

/-- With ticks alone a motor goes off when both timers have run down. -/
theorem ticks_off (nr : Drive) (n : Nat) :
    ∀ {s : State}, (On s nr → s.mon_timer nr + s.moff_timer nr < n) → ¬On (do_timer^[n] s) nr := by
  induction n with
  | zero => exact fun h hon => absurd (h hon) (Nat.not_lt_zero _)
  | succ n ih =>
      intro s h
      refine ih fun hon => ?_
      obtain ⟨hon', -, hsum⟩ := (do_timer_drive s nr ▸ tick_cases (drive s nr)).2.2.2.1 hon
      have hlt := h hon'
      have hsum' : (do_timer s).mon_timer nr + (do_timer s).moff_timer nr + 1 =
          s.mon_timer nr + s.moff_timer nr := hsum
      omega

/-- A motor for which `ticks_to_floppy_on` returns 0 has been on for half a second; no tick switches
a motor off that is still asked for; and ticks alone switch off every motor. -/
theorem motors_kept (h : Reach step Free start s) : s.FD_DOR = s.current_DOR ∧
    (∀ nr, (ticks_to_floppy_on s nr).1 = 0 → On s nr ∧ s.since nr + HZ / 2 ≤ s.jiffies) ∧
    (∀ nr, On s nr → ¬On (do_timer s) nr → s.wanted nr ≤ s.jiffies) ∧
    ∀ nr n, HZ / 2 + 10000 < n → ¬On (do_timer^[n] s) nr := by
  have hkept : Kept s := h.invariant start_kept fun _ _ _ hs _ hstep => hs.step hstep
  refine ⟨hkept.port, fun nr => hkept.ready, fun nr hon hoff => ?_, fun nr n hn => ?_⟩
  · have hzero := do_timer_drive s nr ▸ (tick_cases (drive s nr)).2.2.2.2 hon
    have hmoff : s.moff_timer nr = 0 := hzero (Bool.eq_false_of_not_eq_true hoff)
    have hwanted := hkept.wanted nr
    rwa [hmoff] at hwanted
  · have hmon := hkept.mon_le nr
    have hmoff := hkept.moff_le nr
    exact ticks_off nr n fun _ => by omega

/-- A drive is asked for, and half a second goes by. -/
def spinUp (nr : Drive) : List Act := .ticks_to_floppy_on nr :: List.replicate 50 .do_timer

theorem motors_kept_spinUp : ∃ s, exec step start (spinUp 1) = some s ∧ On s 1 ∧
    s.since 1 + HZ / 2 ≤ s.jiffies := by
  obtain ⟨s, hs, hzero⟩ := exec_any (p := fun s : State => (ticks_to_floppy_on s 1).1 = 0)
    (show ((exec step start (spinUp 1)).any
      fun s : State => decide ((ticks_to_floppy_on s 1).1 = 0)) = true by decide +kernel)
  exact ⟨s, hs, (motors_kept (exec_reach hs)).2.1 1 hzero⟩

end Motor

end Linux011
