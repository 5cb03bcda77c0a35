import Mathlib.Data.List.Range
import Mathlib.Tactic.Common

/-!
# Loading the system

`read_it` of `boot/bootsect.s` and the loop `do_move` of `boot/setup.s`. The boot sector reads the
system from the diskette to 0x10000, whole tracks at a time where it can, and never over a 64 kB
boundary; `setup` moves it to 0. Every byte of the system ends where the kernel expects it, and
every sector is read once (`system_in_place`).

The BIOS is not part of the kernel, so its `int 0x13` is a parameter. What `read_track` relies on is
stated in two parts. `Documented` says what a read does that is reported as done, and that a call
leaves the memory alone outside of what it reads and of what the BIOS has for itself; about a call
that is not `Valid`, or a failed read, nothing is said that a diskette could not do. `Settles` says
that a drive that is reset after each failure gets a read done in the end; without it `read_track`
goes on for ever.

`retry_reads` follows one call of `read_track` through its failures. From it, `Read.readTrack` is
the step of the outer loop: `Read` says how far the loader is on the diskette and in the memory, and
what the BIOS was asked for up to there, which `logged` writes down.
-/

namespace Linux011

namespace Boot

def SETUPLEN : Nat := 4
def SYSSIZE : Nat := 0x3000
def SYSSEG : Nat := 0x1000
def ENDSEG : Nat := SYSSEG + SYSSIZE

/-- The bytes of the diskette: track, head, sector (from 1 on), and place in the sector. -/
abbrev Diskette := Nat → Nat → Nat → Nat → UInt8

abbrev Memory := Nat → UInt8

variable {σ : Type*}

/-! ## The BIOS -/

/-- The registers that `int 0x13` reads. -/
structure Registers where
  ax : Nat
  bx : Nat
  cx : Nat
  dx : Nat
  es : Nat
deriving DecidableEq

namespace Registers

/-- in `ah`: 0 resets the drives, 2 reads -/
def service (r : Registers) : Nat := r.ax / 256

/-- in `al` -/
def count (r : Registers) : Nat := r.ax % 256

/-- in `ch`, with its upper bits in `cl` -/
def track (r : Registers) : Nat := r.cx / 256 + r.cx % 256 / 64 * 256

/-- in the lower bits of `cl` -/
def sector (r : Registers) : Nat := r.cx % 64

def head (r : Registers) : Nat := r.dx / 256

def drive (r : Registers) : Nat := r.dx % 256

/-- `es:bx` -/
def buffer (r : Registers) : Nat := r.es * 16 + r.bx

/-- Whether a read is for this byte of the memory. -/
def Into (r : Registers) (a : Nat) : Prop := r.buffer ≤ a ∧ a < r.buffer + r.count * 512

/-- The registers of `bad_rt`. -/
def reset (r : Registers) : Registers := { r with ax := 0, dx := 0 }

/-- A read that the BIOS does not refuse: of one track, and into one segment of the DMA. -/
structure Valid (sectors : Nat) (r : Registers) : Prop where
  service : r.service = 2
  drive : r.drive = 0
  track : r.track < 40
  head : r.head < 2
  sector : 0 < r.sector
  count : 0 < r.count
  fits : r.sector + r.count ≤ sectors + 1
  segment : r.bx + r.count * 512 ≤ 0x10000

end Registers

/-- `int 0x13`: the carry flag, and what is left of the drive and of the memory. -/
abbrev Bios (σ : Type*) := Registers → σ → Memory → Bool × σ × Memory

/-- The memory that the BIOS has for itself is `own`. -/
structure Documented (bios : Bios σ) (sectors : Nat) (disk : Diskette) (own : Nat → Prop) :
    Prop where
  apart : ∀ a, own a → a < 0x10000 ∨ 0x90000 ≤ a
  read : ∀ (r : Registers) b m, r.Valid sectors → (bios r b m).1 = false → ∀ i < r.count * 512,
    (bios r b m).2.2 (r.buffer + i) = disk r.track r.head (r.sector + i / 512) (i % 512)
  outside : ∀ (r : Registers) b m a, r.Valid sectors → ¬r.Into a → ¬own a → (bios r b m).2.2 a = m a
  reset : ∀ (r : Registers) b m a, r.Valid sectors → ¬own a → (bios r.reset b m).2.2 a = m a

/-- One of the next `n` attempts is done, with a reset behind every failure. -/
def Succeeds (bios : Bios σ) (r : Registers) : Nat → σ → Memory → Prop
  | 0, _, _ => False
  | n + 1, b, m => (bios r b m).1 = false ∨
      Succeeds bios r n (bios r.reset (bios r b m).2.1 (bios r b m).2.2).2.1
        (bios r.reset (bios r b m).2.1 (bios r b m).2.2).2.2

/-- No read fails `tries` times in a row. -/
def Settles (bios : Bios σ) (sectors tries : Nat) : Prop :=
  ∀ r b m, r.Valid sectors → Succeeds bios r tries b m

/-- A BIOS that writes down what it was asked for, and the carry flag. -/
def logged (bios : Bios σ) : Bios (σ × List (Registers × Bool)) := fun r b m =>
  let (carry, b', m') := bios r b.1 m
  (carry, (b', b.2 ++ [(r, carry)]), m')

/-! ## The boot sector -/

/-- The registers and variables of `read_it`, with the drive and the memory. -/
structure Loader (σ : Type*) where
  es : Nat
  bx : Nat
  sread : Nat
  head : Nat
  track : Nat
  bios : σ
  memory : Memory

/-- The registers of `read_track`: the track is in `ch`, and `cl` is what is left of `sread + 1`. -/
def Loader.request (s : Loader σ) (ax : Nat) : Registers where
  ax := 2 * 256 + ax % 256
  bx := s.bx
  cx := s.track % 256 * 256 + (s.sread + 1) % 256
  dx := s.head % 256 * 256 &&& 0x0100
  es := s.es

/-- `read_track`, for a number of attempts that bounds it. -/
def readTrack (bios : Bios σ) : Nat → Loader σ → Nat → Option (Loader σ)
  | 0, _, _ => none
  | n + 1, s, ax =>
      match bios (s.request ax) s.bios s.memory with
      | (false, b, m) => some { s with bios := b, memory := m }
      | (true, b, m) =>
          -- `bad_rt`
          let (_, b, m) := bios (s.request ax).reset b m
          readTrack bios n { s with bios := b, memory := m } ax

/-- From `ok1_read` on: the rest of the track, or of the segment. -/
def sectorsToRead (sectors : Nat) (s : Loader σ) : Nat :=
  let ax := (sectors + 0x10000 - s.sread) % 0x10000
  let cx := ax * 512 % 0x10000 + s.bx
  if cx < 0x10000 ∨ cx % 0x10000 = 0 then ax
  else (0x10000 - s.bx) % 0x10000 / 512

/-- Behind `read_track`: the next place on the diskette. -/
def nextSector (sectors : Nat) (s : Loader σ) (ax : Nat) : Loader σ :=
  let ax := (ax + s.sread) % 0x10000
  if ax ≠ sectors then { s with sread := ax }
  else
    let head := (1 + 0x10000 - s.head) % 0x10000
    { s with
      track := if head ≠ 0 then s.track else s.track + 1
      head := head
      sread := 0 }

/-- From `ok3_read` on: the next place in the memory. -/
def nextAddress (s : Loader σ) (cx : Nat) : Loader σ :=
  let bx := s.bx + cx * 512 % 0x10000
  if bx < 0x10000 then { s with bx := bx } else { s with es := s.es + 0x1000, bx := 0 }

/-- `rp_read`, for a number of rounds that bounds it, and of attempts in each. -/
def rpRead (sectors : Nat) (bios : Bios σ) (tries : Nat) : Nat → Loader σ → Option (Loader σ)
  | 0, _ => none
  | n + 1, s =>
      if ENDSEG ≤ s.es then some s
      else
        let ax := sectorsToRead sectors s
        (readTrack bios tries s ax).bind fun s =>
          rpRead sectors bios tries n (nextAddress (nextSector sectors s ax) ax)

/-- The boot sector and `setup` have been read. -/
def start (b : σ) (m : Memory) : Loader σ := ⟨SYSSEG, 0, 1 + SETUPLEN, 0, 0, b, m⟩

/-- `read_it`: a start that is not on a 64 kB boundary is the end. -/
def readIt (sectors : Nat) (bios : Bios σ) (tries n : Nat) (s : Loader σ) : Option (Loader σ) :=
  if s.es &&& 0x0fff ≠ 0 then none else rpRead sectors bios tries n { s with bx := 0 }

/-- `rep movsw` of 0x8000 words from the segment behind `es`. -/
def moveSegment (m : Memory) (es : Nat) : Memory := fun a =>
  if es * 16 ≤ a ∧ a < es * 16 + 0x10000 then m (a + 0x10000) else m a

/-- `do_move`, with `n` rounds left at most. -/
def doMove : Nat → Nat → Memory → Option Memory
  | 0, _, _ => none
  | n + 1, ax, m =>
      if ax + 0x1000 = 0x9000 then some m else doMove n (ax + 0x1000) (moveSegment m ax)

/-! ## One call of read_track -/

/-- The sectors that a call has read, counted over the heads and the tracks. -/
def numbers (sectors : Nat) (x : Registers × Bool) : List Nat :=
  if x.1.service = 2 ∧ x.2 = false then
    List.range' ((2 * x.1.track + x.1.head) * sectors + x.1.sector - 1) x.1.count
  else []

/-- A read of the rest of a track, or of what goes into the segment; or a reset. -/
def Asked (sectors : Nat) (r : Registers) : Prop :=
  r.Valid sectors ∧ (r.sector + r.count = sectors + 1 ∨ r.bx + r.count * 512 = 0x10000) ∨
    r.service = 0 ∧ r.drive = 0

variable {sectors tries k : Nat} {bios : Bios σ} {disk : Diskette} {own : Nat → Prop}
  {m : Memory} {r : Registers}

/-- A call of `read_track` goes on until a read is done. It changes the memory where the sectors
go, and the BIOS has been asked for the same sectors each time. -/
theorem retry_reads (hdoc : Documented bios sectors disk own) (n : Nat) :
    ∀ {s : Loader (σ × List (Registers × Bool))} {ax : Nat}, (s.request ax).Valid sectors →
      Succeeds bios (s.request ax) n s.bios.1 s.memory →
      ∃ b log m, readTrack (logged bios) n s ax =
          some { s with bios := (b, s.bios.2 ++ log), memory := m } ∧
        (∀ i < (s.request ax).count * 512, m ((s.request ax).buffer + i) =
          disk (s.request ax).track (s.request ax).head ((s.request ax).sector + i / 512)
            (i % 512)) ∧
        (∀ a, ¬(s.request ax).Into a → ¬own a → m a = s.memory a) ∧
        (∀ x ∈ log, x.1 = s.request ax ∨ x.1 = (s.request ax).reset) ∧
        log.flatMap (numbers sectors) = numbers sectors (s.request ax, false) := by
  induction n with
  | zero => exact fun _ hno => hno.elim
  | succ n ih =>
      intro s ax hvalid hsucc
      unfold readTrack logged
      rcases hcall : bios (s.request ax) s.bios.1 s.memory with ⟨carry, b, m⟩
      have hread := hdoc.read (s.request ax) s.bios.1 s.memory hvalid
      have hout := fun a => hdoc.outside (s.request ax) s.bios.1 s.memory a hvalid
      rw [hcall] at hread hout
      cases carry with
      | false =>
          refine ⟨b, [(s.request ax, false)], m, rfl, hread rfl, hout, fun x hx => ?_, ?_⟩
          · exact .inl (congrArg Prod.fst (List.mem_singleton.mp hx))
          · rw [List.flatMap_singleton]
      | true =>
          rcases hreset : bios (s.request ax).reset b m with ⟨c', b', m'⟩
          have hback := fun a => hdoc.reset (s.request ax) b m a hvalid
          rw [hreset] at hback
          have hnext : Succeeds bios (s.request ax) n b' m' := by
            rcases hsucc with hdone | hsucc
            · rw [hcall] at hdone
              cases hdone
            · rw [hcall] at hsucc
              dsimp only at hsucc
              rwa [hreset] at hsucc
          obtain ⟨b'', log, m'', hrun, hdata, hframe, hlog, hnumbers⟩ := ih
            (s := { s with
              bios := (b', (s.bios.2 ++ [(s.request ax, true)]) ++ [((s.request ax).reset, c')])
              memory := m' }) hvalid hnext
          refine ⟨b'', [(s.request ax, true), ((s.request ax).reset, c')] ++ log, m'', ?_, hdata,
            fun a ha ho => ?_, fun x hx => ?_, ?_⟩
          · dsimp only
            rw [hreset]
            dsimp only
            refine hrun.trans ?_
            rw [List.append_assoc, List.append_assoc]
            rfl
          · exact (hframe a ha ho).trans ((hback a ho).trans (hout a ha ho))
          · rcases List.mem_append.mp hx with hx | hx
            · rcases List.mem_cons.mp hx with rfl | hx
              · exact .inl rfl
              · exact .inr (congrArg Prod.fst (List.mem_singleton.mp hx))
            · exact hlog x hx
          · rw [List.flatMap_append, hnumbers]
            have hfailed : numbers sectors (s.request ax, true) = [] :=
              if_neg fun h => nomatch h.2
            have hnone : numbers sectors ((s.request ax).reset, c') = [] := if_neg fun h => by
              have hzero : (s.request ax).reset.service = 0 := Nat.zero_div 256
              exact nomatch hzero.symm.trans h.1
            rw [List.flatMap_cons, List.flatMap_singleton, hfailed, hnone]
            rfl

/-! ## The place on the diskette -/

/-- The sector with number `n`, counted over the heads and the tracks. -/
def sectorAt (sectors : Nat) (disk : Diskette) (n : Nat) : Nat → UInt8 :=
  disk (n / sectors / 2) (n / sectors % 2) (n % sectors + 1)

variable {s : Loader (σ × List (Registers × Bool))}

/-- `k` sectors of the system have been read. -/
structure Read (sectors : Nat) (disk : Diskette) (own : Nat → Prop) (m : Memory) (k : Nat)
    (s : Loader (σ × List (Registers × Bool))) : Prop where
  le : k ≤ 384
  place : (2 * s.track + s.head) * sectors + s.sread = 5 + k
  sread : s.sread < sectors
  head : s.head < 2
  es : s.es = SYSSEG + k / 128 * 0x1000
  bx : s.bx = k % 128 * 512
  memory : ∀ a, ¬own a → s.memory a =
    if 0x10000 ≤ a ∧ a < 0x10000 + k * 512 then
      sectorAt sectors disk (5 + (a - 0x10000) / 512) ((a - 0x10000) % 512)
    else m a
  asked : ∀ x ∈ s.bios.2, Asked sectors x.1
  once : s.bios.2.flatMap (numbers sectors) = List.range' 5 k

/-- A number of sectors that are all on the track, and all go into the segment, to the end of the
one or of the other. -/
structure Fits (sectors k : Nat) (s : Loader σ) (ax : Nat) : Prop where
  pos : 0 < ax
  track : ax + s.sread ≤ sectors
  segment : k % 128 + ax ≤ 128
  full : ax + s.sread = sectors ∨ k % 128 + ax = 128

theorem Read.fits (h : Read sectors disk own m k s) (hs : sectors ≤ 63) :
    Fits sectors k s (sectorsToRead sectors s) := by
  have hsread := h.sread
  have hbx := h.bx
  have hmod : k % 128 < 128 := Nat.mod_lt _ (by decide)
  have hax : (sectors + 0x10000 - s.sread) % 0x10000 = sectors - s.sread := by omega
  have hcx : (sectors - s.sread) * 512 % 0x10000 = (sectors - s.sread) * 512 := by omega
  unfold sectorsToRead
  dsimp only
  rw [hax, hcx, hbx]
  generalize hr : k % 128 = r at hmod ⊢
  by_cases hfit : (sectors - s.sread) * 512 + r * 512 ≤ 0x10000
  · rw [if_pos (by omega)]
    exact ⟨by omega, by omega, by rw [hr]; omega, .inl (by omega)⟩
  · have hleft : (0x10000 - r * 512) % 0x10000 / 512 = 128 - r := by omega
    rw [if_neg (by omega), hleft]
    exact ⟨by omega, by omega, by rw [hr]; omega, .inr (by rw [hr]; omega)⟩

theorem Read.more (h : Read sectors disk own m k s) (hmore : s.es < ENDSEG) : k < 384 := by
  have hes := h.es
  unfold SYSSEG at hes
  unfold ENDSEG SYSSEG SYSSIZE at hmore
  omega

theorem Read.track_lt (h : Read sectors disk own m k s) (hlow : 5 < sectors) : s.track < 40 := by
  have hle := h.le
  have hplace := h.place
  have hmul : (2 * s.track + s.head) * 6 ≤ (2 * s.track + s.head) * sectors :=
    Nat.mul_le_mul_left _ hlow
  omega

/-- Where the sectors behind the first `k` are. -/
theorem Read.sector (h : Read sectors disk own m k s) {j : Nat} (hj : s.sread + j < sectors) :
    sectorAt sectors disk (5 + k + j) = disk s.track s.head (s.sread + 1 + j) := by
  have hhead := h.head
  have hsum : 5 + k + j = (s.sread + j) + sectors * (2 * s.track + s.head) := by
    rw [← h.place, Nat.mul_comm]
    omega
  have hpos : 0 < sectors := Nat.zero_lt_of_lt hj
  unfold sectorAt
  rw [hsum, Nat.add_mul_div_left _ _ hpos, Nat.add_mul_mod_self_left, Nat.div_eq_of_lt hj,
    Nat.mod_eq_of_lt hj, Nat.zero_add, Nat.mul_add_div Nat.two_pos, Nat.div_eq_of_lt hhead,
    Nat.mul_add_mod, Nat.mod_eq_of_lt hhead, Nat.add_zero, Nat.add_right_comm]

theorem Read.request (h : Read sectors disk own m k s) (hlow : 5 < sectors) (hs : sectors ≤ 63)
    {ax : Nat} (hax : Fits sectors k s ax) :
    (s.request ax).service = 2 ∧ (s.request ax).drive = 0 ∧ (s.request ax).count = ax ∧
      (s.request ax).track = s.track ∧ (s.request ax).sector = s.sread + 1 ∧
      (s.request ax).head = s.head ∧ (s.request ax).buffer = 0x10000 + k * 512 := by
  have hsread := h.sread
  have hbx := h.bx
  have hes := h.es
  have htrack := h.track_lt hlow
  obtain ⟨hpos, hfit, -, -⟩ := hax
  have hdx : s.head % 256 * 256 &&& 0x0100 = s.head * 256 := by
    rcases (show s.head = 0 ∨ s.head = 1 by have := h.head; omega) with h0 | h1
    · rw [h0]
      rfl
    · rw [h1]
      rfl
  refine ⟨?_, ?_, ?_, ?_, ?_, ?_, ?_⟩
  · show (2 * 256 + ax % 256) / 256 = 2
    omega
  · show (s.head % 256 * 256 &&& 0x0100) % 256 = 0
    rw [hdx, Nat.mul_mod_left]
  · show (2 * 256 + ax % 256) % 256 = ax
    omega
  · show (s.track % 256 * 256 + (s.sread + 1) % 256) / 256 +
      (s.track % 256 * 256 + (s.sread + 1) % 256) % 256 / 64 * 256 = s.track
    omega
  · show (s.track % 256 * 256 + (s.sread + 1) % 256) % 64 = s.sread + 1
    omega
  · show (s.head % 256 * 256 &&& 0x0100) / 256 = s.head
    rw [hdx, Nat.mul_div_cancel _ (by decide)]
  · show s.es * 16 + s.bx = _
    unfold SYSSEG at hes
    omega

/-- One call of `read_track` asks for what the BIOS does not refuse, and brings the next sectors. -/
theorem Read.readTrack (h : Read sectors disk own m k s)
    (hdoc : Documented bios sectors disk own) (hset : Settles bios sectors tries)
    (hlow : 5 < sectors) (hs : sectors ≤ 63) {ax : Nat} (hax : Fits sectors k s ax) :
    ∃ b m', readTrack (logged bios) tries s ax = some { s with bios := b, memory := m' } ∧
      (∀ x ∈ b.2, Asked sectors x.1) ∧
      b.2.flatMap (numbers sectors) = List.range' 5 (k + ax) ∧
      ∀ a, ¬own a → m' a =
        if 0x10000 ≤ a ∧ a < 0x10000 + (k + ax) * 512 then
          sectorAt sectors disk (5 + (a - 0x10000) / 512) ((a - 0x10000) % 512)
        else m a := by
  obtain ⟨hservice, hdrive, hcount, htrack, hsector, hhead, hbuffer⟩ := h.request hlow hs hax
  obtain ⟨hpos, hfit, hseg, hfull⟩ := hax
  have hbx : (s.request ax).bx = k % 128 * 512 := h.bx
  have hvalid : (s.request ax).Valid sectors := by
    refine ⟨hservice, hdrive, ?_, ?_, ?_, ?_, ?_, ?_⟩
    · rw [htrack]
      exact h.track_lt hlow
    · rw [hhead]
      exact h.head
    · rw [hsector]
      exact Nat.succ_pos _
    · rw [hcount]
      exact hpos
    · rw [hsector, hcount]
      omega
    · rw [hbx, hcount]
      omega
  obtain ⟨b, log, m', hrun, hdata, hframe, hlog, hnumbers⟩ :=
    retry_reads hdoc tries hvalid (hset _ s.bios.1 s.memory hvalid)
  refine ⟨(b, s.bios.2 ++ log), m', hrun, fun x hx => ?_, ?_, fun a ho => ?_⟩
  · rcases List.mem_append.mp hx with hx | hx
    · exact h.asked x hx
    · rcases hlog x hx with heq | heq
      · refine .inl ⟨heq ▸ hvalid, ?_⟩
        rw [heq, hsector, hcount, hbx]
        omega
      · exact .inr (heq ▸ ⟨Nat.zero_div 256, Nat.zero_mod 256⟩)
  · have hplace := h.place
    rw [List.flatMap_append, h.once, hnumbers, numbers, if_pos ⟨hservice, rfl⟩, htrack, hhead,
      hsector, hcount, show (2 * s.track + s.head) * sectors + (s.sread + 1) - 1 = 5 + k by omega]
    exact List.range'_append_1
  · have hinto : (s.request ax).Into a ↔ 0x10000 + k * 512 ≤ a ∧
        a < 0x10000 + k * 512 + ax * 512 := by
      rw [Registers.Into, hbuffer, hcount]
    rw [hbuffer, hcount, htrack, hhead, hsector] at hdata
    by_cases hnew : 0x10000 + k * 512 ≤ a ∧ a < 0x10000 + k * 512 + ax * 512
    · rw [if_pos (by omega)]
      have hbyte := hdata (a - (0x10000 + k * 512)) (by omega)
      have hsec := h.sector (j := (a - (0x10000 + k * 512)) / 512) (by omega)
      rw [Nat.add_sub_cancel' hnew.1] at hbyte
      rw [hbyte, show 5 + (a - 0x10000) / 512 = 5 + k + (a - (0x10000 + k * 512)) / 512 by omega,
        hsec, show (a - 0x10000) % 512 = (a - (0x10000 + k * 512)) % 512 by omega]
    · rw [hframe a (hinto.not.mpr hnew) ho, h.memory a ho]
      by_cases hold : 0x10000 ≤ a ∧ a < 0x10000 + k * 512
      · have hall : 0x10000 ≤ a ∧ a < 0x10000 + (k + ax) * 512 := ⟨hold.1, by omega⟩
        rw [if_pos hold, if_pos hall]
      · have hall : ¬(0x10000 ≤ a ∧ a < 0x10000 + (k + ax) * 512) := fun hall => by
          rcases Nat.lt_or_ge a (0x10000 + k * 512) with hlt | hge
          · exact hold ⟨hall.1, hlt⟩
          · exact hnew ⟨hge, by omega⟩
        rw [if_neg hold, if_neg hall]

/-- Where the variables are behind `ok4_read`, and what is as it was. -/
theorem nextSector_place (s : Loader σ) (hsectors : sectors ≤ 63) {ax n : Nat}
    (hplace : (2 * s.track + s.head) * sectors + s.sread = n) (hsread : s.sread < sectors)
    (hhead : s.head < 2) (hfit : ax + s.sread ≤ sectors) :
    (2 * (nextSector sectors s ax).track + (nextSector sectors s ax).head) * sectors +
        (nextSector sectors s ax).sread = n + ax ∧
      (nextSector sectors s ax).sread < sectors ∧ (nextSector sectors s ax).head < 2 ∧
      (nextSector sectors s ax).es = s.es ∧ (nextSector sectors s ax).bx = s.bx ∧
      (nextSector sectors s ax).memory = s.memory ∧
      (nextSector sectors s ax).bios = s.bios := by
  have hsum : (ax + s.sread) % 0x10000 = ax + s.sread := Nat.mod_eq_of_lt (by omega)
  unfold nextSector
  dsimp only
  rw [hsum]
  by_cases hend : ax + s.sread = sectors
  · rw [if_neg (not_not.mpr hend)]
    dsimp only
    have hnext : ∀ track head, 2 * track + head = 2 * s.track + s.head + 1 →
        (2 * track + head) * sectors + 0 = n + ax := fun track head heq => by
      rw [heq, Nat.succ_mul]
      omega
    rcases (show s.head = 0 ∨ s.head = 1 by omega) with h0 | h1
    · rw [h0, if_pos (by decide)]
      exact ⟨hnext _ _ (by omega), by omega, by decide, rfl, rfl, rfl, rfl⟩
    · rw [h1, if_neg (by decide)]
      exact ⟨hnext _ _ (by omega), by omega, by decide, rfl, rfl, rfl, rfl⟩
  · rw [if_pos hend]
    exact ⟨by dsimp only; omega, by dsimp only; omega, hhead, rfl, rfl, rfl, rfl⟩

/-- Behind a call the variables are those of the next place. -/
theorem Read.next (h : Read sectors disk own m k s) (hs : sectors ≤ 63) (hmore : k < 384)
    {ax : Nat} (hax : Fits sectors k s ax) {b : σ × List (Registers × Bool)} {m' : Memory}
    (hasked : ∀ x ∈ b.2, Asked sectors x.1)
    (honce : b.2.flatMap (numbers sectors) = List.range' 5 (k + ax))
    (hm' : ∀ a, ¬own a → m' a =
      if 0x10000 ≤ a ∧ a < 0x10000 + (k + ax) * 512 then
        sectorAt sectors disk (5 + (a - 0x10000) / 512) ((a - 0x10000) % 512)
      else m a) :
    Read sectors disk own m (k + ax)
      (nextAddress (nextSector sectors { s with bios := b, memory := m' } ax) ax) := by
  have hbx := h.bx
  have hes := h.es
  obtain ⟨hpos, hfit, hseg, -⟩ := hax
  obtain ⟨hplace', hsread', hhead', hes', hbx', hmemory', hbios'⟩ :=
    nextSector_place { s with bios := b, memory := m' } hs h.place h.sread h.head hfit
  generalize nextSector sectors { s with bios := b, memory := m' } ax = t at *
  dsimp only at hplace' hes' hbx' hmemory' hbios'
  unfold SYSSEG at hes
  have hcx : ax * 512 % 0x10000 = ax * 512 := Nat.mod_eq_of_lt (by omega)
  unfold nextAddress
  dsimp only
  rw [hcx]
  by_cases hin : t.bx + ax * 512 < 0x10000
  · rw [if_pos hin]
    refine ⟨by omega, hplace'.trans (Nat.add_assoc 5 k ax), hsread', hhead', ?_, ?_,
      fun a ho => hmemory' ▸ hm' a ho, hbios' ▸ hasked, hbios' ▸ honce⟩
    · unfold SYSSEG
      dsimp only
      omega
    · dsimp only
      omega
  · rw [if_neg hin]
    refine ⟨by omega, hplace'.trans (Nat.add_assoc 5 k ax), hsread', hhead', ?_, ?_,
      fun a ho => hmemory' ▸ hm' a ho, hbios' ▸ hasked, hbios' ▸ honce⟩
    · unfold SYSSEG
      dsimp only
      omega
    · dsimp only
      omega

theorem Read.rpRead (n : Nat) (hdoc : Documented bios sectors disk own)
    (hset : Settles bios sectors tries) (hlow : 5 < sectors) (hs : sectors ≤ 63) :
    ∀ {k : Nat} {s : Loader (σ × List (Registers × Bool))}, Read sectors disk own m k s →
      384 < k + n → ∃ s', rpRead sectors (logged bios) tries n s = some s' ∧
        Read sectors disk own m 384 s' := by
  induction n with
  | zero => exact fun h hn => absurd h.le (Nat.not_le_of_lt hn)
  | succ n ih =>
      intro k s h hn
      unfold Boot.rpRead
      by_cases hend : ENDSEG ≤ s.es
      · have hle := h.le
        have hes := h.es
        rw [if_pos hend]
        unfold SYSSEG at hes
        unfold ENDSEG SYSSEG SYSSIZE at hend
        obtain rfl : k = 384 := by omega
        exact ⟨s, rfl, h⟩
      · have hmore := h.more (Nat.lt_of_not_le hend)
        have hpos := (h.fits hs).pos
        obtain ⟨b, m', hrun, hasked, honce, hmemory⟩ :=
          h.readTrack hdoc hset hlow hs (h.fits hs)
        rw [if_neg hend]
        dsimp only
        rw [hrun, Option.bind_some]
        exact ih (h.next hs hmore (h.fits hs) hasked honce hmemory) (by omega)

theorem read_start (hlow : 5 < sectors) (b : σ) (m : Memory) :
    Read sectors disk own m 0 (start (b, []) m) where
  le := Nat.zero_le _
  place := by
    show (2 * 0 + 0) * sectors + 5 = 5 + 0
    rw [Nat.zero_mul]
  sread := hlow
  head := Nat.two_pos
  es := rfl
  bx := rfl
  memory a _ := by rw [if_neg (by omega)]; rfl
  asked _ hx := nomatch hx
  once := rfl

/-! ## Moving the system -/

/-- The segments below `ax` have been moved down by one. -/
theorem doMove_moves (m : Memory) (n : Nat) : ∀ {ax : Nat} {m' : Memory}, ax % 0x1000 = 0 →
    ax ≤ 0x8000 → 0x8000 < ax + n * 0x1000 →
    (∀ a, m' a = if a < ax * 16 then m (a + 0x10000) else m a) →
    ∃ m'', doMove n ax m' = some m'' ∧
      ∀ a, m'' a = if a < 0x80000 then m (a + 0x10000) else m a := by
  induction n with
  | zero => exact fun _ hle hn => absurd hle (by omega)
  | succ n ih =>
      intro ax m' hmod hle hn hm'
      unfold doMove
      by_cases hend : ax + 0x1000 = 0x9000
      · rw [if_pos hend]
        refine ⟨m', rfl, fun a => ?_⟩
        obtain rfl : ax = 0x8000 := by omega
        exact hm' a
      · rw [if_neg hend]
        refine ih (by omega) (by omega) (by omega) fun a => ?_
        unfold moveSegment
        rw [hm', hm']
        by_cases hin : ax * 16 ≤ a ∧ a < ax * 16 + 0x10000
        · rw [if_pos hin, if_neg (by omega), if_pos (by omega)]
        · rw [if_neg hin]
          by_cases hbelow : a < ax * 16
          · rw [if_pos hbelow, if_pos (by omega)]
          · rw [if_neg hbelow, if_neg (by omega)]

/-- Behind the boot sector and `setup`, the system is at 0, byte for byte as it stands on the
diskette behind `setup`; both end, and the reads change nothing else in the memory. The BIOS is only
asked for what it does not refuse, each time up to the end of a track or of a segment, and reads
every sector of the system once, in their order. -/
theorem system_in_place (hlow : 5 < sectors) (hs : sectors ≤ 63)
    (hdoc : Documented bios sectors disk own) (hset : Settles bios sectors tries) (b : σ)
    (m : Memory) :
    ∃ s m', readIt sectors (logged bios) tries 385 (start (b, []) m) = some s ∧
      doMove 9 0 s.memory = some m' ∧
      (∀ i < 0x30000, m' i = sectorAt sectors disk (5 + i / 512) (i % 512)) ∧
      (∀ a, a < 0x10000 ∨ 0x40000 ≤ a → ¬own a → s.memory a = m a) ∧
      (∀ x ∈ s.bios.2, Asked sectors x.1) ∧
      s.bios.2.flatMap (numbers sectors) = List.range' 5 384 := by
  obtain ⟨s, hs', hread⟩ := Read.rpRead 385 hdoc hset hlow hs (read_start hlow b m) (by decide)
  have hnone : ∀ a, s.memory a = if a < 0 * 16 then s.memory (a + 0x10000) else s.memory a :=
    fun a => by rw [Nat.zero_mul, if_neg (Nat.not_lt_zero a)]
  obtain ⟨m', hmove, hm'⟩ := doMove_moves s.memory 9 rfl (by decide) (by decide) hnone
  have haligned : ¬(start (b, ([] : List (Registers × Bool))) m).es &&& 0x0fff ≠ 0 :=
    show ¬SYSSEG &&& 0x0fff ≠ 0 by decide
  have hit : readIt sectors (logged bios) tries 385 (start (b, []) m) = some s := by
    rw [readIt, if_neg haligned]
    exact hs'
  refine ⟨s, m', hit, hmove, fun i hi => ?_, fun a ha ho => ?_, hread.asked, hread.once⟩
  · have hin : 0x10000 ≤ i + 0x10000 ∧ i + 0x10000 < 0x10000 + 384 * 512 := by omega
    have hlow : i < 0x80000 := by omega
    have hfree : ¬own (i + 0x10000) := fun ho => by
      have hown := hdoc.apart _ ho
      omega
    rw [hm' i, if_pos hlow, hread.memory _ hfree, if_pos hin, Nat.add_sub_cancel]
  · rw [hread.memory a ho, if_neg (by omega)]

instance (r : Registers) (a : Nat) : Decidable (r.Into a) := inferInstanceAs (Decidable (_ ∧ _))

/-- A BIOS that does every third read. The others leave 0xff behind. -/
def slow (disk : Diskette) : Bios Nat := fun r b m =>
  if r.service ≠ 2 then (false, b, m)
  else if b % 3 = 2 then
    (false, b + 1, fun a => if r.Into a then
      disk r.track r.head (r.sector + (a - r.buffer) / 512) ((a - r.buffer) % 512) else m a)
  else (true, b + 1, fun a => if r.Into a then 0xff else m a)

theorem slow_documented (sectors : Nat) (disk : Diskette) :
    Documented (slow disk) sectors disk fun _ => False where
  apart _ hno := hno.elim
  read r b m hr hdone i hi := by
    unfold slow at hdone ⊢
    rw [if_neg (not_not.mpr hr.service)] at hdone ⊢
    by_cases hb : b % 3 = 2
    · have hin : r.Into (r.buffer + i) := ⟨Nat.le_add_right .., Nat.add_lt_add_left hi _⟩
      rw [if_pos hb]
      dsimp only
      rw [if_pos hin, Nat.add_sub_cancel_left]
    · rw [if_neg hb] at hdone
      cases hdone
  outside r b m a hr ha _ := by
    unfold slow
    rw [if_neg (not_not.mpr hr.service)]
    by_cases hb : b % 3 = 2
    · rw [if_pos hb]
      exact if_neg ha
    · rw [if_neg hb]
      exact if_neg ha
  reset r b m a _ _ := by
    have hzero : r.reset.service ≠ 2 := by
      rw [show r.reset.service = 0 from Nat.zero_div 256]
      decide
    rw [slow, if_pos hzero]

theorem slow_settles (sectors : Nat) (disk : Diskette) : Settles (slow disk) sectors 3 := by
  have hreset : ∀ r b m, slow disk (Registers.reset r) b m = (false, b, m) := fun r b m => by
    have hzero : r.reset.service ≠ 2 := by
      rw [show r.reset.service = 0 from Nat.zero_div 256]
      decide
    rw [slow, if_pos hzero]
  have hdone : ∀ r b m, r.Valid sectors → b % 3 = 2 → (slow disk r b m).1 = false :=
    fun r b m hr hb => by rw [slow, if_neg (not_not.mpr hr.service), if_pos hb]
  have hcount : ∀ r b m, r.Valid sectors → (slow disk r b m).2.1 = b + 1 := fun r b m hr => by
    rw [slow, if_neg (not_not.mpr hr.service)]
    split <;> rfl
  intro r b m hr
  rcases (show b % 3 = 2 ∨ (b + 1) % 3 = 2 ∨ (b + 1 + 1) % 3 = 2 by omega) with hb | hb | hb
  · exact .inl (hdone r b m hr hb)
  · refine .inr (.inl ?_)
    rw [hreset]
    exact hdone r _ _ hr (by rw [hcount r b m hr]; exact hb)
  · refine .inr (.inr (.inl ?_))
    rw [hreset, hreset]
    exact hdone r _ _ hr (by rw [hcount r _ _ hr, hcount r b m hr]; exact hb)

theorem system_in_place_18 : ∃ s m',
    readIt 18 (logged (slow fun _ head sector _ => .ofNat (head + sector))) 3 385
      (start (0, []) fun _ => 0) = some s ∧ doMove 9 0 s.memory = some m' ∧ m' 0x2000 = 5 := by
  obtain ⟨s, m', hs, hm', hsystem, -⟩ := system_in_place (by decide : 5 < 18) (by decide)
    (slow_documented 18 fun _ head sector _ => .ofNat (head + sector)) (slow_settles 18 _) 0
    fun _ => 0
  exact ⟨s, m', hs, hm', hsystem 0x2000 (by decide)⟩

end Boot

end Linux011
