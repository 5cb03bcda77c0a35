import Linux011.RequestQueue
import Linux011.Runs

/-!
# Requests of the hard disk

`kernel/blk_drv/hd.c` from the first command of a request to its end: the interrupts of the
controller, each with success or error, and what the driver starts again after an error. A
step has no successor where the driver panics or writes through a null pointer. The disks are
as `sys_setup` finds them; texts and delays are left out.

A request that an error does not end goes on from the sector it has reached. Two slips can end
it nevertheless: its second sector is checked against the end of the partition as if it had two
sectors to go, and `write_intr` does not clear `errors` (`request_survives`).

One request is followed from `make_request` to its end, through whatever other requests and
interrupts come meanwhile. `Steady` is about the driver alone: what the current request waits for
(`Phase`), that the controller is at its sector and has as many sectors to go (`Aimed`), and that
the requests behind it are as they were made. `Tracked` is about the request that is followed:
the log has the first part of its events, and the request is at the sector behind them. Both are
kept by each function of the driver in turn, from the bottom up, with `doHdRequest_spec` as the
one place where a command is given to the controller.

That the request is ended at all is a count. Each interrupt is a round, an error costs at most
four of them (a reset, a recalibration, a seek and the transfer), and `Budget` bounds the rounds
by the errors that were counted, so that no request takes more than 59 of them.
-/

namespace Linux011

open Runs

namespace HardDisk

def MAX_ERRORS : Nat := 7
def MAX_HD : Nat := 2

/-! ## The code -/

/-- A row of `hd_info`. -/
structure HdInfo where
  head : Nat
  sect : Nat
  cyl : Nat

/-- A row of `hd`. -/
structure Partition where
  start_sect : Nat
  nr_sects : Nat

/-- `NR_HD`, `hd_info` and `hd`: the sizes fit into the registers of the controller, and
partitions lie on their disk. -/
structure Disks where
  NR_HD : Nat
  hd_info : Nat → HdInfo
  hd : Nat → Partition
  number : NR_HD ≤ MAX_HD
  head : ∀ i < NR_HD, 0 < (hd_info i).head ∧ (hd_info i).head ≤ 16
  sect : ∀ i < NR_HD, 0 < (hd_info i).sect ∧ (hd_info i).sect < 256
  cyl : ∀ i < NR_HD, (hd_info i).cyl < 65536
  fits : ∀ dev < 5 * NR_HD, (hd dev).start_sect + (hd dev).nr_sects
    ≤ (hd_info (dev / 5)).cyl * (hd_info (dev / 5)).head * (hd_info (dev / 5)).sect

/-- A `struct request` of the driver; the last three fields are history. -/
structure HdRequest (n : Nat) extends Request n where
  errors : Nat
  nr_sectors : Nat
  buffer : UInt32
  /-- the number of requests that were made before -/
  id : Nat
  /-- errors since its last sector -/
  since : Nat
  /-- interrupts and waits for data that it took -/
  rounds : Nat

/-- What `do_hd` points to. -/
inductive Intr where
  | read_intr
  | write_intr
  | recal_intr
deriving DecidableEq

/-- The registers of the controller, and how many sectors it has transferred. -/
structure Command where
  drive : Nat
  nsect : Nat
  sect : Nat
  head : Nat
  cyl : Nat
  done : Nat

/-- A sector of a drive went from or to a buffer, or a request was ended. -/
inductive Event where
  | transferred (id : Nat) (cmd : Rw) (drive sector : Nat) (buffer : UInt32)
  | ended (id : Nat) (uptodate : Bool)
deriving DecidableEq

def Event.id : Event → Nat
  | .transferred id .. => id
  | .ended id _ => id

/-- The state of the driver and the controller. -/
structure Hd (n : Nat) where
  current_request : List (HdRequest n)
  reset : Bool
  recalibrate : Bool
  do_hd : Option Intr
  /-- `do_hd_request` waits for `DRQ_STAT` -/
  polling : Bool
  command : Command
  /-- the buffer of the last `port_write` -/
  sent : UInt32
  log : List Event
  /-- the number of requests that were made -/
  count : Nat

variable {n : Nat}

/-- `MINOR` -/
def minor (dev : UInt16) : Nat := dev.toNat % 256

/-- The sector of the drive that comes next. -/
def Command.sector (d : Disks) (c : Command) : Nat :=
  (c.cyl * (d.hd_info c.drive).head + c.head) * (d.hd_info c.drive).sect + (c.sect - 1) + c.done

def endRequest (s : Hd n) (uptodate : Bool) : Hd n :=
  match s.current_request with
  | [] => s
  | r :: rest => { s with current_request := rest, log := s.log ++ [.ended r.id uptodate] }

/-- Without a next request the test reads an entry of the page directory, which is larger. -/
def badRwIntr (s : Hd n) : Option (Hd n) :=
  match s.current_request with
  | [] => none
  | r :: rest =>
    let r := { r with errors := r.errors + 1, since := r.since + 1 }
    let s := { s with current_request := r :: rest }
    let s := if MAX_ERRORS ≤ r.errors then endRequest s false else s
    match s.current_request with
    | [] => some { s with reset := true }
    | r :: _ => some { s with reset := s.reset || decide (MAX_ERRORS / 2 < r.errors) }

/-- `hd_out` to a controller that is ready. -/
def hdOut (s : Hd n) (drive nsect sect head cyl : Nat) (intr : Intr) : Option (Hd n) :=
  if 1 < drive ∨ 15 < head then none
  else some { s with
    do_hd := some intr
    command := ⟨drive, nsect % 256, sect % 256, head, cyl % 65536, 0⟩ }

/-- The test of `do_hd_request`, which always counts two sectors. -/
def InPartition (d : Disks) (r : HdRequest n) : Prop :=
  minor r.dev < 5 * d.NR_HD ∧ (r.sector.toNat + 2) % 0x100000000 ≤ (d.hd (minor r.dev)).nr_sects

instance (d : Disks) (r : HdRequest n) : Decidable (InPartition d r) :=
  inferInstanceAs (Decidable (_ ∧ _))

/-- `do_hd_request` up to the first request that passes the test. -/
def dropOutside (d : Disks) (s : Hd n) : List (HdRequest n) → Hd n
  | [] => { s with current_request := [] }
  | r :: rest =>
    let s := { s with current_request := r :: rest }
    if InPartition d r then s else dropOutside d (endRequest s false) rest

/-- The rest of `do_hd_request`. -/
def startCommand (d : Disks) (s : Hd n) : Option (Hd n) :=
  match s.current_request with
  | [] => some s
  | r :: _ =>
    let dev := minor r.dev
    let info := d.hd_info (dev / 5)
    let block := (r.sector.toNat + (d.hd dev).start_sect) % 0x100000000
    let sec := block % info.sect + 1
    let head := block / info.sect % info.head
    let cyl := block / info.sect / info.head
    if s.reset then
      hdOut { s with reset := false, recalibrate := true } (dev / 5) info.sect info.sect
        (info.head - 1) info.cyl .recal_intr
    else if s.recalibrate then
      hdOut { s with recalibrate := false } (dev / 5) info.sect 0 0 0 .recal_intr
    else
      match r.cmd with
      | .write => hdOut { s with polling := true } (dev / 5) r.nr_sectors sec head cyl .write_intr
      | .read => hdOut s (dev / 5) r.nr_sectors sec head cyl .read_intr

def doHdRequest (d : Disks) (s : Hd n) : Option (Hd n) :=
  startCommand d (dropOutside d s s.current_request)

def failed (d : Disks) (s : Hd n) : Option (Hd n) := (badRwIntr s).bind (doHdRequest d)

/-- One sector of the command went from or to the buffer. -/
def transferred (d : Disks) (s : Hd n) (id : Nat) (cmd : Rw) (buffer : UInt32) : Hd n :=
  { s with
    log := s.log ++ [.transferred id cmd s.command.drive (s.command.sector d) buffer]
    command := { s.command with done := s.command.done + 1 } }

def readIntr (d : Disks) (s : Hd n) : Option (Hd n) :=
  match s.current_request with
  | [] => none
  | r :: rest =>
    let s := transferred d s r.id .read r.buffer
    let r := { r with
      errors := 0
      buffer := r.buffer + 512
      sector := r.sector + 1
      nr_sectors := r.nr_sectors - 1
      since := 0 }
    let s := { s with current_request := r :: rest }
    if r.nr_sectors ≠ 0 then some { s with do_hd := some .read_intr }
    else doHdRequest d (endRequest s true)

def writeIntr (d : Disks) (s : Hd n) : Option (Hd n) :=
  match s.current_request with
  | [] => none
  | r :: rest =>
    let s := transferred d s r.id .write s.sent
    let r := { r with nr_sectors := r.nr_sectors - 1, since := 0 }
    if r.nr_sectors ≠ 0 then
      let r := { r with sector := r.sector + 1, buffer := r.buffer + 512 }
      some { s with
        current_request := r :: rest
        do_hd := some .write_intr
        sent := r.buffer }
    else doHdRequest d (endRequest { s with current_request := r :: rest } true)

/-- History: the current request takes a round more. -/
def tick (s : Hd n) : Hd n :=
  match s.current_request with
  | [] => s
  | r :: rest => { s with current_request := { r with rounds := r.rounds + 1 } :: rest }

/-- The functions that `do_hd` points to; each asks `win_result` first. -/
def callIntr (d : Disks) (s : Hd n) (intr : Intr) (ok : Bool) : Option (Hd n) :=
  if ok then
    match intr with
    | .read_intr => readIntr d s
    | .write_intr => writeIntr d s
    | .recal_intr => doHdRequest d s
  else failed d s

/-- `hd_interrupt` takes the pointer and calls the function. -/
def hdInterrupt (d : Disks) (s : Hd n) (ok : Bool) : Option (Hd n) :=
  match s.do_hd with
  | none => some s
  | some intr => callIntr d { tick s with do_hd := none } intr ok

/-- The wait for `DRQ_STAT` after `WIN_WRITE`. -/
def drqWait (d : Disks) (s : Hd n) (ok : Bool) : Option (Hd n) :=
  let s := { tick s with polling := false }
  if ok then
    match s.current_request with
    | [] => none
    | r :: _ => some { s with sent := r.buffer }
  else failed d s

/-- What happens to the driver. -/
inductive Act (n : Nat) where
  | makeRequest (slot : Nat) (dev : UInt16) (cmd : Rw) (b_blocknr : UInt32) (bh : Fin n)
      (b_data : UInt32)
  | interrupt (ok : Bool)
  | drq (ok : Bool)

/-- What `make_request` writes into the slot. -/
def fill (id slot : Nat) (dev : UInt16) (cmd : Rw) (b_blocknr : UInt32) (bh : Fin n)
    (b_data : UInt32) : HdRequest n :=
  { Queue.fill slot dev cmd b_blocknr bh with
    errors := 0, nr_sectors := 2, buffer := b_data, id := id, since := 0, rounds := 0 }

/-- `add_request` calls `do_hd_request` when there was no request. -/
def addRequest (d : Disks) (s : Hd n) (r : HdRequest n) : Option (Hd n) :=
  match s.current_request with
  | [] => doHdRequest d { s with current_request := [r], count := s.count + 1 }
  | tmp :: rest => some { s with
      current_request := Elevator.insert (fun r => Queue.key r.toRequest) r (tmp :: rest)
      count := s.count + 1 }

def step (d : Disks) (s : Hd n) : Act n → Option (Hd n)
  | .makeRequest slot dev cmd b_blocknr bh b_data =>
    if s.polling then none else addRequest d s (fill s.count slot dev cmd b_blocknr bh b_data)
  | .interrupt ok => if s.polling then none else hdInterrupt d s ok
  | .drq ok => if s.polling then drqWait d s ok else none

def boot : Hd n where
  current_request := []
  reset := true
  recalibrate := true
  do_hd := none
  polling := false
  command := ⟨0, 0, 0, 0, 0, 0⟩
  sent := 0
  log := []
  count := 0

/-! ## What a request is for -/

/-- The action is an error of the current request. -/
def fails (s : Hd n) : Act n → Bool
  | .makeRequest .. => false
  | .interrupt ok => !ok && s.do_hd.isSome
  | .drq ok => !ok

/-- An error of request `id` has fewer than `MAX_ERRORS` errors with it since the last
sector. -/
def Few (id : Nat) (s : Hd n) (a : Act n) : Prop :=
  fails s a = true → ∀ r ∈ s.current_request.head?, r.id = id → r.since + 1 < MAX_ERRORS

/-- An error of request `id` does not come in the second sector of the last block of a
partition, and a write counts fewer than `MAX_ERRORS` errors in both sectors. -/
def Spared (d : Disks) (id : Nat) (s : Hd n) (a : Act n) : Prop :=
  fails s a = true → ∀ r ∈ s.current_request.head?, r.id = id →
    r.sector.toNat + 2 ≤ (d.hd (minor r.dev)).nr_sects ∧
      (r.cmd = .write → r.errors + 1 < MAX_ERRORS)

/-- The events of request `id`. -/
def eventsOf (id : Nat) (log : List Event) : List Event := log.filter fun e => e.id == id

/-- What `make_request` was asked for. -/
structure Job where
  id : Nat
  dev : UInt16
  cmd : Rw
  b_blocknr : UInt32
  b_data : UInt32

/-- What is to become of it: its two sectors, and its end. -/
def served (d : Disks) (j : Job) : List Event :=
  let drive := minor j.dev / 5
  let sector := (d.hd (minor j.dev)).start_sect + (sectorOf j.b_blocknr).toNat
  [.transferred j.id j.cmd drive sector j.b_data,
    .transferred j.id j.cmd drive (sector + 1) (j.b_data + 512),
    .ended j.id true]

/-! ## What holds between the steps -/

/-- A request in the queue behind the current one. -/
structure Fresh (r : HdRequest n) : Prop where
  nr_sectors : r.nr_sectors = 2
  errors : r.errors = 0
  since : r.since = 0
  rounds : r.rounds = 0
  room : r.sector.toNat + 2 ≤ 0x100000000

/-- A current request, before or after its first sector. -/
structure Good (r : HdRequest n) : Prop where
  nr_sectors : r.nr_sectors = 1 ∨ r.nr_sectors = 2
  errors : r.errors < MAX_ERRORS
  since : r.cmd = .read → r.since = r.errors
  room : r.sector.toNat + r.nr_sectors ≤ 0x100000000

/-- The rounds that a request took, with `p` that it may need before its next sector: an error
costs at most four, a sector saves more than all errors before it cost. -/
def Budget (p : Nat) (r : HdRequest n) : Prop :=
  r.rounds + 32 * r.nr_sectors + p ≤ 67 + 4 * r.errors

/-- The controller is at the sector of the request, and has as many to go. -/
structure Aimed (d : Disks) (c : Command) (r : HdRequest n) : Prop where
  drive : c.drive = minor r.dev / 5
  sector : c.sector d = (d.hd (minor r.dev)).start_sect + r.sector.toNat
  left : c.done + r.nr_sectors = c.nsect

/-- What the current request waits for. -/
inductive Phase (d : Disks) (s : Hd n) (r : HdRequest n) : Prop where
  | recal (hdo : s.do_hd = some .recal_intr) (hpoll : s.polling = false)
      (hpart : InPartition d r)
  | poll (hdo : s.do_hd = some .write_intr) (hpoll : s.polling = true) (hcmd : r.cmd = .write)
      (haim : r.sector.toNat < (d.hd (minor r.dev)).nr_sects → Aimed d s.command r)
      (hpart : InPartition d r)
  | read (hdo : s.do_hd = some .read_intr) (hpoll : s.polling = false) (hcmd : r.cmd = .read)
      (haim : r.sector.toNat < (d.hd (minor r.dev)).nr_sects → Aimed d s.command r)
  | write (hdo : s.do_hd = some .write_intr) (hpoll : s.polling = false) (hcmd : r.cmd = .write)
      (haim : r.sector.toNat < (d.hd (minor r.dev)).nr_sects → Aimed d s.command r)
      (hsent : s.sent = r.buffer)

/-- The rounds up to the transfer, at most. -/
def phase (s : Hd n) : Nat :=
  if s.do_hd = some .recal_intr then if s.recalibrate then 3 else 2
  else if s.polling then 1 else 0

/-- The same before `do_hd_request`. -/
def level (s : Hd n) : Nat := if s.reset then 3 else if s.recalibrate then 2 else 1

/-- Each request has its own number, and the log is about the requests that were made. -/
structure Books (s : Hd n) : Prop where
  ids : (s.current_request.map HdRequest.id).Nodup
  below : ∀ r ∈ s.current_request, r.id < s.count
  logged : ∀ e ∈ s.log, e.id < s.count

/-- The current request and those behind it. -/
def Queued (p : Nat) (l : List (HdRequest n)) : Prop :=
  ∀ r rest, l = r :: rest → Good r ∧ Budget p r ∧ ∀ w ∈ rest, Fresh w

structure Steady (d : Disks) (s : Hd n) : Prop extends Books s where
  queued : Queued (phase s) s.current_request
  idle : s.current_request = [] → s.polling = false
  busy : ∀ r rest, s.current_request = r :: rest → s.reset = false ∧ Phase d s r

variable {d : Disks} {s s' : Hd n} {r : HdRequest n} {rest : List (HdRequest n)}

theorem level_le (s : Hd n) : level s ≤ 3 := by
  unfold level
  split
  · exact Nat.le_refl 3
  · split
    · exact Nat.le_succ 2
    · exact Nat.le_add_left 1 2

theorem Fresh.good (h : Fresh r) : Good r := by
  refine ⟨Or.inr h.nr_sectors, ?_, fun _ => ?_, ?_⟩
  · rw [h.errors]
    exact Nat.zero_lt_succ 6
  · rw [h.since, h.errors]
  · rw [h.nr_sectors]
    exact h.room

theorem Fresh.budget (h : Fresh r) {p : Nat} (hp : p ≤ 3) : Budget p r := by
  rw [Budget, h.nr_sectors, h.errors, h.rounds]
  omega

theorem Queued.tail {p q : Nat} (h : Queued p (r :: rest)) (hq : q ≤ 3) : Queued q rest := by
  obtain ⟨-, -, hfresh⟩ := h r rest rfl
  rintro w ws rfl
  refine ⟨(hfresh w List.mem_cons_self).good, (hfresh w List.mem_cons_self).budget hq, ?_⟩
  exact fun w' hw' => hfresh w' (List.mem_cons_of_mem w hw')

/-! ## Starting a command -/

/-- `do_hd_request` ends the requests in front that do not pass the test. -/
theorem dropOutside_spec (d : Disks) (s : Hd n) (l : List (HdRequest n)) :
    ∃ gone kept, l = gone ++ kept ∧ (∀ r ∈ gone, ¬InPartition d r) ∧
      (∀ r rest, kept = r :: rest → InPartition d r) ∧
      dropOutside d s l = { s with
        current_request := kept
        log := s.log ++ gone.map fun r => .ended r.id false } := by
  induction l generalizing s with
  | nil =>
      refine ⟨[], [], rfl, fun r hr => absurd hr List.not_mem_nil, fun r rest h => ?_, ?_⟩
      · cases h
      · rw [dropOutside, List.map_nil, List.append_nil]
  | cons r rest ih =>
      by_cases hpart : InPartition d r
      · refine ⟨[], r :: rest, rfl, fun r hr => absurd hr List.not_mem_nil, ?_, ?_⟩
        · rintro r' rest' he
          obtain ⟨rfl, -⟩ := List.cons.inj he
          exact hpart
        · rw [dropOutside, if_pos hpart, List.map_nil, List.append_nil]
      · obtain ⟨gone, kept, hl, hgone, hkept, hdrop⟩ :=
          ih (endRequest { s with current_request := r :: rest } false)
        refine ⟨r :: gone, kept, by rw [hl]; rfl, fun w hw => ?_, hkept, ?_⟩
        · rcases List.mem_cons.mp hw with rfl | hw
          · exact hpart
          · exact hgone w hw
        · rw [dropOutside, if_neg hpart, hdrop]
          simp only [endRequest, List.map_cons, List.append_assoc, List.singleton_append]

/-- A sector is found again from its cylinder, head and place on the track. -/
theorem sector_chs (block sect head : Nat) :
    (block / sect / head * head + block / sect % head) * sect + block % sect = block := by
  rw [Nat.div_add_mod', Nat.div_add_mod']

/-- A sector of a partition is on the disk. -/
theorem block_lt (d : Disks) {dev sector : Nat} (hdev : dev < 5 * d.NR_HD)
    (hsec : sector < (d.hd dev).nr_sects) :
    sector + (d.hd dev).start_sect < (d.hd_info (dev / 5)).cyl * (d.hd_info (dev / 5)).head
      * (d.hd_info (dev / 5)).sect := by
  have := d.fits dev hdev
  omega

theorem size_lt (d : Disks) {i : Nat} (hi : i < d.NR_HD) :
    (d.hd_info i).cyl * (d.hd_info i).head * (d.hd_info i).sect < 0x10000000 := by
  calc (d.hd_info i).cyl * (d.hd_info i).head * (d.hd_info i).sect
      ≤ 65535 * 16 * 255 := Nat.mul_le_mul
        (Nat.mul_le_mul (Nat.le_of_lt_succ (d.cyl i hi)) (d.head i hi).2)
        (Nat.le_of_lt_succ (d.sect i hi).2)
    _ < 0x10000000 := by decide

theorem aimed_start (hpart : InPartition d r) (hn : r.nr_sectors ≤ 2)
    (hsec : r.sector.toNat < (d.hd (minor r.dev)).nr_sects) :
    let info := d.hd_info (minor r.dev / 5)
    let block := (r.sector.toNat + (d.hd (minor r.dev)).start_sect) % 0x100000000
    Aimed d ⟨minor r.dev / 5, r.nr_sectors % 256, (block % info.sect + 1) % 256,
      block / info.sect % info.head, block / info.sect / info.head % 65536, 0⟩ r := by
  intro info block
  have hdrive : minor r.dev / 5 < d.NR_HD := Nat.div_lt_of_lt_mul hpart.1
  have hblt := block_lt d hpart.1 hsec
  have hblock : block = r.sector.toNat + (d.hd (minor r.dev)).start_sect :=
    Nat.mod_eq_of_lt (Nat.lt_trans hblt (Nat.lt_trans (size_lt d hdrive) (by decide)))
  have hplace : (block % info.sect + 1) % 256 = block % info.sect + 1 := by
    obtain ⟨hpos, hlt⟩ := d.sect _ hdrive
    exact Nat.mod_eq_of_lt (Nat.lt_of_le_of_lt (Nat.mod_lt block hpos) hlt)
  have hcyl : block / info.sect / info.head % 65536 = block / info.sect / info.head := by
    refine Nat.mod_eq_of_lt (Nat.lt_trans ?_ (d.cyl _ hdrive))
    rw [Nat.div_lt_iff_lt_mul (d.head _ hdrive).1, Nat.div_lt_iff_lt_mul (d.sect _ hdrive).1,
      hblock]
    exact hblt
  refine ⟨rfl, ?_, ?_⟩
  · show (block / info.sect / info.head % 65536 * info.head + block / info.sect % info.head)
      * info.sect + ((block % info.sect + 1) % 256 - 1) + 0 = _
    rw [hplace, hcyl, Nat.add_sub_cancel, Nat.add_zero, sector_chs, hblock, Nat.add_comm]
  · show 0 + r.nr_sectors = r.nr_sectors % 256
    omega

/-- The current request gets a command: a reset, a recalibration, or its own. -/
theorem startCommand_spec (hpoll : s.polling = false) (hs : s.current_request = r :: rest)
    (hpart : InPartition d r) (hn : r.nr_sectors ≤ 2) :
    ∃ s', startCommand d s = some s' ∧ s'.current_request = s.current_request ∧
      s'.log = s.log ∧ s'.count = s.count ∧ s'.reset = false ∧ Phase d s' r ∧
      phase s' ≤ level s := by
  have hdrive : minor r.dev / 5 < d.NR_HD := Nat.div_lt_of_lt_mul hpart.1
  have hle : ¬1 < minor r.dev / 5 := by
    have := d.number
    simp only [MAX_HD] at this
    omega
  obtain ⟨hpos, hhead⟩ := d.head _ hdrive
  unfold startCommand level
  rw [hs]
  dsimp only
  split
  · refine ⟨_, if_neg (not_or.mpr ⟨hle, by omega⟩), rfl, rfl, rfl, rfl, ?_, ?_⟩
    · exact .recal rfl hpoll hpart
    · simp [phase]
  · rename_i hreset
    split
    · refine ⟨_, if_neg (not_or.mpr ⟨hle, by omega⟩), rfl, rfl, rfl, ?_, ?_, ?_⟩
      · exact Bool.eq_false_iff.mpr hreset
      · exact .recal rfl hpoll hpart
      · simp [phase]
    · have htrack : ¬15 < (r.sector.toNat + (d.hd (minor r.dev)).start_sect) % 0x100000000
          / (d.hd_info (minor r.dev / 5)).sect % (d.hd_info (minor r.dev / 5)).head := by
        have := Nat.mod_lt ((r.sector.toNat + (d.hd (minor r.dev)).start_sect) % 0x100000000
          / (d.hd_info (minor r.dev / 5)).sect) hpos
        omega
      split
      · rename_i hcmd
        refine ⟨_, if_neg (not_or.mpr ⟨hle, htrack⟩), rfl, rfl, rfl, ?_, ?_, ?_⟩
        · exact Bool.eq_false_iff.mpr hreset
        · exact .poll rfl rfl hcmd (fun hsec => aimed_start hpart hn hsec) hpart
        · simp [phase]
      · rename_i hcmd
        refine ⟨_, if_neg (not_or.mpr ⟨hle, htrack⟩), hs, rfl, rfl, ?_, ?_, ?_⟩
        · exact Bool.eq_false_iff.mpr hreset
        · exact .read rfl hpoll hcmd fun hsec => aimed_start hpart hn hsec
        · simp [phase, hpoll]

/-! ## The queue and the log -/

/-- The queue loses requests or keeps their numbers, and the log is extended. -/
theorem Books.of (h : Books s) {events : List Event}
    (hids : (s'.current_request.map HdRequest.id).Sublist (s.current_request.map HdRequest.id))
    (hlog : s'.log = s.log ++ events) (hevents : ∀ e ∈ events, e.id < s.count)
    (hcount : s'.count = s.count) : Books s' := by
  refine ⟨h.ids.sublist hids, fun r hr => ?_, fun e he => ?_⟩
  · obtain ⟨w, hw, he⟩ := List.mem_map.mp (hids.subset (List.mem_map_of_mem hr))
    rw [← he, hcount]
    exact h.below w hw
  · rw [hlog] at he
    rw [hcount]
    rcases List.mem_append.mp he with he | he
    · exact h.logged e he
    · exact hevents e he

theorem Budget.mono {p q : Nat} (h : Budget q r) (hp : p ≤ q) : Budget p r := by
  unfold Budget at *
  omega

theorem Queued.mono {p q : Nat} {l : List (HdRequest n)} (h : Queued q l) (hp : p ≤ q) :
    Queued p l := by
  intro r rest he
  obtain ⟨hg, hb, hfresh⟩ := h r rest he
  exact ⟨hg, hb.mono hp, hfresh⟩

theorem Queued.append {p : Nat} (hp : p ≤ 3) {gone kept : List (HdRequest n)}
    (h : Queued p (gone ++ kept)) : Queued p kept := by
  induction gone with
  | nil => exact h
  | cons r rest ih => exact ih (Queued.tail h hp)

/-- `do_hd_request` ends requests that do not pass the test, and starts the next one. -/
theorem doHdRequest_spec (hb : Books s) (hpoll : s.polling = false)
    (hq : Queued (level s) s.current_request) :
    ∃ s' gone, doHdRequest d s = some s' ∧ Steady d s' ∧ s'.count = s.count ∧
      s.current_request = gone ++ s'.current_request ∧ (∀ r ∈ gone, ¬InPartition d r) ∧
      s'.log = s.log ++ gone.map fun r => .ended r.id false := by
  obtain ⟨gone, kept, hl, hgone, hkept, hdrop⟩ := dropOutside_spec d s s.current_request
  rw [doHdRequest, hdrop]
  have hbooks : ∀ s₁ : Hd n, s₁.current_request = kept →
      s₁.log = s.log ++ (gone.map fun r => .ended r.id false) → s₁.count = s.count →
      Books s₁ := by
    intro s₁ hcur hlog hcount
    refine hb.of ?_ hlog (fun e he => ?_) hcount
    · rw [hcur, hl, List.map_append]
      exact List.sublist_append_right ..
    · obtain ⟨r, hr, rfl⟩ := List.mem_map.mp he
      exact hb.below r (hl ▸ List.mem_append_left kept hr)
  rw [hl] at hq
  have hq := Queued.append (level_le s) hq
  cases kept with
  | nil =>
      refine ⟨_, gone, rfl, ⟨hbooks _ rfl rfl rfl, fun r rest h => ?_, fun _ => hpoll,
        fun r rest h => ?_⟩, rfl, hl, hgone, rfl⟩
      · cases h
      · cases h
  | cons r rest =>
      obtain ⟨hg, -, -⟩ := hq r rest rfl
      have hn : r.nr_sectors ≤ 2 := by
        have := hg.nr_sectors
        omega
      obtain ⟨s', hstart, hcur, hlog, hcount, hreset, hphase, hle⟩ :=
        @startCommand_spec n d { s with
          current_request := r :: rest
          log := s.log ++ gone.map fun r => .ended r.id false } r rest hpoll rfl
          (hkept r rest rfl) hn
      refine ⟨s', gone, hstart, ⟨hbooks s' hcur hlog hcount, ?_, fun h => ?_, ?_⟩, hcount, ?_,
        hgone, hlog⟩
      · rw [hcur]
        exact hq.mono hle
      · rw [hcur] at h
        cases h
      · rw [hcur]
        rintro r' rest' he
        obtain ⟨rfl, -⟩ := List.cons.inj he
        exact ⟨hreset, hphase⟩
      · rw [hl, hcur]

/-- The request of a job, at its first or second sector. -/
structure Own (j : Job) (r : HdRequest n) : Prop where
  dev : r.dev = j.dev
  cmd : r.cmd = j.cmd
  sector : r.sector.toNat + r.nr_sectors = (sectorOf j.b_blocknr).toNat + 2
  first : r.nr_sectors = 2 → r.buffer = j.b_data
  second : r.nr_sectors = 1 → r.buffer = j.b_data + 512

/-- The job is in the queue and the log has what its request has done, or it is served. -/
structure Tracked (d : Disks) (j : Job) (s : Hd n) : Prop where
  own : ∀ r ∈ s.current_request, r.id = j.id →
    Own j r ∧ eventsOf j.id s.log = (served d j).take (2 - r.nr_sectors)
  gone : (∀ r ∈ s.current_request, r.id ≠ j.id) → eventsOf j.id s.log = served d j

variable {j : Job}

/-- The block of a job lies in its partition. -/
def Inside (d : Disks) (j : Job) : Prop :=
  minor j.dev < 5 * d.NR_HD ∧ (sectorOf j.b_blocknr).toNat + 2 ≤ (d.hd (minor j.dev)).nr_sects

theorem eventsOf_append (id : Nat) (l l' : List Event) :
    eventsOf id (l ++ l') = eventsOf id l ++ eventsOf id l' := List.filter_append ..

theorem eventsOf_other {id : Nat} {l : List Event} (h : ∀ e ∈ l, e.id ≠ id) :
    eventsOf id l = [] :=
  List.filter_eq_nil_iff.mpr fun e he hid => h e he (beq_iff_eq.mp hid)

theorem eventsOf_own {id : Nat} {l : List Event} (h : ∀ e ∈ l, e.id = id) :
    eventsOf id l = l :=
  List.filter_eq_self.mpr fun e he => beq_iff_eq.mpr (h e he)

/-- A step that changes neither the request of the job nor its events. -/
theorem Tracked.congr (h : Tracked d j s) {events : List Event}
    (hown : ∀ r' ∈ s'.current_request, r'.id = j.id → ∃ r ∈ s.current_request, r.id = j.id ∧
      r'.nr_sectors = r.nr_sectors ∧ (Own j r → Own j r'))
    (hkept : ∀ r ∈ s.current_request, r.id = j.id → ∃ r' ∈ s'.current_request, r'.id = j.id)
    (hlog : s'.log = s.log ++ events) (hevents : ∀ e ∈ events, e.id ≠ j.id) :
    Tracked d j s' := by
  have hsame : eventsOf j.id s'.log = eventsOf j.id s.log := by
    rw [hlog, eventsOf_append, eventsOf_other hevents, List.append_nil]
  constructor
  · intro r' hr' hid
    obtain ⟨r, hr, hrid, hn, ho⟩ := hown r' hr' hid
    obtain ⟨howns, hev⟩ := h.own r hr hrid
    rw [hsame, hn]
    exact ⟨ho howns, hev⟩
  · intro hno
    rw [hsame]
    refine h.gone fun r hr hid => ?_
    obtain ⟨r', hr', hid'⟩ := hkept r hr hid
    exact hno r' hr' hid'

theorem Tracked.drop (h : Tracked d j s) {gone : List (HdRequest n)} {b : Bool}
    (hcur : s.current_request = gone ++ s'.current_request) (hgone : ∀ r ∈ gone, r.id ≠ j.id)
    (hlog : s'.log = s.log ++ gone.map fun r => .ended r.id b) : Tracked d j s' := by
  refine h.congr (fun r hr hid => ⟨r, ?_, hid, rfl, id⟩) (fun r hr hid => ⟨r, ?_, hid⟩) hlog ?_
  · rw [hcur]
    exact List.mem_append_right gone hr
  · rw [hcur] at hr
    rcases List.mem_append.mp hr with hr | hr
    · exact absurd hid (hgone r hr)
    · exact hr
  · intro e he
    obtain ⟨r, hr, rfl⟩ := List.mem_map.mp he
    exact hgone r hr

theorem inPartition_of (hdev : minor r.dev < 5 * d.NR_HD)
    (hsec : r.sector.toNat + 2 ≤ (d.hd (minor r.dev)).nr_sects) : InPartition d r := by
  have hlt := size_lt d (Nat.div_lt_of_lt_mul hdev)
  have hfits := d.fits _ hdev
  refine ⟨hdev, ?_⟩
  rw [Nat.mod_eq_of_lt (by omega)]
  exact hsec

/-- Before its first sector the request of a job passes the test. -/
theorem Own.inPartition (h : Own j r) (hin : Inside d j) (hn : r.nr_sectors = 2) :
    InPartition d r := by
  have hsec := h.sector
  rw [hn] at hsec
  refine inPartition_of ?_ ?_
  · rw [h.dev]
    exact hin.1
  · rw [h.dev, hsec]
    exact hin.2

theorem doHdRequest_keeps (hb : Books s) (hpoll : s.polling = false)
    (hq : Queued (level s) s.current_request) :
    ∃ s', doHdRequest d s = some s' ∧ Steady d s' ∧ s'.count = s.count ∧
      ∀ j, Tracked d j s → (∀ r ∈ s.current_request, r.id = j.id → InPartition d r) →
        Tracked d j s' := by
  obtain ⟨s', gone, hdo, hsteady, hcount, hcur, hgone, hlog⟩ := @doHdRequest_spec n d s hb hpoll hq
  refine ⟨s', hdo, hsteady, hcount, fun j h hpart => h.drop hcur (fun r hr hid => ?_) hlog⟩
  refine hgone r hr (hpart r ?_ hid)
  rw [hcur]
  exact List.mem_append_left _ hr

theorem Tracked.head (h : Tracked d j s) {r' : HdRequest n} (hs : s.current_request = r :: rest)
    (hs' : s'.current_request = r' :: rest) (hlog : s'.log = s.log) (hid : r'.id = r.id)
    (hn : r'.nr_sectors = r.nr_sectors) (hown : Own j r → Own j r') : Tracked d j s' := by
  refine h.congr (fun w hw hwid => ?_) (fun w hw hwid => ?_)
    (hlog.trans (List.append_nil s.log).symm) fun e he => absurd he List.not_mem_nil
  · rw [hs'] at hw
    rw [hs]
    rcases List.mem_cons.mp hw with rfl | hw
    · exact ⟨r, List.mem_cons_self, hid.symm.trans hwid, hn, hown⟩
    · exact ⟨w, List.mem_cons_of_mem r hw, hwid, rfl, fun ho => ho⟩
  · rw [hs] at hw
    rw [hs']
    rcases List.mem_cons.mp hw with rfl | hw
    · exact ⟨r', List.mem_cons_self, hid.trans hwid⟩
    · exact ⟨w, List.mem_cons_of_mem r' hw, hwid⟩

theorem Books.head (h : Books s) {r' : HdRequest n} (hs : s.current_request = r :: rest)
    (hs' : s'.current_request = r' :: rest) (hid : r'.id = r.id) {events : List Event}
    (hlog : s'.log = s.log ++ events) (hevents : ∀ e ∈ events, e.id < s.count)
    (hcount : s'.count = s.count) : Books s' := by
  refine h.of ?_ hlog hevents hcount
  rw [hs, hs', List.map_cons, List.map_cons, hid]

theorem Queued.fresh {p : Nat} (hp : p ≤ 3) (h : ∀ w ∈ rest, Fresh w) : Queued p rest := by
  rintro w ws rfl
  have hw := h w List.mem_cons_self
  exact ⟨hw.good, hw.budget hp, fun w' hw' => h w' (List.mem_cons_of_mem w hw')⟩

/-! ## Errors -/

theorem badRwIntr_spec (hs : s.current_request = r :: rest) :
    ∃ s', badRwIntr s = some s' ∧ s'.polling = s.polling ∧ s'.count = s.count ∧
      (r.errors + 1 < MAX_ERRORS ∧ s'.log = s.log ∧
        s'.current_request = { r with errors := r.errors + 1, since := r.since + 1 } :: rest ∨
      MAX_ERRORS ≤ r.errors + 1 ∧ s'.log = s.log ++ [.ended r.id false] ∧
        s'.current_request = rest) := by
  unfold badRwIntr
  rw [hs]
  dsimp only
  by_cases hmax : MAX_ERRORS ≤ r.errors + 1
  · rw [if_pos hmax]
    cases rest with
    | nil => exact ⟨_, rfl, rfl, rfl, Or.inr ⟨hmax, rfl, rfl⟩⟩
    | cons w ws => exact ⟨_, rfl, rfl, rfl, Or.inr ⟨hmax, rfl, rfl⟩⟩
  · rw [if_neg hmax]
    exact ⟨_, rfl, rfl, rfl, Or.inl ⟨Nat.lt_of_not_le hmax, rfl, rfl⟩⟩

/-- After an error the request goes on, or the next one is started. -/
theorem failed_spec (hb : Books s) (hpoll : s.polling = false)
    (hs : s.current_request = r :: rest) (hg : Good r)
    (hbud : r.rounds + 32 * r.nr_sectors ≤ 68 + 4 * r.errors) (hfresh : ∀ w ∈ rest, Fresh w) :
    ∃ s', failed d s = some s' ∧ Steady d s' ∧ s'.count = s.count ∧
      ∀ j, Tracked d j s → (r.id = j.id → InPartition d r ∧ r.errors + 1 < MAX_ERRORS) →
        (∀ w ∈ rest, w.id = j.id → InPartition d w) → Tracked d j s' := by
  obtain ⟨s₁, hbad, hpoll₁, hcount₁, ⟨hmax, hlog, hcur⟩ | ⟨hmax, hlog, hcur⟩⟩ := badRwIntr_spec hs
  · have hb₁ : Books s₁ := hb.head hs hcur rfl (hlog.trans (List.append_nil s.log).symm)
      (fun e he => absurd he List.not_mem_nil) hcount₁
    have hq₁ : Queued (level s₁) s₁.current_request := by
      rw [hcur]
      rintro r' rest' he
      obtain ⟨rfl, rfl⟩ := List.cons.inj he
      refine ⟨⟨hg.nr_sectors, hmax, fun hcmd => ?_, hg.room⟩, ?_, hfresh⟩
      · exact congrArg (· + 1) (hg.since hcmd)
      · refine Budget.mono ?_ (level_le s₁)
        show r.rounds + 32 * r.nr_sectors + 3 ≤ 67 + 4 * (r.errors + 1)
        omega
    obtain ⟨s', hdo, hsteady, hcount, htrack⟩ :=
      @doHdRequest_keeps n d s₁ hb₁ (hpoll₁.trans hpoll) hq₁
    refine ⟨s', ?_, hsteady, hcount.trans hcount₁, fun j h hr hrest => htrack j ?_ ?_⟩
    · rw [failed, hbad]
      exact hdo
    · exact h.head hs hcur hlog rfl rfl fun ho => ⟨ho.1, ho.2, ho.3, ho.4, ho.5⟩
    · intro w hw hid
      rw [hcur] at hw
      rcases List.mem_cons.mp hw with rfl | hw
      · exact (hr hid).1
      · exact hrest w hw hid
  · have hb₁ : Books s₁ := by
      refine hb.of ?_ hlog (fun e he => ?_) hcount₁
      · rw [hcur, hs]
        exact List.sublist_cons_self ..
      · obtain rfl := List.mem_singleton.mp he
        exact hb.below r (hs ▸ List.mem_cons_self)
    have hq₁ : Queued (level s₁) s₁.current_request := by
      rw [hcur]
      exact Queued.fresh (level_le s₁) hfresh
    obtain ⟨s', hdo, hsteady, hcount, htrack⟩ :=
      @doHdRequest_keeps n d s₁ hb₁ (hpoll₁.trans hpoll) hq₁
    refine ⟨s', ?_, hsteady, hcount.trans hcount₁, fun j h hr hrest => htrack j ?_ ?_⟩
    · rw [failed, hbad]
      exact hdo
    · have hcur' : s.current_request = [r] ++ s₁.current_request := by
        rw [hs, hcur]
        rfl
      refine h.drop hcur' (fun w hw hid => ?_) hlog
      obtain rfl := List.mem_singleton.mp hw
      exact absurd (hr hid).2 (Nat.not_lt.mpr hmax)
    · rw [hcur]
      exact hrest

/-! ## Sectors -/

/-- The transfer of a sector is the next thing that is to become of the job. -/
theorem Own.transfer (h : Own j r) (hid : r.id = j.id) (hin : Inside d j) {c : Command}
    (haim : r.sector.toNat < (d.hd (minor r.dev)).nr_sects → Aimed d c r)
    (hn : r.nr_sectors = 1 ∨ r.nr_sectors = 2) :
    (served d j).take (2 - r.nr_sectors)
      ++ [.transferred r.id r.cmd c.drive (c.sector d) r.buffer]
      = (served d j).take (3 - r.nr_sectors) := by
  have hsec := h.sector
  have hlt : r.sector.toNat < (d.hd (minor r.dev)).nr_sects := by
    have := hin.2
    rw [h.dev]
    omega
  have ha := haim hlt
  rw [ha.drive, ha.sector, hid, h.cmd, h.dev]
  rcases hn with hn | hn
  · have hsec : r.sector.toNat = (sectorOf j.b_blocknr).toNat + 1 := by omega
    rw [hn, h.second hn, hsec]
    rfl
  · have hsec : r.sector.toNat = (sectorOf j.b_blocknr).toNat := by omega
    rw [hn, h.first hn, hsec]
    rfl

/-- The request after its first sector. -/
structure Advanced (r r' : HdRequest n) : Prop where
  id : r'.id = r.id
  dev : r'.dev = r.dev
  cmd : r'.cmd = r.cmd
  sector : r'.sector = r.sector + 1
  nr_sectors : r'.nr_sectors = 1
  buffer : r'.buffer = r.buffer + 512
  rounds : r'.rounds = r.rounds
  since : r'.since = 0
  errors : r'.errors ≤ r.errors
  read : r.cmd = .read → r'.errors = 0

theorem Advanced.toNat {r' : HdRequest n} (h : Advanced r r') (hg : Good r)
    (hn : r.nr_sectors = 2) : r'.sector.toNat = r.sector.toNat + 1 := by
  have hroom := hg.room
  rw [hn] at hroom
  rw [h.sector, UInt32.toNat_add]
  exact Nat.mod_eq_of_lt (by simp; omega)

theorem Advanced.aimed {r' : HdRequest n} (h : Advanced r r') (hg : Good r)
    (hn : r.nr_sectors = 2) {c : Command}
    (haim : r.sector.toNat < (d.hd (minor r.dev)).nr_sects → Aimed d c r)
    (hlt : r'.sector.toNat < (d.hd (minor r'.dev)).nr_sects) :
    Aimed d { c with done := c.done + 1 } r' := by
  have hsec := h.toNat hg hn
  rw [h.dev] at hlt
  have ha := haim (by omega)
  refine ⟨?_, ?_, ?_⟩
  · rw [h.dev]
    exact ha.drive
  · rw [h.dev, hsec, ← Nat.add_assoc, ← ha.sector]
    rfl
  · have hleft := ha.left
    rw [h.nr_sectors]
    dsimp only
    omega

theorem Own.advanced {r' : HdRequest n} (h : Own j r) (ha : Advanced r r') (hg : Good r)
    (hn : r.nr_sectors = 2) : Own j r' := by
  have hsec := h.sector
  refine ⟨ha.dev.trans h.dev, ha.cmd.trans h.cmd, ?_, fun h2 => ?_, fun _ => ?_⟩
  · rw [ha.toNat hg hn, ha.nr_sectors]
    omega
  · rw [ha.nr_sectors] at h2
    cases h2
  · rw [ha.buffer, h.first hn]

/-- What an interrupt finds: the current request has taken a round more. -/
structure Ticked (s : Hd n) (r : HdRequest n) (rest : List (HdRequest n)) : Prop extends
    Books s where
  polling : s.polling = false
  cur : s.current_request = r :: rest
  good : Good r
  budget : r.rounds + 32 * r.nr_sectors ≤ 68 + 4 * r.errors
  fresh : ∀ w ∈ rest, Fresh w

theorem Ticked.other (h : Ticked s r rest) {w : HdRequest n} (hw : w ∈ rest) : w.id ≠ r.id := by
  have hids := h.ids
  rw [h.cur, List.map_cons, List.nodup_cons] at hids
  exact fun he => hids.1 (he ▸ List.mem_map_of_mem hw)

/-- After the first sector the request waits for the second. -/
theorem first_done (h : Ticked s r rest) {r' : HdRequest n} (hn : r.nr_sectors = 2)
    (ha : Advanced r r')
    (haim : r.sector.toNat < (d.hd (minor r.dev)).nr_sects → Aimed d s.command r)
    (hcur : s'.current_request = r' :: rest)
    (hlog : s'.log = s.log
      ++ [.transferred r.id r.cmd s.command.drive (s.command.sector d) r.buffer])
    (hcount : s'.count = s.count) (hreset : s'.reset = false) (hphase : phase s' = 0)
    (hwait : Phase d s' r') :
    Steady d s' ∧ s'.count = s.count ∧ ∀ j, Inside d j → Tracked d j s →
      (∀ w ∈ rest, w.id = j.id → InPartition d w) → Tracked d j s' := by
  have hg := h.good
  have hbooks : Books s' := h.toBooks.head h.cur hcur ha.id hlog (fun e he => by
    obtain rfl := List.mem_singleton.mp he
    exact h.below r (h.cur ▸ List.mem_cons_self)) hcount
  have hgood : Good r' := by
    refine ⟨Or.inl ha.nr_sectors, Nat.lt_of_le_of_lt ha.errors hg.errors, fun hcmd => ?_, ?_⟩
    · rw [ha.since, ha.read (ha.cmd.symm.trans hcmd)]
    · have hroom := hg.room
      rw [ha.toNat hg hn, ha.nr_sectors]
      omega
  have hbudget : Budget 0 r' := by
    have hb := h.budget
    have he := hg.errors
    rw [Budget, ha.rounds, ha.nr_sectors]
    simp only [MAX_ERRORS] at he
    omega
  refine ⟨⟨hbooks, ?_, fun hnil => ?_, ?_⟩, hcount, fun j hin ht _ => ?_⟩
  · rw [hcur, hphase]
    rintro w ws he
    obtain ⟨rfl, rfl⟩ := List.cons.inj he
    exact ⟨hgood, hbudget, h.fresh⟩
  · rw [hcur] at hnil
    cases hnil
  · rw [hcur]
    rintro w ws he
    obtain ⟨rfl, rfl⟩ := List.cons.inj he
    exact ⟨hreset, hwait⟩
  · by_cases hid : r.id = j.id
    · obtain ⟨hown, hev⟩ := ht.own r (h.cur ▸ List.mem_cons_self) hid
      refine ⟨fun w hw hwid => ?_, fun hno => ?_⟩
      · rw [hcur] at hw
        rcases List.mem_cons.mp hw with rfl | hw
        · refine ⟨hown.advanced ha hg hn, ?_⟩
          rw [hlog, eventsOf_append, hev, eventsOf_own, hown.transfer hid hin haim (Or.inr hn), hn,
            ha.nr_sectors]
          intro e he
          obtain rfl := List.mem_singleton.mp he
          exact hid
        · exact absurd (hwid.trans hid.symm) (h.other hw)
      · exact absurd (ha.id.trans hid) (hno r' (hcur ▸ List.mem_cons_self))
    · refine ht.congr (fun w hw hwid => ?_) (fun w hw hwid => ?_) hlog fun e he => ?_
      · rw [hcur] at hw
        rcases List.mem_cons.mp hw with rfl | hw
        · exact absurd (ha.id.symm.trans hwid) hid
        · exact ⟨w, h.cur ▸ List.mem_cons_of_mem r hw, hwid, rfl, fun ho => ho⟩
      · rw [h.cur] at hw
        rcases List.mem_cons.mp hw with rfl | hw
        · exact absurd hwid hid
        · exact ⟨w, hcur ▸ List.mem_cons_of_mem r' hw, hwid⟩
      · obtain rfl := List.mem_singleton.mp he
        exact hid

/-- After the second sector the request is ended, and the next one is started. -/
theorem last_done (h : Ticked s r rest) (hn : r.nr_sectors = 1)
    (haim : r.sector.toNat < (d.hd (minor r.dev)).nr_sects → Aimed d s.command r) {s₁ : Hd n}
    (hcur : s₁.current_request = rest)
    (hlog : s₁.log = s.log
      ++ [.transferred r.id r.cmd s.command.drive (s.command.sector d) r.buffer,
        .ended r.id true])
    (hcount : s₁.count = s.count) (hpoll : s₁.polling = false) :
    ∃ s', doHdRequest d s₁ = some s' ∧ Steady d s' ∧ s'.count = s.count ∧
      ∀ j, Inside d j → Tracked d j s → (∀ w ∈ rest, w.id = j.id → InPartition d w) →
        Tracked d j s' := by
  have hevents : ∀ e ∈ [Event.transferred r.id r.cmd s.command.drive (s.command.sector d) r.buffer,
      .ended r.id true], e.id = r.id := by
    intro e he
    rcases List.mem_cons.mp he with rfl | he
    · rfl
    · obtain rfl := List.mem_singleton.mp he
      rfl
  have hb₁ : Books s₁ := by
    refine h.toBooks.of ?_ hlog (fun e he => ?_) hcount
    · rw [hcur, h.cur]
      exact List.sublist_cons_self ..
    · rw [hevents e he]
      exact h.below r (h.cur ▸ List.mem_cons_self)
  have hq₁ : Queued (level s₁) s₁.current_request := by
    rw [hcur]
    exact Queued.fresh (level_le s₁) h.fresh
  obtain ⟨s', hdo, hsteady, hcount', htrack⟩ := @doHdRequest_keeps n d s₁ hb₁ hpoll hq₁
  refine ⟨s', hdo, hsteady, hcount'.trans hcount, fun j hin ht hrest => htrack j ?_ ?_⟩
  · by_cases hid : r.id = j.id
    · obtain ⟨hown, hev⟩ := ht.own r (h.cur ▸ List.mem_cons_self) hid
      refine ⟨fun w hw hwid => ?_, fun _ => ?_⟩
      · rw [hcur] at hw
        exact absurd (hwid.trans hid.symm) (h.other hw)
      · have htransfer := hown.transfer hid hin haim (Or.inl hn)
        rw [hlog, eventsOf_append, hev, eventsOf_own fun e he => (hevents e he).trans hid,
          ← List.singleton_append, ← List.append_assoc, htransfer, hn, hid]
        rfl
    · refine ht.congr (fun w hw hwid => ?_) (fun w hw hwid => ?_) hlog fun e he => ?_
      · rw [hcur] at hw
        exact ⟨w, h.cur ▸ List.mem_cons_of_mem r hw, hwid, rfl, fun ho => ho⟩
      · rw [h.cur] at hw
        rcases List.mem_cons.mp hw with rfl | hw
        · exact absurd hwid hid
        · exact ⟨w, hcur ▸ hw, hwid⟩
      · rw [hevents e he]
        exact hid
  · rw [hcur]
    exact hrest

theorem readIntr_spec (h : Ticked s r rest) (hreset : s.reset = false) (hcmd : r.cmd = .read)
    (haim : r.sector.toNat < (d.hd (minor r.dev)).nr_sects → Aimed d s.command r) :
    ∃ s', readIntr d s = some s' ∧ Steady d s' ∧ s'.count = s.count ∧
      ∀ j, Inside d j → Tracked d j s → (∀ w ∈ rest, w.id = j.id → InPartition d w) →
        Tracked d j s' := by
  have hlog : ∀ l : List Event, s.log
      ++ [.transferred r.id .read s.command.drive (s.command.sector d) r.buffer] ++ l
      = s.log ++ (.transferred r.id r.cmd s.command.drive (s.command.sector d) r.buffer :: l) := by
    intro l
    rw [hcmd, List.append_assoc]
    rfl
  unfold readIntr
  rw [h.cur]
  dsimp only
  rcases h.good.nr_sectors with hn | hn
  · rw [if_neg (by rw [hn]; decide)]
    exact last_done h hn haim rfl (hlog _) rfl h.polling
  · rw [if_pos (by rw [hn]; decide)]
    have ha : Advanced r { r with
        errors := 0
        buffer := r.buffer + 512
        sector := r.sector + 1
        nr_sectors := r.nr_sectors - 1
        since := 0 } :=
      ⟨rfl, rfl, rfl, rfl, congrArg (· - 1) hn, rfl, rfl, rfl, Nat.zero_le _, fun _ => rfl⟩
    refine ⟨_, rfl, ?_⟩
    exact first_done h hn ha haim rfl ((List.append_nil _).symm.trans (hlog [])) rfl hreset
      (by simp [phase, transferred, h.polling])
      (.read rfl h.polling hcmd fun hlt => ha.aimed h.good hn haim hlt)

theorem writeIntr_spec (h : Ticked s r rest) (hreset : s.reset = false) (hcmd : r.cmd = .write)
    (haim : r.sector.toNat < (d.hd (minor r.dev)).nr_sects → Aimed d s.command r)
    (hsent : s.sent = r.buffer) :
    ∃ s', writeIntr d s = some s' ∧ Steady d s' ∧ s'.count = s.count ∧
      ∀ j, Inside d j → Tracked d j s → (∀ w ∈ rest, w.id = j.id → InPartition d w) →
        Tracked d j s' := by
  have hlog : ∀ l : List Event, s.log
      ++ [.transferred r.id .write s.command.drive (s.command.sector d) s.sent] ++ l
      = s.log ++ (.transferred r.id r.cmd s.command.drive (s.command.sector d) r.buffer :: l) := by
    intro l
    rw [hcmd, hsent, List.append_assoc]
    rfl
  unfold writeIntr
  rw [h.cur]
  dsimp only
  rcases h.good.nr_sectors with hn | hn
  · rw [if_neg (by rw [hn]; decide)]
    exact last_done h hn haim rfl (hlog _) rfl h.polling
  · rw [if_pos (by rw [hn]; decide)]
    have ha : Advanced r { r with
        nr_sectors := r.nr_sectors - 1
        since := 0
        sector := r.sector + 1
        buffer := r.buffer + 512 } := by
      refine ⟨rfl, rfl, rfl, rfl, congrArg (· - 1) hn, rfl, rfl, rfl, Nat.le_refl _, fun hr => ?_⟩
      rw [hcmd] at hr
      cases hr
    refine ⟨_, rfl, ?_⟩
    exact first_done h hn ha haim rfl ((List.append_nil _).symm.trans (hlog [])) rfl hreset
      (by simp [phase, transferred, h.polling])
      (.write rfl h.polling hcmd (fun hlt => ha.aimed h.good hn haim hlt) rfl)

/-! ## Steps -/

/-- An interrupt or a wait counts as a round, and changes nothing else yet. -/
theorem Steady.ticked (h : Steady d s) (hs : s.current_request = r :: rest) {s₁ : Hd n}
    (hcur : s₁.current_request = { r with rounds := r.rounds + 1 } :: rest)
    (hlog : s₁.log = s.log) (hcount : s₁.count = s.count) (hpoll : s₁.polling = false) :
    Ticked s₁ { r with rounds := r.rounds + 1 } rest ∧ ∀ j, Tracked d j s → Tracked d j s₁ := by
  obtain ⟨hg, hb, hfresh⟩ := h.queued r rest hs
  refine ⟨⟨?_, hpoll, hcur, ⟨hg.nr_sectors, hg.errors, hg.since, hg.room⟩, ?_, hfresh⟩,
    fun j ht => ?_⟩
  · exact h.toBooks.head hs hcur rfl (hlog.trans (List.append_nil s.log).symm)
      (fun e he => absurd he List.not_mem_nil) hcount
  · unfold Budget at hb
    dsimp only
    omega
  · exact ht.head hs hcur hlog rfl rfl fun ho => ⟨ho.1, ho.2, ho.3, ho.4, ho.5⟩

/-- The request of a job behind the current one passes the test. -/
theorem Tracked.waiting (h : Tracked d j s) (hin : Inside d j)
    (hs : s.current_request = r :: rest) (hfresh : ∀ w ∈ rest, Fresh w) :
    ∀ w ∈ rest, w.id = j.id → InPartition d w := by
  intro w hw hid
  have hmem : w ∈ s.current_request := hs ▸ List.mem_cons_of_mem r hw
  exact (h.own w hmem hid).1.inPartition hin (hfresh w hw).nr_sectors

/-- What the conditions give for an error of the job. -/
theorem spared_error {a : Act n} (h : Steady d s) (hs : s.current_request = r :: rest)
    (ht : Tracked d j s) (hin : Inside d j) (hf : fails s a = true) (hfew : Few j.id s a)
    (hspared : Spared d j.id s a) (hid : r.id = j.id) :
    InPartition d r ∧ r.errors + 1 < MAX_ERRORS := by
  have hmem : r ∈ s.current_request := hs ▸ List.mem_cons_self
  have hhead : r ∈ s.current_request.head? := by
    rw [hs]
    rfl
  obtain ⟨hown, -⟩ := ht.own r hmem hid
  obtain ⟨hg, -, -⟩ := h.queued r rest hs
  obtain ⟨hsec, hwrite⟩ := hspared hf r hhead hid
  refine ⟨inPartition_of ?_ hsec, ?_⟩
  · rw [hown.dev]
    exact hin.1
  · cases hcmd : r.cmd with
    | read =>
        rw [← hg.since hcmd]
        exact hfew hf r hhead hid
    | write => exact hwrite hcmd

theorem Aimed.ticked {c : Command} (h : Aimed d c r) :
    Aimed d c { r with rounds := r.rounds + 1 } := ⟨h.drive, h.sector, h.left⟩

theorem Phase.do_hd (h : Phase d s r) : ∃ intr, s.do_hd = some intr := by
  cases h with
  | recal hdo => exact ⟨_, hdo⟩
  | poll hdo => exact ⟨_, hdo⟩
  | read hdo => exact ⟨_, hdo⟩
  | write hdo => exact ⟨_, hdo⟩

theorem hdInterrupt_spec (h : Steady d s) (hs : s.current_request = r :: rest)
    (hpoll : s.polling = false) (ok : Bool) :
    ∃ s', hdInterrupt d s ok = some s' ∧ Steady d s' ∧ s'.count = s.count ∧
      ∀ j, Inside d j → Few j.id s (.interrupt ok) → Spared d j.id s (.interrupt ok) →
        Tracked d j s → Tracked d j s' := by
  obtain ⟨hreset, hphase⟩ := h.busy r rest hs
  obtain ⟨hg, hb, hfresh⟩ := h.queued r rest hs
  obtain ⟨intr, hdo⟩ := hphase.do_hd
  obtain ⟨s₁, hs₁⟩ : ∃ s₁ : Hd n, s₁ = { tick s with do_hd := none } := ⟨_, rfl⟩
  have hcall : hdInterrupt d s ok = callIntr d s₁ intr ok := by
    rw [hdInterrupt, hdo, hs₁]
  rw [hcall]
  rw [tick, hs] at hs₁
  dsimp only at hs₁
  have hcount : s₁.count = s.count := by rw [hs₁]
  have hcommand : s₁.command = s.command := by rw [hs₁]
  have hreset₁ : s₁.reset = false := by rw [hs₁, ← hreset]
  obtain ⟨hticked, htrack⟩ := @Steady.ticked n d s r rest h hs s₁ (by rw [hs₁]) (by rw [hs₁])
    hcount (by rw [hs₁, ← hpoll])
  cases ok with
  | false =>
      obtain ⟨s', hfail, hsteady, hc, hkeep⟩ := @failed_spec n d s₁ _ rest hticked.toBooks
        hticked.polling hticked.cur hticked.good hticked.budget hticked.fresh
      refine ⟨s', hfail, hsteady, hc.trans hcount, fun j hin hfew hspared ht => ?_⟩
      refine hkeep j (htrack j ht) (fun hid => ?_) (ht.waiting hin hs hfresh)
      have hf : fails s (.interrupt false) = true := by
        rw [fails, hdo]
        rfl
      exact @spared_error n d s r rest j _ h hs ht hin hf hfew hspared hid
  | true =>
      unfold callIntr
      rw [if_pos rfl]
      cases hphase with
      | recal hdo' _ hpart =>
          obtain rfl := Option.some.inj (hdo.symm.trans hdo')
          have hq : Queued (level s₁) s₁.current_request := by
            rw [hticked.cur]
            rintro w ws he
            obtain ⟨rfl, rfl⟩ := List.cons.inj he
            refine ⟨hticked.good, ?_, hfresh⟩
            -- the round was one of those that the request may need
            have hlevel : level s₁ + 1 = phase s := by
              rw [level, hreset₁, hs₁, phase, if_pos hdo]
              dsimp only
              cases s.recalibrate <;> rfl
            unfold Budget at hb ⊢
            dsimp only
            omega
          obtain ⟨s', hdone, hsteady, hc, hkeep⟩ :=
            @doHdRequest_keeps n d s₁ hticked.toBooks hticked.polling hq
          refine ⟨s', hdone, hsteady, hc.trans hcount, fun j hin _ _ ht => ?_⟩
          refine hkeep j (htrack j ht) fun w hw hid => ?_
          rw [hticked.cur] at hw
          rcases List.mem_cons.mp hw with rfl | hw
          · exact hpart
          · exact ht.waiting hin hs hfresh w hw hid
      | poll _ hpoll' =>
          rw [hpoll] at hpoll'
          cases hpoll'
      | read hdo' _ hcmd haim =>
          obtain rfl := Option.some.inj (hdo.symm.trans hdo')
          obtain ⟨s', hdone, hsteady, hc, hkeep⟩ :=
            @readIntr_spec n d s₁ _ rest hticked hreset₁ hcmd
              fun hlt => hcommand ▸ (haim hlt).ticked
          exact ⟨s', hdone, hsteady, hc.trans hcount, fun j hin _ _ ht =>
            hkeep j hin (htrack j ht) (ht.waiting hin hs hfresh)⟩
      | write hdo' _ hcmd haim hsent =>
          obtain rfl := Option.some.inj (hdo.symm.trans hdo')
          obtain ⟨s', hdone, hsteady, hc, hkeep⟩ :=
            @writeIntr_spec n d s₁ _ rest hticked hreset₁ hcmd
              (fun hlt => hcommand ▸ (haim hlt).ticked) (by rw [hs₁]; exact hsent)
          exact ⟨s', hdone, hsteady, hc.trans hcount, fun j hin _ _ ht =>
            hkeep j hin (htrack j ht) (ht.waiting hin hs hfresh)⟩

/-- The wait for data after a command to write. -/
theorem drqWait_spec (h : Steady d s) (hs : s.current_request = r :: rest)
    (hpoll : s.polling = true) (ok : Bool) :
    ∃ s', drqWait d s ok = some s' ∧ Steady d s' ∧ s'.count = s.count ∧
      ∀ j, Inside d j → Few j.id s (.drq ok) → Spared d j.id s (.drq ok) →
        Tracked d j s → Tracked d j s' := by
  obtain ⟨hreset, hphase⟩ := h.busy r rest hs
  obtain ⟨hg, hb, hfresh⟩ := h.queued r rest hs
  obtain ⟨s₁, hs₁⟩ : ∃ s₁ : Hd n, s₁ = { tick s with polling := false } := ⟨_, rfl⟩
  have hcall : drqWait d s ok = if ok then
      match s₁.current_request with
      | [] => none
      | r :: _ => some { s₁ with sent := r.buffer }
    else failed d s₁ := by
    rw [drqWait, hs₁]
  rw [hcall]
  clear hcall
  rw [tick, hs] at hs₁
  dsimp only at hs₁
  have hcount : s₁.count = s.count := by rw [hs₁]
  obtain ⟨hticked, htrack⟩ := @Steady.ticked n d s r rest h hs s₁ (by rw [hs₁]) (by rw [hs₁])
    hcount (by rw [hs₁])
  cases ok with
  | false =>
      obtain ⟨s', hfail, hsteady, hc, hkeep⟩ := @failed_spec n d s₁ _ rest hticked.toBooks
        hticked.polling hticked.cur hticked.good hticked.budget hticked.fresh
      refine ⟨s', hfail, hsteady, hc.trans hcount, fun j hin hfew hspared ht => ?_⟩
      refine hkeep j (htrack j ht) (fun hid => ?_) (ht.waiting hin hs hfresh)
      exact @spared_error n d s r rest j _ h hs ht hin rfl hfew hspared hid
  | true =>
      rw [if_pos rfl]
      cases hphase with
      | recal _ hpoll' =>
          rw [hpoll] at hpoll'
          cases hpoll'
      | read _ hpoll' =>
          rw [hpoll] at hpoll'
          cases hpoll'
      | write _ hpoll' =>
          rw [hpoll] at hpoll'
          cases hpoll'
      | poll hdo _ hcmd haim hpart =>
          have hone : phase s = 1 := by
            rw [phase, hdo, if_neg (by decide), if_pos hpoll]
          have hzero : phase { s₁ with sent := r.buffer } = 0 := by
            rw [hs₁, phase]
            dsimp only
            rw [hdo]
            rfl
          have hsent : (match s₁.current_request with
              | [] => none
              | r :: _ => some { s₁ with sent := r.buffer })
              = some { s₁ with sent := r.buffer } := by
            rw [hticked.cur]
          refine ⟨_, hsent, ⟨⟨hticked.ids, hticked.below, hticked.logged⟩, ?_, fun _ => ?_, ?_⟩,
            hcount, fun j _ _ _ ht => ⟨(htrack j ht).own, (htrack j ht).gone⟩⟩
          · rw [hzero]
            dsimp only
            rw [hticked.cur]
            rintro w ws he
            obtain ⟨rfl, rfl⟩ := List.cons.inj he
            refine ⟨hticked.good, ?_, hfresh⟩
            unfold Budget at hb ⊢
            dsimp only
            omega
          · exact hticked.polling
          · dsimp only
            rw [hticked.cur]
            rintro w ws he
            obtain ⟨rfl, rfl⟩ := List.cons.inj he
            refine ⟨by rw [hs₁, ← hreset], .write ?_ hticked.polling hcmd (fun hlt => ?_) rfl⟩
            · rw [hs₁, ← hdo]
            · rw [hs₁]
              exact (haim hlt).ticked

theorem Phase.congr (h : Phase d s r) (hdo : s'.do_hd = s.do_hd) (hpoll : s'.polling = s.polling)
    (hcommand : s'.command = s.command) (hsent : s'.sent = s.sent) : Phase d s' r := by
  cases h with
  | recal h₁ h₂ hpart => exact .recal (hdo.trans h₁) (hpoll.trans h₂) hpart
  | poll h₁ h₂ hcmd haim hpart =>
      exact .poll (hdo.trans h₁) (hpoll.trans h₂) hcmd (hcommand ▸ haim) hpart
  | read h₁ h₂ hcmd haim => exact .read (hdo.trans h₁) (hpoll.trans h₂) hcmd (hcommand ▸ haim)
  | write h₁ h₂ hcmd haim h₃ =>
      exact .write (hdo.trans h₁) (hpoll.trans h₂) hcmd (hcommand ▸ haim) (hsent.trans h₃)

/-- A new request has a number of its own. -/
theorem Books.added (h : Books s) (hperm : s'.current_request.Perm (r :: s.current_request))
    (hid : r.id = s.count) (hlog : s'.log = s.log) (hcount : s'.count = s.count + 1) :
    Books s' := by
  refine ⟨?_, fun w hw => ?_, fun e he => ?_⟩
  · rw [(hperm.map HdRequest.id).nodup_iff, List.map_cons, List.nodup_cons]
    refine ⟨fun hin => ?_, h.ids⟩
    obtain ⟨w, hw, he⟩ := List.mem_map.mp hin
    exact Nat.ne_of_lt (h.below w hw) (he.trans hid)
  · rw [hcount]
    rcases List.mem_cons.mp (hperm.mem_iff.mp hw) with rfl | hw
    · rw [hid]
      exact Nat.lt_succ_self _
    · exact Nat.lt_succ_of_lt (h.below w hw)
  · rw [hlog] at he
    rw [hcount]
    exact Nat.lt_succ_of_lt (h.logged e he)

theorem Tracked.added (h : Tracked d j s) (hj : j.id < s.count)
    (hperm : s'.current_request.Perm (r :: s.current_request)) (hid : r.id = s.count)
    (hlog : s'.log = s.log) : Tracked d j s' := by
  refine h.congr (fun w hw hwid => ?_) (fun w hw hwid => ?_)
    (hlog.trans (List.append_nil s.log).symm) fun e he => absurd he List.not_mem_nil
  · rcases List.mem_cons.mp (hperm.mem_iff.mp hw) with rfl | hw
    · exact absurd (hid.symm.trans hwid) (Nat.ne_of_gt hj)
    · exact ⟨w, hw, hwid, rfl, fun ho => ho⟩
  · exact ⟨w, hperm.mem_iff.mpr (List.mem_cons_of_mem r hw), hwid⟩

theorem Own.tracked (h : Own j r) (hb : Books s) (hj : j.id = s.count) (hn : r.nr_sectors = 2)
    (hperm : s'.current_request.Perm (r :: s.current_request)) (hid : r.id = s.count)
    (hlog : s'.log = s.log) : Tracked d j s' := by
  have hnone : eventsOf j.id s.log = [] :=
    eventsOf_other fun e he hej => Nat.ne_of_lt (hb.logged e he) (hej.trans hj)
  refine ⟨fun w hw hwid => ?_, fun hno => ?_⟩
  · rcases List.mem_cons.mp (hperm.mem_iff.mp hw) with rfl | hw
    · rw [hlog, hnone, hn]
      exact ⟨h, rfl⟩
    · exact absurd (hwid.trans hj) (Nat.ne_of_lt (hb.below w hw))
  · exact absurd (hid.trans hj.symm) (hno r (hperm.mem_iff.mpr List.mem_cons_self))

/-- A new request is started, or takes its place behind the current one. -/
theorem addRequest_spec (h : Steady d s) (hpoll : s.polling = false) (hr : Fresh r)
    (hid : r.id = s.count) :
    ∃ s', addRequest d s r = some s' ∧ Steady d s' ∧ s'.count = s.count + 1 ∧
      ∀ j, Inside d j → (j.id < s.count → Tracked d j s → Tracked d j s') ∧
        (j.id = s.count → Own j r → Tracked d j s') := by
  unfold addRequest
  cases hcur : s.current_request with
  | nil =>
      obtain ⟨s₁, hs₁⟩ : ∃ s₁ : Hd n,
        s₁ = { s with current_request := [r], count := s.count + 1 } := ⟨_, rfl⟩
      dsimp only
      rw [← hs₁]
      have hcur₁ : s₁.current_request = [r] := by rw [hs₁]
      have hperm : s₁.current_request.Perm (r :: s.current_request) := by rw [hcur₁, hcur]
      have hlog₁ : s₁.log = s.log := by rw [hs₁]
      have hcount₁ : s₁.count = s.count + 1 := by rw [hs₁]
      have hq₁ : Queued (level s₁) s₁.current_request := by
        rw [hcur₁]
        exact Queued.fresh (level_le s₁) fun w hw => List.mem_singleton.mp hw ▸ hr
      obtain ⟨s', hdo, hsteady, hcount, hkeep⟩ := @doHdRequest_keeps n d s₁
        (h.toBooks.added hperm hid hlog₁ hcount₁) (by rw [hs₁, ← hpoll]) hq₁
      refine ⟨s', hdo, hsteady, hcount.trans hcount₁, fun j hin =>
        ⟨fun hj ht => ?_, fun hj ho => ?_⟩⟩
      · refine hkeep j (ht.added hj hperm hid hlog₁) fun w hw hwid => ?_
        rw [hcur₁] at hw
        obtain rfl := List.mem_singleton.mp hw
        exact absurd (hid.symm.trans hwid) (Nat.ne_of_gt hj)
      · refine hkeep j (ho.tracked h.toBooks hj hr.nr_sectors hperm hid hlog₁) fun w hw _ => ?_
        rw [hcur₁] at hw
        obtain rfl := List.mem_singleton.mp hw
        exact ho.inPartition hin hr.nr_sectors
  | cons tmp rest =>
      obtain ⟨l', hl'⟩ :=
        Elevator.insert_cons (fun r : HdRequest n => Queue.key r.toRequest) r tmp rest
      have hinsert :=
        Elevator.insert_perm (fun r : HdRequest n => Queue.key r.toRequest) r (tmp :: rest)
      rw [hl'] at hinsert
      obtain ⟨hg, hb, hfresh⟩ := h.queued tmp rest hcur
      obtain ⟨hreset, hphase⟩ := h.busy tmp rest hcur
      dsimp only
      rw [hl']
      obtain ⟨s₁, hs₁⟩ : ∃ s₁ : Hd n,
        s₁ = { s with current_request := tmp :: l', count := s.count + 1 } := ⟨_, rfl⟩
      have hcur₁ : s₁.current_request = tmp :: l' := by rw [hs₁]
      have hperm : s₁.current_request.Perm (r :: s.current_request) := by rwa [hcur₁, hcur]
      have hlog₁ : s₁.log = s.log := by rw [hs₁]
      have hcount₁ : s₁.count = s.count + 1 := by rw [hs₁]
      refine ⟨s₁, congrArg some hs₁.symm, ⟨h.toBooks.added hperm hid hlog₁ hcount₁, ?_,
        fun hnil => ?_, ?_⟩, hcount₁, fun j _ => ⟨fun hj ht => ht.added hj hperm hid hlog₁,
        fun hj ho => ho.tracked h.toBooks hj hr.nr_sectors hperm hid hlog₁⟩⟩
      · have hsame : phase s₁ = phase s := by rw [hs₁]; rfl
        rw [hcur₁, hsame]
        rintro w ws he
        obtain ⟨rfl, rfl⟩ := List.cons.inj he
        refine ⟨hg, hb, fun w hw => ?_⟩
        have hbehind : l'.Perm (r :: rest) := (hinsert.trans (.swap ..)).cons_inv
        rcases List.mem_cons.mp (hbehind.mem_iff.mp hw) with rfl | hw
        · exact hr
        · exact hfresh w hw
      · rw [hcur₁] at hnil
        cases hnil
      · rw [hcur₁]
        rintro w ws he
        obtain ⟨rfl, rfl⟩ := List.cons.inj he
        refine ⟨by rw [hs₁, ← hreset], hphase.congr ?_ ?_ ?_ ?_⟩
        all_goals rw [hs₁]

theorem fill_fresh (id slot : Nat) (dev : UInt16) (cmd : Rw) (b_blocknr : UInt32) (bh : Fin n)
    (b_data : UInt32) : Fresh (fill id slot dev cmd b_blocknr bh b_data) := by
  refine ⟨rfl, rfl, rfl, rfl, ?_⟩
  show (sectorOf b_blocknr).toNat + 2 ≤ 0x100000000
  have heven := Queue.sectorOf_even b_blocknr
  have := (sectorOf b_blocknr).toNat_lt
  omega

/-- Without requests an interrupt is unexpected, or late after a reset. -/
theorem idle_interrupt (h : Steady d s) (hs : s.current_request = []) {ok : Bool}
    (hi : hdInterrupt d s ok = some s') :
    Steady d s' ∧ s'.count = s.count ∧ ∀ j, Tracked d j s → Tracked d j s' := by
  have htick : tick s = s := by rw [tick, hs]
  have hpoll := h.idle hs
  unfold hdInterrupt at hi
  cases hdo : s.do_hd with
  | none =>
      rw [hdo] at hi
      obtain rfl := Option.some.inj hi
      exact ⟨h, rfl, fun _ ht => ht⟩
  | some intr =>
      rw [hdo, htick] at hi
      dsimp only at hi
      cases ok with
      | false =>
          have hbad : badRwIntr { s with do_hd := none } = none := by
            unfold badRwIntr
            rw [hs]
          change failed d _ = some s' at hi
          rw [failed, hbad] at hi
          cases hi
      | true =>
          cases intr with
          | read_intr =>
              change readIntr d _ = some s' at hi
              unfold readIntr at hi
              rw [hs] at hi
              cases hi
          | write_intr =>
              change writeIntr d _ = some s' at hi
              unfold writeIntr at hi
              rw [hs] at hi
              cases hi
          | recal_intr =>
              change doHdRequest d _ = some s' at hi
              have hq : Queued (level { s with do_hd := none }) s.current_request := by
                rw [hs]
                intro r rest he
                cases he
              obtain ⟨s₁, hdone, hsteady, hcount, hkeep⟩ := @doHdRequest_keeps n d
                { s with do_hd := none } ⟨h.ids, h.below, h.logged⟩ hpoll hq
              obtain rfl := Option.some.inj (hi.symm.trans hdone)
              refine ⟨hsteady, hcount, fun j ht => hkeep j ⟨ht.own, ht.gone⟩ fun r hr => ?_⟩
              dsimp only at hr
              rw [hs] at hr
              exact absurd hr List.not_mem_nil

theorem Steady.step {a : Act n} (h : Steady d s) (hs : HardDisk.step d s a = some s') :
    Steady d s' ∧ s.count ≤ s'.count ∧ ∀ j, Inside d j → j.id < s.count → Few j.id s a →
      Spared d j.id s a → Tracked d j s → Tracked d j s' := by
  cases a with
  | makeRequest slot dev cmd b_blocknr bh b_data =>
      obtain ⟨hpoll, hs⟩ := Option.ite_none_left_eq_some.mp hs
      obtain ⟨s₁, hadd, hsteady, hcount, hkeep⟩ := addRequest_spec h (Bool.eq_false_iff.mpr hpoll)
        (fill_fresh s.count slot dev cmd b_blocknr bh b_data) rfl
      obtain rfl := Option.some.inj (hs.symm.trans hadd)
      exact ⟨hsteady, hcount ▸ Nat.le_succ _, fun j hin hj _ _ ht => (hkeep j hin).1 hj ht⟩
  | interrupt ok =>
      obtain ⟨hpoll, hs⟩ := Option.ite_none_left_eq_some.mp hs
      cases hcur : s.current_request with
      | nil =>
          obtain ⟨hsteady, hcount, hkeep⟩ := idle_interrupt h hcur hs
          exact ⟨hsteady, hcount ▸ Nat.le_refl _, fun j _ _ _ _ ht => hkeep j ht⟩
      | cons r rest =>
          obtain ⟨s₁, hi, hsteady, hcount, hkeep⟩ :=
            hdInterrupt_spec h hcur (Bool.eq_false_iff.mpr hpoll) ok
          obtain rfl := Option.some.inj (hs.symm.trans hi)
          exact ⟨hsteady, hcount ▸ Nat.le_refl _, fun j hin _ hfew hsp ht =>
            hkeep j hin hfew hsp ht⟩
  | drq ok =>
      obtain ⟨hpoll, hs⟩ := Option.ite_none_right_eq_some.mp hs
      cases hcur : s.current_request with
      | nil =>
          rw [h.idle hcur] at hpoll
          cases hpoll
      | cons r rest =>
          obtain ⟨s₁, hi, hsteady, hcount, hkeep⟩ := drqWait_spec h hcur hpoll ok
          obtain rfl := Option.some.inj (hs.symm.trans hi)
          exact ⟨hsteady, hcount ▸ Nat.le_refl _, fun j hin _ hfew hsp ht =>
            hkeep j hin hfew hsp ht⟩

/-! ## Runs -/

theorem steady_boot (d : Disks) : Steady d (boot : Hd n) := by
  refine ⟨⟨List.nodup_nil, ?_, ?_⟩, ?_, fun _ => rfl, ?_⟩
  · exact fun r hr => absurd hr List.not_mem_nil
  · exact fun e he => absurd he List.not_mem_nil
  · intro r rest he
    cases he
  · intro r rest he
    cases he

/-- The action that the driver waits for. -/
def awaited (s : Hd n) (ok : Bool) : Act n := if s.polling then .drq ok else .interrupt ok

/-- A request is served, its two sectors and its end in their order and nothing else, or it is in
the queue and has done the first part of this. The driver goes on while there are requests,
and takes at most 59 rounds with one. -/
structure Survives (d : Disks) (j : Job) (s : Hd n) : Prop where
  events : eventsOf j.id s.log = served d j ∨ ∃ r ∈ s.current_request, r.id = j.id ∧
    eventsOf j.id s.log = (served d j).take (2 - r.nr_sectors) ∧ 0 < r.nr_sectors
  goesOn : s.current_request ≠ [] → (s.polling = true ∨ s.do_hd.isSome = true) ∧
    ∀ ok, (step d s (awaited s ok)).isSome = true
  rounds : ∀ r ∈ s.current_request, r.rounds ≤ 59

theorem Steady.goesOn (h : Steady d s) (hne : s.current_request ≠ []) :
    (s.polling = true ∨ s.do_hd.isSome = true) ∧
      ∀ ok, (HardDisk.step d s (awaited s ok)).isSome = true := by
  obtain ⟨r, rest, hcur⟩ := List.exists_cons_of_ne_nil hne
  obtain ⟨-, hphase⟩ := h.busy r rest hcur
  obtain ⟨intr, hdo⟩ := hphase.do_hd
  refine ⟨Or.inr ?_, fun ok => ?_⟩
  · rw [hdo]
    rfl
  · unfold awaited
    by_cases hpoll : s.polling = true
    · rw [if_pos hpoll]
      obtain ⟨s', hi, -⟩ := drqWait_spec h hcur hpoll ok
      rw [HardDisk.step, if_pos hpoll, hi]
      rfl
    · rw [if_neg hpoll]
      obtain ⟨s', hi, -⟩ := hdInterrupt_spec h hcur (Bool.eq_false_iff.mpr hpoll) ok
      rw [HardDisk.step, if_neg hpoll, hi]
      rfl

theorem Steady.good (h : Steady d s) (hr : r ∈ s.current_request) : Good r ∧ Budget 0 r := by
  cases hcur : s.current_request with
  | nil =>
      rw [hcur] at hr
      exact absurd hr List.not_mem_nil
  | cons w ws =>
      obtain ⟨hg, hb, hfresh⟩ := h.queued w ws hcur
      rw [hcur] at hr
      rcases List.mem_cons.mp hr with rfl | hr
      · exact ⟨hg, hb.mono (Nat.zero_le _)⟩
      · exact ⟨(hfresh r hr).good, (hfresh r hr).budget (Nat.zero_le 3)⟩

theorem Steady.rounds (h : Steady d s) (hr : r ∈ s.current_request) : r.rounds ≤ 59 := by
  obtain ⟨hg, hb⟩ := h.good hr
  have hn := hg.nr_sectors
  have he := hg.errors
  unfold Budget at hb
  simp only [MAX_ERRORS] at he
  omega

/-! ## An error that is not spared -/

theorem hdOut_log {drive nsect sect head cyl : Nat} {intr : Intr}
    (h : hdOut s drive nsect sect head cyl intr = some s') : s'.log = s.log := by
  obtain ⟨-, h⟩ := Option.ite_none_left_eq_some.mp h
  obtain rfl := Option.some.inj h
  rfl

theorem startCommand_log (h : startCommand d s = some s') : s'.log = s.log := by
  unfold startCommand at h
  split at h
  · obtain rfl := Option.some.inj h
    rfl
  · dsimp only at h
    split at h
    · exact Eq.trans (hdOut_log h) rfl
    · split at h
      · exact Eq.trans (hdOut_log h) rfl
      · split at h
        · exact Eq.trans (hdOut_log h) rfl
        · exact Eq.trans (hdOut_log h) rfl

/-- An error ends a request that has no errors left or does not pass the test again. -/
theorem failed_ends (hs : s.current_request = r :: rest)
    (hend : MAX_ERRORS ≤ r.errors + 1 ∨ ¬InPartition d r) (hf : failed d s = some s') :
    .ended r.id false ∈ s'.log := by
  obtain ⟨s₁, hbad, -, -, hcases⟩ := badRwIntr_spec hs
  rw [failed, hbad, Option.bind_some] at hf
  obtain ⟨gone, kept, hl, -, hkept, hdrop⟩ := dropOutside_spec d s₁ s₁.current_request
  have hlog := startCommand_log hf
  rw [hdrop] at hlog
  rw [hlog]
  rcases hcases with ⟨hmax, -, hcur⟩ | ⟨-, hlog₁, -⟩
  · rw [hcur] at hl
    cases gone with
    | nil => exact absurd (hkept _ rest hl.symm) (hend.resolve_left (Nat.not_le.mpr hmax))
    | cons w ws =>
        obtain ⟨rfl, -⟩ := List.cons.inj hl
        exact List.mem_append_right s₁.log List.mem_cons_self
  · refine List.mem_append_left _ ?_
    rw [hlog₁]
    exact List.mem_append_right s.log List.mem_cons_self

theorem ended_of_not_spared (h : Steady d s) (hin : Inside d j) (ht : Tracked d j s) {a : Act n}
    (hno : ¬Spared d j.id s a) (hs : step d s a = some s') : .ended j.id false ∈ s'.log := by
  obtain ⟨hf, hno⟩ := Classical.not_imp.mp hno
  simp only [not_forall] at hno
  obtain ⟨r, hhead, hid, hno⟩ := hno
  obtain ⟨rest, hcur⟩ : ∃ rest, s.current_request = r :: rest :=
    ⟨_, List.eq_cons_of_mem_head? hhead⟩
  have hmem : r ∈ s.current_request := hcur ▸ List.mem_cons_self
  obtain ⟨hown, -⟩ := ht.own r hmem hid
  have hend : MAX_ERRORS ≤ r.errors + 1 ∨ ¬InPartition d r := by
    by_cases hsec : r.sector.toNat + 2 ≤ (d.hd (minor r.dev)).nr_sects
    · refine Or.inl (Nat.le_of_not_lt fun hlt => ?_)
      exact hno ⟨hsec, fun _ => hlt⟩
    · refine Or.inr fun hpart => hsec ?_
      have hlt := size_lt d (Nat.div_lt_of_lt_mul hpart.1)
      have hfits := d.fits _ hpart.1
      have hfirst := hown.sector
      have hinside := hin.2
      rw [← hown.dev] at hinside
      have htest := hpart.2
      rw [Nat.mod_eq_of_lt (by omega)] at htest
      exact htest
  rw [← hid]
  obtain ⟨-, hphase⟩ := h.busy r rest hcur
  have htick : tick s = { s with
      current_request := { r with rounds := r.rounds + 1 } :: rest } := by
    rw [tick, hcur]
  cases a with
  | makeRequest => cases hf
  | interrupt ok =>
      obtain ⟨intr, hdo⟩ := hphase.do_hd
      obtain ⟨-, hs⟩ := Option.ite_none_left_eq_some.mp hs
      obtain rfl : ok = false := by
        cases ok with
        | false => rfl
        | true => cases hf
      rw [hdInterrupt, hdo, htick] at hs
      exact @failed_ends n d _ _ { r with rounds := r.rounds + 1 } rest rfl hend hs
  | drq ok =>
      obtain ⟨-, hs⟩ := Option.ite_none_right_eq_some.mp hs
      obtain rfl : ok = false := by
        cases ok with
        | false => rfl
        | true => cases hf
      unfold drqWait at hs
      rw [htick] at hs
      exact @failed_ends n d _ _ { r with rounds := r.rounds + 1 } rest rfl hend hs

/-- **Transient errors.** In every run in which an error of the request is one of fewer
than `MAX_ERRORS` since its last sector, and neither comes in the second sector of the
last block of a partition nor is the last one that a write may count, the request is
served: its two sectors, from or to its buffer, and then its end, and nothing else. The
driver always waits for something that the controller can still do, and the rounds of a
request are bounded. An error that comes where it is not spared ends the request with 0.
-/
theorem request_survives (d : Disks) {s₀ s₁ : Hd n} (h₀ : Reach (step d) Free boot s₀)
    {slot : Nat} {dev : UInt16} {cmd : Rw} {b_blocknr : UInt32} {bh : Fin n} {b_data : UInt32}
    (hs : step d s₀ (.makeRequest slot dev cmd b_blocknr bh b_data) = some s₁)
    (hin : Inside d ⟨s₀.count, dev, cmd, b_blocknr, b_data⟩)
    (h : Reach (step d) (fun s a => Few s₀.count s a ∧ Spared d s₀.count s a) s₁ s) :
    Survives d ⟨s₀.count, dev, cmd, b_blocknr, b_data⟩ s ∧
      ∀ a s', step d s a = some s' → ¬Spared d s₀.count s a → .ended s₀.count false ∈ s'.log := by
  have hsteady₀ : Steady d s₀ :=
    h₀.invariant (steady_boot d) fun _ _ _ hst _ hstep => (hst.step hstep).1
  have hstart : Steady d s₁ ∧ s₀.count < s₁.count ∧
      Tracked d ⟨s₀.count, dev, cmd, b_blocknr, b_data⟩ s₁ := by
    obtain ⟨hpoll, hs⟩ := Option.ite_none_left_eq_some.mp hs
    obtain ⟨s', hadd, hsteady, hcount, hkeep⟩ := addRequest_spec hsteady₀
      (Bool.eq_false_iff.mpr hpoll) (fill_fresh s₀.count slot dev cmd b_blocknr bh b_data) rfl
    obtain rfl := Option.some.inj (hs.symm.trans hadd)
    refine ⟨hsteady, hcount ▸ Nat.lt_succ_self _, (hkeep _ hin).2 rfl ?_⟩
    exact ⟨rfl, rfl, rfl, fun _ => rfl, fun h => by cases h⟩
  have hend : Steady d s ∧ s₀.count < s.count ∧
      Tracked d ⟨s₀.count, dev, cmd, b_blocknr, b_data⟩ s := by
    refine Reach.invariant (I := fun s => Steady d s ∧ s₀.count < s.count ∧
      Tracked d ⟨s₀.count, dev, cmd, b_blocknr, b_data⟩ s) hstart (fun s a s' hi hok hstep => ?_) h
    obtain ⟨hsteady, hlt, ht⟩ := hi
    obtain ⟨hsteady', hle, hkeep⟩ := hsteady.step hstep
    exact ⟨hsteady', Nat.lt_of_lt_of_le hlt hle, hkeep _ hin hlt hok.1 hok.2 ht⟩
  obtain ⟨hsteady, -, ht⟩ := hend
  refine ⟨⟨?_, hsteady.goesOn, fun r hr => hsteady.rounds hr⟩, fun a s' hstep hno =>
    ended_of_not_spared hsteady hin ht hno hstep⟩
  by_cases hgone : ∀ r ∈ s.current_request, r.id ≠ s₀.count
  · exact Or.inl (ht.gone hgone)
  · simp only [not_forall, not_not] at hgone
    obtain ⟨r, hr, hid⟩ := hgone
    have hn := (hsteady.good hr).1.nr_sectors
    exact Or.inr ⟨r, hr, hid, (ht.own r hr hid).2, by omega⟩

instance (id : Nat) (s : Hd n) (a : Act n) : Decidable (Few id s a) :=
  inferInstanceAs (Decidable (_ → ∀ r ∈ s.current_request.head?, _))

instance (d : Disks) (id : Nat) (s : Hd n) (a : Act n) : Decidable (Spared d id s a) :=
  inferInstanceAs (Decidable (_ → ∀ r ∈ s.current_request.head?, _))

instance (d : Disks) (j : Job) : Decidable (Inside d j) := inferInstanceAs (Decidable (_ ∧ _))

/-- One disk of 340 sectors, with a partition of two blocks. -/
def oneDisk : Disks where
  NR_HD := 1
  hd_info _ := ⟨2, 17, 10⟩
  hd dev := if dev = 0 then ⟨0, 340⟩ else if dev = 1 then ⟨34, 4⟩ else ⟨0, 0⟩
  number := by decide
  head := by decide
  sect := by decide
  cyl := by decide
  fits := by decide

/-- To read or write a block of the disk or the partition, as the first request. -/
def ask (dev : UInt16) (cmd : Rw) (b_blocknr : UInt32) : Act 1 :=
  .makeRequest 31 dev cmd b_blocknr ⟨0, Nat.zero_lt_one⟩ 0x100000

/-- The first block of the partition is read with an error in each sector. -/
theorem request_survives_read : ∃ s : Hd 1,
    exec (checked (step oneDisk) fun s a => Few 0 s a ∧ Spared oneDisk 0 s a) boot
      (ask 0x0301 .read 0 :: [true, true, false, true, false, true].map .interrupt) = some s ∧
    s.current_request.isEmpty = true ∧ Survives oneDisk ⟨0, 0x0301, .read, 0, 0x100000⟩ s := by
  obtain ⟨s, hs, hcur⟩ : ∃ s : Hd 1,
      exec (checked (step oneDisk) fun s a => Few 0 s a ∧ Spared oneDisk 0 s a) boot
        (ask 0x0301 .read 0 :: [true, true, false, true, false, true].map .interrupt) = some s ∧
      s.current_request.isEmpty = true := exec_any (by decide +kernel)
  obtain ⟨s₁, hs₁, hrun⟩ := Option.bind_eq_some_iff.mp hs
  obtain ⟨-, hs₁⟩ := Option.ite_none_right_eq_some.mp hs₁
  have hin : Inside oneDisk ⟨0, 0x0301, .read, 0, 0x100000⟩ := by decide
  exact ⟨s, hs, hcur, (request_survives oneDisk .start hs₁ hin (exec_checked hrun)).1⟩

/-- The second block is read with one error, in its second sector; a block is written with
three errors in the first and four in the second sector. -/
theorem not_request_survives :
    (∃ s : Hd 1, exec (checked (step oneDisk) (Few 0)) boot
      (ask 0x0301 .read 1 :: [true, true, true, false].map .interrupt) = some s ∧
      Inside oneDisk ⟨0, 0x0301, .read, 1, 0x100000⟩ ∧ .ended 0 false ∈ s.log) ∧
    ∃ s : Hd 1, exec (checked (step oneDisk) (Few 0)) boot
      (ask 0x0300 .write 0 :: [.interrupt true, .interrupt true, .drq true, .interrupt false,
        .drq true, .interrupt false, .drq true, .interrupt false, .drq true, .interrupt true,
        .interrupt false, .interrupt true, .interrupt true, .drq true, .interrupt false,
        .interrupt true, .interrupt true, .drq true, .interrupt false, .interrupt true,
        .interrupt true, .drq true, .interrupt false]) = some s ∧
      Inside oneDisk ⟨0, 0x0300, .write, 0, 0x100000⟩ ∧ .ended 0 false ∈ s.log := by
  constructor
  · exact exec_any (by decide +kernel)
  · exact exec_any (by decide +kernel)

end HardDisk

end Linux011
