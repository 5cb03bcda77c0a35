import Linux011.RequestQueue

/-!
# Requests of the floppy disk

`kernel/blk_drv/floppy.c`: the interrupts of the controller, the timers that start a transfer, and
what the driver starts again after an error. What the controller answers is part of an action; a
step has no successor where the driver goes through a null pointer. The motor and the choice of
the drive only decide when a timer comes, and texts, ports and copies of the data are left out.

Each function that `do_floppy` can point to is its own definition, as in the source, and an
interrupt takes the pointer and calls it. The condition of each test is kept as a predicate of
the bytes that the controller has answered (`rwFails`, `seekFails`, `recalFails`), so that a run
can be given the answers that it needs. Two things of the model are history and are read by
nothing: the number of a request, and how many there were.
-/

namespace Linux011

open Runs

namespace Floppy

def MAX_ERRORS : Nat := 8

/-- The fields of `struct floppy_struct` that decide what is done. -/
structure FloppyStruct where
  size : Nat
  sect : Nat
  head : Nat
  stretch : Nat
  spec1 : UInt8

/-- A `struct request` of the driver. -/
structure FdRequest (n : Nat) extends Request n where
  errors : Nat
  /-- history: the number of requests that were made before -/
  id : Nat

/-- What `do_floppy` points to. -/
inductive Intr where
  | rw_interrupt
  | seek_interrupt
  | recal_interrupt
  | reset_interrupt
deriving DecidableEq

structure Fd (n : Nat) where
  current_request : List (FdRequest n)
  reset : Bool
  recalibrate : Bool
  seek : Bool
  do_floppy : Option Intr
  /-- the timers with `floppy_on_interrupt` -/
  on : Nat
  /-- the timers with `transfer` -/
  transfers : Nat
  floppy : FloppyStruct
  current_drive : Nat
  current_track : UInt8
  seek_track : UInt8
  /-- `none` is -1 -/
  cur_spec1 : Option UInt8
  /-- history: the number of requests that were made -/
  count : Nat

/-- What the controller does in an action: whether it takes the bytes of the first command and of
the one behind it, whether it takes those of `recalibrate_floppy`, the number of bytes that
`result` gets, and the first of these as they stand afterwards. -/
structure Io where
  first : Bool
  second : Bool
  recal : Bool
  replies : Option Nat
  ST0 : UInt8
  ST1 : UInt8
  ST2 : UInt8

variable {n : Nat}

/-- `output_byte` for the bytes of a command. -/
def output (s : Fd n) (taken : Bool) : Fd n := { s with reset := s.reset || !taken }

/-- `result`; `none` is -1. -/
def result (s : Fd n) (io : Io) : Fd n × Option Nat :=
  if s.reset then (s, none)
  else match io.replies with
    | none => ({ s with reset := true }, none)
    | some i => (s, some i)

def endRequest (s : Fd n) : Option (Fd n) :=
  match s.current_request with
  | [] => none
  | _ :: rest => some { s with current_request := rest }

/-! ## Starting a command -/

def resetFloppy (s : Fd n) : Fd n := { s with
  reset := false
  cur_spec1 := none
  recalibrate := true
  do_floppy := some .reset_interrupt }

/-- When the controller does not take the bytes, `do_fd_request` finds `reset`. -/
def recalibrateFloppy (s : Fd n) (taken : Bool) : Fd n :=
  let s := output { s with
    recalibrate := false
    current_track := 0
    do_floppy := some .recal_interrupt } taken
  if s.reset then resetFloppy { s with seek := false } else s

/-- `MINOR` -/
def minor (dev : UInt16) : Nat := dev.toNat % 256

/-- `do_fd_request` up to the first request that is on its disk. -/
def dropOutside (floppy_type : Nat → FloppyStruct) (s : Fd n) : List (FdRequest n) → Fd n
  | [] => { s with current_request := [] }
  | r :: rest =>
    let drive := minor r.dev % 4
    let s := { s with
      current_request := r :: rest
      floppy := floppy_type (minor r.dev / 4)
      seek := s.seek || decide (s.current_drive ≠ drive)
      current_drive := drive }
    if s.floppy.size < (r.sector.toNat + 2) % 0x100000000 then dropOutside floppy_type s rest else s

/-- The rest of `do_fd_request`. -/
def startTransfer (s : Fd n) : Fd n :=
  match s.current_request with
  | [] => s
  | r :: _ =>
    let track : UInt8 := .ofNat (r.sector.toNat / s.floppy.sect / s.floppy.head)
    let seek_track : UInt8 := .ofNat (track.toNat <<< s.floppy.stretch)
    { s with
      seek_track := seek_track
      seek := s.seek || decide (seek_track ≠ s.current_track)
      on := s.on + 1 }

def doFdRequest (floppy_type : Nat → FloppyStruct) (s : Fd n) (taken : Bool) : Fd n :=
  let s := { s with seek := false }
  if s.reset then resetFloppy s
  else if s.recalibrate then recalibrateFloppy s taken
  else startTransfer (dropOutside floppy_type s s.current_request)

/-- `setup_DMA` takes the buffer of the current request. -/
def setupRwFloppy (floppy_type : Nat → FloppyStruct) (s : Fd n) (io : Io) (taken : Bool) :
    Option (Fd n) :=
  match s.current_request with
  | [] => none
  | _ =>
    let s := output { s with do_floppy := some .rw_interrupt } taken
    some (if s.reset then doFdRequest floppy_type s io.recal else s)

def transfer (floppy_type : Nat → FloppyStruct) (s : Fd n) (io : Io) : Option (Fd n) :=
  let s :=
    if s.cur_spec1 ≠ some s.floppy.spec1 then
      output { s with cur_spec1 := some s.floppy.spec1 } io.first
    else s
  if s.reset then some (doFdRequest floppy_type s io.recal)
  else if s.seek = false then setupRwFloppy floppy_type s io io.second
  else
    let s := output { s with do_floppy := some .seek_interrupt } io.second
    some (if s.reset then doFdRequest floppy_type s io.recal else s)

/-- `floppy_on_interrupt`, with the drive of the request selected or not. -/
def floppyOnInterrupt (floppy_type : Nat → FloppyStruct) (s : Fd n) (io : Io) (selected : Bool) :
    Option (Fd n) :=
  if selected then transfer floppy_type s io else some { s with transfers := s.transfers + 1 }

/-! ## Interrupts -/

/-- `bad_flp_intr` up to the second test. -/
def countError (s : Fd n) : Option (Fd n) :=
  match s.current_request with
  | [] => none
  | r :: rest =>
    let r := { r with errors := r.errors + 1 }
    let s := { s with current_request := r :: rest }
    if MAX_ERRORS < r.errors then endRequest s else some s

/-- The second test; without a request it reads an entry of the page directory, which is
larger. -/
def testErrors (s : Fd n) : Fd n :=
  match s.current_request with
  | [] => { s with reset := true }
  | r :: _ =>
    if MAX_ERRORS / 2 < r.errors then { s with reset := true } else { s with recalibrate := true }

def badFlpIntr (s : Fd n) : Option (Fd n) := (countError s).map testErrors

/-- The test of `rw_interrupt`. -/
def rwFails (s : Fd n) (io : Io) : Prop :=
  (result s io).2 ≠ some 7 ∨ io.ST0 &&& 0xf8 ≠ 0 ∨ io.ST1 &&& 0xbf ≠ 0 ∨ io.ST2 &&& 0x73 ≠ 0

instance (s : Fd n) (io : Io) : Decidable (rwFails s io) := inferInstanceAs (Decidable (_ ∨ _))

def rwInterrupt (floppy_type : Nat → FloppyStruct) (s : Fd n) (io : Io) : Option (Fd n) :=
  let s' := (result s io).1
  let ended :=
    if rwFails s io then if io.ST1 &&& 0x02 ≠ 0 then endRequest s' else badFlpIntr s'
    else endRequest s'
  ended.map fun s => doFdRequest floppy_type s io.recal

/-- The test of `seek_interrupt`. -/
def seekFails (s : Fd n) (io : Io) : Prop :=
  (result s io).2 ≠ some 2 ∨ io.ST0 &&& 0xf8 ≠ 0x20 ∨ io.ST1 ≠ s.seek_track

instance (s : Fd n) (io : Io) : Decidable (seekFails s io) := inferInstanceAs (Decidable (_ ∨ _))

def seekInterrupt (floppy_type : Nat → FloppyStruct) (s : Fd n) (io : Io) : Option (Fd n) :=
  let s := output s io.first
  let s' := (result s io).1
  if seekFails s io then (badFlpIntr s').map fun s => doFdRequest floppy_type s io.recal
  else setupRwFloppy floppy_type { s' with current_track := io.ST1 } io io.second

/-- The test of `recal_interrupt` and `unexpected_floppy_interrupt`. -/
def recalFails (s : Fd n) (io : Io) : Prop :=
  (result s io).2 ≠ some 2 ∨ io.ST0 &&& 0xe0 = 0x60

instance (s : Fd n) (io : Io) : Decidable (recalFails s io) := inferInstanceAs (Decidable (_ ∨ _))

def recalInterrupt (floppy_type : Nat → FloppyStruct) (s : Fd n) (io : Io) : Fd n :=
  let s := output s io.first
  let s' := (result s io).1
  let s' := if recalFails s io then { s' with reset := true } else { s' with recalibrate := false }
  doFdRequest floppy_type s' io.recal

def unexpectedFloppyInterrupt (s : Fd n) (io : Io) : Fd n :=
  let s := output s io.first
  let s' := (result s io).1
  if recalFails s io then { s' with reset := true } else { s' with recalibrate := true }

def resetInterrupt (floppy_type : Nat → FloppyStruct) (s : Fd n) (io : Io) : Fd n :=
  let s := (result (output s io.first) io).1
  doFdRequest floppy_type (output s io.second) io.recal

/-- `floppy_interrupt` takes the pointer and calls the function. -/
def floppyInterrupt (floppy_type : Nat → FloppyStruct) (s : Fd n) (io : Io) : Option (Fd n) :=
  match s.do_floppy with
  | none => some (unexpectedFloppyInterrupt s io)
  | some .rw_interrupt => rwInterrupt floppy_type { s with do_floppy := none } io
  | some .seek_interrupt => seekInterrupt floppy_type { s with do_floppy := none } io
  | some .recal_interrupt => some (recalInterrupt floppy_type { s with do_floppy := none } io)
  | some .reset_interrupt => some (resetInterrupt floppy_type { s with do_floppy := none } io)

/-! ## Steps -/

inductive Act (n : Nat) where
  | makeRequest (slot : Nat) (dev : UInt16) (cmd : Rw) (b_blocknr : UInt32) (bh : Fin n)
      (taken : Bool)
  | interrupt (io : Io)
  | floppyOn (io : Io) (selected : Bool)
  | transfer (io : Io)

/-- What `make_request` writes into the slot. -/
def fill (id slot : Nat) (dev : UInt16) (cmd : Rw) (b_blocknr : UInt32) (bh : Fin n) :
    FdRequest n :=
  { Queue.fill slot dev cmd b_blocknr bh with errors := 0, id := id }

/-- `add_request` calls `do_fd_request` when there was no request. -/
def addRequest (floppy_type : Nat → FloppyStruct) (s : Fd n) (r : FdRequest n) (taken : Bool) :
    Fd n :=
  match s.current_request with
  | [] => doFdRequest floppy_type { s with current_request := [r], count := s.count + 1 } taken
  | tmp :: rest => { s with
      current_request := Elevator.insert (fun r => Queue.key r.toRequest) r (tmp :: rest)
      count := s.count + 1 }

def step (floppy_type : Nat → FloppyStruct) (s : Fd n) : Act n → Option (Fd n)
  | .makeRequest slot dev cmd b_blocknr bh taken =>
    some (addRequest floppy_type s (fill s.count slot dev cmd b_blocknr bh) taken)
  | .interrupt io => floppyInterrupt floppy_type s io
  | .floppyOn io selected =>
    if s.on = 0 then none
    else floppyOnInterrupt floppy_type { s with on := s.on - 1 } io selected
  | .transfer io =>
    if s.transfers = 0 then none
    else transfer floppy_type { s with transfers := s.transfers - 1 } io

def boot (floppy : FloppyStruct) : Fd n where
  current_request := []
  reset := false
  recalibrate := false
  seek := false
  do_floppy := none
  on := 0
  transfers := 0
  floppy := floppy
  current_drive := 0
  current_track := 255
  seek_track := 0
  cur_spec1 := none
  count := 0

end Floppy

end Linux011
