import Linux011.SleepOn

/-!
# Pipes

`read_pipe` and `write_pipe` on one pipe, by any number of tasks. A task runs until it sleeps on
`i_wait`, returns, or is switched out in an access to its buffer: the page of the buffer may have
to be read in first. The calls have a positive `count`: `sys_read` and `sys_write` see to that.

A run of a task is a function of the source, `readPipe` or `writePipe`, cut where the processor
may go to another task. `switch` is the number of accesses to the buffer of the caller after
which this happens, and what the call was doing there, a copy in the middle of its bytes or a
sleep, is kept in `Pc` with its local variables; `step` resumes it from there. The wait pointer
is that of `WaitQueue`, so that sleeping and waking need no second model. The fields that are
called history record what went in and out and in which order the cells were stored, for the
three results that `PipeStream` and `PipeCopies` have about these runs.
-/

namespace Linux011

open Function Runs

structure Pipe where
  i_count : Nat
  /-- `i_zone[0]` -/
  PIPE_HEAD : UInt16
  /-- `i_zone[1]` -/
  PIPE_TAIL : UInt16
  /-- the page at `i_size` -/
  page : Nat → UInt8
  /-- history: the bytes that were copied in -/
  written : List UInt8
  /-- history: the bytes that were copied out -/
  readOut : List UInt8
  /-- history: how often each place of the page was stored to -/
  stores : Nat → Nat

namespace Pipe

/-- A call of `read_pipe`. -/
structure Reader where
  count : Nat
  read : Nat
  /-- the bytes in the buffer of the caller -/
  buf : List UInt8
  /-- history: the `stores` when `PIPE_TAIL` was advanced last -/
  seen : Nat → Nat

/-- A call of `write_pipe`. -/
structure Writer where
  count : Nat
  written : Nat
  /-- the bytes that `buf` points to -/
  buf : List UInt8
  /-- history: how many bytes were copied -/
  copied : Nat

/-- Where the run of a task ends. -/
inductive Stop where
  | done
  /-- there is nothing to read, or no room to write -/
  | blocked
  /-- before an access to the buffer, with `chars` bytes left from `size` on -/
  | switched (chars size : Nat)

/-! ## The code -/

/-- `PIPE_SIZE` -/
def size (p : Pipe) : Nat := (((p.PIPE_HEAD.toNat : Int) - p.PIPE_TAIL.toNat) % 4096).toNat

/-- `PIPE_TAIL += chars; PIPE_TAIL &= PAGE_SIZE - 1` -/
def advance (place : UInt16) (chars : Nat) : UInt16 := (place + UInt16.ofNat chars) &&& 0xfff

def putFsBytes (p : Pipe) (r : Reader) (chars size : Nat) : Pipe × Reader :=
  let bytes := (List.range chars).map fun i => p.page (size + i)
  ({ p with readOut := p.readOut ++ bytes }, { r with buf := r.buf ++ bytes })

def getFsBytes (p : Pipe) (w : Writer) (chars size : Nat) : Pipe × Writer :=
  let bytes := w.buf.take chars
  ({ p with
      page := fun j => if size ≤ j ∧ j < size + chars then bytes.getD (j - size) 0 else p.page j
      stores := fun j => if size ≤ j ∧ j < size + chars then p.stores j + 1 else p.stores j
      written := p.written ++ bytes },
    { w with buf := w.buf.drop chars, copied := w.copied + chars })

/-- The inner loop of `read_pipe`, and the rest of the call; `switch` is the number of accesses up
to the one that leaves the processor to other tasks. -/
def copyOut (rest : Option Nat → Pipe → Reader → Pipe × Reader × Stop) (switch : Option Nat)
    (p : Pipe) (r : Reader) (chars size : Nat) : Pipe × Reader × Stop :=
  match switch with
  | none =>
    let (p, r) := p.putFsBytes r chars size
    rest none p r
  | some k =>
    if k < chars then
      let (p, r) := p.putFsBytes r k size
      (p, r, .switched (chars - k) (size + k))
    else
      let (p, r) := p.putFsBytes r chars size
      rest (some (k - chars)) p r

/-- `read_pipe`, as far as it runs; every round takes at least one byte from `count`. -/
def readPipe : Nat → Option Nat → Pipe → Reader → Pipe × Reader × Stop
  | 0, _, p, r => (p, r, .done)
  | fuel + 1, switch, p, r =>
    if r.count = 0 then (p, r, .done)
    else if p.size = 0 then (p, r, .blocked)
    else
      let chars := min (min (4096 - p.PIPE_TAIL.toNat) r.count) p.size
      copyOut (readPipe fuel) switch
        { p with PIPE_TAIL := advance p.PIPE_TAIL chars }
        { r with count := r.count - chars, read := r.read + chars, seen := p.stores }
        chars p.PIPE_TAIL.toNat

/-- The inner loop of `write_pipe`, and the rest of the call. -/
def copyIn (rest : Option Nat → Pipe → Writer → Pipe × Writer × Stop) (switch : Option Nat)
    (p : Pipe) (w : Writer) (chars size : Nat) : Pipe × Writer × Stop :=
  match switch with
  | none =>
    let (p, w) := p.getFsBytes w chars size
    rest none p w
  | some k =>
    if k < chars then
      let (p, w) := p.getFsBytes w k size
      (p, w, .switched (chars - k) (size + k))
    else
      let (p, w) := p.getFsBytes w chars size
      rest (some (k - chars)) p w

/-- `write_pipe`, as far as it runs. -/
def writePipe : Nat → Option Nat → Pipe → Writer → Pipe × Writer × Stop
  | 0, _, p, w => (p, w, .done)
  | fuel + 1, switch, p, w =>
    if w.count = 0 then (p, w, .done)
    else if 4095 - p.size = 0 then (p, w, .blocked)
    else
      let chars := min (min (4096 - p.PIPE_HEAD.toNat) w.count) (4095 - p.size)
      copyIn (writePipe fuel) switch
        { p with PIPE_HEAD := advance p.PIPE_HEAD chars }
        { w with count := w.count - chars, written := w.written + chars }
        chars p.PIPE_HEAD.toNat

/-- Where a task is. -/
inductive Pc where
  | idle
  /-- in `sleep_on` -/
  | readSleeps (r : Reader)
  | writeSleeps (w : Writer)
  /-- in the inner loop -/
  | readCopies (r : Reader) (chars size : Nat)
  | writeCopies (w : Writer) (chars size : Nat)

/-- What a call has returned, with the number of bytes that it has copied, and whether the other
end was gone. -/
structure Return where
  write : Bool
  value : Int
  copied : Nat
  gone : Bool

end Pipe

open Pipe in
/-- A pipe and the tasks that use it. -/
structure Pipes (T : Type) where
  pipe : Pipe
  i_wait : WaitQueue T
  pc : T → Pc
  /-- `SIGPIPE` in `signal` -/
  sigpipe : T → Bool
  /-- history -/
  returns : List Return

namespace Pipes

open Pipe

variable {T : Type} [DecidableEq T]

def readReturns (s : Pipes T) (t : T) (p : Pipe) (r : Reader) : Pipes T :=
  { s with
    pipe := p
    i_wait := s.i_wait.wakeUp
    pc := update s.pc t .idle
    returns := ⟨false, r.read, r.buf.length, p.i_count ≠ 2⟩ :: s.returns }

/-- The end of a run of `read_pipe`. -/
def readStops (initTask : T) (s : Pipes T) (t : T) : Pipe × Reader × Stop → Option (Pipes T)
  | (p, r, .done) => some (s.readReturns t p r)
  | (p, r, .blocked) =>
    if p.i_count ≠ 2 then some (s.readReturns t p r)
    else
      match WaitQueue.sleepOn initTask s.i_wait.wakeUp t with
      | some i_wait => some { s with
          pipe := p, i_wait := i_wait, pc := update s.pc t (.readSleeps r) }
      | none => none
  | (p, r, .switched chars size) =>
    some { s with pipe := p, pc := update s.pc t (.readCopies r chars size) }

def writeReturns (s : Pipes T) (t : T) (p : Pipe) (w : Writer) (value : Int) : Pipes T :=
  { s with
    pipe := p
    i_wait := s.i_wait.wakeUp
    pc := update s.pc t .idle
    returns := ⟨true, value, w.copied, p.i_count ≠ 2⟩ :: s.returns }

/-- The end of a run of `write_pipe`. -/
def writeStops (initTask : T) (s : Pipes T) (t : T) : Pipe × Writer × Stop → Option (Pipes T)
  | (p, w, .done) => some (s.writeReturns t p w w.written)
  | (p, w, .blocked) =>
    if p.i_count ≠ 2 then
      let s := s.writeReturns t p w (if w.written ≠ 0 then w.written else -1)
      some { s with sigpipe := update s.sigpipe t true }
    else
      match WaitQueue.sleepOn initTask s.i_wait.wakeUp t with
      | some i_wait => some { s with
          pipe := p, i_wait := i_wait, pc := update s.pc t (.writeSleeps w) }
      | none => none
  | (p, w, .switched chars size) =>
    some { s with pipe := p, pc := update s.pc t (.writeCopies w chars size) }

inductive Act (T : Type) where
  | read (t : T) (count : Nat) (switch : Option Nat)
  | write (t : T) (buf : List UInt8) (switch : Option Nat)
  /-- the task is switched in again -/
  | resume (t : T) (switch : Option Nat)
  /-- `iput`, by the last user of one end -/
  | close

/-- The task is in `sleep_on`, and runnable. -/
def woken (s : Pipes T) (t : T) : Bool := decide (s.i_wait.state t = .running)

def step (initTask : T) (s : Pipes T) : Act T → Option (Pipes T)
  | .read t count switch =>
    match s.pc t with
    | .idle =>
      if 0 < count then
        s.readStops initTask t (readPipe count switch s.pipe ⟨count, 0, [], s.pipe.stores⟩)
      else none
    | _ => none
  | .write t buf switch =>
    match s.pc t with
    | .idle =>
      if 0 < buf.length then
        s.writeStops initTask t (writePipe buf.length switch s.pipe ⟨buf.length, 0, buf, 0⟩)
      else none
    | _ => none
  | .resume t switch =>
    match s.pc t with
    | .idle => none
    | .readSleeps r =>
      if s.woken t then
        readStops initTask { s with i_wait := s.i_wait.sleepOnReturn t } t
          (readPipe r.count switch s.pipe r)
      else none
    | .writeSleeps w =>
      if s.woken t then
        writeStops initTask { s with i_wait := s.i_wait.sleepOnReturn t } t
          (writePipe w.count switch s.pipe w)
      else none
    | .readCopies r chars size =>
      s.readStops initTask t (copyOut (readPipe r.count) switch s.pipe r chars size)
    | .writeCopies w chars size =>
      s.writeStops initTask t (copyIn (writePipe w.count) switch s.pipe w chars size)
  | .close =>
    if s.pipe.i_count = 2 then
      some { s with pipe := { s.pipe with i_count := 1 }, i_wait := s.i_wait.wakeUp }
    else none

/-- `get_pipe_inode` -/
def start (page : Nat → UInt8) (i_wait : WaitQueue T) : Pipes T :=
  ⟨⟨2, 0, 0, page, [], [], fun _ => 0⟩, i_wait, fun _ => .idle, fun _ => false, []⟩

/-- Tasks are switched in `sleep_on` only. -/
def OnlySleeps (_ : Pipes T) : Act T → Prop
  | .read _ _ switch => switch = none
  | .write _ _ switch => switch = none
  | .resume _ switch => switch = none
  | .close => True

end Pipes

end Linux011
