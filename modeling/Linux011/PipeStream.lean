import Linux011.Pipe

/-!
# Pipes are byte streams

What `read_pipe` has copied out is a prefix of what `write_pipe` has copied in, and the difference
is what stands between `PIPE_TAIL` and `PIPE_HEAD`. Readers and writers never sleep side by side.

The first result is an invariant of the pipe as a queue of bytes (`Fifo`): `stored` reads the
page from `PIPE_TAIL` to `PIPE_HEAD`, and what was copied out together with it is what was copied
in. One chunk of a copy is taken at the front or put at the end (`Fifo.take`, `Fifo.give`), and
the loop of a call that is not switched out in a copy is a sequence of chunks. Each call returns
the number of bytes that it has copied, since its counter is the length of what it has in hand
while it sleeps (`PcOk`).

The second result is about the sleepers and needs `sleep_on` in detail. A run of one call ends by
waking whoever is at the wait pointer, and if it then sleeps itself, it sleeps with a null
pointer in its `tmp`: so nobody ever has a chain behind him, and there is at most one sleeper
(`Waits`). As it was the last to look at the pipe, what it waits for is not there. `Ends` lists
the ways in which a run of a call can end, and the step lemma is a case for each.
-/

namespace Linux011

open Function Runs

namespace Pipe

variable {p p' : Pipe} {r r' : Reader} {w w' : Writer} {chars : Nat} {stop : Stop}

/-- The bytes between `PIPE_TAIL` and `PIPE_HEAD`. -/
def stored (p : Pipe) : List UInt8 :=
  (List.range p.size).map fun i => p.page ((p.PIPE_TAIL.toNat + i) % 4096)

/-- The pipe as a queue of bytes. -/
structure Fifo (p : Pipe) : Prop where
  head : p.PIPE_HEAD.toNat < 4096
  tail : p.PIPE_TAIL.toNat < 4096
  stream : p.readOut ++ p.stored = p.written

theorem advance_toNat (place : UInt16) (chars : Nat) :
    (advance place chars).toNat = (place.toNat + chars) % 4096 := by
  have hmask : (0xfff : UInt16).toNat = 2 ^ 12 - 1 := rfl
  unfold advance
  rw [UInt16.toNat_and, hmask, Nat.and_two_pow_sub_one_eq_mod, UInt16.toNat_add,
    UInt16.toNat_ofNat']
  omega

theorem size_eq (hhead : p.PIPE_HEAD.toNat < 4096) (htail : p.PIPE_TAIL.toNat < 4096) :
    p.size = (p.PIPE_HEAD.toNat + 4096 - p.PIPE_TAIL.toNat) % 4096 := by
  unfold size
  omega

theorem stored_length (p : Pipe) : p.stored.length = p.size := by
  unfold stored
  rw [List.length_map, List.length_range]

theorem size_le (p : Pipe) : p.size ≤ 4095 := by
  unfold size
  omega

/-! ## The chunks -/

/-- The reader takes `chars` bytes in one piece. -/
theorem Fifo.take (h : p.Fifo) (hsize : chars ≤ p.size) (hend : p.PIPE_TAIL.toNat + chars ≤ 4096)
    (r : Reader) :
    (putFsBytes { p with PIPE_TAIL := advance p.PIPE_TAIL chars } r chars
      p.PIPE_TAIL.toNat).1.Fifo := by
  generalize hp' : (putFsBytes { p with PIPE_TAIL := advance p.PIPE_TAIL chars } r chars
      p.PIPE_TAIL.toNat).1 = p'
  have hhead : p'.PIPE_HEAD = p.PIPE_HEAD := by rw [← hp']; rfl
  have hpage : p'.page = p.page := by rw [← hp']; rfl
  have htail : p'.PIPE_TAIL.toNat = (p.PIPE_TAIL.toNat + chars) % 4096 := by
    rw [← hp']
    exact advance_toNat _ _
  have htail' : p'.PIPE_TAIL.toNat < 4096 := by omega
  have hold := size_eq h.head h.tail
  have hnew := size_eq (hhead ▸ h.head) htail'
  have hleft : p.size = chars + p'.size := by
    rw [hhead] at hnew
    omega
  -- the bytes that are taken come first
  have hsplit : p.stored = (List.range chars).map (fun i => p.page (p.PIPE_TAIL.toNat + i)) ++
      p'.stored := by
    unfold stored
    rw [hleft, List.range_add, List.map_append, List.map_map]
    congr 1
    · refine List.map_congr_left fun i hi => ?_
      have hlt := List.mem_range.mp hi
      rw [Nat.mod_eq_of_lt (by omega)]
    · refine List.map_congr_left fun i _ => ?_
      rw [hpage, Function.comp, htail]
      congr 1
      omega
  refine ⟨hhead ▸ h.head, htail', ?_⟩
  have hout : p'.readOut = p.readOut ++
      (List.range chars).map fun i => p.page (p.PIPE_TAIL.toNat + i) := by rw [← hp']; rfl
  have hin : p'.written = p.written := by rw [← hp']; rfl
  rw [hout, hin, ← h.stream, hsplit, List.append_assoc]

/-- The writer stores `chars` bytes in one piece. -/
theorem Fifo.give (h : p.Fifo) (hsize : chars ≤ 4095 - p.size)
    (hend : p.PIPE_HEAD.toNat + chars ≤ 4096) {w : Writer} (hbuf : chars ≤ w.buf.length) :
    (getFsBytes { p with PIPE_HEAD := advance p.PIPE_HEAD chars } w chars
      p.PIPE_HEAD.toNat).1.Fifo := by
  generalize hp' : (getFsBytes { p with PIPE_HEAD := advance p.PIPE_HEAD chars } w chars
      p.PIPE_HEAD.toNat).1 = p'
  have htail : p'.PIPE_TAIL = p.PIPE_TAIL := by rw [← hp']; rfl
  have hpage : p'.page = fun j => if p.PIPE_HEAD.toNat ≤ j ∧ j < p.PIPE_HEAD.toNat + chars then
      (w.buf.take chars).getD (j - p.PIPE_HEAD.toNat) 0 else p.page j := by rw [← hp']; rfl
  have hhead : p'.PIPE_HEAD.toNat = (p.PIPE_HEAD.toNat + chars) % 4096 := by
    rw [← hp']
    exact advance_toNat _ _
  have hhead' : p'.PIPE_HEAD.toNat < 4096 := by omega
  have hold := size_eq h.head h.tail
  have hnew := size_eq hhead' (htail ▸ h.tail)
  have hh := h.head
  have ht := h.tail
  have hmore : p'.size = p.size + chars := by
    rw [htail] at hnew
    omega
  have hlen : (w.buf.take chars).length = chars := by
    rw [List.length_take]
    omega
  -- the new bytes come last, and no old one is stored over
  have hjoin : p'.stored = p.stored ++ w.buf.take chars := by
    unfold stored
    rw [hmore, List.range_add, List.map_append, List.map_map]
    congr 1
    · refine List.map_congr_left fun i hi => ?_
      have hlt := List.mem_range.mp hi
      rw [hpage, htail]
      exact if_neg (by omega)
    · refine List.ext_getElem (by rw [List.length_map, List.length_range, hlen]) fun i hi hi' => ?_
      rw [List.length_map, List.length_range] at hi
      rw [List.getElem_map, List.getElem_range, Function.comp, hpage, htail]
      have hplace : (p.PIPE_TAIL.toNat + (p.size + i)) % 4096 = p.PIPE_HEAD.toNat + i := by omega
      dsimp only
      rw [hplace, if_pos (by omega), Nat.add_sub_cancel_left, List.getD_eq_getElem?_getD,
        List.getElem?_eq_getElem hi', Option.getD_some]
  refine ⟨hhead', htail ▸ h.tail, ?_⟩
  have hin : p'.written = p.written ++ w.buf.take chars := by rw [← hp']; rfl
  have hout : p'.readOut = p.readOut := by rw [← hp']; rfl
  rw [hout, hin, ← h.stream, hjoin, List.append_assoc]

/-! ## The runs of the two calls -/

/-- The end of a run of `read_pipe` that is not switched out. -/
structure ReadRun (p p' : Pipe) (r' : Reader) (stop : Stop) : Prop where
  fifo : p'.Fifo
  i_count : p'.i_count = p.i_count
  read : r'.read = r'.buf.length
  stop : stop = .done ∨ stop = .blocked ∧ p'.size = 0

theorem readPipe_run (fuel : Nat) : ∀ {p : Pipe} {r : Reader}, p.Fifo → r.read = r.buf.length →
    ∃ p' r' stop, readPipe fuel none p r = (p', r', stop) ∧ ReadRun p p' r' stop := by
  induction fuel with
  | zero =>
      intro p r h hread
      exact ⟨p, r, .done, rfl, h, rfl, hread, .inl rfl⟩
  | succ fuel ih =>
      intro p r h hread
      unfold readPipe
      split
      · exact ⟨p, r, .done, rfl, h, rfl, hread, .inl rfl⟩
      split
      · rename_i hempty
        exact ⟨p, r, .blocked, rfl, h, rfl, hread, .inr ⟨rfl, hempty⟩⟩
      dsimp only [copyOut]
      have htail := h.tail
      generalize hchars : min (min (4096 - p.PIPE_TAIL.toNat) r.count) p.size = chars
      have hfifo := h.take (show chars ≤ p.size by omega) (by omega)
        { r with count := r.count - chars, read := r.read + chars, seen := p.stores }
      obtain ⟨p', r', stop, hrun, hspec⟩ := ih hfifo (r := (putFsBytes
        { p with PIPE_TAIL := advance p.PIPE_TAIL chars }
        { r with count := r.count - chars, read := r.read + chars, seen := p.stores } chars
        p.PIPE_TAIL.toNat).2) (by
          show r.read + chars = (r.buf ++ _).length
          rw [List.length_append, List.length_map, List.length_range, hread])
      exact ⟨p', r', stop, hrun, hspec.fifo, hspec.i_count, hspec.read, hspec.stop⟩

/-- The end of a run of `write_pipe` that is not switched out. -/
structure WriteRun (p p' : Pipe) (w' : Writer) (stop : Stop) : Prop where
  fifo : p'.Fifo
  i_count : p'.i_count = p.i_count
  written : w'.written = w'.copied
  buf : w'.buf.length = w'.count
  stop : stop = .done ∧ 0 < w'.copied ∨ stop = .blocked ∧ p'.size = 4095 ∧ 0 < w'.count

theorem writePipe_run (fuel : Nat) : ∀ {p : Pipe} {w : Writer}, p.Fifo → w.written = w.copied →
    w.buf.length = w.count → w.count ≤ fuel → 0 < w.count ∨ 0 < w.copied →
    ∃ p' w' stop, writePipe fuel none p w = (p', w', stop) ∧ WriteRun p p' w' stop := by
  induction fuel with
  | zero =>
      intro p w h hwritten hbuf hfuel hpos
      exact ⟨p, w, .done, rfl, h, rfl, hwritten, hbuf, .inl ⟨rfl, by omega⟩⟩
  | succ fuel ih =>
      intro p w h hwritten hbuf hfuel hpos
      unfold writePipe
      split
      · exact ⟨p, w, .done, rfl, h, rfl, hwritten, hbuf, .inl ⟨rfl, by omega⟩⟩
      split
      · rename_i hcount hfull
        have hle := p.size_le
        exact ⟨p, w, .blocked, rfl, h, rfl, hwritten, hbuf, .inr ⟨rfl, by omega, by omega⟩⟩
      dsimp only [copyIn]
      have hhead := h.head
      generalize hchars : min (min (4096 - p.PIPE_HEAD.toNat) w.count) (4095 - p.size) = chars
      have hfifo := h.give (show chars ≤ 4095 - p.size by omega) (by omega)
        (w := { w with count := w.count - chars, written := w.written + chars })
        (by show chars ≤ w.buf.length; omega)
      obtain ⟨p', w', stop, hrun, hspec⟩ := ih hfifo (w := (getFsBytes
        { p with PIPE_HEAD := advance p.PIPE_HEAD chars }
        { w with count := w.count - chars, written := w.written + chars } chars
        p.PIPE_HEAD.toNat).2) (by
          show w.written + chars = w.copied + chars
          rw [hwritten]) (by
          show (w.buf.drop chars).length = w.count - chars
          rw [List.length_drop, hbuf]) (by
          show w.count - chars ≤ fuel
          omega) (.inr (by
          show 0 < w.copied + chars
          omega))
      exact ⟨p', w', stop, hrun, hspec.fifo, hspec.i_count, hspec.written, hspec.buf, hspec.stop⟩

end Pipe

namespace Pipes

open Pipe

variable {T : Type} [DecidableEq T] {initTask : T} {s s' : Pipes T} {t : T} {p : Pipe} {r : Reader}
  {w : Writer} {stop : Stop}

/-! ## The stream -/

/-- What a task in a call relies on; none is in the middle of a copy. -/
def PcOk : Pc → Prop
  | .idle => True
  | .readSleeps r => r.read = r.buf.length
  | .writeSleeps w => w.written = w.copied ∧ w.buf.length = w.count ∧ 0 < w.count
  | .readCopies _ _ _ => False
  | .writeCopies _ _ _ => False

/-- The value of a call: the number of bytes copied, or -1. -/
def Return.Right (e : Return) : Prop :=
  e.value = if e.write ∧ e.copied = 0 ∧ e.gone then -1 else (e.copied : Int)

structure Streams (s : Pipes T) : Prop where
  fifo : s.pipe.Fifo
  pc : ∀ t, PcOk (s.pc t)
  returns : ∀ e ∈ s.returns, Return.Right e

theorem pcOk_update {pc : T → Pc} (h : ∀ t, PcOk (pc t)) (x : Pc) (hx : PcOk x) (t' : T) :
    PcOk (update pc t x t') := by
  rcases eq_or_ne t' t with rfl | hne
  · rwa [update_self]
  · rw [update_of_ne hne]
    exact h t'

omit [DecidableEq T] in
theorem Streams.returning {e : Return} (h : s.Streams) (he : Return.Right e) :
    ∀ e' ∈ e :: s.returns, Return.Right e' := by
  intro e' hmem
  rcases List.mem_cons.mp hmem with rfl | hmem
  · exact he
  · exact h.returns e' hmem

theorem Streams.readReturns (h : s.Streams) {p₀ : Pipe} (hr : ReadRun p₀ p r stop) (t : T) :
    (s.readReturns t p r).Streams := by
  refine ⟨hr.fifo, fun t' => pcOk_update h.pc .idle trivial t', h.returning ?_⟩
  show ((r.read : Nat) : Int) = _
  rw [hr.read, if_neg fun hno => Bool.false_ne_true hno.1]

theorem Streams.readStops (h : s.Streams) {p₀ : Pipe} (hr : ReadRun p₀ p r stop)
    (hs : s.readStops initTask t (p, r, stop) = some s') : s'.Streams := by
  rcases hr.stop with rfl | ⟨rfl, hempty⟩
  · obtain rfl := Option.some.inj hs
    exact h.readReturns hr t
  · unfold Pipes.readStops at hs
    dsimp only at hs
    split at hs
    · obtain rfl := Option.some.inj hs
      exact h.readReturns hr t
    · split at hs
      · obtain rfl := Option.some.inj hs
        exact ⟨hr.fifo, fun t' => pcOk_update h.pc (.readSleeps r) hr.read t', h.returns⟩
      · cases hs

theorem Streams.writeStops (h : s.Streams) {p₀ : Pipe} (hw : WriteRun p₀ p w stop)
    (hs : s.writeStops initTask t (p, w, stop) = some s') : s'.Streams := by
  have hvalue : (w.written : Int) = w.copied := by rw [hw.written]
  rcases hw.stop with ⟨rfl, hpos⟩ | ⟨rfl, hfull, hcount⟩
  · obtain rfl := Option.some.inj hs
    refine ⟨hw.fifo, fun t' => pcOk_update h.pc .idle trivial t', h.returning ?_⟩
    show (w.written : Int) = if _ ∧ w.copied = 0 ∧ _ then -1 else (w.copied : Int)
    rw [if_neg fun hno => Nat.ne_of_gt hpos hno.2.1, hvalue]
  · unfold Pipes.writeStops at hs
    dsimp only at hs
    split at hs
    · rename_i hgone
      obtain rfl := Option.some.inj hs
      refine ⟨hw.fifo, fun t' => pcOk_update h.pc .idle trivial t', h.returning ?_⟩
      show (if w.written ≠ 0 then (w.written : Int) else -1) =
        if _ ∧ w.copied = 0 ∧ decide (p.i_count ≠ 2) = true then -1 else (w.copied : Int)
      by_cases hzero : w.copied = 0
      · rw [if_neg (by rw [hw.written]; exact not_not_intro hzero),
          if_pos ⟨rfl, hzero, decide_eq_true hgone⟩]
      · rw [if_pos (by rwa [hw.written]), if_neg fun hno => hzero hno.2.1, hvalue]
    · split at hs
      · obtain rfl := Option.some.inj hs
        exact ⟨hw.fifo,
          fun t' => pcOk_update h.pc (.writeSleeps w) ⟨hw.written, hw.buf, hcount⟩ t', h.returns⟩
      · cases hs

/-- The state in which a task goes on: as it is, or after the return from `sleep_on`. -/
def GoesOn (s s₀ : Pipes T) (t : T) : Prop :=
  s₀ = s ∨ s₀ = { s with i_wait := s.i_wait.sleepOnReturn t }

/-- A step is one run of one of the calls, or a `close`. -/
theorem Streams.step_cases (h : s.Streams) {a : Act T} (hok : OnlySleeps s a)
    (hs : step initTask s a = some s') :
    (∃ s₀ t, GoesOn s s₀ t ∧
      ((∃ p r stop, ReadRun s.pipe p r stop ∧ s₀.readStops initTask t (p, r, stop) = some s') ∨
        ∃ p w stop, WriteRun s.pipe p w stop ∧
          s₀.writeStops initTask t (p, w, stop) = some s')) ∨
      a = .close ∧
        s' = { s with pipe := { s.pipe with i_count := 1 }, i_wait := s.i_wait.wakeUp } := by
  cases a with
  | read t count switch =>
      obtain rfl : switch = none := hok
      simp only [Pipes.step] at hs
      split at hs
      · obtain ⟨-, hs⟩ := Option.ite_none_right_eq_some.mp hs
        obtain ⟨p, r, stop, hrun, hspec⟩ := readPipe_run count h.fifo
          (r := ⟨count, 0, [], s.pipe.stores⟩) rfl
        exact .inl ⟨s, t, .inl rfl, .inl ⟨p, r, stop, hspec, hrun ▸ hs⟩⟩
      · cases hs
  | write t buf switch =>
      obtain rfl : switch = none := hok
      simp only [Pipes.step] at hs
      split at hs
      · obtain ⟨hpos, hs⟩ := Option.ite_none_right_eq_some.mp hs
        obtain ⟨p, w, stop, hrun, hspec⟩ := writePipe_run buf.length h.fifo
          (w := ⟨buf.length, 0, buf, 0⟩) rfl rfl (Nat.le_refl _) (.inl hpos)
        exact .inl ⟨s, t, .inl rfl, .inr ⟨p, w, stop, hspec, hrun ▸ hs⟩⟩
      · cases hs
  | resume t switch =>
      obtain rfl : switch = none := hok
      have hpc := h.pc t
      simp only [Pipes.step] at hs
      cases hat : s.pc t with
      | idle =>
          rw [hat] at hs
          cases hs
      | readSleeps r =>
          rw [hat] at hs hpc
          obtain ⟨-, hs⟩ := Option.ite_none_right_eq_some.mp hs
          obtain ⟨p, r', stop, hrun, hspec⟩ := readPipe_run r.count h.fifo hpc
          exact .inl ⟨_, t, .inr rfl, .inl ⟨p, r', stop, hspec, hrun ▸ hs⟩⟩
      | writeSleeps w =>
          rw [hat] at hs hpc
          obtain ⟨-, hs⟩ := Option.ite_none_right_eq_some.mp hs
          obtain ⟨p, w', stop, hrun, hspec⟩ := writePipe_run w.count h.fifo hpc.1 hpc.2.1
            (Nat.le_refl _) (.inl hpc.2.2)
          exact .inl ⟨_, t, .inr rfl, .inr ⟨p, w', stop, hspec, hrun ▸ hs⟩⟩
      | readCopies r chars size =>
          rw [hat] at hpc
          exact hpc.elim
      | writeCopies w chars size =>
          rw [hat] at hpc
          exact hpc.elim
  | close =>
      obtain ⟨-, hs⟩ := Option.ite_none_right_eq_some.mp hs
      exact .inr ⟨rfl, (Option.some.inj hs).symm⟩

theorem Streams.step (h : s.Streams) {a : Act T} (hok : OnlySleeps s a)
    (hs : step initTask s a = some s') : s'.Streams := by
  rcases h.step_cases hok hs with ⟨s₀, t, hgo, hrun⟩ | ⟨-, rfl⟩
  · have h₀ : s₀.Streams := by
      rcases hgo with rfl | rfl
      · exact h
      · exact ⟨h.fifo, h.pc, h.returns⟩
    rcases hrun with ⟨p, r, stop, hspec, hs⟩ | ⟨p, w, stop, hspec, hs⟩
    · exact h₀.readStops hspec hs
    · exact h₀.writeStops hspec hs
  · exact ⟨⟨h.fifo.head, h.fifo.tail, h.fifo.stream⟩, h.pc, h.returns⟩

omit [DecidableEq T] in
theorem streams_start (page : Nat → UInt8) (i_wait : WaitQueue T) :
    (start page i_wait).Streams :=
  ⟨⟨Nat.zero_lt_succ _, Nat.zero_lt_succ _, rfl⟩, fun _ => trivial, fun _ hno => nomatch hno⟩

/-- The bytes that were copied, and what the calls returned. -/
structure ByteStream (s : Pipes T) : Prop where
  copied : s.pipe.readOut <+: s.pipe.written
  between : s.pipe.written = s.pipe.readOut ++ s.pipe.stored
  size : s.pipe.stored.length = s.pipe.size
  bound : s.pipe.size ≤ 4095
  returns : ∀ e ∈ s.returns, Return.Right e

/-- **Pipes are byte streams**, for any number of readers and writers that are switched
in `sleep_on` only. What was copied out is a prefix of what was copied in, the
difference is what stands between the two pointers and never more than 4095 bytes, and
every call returns the number of bytes that it has copied, or -1 for a write that finds
the other end gone before its first byte. -/
theorem byte_stream (initTask : T) (page : Nat → UInt8) (i_wait : WaitQueue T) {s : Pipes T}
    (h : Reach (step initTask) OnlySleeps (start page i_wait) s) : s.ByteStream := by
  have hs : s.Streams :=
    h.invariant (streams_start page i_wait) fun s a s' hs hok hstep => hs.step hok hstep
  refine ⟨⟨s.pipe.stored, hs.fifo.stream⟩, hs.fifo.stream.symm, s.pipe.stored_length,
    s.pipe.size_le, hs.returns⟩

instance (s : Pipes T) (a : Act T) : Decidable (OnlySleeps s a) := by
  cases a <;> unfold OnlySleeps <;> infer_instance

/-- Task 2 waits for task 1. -/
def handOver : List (Act (Fin 3)) := [.read 2 2 none, .write 1 [5, 6, 7] none, .resume 2 none]

def nobody : WaitQueue (Fin 3) := ⟨none, fun _ => .running, fun _ => none⟩

theorem byte_stream_handOver : ∃ s : Pipes (Fin 3),
    exec (checked (step 0) OnlySleeps) (start (fun _ => 0) nobody) handOver = some s ∧
      s.pipe.readOut = [5, 6] ∧ s.ByteStream := by
  obtain ⟨s, hs, hout⟩ : ∃ s, exec (checked (step 0) OnlySleeps) (start (fun _ => 0) nobody)
      handOver = some s ∧ s.pipe.readOut = [5, 6] := exec_any (by decide +kernel)
  exact ⟨s, hs, hout, byte_stream 0 (fun _ => 0) nobody (exec_checked hs)⟩

/-! ## Sleeping readers and writers -/

/-- The task is still asleep in `read_pipe` or `write_pipe`. -/
def StillAsleep (s : Pipes T) (t : T) : Prop :=
  ((∃ r, s.pc t = .readSleeps r) ∨ ∃ w, s.pc t = .writeSleeps w) ∧
    s.i_wait.state t = .uninterruptible

/-- Nobody sleeps while what it waits for is there and no runnable task will wake it. -/
structure NoneForgotten (s : Pipes T) : Prop where
  linked : (∀ t, s.i_wait.BehindWait t → (∃ r, s.pc t = .readSleeps r) ∧ s.pipe.size = 0) ∨
    ∀ t, s.i_wait.BehindWait t → (∃ w, s.pc t = .writeSleeps w) ∧ s.pipe.size = 4095
  others : ∀ t, s.StillAsleep t → ¬s.i_wait.BehindWait t → s.i_wait.BehindWoken t
  reader : ∀ t r, s.pc t = .readSleeps r → s.StillAsleep t → 0 < s.pipe.size →
    s.i_wait.BehindWoken t
  writer : ∀ t w, s.pc t = .writeSleeps w → s.StillAsleep t → s.pipe.size < 4095 →
    s.i_wait.BehindWoken t

/-- Each call of `sleep_on` finds the wait pointer null, so that nobody has a chain to wake. -/
structure Waits (s : Pipes T) : Prop where
  streams : s.Streams
  both : s.pipe.i_count = 2
  unchained : ∀ t, s.i_wait.saved t = none
  pointer : ∀ t, s.StillAsleep t → s.i_wait.wait = some t
  waiting : ∀ t, s.i_wait.wait = some t → (∃ r, s.pc t = .readSleeps r) ∧ s.pipe.size = 0 ∨
    (∃ w, s.pc t = .writeSleeps w) ∧ s.pipe.size = 4095

/-- Both ends stay open. -/
def BothOpen (s : Pipes T) : Act T → Prop
  | .close => False
  | a => OnlySleeps s a

theorem wakeUp_state (q : WaitQueue T) (t : T) :
    q.wakeUp.state t = if q.wait = some t then .running else q.state t := by
  cases hw : q.wait with
  | none => simp [WaitQueue.wakeUp, hw]
  | some a =>
      rcases eq_or_ne t a with rfl | hne
      · simp [WaitQueue.wakeUp, hw]
      · simp [WaitQueue.wakeUp, hw, hne, hne.symm]

theorem wakeUp_saved (q : WaitQueue T) : q.wakeUp.saved = q.saved := by
  funext t
  rw [WaitQueue.saved, WaitQueue.wakeUp_tmp, WaitQueue.saved]

theorem Waits.woken (h : s.Waits) {t' : T}
    (ht' : (∃ r, s.pc t' = .readSleeps r) ∨ ∃ w, s.pc t' = .writeSleeps w) :
    s.i_wait.wakeUp.state t' ≠ .uninterruptible := by
  rw [wakeUp_state]
  split
  · exact fun hno => nomatch hno
  · rename_i hne
    exact fun hun => hne (h.pointer t' ⟨ht', hun⟩)

/-- A run of the task `t` ends in `wake_up`, and it is idle or calls `sleep_on` then. -/
inductive Ends (s s' : Pipes T) (t : T) : Prop where
  | returns (pc : s'.pc = update s.pc t .idle) (queue : s'.i_wait = s.i_wait.wakeUp)
  | sleeps (x : Pc) (pc : s'.pc = update s.pc t x)
      (state : s'.i_wait.state = update s.i_wait.wakeUp.state t .uninterruptible)
      (wait : s'.i_wait.wait = some t)
      (tmp : s'.i_wait.tmp = update s.i_wait.tmp t (some none))
      (why : (∃ r, x = .readSleeps r) ∧ s'.pipe.size = 0 ∨
        (∃ w, x = .writeSleeps w) ∧ s'.pipe.size = 4095)

theorem Waits.ends (h : s.Waits) (hstreams : s'.Streams) (hcount : s'.pipe.i_count = 2)
    (he : Ends s s' t) : s'.Waits := by
  cases he with
  | returns pc queue =>
      refine ⟨hstreams, hcount, fun t' => ?_, fun t' ht' => ?_, fun t' ht' => ?_⟩
      · rw [queue, wakeUp_saved]
        exact h.unchained t'
      · obtain ⟨hsleeps, hun⟩ := ht'
        rw [queue] at hun
        rw [pc] at hsleeps
        rcases eq_or_ne t' t with rfl | hne
        · rw [update_self] at hsleeps
          rcases hsleeps with ⟨_, hno⟩ | ⟨_, hno⟩
          · cases hno
          · cases hno
        · rw [update_of_ne hne] at hsleeps
          exact absurd hun (h.woken hsleeps)
      · rw [queue, WaitQueue.wakeUp_wait] at ht'
        cases ht'
  | sleeps x pc state wait tmp why =>
      refine ⟨hstreams, hcount, fun t' => ?_, fun t' ht' => ?_, fun t' ht' => ?_⟩
      · rw [WaitQueue.saved, tmp]
        rcases eq_or_ne t' t with rfl | hne
        · rw [update_self]
          rfl
        · rw [update_of_ne hne]
          exact h.unchained t'
      · rcases eq_or_ne t' t with rfl | hne
        · exact wait
        · obtain ⟨hsleeps, hun⟩ := ht'
          rw [pc, update_of_ne hne] at hsleeps
          rw [state, update_of_ne hne] at hun
          exact absurd hun (h.woken hsleeps)
      · obtain rfl := Option.some.inj (wait.symm.trans ht')
        rw [pc, update_self]
        exact why

theorem sleepOn_wakeUp {q q' : WaitQueue T} (hs : WaitQueue.sleepOn initTask q.wakeUp t = some q') :
    q'.state = update q.wakeUp.state t .uninterruptible ∧ q'.wait = some t ∧
      q'.tmp = update q.tmp t (some none) := by
  unfold WaitQueue.sleepOn at hs
  obtain ⟨-, hs⟩ := Option.ite_none_left_eq_some.mp hs
  obtain rfl := Option.some.inj hs
  rw [WaitQueue.wakeUp_tmp, WaitQueue.wakeUp_wait]
  exact ⟨rfl, rfl, rfl⟩

theorem Waits.readStops (h : s.Waits) (hr : ReadRun s.pipe p r stop)
    (hs : s.readStops initTask t (p, r, stop) = some s') : s'.Waits := by
  have hstreams := h.streams.readStops hr hs
  have hcount : p.i_count = 2 := hr.i_count.trans h.both
  rcases hr.stop with rfl | ⟨rfl, hempty⟩
  · obtain rfl := Option.some.inj hs
    exact h.ends hstreams hcount (.returns rfl rfl)
  · unfold Pipes.readStops at hs
    dsimp only at hs
    rw [if_neg (not_not_intro hcount)] at hs
    split at hs
    · rename_i q hq
      obtain rfl := Option.some.inj hs
      obtain ⟨hstate, hwait, htmp⟩ := sleepOn_wakeUp hq
      exact h.ends hstreams hcount
        (.sleeps (.readSleeps r) rfl hstate hwait htmp (.inl ⟨⟨r, rfl⟩, hempty⟩))
    · cases hs

theorem Waits.writeStops (h : s.Waits) (hw : WriteRun s.pipe p w stop)
    (hs : s.writeStops initTask t (p, w, stop) = some s') : s'.Waits := by
  have hstreams := h.streams.writeStops hw hs
  have hcount : p.i_count = 2 := hw.i_count.trans h.both
  rcases hw.stop with ⟨rfl, -⟩ | ⟨rfl, hfull, -⟩
  · obtain rfl := Option.some.inj hs
    exact h.ends hstreams hcount (.returns rfl rfl)
  · unfold Pipes.writeStops at hs
    dsimp only at hs
    rw [if_neg (not_not_intro hcount)] at hs
    split at hs
    · rename_i q hq
      obtain rfl := Option.some.inj hs
      obtain ⟨hstate, hwait, htmp⟩ := sleepOn_wakeUp hq
      exact h.ends hstreams hcount
        (.sleeps (.writeSleeps w) rfl hstate hwait htmp (.inr ⟨⟨w, rfl⟩, hfull⟩))
    · cases hs

theorem Waits.back (h : s.Waits) (t : T) :
    Waits { s with i_wait := s.i_wait.sleepOnReturn t } := by
  have hstate : (s.i_wait.sleepOnReturn t).state = s.i_wait.state := by
    have hnone := h.unchained t
    rw [WaitQueue.saved] at hnone
    rw [WaitQueue.sleepOnReturn, hnone]
  refine ⟨⟨h.streams.fifo, h.streams.pc, h.streams.returns⟩, h.both, fun t' => ?_,
    fun t' ht' => ?_, h.waiting⟩
  · show (update s.i_wait.tmp t none t').join = none
    rcases eq_or_ne t' t with rfl | hne
    · rw [update_self]
      rfl
    · rw [update_of_ne hne]
      exact h.unchained t'
  · obtain ⟨hsleeps, hun⟩ := ht'
    exact h.pointer t' ⟨hsleeps, hstate ▸ hun⟩

theorem Waits.step (h : s.Waits) {a : Act T} (hok : BothOpen s a)
    (hs : step initTask s a = some s') : s'.Waits := by
  have honly : OnlySleeps s a := by
    cases a with
    | close => trivial
    | _ => exact hok
  rcases h.streams.step_cases honly hs with ⟨s₀, t, hgo, hrun⟩ | ⟨rfl, -⟩
  · have h₀ : s₀.Waits ∧ s₀.pipe = s.pipe := by
      rcases hgo with rfl | rfl
      · exact ⟨h, rfl⟩
      · exact ⟨h.back t, rfl⟩
    rcases hrun with ⟨p, r, stop, hspec, hs⟩ | ⟨p, w, stop, hspec, hs⟩
    · exact h₀.1.readStops (h₀.2 ▸ hspec) hs
    · exact h₀.1.writeStops (h₀.2 ▸ hspec) hs
  · exact hok.elim

/-- **No user of a pipe sleeps on a condition that holds**, while both ends are open: in
every state of every run, the tasks asleep behind the wait pointer wait for what is not
there, and any other sleeper is behind a task that is about to run and will wake it. -/
theorem none_forgotten (initTask : T) (page : Nat → UInt8) {i_wait : WaitQueue T}
    (hunused : SleepOn.Unused i_wait) {s : Pipes T}
    (h : Reach (step initTask) BothOpen (start page i_wait) s) : s.NoneForgotten := by
  have hstart : (start page i_wait).Waits := by
    refine ⟨streams_start page i_wait, rfl, fun t => ?_, fun t ht => ?_, fun t ht => ?_⟩
    · show (i_wait.tmp t).join = none
      rw [hunused.2 t]
      rfl
    · rcases ht.1 with ⟨_, hno⟩ | ⟨_, hno⟩
      · cases hno
      · cases hno
    · cases hunused.1.symm.trans ht
  have hs : s.Waits := h.invariant hstart fun s a s' hs hok hstep => hs.step hok hstep
  have hlinked : ∀ t, s.i_wait.BehindWait t → s.i_wait.wait = some t := by
    rintro t ⟨a, ha, hpath⟩
    rcases Relation.ReflTransGen.cases_head hpath with rfl | ⟨b, hab, -⟩
    · exact ha
    · rw [Links.Link, hs.unchained] at hab
      cases hab
  have hfirst : ∀ t, s.StillAsleep t → s.i_wait.BehindWait t := fun t ht =>
    ⟨t, hs.pointer t ht, .refl⟩
  refine ⟨?_, fun t ht hno => absurd (hfirst t ht) hno, fun t r hr ht hsize => ?_,
    fun t w hw ht hsize => ?_⟩
  · cases hwait : s.i_wait.wait with
    | none => exact .inl fun t ht => by cases (hlinked t ht).symm.trans hwait
    | some a =>
        have hsame : ∀ t, s.i_wait.BehindWait t → t = a := fun t ht =>
          Option.some.inj ((hlinked t ht).symm.trans hwait)
        rcases hs.waiting a hwait with hreader | hwriter
        · exact .inl fun t ht => hsame t ht ▸ hreader
        · exact .inr fun t ht => hsame t ht ▸ hwriter
  · rcases hs.waiting t (hs.pointer t ht) with ⟨-, hempty⟩ | ⟨⟨w, hw⟩, -⟩
    · omega
    · rw [hr] at hw
      cases hw
  · rcases hs.waiting t (hs.pointer t ht) with ⟨⟨r, hr⟩, -⟩ | ⟨-, hfull⟩
    · rw [hw] at hr
      cases hr
    · omega

instance (s : Pipes T) (a : Act T) : Decidable (BothOpen s a) := by
  cases a <;> unfold BothOpen <;> infer_instance

/-- Two readers; the first was woken by the second, and goes back to sleep behind nobody. -/
def twoReaders : List (Act (Fin 3)) := [.read 1 1 none, .read 2 1 none, .resume 1 none]

theorem none_forgotten_twoReaders : ∃ s : Pipes (Fin 3),
    exec (checked (step 0) BothOpen) (start (fun _ => 0) nobody) twoReaders = some s ∧
      s.i_wait.wait = some 1 ∧ s.NoneForgotten := by
  obtain ⟨s, hs, hwait⟩ : ∃ s, exec (checked (step 0) BothOpen) (start (fun _ => 0) nobody)
      twoReaders = some s ∧ s.i_wait.wait = some 1 := exec_any (by decide +kernel)
  exact ⟨s, hs, hwait, none_forgotten 0 (fun _ => 0) ⟨rfl, fun _ => rfl⟩ (exec_checked hs)⟩

end Pipes

end Linux011
