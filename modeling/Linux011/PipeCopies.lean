import Mathlib.Data.Fintype.Basic
import Linux011.PipeStream

/-!
# Pipe pointers and unfinished copies

Both calls advance their pointer before they copy, and a copy may leave the processor to other
tasks. `Finished` says that no reader is told of a byte that is still to be stored, and that no
byte is stored over that a reader still has to copy; `Clear` is the condition for both.

Here a call may be switched out in the middle of a copy, when its pointer has moved and its bytes
have not. The pointers then announce what is not yet so, and whether this does harm is up to the
writers: a writer that is switched out leaves bytes in front of the head that were never stored,
and one that runs while a reader is in a copy may store over the bytes that this reader has
claimed. `WritersClear` excludes both. The readers need no condition, since a reader that is
switched out only reads. `Copied` is the invariant, with the numbers of the stores of each cell
(`stores`, `seen`) as the measure of whether a claimed byte is still the one that was claimed.
The lemmas before it say what a run of either call changes at all.
-/

namespace Linux011

open Function Runs

namespace Pipe

variable {p p' : Pipe} {r : Reader} {w : Writer} {chars size count : Nat} {stop : Stop}

/-- The bytes that `write_pipe` can store without sleeping. -/
def fits (p : Pipe) (count : Nat) : Nat := min count (4095 - p.size)

/-- What a reader that is switched out has to copy is as it was when it claimed it. -/
def Claims (p : Pipe) (r : Reader) : Stop → Prop
  | .switched chars size => ∀ i < chars, p.stores (size + i) = r.seen (size + i)
  | _ => True

/-- The end of a run of `read_pipe`, switched out or not. -/
structure ReadOnly (p : Pipe) (x : Pipe × Reader × Stop) : Prop where
  head : x.1.PIPE_HEAD = p.PIPE_HEAD
  tail : x.1.PIPE_TAIL.toNat < 4096
  stores : x.1.stores = p.stores
  claims : Claims x.1 x.2.1 x.2.2

theorem copyOut_readOnly {rest : Option Nat → Pipe → Reader → Pipe × Reader × Stop}
    (hrest : ∀ switch p r, p.PIPE_TAIL.toNat < 4096 → ReadOnly p (rest switch p r))
    (htail : p.PIPE_TAIL.toNat < 4096) (switch : Option Nat) (r : Reader)
    (hseen : ∀ i < chars, p.stores (size + i) = r.seen (size + i)) :
    ReadOnly p (copyOut rest switch p r chars size) := by
  have hgo : ∀ switch, ReadOnly p (rest switch (p.putFsBytes r chars size).1
      (p.putFsBytes r chars size).2) := by
    intro switch
    have honly := hrest switch (p.putFsBytes r chars size).1 (p.putFsBytes r chars size).2 htail
    exact ⟨honly.head, honly.tail, honly.stores, honly.claims⟩
  cases switch with
  | none => exact hgo none
  | some k =>
      unfold copyOut
      dsimp only
      split
      · refine ⟨rfl, htail, rfl, fun i hi => ?_⟩
        show p.stores (size + k + i) = r.seen (size + k + i)
        rw [Nat.add_assoc]
        exact hseen (k + i) (by omega)
      · exact hgo (some (k - chars))

theorem readPipe_readOnly (fuel : Nat) : ∀ (switch : Option Nat) (p : Pipe) (r : Reader),
    p.PIPE_TAIL.toNat < 4096 → ReadOnly p (readPipe fuel switch p r) := by
  induction fuel with
  | zero => exact fun switch p r htail => ⟨rfl, htail, rfl, trivial⟩
  | succ fuel ih =>
      intro switch p r htail
      unfold readPipe
      split
      · exact ⟨rfl, htail, rfl, trivial⟩
      split
      · exact ⟨rfl, htail, rfl, trivial⟩
      dsimp only
      generalize min (min (4096 - p.PIPE_TAIL.toNat) r.count) p.size = chars
      have hnew : (advance p.PIPE_TAIL chars).toNat < 4096 := by
        rw [advance_toNat]
        omega
      have honly : ReadOnly { p with PIPE_TAIL := advance p.PIPE_TAIL chars }
          (copyOut (readPipe fuel) switch { p with PIPE_TAIL := advance p.PIPE_TAIL chars }
            { r with count := r.count - chars, read := r.read + chars, seen := p.stores } chars
            p.PIPE_TAIL.toNat) :=
        copyOut_readOnly ih hnew switch _ fun _ _ => rfl
      exact ⟨honly.head, honly.tail, honly.stores, honly.claims⟩

/-- The end of a run of `write_pipe` that is not switched out: it has stored what fits. -/
structure Stores (p : Pipe) (count : Nat) (x : Pipe × Writer × Stop) : Prop where
  head : x.1.PIPE_HEAD.toNat < 4096
  tail : x.1.PIPE_TAIL = p.PIPE_TAIL
  stop : x.2.2 = .done ∨ x.2.2 = .blocked
  others : ∀ j, (∀ i < p.fits count, (p.PIPE_HEAD.toNat + i) % 4096 ≠ j) →
    x.1.stores j = p.stores j

theorem copyIn_whole (rest : Option Nat → Pipe → Writer → Pipe × Writer × Stop)
    {switch : Option Nat} (h : ∀ k, switch = some k → chars ≤ k) (p : Pipe) (w : Writer) :
    copyIn rest switch p w chars size =
      rest (switch.map (· - chars)) (p.getFsBytes w chars size).1
      (p.getFsBytes w chars size).2 := by
  cases switch with
  | none => rfl
  | some k => exact if_neg (Nat.not_lt.mpr (h k rfl))

theorem writePipe_stores (fuel : Nat) : ∀ (switch : Option Nat) (p : Pipe) (w : Writer),
    p.PIPE_HEAD.toNat < 4096 → p.PIPE_TAIL.toNat < 4096 →
    (∀ k, switch = some k → p.fits w.count ≤ k) →
    Stores p w.count (writePipe fuel switch p w) := by
  induction fuel with
  | zero => exact fun switch p w hhead _ _ => ⟨hhead, rfl, .inl rfl, fun _ _ => rfl⟩
  | succ fuel ih =>
      intro switch p w hhead htail hswitch
      unfold writePipe
      split
      · exact ⟨hhead, rfl, .inl rfl, fun _ _ => rfl⟩
      split
      · exact ⟨hhead, rfl, .inr rfl, fun _ _ => rfl⟩
      dsimp only
      generalize hchars : min (min (4096 - p.PIPE_HEAD.toNat) w.count) (4095 - p.size) = chars
      have hfits : chars ≤ p.fits w.count := by
        unfold fits
        omega
      rw [copyIn_whole _ fun k hk => Nat.le_trans hfits (hswitch k hk)]
      generalize hp₁ : (getFsBytes { p with PIPE_HEAD := advance p.PIPE_HEAD chars }
        { w with count := w.count - chars, written := w.written + chars } chars
        p.PIPE_HEAD.toNat).1 = p₁
      generalize hw₁ : (getFsBytes { p with PIPE_HEAD := advance p.PIPE_HEAD chars }
        { w with count := w.count - chars, written := w.written + chars } chars
        p.PIPE_HEAD.toNat).2 = w₁
      have hcount : w₁.count = w.count - chars := by rw [← hw₁]; rfl
      have htail₁ : p₁.PIPE_TAIL = p.PIPE_TAIL := by rw [← hp₁]; rfl
      have hhead₁ : p₁.PIPE_HEAD.toNat = (p.PIPE_HEAD.toNat + chars) % 4096 := by
        rw [← hp₁]
        exact advance_toNat _ _
      have hstores : p₁.stores = fun j => if p.PIPE_HEAD.toNat ≤ j ∧
          j < p.PIPE_HEAD.toNat + chars then p.stores j + 1 else p.stores j := by rw [← hp₁]; rfl
      -- the rest fits behind the chunk
      have hrest : p₁.fits w₁.count = p.fits w.count - chars := by
        have hold := size_eq hhead htail
        have hnew := size_eq (p := p₁) (by omega) (htail₁ ▸ htail)
        unfold fits
        rw [hcount]
        rw [htail₁] at hnew
        omega
      have hspec := ih (switch.map (· - chars)) p₁ w₁ (by omega) (htail₁ ▸ htail) fun k hk => by
        obtain ⟨k₀, hk₀, rfl⟩ := Option.map_eq_some_iff.mp hk
        have hle := hswitch k₀ hk₀
        omega
      refine ⟨hspec.head, hspec.tail.trans htail₁, hspec.stop, fun j hj => ?_⟩
      rw [hspec.others j fun i hi => ?_, hstores]
      · refine if_neg fun hin => hj (j - p.PIPE_HEAD.toNat) (by omega) (by omega)
      · have hne := hj (chars + i) (by omega)
        omega

end Pipe

namespace Pipes

open Pipe

variable {T : Type} [DecidableEq T] {initTask : T} {s s' : Pipes T} {t : T}

/-- The bytes that a reader has claimed and not copied yet, as their number and first place. -/
def claimed : Pc → Nat × Nat
  | .readCopies _ chars size => (chars, size)
  | _ => (0, 0)

/-- The pointers announce no unfinished copy. -/
structure Finished (s : Pipes T) : Prop where
  stored : ∀ t w chars size, s.pc t = .writeCopies w chars size → ∀ i < chars,
    ∀ k < s.pipe.size, (s.pipe.PIPE_TAIL.toNat + k) % 4096 ≠ size + i
  kept : ∀ t r chars size, s.pc t = .readCopies r chars size → ∀ i < chars,
    s.pipe.stores (size + i) = r.seen (size + i)

/-- A run of `write_pipe` with `count` bytes left: it is not switched out before it has stored what
fits, and this does not fall on bytes that a reader has claimed. -/
def Clear (s : Pipes T) (count : Nat) (switch : Option Nat) : Prop :=
  (∀ k, switch = some k → s.pipe.fits count ≤ k) ∧
    ∀ t, ∀ i < (claimed (s.pc t)).1, ∀ j < s.pipe.fits count,
      (s.pipe.PIPE_HEAD.toNat + j) % 4096 ≠ (claimed (s.pc t)).2 + i

/-- The writers are clear. -/
def WritersClear (s : Pipes T) : Act T → Prop
  | .write _ buf switch => s.Clear buf.length switch
  | .resume t switch =>
    match s.pc t with
    | .writeSleeps w => s.Clear w.count switch
    | _ => True
  | _ => True

structure Copied (s : Pipes T) : Prop where
  head : s.pipe.PIPE_HEAD.toNat < 4096
  tail : s.pipe.PIPE_TAIL.toNat < 4096
  writers : ∀ t w chars size, s.pc t ≠ .writeCopies w chars size
  kept : ∀ t r chars size, s.pc t = .readCopies r chars size → ∀ i < chars,
    s.pipe.stores (size + i) = r.seen (size + i)

/-- The place of one task changes, and the stores to the page spare what is claimed. -/
theorem Copied.move (h : s.Copied) (hhead : s'.pipe.PIPE_HEAD.toNat < 4096)
    (htail : s'.pipe.PIPE_TAIL.toNat < 4096) {x : Pc} (hpc : s'.pc = update s.pc t x)
    (hwriter : ∀ w chars size, x ≠ .writeCopies w chars size)
    (hreader : ∀ r chars size, x = .readCopies r chars size → ∀ i < chars,
      s'.pipe.stores (size + i) = r.seen (size + i))
    (hspare : ∀ t, ∀ i < (claimed (s.pc t)).1,
      s'.pipe.stores ((claimed (s.pc t)).2 + i) = s.pipe.stores ((claimed (s.pc t)).2 + i)) :
    s'.Copied := by
  refine ⟨hhead, htail, fun t' w chars size ht' => ?_, fun t' r chars size ht' i hi => ?_⟩
  · rw [hpc] at ht'
    rcases eq_or_ne t' t with rfl | hne
    · rw [update_self] at ht'
      exact hwriter w chars size ht'
    · rw [update_of_ne hne] at ht'
      exact h.writers t' w chars size ht'
  · rw [hpc] at ht'
    rcases eq_or_ne t' t with rfl | hne
    · rw [update_self] at ht'
      exact hreader r chars size ht' i hi
    · rw [update_of_ne hne] at ht'
      have hsame := hspare t'
      rw [ht'] at hsame
      exact (hsame i hi).trans (h.kept t' r chars size ht' i hi)

/-- What `readStops` and `writeStops` leave, as far as it counts here. -/
theorem readStops_cases {p : Pipe} {r : Reader} {stop : Stop}
    (hs : s.readStops initTask t (p, r, stop) = some s') :
    s'.pipe = p ∧ (s'.pc = update s.pc t .idle ∨ s'.pc = update s.pc t (.readSleeps r) ∨
      ∃ chars size, stop = .switched chars size ∧
        s'.pc = update s.pc t (.readCopies r chars size)) := by
  cases stop with
  | done =>
      obtain rfl := Option.some.inj hs
      exact ⟨rfl, .inl rfl⟩
  | blocked =>
      unfold Pipes.readStops at hs
      dsimp only at hs
      split at hs
      · obtain rfl := Option.some.inj hs
        exact ⟨rfl, .inl rfl⟩
      · split at hs
        · obtain rfl := Option.some.inj hs
          exact ⟨rfl, .inr (.inl rfl)⟩
        · cases hs
  | switched chars size =>
      obtain rfl := Option.some.inj hs
      exact ⟨rfl, .inr (.inr ⟨chars, size, rfl, rfl⟩)⟩

theorem writeStops_cases {p : Pipe} {w : Writer} {stop : Stop}
    (hstop : stop = .done ∨ stop = .blocked)
    (hs : s.writeStops initTask t (p, w, stop) = some s') :
    s'.pipe = p ∧ (s'.pc = update s.pc t .idle ∨ s'.pc = update s.pc t (.writeSleeps w)) := by
  rcases hstop with rfl | rfl
  · obtain rfl := Option.some.inj hs
    exact ⟨rfl, .inl rfl⟩
  · unfold Pipes.writeStops at hs
    dsimp only at hs
    split at hs
    · obtain rfl := Option.some.inj hs
      exact ⟨rfl, .inl rfl⟩
    · split at hs
      · obtain rfl := Option.some.inj hs
        exact ⟨rfl, .inr rfl⟩
      · cases hs

theorem Copied.readStops (h : s.Copied) {x : Pipe × Reader × Stop} (hx : ReadOnly s.pipe x)
    (hs : s.readStops initTask t x = some s') : s'.Copied := by
  obtain ⟨p, r, stop⟩ := x
  obtain ⟨hpipe, hpc⟩ := readStops_cases hs
  have hhead : s'.pipe.PIPE_HEAD.toNat < 4096 := by
    rw [hpipe, hx.head]
    exact h.head
  have htail : s'.pipe.PIPE_TAIL.toNat < 4096 := hpipe ▸ hx.tail
  have hstores : s'.pipe.stores = s.pipe.stores := hpipe ▸ hx.stores
  have hspare : ∀ t, ∀ i < (claimed (s.pc t)).1, s'.pipe.stores ((claimed (s.pc t)).2 + i) =
      s.pipe.stores ((claimed (s.pc t)).2 + i) := fun _ _ _ => by rw [hstores]
  rcases hpc with hpc | hpc | ⟨chars, size, rfl, hpc⟩
  · exact h.move hhead htail hpc (fun _ _ _ hno => nomatch hno) (fun _ _ _ hno => nomatch hno)
      hspare
  · exact h.move hhead htail hpc (fun _ _ _ hno => nomatch hno) (fun _ _ _ hno => nomatch hno)
      hspare
  · refine h.move hhead htail hpc (fun _ _ _ hno => nomatch hno)
      (fun r' chars' size' heq => ?_) hspare
    obtain ⟨rfl, rfl, rfl⟩ := Pc.readCopies.inj heq
    rw [hpipe]
    exact hx.claims

theorem Copied.writeStops (h : s.Copied) {count : Nat} {x : Pipe × Writer × Stop}
    (hx : Stores s.pipe count x) (hclear : ∀ t, ∀ i < (claimed (s.pc t)).1,
      ∀ j < s.pipe.fits count, (s.pipe.PIPE_HEAD.toNat + j) % 4096 ≠ (claimed (s.pc t)).2 + i)
    (hs : s.writeStops initTask t x = some s') : s'.Copied := by
  obtain ⟨p, w, stop⟩ := x
  obtain ⟨hpipe, hpc⟩ := writeStops_cases hx.stop hs
  have hhead : s'.pipe.PIPE_HEAD.toNat < 4096 := hpipe ▸ hx.head
  have htail : s'.pipe.PIPE_TAIL.toNat < 4096 := by
    rw [hpipe, hx.tail]
    exact h.tail
  have hspare : ∀ t, ∀ i < (claimed (s.pc t)).1, s'.pipe.stores ((claimed (s.pc t)).2 + i) =
      s.pipe.stores ((claimed (s.pc t)).2 + i) := fun t' i hi => by
    rw [hpipe]
    exact hx.others _ fun j hj => hclear t' i hi j hj
  rcases hpc with hpc | hpc
  · exact h.move hhead htail hpc (fun _ _ _ hno => nomatch hno) (fun _ _ _ hno => nomatch hno)
      hspare
  · exact h.move hhead htail hpc (fun _ _ _ hno => nomatch hno) (fun _ _ _ hno => nomatch hno)
      hspare

theorem Copied.step (h : s.Copied) {a : Act T} (hok : WritersClear s a)
    (hs : step initTask s a = some s') : s'.Copied := by
  cases a with
  | read t count switch =>
      simp only [Pipes.step] at hs
      split at hs
      · obtain ⟨-, hs⟩ := Option.ite_none_right_eq_some.mp hs
        exact h.readStops (readPipe_readOnly count switch s.pipe _ h.tail) hs
      · cases hs
  | write t buf switch =>
      simp only [Pipes.step] at hs
      split at hs
      · obtain ⟨-, hs⟩ := Option.ite_none_right_eq_some.mp hs
        exact h.writeStops (writePipe_stores buf.length switch s.pipe ⟨buf.length, 0, buf, 0⟩
          h.head h.tail hok.1) hok.2 hs
      · cases hs
  | resume t switch =>
      simp only [Pipes.step] at hs
      have hback : Copied { s with i_wait := s.i_wait.sleepOnReturn t } :=
        ⟨h.head, h.tail, h.writers, h.kept⟩
      cases hat : s.pc t with
      | idle =>
          rw [hat] at hs
          cases hs
      | readSleeps r =>
          rw [hat] at hs
          obtain ⟨-, hs⟩ := Option.ite_none_right_eq_some.mp hs
          exact hback.readStops (readPipe_readOnly r.count switch s.pipe r h.tail) hs
      | writeSleeps w =>
          rw [WritersClear, hat] at hok
          rw [hat] at hs
          obtain ⟨-, hs⟩ := Option.ite_none_right_eq_some.mp hs
          exact hback.writeStops (writePipe_stores w.count switch s.pipe w h.head h.tail hok.1)
            hok.2 hs
      | readCopies r chars size =>
          rw [hat] at hs
          exact h.readStops (copyOut_readOnly (readPipe_readOnly r.count) h.tail switch r
            (h.kept t r chars size hat)) hs
      | writeCopies w chars size => exact absurd hat (h.writers t w chars size)
  | close =>
      obtain ⟨-, hs⟩ := Option.ite_none_right_eq_some.mp hs
      obtain rfl := Option.some.inj hs
      exact ⟨h.head, h.tail, h.writers, h.kept⟩

/-- **Pipe pointers announce no unfinished copies**, in every run in which the writers
are not switched out in a copy and wait for the readers that are: no reader is told of a
byte that is still to be stored, and no byte is stored over that a reader still has to
copy. -/
theorem pipe_pointers (initTask : T) (page : Nat → UInt8) (i_wait : WaitQueue T) {s : Pipes T}
    (h : Reach (step initTask) WritersClear (start page i_wait) s) : s.Finished := by
  have hstart : (start page i_wait).Copied :=
    ⟨Nat.zero_lt_succ _, Nat.zero_lt_succ _, (fun _ _ _ _ hno => nomatch hno),
      fun _ _ _ _ hno => nomatch hno⟩
  have hs : s.Copied := h.invariant hstart fun s a s' hs hok hstep => hs.step hok hstep
  exact ⟨fun t w chars size hat => absurd hat (hs.writers t w chars size), hs.kept⟩

instance [Fintype T] (s : Pipes T) (count : Nat) : ∀ switch, Decidable (s.Clear count switch)
  | none => decidable_of_iff (∀ t, ∀ i < (claimed (s.pc t)).1, ∀ j < s.pipe.fits count,
      (s.pipe.PIPE_HEAD.toNat + j) % 4096 ≠ (claimed (s.pc t)).2 + i)
      ⟨fun h => ⟨(fun _ hno => nomatch hno), h⟩, And.right⟩
  | some k => decidable_of_iff (s.pipe.fits count ≤ k ∧ ∀ t, ∀ i < (claimed (s.pc t)).1,
      ∀ j < s.pipe.fits count, (s.pipe.PIPE_HEAD.toNat + j) % 4096 ≠ (claimed (s.pc t)).2 + i)
      ⟨fun h => ⟨fun _ heq => Option.some.inj heq ▸ h.1, h.2⟩, fun h => ⟨h.1 k rfl, h.2⟩⟩

instance [Fintype T] (s : Pipes T) : ∀ a, Decidable (WritersClear s a)
  | .read _ _ _ => instDecidableTrue
  | .write _ buf switch => inferInstanceAs (Decidable (s.Clear buf.length switch))
  | .resume t switch =>
    match hat : s.pc t with
    | .writeSleeps w =>
      decidable_of_iff (s.Clear w.count switch) (by rw [WritersClear, hat])
    | .idle => isTrue (by rw [WritersClear, hat]; trivial)
    | .readSleeps _ => isTrue (by rw [WritersClear, hat]; trivial)
    | .readCopies _ _ _ => isTrue (by rw [WritersClear, hat]; trivial)
    | .writeCopies _ _ _ => isTrue (by rw [WritersClear, hat]; trivial)
  | .close => instDecidableTrue

/-- Task 2 is switched out before it copies the second byte, and task 1 writes behind it. -/
def readerWaits : List (Act (Fin 3)) :=
  [.write ⟨1, Nat.one_lt_succ_succ 1⟩ [5, 6] none, .read ⟨2, Nat.lt_succ_self 2⟩ 2 (some 1),
    .write ⟨1, Nat.one_lt_succ_succ 1⟩ [7] none]

theorem pipe_pointers_readerWaits : ∃ s : Pipes (Fin 3),
    exec (checked (step 0) WritersClear) (start (fun _ => 0) nobody) readerWaits = some s ∧
      claimed (s.pc 2) = (1, 1) ∧ s.Finished := by
  obtain ⟨s, hs, hclaim⟩ : ∃ s, exec (checked (step 0) WritersClear) (start (fun _ => 0) nobody)
      readerWaits = some s ∧ claimed (s.pc 2) = (1, 1) := exec_any (by decide +kernel)
  exact ⟨s, hs, hclaim, pipe_pointers 0 (fun _ => 0) nobody (exec_checked hs)⟩

/-- The bytes that a writer has announced and not stored yet. -/
def announced : Pc → Nat × Nat
  | .writeCopies _ chars size => (chars, size)
  | _ => (0, 0)

theorem not_pipe_pointers :
    ¬∀ (page : Nat → UInt8) (i_wait : WaitQueue (Fin 3)) (s : Pipes (Fin 3)),
      Reach (step 0) Free (start page i_wait) s → s.Finished := by
  intro hall
  obtain ⟨s, hs, hwriter, hsize, htail⟩ : ∃ s, exec (step 0) (start (fun _ => 0) nobody)
      [.write 1 [5] (some 0)] = some s ∧ announced (s.pc 1) = (1, 0) ∧ s.pipe.size = 1 ∧
        s.pipe.PIPE_TAIL.toNat = 0 := exec_any (by decide +kernel)
  cases hat : s.pc 1 with
  | writeCopies w chars size =>
      rw [hat] at hwriter
      obtain ⟨rfl, rfl⟩ := Prod.mk.inj hwriter
      refine (hall (fun _ => 0) nobody s (exec_reach hs)).stored 1 w 1 0 hat 0 Nat.one_pos 0 ?_ ?_
      · rw [hsize]
        exact Nat.one_pos
      · rw [htail]
  | _ =>
      rw [hat] at hwriter
      cases hwriter

end Pipes

end Linux011
