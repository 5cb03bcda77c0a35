import Mathlib.Logic.Function.Basic
import Mathlib.Tactic.Common

/-!
# Lazy switching of the FPU

`switch_too` and `device_not_available` of `kernel/system_call.s` and `math_state_restore` of
`kernel/sched.c`. The registers of the FPU stay with the task that used them last, until another
task uses the FPU and traps because CR0.TS is set. But only a hardware task switch sets TS, and
`switch_too` is none: it only ever clears the flag. So after the first trap nobody traps any
more, and every other task computes in the registers of the first one (`isolated_iff`).

There is a coprocessor: the emulation bit of CR0 is clear.

Both directions of the result go by induction over the run. With TS clear nobody traps, so that a
run is isolated just if it has no FPU instruction at all (`isolated_clear`), since at the start
the registers belong to nobody. With TS set the first FPU instruction traps and makes its task
the owner; TS is clear from then on and no step sets it again, so that only this task may go on
to use the FPU (`isolated_set`). The last part says what isolation is good for: in an isolated
run the registers and the saved images together hold, for each task, the state that it would have
with registers of its own (`Saved`), and every FPU instruction finds it (`Isolated.seesOwn`).
-/

namespace Linux011

open Function

namespace MathState

variable {T F : Type} [DecidableEq T]

structure State (T F : Type) where
  current : T
  /-- CR0.TS -/
  ts : Bool
  lastTaskUsedMath : Option T
  /-- the registers of the FPU -/
  fpu : F
  /-- `tss.i387` of each task -/
  i387 : T → F
  usedMath : T → Bool

/-- `fnsave`: the registers go to the task, and the FPU is initialised. -/
def fnsave (finit : F) (s : State T F) (t : T) : State T F :=
  { s with i387 := update s.i387 t s.fpu, fpu := finit }

def mathStateRestore (finit : F) (s : State T F) : State T F :=
  if s.lastTaskUsedMath = some s.current then s
  else
    let s := match s.lastTaskUsedMath with
      | some t => fnsave finit s t
      | none => s
    let s := { s with lastTaskUsedMath := some s.current }
    if s.usedMath s.current then { s with fpu := s.i387 s.current }
    else { s with fpu := finit, usedMath := update s.usedMath s.current true }

def deviceNotAvailable (finit : F) (s : State T F) : State T F :=
  mathStateRestore finit { s with ts := false }

/-- An FPU instruction traps first when TS is set. -/
def trapped (finit : F) (s : State T F) : State T F :=
  if s.ts then deviceNotAvailable finit s else s

/-- The comparison at the end is made with the task that is left. -/
def switchToo (s : State T F) (pnext : Option T) : State T F :=
  match pnext with
  | none => s
  | some pnext =>
    if pnext = s.current then s
    else
      { s with
        current := pnext
        ts := if s.lastTaskUsedMath = some s.current then false else s.ts }

inductive Act (T F : Type) where
  | switchToo (pnext : Option T)
  /-- the running task executes an instruction with this effect on the registers -/
  | fpu (f : F → F)

def step (finit : F) (s : State T F) : Act T F → State T F
  | .switchToo pnext => switchToo s pnext
  | .fpu f =>
    let s := trapped finit s
    { s with fpu := f s.fpu }

/-- Every FPU instruction of the run is executed while the registers belong to the
running task. -/
def Isolated (finit : F) : State T F → List (Act T F) → Prop
  | _, [] => True
  | s, a :: as =>
    (∀ f, a = .fpu f → (trapped finit s).lastTaskUsedMath = some s.current) ∧
      Isolated finit (step finit s a) as

/-- The tasks that execute the FPU instructions of the run, one after the other. -/
def mathUsers : T → List (Act T F) → List T
  | _, [] => []
  | current, .switchToo pnext :: as => mathUsers (pnext.getD current) as
  | current, .fpu _ :: as => current :: mathUsers current as

variable {finit : F} {s : State T F}

theorem mathStateRestore_last (finit : F) (s : State T F) :
    (mathStateRestore finit s).lastTaskUsedMath = some s.current ∧
      (mathStateRestore finit s).current = s.current ∧ (mathStateRestore finit s).ts = s.ts := by
  unfold mathStateRestore
  split
  · rename_i h
    exact ⟨h, rfl, rfl⟩
  · cases s.lastTaskUsedMath <;> (dsimp only [fnsave]; split <;> exact ⟨rfl, rfl, rfl⟩)

theorem switchToo_current (s : State T F) (pnext : Option T) :
    (switchToo s pnext).current = pnext.getD s.current := by
  cases pnext with
  | none => rfl
  | some p =>
      simp only [switchToo]
      split
      · rename_i h
        exact h.symm
      · rfl

theorem switchToo_last (s : State T F) (pnext : Option T) :
    (switchToo s pnext).lastTaskUsedMath = s.lastTaskUsedMath := by
  cases pnext with
  | none => rfl
  | some p =>
      simp only [switchToo]
      split <;> rfl

/-- A switch never sets TS, and leaves it alone while nobody owns the registers. -/
theorem switchToo_ts (s : State T F) (pnext : Option T) :
    (s.ts = false → (switchToo s pnext).ts = false) ∧
      (s.lastTaskUsedMath = none → (switchToo s pnext).ts = s.ts) := by
  cases pnext with
  | none => exact ⟨id, fun _ => rfl⟩
  | some p =>
      simp only [switchToo]
      split
      · exact ⟨id, fun _ => rfl⟩
      · refine ⟨fun h => ?_, fun h => ?_⟩
        · simp [h]
        · simp [h]

/-- With TS clear nobody traps: the owner of the registers never changes. -/
theorem isolated_clear : ∀ {as : List (Act T F)} {s : State T F}, s.ts = false →
    (Isolated finit s as ↔ ∀ t ∈ mathUsers s.current as, s.lastTaskUsedMath = some t)
  | [], _, _ => by simp [Isolated, mathUsers]
  | .switchToo pnext :: as, s, hts => by
      have ih : Isolated finit (switchToo s pnext) as ↔ _ :=
        isolated_clear ((switchToo_ts s pnext).1 hts)
      rw [switchToo_current, switchToo_last] at ih
      rw [Isolated, mathUsers, ← ih]
      exact ⟨And.right, fun h => ⟨fun f hf => (by cases hf), h⟩⟩
  | .fpu f :: as, s, hts => by
      have htrap : trapped finit s = s := by simp [trapped, hts]
      have hstep : step finit s (.fpu f) = { s with fpu := f s.fpu } := by
        simp only [step, htrap]
      have ih : Isolated finit { s with fpu := f s.fpu } as ↔ _ := isolated_clear hts
      rw [Isolated, mathUsers, hstep, ih, htrap, List.forall_mem_cons]
      exact and_congr_left fun _ => ⟨fun h => h f rfl, fun h _ _ => h⟩

/-- With TS set and no owner yet, the first task that uses the FPU gets the registers
for ever. -/
theorem isolated_set : ∀ {as : List (Act T F)} {s : State T F}, s.ts = true →
    s.lastTaskUsedMath = none →
    (Isolated finit s as ↔ ∃ t, ∀ u ∈ mathUsers s.current as, u = t)
  | [], s, _, _ => by
      simp only [Isolated, mathUsers, true_iff]
      exact ⟨s.current, fun u hu => absurd hu List.not_mem_nil⟩
  | .switchToo pnext :: as, s, hts, hlast => by
      have ih : Isolated finit (switchToo s pnext) as ↔ _ := isolated_set
        (((switchToo_ts s pnext).2 hlast).trans hts) ((switchToo_last s pnext).trans hlast)
      rw [switchToo_current] at ih
      rw [Isolated, mathUsers, ← ih]
      exact ⟨And.right, fun h => ⟨fun f hf => (by cases hf), h⟩⟩
  | .fpu f :: as, s, hts, _ => by
      obtain ⟨hown, hcur, hclear⟩ := mathStateRestore_last finit { s with ts := false }
      have htrap : trapped finit s = mathStateRestore finit { s with ts := false } := by
        simp [trapped, hts, deviceNotAvailable]
      have hstep : step finit s (.fpu f)
          = { trapped finit s with fpu := f (trapped finit s).fpu } :=
        rfl
      have ih : Isolated finit { trapped finit s with fpu := f (trapped finit s).fpu } as ↔ _ :=
        isolated_clear (by rw [htrap]; exact hclear)
      rw [Isolated, mathUsers, hstep, ih]
      simp only [htrap, hown, hcur, List.forall_mem_cons, Option.some.injEq]
      constructor
      · rintro ⟨-, h⟩
        exact ⟨s.current, rfl, fun u hu => (h u hu).symm⟩
      · rintro ⟨t, h, hrest⟩
        exact ⟨fun _ _ => trivial, fun u hu => h.trans (hrest u hu).symm⟩

/-- Nobody has used the FPU since boot. -/
def boot (current : T) (ts : Bool) (fpu : F) (i387 : T → F) : State T F :=
  ⟨current, ts, none, fpu, i387, fun _ => false⟩

/-- **FPU isolation**: the tasks find their own state in the registers exactly in the
runs without FPU instructions and, when TS is set at the start, in those in which one
task executes them all. -/
theorem isolated_iff (finit : F) (current : T) (ts : Bool) (fpu : F) (i387 : T → F)
    (as : List (Act T F)) :
    Isolated finit (boot current ts fpu i387) as ↔
      mathUsers current as = [] ∨ ts = true ∧ ∃ t, ∀ u ∈ mathUsers current as, u = t := by
  cases ts with
  | false =>
      rw [isolated_clear rfl]
      simp [boot, List.eq_nil_iff_forall_not_mem]
  | true =>
      rw [isolated_set rfl rfl]
      constructor
      · exact fun h => Or.inr ⟨rfl, h⟩
      · rintro (h | ⟨-, h⟩)
        · exact ⟨current, fun u hu => absurd (h ▸ hu : u ∈ []) List.not_mem_nil⟩
        · exact h

/-- Task 0 uses the FPU, then task 1. -/
def twoUsers : List (Act Nat Nat) := [.fpu (· + 1), .switchToo (some 1), .fpu (· + 1)]

theorem not_isolated :
    ¬∀ as : List (Act Nat Nat), Isolated 0 (boot 0 true 0 fun _ => 0) as := by
  intro h
  have hset : Isolated 0 (boot 0 true 0 fun _ => 0) twoUsers ↔ _ := isolated_set rfl rfl
  obtain ⟨t, ht⟩ := hset.mp (h twoUsers)
  have h₀ : 0 = t := ht 0 (by decide)
  have h₁ : 1 = t := ht 1 (by decide)
  omega

/-! ## What the owner of the registers finds in them -/

/-- The FPU states that the tasks would have if each had registers of its own. -/
def ownStep (own : T → F) (current : T) : Act T F → T → F
  | .switchToo _ => own
  | .fpu f => update own current (f (own current))

/-- Every FPU instruction finds in the registers what the task left there last. -/
def SeesOwn (finit : F) : State T F → (T → F) → List (Act T F) → Prop
  | _, _, [] => True
  | s, own, a :: as =>
    (∀ f, a = .fpu f → (trapped finit s).fpu = own s.current) ∧
      SeesOwn finit (step finit s a) (ownStep own s.current a) as

/-- The owner's state is in the registers, that of the other tasks is saved. -/
structure Saved (finit : F) (s : State T F) (own : T → F) : Prop where
  owner : ∀ t, s.lastTaskUsedMath = some t → s.fpu = own t ∧ s.usedMath t = true
  saved : ∀ t, s.lastTaskUsedMath ≠ some t → s.usedMath t = true → s.i387 t = own t
  fresh : ∀ t, s.usedMath t = false → own t = finit

variable {own : T → F}

theorem Saved.fnsave {t : T} (h : Saved finit s own) (ht : s.lastTaskUsedMath = some t) (u : T)
    (hu : s.usedMath u = true) : (fnsave finit s t).i387 u = own u := by
  rcases eq_or_ne u t with rfl | hne
  · simpa [MathState.fnsave] using (h.owner u ht).1
  · have hlast : s.lastTaskUsedMath ≠ some u := fun e => hne (Option.some.inj (e.symm.trans ht))
    simpa [MathState.fnsave, hne] using h.saved u hlast hu

/-- The trap brings the state of the running task into the registers. -/
theorem Saved.restore (h : Saved finit s own) : Saved finit (mathStateRestore finit s) own := by
  unfold mathStateRestore
  split
  · exact h
  · -- the registers now go to their owner, if there is one
    have hsaved : ∃ s₁ : State T F, (match s.lastTaskUsedMath with
        | some t => MathState.fnsave finit s t
        | none => s) = s₁ ∧ s₁.usedMath = s.usedMath ∧ s₁.current = s.current ∧
        ∀ u, s.usedMath u = true → s₁.i387 u = own u := by
      cases hlast : s.lastTaskUsedMath with
      | none => exact ⟨s, rfl, rfl, rfl, fun u hu => h.saved u (by simp [hlast]) hu⟩
      | some t => exact ⟨_, rfl, rfl, rfl, fun u hu => h.fnsave hlast u hu⟩
    obtain ⟨s₁, hs₁, hused, hcur, hi387⟩ := hsaved
    rw [hs₁]
    dsimp only
    rw [hused, hcur]
    split
    · rename_i hu
      refine ⟨fun t ht => ?_, fun t _ ht => hi387 t (hused ▸ ht),
        fun t ht => h.fresh t (hused ▸ ht)⟩
      obtain rfl := Option.some.inj ht
      exact ⟨hi387 _ hu, hused ▸ hu⟩
    · rename_i hu
      refine ⟨fun t ht => ?_, fun t hne ht => ?_, fun t ht => ?_⟩
      · obtain rfl := Option.some.inj ht
        exact ⟨(h.fresh _ (by simpa using hu)).symm, by simp⟩
      · have htc : t ≠ s.current := fun e => hne (by rw [e])
        exact hi387 t (by simpa [htc] using ht)
      · have htc : t ≠ s.current := fun e => by simp [e] at ht
        exact h.fresh t (by simpa [htc] using ht)

theorem Saved.trapped (h : Saved finit s own) : Saved finit (trapped finit s) own := by
  unfold MathState.trapped
  split
  · exact Saved.restore (s := { s with ts := false }) ⟨h.owner, h.saved, h.fresh⟩
  · exact h

theorem Saved.step (h : Saved finit s own) {a : Act T F}
    (hown : ∀ f, a = .fpu f → (MathState.trapped finit s).lastTaskUsedMath = some s.current) :
    Saved finit (step finit s a) (ownStep own s.current a) := by
  cases a with
  | switchToo pnext =>
      cases pnext with
      | none => exact h
      | some p =>
          simp only [MathState.step, switchToo]
          split
          · exact h
          · exact ⟨h.owner, h.saved, h.fresh⟩
  | fpu f =>
      have hlast := hown f rfl
      obtain ⟨howner, hsaved, hfresh⟩ := h.trapped
      obtain ⟨hfpu, hused⟩ := howner _ hlast
      have hne : ∀ {t}, (MathState.trapped finit s).lastTaskUsedMath ≠ some t → t ≠ s.current :=
        fun hn e => hn (e ▸ hlast)
      refine ⟨fun t ht => ?_, fun t hn ht => ?_, fun t ht => ?_⟩
      · obtain rfl : s.current = t := Option.some.inj (hlast.symm.trans ht)
        simpa [MathState.step, ownStep, hfpu] using hused
      · have := hsaved t hn ht
        simpa [MathState.step, ownStep, hne hn] using this
      · have htc : t ≠ s.current := fun e => by
          rw [e] at ht
          exact absurd (ht.symm.trans hused) (by simp)
        simpa [ownStep, htc] using hfresh t ht

/-- Who owns the registers finds its own state in them. -/
theorem Isolated.seesOwn : ∀ {as : List (Act T F)} {s : State T F} {own : T → F},
    Isolated finit s as → Saved finit s own → SeesOwn finit s own as
  | [], _, _, _, _ => trivial
  | _ :: _, s, _, ⟨hown, hrest⟩, hsaved =>
    ⟨fun f hf => (hsaved.trapped.owner s.current (hown f hf)).1,
      hrest.seesOwn (hsaved.step hown)⟩

end MathState

end Linux011
