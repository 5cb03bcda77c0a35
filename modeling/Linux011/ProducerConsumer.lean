import Linux011.Runs
import Linux011.ShmQuene
import Linux011.Tally

/-!
# One producer, many consumers

`main` of `test6/pc.c` and of `consumer_00.c` on one segment and the semaphores
`mutex`, `full` and `empty`. A process is switched out at its semaphore
operations, so a step performs the pending operation and the code that follows
it, up to the next one.

Every process runs the initialisation section when it has attached. The section
tests `head` where it means `iniflag`, so a process that starts late empties the
ring and clears `endflag` (`not_exactly_once`). The values are served exactly once
in every run in which the section finds an empty ring and no `endflag`
(`exactly_once`).

The invariant goes through the values that are on their way. While the last
value is not taken (`Running`), `got` is 1, 2, 3 and so on, the ring holds the
values behind it, and the two semaphores count the ring and the processes that
stand between a semaphore operation and the section that belongs to it: `full`
with the consumers that have claimed a value and the producer that has not yet
announced one adds up to the values in the ring, `empty` with the cells that
were taken or reserved to the free ones. `mutex` and the processes in a section
add up to 1, whatever happens (`one_section`). The sums over the consumers are
`tally`, which the move of one consumer changes by what it did alone. Behind the
last value (`Ended`) the producer has left, `endflag` is set and nobody touches
the ring any more.
-/

namespace Linux011

open Function Runs Tally

namespace ProducerConsumer

/-- The next semaphore operation of the producer; `i` is its loop variable. -/
inductive ProducerPc where
  | waitMutexIni
  | postMutexIni
  | waitEmpty (i : Nat)
  | waitMutex (i : Nat)
  | postMutex (i : Nat)
  | postFull (i : Nat)
  | exit
deriving Repr, DecidableEq

/-- The next semaphore operation of a consumer; `flag` is its loop variable, and
the operations with `End` are those of the branch that `endflag` takes. -/
inductive ConsumerPc where
  | waitMutexIni
  | postMutexIni
  | waitFull
  | waitMutex
  | postMutex (flag : Bool)
  | postEmpty (flag : Bool)
  | postMutexEnd
  | postEmptyEnd
  | postFull
  | exit
deriving Repr, DecidableEq

/-- `got` records what the calls of `getQueneValue` returned, in order. -/
structure State (N : Nat) where
  shm : Shmadrtype
  mutex : Nat
  full : Nat
  empty : Nat
  producer : ProducerPc
  consumer : Fin N → ConsumerPc
  got : List Int

inductive Act (N : Nat) where
  | producer
  | consumer (c : Fin N)
deriving Repr, DecidableEq

variable {N : Nat} {s s' : State N}

/-! ## The two programs -/

/-- The section that every process runs once it has attached the segment. -/
def iniQuene (shm : Shmadrtype) : Shmadrtype :=
  if shm.head ≠ 0x55AA then
    { head := 0, tail := 0, shmad := fun _ => 0, iniflag := 0x55AA, endflag := 0 }
  else shm

def semWait (value : Nat) : Option Nat :=
  if value = 0 then none else some (value - 1)

/-- `while (i<SHMDATA)`, up to the `sem_wait(empty)` of the next item. -/
def nextItem (i : Nat) : ProducerPc :=
  if i < SHMDATA then .waitEmpty (i + 1) else .exit

def stepProducer (s : State N) : Option (State N) :=
  match s.producer with
  | .waitMutexIni => do
    let mutex ← semWait s.mutex
    some { s with mutex := mutex, shm := iniQuene s.shm, producer := .postMutexIni }
  | .postMutexIni => some { s with mutex := s.mutex + 1, producer := nextItem 0 }
  | .waitEmpty i => do
    let empty ← semWait s.empty
    some { s with empty := empty, producer := .waitMutex i }
  | .waitMutex i => do
    let mutex ← semWait s.mutex
    some { s with mutex := mutex, shm := s.shm.putQueneValue i, producer := .postMutex i }
  | .postMutex i => some { s with mutex := s.mutex + 1, producer := .postFull i }
  | .postFull i => some { s with full := s.full + 1, producer := nextItem i }
  | .exit => none

/-- The code of a consumer behind its `sem_wait(mutex)`. -/
def getSection (s : State N) (c : Fin N) : State N :=
  if s.shm.endflag = 0x55AA then { s with consumer := update s.consumer c .postMutexEnd }
  else
    let i := s.shm.getQueneValue.1
    let shm := s.shm.getQueneValue.2
    { s with
      shm := if i = SHMDATA then { shm with endflag := 0x55AA } else shm
      consumer := update s.consumer c (.postMutex (i ≠ SHMDATA))
      got := s.got ++ [i] }

def stepConsumer (s : State N) (c : Fin N) : Option (State N) :=
  let goto (pc : ConsumerPc) := update s.consumer c pc
  match s.consumer c with
  | .waitMutexIni => do
    let mutex ← semWait s.mutex
    some { s with mutex := mutex, shm := iniQuene s.shm, consumer := goto .postMutexIni }
  | .postMutexIni => some { s with mutex := s.mutex + 1, consumer := goto .waitFull }
  | .waitFull => do
    let full ← semWait s.full
    some { s with full := full, consumer := goto .waitMutex }
  | .waitMutex => do
    let mutex ← semWait s.mutex
    some (getSection { s with mutex := mutex } c)
  | .postMutex flag => some { s with mutex := s.mutex + 1, consumer := goto (.postEmpty flag) }
  | .postEmpty flag =>
    some { s with
      empty := s.empty + 1
      consumer := goto (if flag then .waitFull else .postFull) }
  | .postMutexEnd => some { s with mutex := s.mutex + 1, consumer := goto .postEmptyEnd }
  | .postEmptyEnd => some { s with empty := s.empty + 1, consumer := goto .postFull }
  | .postFull => some { s with full := s.full + 1, consumer := goto .exit }
  | .exit => none

def step (s : State N) : Act N → Option (State N)
  | .producer => stepProducer s
  | .consumer c => stepConsumer s c

/-- A fresh segment, which is a cleared page, and new semaphores. -/
def start (N : Nat) : State N where
  shm := { head := 0, tail := 0, shmad := fun _ => 0, iniflag := 0, endflag := 0 }
  mutex := 1
  full := 0
  empty := CONSUM_NUM
  producer := .waitMutexIni
  consumer := fun _ => .waitMutexIni
  got := []

/-- The consecutive values `a`, `a + 1`, .. . -/
def span (a k : Nat) : List Int := (List.range' a k).map Int.ofNat

/-- The acting process is about to run the initialisation section. -/
def Initialises (s : State N) : Act N → Prop
  | .producer => s.producer = .waitMutexIni
  | .consumer c => s.consumer c = .waitMutexIni

/-- The initialisation section has nothing to lose. -/
def Sound (s : State N) (a : Act N) : Prop :=
  Initialises s a → s.shm.isQueneEmpty ∧ s.shm.endflag ≠ 0x55AA

/-- What was taken is 1, 2, 3, .., and no take found the ring empty. -/
structure ExactlyOnce (s : State N) : Prop where
  order : s.got = span 1 s.got.length
  found : -1 ∉ s.got

/-! ## The sections exclude each other -/

/-- In a section between `sem_wait(mutex)` and `sem_post(mutex)`. -/
def ProducerPc.section : ProducerPc → Nat
  | .postMutexIni | .postMutex _ => 1
  | _ => 0

def ConsumerPc.section : ConsumerPc → Nat
  | .postMutexIni | .postMutex _ | .postMutexEnd => 1
  | _ => 0

/-- The value of `mutex` and the processes in a section add up to 1. -/
def OneSection (s : State N) : Prop :=
  s.mutex + s.producer.section + tally ConsumerPc.section s.consumer = 1

@[simp] theorem nextItem_section (i : Nat) : (nextItem i).section = 0 := by
  unfold nextItem; split <;> rfl

theorem semWait_eq_some {v v' : Nat} : semWait v = some v' ↔ v = v' + 1 := by
  unfold semWait
  split
  · simp; omega
  · simp; omega

theorem OneSection.producer (h : OneSection s) (hs : stepProducer s = some s') :
    OneSection s' := by
  unfold OneSection at *
  cases hpc : s.producer with
  | waitMutexIni | waitEmpty i | waitMutex i =>
      simp only [stepProducer, hpc, Option.bind_eq_bind, Option.bind_eq_some_iff,
        semWait_eq_some, Option.some.injEq] at hs
      obtain ⟨v, hv, rfl⟩ := hs
      simp only [hpc, ProducerPc.section] at *
      omega
  | postMutexIni | postMutex i | postFull i =>
      simp only [stepProducer, hpc, Option.some.injEq] at hs
      subst hs
      simp only [nextItem_section]
      simp only [hpc, ProducerPc.section] at *
      omega
  | exit => simp [stepProducer, hpc] at hs

/-- How the tokens of all consumers change when `c` moves on to `pc`. -/
theorem tally_goto (weight : ConsumerPc → Nat) {c : Fin N} {pc₀ : ConsumerPc}
    (hpc : s.consumer c = pc₀) (pc : ConsumerPc) :
    tally weight (update s.consumer c pc) + weight pc₀
      = tally weight s.consumer + weight pc :=
  hpc ▸ tally_update weight s.consumer c pc

theorem getSection_mutex (s : State N) (c : Fin N) : (getSection s c).mutex = s.mutex := by
  unfold getSection; split <;> rfl

theorem getSection_producer (s : State N) (c : Fin N) :
    (getSection s c).producer = s.producer := by
  unfold getSection; split <;> rfl

theorem getSection_consumer (s : State N) (c : Fin N) :
    ∃ pc : ConsumerPc, pc.section = 1 ∧
      (getSection s c).consumer = update s.consumer c pc := by
  unfold getSection
  split
  · exact ⟨_, rfl, rfl⟩
  · exact ⟨_, rfl, rfl⟩

theorem OneSection.consumer {c : Fin N} (h : OneSection s)
    (hs : stepConsumer s c = some s') : OneSection s' := by
  have hgoto : ∀ pc, tally ConsumerPc.section (update s.consumer c pc)
      + (s.consumer c).section = tally ConsumerPc.section s.consumer + pc.section :=
    tally_update _ _ _
  unfold OneSection at *
  cases hpc : s.consumer c with
  | waitMutexIni | waitFull =>
      simp only [stepConsumer, hpc, Option.bind_eq_bind, Option.bind_eq_some_iff,
        semWait_eq_some, Option.some.injEq] at hs
      obtain ⟨v, hv, rfl⟩ := hs
      have h₁ := hgoto .postMutexIni
      have h₂ := hgoto .waitMutex
      simp only [hpc, ConsumerPc.section] at h₁ h₂ ⊢
      omega
  | waitMutex =>
      simp only [stepConsumer, hpc, Option.bind_eq_bind, Option.bind_eq_some_iff,
        semWait_eq_some, Option.some.injEq] at hs
      obtain ⟨v, hv, rfl⟩ := hs
      obtain ⟨pc, hpc₁, hc⟩ := getSection_consumer { s with mutex := v } c
      have h₁ := hgoto pc
      rw [hpc₁, hpc] at h₁
      rw [hc, getSection_mutex, getSection_producer]
      simp only [ConsumerPc.section] at h₁ ⊢
      omega
  | postEmpty flag =>
      simp only [stepConsumer, hpc, Option.some.injEq] at hs
      subst hs
      have h₁ := hgoto (if flag then .waitFull else .postFull)
      have h₂ : ConsumerPc.section (if flag then .waitFull else .postFull) = 0 := by
        cases flag <;> rfl
      rw [h₂, hpc] at h₁
      simp only [ConsumerPc.section] at h₁ ⊢
      omega
  | postMutexIni | postMutex flag | postMutexEnd =>
      simp only [stepConsumer, hpc, Option.some.injEq] at hs
      subst hs
      have h₁ := hgoto .waitFull
      have h₂ := fun flag => hgoto (.postEmpty flag)
      have h₃ := hgoto .postEmptyEnd
      simp only [hpc, ConsumerPc.section] at h₁ h₂ h₃ ⊢
      first | omega | (have h := h₂ flag; omega)
  | postEmptyEnd | postFull =>
      simp only [stepConsumer, hpc, Option.some.injEq] at hs
      subst hs
      have h₁ := hgoto .postFull
      have h₂ := hgoto .exit
      simp only [hpc, ConsumerPc.section] at h₁ h₂ ⊢
      omega
  | exit => simp [stepConsumer, hpc] at hs

/-- At most one process is between `sem_wait(mutex)` and `sem_post(mutex)`, in every
run: running a section as one step leaves no interleaving out. -/
theorem one_section (h : Reach step Free (start N) s) : OneSection s := by
  refine h.invariant (I := OneSection) ?_ fun s a s' hI _ hs => ?_
  · have : tally ConsumerPc.section (start N).consumer = 0 := tally_eq_zero fun _ => rfl
    exact congrArg (1 + 0 + ·) this
  · cases a with
    | producer => exact hI.producer hs
    | consumer c => exact hI.consumer hs

/-! ## What the runs keep before the last value is taken -/

/-- How many values the producer has put into the ring. -/
def ProducerPc.written : ProducerPc → Nat
  | .waitMutexIni | .postMutexIni => 0
  | .waitEmpty i | .waitMutex i => i - 1
  | .postMutex i | .postFull i => i
  | .exit => SHMDATA

/-- The loop variable of the producer is in range. -/
def ProducerPc.InRange : ProducerPc → Prop
  | .waitEmpty i | .waitMutex i | .postMutex i | .postFull i => 1 ≤ i ∧ i ≤ SHMDATA
  | _ => True

/-- The value is in the ring and not yet announced by `sem_post(full)`. -/
def ProducerPc.unannounced : ProducerPc → Nat
  | .postMutex _ | .postFull _ => 1
  | _ => 0

/-- The token of `empty` is taken and the value not yet in the ring. -/
def ProducerPc.reserved : ProducerPc → Nat
  | .waitMutex _ => 1
  | _ => 0

/-- The token of `full` is taken and the value still in the ring. -/
def ConsumerPc.claimed : ConsumerPc → Nat
  | .waitMutex => 1
  | _ => 0

/-- The value is taken and the cell not yet given back by `sem_post(empty)`. -/
def ConsumerPc.vacated : ConsumerPc → Nat
  | .postMutex _ | .postEmpty _ => 1
  | _ => 0

/-- On the way out, which only a set `endflag` opens. -/
def ConsumerPc.Leaving : ConsumerPc → Prop
  | .postMutex flag | .postEmpty flag => flag = false
  | .postMutexEnd | .postEmptyEnd | .postFull | .exit => True
  | _ => False

/-- The last value is not yet taken, and `k` values are in the ring. -/
structure Running (s : State N) (k : Nat) : Prop where
  endflag : s.shm.endflag ≠ 0x55AA
  inRange : s.producer.InRange
  got : s.got = span 1 s.got.length
  written : s.producer.written = s.got.length + k
  ring : s.shm.Holds (span (s.got.length + 1) k)
  full : s.full + tally ConsumerPc.claimed s.consumer + s.producer.unannounced = k
  empty : s.empty + tally ConsumerPc.vacated s.consumer + s.producer.reserved + k
    = CONSUM_NUM
  stays : ∀ c, ¬(s.consumer c).Leaving

/-- The last value is taken: nobody touches the ring any more. -/
structure Ended (s : State N) : Prop where
  endflag : s.shm.endflag = 0x55AA
  producer : s.producer = .exit
  got : s.got = span 1 SHMDATA

def Inv (s : State N) : Prop := (∃ k, Running s k) ∨ Ended s

@[simp] theorem span_zero (a : Nat) : span a 0 = [] := rfl

@[simp] theorem length_span (a k : Nat) : (span a k).length = k := by simp [span]

theorem span_succ (a k : Nat) : span a (k + 1) = Int.ofNat a :: span (a + 1) k := by
  simp [span, List.range'_succ]

theorem span_concat (a k : Nat) : span a (k + 1) = span a k ++ [Int.ofNat (a + k)] := by
  simp [span, List.range'_1_concat]

theorem neg_one_notMem_span (a k : Nat) : -1 ∉ span a k := by
  simp only [span, List.mem_map, not_exists, not_and]
  intro n _ h
  exact absurd h (by simp)

theorem nextItem_spec {i : Nat} (h : i ≤ SHMDATA) :
    (nextItem i).InRange ∧ (nextItem i).written = i ∧ (nextItem i).unannounced = 0 ∧
      (nextItem i).reserved = 0 := by
  unfold nextItem
  split
  · exact ⟨⟨by omega, by omega⟩, rfl, rfl, rfl⟩
  · exact ⟨trivial, by simp only [ProducerPc.written]; omega, rfl, rfl⟩

/-- The initialisation section does no harm to an empty ring. -/
theorem iniQuene_holds {shm : Shmadrtype} (h : shm.Holds []) (he : shm.endflag ≠ 0x55AA) :
    (iniQuene shm).Holds [] ∧ (iniQuene shm).endflag ≠ 0x55AA := by
  unfold iniQuene
  split
  · refine ⟨⟨Ring.holds_nil (by decide) fun _ _ => rfl, rfl, by decide⟩, by simp⟩
  · exact ⟨h, he⟩

/-- A process in a good run initialises only while no value is in the ring, which
then stays empty. -/
theorem Running.ini {k : Nat} (h : Running s k) (he : s.shm.isQueneEmpty) :
    k = 0 ∧ (iniQuene s.shm).Holds (span (s.got.length + 1) k) ∧
      (iniQuene s.shm).endflag ≠ 0x55AA := by
  have hnil := h.ring.isQueneEmpty_iff.mp he
  have hk : k = 0 := by simpa using congrArg List.length hnil
  have hring := hnil ▸ h.ring
  rw [hnil]
  exact ⟨hk, iniQuene_holds hring h.endflag⟩

theorem Running.producer {k : Nat} (h : Running s k) (hok : Sound s .producer)
    (hs : stepProducer s = some s') : ∃ k', Running s' k' := by
  obtain ⟨hend, hrange, hgot, hwritten, hring, hfull, hempty, hstays⟩ := id h
  cases hpc : s.producer with
  | waitMutexIni =>
      simp only [stepProducer, hpc, Option.bind_eq_bind, Option.bind_eq_some_iff,
        semWait_eq_some, Option.some.injEq] at hs
      obtain ⟨v, hv, rfl⟩ := hs
      obtain ⟨hk, hring', hend'⟩ := h.ini (hok hpc).1
      rw [hpc] at hwritten hfull hempty
      exact ⟨k, hend', trivial, hgot, hwritten, hring', hfull, hempty, hstays⟩
  | waitEmpty i =>
      simp only [stepProducer, hpc, Option.bind_eq_bind, Option.bind_eq_some_iff,
        semWait_eq_some, Option.some.injEq] at hs
      obtain ⟨v, hv, rfl⟩ := hs
      rw [hpc] at hrange hwritten hfull hempty
      refine ⟨k, hend, hrange, hgot, hwritten, hring, hfull, ?_, hstays⟩
      simp only [ProducerPc.reserved] at hempty ⊢
      omega
  | waitMutex i =>
      simp only [stepProducer, hpc, Option.bind_eq_bind, Option.bind_eq_some_iff,
        semWait_eq_some, Option.some.injEq] at hs
      obtain ⟨v, hv, rfl⟩ := hs
      rw [hpc] at hrange hwritten hfull hempty
      simp only [ProducerPc.InRange, ProducerPc.written, ProducerPc.unannounced,
        ProducerPc.reserved, CONSUM_NUM] at hrange hwritten hfull hempty
      have hi : i = s.got.length + 1 + k := by omega
      have hput := hring.putQueneValue (by rw [length_span]; simp only [QUENE_NUM]; omega) i
      rw [show (i : Int) = Int.ofNat (s.got.length + 1 + k) from congrArg _ hi,
        ← span_concat, ← show (i : Int) = Int.ofNat (s.got.length + 1 + k) from
          congrArg _ hi] at hput
      refine ⟨k + 1, by simpa using hend, hrange, hgot, ?_, hput, ?_, ?_, hstays⟩
      · simp only [ProducerPc.written]; omega
      · simp only [ProducerPc.unannounced]; omega
      · simp only [ProducerPc.reserved, CONSUM_NUM]; omega
  | postMutexIni =>
      simp only [stepProducer, hpc, Option.some.injEq] at hs
      subst hs
      obtain ⟨h₁, h₂, h₃, h₄⟩ := nextItem_spec (Nat.zero_le SHMDATA)
      rw [hpc] at hwritten hfull hempty
      exact ⟨k, hend, h₁, hgot, h₂.trans hwritten, hring, by rw [h₃]; exact hfull,
        by rw [h₄]; exact hempty, hstays⟩
  | postMutex i =>
      simp only [stepProducer, hpc, Option.some.injEq] at hs
      subst hs
      rw [hpc] at hrange hwritten hfull hempty
      exact ⟨k, hend, hrange, hgot, hwritten, hring, hfull, hempty, hstays⟩
  | postFull i =>
      simp only [stepProducer, hpc, Option.some.injEq] at hs
      subst hs
      rw [hpc] at hrange hwritten hfull hempty
      obtain ⟨h₁, h₂, h₃, h₄⟩ := nextItem_spec hrange.2
      refine ⟨k, hend, h₁, hgot, h₂.trans hwritten, hring, ?_, by rw [h₄]; exact hempty,
        hstays⟩
      rw [h₃]
      simp only [ProducerPc.unannounced] at hfull ⊢
      omega
  | exit => simp [stepProducer, hpc] at hs

theorem ProducerPc.InRange.written_le {pc : ProducerPc} (h : pc.InRange) :
    pc.written ≤ SHMDATA := by
  cases pc <;> simp only [ProducerPc.InRange, ProducerPc.written] at h ⊢ <;> omega

/-- A producer that has put and announced every value is through. -/
theorem ProducerPc.eq_exit {pc : ProducerPc} (hrange : pc.InRange)
    (hall : pc.written = SHMDATA) (hann : pc.unannounced = 0) : pc = .exit := by
  cases pc with
  | waitMutexIni | postMutexIni => cases hall
  | waitEmpty i | waitMutex i =>
      simp only [ProducerPc.InRange, ProducerPc.written] at hrange hall
      omega
  | postMutex i | postFull i => cases hann
  | exit => rfl

/-- The consumer that claims a value finds it at the head of the ring. -/
theorem Running.getSection {k mutex : Nat} (h : Running s k) {c : Fin N}
    (hpc : s.consumer c = .waitMutex) :
    Inv (getSection { s with mutex := mutex } c) := by
  obtain ⟨hend, hrange, hgot, hwritten, hring, hfull, hempty, hstays⟩ := h
  have hclaim := tally_goto ConsumerPc.claimed hpc
  have hvacate := tally_goto ConsumerPc.vacated hpc
  have hone : 1 ≤ tally ConsumerPc.claimed s.consumer := by
    simpa only [hpc, ConsumerPc.claimed] using le_tally ConsumerPc.claimed s.consumer c
  obtain ⟨k, rfl⟩ : ∃ k', k = k' + 1 := ⟨k - 1, by omega⟩
  rw [span_succ] at hring
  obtain ⟨hval, hring'⟩ := hring.getQueneValue
  have hgot' : s.got ++ [Int.ofNat (s.got.length + 1)] = span 1 (s.got.length + 1) := by
    rw [span_concat, ← hgot, Nat.add_comm 1]
  unfold ProducerConsumer.getSection
  simp only [if_neg hend, hval]
  rcases eq_or_ne (Int.ofNat (s.got.length + 1)) SHMDATA with hlast | hlast
  · -- the last value: the producer has nothing left to do
    have hlen : s.got.length + 1 = SHMDATA := Int.ofNat.inj hlast
    have hwritten' : s.producer.written ≤ SHMDATA := hrange.written_le
    have hexit : s.producer = .exit :=
      ProducerPc.eq_exit hrange (by omega) (by omega)
    simp only [if_pos hlast]
    exact Or.inr ⟨rfl, hexit, hlen ▸ hgot'⟩
  · have h₁ := hclaim (.postMutex true)
    have h₂ := hvacate (.postMutex true)
    simp only [ConsumerPc.claimed, ConsumerPc.vacated] at h₁ h₂
    refine Or.inl ⟨k, ?_⟩
    simp only [hlast, if_false, ne_eq, not_false_eq_true, decide_true]
    refine ⟨by simpa using hend, hrange, by simpa using hgot', ?_, by simpa using hring', ?_, ?_,
      fun c' => ?_⟩
    · simp only [List.length_append, List.length_singleton]
      omega
    · simp only
      omega
    · simp only
      omega
    · rcases eq_or_ne c' c with rfl | hne
      · simp [ConsumerPc.Leaving]
      · simpa [hne] using hstays c'

theorem Running.consumer {k : Nat} (h : Running s k) {c : Fin N}
    (hok : Sound s (.consumer c)) (hs : stepConsumer s c = some s') : Inv s' := by
  obtain ⟨hend, hrange, hgot, hwritten, hring, hfull, hempty, hstays⟩ := id h
  have hclaim := tally_update ConsumerPc.claimed s.consumer c
  have hvacate := tally_update ConsumerPc.vacated s.consumer c
  have hstays' : ∀ pc : ConsumerPc, ¬pc.Leaving → ∀ c', ¬(update s.consumer c pc c').Leaving :=
    fun pc hpc c' => by
      rcases eq_or_ne c' c with rfl | hne
      · rwa [update_self]
      · rw [update_of_ne hne]
        exact hstays c'
  cases hpc : s.consumer c with
  | waitMutexIni =>
      simp only [stepConsumer, hpc, Option.bind_eq_bind, Option.bind_eq_some_iff,
        semWait_eq_some, Option.some.injEq] at hs
      obtain ⟨v, hv, rfl⟩ := hs
      obtain ⟨hk, hring', hend'⟩ := h.ini (hok hpc).1
      have h₁ := hclaim .postMutexIni
      have h₂ := hvacate .postMutexIni
      simp only [hpc, ConsumerPc.claimed, ConsumerPc.vacated, Nat.add_zero] at h₁ h₂
      exact Or.inl ⟨k, hend', hrange, hgot, hwritten, hring', h₁ ▸ hfull, h₂ ▸ hempty,
        hstays' _ id⟩
  | postMutexIni =>
      simp only [stepConsumer, hpc, Option.some.injEq] at hs
      subst hs
      have h₁ := hclaim .waitFull
      have h₂ := hvacate .waitFull
      simp only [hpc, ConsumerPc.claimed, ConsumerPc.vacated, Nat.add_zero] at h₁ h₂
      exact Or.inl ⟨k, hend, hrange, hgot, hwritten, hring, h₁ ▸ hfull, h₂ ▸ hempty,
        hstays' _ id⟩
  | waitFull =>
      simp only [stepConsumer, hpc, Option.bind_eq_bind, Option.bind_eq_some_iff,
        semWait_eq_some, Option.some.injEq] at hs
      obtain ⟨v, hv, rfl⟩ := hs
      have h₁ := hclaim .waitMutex
      have h₂ := hvacate .waitMutex
      simp only [hpc, ConsumerPc.claimed, ConsumerPc.vacated, Nat.add_zero] at h₁ h₂
      refine Or.inl ⟨k, hend, hrange, hgot, hwritten, hring, ?_, h₂ ▸ hempty, hstays' _ id⟩
      simp only
      omega
  | waitMutex =>
      simp only [stepConsumer, hpc, Option.bind_eq_bind, Option.bind_eq_some_iff,
        semWait_eq_some, Option.some.injEq] at hs
      obtain ⟨v, hv, rfl⟩ := hs
      exact h.getSection hpc
  | postMutex flag =>
      have hflag : flag = true := by simpa [hpc, ConsumerPc.Leaving] using hstays c
      simp only [stepConsumer, hpc, Option.some.injEq] at hs
      subst hs hflag
      have h₁ := hclaim (.postEmpty true)
      have h₂ := hvacate (.postEmpty true)
      simp only [hpc, ConsumerPc.claimed, ConsumerPc.vacated, Nat.add_zero,
        Nat.add_right_cancel_iff] at h₁ h₂
      exact Or.inl ⟨k, hend, hrange, hgot, hwritten, hring, h₁ ▸ hfull, h₂ ▸ hempty,
        hstays' _ (by simp [ConsumerPc.Leaving])⟩
  | postEmpty flag =>
      have hflag : flag = true := by simpa [hpc, ConsumerPc.Leaving] using hstays c
      simp only [stepConsumer, hpc, Option.some.injEq] at hs
      subst hs hflag
      have h₁ := hclaim .waitFull
      have h₂ := hvacate .waitFull
      simp only [hpc, ConsumerPc.claimed, ConsumerPc.vacated, Nat.add_zero] at h₁ h₂
      refine Or.inl ⟨k, hend, hrange, hgot, hwritten, hring, h₁ ▸ hfull, ?_, hstays' _ id⟩
      simp only [if_true]
      omega
  | postMutexEnd | postEmptyEnd | postFull | exit =>
      have hc := hstays c
      rw [hpc] at hc
      exact absurd trivial hc

theorem Ended.step {a : Act N} (h : Ended s) (hok : Sound s a) (hs : step s a = some s') :
    Ended s' := by
  obtain ⟨hend, hexit, hgot⟩ := h
  cases a with
  | producer => simp [ProducerConsumer.step, stepProducer, hexit] at hs
  | consumer c =>
      cases hpc : s.consumer c with
      | waitMutexIni => exact absurd hend (hok hpc).2
      | waitMutex =>
          simp only [ProducerConsumer.step, stepConsumer, hpc, Option.bind_eq_bind,
            Option.bind_eq_some_iff, Option.some.injEq] at hs
          obtain ⟨v, hv, rfl⟩ := hs
          rw [getSection, if_pos hend]
          exact ⟨hend, hexit, hgot⟩
      | waitFull =>
          simp only [ProducerConsumer.step, stepConsumer, hpc, Option.bind_eq_bind,
            Option.bind_eq_some_iff, Option.some.injEq] at hs
          obtain ⟨v, hv, rfl⟩ := hs
          exact ⟨hend, hexit, hgot⟩
      | postMutexIni | postMutex flag | postEmpty flag | postMutexEnd | postEmptyEnd
      | postFull =>
          simp only [ProducerConsumer.step, stepConsumer, hpc, Option.some.injEq] at hs
          subst hs
          exact ⟨hend, hexit, hgot⟩
      | exit => simp [ProducerConsumer.step, stepConsumer, hpc] at hs

theorem inv_start : Inv (start N) := by
  refine Or.inl ⟨0, by simp [start], trivial, rfl, rfl, ?_, ?_, ?_, fun _ h => h⟩
  · exact ⟨Ring.holds_nil (Nat.zero_lt_succ _) fun _ _ => rfl, rfl, Nat.zero_lt_succ _⟩
  · exact congrArg (0 + · + 0) (tally_eq_zero fun _ => rfl)
  · exact congrArg (CONSUM_NUM + · + 0 + 0) (tally_eq_zero fun _ => rfl)

theorem Inv.step {a : Act N} (h : Inv s) (hok : Sound s a) (hs : step s a = some s') :
    Inv s' := by
  rcases h with ⟨k, h⟩ | h
  · cases a with
    | producer => exact Or.inl (h.producer hok hs)
    | consumer c => exact h.consumer hok hs
  · exact Or.inr (h.step hok hs)

theorem Inv.exactlyOnce (h : Inv s) : ExactlyOnce s := by
  have hgot : s.got = span 1 s.got.length := by
    rcases h with ⟨k, h⟩ | h
    · exact h.got
    · rw [h.got, length_span]
  exact ⟨hgot, hgot ▸ neg_one_notMem_span 1 _⟩

/-- **Exactly once**, for any number of consumers, in any order of their steps, and in
every run in which no process initialises a ring that holds a value or is at its end:
what was taken is 1, 2, 3 and so on in this order, and nobody has taken a value from an
empty ring. -/
theorem exactly_once (N : Nat) {s : State N} (h : Reach step Sound (start N) s) :
    ExactlyOnce s :=
  Inv.exactlyOnce (h.invariant inv_start fun _ _ _ hs hok hstep => hs.step hok hstep)

instance (s : State N) (a : Act N) : Decidable (Sound s a) :=
  match a with
  | .producer => inferInstanceAs (Decidable (s.producer = .waitMutexIni → _))
  | .consumer c => inferInstanceAs (Decidable (s.consumer c = .waitMutexIni → _))

/-- Two consumers start, the producer puts two values, and each takes one. -/
def served : List (Act 2) :=
  [.consumer 0, .consumer 0, .producer, .producer, .consumer 1, .consumer 1]
  ++ List.replicate 8 .producer
  ++ [.consumer 1, .consumer 0, .consumer 1, .consumer 1, .consumer 0]

theorem exactly_once_served : ∃ s : State 2,
    exec (checked step Sound) (start 2) served = some s ∧ s.got = [1, 2] ∧ ExactlyOnce s := by
  obtain ⟨s, hs, hgot⟩ : ∃ s, exec (checked step Sound) (start 2) served = some s ∧
      s.got = [1, 2] := exec_any (by decide +kernel)
  exact ⟨s, hs, hgot, exactly_once 2 (exec_checked hs)⟩

/-- A consumer that starts after the producer has put its first value empties the
ring, and then takes -1 for that value. -/
def startsLate : List (Act 1) :=
  List.replicate 6 .producer ++ List.replicate 4 (.consumer 0)

theorem not_exactly_once :
    ∃ s : State 1, Reach step Free (start 1) s ∧ s.shm.endflag ≠ 0x55AA ∧
      ¬ExactlyOnce s := by
  obtain ⟨s, hs, hend, hgot⟩ : ∃ s, exec step (start 1) startsLate = some s ∧
      s.shm.endflag ≠ 0x55AA ∧ s.got = [-1] := exec_any (by decide +kernel)
  refine ⟨s, exec_reach hs, hend, fun h => h.found ?_⟩
  simp [hgot]

end ProducerConsumer

end Linux011
