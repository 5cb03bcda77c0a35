import Linux011.Runs
import Linux011.WaitQueue
import Mathlib.Algebra.Group.Nat.Defs
import Mathlib.Tactic.Common

/-!
# Named semaphores

`kernel/sem.c`: the table `semarray`, the calls that create and remove names
(`sys_sem_open`, `sys_sem_unlink`) and the calls that move the value
(`sys_sem_wait`, `sys_sem_post`). A handle is a pointer to the `sem` field of a
slot, so both calls read `*sem` and search the table for the first slot with
that `sem`; the slot found is `cursem`.

A task leaves the processor inside the kernel only at the `schedule()` of
`sleep_on`, so a call is one step up to there, and `resume` is the step from
there on. The lamport lock around the accesses to `value` is taken to be granted
at once: nobody else is in the kernel.

Two invariants are carried along a run. `QueuesOk` says that every slot has a
well-formed wait queue: the step of a task on one slot is a step of `WaitQueue`
there, and changes nothing in the queues of the others, since a task is inside
one call at a time. `Counted` ties the value of a slot to the calls that have
completed; the ghost counters `posts` and `waits` of the state only count, and
no branch reads them. In `semaphore_counts` the slot has just been created, so
that no older handle leads to it, and the handle finds its own slot again
because the ids of the table are distinct (`SemIds`).
-/

namespace Linux011

open Function Links Runs

def SEM_NUM : Nat := 64

/-- Size of the `name` array of a slot. -/
abbrev NAME_SIZE : Nat := 20

structure StructSem (T : Type) where
  sem : BitVec 32
  name : Vector UInt8 NAME_SIZE
  value : BitVec 32
  wait : Option T
  cont : BitVec 32
deriving Repr, DecidableEq

/-- `strncmp` of `string.h`: 0 when the strings agree up to a common NUL or on
`count` bytes, otherwise the sign of the first difference. -/
def strncmp : List UInt8 → List UInt8 → Nat → Int
  | c :: cs, t :: ct, count + 1 =>
      if t ≠ c then if t.toInt8 < c.toInt8 then 1 else -1
      else if t = 0 then 0
      else strncmp cs ct count
  | _, _, _ => 0

/-- The bytes before the first NUL (at most `NAME_SIZE`), then NULs: what both
`strncpy` and the copy loop leave in a name array. -/
def padName (s : List UInt8) (h : s.length ≤ NAME_SIZE) : Vector UInt8 NAME_SIZE :=
  ⟨(s ++ List.replicate (NAME_SIZE - s.length) 0).toArray, by simp; omega⟩

/-- `strncpy` into a name array. -/
def strncpy (src : Vector UInt8 NAME_SIZE) : Vector UInt8 NAME_SIZE :=
  padName (src.toList.takeWhile (· ≠ 0))
    (Nat.le_trans (List.takeWhile_sublist _).length_le (by simp))

/-- The loop over `get_fs_byte` that fills `kername`: byte `i` is copied, a NUL
ends the copy, and byte 19 is made the NUL. -/
def kername (name : Nat → UInt8) : Vector UInt8 NAME_SIZE :=
  padName (((List.range (NAME_SIZE - 1)).map name).takeWhile (· ≠ 0))
    (Nat.le_trans (List.takeWhile_sublist _).length_le
      (by rw [List.length_map, List.length_range]; exact Nat.sub_le ..))

/-- `strncmp(kername, name, sizeof(name))` is 0. -/
def sameName (kername name : Vector UInt8 NAME_SIZE) : Bool :=
  strncmp kername.toList name.toList NAME_SIZE == 0

section Table

variable {T : Type}

abbrev SemArray (T : Type) := Nat → StructSem T

/-- The first slot of the table with the property: the C loops `break` there. -/
def findSlot (p : Nat → Bool) : Option Nat := (List.range SEM_NUM).find? p

def sysInisem (a : SemArray T) : SemArray T := fun i =>
  { a i with name := (a i).name.set 0 0, sem := 0, value := 0, wait := none, cont := 0 }

def O_CREAT : Nat := 0o100
def O_EXCL : Nat := 0o200

/-- `sys_sem_open`: the slot whose `sem` field the returned pointer designates
(`none` for `SEM_FAILED`) and the new table. A null `name` is `none`. -/
def sysSemOpen (a : SemArray T) (name : Option (Nat → UInt8)) (oflag : Nat)
    (value : BitVec 32) : Option Nat × SemArray T :=
  match name with
  | none => (none, a)
  | some name =>
    let kername := kername name
    match findSlot fun i => sameName kername (a i).name with
    | none =>
      if oflag &&& O_CREAT ≠ 0 then
        match findSlot fun i => (a i).sem == 0 with
        | some inull =>
          (some inull, update a inull
            { sem := BitVec.ofNat 32 (inull + 1), name := strncpy kername
              value := value, wait := none, cont := 1 })
        | none => (none, a)
      else (none, a)
    | some i =>
      if oflag &&& O_CREAT ≠ 0 ∧ oflag &&& O_EXCL ≠ 0 then (none, a)
      else (some i, update a i { a i with cont := (a i).cont + 1 })

/-- `sys_sem_unlink`: the return value and the new table. -/
def sysSemUnlink (a : SemArray T) (name : Option (Nat → UInt8)) : Int × SemArray T :=
  match name with
  | none => (-1, a)
  | some name =>
    match findSlot fun i => sameName (kername name) (a i).name with
    | none => (-1, a)
    | some i =>
      let cont := (a i).cont - 1
      if cont = 0 then
        (0, update a i { name := (a i).name.set 0 0, sem := 0, value := 0, wait := none
                         cont := cont })
      else (0, update a i { a i with cont := cont })

/-- The slot a handle designates: the first one whose `sem` is `*sem`. The
handle is a pointer to the `sem` field of slot `h`. -/
def cursem (a : SemArray T) (h : Nat) : Option Nat :=
  findSlot fun i => (a h).sem == (a i).sem

theorem findSlot_lt {p : Nat → Bool} {i : Nat} (h : findSlot p = some i) :
    i < SEM_NUM :=
  List.mem_range.mp (List.mem_of_find?_eq_some h)

theorem findSlot_true {p : Nat → Bool} {i : Nat} (h : findSlot p = some i) :
    p i = true :=
  List.find?_some h

/-- A slot that alone has a property is the one the search finds. -/
theorem findSlot_unique {p : Nat → Bool} {k : Nat} (hk : k < SEM_NUM) (hp : p k = true)
    (hu : ∀ i, i < SEM_NUM → p i = true → i = k) : findSlot p = some k := by
  cases hf : findSlot p with
  | none =>
      have := List.find?_eq_none.mp hf k (List.mem_range.mpr hk)
      exact absurd hp this
  | some i => rw [hu i (findSlot_lt hf) (findSlot_true hf)]

/-- Histories of the table before anybody waits: boot, then opens and unlinks. -/
inductive SemHistory : SemArray T → Prop where
  | ini (a : SemArray T) : SemHistory (sysInisem a)
  | opened {a : SemArray T} (name : Option (Nat → UInt8)) (oflag : Nat) (value : BitVec 32) :
      SemHistory a → SemHistory (sysSemOpen a name oflag value).2
  | unlinked {a : SemArray T} (name : Option (Nat → UInt8)) :
      SemHistory a → SemHistory (sysSemUnlink a name).2

/-- `sem` is the number of the slot counted from 1, or 0 in a free slot. -/
def SemIds (a : SemArray T) : Prop :=
  ∀ i, i < SEM_NUM → (a i).sem = 0 ∨ (a i).sem = BitVec.ofNat 32 (i + 1)

theorem SemIds.update {a : SemArray T} (ha : SemIds a) {i : Nat} {x : StructSem T}
    (hx : x.sem = 0 ∨ x.sem = BitVec.ofNat 32 (i + 1)) : SemIds (update a i x) := by
  intro j hj
  by_cases hji : j = i
  · subst hji; simpa using hx
  · simpa [hji] using ha j hj

theorem semIds_open {a : SemArray T} (ha : SemIds a) (name : Option (Nat → UInt8))
    (oflag : Nat) (value : BitVec 32) : SemIds (sysSemOpen a name oflag value).2 := by
  unfold sysSemOpen
  cases name with
  | none => exact ha
  | some name =>
      dsimp only
      split
      · split
        · split
          · exact ha.update (Or.inr rfl)
          · exact ha
        · exact ha
      · rename_i i hi
        split
        · exact ha
        · exact ha.update (ha i (findSlot_lt hi))

theorem semIds_unlink {a : SemArray T} (ha : SemIds a) (name : Option (Nat → UInt8)) :
    SemIds (sysSemUnlink a name).2 := by
  unfold sysSemUnlink
  cases name with
  | none => exact ha
  | some name =>
      dsimp only
      split
      · exact ha
      · rename_i i hi
        split
        · exact ha.update (Or.inl rfl)
        · exact ha.update (ha i (findSlot_lt hi))

theorem SemHistory.ids {a : SemArray T} (h : SemHistory a) : SemIds a := by
  induction h with
  | ini a => exact fun i _ => Or.inl rfl
  | opened name oflag value _ ih => exact semIds_open ih name oflag value
  | unlinked name _ ih => exact semIds_unlink ih name

theorem SemHistory.wait {a : SemArray T} (h : SemHistory a) (i : Nat) :
    (a i).wait = none := by
  induction h with
  | ini a => rfl
  | @opened a name oflag value _ ih =>
      unfold sysSemOpen
      cases name with
      | none => exact ih
      | some name =>
          dsimp only
          split
          · split
            · split
              · rename_i k _
                by_cases hik : i = k <;> simp [hik, ih]
              · exact ih
            · exact ih
          · rename_i k _
            split
            · exact ih
            · by_cases hik : i = k
              · subst hik; simpa using ih
              · simpa [hik] using ih
  | @unlinked a name _ ih =>
      unfold sysSemUnlink
      cases name with
      | none => exact ih
      | some name =>
          dsimp only
          split
          · exact ih
          · rename_i k _
            split
            · by_cases hik : i = k <;> simp [hik, ih]
            · by_cases hik : i = k
              · subst hik; simpa using ih
              · simpa [hik] using ih

/-- A slot with its own number in `sem` is the slot its handle designates. -/
theorem cursem_self {a : SemArray T} (ha : SemIds a) {k : Nat} (hk : k < SEM_NUM)
    (hsem : (a k).sem = BitVec.ofNat 32 (k + 1)) : cursem a k = some k := by
  refine findSlot_unique hk (by simp) fun i hi he => ?_
  have he' : (a k).sem = (a i).sem := by simpa using he
  rw [hsem] at he'
  have hk' : k < 64 := hk
  have hi' : i < 64 := hi
  rcases ha i hi with h | h
  · rw [h] at he'
    have h0 : (BitVec.ofNat 32 (k + 1)).toNat = 0 := congrArg BitVec.toNat he'
    rw [BitVec.toNat_ofNat] at h0
    omega
  · rw [h] at he'
    have := congrArg BitVec.toNat he'
    simp only [BitVec.toNat_ofNat] at this
    omega

end Table

/-! ## Waiting and posting -/

/-- The table, the `state` of every task, and what the kernel stack of a task
inside `sys_sem_wait` holds: the index of `cursem` and the `tmp` of `sleep_on`.
`posts` and `waits` count the completed calls by slot. -/
structure SemState (T : Type) where
  semarray : SemArray T
  state : T → TaskState
  stack : T → Option (Nat × Option T)
  posts : Nat → Nat
  waits : Nat → Nat

namespace SemState

variable {T : Type} [DecidableEq T] {s s' : SemState T} {k : Nat} {t : T}

/-- The wait queue of slot `k`. -/
def queue (s : SemState T) (k : Nat) : WaitQueue T where
  wait := (s.semarray k).wait
  state := s.state
  tmp t := s.stack t |>.bind fun (i, tmp) => if i = k then some tmp else none

/-- The state after task `t` worked on the queue of slot `k`. -/
def withQueue (s : SemState T) (k : Nat) (t : T) (q : WaitQueue T) : SemState T :=
  { s with
    semarray := update s.semarray k { s.semarray k with wait := q.wait }
    state := q.state
    stack := update s.stack t ((q.tmp t).map fun tmp => (k, tmp)) }

/-- The loop of `sys_sem_wait`, from the test of `value` on. -/
def tryWait (initTask : T) (s : SemState T) (k : Nat) (t : T) : Option (SemState T) :=
  if 0 ≥ (s.semarray k).value then
    (WaitQueue.sleepOn initTask (s.queue k) t).map fun q => s.withQueue k t q
  else some
    { s with
      semarray := update s.semarray k
        { s.semarray k with value := (s.semarray k).value - 1 }
      waits := update s.waits k (s.waits k + 1) }

/-- `sys_sem_wait(sem)`; `h` is the slot of the handle, `none` a null pointer.
A call that returns -1 leaves everything as it was. -/
def sysSemWait (initTask : T) (s : SemState T) (t : T) (h : Option Nat) :
    Option (SemState T) :=
  match h.bind (cursem s.semarray) with
  | none => some s
  | some k => s.tryWait initTask k t

/-- The part of `sys_sem_post` under the lock. -/
def countPost (s : SemState T) (k : Nat) : SemState T :=
  { s with
    semarray := update s.semarray k
      { s.semarray k with value := (s.semarray k).value + 1 }
    posts := update s.posts k (s.posts k + 1) }

def sysSemPost (s : SemState T) (t : T) (h : Option Nat) : SemState T :=
  match h.bind (cursem s.semarray) with
  | none => s
  | some k =>
    let s' := s.countPost k
    s'.withQueue k t (s'.queue k).wakeUp

/-- What can happen next: a task outside the kernel makes a call, or a task that
was made runnable inside `sleep_on` goes on. -/
inductive Act (T : Type) where
  | wait (t : T) (h : Option Nat)
  | post (t : T) (h : Option Nat)
  | resume (t : T)

def step (initTask : T) (s : SemState T) : Act T → Option (SemState T)
  | .wait t h =>
      if s.state t = .running ∧ s.stack t = none then s.sysSemWait initTask t h else none
  | .post t h =>
      if s.state t = .running ∧ s.stack t = none then some (s.sysSemPost t h) else none
  | .resume t =>
      match s.stack t with
      | none => none
      | some (k, _) =>
        if s.state t = .running then
          (s.withQueue k t ((s.queue k).sleepOnReturn t)).tryWait initTask k t
        else none

/-- The state in which nobody has called `sys_sem_wait` or `sys_sem_post` yet. -/
def start (a : SemArray T) (state : T → TaskState) : SemState T :=
  { semarray := a, state := state, stack := fun _ => none
    posts := fun _ => 0, waits := fun _ => 0 }

/-! ## The queues of all slots -/

omit [DecidableEq T] in
theorem queue_tmp_some {tmp : Option T} (h : (s.queue k).tmp t = some tmp) :
    s.stack t = some (k, tmp) := by
  simp only [queue, Option.bind_eq_some_iff] at h
  obtain ⟨⟨i, tmp'⟩, hs, hi⟩ := h
  split at hi
  · rename_i hik
    rw [hs, ← Option.some.inj hi, ← hik]
  · cases hi

omit [DecidableEq T] in
theorem queue_tmp_none (h : s.stack t = none) : (s.queue k).tmp t = none := by
  simp [queue, h]

omit [DecidableEq T] in
/-- A task sleeps in one call only, so it is inside the queue of one slot. -/
theorem inside_unique {j : Nat} (hk : (s.queue k).Inside t) (hj : (s.queue j).Inside t) :
    j = k := by
  obtain ⟨a, ha⟩ := Option.ne_none_iff_exists'.mp hk
  obtain ⟨b, hb⟩ := Option.ne_none_iff_exists'.mp hj
  have := (queue_tmp_some ha).symm.trans (queue_tmp_some hb)
  exact (congrArg Prod.fst (Option.some.inj this)).symm

theorem queue_withQueue {q : WaitQueue T} (h : ∀ b, b ≠ t → q.tmp b = (s.queue k).tmp b) :
    (s.withQueue k t q).queue k = q := by
  have htmp : ((s.withQueue k t q).queue k).tmp = q.tmp := by
    funext b
    by_cases hb : b = t
    · subst hb
      cases hq : q.tmp b <;> simp [queue, withQueue, hq]
    · rw [h b hb]; simp [queue, withQueue, hb]
  have hwait : ((s.withQueue k t q).queue k).wait = q.wait := by simp [queue, withQueue]
  calc (s.withQueue k t q).queue k
      = ⟨((s.withQueue k t q).queue k).wait, q.state,
          ((s.withQueue k t q).queue k).tmp⟩ := rfl
    _ = q := by rw [hwait, htmp]

/-- Work on the queue of slot `k` by a task outside the queue of slot `j` leaves
that queue alone, as long as it changes the state of no task inside it. -/
theorem queue_withQueue_ne {q : WaitQueue T} {j : Nat} (hj : j ≠ k)
    (ht : ¬(s.queue j).Inside t) (hok : (s.queue j).Ok)
    (hst : ∀ b, (s.queue j).Inside b → q.state b = s.state b) :
    ((s.withQueue k t q).queue j).Ok := by
  have htmp : ((s.withQueue k t q).queue j).tmp = (s.queue j).tmp := by
    funext b
    by_cases hb : b = t
    · subst hb
      rw [not_not.mp ht]
      cases hq : q.tmp b <;> simp [queue, withQueue, hq, Ne.symm hj]
    · simp [queue, withQueue, hb]
  exact hok.frame (by simp [queue, withQueue, hj]) htmp hst

/-- The invariant of the sleepers: every slot has a well-formed wait queue. -/
def QueuesOk (s : SemState T) : Prop := ∀ k, (s.queue k).Ok

/-- Work on one queue keeps all of them: the new queue is well formed and differs
from the old one only in the acting task and in the `state` of tasks inside. -/
theorem QueuesOk.withQueue {q : WaitQueue T} (hs : s.QueuesOk) (hq : q.Ok)
    (htmp : ∀ b, b ≠ t → q.tmp b = (s.queue k).tmp b)
    (ht : ∀ j, j ≠ k → ¬(s.queue j).Inside t)
    (hst : ∀ b, b ≠ t → ¬(s.queue k).Inside b → q.state b = s.state b) :
    (s.withQueue k t q).QueuesOk := by
  intro j
  by_cases hj : j = k
  · subst hj
    rw [queue_withQueue htmp]
    exact hq
  · refine queue_withQueue_ne hj (ht j hj) (hs j) fun b hb => hst b ?_ ?_
    · exact fun e => ht j hj (e ▸ hb)
    · exact fun hk => hj (inside_unique hk hb)

theorem QueuesOk.tryWait {initTask : T} (hs : s.QueuesOk) (ht : s.stack t = none)
    (h : s.tryWait initTask k t = some s') : s'.QueuesOk := by
  have hout : ∀ j, ¬(s.queue j).Inside t := fun j hj => hj (queue_tmp_none ht)
  unfold SemState.tryWait at h
  split at h
  · obtain ⟨q, hq, rfl⟩ := Option.map_eq_some_iff.mp h
    have hqok := WaitQueue.sleepOn_ok (hs k) (hout k) hq
    unfold WaitQueue.sleepOn at hq
    split at hq
    · cases hq
    obtain rfl := Option.some.inj hq
    exact hs.withQueue hqok (fun b hb => by simp [hb]) (fun j _ => hout j)
      fun b hb _ => by simp [hb, queue]
  · obtain rfl := Option.some.inj h
    refine fun j => (hs j).frame ?_ rfl fun _ _ => rfl
    by_cases hj : j = k
    · subst hj; simp [queue]
    · simp [queue, hj]

theorem QueuesOk.sysSemPost {h : Option Nat} (hs : s.QueuesOk) (ht : s.stack t = none) :
    (s.sysSemPost t h).QueuesOk := by
  unfold SemState.sysSemPost
  split
  · exact hs
  · rename_i k _
    have hout : ∀ j, ¬((s.countPost k).queue j).Inside t := fun j hj =>
      hj (queue_tmp_none ht)
    have hs' : (s.countPost k).QueuesOk := by
      refine fun j => (hs j).frame ?_ rfl fun _ _ => rfl
      by_cases hj : j = k
      · subst hj; simp [queue, countPost]
      · simp [queue, countPost, hj]
    refine hs'.withQueue (WaitQueue.wakeUp_ok (hs' k)) (fun b _ => by simp)
      (fun j _ => hout j) fun b _ hb => ?_
    exact WaitQueue.wakeUp_state_of_not_inside (hs' k) hb

theorem QueuesOk.resume {tmp : Option T} (hs : s.QueuesOk)
    (ht : s.stack t = some (k, tmp)) (hr : s.state t = .running) :
    (s.withQueue k t ((s.queue k).sleepOnReturn t)).QueuesOk := by
  have hw : (s.queue k).Woken t := ⟨by simp [WaitQueue.Inside, queue, ht], hr⟩
  refine hs.withQueue (WaitQueue.sleepOnReturn_ok (hs k) hw) (fun b hb => by simp [hb])
    (fun j hj hi => hj (inside_unique hw.1 hi)) fun b _ hb => ?_
  exact WaitQueue.sleepOnReturn_state_of_not_inside (hs k) hw hb

theorem resume_stack :
    (s.withQueue k t ((s.queue k).sleepOnReturn t)).stack t = none := by
  simp [SemState.withQueue]

theorem QueuesOk.step {initTask : T} {a : Act T} (hs : s.QueuesOk)
    (h : s.step initTask a = some s') : s'.QueuesOk := by
  cases a with
  | wait t h' =>
      simp only [SemState.step, Option.ite_none_right_eq_some] at h
      obtain ⟨⟨-, ht⟩, h⟩ := h
      unfold sysSemWait at h
      split at h
      · obtain rfl := Option.some.inj h
        exact hs
      · exact hs.tryWait ht h
  | post t h' =>
      simp only [SemState.step, Option.ite_none_right_eq_some] at h
      obtain ⟨⟨-, ht⟩, h⟩ := h
      obtain rfl := Option.some.inj h
      exact hs.sysSemPost ht
  | resume t =>
      simp only [SemState.step] at h
      split at h
      · cases h
      · rename_i k tmp ht
        split at h
        · rename_i hr
          exact (hs.resume ht hr).tryWait resume_stack h
        · cases h

/-! ## The count of a slot -/

/-- What the value of slot `k`, created with value `v`, says about the completed
calls; and with a positive value nobody is left behind the wait pointer. -/
structure Counted (v : BitVec 32) (k : Nat) (s : SemState T) : Prop where
  waits_le : s.waits k ≤ v.toNat + s.posts k
  value : (s.semarray k).value.toNat = (v.toNat + s.posts k - s.waits k) % 2 ^ 32
  wait : 0 < (s.semarray k).value → (s.semarray k).wait = none

theorem Counted.withQueue {v : BitVec 32} {j : Nat} {q : WaitQueue T}
    (hs : Counted v k s)
    (hw : j = k → 0 < (s.semarray k).value → q.wait = none) :
    Counted v k (s.withQueue j t q) := by
  by_cases hj : k = j
  · subst hj
    exact ⟨hs.waits_le, by simpa [SemState.withQueue] using hs.value,
      by simpa [SemState.withQueue] using hw rfl⟩
  · exact ⟨hs.waits_le, by simpa [SemState.withQueue, hj] using hs.value,
      by simpa [SemState.withQueue, hj] using hs.wait⟩

/-- A task sleeps only at value 0, and takes one from a positive value. -/
theorem Counted.tryWait {v : BitVec 32} {initTask : T} {j : Nat} (hs : Counted v k s)
    (h : s.tryWait initTask j t = some s') : Counted v k s' := by
  unfold SemState.tryWait at h
  split at h
  · rename_i hzero
    obtain ⟨q, -, rfl⟩ := Option.map_eq_some_iff.mp h
    exact hs.withQueue fun hj hpos => by subst hj; bv_omega
  · rename_i hpos
    obtain rfl := Option.some.inj h
    obtain ⟨hle, hval, hwait⟩ := hs
    by_cases hj : k = j
    · subst hj
      have hpos' : 0 < (s.semarray k).value := by bv_omega
      have hsub : ((s.semarray k).value - 1).toNat = (s.semarray k).value.toNat - 1 := by
        bv_omega
      have hnat : 0 < (s.semarray k).value.toNat := by bv_omega
      rw [hval] at hnat hsub
      refine ⟨?_, ?_, ?_⟩
      · simp only [update_self]
        omega
      · simp only [update_self, hsub]
        omega
      · simpa using fun _ => hwait hpos'
    · exact ⟨by simpa [hj] using hle, by simpa [hj] using hval, by simpa [hj] using hwait⟩

/-- A post adds one and leaves no task behind the wait pointer. -/
theorem Counted.sysSemPost {v : BitVec 32} {h : Option Nat} (hs : Counted v k s) :
    Counted v k (s.sysSemPost t h) := by
  unfold SemState.sysSemPost
  split
  · exact hs
  · rename_i j _
    obtain ⟨hle, hval, hwait⟩ := hs
    by_cases hj : k = j
    · subst hj
      refine ⟨?_, ?_, ?_⟩
      · simp only [SemState.withQueue, countPost, update_self]
        omega
      · have hadd : ((s.semarray k).value + 1).toNat
            = ((s.semarray k).value.toNat + 1) % 2 ^ 32 := by bv_omega
        simp only [SemState.withQueue, countPost, update_self, hadd, hval]
        omega
      · simp [SemState.withQueue]
    · refine Counted.withQueue ⟨?_, ?_, ?_⟩ fun e => absurd e.symm hj
      · simpa [countPost, hj] using hle
      · simpa [countPost, hj] using hval
      · simpa [countPost, hj] using hwait

theorem Counted.step {v : BitVec 32} {initTask : T} {a : Act T} (hs : Counted v k s)
    (h : s.step initTask a = some s') : Counted v k s' := by
  cases a with
  | wait t h' =>
      simp only [SemState.step, Option.ite_none_right_eq_some] at h
      obtain ⟨-, h⟩ := h
      unfold sysSemWait at h
      split at h
      · obtain rfl := Option.some.inj h
        exact hs
      · exact hs.tryWait h
  | post t h' =>
      simp only [SemState.step, Option.ite_none_right_eq_some] at h
      obtain ⟨-, h⟩ := h
      obtain rfl := Option.some.inj h
      exact hs.sysSemPost
  | resume t =>
      simp only [SemState.step] at h
      split at h
      · cases h
      · rename_i j tmp ht
        split at h
        · exact (hs.withQueue fun hj hpos => by
            subst hj; exact hs.wait hpos).tryWait h
        · cases h

/-- A handle of a slot with its own number keeps designating that slot. -/
theorem step_sem {initTask : T} {a : Act T} (h : s.step initTask a = some s') (i : Nat) :
    (s'.semarray i).sem = (s.semarray i).sem := by
  have hq : ∀ (s : SemState T) (j : Nat) (t : T) (q : WaitQueue T),
      ((s.withQueue j t q).semarray i).sem = (s.semarray i).sem := by
    intro s j t q
    by_cases hij : i = j
    · subst hij; simp [SemState.withQueue]
    · simp [SemState.withQueue, hij]
  have htry : ∀ {s s' : SemState T} {j : Nat} {t : T},
      s.tryWait initTask j t = some s' → (s'.semarray i).sem = (s.semarray i).sem := by
    intro s s' j t h
    unfold SemState.tryWait at h
    split at h
    · obtain ⟨q, -, rfl⟩ := Option.map_eq_some_iff.mp h
      exact hq ..
    · obtain rfl := Option.some.inj h
      by_cases hij : i = j
      · subst hij; simp
      · simp [hij]
  cases a with
  | wait t h' =>
      simp only [SemState.step, Option.ite_none_right_eq_some, sysSemWait] at h
      obtain ⟨-, h⟩ := h
      split at h
      · obtain rfl := Option.some.inj h
        rfl
      · exact htry h
  | post t h' =>
      simp only [SemState.step, Option.ite_none_right_eq_some, Option.some.injEq,
        SemState.sysSemPost] at h
      obtain ⟨-, rfl⟩ := h
      split
      · rfl
      · rename_i j _
        rw [hq]
        by_cases hij : i = j
        · subst hij; simp [countPost]
        · simp [countPost, hij]
  | resume t =>
      simp only [SemState.step] at h
      split at h
      · cases h
      · split at h
        · rw [htry h, hq]
        · cases h

end SemState

/-- What a creating `sys_sem_open` puts into its slot. -/
theorem sysSemOpen_created {T : Type} {a a' : SemArray T} {name : Option (Nat → UInt8)}
    {oflag k : Nat} {v : BitVec 32} (h : sysSemOpen a name oflag v = (some k, a'))
    (hfree : (a k).sem = 0) (hlive : (a' k).sem ≠ 0) :
    k < SEM_NUM ∧ (a' k).sem = BitVec.ofNat 32 (k + 1) ∧ (a' k).value = v
      ∧ (a' k).wait = none := by
  cases name with
  | none => simp [sysSemOpen] at h
  | some name =>
      simp only [sysSemOpen] at h
      split at h
      · split at h
        · split at h
          · rename_i inull hnull
            obtain ⟨hk, rfl⟩ := Prod.mk.injEq .. |>.mp h
            obtain rfl := Option.some.inj hk
            exact ⟨findSlot_lt hnull, by simp⟩
          · cases h
        · cases h
      · rename_i i _
        split at h
        · cases h
        · -- an open of an existing name leaves `sem` as it is
          obtain ⟨hk, rfl⟩ := Prod.mk.injEq .. |>.mp h
          obtain rfl := Option.some.inj hk
          simp [hfree] at hlive

variable {T : Type} [DecidableEq T]

/-- **A counting semaphore.** A slot created with value `v` counts the posts and
the completed waits of any number of tasks in any order, never lets more waits
complete than `v` and the posts allow, and with a positive value has nobody
asleep but the tasks that a runnable task is about to wake on its way out of
`sleep_on`. -/
theorem semaphore_counts (initTask : T) {a a' : SemArray T} (ha : SemHistory a)
    {name : Option (Nat → UInt8)} {oflag k : Nat} {v : BitVec 32}
    (hopen : sysSemOpen a name oflag v = (some k, a')) (hfree : (a k).sem = 0)
    (hlive : (a' k).sem ≠ 0) (state : T → TaskState) {s : SemState T}
    (h : Reach (SemState.step initTask) Free (SemState.start a' state) s) :
    cursem s.semarray k = some k
      ∧ (s.semarray k).value.toNat = (v.toNat + s.posts k - s.waits k) % 2 ^ 32
      ∧ s.waits k ≤ v.toNat + s.posts k
      ∧ (0 < (s.semarray k).value → (s.semarray k).wait = none
          ∧ ∀ t, (s.queue k).Asleep t →
            ∃ r, (s.queue k).Woken r
              ∧ Relation.TransGen (Link (s.queue k).saved) r t) := by
  obtain ⟨hk, hsem, hval, hwait⟩ := sysSemOpen_created hopen hfree hlive
  have ha' : SemHistory a' := by
    have := ha.opened name oflag v
    rwa [hopen] at this
  let I (s : SemState T) : Prop :=
    s.QueuesOk ∧ s.Counted v k ∧ ∀ i, (s.semarray i).sem = (a' i).sem
  have hinv : I s := by
    refine h.invariant (I := I) ⟨fun j => ?_, ⟨?_, ?_, ?_⟩, fun i => rfl⟩
      fun s b s' ⟨hq, hc, hid⟩ _ hs =>
        ⟨hq.step hs, hc.step hs, fun i => (SemState.step_sem hs i).trans (hid i)⟩
    · exact WaitQueue.ok_empty (ha'.wait j) fun _ => rfl
    · exact Nat.zero_le _
    · simp [SemState.start, hval, Nat.mod_eq_of_lt v.isLt]
    · exact fun _ => hwait
  obtain ⟨hq, hc, hid⟩ := hinv
  refine ⟨?_, hc.value, hc.waits_le, fun hpos => ⟨hc.wait hpos, fun t ht => ?_⟩⟩
  · refine cursem_self (fun i hi => ?_) hk ((hid k).trans hsem)
    rw [hid i]
    exact ha'.ids i hi
  · exact (hq k).woken_of_wait_none (hc.wait hpos) ht

/-- The static initialiser of `semarray`. -/
def semarrayBoot : SemArray T := fun _ =>
  { sem := 0, name := Vector.replicate NAME_SIZE 0, value := 0, wait := none, cont := 0 }

/-- The table with one semaphore, named "m", of value 1. -/
def semarrayOne : SemArray Nat :=
  (sysSemOpen (sysInisem semarrayBoot) (some fun i => if i = 0 then 0x6d else 0) O_CREAT 1).2

/-- Three tasks on it: one takes it, two sleep, and a post has woken one of them. -/
theorem semaphore_counts_contended :
    ∃ s : SemState Nat,
      exec (SemState.step 0) (SemState.start semarrayOne fun _ => .running)
          [.wait 1 (some 0), .wait 2 (some 0), .wait 3 (some 0), .post 1 (some 0)] = some s
        ∧ (s.semarray 0).value = 1
        ∧ ∃ r, (s.queue 0).Woken r ∧ Relation.TransGen (Link (s.queue 0).saved) r 2 := by
  have hs : exec (SemState.step 0) (SemState.start semarrayOne fun _ => .running)
      [.wait 1 (some 0), .wait 2 (some 0), .wait 3 (some 0), .post 1 (some 0)] = some _ := rfl
  have hopen : sysSemOpen (sysInisem semarrayBoot)
      (some fun i => if i = 0 then 0x6d else 0) O_CREAT 1 = (some 0, semarrayOne) := rfl
  refine ⟨_, hs, by decide, ?_⟩
  exact ((semaphore_counts 0 (.ini semarrayBoot) hopen rfl (by decide) _
    (exec_reach hs)).2.2.2 (by decide)).2 2 (by decide)

end Linux011
