import Linux011.Runs
import Mathlib.Data.Set.Insert
import Mathlib.Logic.Function.Basic

/-!
# The ids of a task

`sys_setreuid` and `sys_setregid` of `kernel/sys.c`, with the ids that `fork` hands on and those
that `do_execve` takes from the file. What a task that is not the superuser can make of its ids by
the calls alone is known exactly; over all runs, the tasks of a session stay with the users that
they have, up to the files with `S_ISUID` that they execute.

For one task the calls are followed first: `Within` says what they can make of its six ids, and
`call_within` that no call goes beyond this unless the task is the superuser. The other direction
gives the calls that get there (`setreuid_reaches`, `setregid_reaches`), one after the other, so
that the set of ids that can be reached is exact. The arguments are `int`s that are stored in an
`unsigned short`, where an id is only set when it is the same number before. For many tasks the
invariant is `Confined`: a child has the ids of its father, and a successful `execve` is the one
way to new ones, through the bits of a file; which files a session may execute is the condition
of the runs.
-/

namespace Linux011

open Function Runs

namespace Ids

variable {T : Type*}

/-! ## `sys.c` -/

structure Task where
  uid : UInt16
  euid : UInt16
  suid : UInt16
  gid : UInt16
  egid : UInt16
  sgid : UInt16

def EPERM : Int := 1

/-- `suser()` -/
def Task.suser (c : Task) : Prop := c.euid = 0

instance (c : Task) : Decidable c.suser := inferInstanceAs (Decidable (_ = _))

/-- An `unsigned short` is compared with an `int`. -/
def Same (id : UInt16) (n : Int32) : Prop := (id.toNat : Int) = n.toInt

instance (id : UInt16) (n : Int32) : Decidable (Same id n) := inferInstanceAs (Decidable (_ = _))

/-- An `int` is stored in an `unsigned short`. -/
def short (n : Int32) : UInt16 := n.toUInt32.toUInt16

/-- `sys_setregid`: the result, and the task behind it. -/
def sysSetregid (c : Task) (rgid egid : Int32) : Int × Task :=
  if rgid > 0 ∧ ¬(Same c.gid rgid ∨ c.suser) then (-EPERM, c)
  else
    let c := if rgid > 0 then { c with gid := short rgid } else c
    if egid > 0 then
      if Same c.gid egid ∨ Same c.egid egid ∨ Same c.sgid egid ∨ c.suser then
        (0, { c with egid := short egid })
      else (-EPERM, c)
    else (0, c)

def sysSetgid (c : Task) (gid : Int32) : Int × Task := sysSetregid c gid gid

/-- `sys_setreuid` -/
def sysSetreuid (c : Task) (ruid euid : Int32) : Int × Task :=
  let old_ruid := c.uid
  if ruid > 0 ∧ ¬(Same c.euid ruid ∨ Same old_ruid ruid ∨ c.suser) then (-EPERM, c)
  else
    let c := if ruid > 0 then { c with uid := short ruid } else c
    if euid > 0 then
      if Same old_ruid euid ∨ Same c.euid euid ∨ c.suser then (0, { c with euid := short euid })
      else (-EPERM, { c with uid := old_ruid })
    else (0, c)

def sysSetuid (c : Task) (uid : Int32) : Int × Task := sysSetreuid c uid uid

inductive Call where
  | setregid (rgid egid : Int32)
  | setgid (gid : Int32)
  | setreuid (ruid euid : Int32)
  | setuid (uid : Int32)

def Task.call (c : Task) : Call → Task
  | .setregid rgid egid => (sysSetregid c rgid egid).2
  | .setgid gid => (sysSetgid c gid).2
  | .setreuid ruid euid => (sysSetreuid c ruid euid).2
  | .setuid uid => (sysSetuid c uid).2

/-! ## Many tasks -/

def S_ISUID : UInt16 := 0o4000
def S_ISGID : UInt16 := 0o2000

/-- What `do_execve` looks at in the inode of a file. -/
structure Inode where
  i_mode : UInt16
  i_uid : UInt16
  i_gid : UInt8

/-- The ids behind a successful `do_execve`; behind one that fails they are as before. -/
def Task.execve (c : Task) (inode : Inode) : Task :=
  let e_uid := if inode.i_mode &&& S_ISUID ≠ 0 then inode.i_uid else c.euid
  let e_gid := if inode.i_mode &&& S_ISGID ≠ 0 then inode.i_gid.toUInt16 else c.egid
  { c with euid := e_uid, egid := e_gid }

structure State (T : Type*) where
  task : T → Option Task
  /-- the tasks that are looked at, and all that descend from them -/
  session : T → Bool

inductive Act (T : Type*) where
  | call (t : T) (k : Call)
  | execve (t : T) (inode : Inode)
  | fork (father t : T)
  | release (t : T)

section Step

variable [DecidableEq T]

def step (s : State T) : Act T → Option (State T)
  | .call t k =>
      (s.task t).map fun c => { s with task := update s.task t (some (c.call k)) }
  | .execve t inode =>
      (s.task t).map fun c => { s with task := update s.task t (some (c.execve inode)) }
  | .fork father t =>
      if (s.task t).isSome then none
      else (s.task father).map fun c =>
        ⟨update s.task t (some c), update s.session t (s.session father)⟩
  | .release t => some { s with task := update s.task t none }

end Step

/-- A task of the session executes the programs of others with its own ids only. -/
def Trusted (users groups : Set UInt16) (s : State T) : Act T → Prop
  | .execve t inode => s.session t = true →
      (inode.i_mode &&& S_ISUID ≠ 0 → inode.i_uid ∈ users) ∧
        (inode.i_mode &&& S_ISGID ≠ 0 → inode.i_gid.toUInt16 ∈ groups)
  | _ => True

/-- The task is one of the users, in their groups. -/
structure Task.Of (users groups : Set UInt16) (c : Task) : Prop where
  uid : c.uid ∈ users
  euid : c.euid ∈ users
  gid : c.gid ∈ groups
  egid : c.egid ∈ groups
  sgid : c.sgid ∈ groups

def Confined (users groups : Set UInt16) (s : State T) : Prop :=
  ∀ t c, s.task t = some c → s.session t = true → c.Of users groups

/-- What the calls can make of the ids of `c`. -/
structure Within (c c' : Task) : Prop where
  uid : c'.uid = c.uid ∨ c'.uid = c.euid
  euid : c'.euid = c.euid ∨ c'.euid = c.uid
  user : c'.euid ≠ 0
  suid : c'.suid = c.suid
  gid : c'.gid = c.gid
  egid : c'.egid = c.egid ∨ c'.egid ≠ 0 ∧ (c'.egid = c.gid ∨ c'.egid = c.sgid)
  sgid : c'.sgid = c.sgid

variable {c c' c₁ : Task} {id : UInt16} {n : Int32} {users groups : Set UInt16}

/-! ## Short ids -/

theorem short_of_same (h : Same id n) : short n = id := by
  have hid := id.toNat_lt
  have hn : (n.toBitVec.toNat : Int) = id.toNat := by
    have hint : n.toBitVec.toInt = id.toNat := h.symm
    rw [BitVec.toInt_eq_toNat_cond] at hint
    have hlt := n.toBitVec.isLt
    split at hint <;> omega
  apply UInt16.toNat_inj.mp
  show (n.toUInt32.toUInt16).toNat = id.toNat
  rw [UInt32.toNat_toUInt16]
  show n.toBitVec.toNat % 2 ^ 16 = id.toNat
  omega

theorem pos_of_same (h : Same id n) (hn : n > 0) : id ≠ 0 := by
  rintro rfl
  have hpos : (0 : Int) < n.toInt := Int32.lt_iff_toInt_lt.mp hn
  rw [← h] at hpos
  exact absurd hpos (by decide)

/-- An id as an argument. -/
def word (id : UInt16) : Int32 := Int32.ofNat id.toNat

theorem toInt_word (id : UInt16) : (word id).toInt = id.toNat :=
  Int32.toInt_ofNat_of_lt (Nat.lt_trans id.toNat_lt (by decide))

theorem same_word (id : UInt16) : Same id (word id) := (toInt_word id).symm

theorem word_pos : word id > 0 ↔ id ≠ 0 := by
  have hpos : word id > 0 ↔ (0 : Int) < id.toNat := by
    rw [← toInt_word]
    exact Int32.lt_iff_toInt_lt
  rw [hpos, ne_eq, ← UInt16.toNat_inj]
  have hzero : (0 : UInt16).toNat = 0 := rfl
  rw [hzero]
  omega

/-! ## The calls of one task -/

theorem setregid_spec (hc : ¬c.suser) (rgid egid : Int32) :
    ∃ e, (e = c.egid ∨ e ≠ 0 ∧ (e = c.gid ∨ e = c.sgid)) ∧
      (sysSetregid c rgid egid).2 = { c with egid := e } := by
  unfold sysSetregid
  split
  · exact ⟨c.egid, .inl rfl, rfl⟩
  rename_i hrgid
  have hsame : (if rgid > 0 then { c with gid := short rgid } else c) = c := by
    split
    · rename_i hpos
      have hgid : Same c.gid rgid := by
        by_contra hne
        exact hrgid ⟨hpos, fun h => h.elim hne hc⟩
      rw [short_of_same hgid]
    · rfl
  dsimp only
  rw [hsame]
  split
  · rename_i hpos
    split
    · rename_i hid
      rcases hid with h | h | h | h
      · exact ⟨c.gid, .inr ⟨pos_of_same h hpos, .inl rfl⟩, by rw [short_of_same h]⟩
      · exact ⟨c.egid, .inl rfl, by rw [short_of_same h]⟩
      · exact ⟨c.sgid, .inr ⟨pos_of_same h hpos, .inr rfl⟩, by rw [short_of_same h]⟩
      · exact absurd h hc
    · exact ⟨c.egid, .inl rfl, rfl⟩
  · exact ⟨c.egid, .inl rfl, rfl⟩

theorem setreuid_spec (hc : ¬c.suser) (ruid euid : Int32) :
    ∃ u e, (u = c.uid ∨ u = c.euid) ∧ (e = c.euid ∨ e ≠ 0 ∧ e = c.uid) ∧
      (sysSetreuid c ruid euid).2 = { c with uid := u, euid := e } := by
  unfold sysSetreuid
  dsimp only
  split
  · exact ⟨c.uid, c.euid, .inl rfl, .inl rfl, rfl⟩
  rename_i hruid
  obtain ⟨u, hu, hset⟩ : ∃ u, (u = c.uid ∨ u = c.euid) ∧
      (if ruid > 0 then { c with uid := short ruid } else c) = { c with uid := u } := by
    split
    · rename_i hpos
      have hid : Same c.euid ruid ∨ Same c.uid ruid ∨ c.suser := by
        by_contra hne
        exact hruid ⟨hpos, hne⟩
      rcases hid with h | h | h
      · exact ⟨c.euid, .inr rfl, by rw [short_of_same h]⟩
      · exact ⟨c.uid, .inl rfl, by rw [short_of_same h]⟩
      · exact absurd h hc
    · exact ⟨c.uid, .inl rfl, rfl⟩
  rw [hset]
  split
  · rename_i hpos
    split
    · rename_i hid
      rcases hid with h | h | h
      · exact ⟨u, c.uid, hu, .inr ⟨pos_of_same h hpos, rfl⟩, by rw [short_of_same h]⟩
      · exact ⟨u, c.euid, hu, .inl rfl, by rw [short_of_same h]⟩
      · exact absurd h hc
    · exact ⟨c.uid, c.euid, .inl rfl, .inl rfl, rfl⟩
  · exact ⟨u, c.euid, hu, .inl rfl, rfl⟩

/-- One call leaves a task that is not the superuser within its ids. -/
theorem call_within (hc : ¬c.suser) (k : Call) : Within c (c.call k) := by
  have hgroup : ∀ rgid egid, Within c (sysSetregid c rgid egid).2 := fun rgid egid => by
    obtain ⟨e, he, hset⟩ := setregid_spec hc rgid egid
    rw [hset]
    exact ⟨.inl rfl, .inl rfl, hc, rfl, rfl, he, rfl⟩
  have huser : ∀ ruid euid, Within c (sysSetreuid c ruid euid).2 := fun ruid euid => by
    obtain ⟨u, e, hu, he, hset⟩ := setreuid_spec hc ruid euid
    rw [hset]
    refine ⟨hu, he.imp_right And.right, ?_, rfl, rfl, .inl rfl, rfl⟩
    rcases he with rfl | ⟨hpos, -⟩
    · exact hc
    · exact hpos
  cases k with
  | setregid rgid egid => exact hgroup rgid egid
  | setgid gid => exact hgroup gid gid
  | setreuid ruid euid => exact huser ruid euid
  | setuid uid => exact huser uid uid

theorem Within.trans (h : Within c c₁) (h' : Within c₁ c') : Within c c' where
  uid := by
    rcases h'.uid with h' | h' <;> rw [h']
    · exact h.uid
    · exact h.euid.symm
  euid := by
    rcases h'.euid with h' | h' <;> rw [h']
    · exact h.euid
    · exact h.uid.symm
  user := h'.user
  suid := h'.suid.trans h.suid
  gid := h'.gid.trans h.gid
  egid := by
    rcases h'.egid with h' | ⟨hpos, h'⟩
    · rw [h']
      exact h.egid
    · rw [h.gid, h.sgid] at h'
      exact .inr ⟨hpos, h'⟩
  sgid := h'.sgid.trans h.sgid

/-- A call of `setreuid` takes any two of the ids, but for a 0. -/
theorem setreuid_reaches {u e : UInt16} (hc : c.euid ≠ 0) (hu : u = c.uid ∨ u = c.euid)
    (he : e = c.euid ∨ e = c.uid) (hpos : e ≠ 0) :
    c.call (.setreuid (word u) (word e)) = { c with uid := u, euid := e } := by
  have hruid : ¬(word u > 0 ∧ ¬(Same c.euid (word u) ∨ Same c.uid (word u) ∨ c.suser)) := by
    rintro ⟨-, hne⟩
    rcases hu with rfl | rfl
    · exact hne (.inr (.inl (same_word _)))
    · exact hne (.inl (same_word _))
  have hset : (if word u > 0 then { c with uid := short (word u) } else c) =
      { c with uid := u } := by
    split
    · rw [short_of_same (same_word u)]
    · rename_i hzero
      rcases hu with rfl | rfl
      · rfl
      · exact absurd (word_pos.mpr hc) hzero
  have heuid : Same c.uid (word e) ∨ Same c.euid (word e) ∨ Task.suser { c with uid := u } := by
    rcases he with rfl | rfl
    · exact .inr (.inl (same_word _))
    · exact .inl (same_word _)
  show (sysSetreuid c (word u) (word e)).2 = _
  unfold sysSetreuid
  dsimp only
  rw [if_neg hruid, hset, if_pos (word_pos.mpr hpos)]
  dsimp only
  rw [if_pos heuid, short_of_same (same_word e)]

theorem setregid_reaches {e : UInt16} (he : e = c.egid ∨ e ≠ 0 ∧ (e = c.gid ∨ e = c.sgid)) :
    c.call (.setregid 0 (word e)) = { c with egid := e } := by
  have hnone : ¬(0 : Int32) > 0 := by decide
  show (sysSetregid c 0 (word e)).2 = _
  unfold sysSetregid
  rw [if_neg fun h => hnone h.1, if_neg hnone]
  dsimp only
  split
  · have hegid : Same c.gid (word e) ∨ Same c.egid (word e) ∨ Same c.sgid (word e) ∨ c.suser := by
      rcases he with rfl | ⟨-, rfl | rfl⟩
      · exact .inr (.inl (same_word _))
      · exact .inl (same_word _)
      · exact .inr (.inr (.inl (same_word _)))
    rw [if_pos hegid, short_of_same (same_word e)]
  · rename_i hzero
    rcases he with rfl | ⟨hpos, -⟩
    · rfl
    · exact absurd (word_pos.mpr hpos) hzero

/-- The ids that a task which is not the superuser gets by calls, in any number and
order, are exactly those within its own: each of the two users is one of the two that it
has, the effective one is not 0, and the effective group is the old one or another of
its groups that is not 0. -/
theorem ids_reachable (hc : c.euid ≠ 0) :
    Reach (fun c k => some (Task.call c k)) Free c c' ↔ Within c c' := by
  constructor
  · intro h
    refine h.invariant (I := Within c) ⟨.inl rfl, .inl rfl, hc, rfl, rfl, .inl rfl, rfl⟩
      fun c₁ k c₂ hwithin _ hstep => ?_
    obtain rfl := Option.some.inj hstep
    exact hwithin.trans (call_within hwithin.user k)
  · intro h
    have huser := setreuid_reaches hc h.uid h.euid h.user
    have hgroup := setregid_reaches (c := { c with uid := c'.uid, euid := c'.euid }) h.egid
    have hend : c' = { c with uid := c'.uid, euid := c'.euid, egid := c'.egid } := by
      cases c'
      obtain ⟨-, -, -, hsuid, hgid, -, hsgid⟩ := h
      simp only at hsuid hgid hsgid
      rw [← hsuid, ← hgid, ← hsgid]
    rw [hend]
    exact (Reach.one trivial (congrArg some huser)).next trivial (congrArg some hgroup)

/-- The ids of somebody who has the superuser as the real user. -/
def wasRoot : Task := ⟨0, 5, 0, 7, 7, 7⟩

/-- The effective id is not to be exchanged with a real id of 0. -/
theorem ids_reachable_root : ¬Reach (fun c k => some (Task.call c k)) Free wasRoot
    { wasRoot with uid := 5, euid := 0 } := by
  intro h
  have hwithin := (ids_reachable (by decide)).mp h
  exact hwithin.user rfl

/-! ## Runs of many tasks -/

theorem call_of (hzero : 0 ∉ users) (h : c.Of users groups) (k : Call) :
    (c.call k).Of users groups := by
  have hc : ¬c.suser := fun hroot => hzero (hroot ▸ h.euid)
  have hwithin := call_within hc k
  exact {
    uid := by rcases hwithin.uid with h' | h' <;> rw [h'] <;> [exact h.uid; exact h.euid]
    euid := by rcases hwithin.euid with h' | h' <;> rw [h'] <;> [exact h.euid; exact h.uid]
    gid := hwithin.gid ▸ h.gid
    egid := by
      rcases hwithin.egid with h' | ⟨-, h' | h'⟩ <;> rw [h'] <;>
        [exact h.egid; exact h.gid; exact h.sgid]
    sgid := hwithin.sgid ▸ h.sgid }

theorem execve_of (h : c.Of users groups) {inode : Inode}
    (huser : inode.i_mode &&& S_ISUID ≠ 0 → inode.i_uid ∈ users)
    (hgroup : inode.i_mode &&& S_ISGID ≠ 0 → inode.i_gid.toUInt16 ∈ groups) :
    (c.execve inode).Of users groups where
  uid := h.uid
  euid := by
    show (if inode.i_mode &&& S_ISUID ≠ 0 then inode.i_uid else c.euid) ∈ users
    split
    · exact huser ‹_›
    · exact h.euid
  gid := h.gid
  egid := by
    show (if inode.i_mode &&& S_ISGID ≠ 0 then inode.i_gid.toUInt16 else c.egid) ∈ groups
    split
    · exact hgroup ‹_›
    · exact h.egid
  sgid := h.sgid

section Runs

variable [DecidableEq T] {s s' s₀ : State T} {t : T}

theorem Confined.put {o : Option Task} {b : Bool} (h : Confined users groups s)
    (hc : ∀ c, o = some c → b = true → c.Of users groups) :
    Confined users groups ⟨update s.task t o, update s.session t b⟩ := by
  intro t' c' htask hsession
  dsimp only at htask hsession
  by_cases ht : t' = t
  · subst ht
    rw [update_self] at htask hsession
    exact hc c' htask hsession
  · rw [update_of_ne ht] at htask hsession
    exact h t' c' htask hsession

theorem Confined.set {o : Option Task} (h : Confined users groups s)
    (hc : ∀ c, o = some c → s.session t = true → c.Of users groups) :
    Confined users groups { s with task := update s.task t o } := by
  have hput := h.put (t := t) hc
  rwa [update_eq_self] at hput

theorem Confined.step {a : Act T} (hzero : 0 ∉ users) (h : Confined users groups s)
    (hok : Trusted users groups s a) (hstep : step s a = some s') : Confined users groups s' := by
  cases a with
  | call t k =>
      obtain ⟨c, htask, rfl⟩ := Option.map_eq_some_iff.mp hstep
      refine h.set fun c' hc' hsession => ?_
      obtain rfl := Option.some.inj hc'
      exact call_of hzero (h t c htask hsession) k
  | execve t inode =>
      obtain ⟨c, htask, rfl⟩ := Option.map_eq_some_iff.mp hstep
      refine h.set fun c' hc' hsession => ?_
      obtain rfl := Option.some.inj hc'
      exact execve_of (h t c htask hsession) (hok hsession).1 (hok hsession).2
  | fork father t =>
      obtain ⟨-, hstep⟩ := Option.ite_none_left_eq_some.mp hstep
      obtain ⟨c, htask, rfl⟩ := Option.map_eq_some_iff.mp hstep
      refine h.put fun c' hc' hsession => ?_
      obtain rfl := Option.some.inj hc'
      exact h father c htask hsession
  | release t =>
      obtain rfl := Option.some.inj hstep
      exact h.set fun c' hc' _ => by cases hc'

/-- In every run the tasks of a session and all that descend from them stay with their users and
groups, and none is the superuser, whatever the other tasks do. -/
theorem session_confined (hzero : 0 ∉ users) (hstart : Confined users groups s₀)
    (h : Reach Ids.step (Trusted users groups) s₀ s) : Confined users groups s ∧
      ∀ t c, s.task t = some c → s.session t = true → ¬c.suser := by
  have hconfined : Confined users groups s :=
    h.invariant hstart fun _ _ _ h hok hstep => h.step hzero hok hstep
  exact ⟨hconfined, fun t c htask hsession hroot =>
    hzero (hroot ▸ (hconfined t c htask hsession).euid)⟩

end Runs

/-- A session of one task. -/
def alone : State Bool where
  task t := if t then none else some ⟨5, 5, 5, 7, 7, 7⟩
  session t := !t

/-- Its child executes a file with `S_ISUID` of the same user. -/
theorem session_confined_child : ∃ s : State Bool,
    exec step alone [.fork false true, .execve true ⟨0o4755, 5, 0⟩] = some s ∧
    s.session true = true ∧
    Confined {5} {7} s ∧ ∀ t c, s.task t = some c → s.session t = true → ¬c.suser := by
  have hstart : Confined {5} {7} alone := by
    intro t c htask _
    cases t with
    | true => cases htask
    | false =>
        obtain rfl := Option.some.inj htask
        exact ⟨rfl, rfl, rfl, rfl, rfl⟩
  obtain ⟨s₁, hfork, hsession₁⟩ : ∃ s₁, step alone (.fork false true) = some s₁ ∧
      s₁.session true = true ∧ (s₁.task true).isSome = true := ⟨_, rfl, rfl, rfl⟩
  obtain ⟨c, hc⟩ := Option.isSome_iff_exists.mp hsession₁.2
  have hexecve : step s₁ (.execve true ⟨0o4755, 5, 0⟩) =
      some { s₁ with task := update s₁.task true (some (c.execve ⟨0o4755, 5, 0⟩)) } := by
    simp only [step, hc, Option.map_some]
  have htrusted : Trusted {5} {7} s₁ (.execve true ⟨0o4755, 5, 0⟩) := fun _ =>
    ⟨fun _ => rfl, fun h => absurd h (by decide)⟩
  have hforked : Trusted {5} {7} alone (.fork false true) := trivial
  have hzero : (0 : UInt16) ∉ ({5} : Set UInt16) := fun h =>
    absurd h (by decide : ¬(0 : UInt16) = 5)
  refine ⟨_, ?_, ?_, session_confined hzero hstart
    ((Reach.one hforked hfork).next htrusted hexecve)⟩
  · exact Option.bind_eq_some_iff.mpr ⟨s₁, hfork, by rw [exec, hexecve]; rfl⟩
  · exact hsession₁.1

end Ids

end Linux011
