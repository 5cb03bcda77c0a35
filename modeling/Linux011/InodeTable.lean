import Linux011.Runs
import Linux011.Tally

/-!
# The inode table

`get_empty_inode`, `iget` and `iput` of `fs/inode.c` with `new_inode` and `free_inode` of
`fs/bitmap.c`, called by any number of tasks. A step of a task ends at the latest where the
code may sleep: on a locked inode, in `bread` of `read_inode` and `write_inode`, in
`get_super`, in `truncate`, and in what a system call does between the calls.

The entries of directories are not part of the state: the number that a task reads from one
is an argument of `look`, and the link count that `read_inode` finds on the device is one of
the step that ends it. Pipes, and what the inodes say about their files, are left out.

`Effect` is the inversion of `step`, with one constructor for each way in which a step can change
the table or the maps; most steps only move a task on. The invariant `Keyed` has three parts. No
two entries with a device have one number; a number that is in the table, or that a task is going
to get, is allocated; and a task that is in `iget` and has looked at the whole table, or at a
part of it, has not passed its number. The last part is where the sleep of `get_empty_inode`
matters, since the source goes through the table only behind it. A number gets into the table in
two places, at the end of `iget` and of `new_inode`, and for the second it is new because the bit
of the map was clear. The condition `Kept` is about numbers outside of the table, in directories
and in the hands of tasks that sleep.
-/

namespace Linux011

open Function Runs Tally

namespace Inodes

def NR_INODE : Nat := 32
def ROOT_INO : Nat := 1

structure MInode where
  i_dev : Nat
  i_num : Nat
  i_count : Nat
  i_nlinks : UInt8
  i_dirt : Bool
  i_lock : Bool
  /-- the device that is mounted here -/
  i_mount : Option Nat

/-- `memset(inode,0,sizeof(*inode))`. -/
def MInode.zero : MInode := ⟨0, 0, 0, 0, false, false, none⟩

/-- An entry of the table. -/
abbrev Entry : Type := Fin NR_INODE

/-- The entry behind the last one is the first. -/
def Entry.next (last : Entry) : Entry :=
  ⟨(last.val + 1) % NR_INODE, Nat.mod_lt _ (Nat.zero_lt_of_lt last.isLt)⟩

/-- The caller of `get_empty_inode`. -/
inductive Caller where
  | iget
  | new_inode (dev : Nat)

/-- Where a task is; `e` is the entry that `get_empty_inode` has given to it. -/
inductive Pc where
  | user
  /-- `get_empty_inode` waits for the entry it has found -/
  | empty (caller : Caller) (i : Entry)
  /-- `get_empty_inode` writes the entry it has found -/
  | emptyWrite (caller : Caller) (i : Entry)
  /-- `iget` goes through the table -/
  | scan (e : Entry)
  /-- `iget` waits for an entry with the number -/
  | wait (e i : Entry)
  /-- `read_inode` in `iget` -/
  | read (e : Entry)
  /-- `new_inode` in `get_super` -/
  | alloc (dev : Nat) (e : Entry)
  /-- `iput` before `repeat`; `back` where `iget` goes on with the root of a mounted device -/
  | put (i : Entry) (back : Option Entry)
  /-- `write_inode` in `iput` -/
  | write (i : Entry) (back : Option Entry)
  /-- `truncate` in `iput` -/
  | trunc (i : Entry) (back : Option Entry)

structure Task where
  pc : Pc
  /-- the device and the number of an inode that the task is going to get -/
  pend : Option (Nat × Nat)
  /-- its references, of file descriptors and of `pwd`, `root` and `executable` -/
  held : List Entry

structure State (N : Nat) where
  inode_table : Entry → MInode
  last_inode : Entry
  /-- the bits of the inode maps -/
  imap : Nat → Nat → Bool
  s_ninodes : Nat → Nat
  task : Fin N → Task

inductive Act (N : Nat) where
  /-- a number is read from an entry of a directory -/
  | look (t : Fin N) (dev nr : Nat)
  | iget (t : Fin N)
  | new_inode (t : Fin N) (dev : Nat)
  | iput (t : Fin N) (i : Entry)
  /-- a system call sets the link count -/
  | links (t : Fin N) (i : Entry) (n : UInt8)
  /-- `sys_mount` or `sys_umount` -/
  | mount (t : Fin N) (i : Entry) (dev : Option Nat)
  /-- `i_count++`, for a child or another descriptor -/
  | share (t t' : Fin N) (i : Entry)
  /-- the task goes on; `n` is the link count on the device -/
  | go (t : Fin N) (n : UInt8)

variable {N : Nat}

def State.set (s : State N) (i : Entry) (inode : MInode) : State N :=
  { s with inode_table := update s.inode_table i inode }

def State.goto (s : State N) (t : Fin N) (task : Task) : State N :=
  { s with task := update s.task t task }

/-- The task goes on at another place. -/
def State.moveTo (s : State N) (t : Fin N) (pc : Pc) : State N :=
  s.goto t { s.task t with pc := pc }

/-! ## `get_empty_inode` -/

/-- The search of `get_empty_inode`, with `n` entries left and the last unused one seen. -/
def searchEmpty (inode_table : Entry → MInode) :
    Nat → Entry → Option Entry → Entry × Option Entry
  | 0, last, inode => (last, inode)
  | n + 1, last, inode =>
      let last := last.next
      if (inode_table last).i_count = 0 then
        if (inode_table last).i_dirt = false ∧ (inode_table last).i_lock = false then
          (last, some last)
        else searchEmpty inode_table n last (some last)
      else searchEmpty inode_table n last inode

def State.searchEmpty (s : State N) (t : Fin N) (caller : Caller) : Option (State N) :=
  match Inodes.searchEmpty s.inode_table NR_INODE s.last_inode none with
  | (last, some i) => some ({ s with last_inode := last }.moveTo t (.empty caller i))
  | (_, none) => none

/-- Where the caller of `get_empty_inode` goes on. -/
def Caller.pc (e : Entry) : Caller → Pc
  | .iget => .scan e
  | .new_inode dev => .alloc dev e

/-- The entry is not locked. -/
def State.gotEmpty (s : State N) (t : Fin N) (caller : Caller) (i : Entry) : Option (State N) :=
  if (s.inode_table i).i_dirt = true then
    some ((s.set i { s.inode_table i with i_lock := true }).moveTo t (.emptyWrite caller i))
  else if (s.inode_table i).i_count ≠ 0 then s.searchEmpty t caller
  else some ((s.set i { MInode.zero with i_count := 1 }).moveTo t (caller.pc i))

/-- The end of `write_inode`. -/
def MInode.written (inode : MInode) : MInode :=
  if inode.i_dev = 0 then { inode with i_lock := false }
  else { inode with i_dirt := false, i_lock := false }

/-! ## `iget` -/

/-- The first entry with the number. -/
def findInode (inode_table : Entry → MInode) (dev nr : Nat) : Option Entry :=
  (List.finRange NR_INODE).find? fun i =>
    (inode_table i).i_dev = dev ∧ (inode_table i).i_num = nr

/-- `i_count++` for entry `i`. At a mount point `iget` puts it back and goes on with the root
of the device; else `iput(empty)`, whose `i_dev` is 0, gives up its count. -/
def State.hit (s : State N) (t : Fin N) (e i : Entry) : State N :=
  let inode := s.inode_table i
  let s := s.set i { inode with i_count := inode.i_count + 1 }
  match inode.i_mount with
  | some dev =>
      s.goto t { s.task t with pc := .put i (some e), pend := some (dev, ROOT_INO) }
  | none =>
      (s.set e { s.inode_table e with i_count := (s.inode_table e).i_count - 1 }).goto t
        ⟨.user, none, i :: (s.task t).held⟩

def State.scan (s : State N) (t : Fin N) (e : Entry) (dev nr : Nat) : State N :=
  match findInode s.inode_table dev nr with
  | some i => if (s.inode_table i).i_lock = true then s.moveTo t (.wait e i) else s.hit t e i
  | none =>
      (s.set e { s.inode_table e with i_dev := dev, i_num := nr, i_lock := true }).moveTo t
        (.read e)

/-! ## `new_inode` -/

/-- The first free number. -/
def findFree (imap : Nat → Bool) (s_ninodes : Nat) : Option Nat :=
  (List.range (s_ninodes + 1)).find? fun j => imap j = false

/-- The fields that `new_inode` sets. -/
def MInode.created (inode : MInode) (dev j : Nat) : MInode :=
  { inode with i_count := 1, i_nlinks := 1, i_dev := dev, i_dirt := true, i_num := j }

def State.alloc (s : State N) (t : Fin N) (dev : Nat) (e : Entry) : State N :=
  match findFree (s.imap dev) (s.s_ninodes dev) with
  | some j =>
      ({ s with imap := update s.imap dev (update (s.imap dev) j true) }.set e
        ((s.inode_table e).created dev j)).goto t
        { s.task t with pc := .user, held := e :: (s.task t).held }
  | none =>
      (s.set e { s.inode_table e with i_count := (s.inode_table e).i_count - 1 }).moveTo t .user

/-! ## `iput` -/

/-- Where a task goes on after `iput`. -/
def backTo : Option Entry → Pc
  | none => .user
  | some e => .scan e

/-- `i_count--` and the end of `iput`. -/
def State.drop (s : State N) (t : Fin N) (i : Entry) (back : Option Entry) : State N :=
  (s.set i { s.inode_table i with i_count := (s.inode_table i).i_count - 1 }).moveTo t
    (backTo back)

/-- `iput` from `repeat` on; the entry is not locked. -/
def State.put (s : State N) (t : Fin N) (i : Entry) (back : Option Entry) : Option (State N) :=
  let inode := s.inode_table i
  if inode.i_count = 0 then none
  else if inode.i_dev = 0 ∨ inode.i_count > 1 then some (s.drop t i back)
  else if inode.i_nlinks = 0 then some (s.moveTo t (.trunc i back))
  else if inode.i_dirt = true then
    some ((s.set i { inode with i_lock := true }).moveTo t (.write i back))
  else some (s.drop t i back)

/-- The panics of `free_inode`: `trying to free inode with count` and `with links`. -/
def MInode.Panics (inode : MInode) : Prop := inode.i_count > 1 ∨ inode.i_nlinks ≠ 0

instance (inode : MInode) : Decidable inode.Panics :=
  inferInstanceAs (Decidable (_ ∨ _))

/-- `free_inode`. -/
def State.free (s : State N) (t : Fin N) (i : Entry) (back : Option Entry) : Option (State N) :=
  let inode := s.inode_table i
  if inode.i_dev = 0 then some ((s.set i .zero).moveTo t (backTo back))
  else if inode.Panics then none
  else
    some (({ s with
      imap := update s.imap inode.i_dev (update (s.imap inode.i_dev) inode.i_num false) }.set i
        .zero).moveTo t (backTo back))

/-! ## Steps -/

def State.go (s : State N) (t : Fin N) (n : UInt8) : Option (State N) :=
  match (s.task t).pc with
  | .user => none
  | .empty caller i =>
      if (s.inode_table i).i_lock = true then none else s.gotEmpty t caller i
  | .emptyWrite caller i =>
      some ((s.set i (s.inode_table i).written).moveTo t (.empty caller i))
  | .scan e =>
      match (s.task t).pend with
      | some (dev, nr) => some (s.scan t e dev nr)
      | none => none
  | .wait e i =>
      match (s.task t).pend with
      | some (dev, nr) =>
          if (s.inode_table i).i_lock = true then none
          else if (s.inode_table i).i_dev = dev ∧ (s.inode_table i).i_num = nr then
            some (s.hit t e i)
          else some (s.scan t e dev nr)
      | none => none
  | .read e =>
      some ((s.set e { s.inode_table e with i_nlinks := n, i_lock := false }).goto t
        ⟨.user, none, e :: (s.task t).held⟩)
  | .alloc dev e => some (s.alloc t dev e)
  | .put i back => if (s.inode_table i).i_lock = true then none else s.put t i back
  | .write i back => some ((s.set i (s.inode_table i).written).moveTo t (.put i back))
  | .trunc i back => s.free t i back

def step (s : State N) : Act N → Option (State N)
  | .look t dev nr =>
      match (s.task t).pc with
      | .user => if dev = 0 then none else some (s.goto t { s.task t with pend := some (dev, nr) })
      | _ => none
  | .iget t =>
      match (s.task t).pc with
      | .user => if (s.task t).pend.isSome then s.searchEmpty t .iget else none
      | _ => none
  | .new_inode t dev =>
      match (s.task t).pc with
      | .user => if dev = 0 then none else s.searchEmpty t (.new_inode dev)
      | _ => none
  | .iput t i =>
      match (s.task t).pc with
      | .user =>
          if i ∈ (s.task t).held then
            some (s.goto t
              { s.task t with pc := .put i none, held := (s.task t).held.erase i })
          else none
      | _ => none
  | .links t i n =>
      if i ∈ (s.task t).held then
        some (s.set i { s.inode_table i with i_nlinks := n, i_dirt := true })
      else none
  | .mount t i dev =>
      if i ∈ (s.task t).held ∧ dev ≠ some 0 then
        some (s.set i { s.inode_table i with i_mount := dev })
      else none
  | .share t t' i =>
      if i ∈ (s.task t).held then
        some ((s.set i
          { s.inode_table i with i_count := (s.inode_table i).i_count + 1 }).goto t'
            { s.task t' with held := i :: (s.task t').held })
      else none
  | .go t n => s.go t n

/-- The table after the boot, with any inode maps. -/
def boot (N : Nat) (imap : Nat → Nat → Bool) (s_ninodes : Nat → Nat) : State N where
  inode_table := fun _ => .zero
  last_inode := ⟨0, Nat.zero_lt_succ 31⟩
  imap := imap
  s_ninodes := s_ninodes
  task := fun _ => ⟨.user, none, []⟩

/-! ## What a step does -/

/-- The tests of `iget`. -/
def MInode.Is (inode : MInode) (dev nr : Nat) : Prop := inode.i_dev = dev ∧ inode.i_num = nr

/-- The entries that `iget` and `new_inode` have for themselves. -/
def Pc.Owns (e : Entry) : Pc → Prop
  | .scan e' | .wait e' _ | .alloc _ e' => e' = e
  | .put _ back | .write _ back | .trunc _ back => back = some e
  | _ => False

/-- One reference to entry `i`, of a task that is at entry `e`. -/
def one (i e : Entry) : Nat := if e = i then 1 else 0

def Pc.refs (i : Entry) : Pc → Nat
  | .scan e | .wait e _ | .read e | .alloc _ e => one i e
  | .put j back | .write j back | .trunc j back => one i j + back.elim 0 (one i)
  | _ => 0

/-- The references of a task to entry `i`. -/
def Task.refs (i : Entry) (x : Task) : Nat := x.held.count i + x.pc.refs i

/-- `iget` is in the table. -/
def Pc.Scans (e : Entry) (pc : Pc) : Prop := pc = .scan e ∨ ∃ i, pc = .wait e i

/-- An entry that differs in nothing but the link count, the marks and the mount. -/
structure Alike (inode inode' : MInode) : Prop where
  i_dev : inode'.i_dev = inode.i_dev
  i_num : inode'.i_num = inode.i_num
  i_count : inode'.i_count = inode.i_count

/-- What a task may do to a link count and a mount. -/
structure Marked (s : State N) (t : Fin N) (i : Entry) (inode : MInode) : Prop where
  alike : Alike (s.inode_table i) inode
  i_nlinks : inode.i_nlinks = (s.inode_table i).i_nlinks ∨ i ∈ (s.task t).held ∨
    (s.task t).pc = .read i
  i_mount : inode.i_mount = (s.inode_table i).i_mount

/-- What a step does, with one constructor for each way to change the table or the maps. -/
inductive Effect (s : State N) : Act N → State N → Prop where
  | look (t : Fin N) (dev nr : Nat) (pc : (s.task t).pc = .user) (dev_ne : dev ≠ 0) :
      Effect s (.look t dev nr) (s.goto t { s.task t with pend := some (dev, nr) })
  | search (a : Act N) (t : Fin N) (caller : Caller) (i last : Entry)
      (pc : (s.task t).pc = .user ∨ ∃ caller i, (s.task t).pc = .empty caller i) :
      Effect s a ({ s with last_inode := last }.moveTo t (.empty caller i))
  | iput (t : Fin N) (i : Entry) (pc : (s.task t).pc = .user) (held : i ∈ (s.task t).held) :
      Effect s (.iput t i)
        (s.goto t { s.task t with pc := .put i none, held := (s.task t).held.erase i })
  | wait (t : Fin N) (n : UInt8) (e i : Entry) (pc : (s.task t).pc.Scans e) :
      Effect s (.go t n) (s.moveTo t (.wait e i))
  | trunc (t : Fin N) (n : UInt8) (i : Entry) (back : Option Entry)
      (pc : (s.task t).pc = .put i back)
      (i_count : (s.inode_table i).i_count = 1) (i_dev : (s.inode_table i).i_dev ≠ 0)
      (i_nlinks : (s.inode_table i).i_nlinks = 0) :
      Effect s (.go t n) (s.moveTo t (.trunc i back))
  | mark (a : Act N) (t : Fin N) (i : Entry) (inode : MInode) (task : Task)
      (marked : Marked s t i inode) (refs : ∀ j, task.refs j = (s.task t).refs j)
      (owns : ∀ e, task.pc.Owns e → (s.task t).pc.Owns e)
      (pend : task.pend = (s.task t).pend ∨ task.pend = none)
      (trunc : ∀ j back, task.pc = .trunc j back → (s.task t).pc = .trunc j back) :
      Effect s a ((s.set i inode).goto t task)
  | mount (t : Fin N) (i : Entry) (dev : Option Nat) (held : i ∈ (s.task t).held)
      (dev_ne : dev ≠ some 0) :
      Effect s (.mount t i dev) (s.set i { s.inode_table i with i_mount := dev })
  | share (t t' : Fin N) (i : Entry) (held : i ∈ (s.task t).held) :
      Effect s (.share t t' i) ((s.set i
        { s.inode_table i with i_count := (s.inode_table i).i_count + 1 }).goto t'
          { s.task t' with held := i :: (s.task t').held })
  | take (t : Fin N) (n : UInt8) (caller : Caller) (i : Entry)
      (pc : (s.task t).pc = .empty caller i) (i_count : (s.inode_table i).i_count = 0) :
      Effect s (.go t n)
        ((s.set i { MInode.zero with i_count := 1 }).moveTo t (caller.pc i))
  | bind (t : Fin N) (n : UInt8) (e : Entry) (dev nr : Nat) (pc : (s.task t).pc.Scans e)
      (pend : (s.task t).pend = some (dev, nr))
      (none : findInode s.inode_table dev nr = none) :
      Effect s (.go t n)
        ((s.set e { s.inode_table e with i_dev := dev, i_num := nr, i_lock := true }).moveTo t
          (.read e))
  | hit (t : Fin N) (n : UInt8) (e i : Entry) (dev nr : Nat) (pc : (s.task t).pc.Scans e)
      (pend : (s.task t).pend = some (dev, nr)) (is : (s.inode_table i).Is dev nr) :
      Effect s (.go t n) (s.hit t e i)
  | alloc (t : Fin N) (n : UInt8) (dev : Nat) (e : Entry) (pc : (s.task t).pc = .alloc dev e) :
      Effect s (.go t n) (s.alloc t dev e)
  | drop (t : Fin N) (n : UInt8) (i : Entry) (back : Option Entry)
      (pc : (s.task t).pc = .put i back) (i_count : (s.inode_table i).i_count ≠ 0) :
      Effect s (.go t n) (s.drop t i back)
  | free (t : Fin N) (n : UInt8) (i : Entry) (back : Option Entry) (s' : State N)
      (pc : (s.task t).pc = .trunc i back) (free : s.free t i back = some s') :
      Effect s (.go t n) s'

theorem findInode_some {inode_table : Entry → MInode} {dev nr : Nat} {i : Entry}
    (h : findInode inode_table dev nr = some i) : (inode_table i).Is dev nr := by
  have his := List.find?_some h
  rwa [decide_eq_true_eq] at his

theorem findInode_none {inode_table : Entry → MInode} {dev nr : Nat}
    (h : findInode inode_table dev nr = none) (i : Entry) : ¬ (inode_table i).Is dev nr := by
  have hno := List.find?_eq_none.mp h i (List.mem_finRange i)
  rwa [decide_eq_true_eq] at hno

theorem findFree_some {imap : Nat → Bool} {n j : Nat} (h : findFree imap n = some j) :
    imap j = false := by
  obtain ⟨hfree, -⟩ := List.find?_range_eq_some.mp h
  rwa [decide_eq_true_eq] at hfree

variable {s s' : State N} {t : Fin N}

theorem search_effect {a : Act N} {caller : Caller}
    (hpc : (s.task t).pc = .user ∨ ∃ caller i, (s.task t).pc = .empty caller i)
    (h : s.searchEmpty t caller = some s') : Effect s a s' := by
  unfold State.searchEmpty at h
  split at h
  · rename_i last i _
    obtain rfl := Option.some.inj h
    exact .search a t caller i last hpc
  · cases h

theorem Alike.rfl {inode : MInode} : Alike inode inode := ⟨Eq.refl _, Eq.refl _, Eq.refl _⟩

theorem written_alike (inode : MInode) : Alike inode inode.written ∧
    inode.written.i_nlinks = inode.i_nlinks ∧ inode.written.i_mount = inode.i_mount := by
  unfold MInode.written
  split <;> exact ⟨⟨rfl, rfl, rfl⟩, rfl, rfl⟩

theorem Marked.of_alike {i : Entry} {inode : MInode} (h : Alike (s.inode_table i) inode)
    (hnlinks : inode.i_nlinks = (s.inode_table i).i_nlinks)
    (hmount : inode.i_mount = (s.inode_table i).i_mount) : Marked s t i inode :=
  ⟨h, .inl hnlinks, hmount⟩

theorem count_cons_one (j e : Entry) (held : List Entry) :
    (e :: held).count j = held.count j + one j e := by
  rw [List.count_cons, one]
  by_cases hj : e = j
  · rw [if_pos (beq_iff_eq.mpr hj), if_pos hj]
  · rw [if_neg (by rwa [beq_iff_eq]), if_neg hj]

theorem gotEmpty_effect {n : UInt8} {caller : Caller} {i : Entry}
    (hpc : (s.task t).pc = .empty caller i) (h : s.gotEmpty t caller i = some s') :
    Effect s (.go t n) s' := by
  unfold State.gotEmpty at h
  split at h
  · obtain rfl := Option.some.inj h
    refine .mark _ t i _ _ (.of_alike ⟨rfl, rfl, rfl⟩ rfl rfl) (fun j => ?_)
      (fun e he => he.elim) (.inl rfl) fun j back hpc' => ?_
    · dsimp only [Task.refs]
      rw [hpc]
      rfl
    · cases hpc'
  · split at h
    · exact search_effect (.inr ⟨_, _, hpc⟩) h
    · rename_i hcount
      obtain rfl := Option.some.inj h
      exact .take t n caller i hpc (not_not.mp hcount)

theorem scan_effect {n : UInt8} {e : Entry} {dev nr : Nat} (hpc : (s.task t).pc.Scans e)
    (hpend : (s.task t).pend = some (dev, nr)) : Effect s (.go t n) (s.scan t e dev nr) := by
  unfold State.scan
  split
  · rename_i i hfind
    split
    · exact .wait t n e i hpc
    · exact .hit t n e i dev nr hpc hpend (findInode_some hfind)
  · rename_i hfind
    exact .bind t n e dev nr hpc hpend hfind

theorem put_effect {n : UInt8} {i : Entry} {back : Option Entry}
    (hpc : (s.task t).pc = .put i back) (h : s.put t i back = some s') :
    Effect s (.go t n) s' := by
  unfold State.put at h
  dsimp only at h
  split at h
  · cases h
  · rename_i hcount
    split at h
    · obtain rfl := Option.some.inj h
      exact .drop t n i back hpc hcount
    · rename_i hone
      obtain ⟨hdev, hle⟩ := not_or.mp hone
      split at h
      · rename_i hnlinks
        obtain rfl := Option.some.inj h
        exact .trunc t n i back hpc (by omega) hdev hnlinks
      · split at h
        · obtain rfl := Option.some.inj h
          refine .mark _ t i _ _ (.of_alike ⟨rfl, rfl, rfl⟩ rfl rfl) (fun j => ?_)
            (fun e he => ?_) (.inl rfl) fun j back hpc' => ?_
          · dsimp only [Task.refs]
            rw [hpc]
            rfl
          · rw [hpc]
            exact he
          · cases hpc'
        · obtain rfl := Option.some.inj h
          exact .drop t n i back hpc hcount

theorem go_effect {n : UInt8} (h : s.go t n = some s') : Effect s (.go t n) s' := by
  unfold State.go at h
  split at h
  · cases h
  · rename_i caller i hpc
    split at h
    · cases h
    · exact gotEmpty_effect hpc h
  · rename_i caller i hpc
    obtain rfl := Option.some.inj h
    obtain ⟨halike, hnlinks, hmount⟩ := written_alike (s.inode_table i)
    refine .mark _ t i _ _ (.of_alike halike hnlinks hmount) (fun j => ?_)
      (fun e he => he.elim) (.inl rfl) fun j back hpc' => ?_
    · dsimp only [Task.refs]
      rw [hpc]
      rfl
    · cases hpc'
  · rename_i e hpc
    split at h
    · rename_i dev nr hpend
      obtain rfl := Option.some.inj h
      exact scan_effect (.inl hpc) hpend
    · cases h
  · rename_i e i hpc
    split at h
    · rename_i dev nr hpend
      split at h
      · cases h
      · split at h
        · rename_i his
          obtain rfl := Option.some.inj h
          exact .hit t n e i dev nr (.inr ⟨i, hpc⟩) hpend his
        · obtain rfl := Option.some.inj h
          exact scan_effect (.inr ⟨i, hpc⟩) hpend
    · cases h
  · rename_i e hpc
    obtain rfl := Option.some.inj h
    have hrefs : ∀ j, (Task.mk .user none (e :: (s.task t).held)).refs j =
        (s.task t).refs j := by
      intro j
      rw [Task.refs, Task.refs, hpc]
      exact count_cons_one j e _
    refine .mark _ t e _ _ ⟨⟨rfl, rfl, rfl⟩, .inr (.inr hpc), rfl⟩ hrefs (fun e he => he.elim)
      (.inr rfl) fun j back hpc' => ?_
    cases hpc'
  · rename_i dev e hpc
    obtain rfl := Option.some.inj h
    exact .alloc t n dev e hpc
  · rename_i i back hpc
    split at h
    · cases h
    · exact put_effect hpc h
  · rename_i i back hpc
    obtain rfl := Option.some.inj h
    obtain ⟨halike, hnlinks, hmount⟩ := written_alike (s.inode_table i)
    refine .mark _ t i _ _ (.of_alike halike hnlinks hmount) (fun j => ?_) (fun e he => ?_)
      (.inl rfl) fun j back hpc' => ?_
    · dsimp only [Task.refs]
      rw [hpc]
      rfl
    · rw [hpc]
      exact he
    · cases hpc'
  · rename_i i back hpc
    exact .free t n i back s' hpc h

theorem step_effect {a : Act N} (h : step s a = some s') : Effect s a s' := by
  cases a with
  | look t dev nr =>
      dsimp only [step] at h
      split at h
      · rename_i hpc
        split at h
        · cases h
        · rename_i hdev
          obtain rfl := Option.some.inj h
          exact .look t dev nr hpc hdev
      · cases h
  | iget t =>
      dsimp only [step] at h
      split at h
      · rename_i hpc
        split at h
        · exact search_effect (.inl hpc) h
        · cases h
      · cases h
  | new_inode t dev =>
      dsimp only [step] at h
      split at h
      · rename_i hpc
        split at h
        · cases h
        · exact search_effect (.inl hpc) h
      · cases h
  | iput t i =>
      dsimp only [step] at h
      split at h
      · rename_i hpc
        obtain ⟨hheld, h⟩ := Option.ite_none_right_eq_some.mp h
        obtain rfl := Option.some.inj h
        exact .iput t i hpc hheld
      · cases h
  | links t i n =>
      obtain ⟨hheld, h⟩ := Option.ite_none_right_eq_some.mp h
      obtain rfl := Option.some.inj h
      have hsame : s.set i { s.inode_table i with i_nlinks := n, i_dirt := true } =
          (s.set i { s.inode_table i with i_nlinks := n, i_dirt := true }).goto t
            (s.task t) := by
        dsimp only [State.goto, State.set]
        rw [update_eq_self]
      rw [hsame]
      exact .mark _ t i _ _ ⟨⟨rfl, rfl, rfl⟩, .inr (.inl hheld), rfl⟩ (fun _ => rfl)
        (fun _ he => he) (.inl rfl) fun _ _ hpc => hpc
  | mount t i dev =>
      obtain ⟨⟨hheld, hdev⟩, h⟩ := Option.ite_none_right_eq_some.mp h
      obtain rfl := Option.some.inj h
      exact .mount t i dev hheld hdev
  | share t t' i =>
      obtain ⟨hheld, h⟩ := Option.ite_none_right_eq_some.mp h
      obtain rfl := Option.some.inj h
      exact .share t t' i hheld
  | go t n => exact go_effect h

/-! ## One entry for each inode -/

/-- Tasks are going to get the inode, or a device with this root is mounted. -/
def InHand (s : State N) (dev nr : Nat) : Prop :=
  (∃ t, (s.task t).pend = some (dev, nr)) ∨
    nr = ROOT_INO ∧ ∃ i, (s.inode_table i).i_mount = some dev

/-- No two entries of the table have one number, and all numbers in use are allocated. -/
structure Keyed (s : State N) : Prop where
  unique : ∀ i j dev nr, dev ≠ 0 → (s.inode_table i).Is dev nr →
    (s.inode_table j).Is dev nr → i = j
  allocated : ∀ i dev nr, dev ≠ 0 → (s.inode_table i).Is dev nr → s.imap dev nr = true
  inHand : ∀ dev nr, InHand s dev nr → s.imap dev nr = true

/-- The numbers that are read from a directory, and the roots of the devices that are mounted,
are allocated; and none is freed that a task is going to get. -/
def Kept (s : State N) : Act N → Prop
  | .look _ dev nr => s.imap dev nr = true
  | .mount _ _ (some dev) => s.imap dev ROOT_INO = true
  | .go t _ => ∀ i back, (s.task t).pc = .trunc i back →
      ¬ InHand s (s.inode_table i).i_dev (s.inode_table i).i_num
  | _ => True

/-- A task goes on with a number that was in hand, or with none. -/
theorem Keyed.goto (h : Keyed s) {task : Task}
    (hpend : ∀ dev nr, task.pend = some (dev, nr) → s.imap dev nr = true) :
    Keyed (s.goto t task) := by
  refine ⟨h.unique, h.allocated, fun dev nr hin => ?_⟩
  rcases hin with ⟨t', hpend'⟩ | hmount
  · dsimp only [State.goto] at hpend'
    rcases eq_or_ne t' t with rfl | hne
    · rw [update_self] at hpend'
      exact hpend dev nr hpend'
    · rw [update_of_ne hne] at hpend'
      exact h.inHand dev nr (.inl ⟨t', hpend'⟩)
  · exact h.inHand dev nr (.inr hmount)

theorem Keyed.moveTo (h : Keyed s) (pc : Pc) : Keyed (s.moveTo t pc) :=
  h.goto fun dev nr hpend => h.inHand dev nr (.inl ⟨t, hpend⟩)

theorem Keyed.set (h : Keyed s) {i : Entry} {inode : MInode}
    (hkey : ∀ dev nr, dev ≠ 0 → inode.Is dev nr → (s.inode_table i).Is dev nr)
    (hmount : ∀ dev, inode.i_mount = some dev → s.imap dev ROOT_INO = true) :
    Keyed (s.set i inode) := by
  have hold : ∀ j dev nr, dev ≠ 0 → ((s.set i inode).inode_table j).Is dev nr →
      (s.inode_table j).Is dev nr := by
    intro j dev nr hdev his
    dsimp only [State.set] at his
    rcases eq_or_ne j i with rfl | hne
    · rw [update_self] at his
      exact hkey dev nr hdev his
    · rwa [update_of_ne hne] at his
  refine ⟨fun j k dev nr hdev hj hk =>
    h.unique j k dev nr hdev (hold j dev nr hdev hj) (hold k dev nr hdev hk),
    fun j dev nr hdev hj => h.allocated j dev nr hdev (hold j dev nr hdev hj),
    fun dev nr hin => ?_⟩
  rcases hin with hpend | ⟨rfl, j, hj⟩
  · exact h.inHand dev nr (.inl hpend)
  · dsimp only [State.set] at hj
    rcases eq_or_ne j i with rfl | hne
    · rw [update_self] at hj
      exact hmount dev hj
    · rw [update_of_ne hne] at hj
      exact h.inHand dev ROOT_INO (.inr ⟨rfl, j, hj⟩)

theorem Keyed.mounted (h : Keyed s) {i : Entry} {dev : Nat}
    (hi : (s.inode_table i).i_mount = some dev) : s.imap dev ROOT_INO = true :=
  h.inHand dev ROOT_INO (.inr ⟨rfl, i, hi⟩)

theorem Keyed.count (h : Keyed s) (i : Entry) (n : Nat) :
    Keyed (s.set i { s.inode_table i with i_count := n }) :=
  h.set (fun _ _ _ his => his) fun _ hmount => h.mounted hmount

/-- An entry gets a number that no other entry has, and the number is allocated. -/
theorem Keyed.bind (h : Keyed s) {e : Entry} {dev nr : Nat} {inode : MInode}
    {imap : Nat → Nat → Bool} (his : inode.Is dev nr)
    (hmount : inode.i_mount = (s.inode_table e).i_mount)
    (hnone : dev ≠ 0 → ∀ i, ¬ (s.inode_table i).Is dev nr)
    (himap : ∀ dev nr, s.imap dev nr = true → imap dev nr = true) (hnr : imap dev nr = true) :
    Keyed ({ s with imap := imap }.set e inode) := by
  have hself : ∀ dev' nr', inode.Is dev' nr' → dev' = dev ∧ nr' = nr := fun dev' nr' his' =>
    ⟨his'.1.symm.trans his.1, his'.2.symm.trans his.2⟩
  constructor
  · intro i j dev' nr' hdev hi hj
    dsimp only [State.set] at hi hj
    rcases eq_or_ne i e with rfl | hie
    · rcases eq_or_ne j i with rfl | hje
      · rfl
      · rw [update_self] at hi
        rw [update_of_ne hje] at hj
        obtain ⟨rfl, rfl⟩ := hself _ _ hi
        exact absurd hj (hnone hdev j)
    · rw [update_of_ne hie] at hi
      rcases eq_or_ne j e with rfl | hje
      · rw [update_self] at hj
        obtain ⟨rfl, rfl⟩ := hself _ _ hj
        exact absurd hi (hnone hdev i)
      · rw [update_of_ne hje] at hj
        exact h.unique i j dev' nr' hdev hi hj
  · intro i dev' nr' hdev hi
    dsimp only [State.set] at hi ⊢
    rcases eq_or_ne i e with rfl | hie
    · rw [update_self] at hi
      obtain ⟨rfl, rfl⟩ := hself _ _ hi
      exact hnr
    · rw [update_of_ne hie] at hi
      exact himap _ _ (h.allocated i dev' nr' hdev hi)
  · intro dev' nr' hin
    refine himap _ _ ?_
    rcases hin with hpend | ⟨rfl, j, hj⟩
    · exact h.inHand dev' nr' (.inl hpend)
    · dsimp only [State.set] at hj
      rcases eq_or_ne j e with rfl | hne
      · rw [update_self, hmount] at hj
        exact h.mounted hj
      · rw [update_of_ne hne] at hj
        exact h.mounted hj

/-- An inode that nobody has in hand is freed. -/
theorem Keyed.free (h : Keyed s) {i : Entry} {dev nr : Nat} (hdev : dev ≠ 0)
    (his : (s.inode_table i).Is dev nr) (hnot : ¬ InHand s dev nr) :
    Keyed ({ s with imap := update s.imap dev (update (s.imap dev) nr false) }.set i .zero) := by
  have hstays : ∀ dev' nr', ¬ (dev' = dev ∧ nr' = nr) → s.imap dev' nr' = true →
      update s.imap dev (update (s.imap dev) nr false) dev' nr' = true := by
    intro dev' nr' hne hbit
    rcases eq_or_ne dev' dev with rfl | hd
    · rwa [update_self, update_of_ne fun heq => hne ⟨rfl, heq⟩]
    · rwa [update_of_ne hd]
  have hset : Keyed (s.set i .zero) := h.set (fun _ _ hne his => absurd his.1.symm hne)
    fun _ hmount => by cases hmount
  refine ⟨hset.unique, fun j dev' nr' hdev' hj => ?_, fun dev' nr' hin => ?_⟩
  · refine hstays dev' nr' ?_ (hset.allocated j dev' nr' hdev' hj)
    rintro ⟨rfl, rfl⟩
    dsimp only [State.set] at hj
    rcases eq_or_ne j i with rfl | hne
    · rw [update_self] at hj
      exact hdev hj.1.symm
    · rw [update_of_ne hne] at hj
      exact hne (h.unique j i dev' nr' hdev hj his)
  · refine hstays dev' nr' ?_ (hset.inHand dev' nr' hin)
    rintro ⟨rfl, rfl⟩
    refine hnot ?_
    rcases hin with hpend | ⟨hroot, j, hj⟩
    · exact .inl hpend
    · dsimp only [State.set] at hj
      rcases eq_or_ne j i with rfl | hne
      · rw [update_self] at hj
        cases hj
      · rw [update_of_ne hne] at hj
        exact .inr ⟨hroot, j, hj⟩

theorem Keyed.alloc (h : Keyed s) (dev : Nat) (e : Entry) :
    Keyed (s.alloc t dev e) := by
  unfold State.alloc
  split
  · rename_i j hj
    have hfree := findFree_some hj
    -- a number that is free is in no entry
    have hnone : dev ≠ 0 → ∀ i, ¬ (s.inode_table i).Is dev j := fun hdev i his =>
      absurd (hfree.symm.trans (h.allocated i dev j hdev his)) Bool.false_ne_true
    have hup : ∀ dev' nr', s.imap dev' nr' = true →
        update s.imap dev (update (s.imap dev) j true) dev' nr' = true := by
      intro dev' nr' hbit
      rcases eq_or_ne dev' dev with rfl | hd
      · rcases eq_or_ne nr' j with rfl | hn
        · rw [update_self, update_self]
        · rwa [update_self, update_of_ne hn]
      · rwa [update_of_ne hd]
    have his : ((s.inode_table e).created dev j).Is dev j := ⟨rfl, rfl⟩
    refine (h.bind his rfl hnone hup ?_).goto fun dev' nr' hpend => ?_
    · rw [update_self, update_self]
    · exact hup dev' nr' (h.inHand dev' nr' (.inl ⟨t, hpend⟩))
  · exact (h.count e _).moveTo _

theorem Keyed.hit (h : Keyed s) (e i : Entry) : Keyed (s.hit t e i) := by
  unfold State.hit
  dsimp only
  split
  · rename_i dev hmount
    refine (h.count i _).goto fun dev' nr' hpend => ?_
    obtain ⟨rfl, rfl⟩ := Prod.mk.inj (Option.some.inj hpend)
    exact h.mounted hmount
  · refine ((h.count i _).count e _).goto fun dev nr hpend => ?_
    cases hpend

theorem Keyed.effect {a : Act N} (h : Keyed s) (hok : Kept s a) (he : Effect s a s') :
    Keyed s' := by
  have hown : ∀ t dev nr, (s.task t).pend = some (dev, nr) → s.imap dev nr = true :=
    fun t dev nr hpend => h.inHand dev nr (.inl ⟨t, hpend⟩)
  cases he with
  | look t dev nr hpc hne =>
      refine h.goto fun dev' nr' hpend => ?_
      obtain ⟨rfl, rfl⟩ := Prod.mk.inj (Option.some.inj hpend)
      exact hok
  | search _ t caller i last hpc =>
      have hlast : Keyed { s with last_inode := last } := ⟨h.unique, h.allocated, h.inHand⟩
      exact hlast.moveTo _
  | iput t i hpc hheld => exact h.goto (hown t)
  | wait t n e i hpc => exact h.moveTo _
  | trunc t n i back hpc => exact h.moveTo _
  | mark _ t i inode task hmarked _ _ hpend _ =>
      have hset : Keyed (s.set i inode) := by
        refine h.set (fun dev nr _ his => ?_) fun dev hmount => ?_
        · exact ⟨hmarked.alike.i_dev.symm.trans his.1, hmarked.alike.i_num.symm.trans his.2⟩
        · exact h.mounted (hmarked.i_mount.symm.trans hmount)
      refine hset.goto fun dev nr hnew => ?_
      rcases hpend with hsame | hnone
      · exact hown t dev nr (hsame.symm.trans hnew)
      · rw [hnone] at hnew
        cases hnew
  | mount t i dev hheld hne =>
      refine h.set (fun _ _ _ his => his) fun dev' hmount => ?_
      cases hmount
      exact hok
  | share t t' i hheld => exact (h.count i _).goto (hown t')
  | take t n caller i hpc hcount =>
      refine (h.set (fun dev nr hne his => absurd his.1.symm hne) fun dev hmount => ?_).moveTo _
      cases hmount
  | bind t n e dev nr hpc hpend hnone =>
      have hbind : Keyed (s.set e
          { s.inode_table e with i_dev := dev, i_num := nr, i_lock := true }) :=
        h.bind ⟨rfl, rfl⟩ rfl (fun _ => findInode_none hnone) (fun _ _ hbit => hbit)
          (hown t dev nr hpend)
      exact hbind.moveTo _
  | hit t n e i dev nr hpc hpend his => exact h.hit e i
  | alloc t n dev e hpc => exact h.alloc dev e
  | drop t n i back hpc hcount => exact (h.count i _).moveTo _
  | free t n i back _ hpc hfree =>
      unfold State.free at hfree
      dsimp only at hfree
      split at hfree
      · obtain rfl := Option.some.inj hfree
        refine (h.set (fun dev nr hne his => absurd his.1.symm hne) fun dev hmount => ?_).moveTo _
        cases hmount
      · rename_i hne
        split at hfree
        · cases hfree
        · obtain rfl := Option.some.inj hfree
          exact (h.free hne ⟨rfl, rfl⟩ (hok i back hpc)).moveTo _

theorem boot_keyed (imap : Nat → Nat → Bool) (s_ninodes : Nat → Nat) :
    Keyed (boot N imap s_ninodes) where
  unique := fun _ _ _ _ hdev his _ => absurd his.1.symm hdev
  allocated := fun _ _ _ hdev his => absurd his.1.symm hdev
  inHand := by
    rintro dev nr (⟨t, hpend⟩ | ⟨-, i, hmount⟩)
    · cases hpend
    · cases hmount

/-- Any number of tasks, in any order of their steps: if the numbers that are read from
directories are allocated, and none is freed that a task is going to get, then no two
entries in use are the same inode. Both parts of the condition are about what is not in
the table: a number between its entry in a directory and `iget`. -/
theorem one_inode {imap : Nat → Nat → Bool} {s_ninodes : Nat → Nat}
    (h : Reach step Kept (boot N imap s_ninodes) s) {i j : Entry}
    (_ : 0 < (s.inode_table i).i_count) (_ : 0 < (s.inode_table j).i_count)
    (hdev : (s.inode_table i).i_dev ≠ 0) (hsame : (s.inode_table i).i_dev = (s.inode_table j).i_dev)
    (hnum : (s.inode_table i).i_num = (s.inode_table j).i_num) : i = j := by
  have hkeyed : Keyed s := h.invariant (boot_keyed imap s_ninodes)
    fun _ _ _ hi hok hs => hi.effect hok (step_effect hs)
  exact hkeyed.unique i j _ _ hdev ⟨rfl, rfl⟩ ⟨hsame.symm, hnum.symm⟩

/-! ## A device with six inodes -/

section Six

/-- Inodes 0 to 5 are allocated. -/
def six (_ : Nat) (nr : Nat) : Bool := decide (nr ≤ 5)

def eight (_ : Nat) : Nat := 8

/-- Entry `k` of the table. -/
def entry (k : Nat) : Entry := ⟨k % NR_INODE, Nat.mod_lt _ (Nat.zero_lt_succ 31)⟩

end Six

theorem one_inode_six : ∃ (s : State 1) (i : Entry),
    exec step (boot 1 six eight) [.look 0 1 5, .iget 0, .go 0 0, .go 0 0] = some s ∧
    (s.inode_table i).i_dev = 1 ∧ (s.inode_table i).i_num = 5 ∧ ∀ j, 0 < (s.inode_table j).i_count →
      1 = (s.inode_table j).i_dev → 5 = (s.inode_table j).i_num → i = j := by
  have h₁ : Reach step Kept (boot 1 six eight) (boot 1 six eight) := .start
  have h₂ := h₁.next (a := Act.look 0 1 5) rfl rfl
  have h₃ := h₂.next (a := Act.iget 0) trivial rfl
  have h₄ := h₃.next (a := Act.go 0 0) (fun _ _ hpc => nomatch hpc) rfl
  have h₅ := h₄.next (a := Act.go 0 0) (fun _ _ hpc => nomatch hpc) rfl
  exact ⟨_, entry 1, rfl, rfl, rfl, fun j hj hdev hnum =>
    one_inode h₅ (Nat.zero_lt_one) hj Nat.one_ne_zero hdev hnum⟩

/-- A number is read from a directory; before `iget` the inode is freed, and after it a new
inode gets the number. -/
theorem not_one_inode :
    ¬ ∀ {N : Nat} {imap : Nat → Nat → Bool} {s_ninodes : Nat → Nat} {s : State N},
      Reach step Free (boot N imap s_ninodes) s → ∀ {i j : Entry},
        0 < (s.inode_table i).i_count → 0 < (s.inode_table j).i_count →
        (s.inode_table i).i_dev ≠ 0 → (s.inode_table i).i_dev = (s.inode_table j).i_dev →
        (s.inode_table i).i_num = (s.inode_table j).i_num → i = j := by
  intro h
  have hrun : ∃ s, exec step (boot 2 six eight) [
      -- task 0 has a directory that is to be written
      .look 0 1 2, .iget 0, .go 0 0, .go 0 0, .go 0 1, .links 0 (entry 1) 1,
      .look 0 1 5, .iput 0 (entry 1), .go 0 0,
      -- task 1 removes the file
      .look 1 1 5, .iget 1, .go 1 0, .go 1 0, .go 1 1, .links 1 (entry 2) 0,
      .iput 1 (entry 2), .go 1 0, .go 1 0,
      -- task 0 goes on with the number, and task 1 makes a file
      .go 0 0, .go 0 0, .iget 0, .go 0 0, .go 0 0, .go 0 0,
      .new_inode 1 1, .go 1 0, .go 1 0] = some s ∧
      (s.inode_table (entry 3)).i_count = 1 ∧ (s.inode_table (entry 4)).i_count = 1 ∧
      (s.inode_table (entry 3)).i_dev = 1 ∧ (s.inode_table (entry 4)).i_dev = 1 ∧
      (s.inode_table (entry 3)).i_num = 5 ∧ (s.inode_table (entry 4)).i_num = 5 :=
    ⟨_, rfl, rfl, rfl, rfl, rfl, rfl, rfl⟩
  obtain ⟨s, hexec, hc₃, hc₄, hd₃, hd₄, hn₃, hn₄⟩ := hrun
  have heq := h (exec_reach hexec) (i := entry 3) (j := entry 4) (by omega) (by omega) (by omega)
    (hd₃.trans hd₄.symm) (hn₃.trans hn₄.symm)
  exact absurd (congrArg Fin.val heq) (by decide)

end Inodes

end Linux011
