import Linux011.Dir

/-!
# Calls that change one directory at the same time

`open_namei` with `O_CREAT`, `sys_mknod`, `sys_mkdir` and `sys_link` look a name up, sleep
while they get an inode, and add an entry; `sys_unlink` looks a name up, sleeps in `iget`
and clears the entry it has found. The directory inode is not locked. A step goes from one
place where the task may sleep to the next: the loops of `find_entry` and `add_entry` sleep
in `bmap`, `create_block` and `bread` for every block, and go over the 64 entries of a block
without sleeping.

A block of the directory is a number into `blk`, so that a task can go on with a buffer that
is no longer part of the directory: two calls of `create_block` for one missing block may
both get a new one, and the second replaces the first. Where an indirect block is replaced so,
a task in the middle of `bmap` goes on with the numbers of the old one.

`Effect` lists what a step can write, with one constructor for each kind of store, and `Quiet`
the steps that write nothing. Three invariants are proved from it, one on top of the other.
`Sound` is about blocks: those of the directory are different, and what a task has in hand was
taken for the place where it looks, even if another call has replaced it meanwhile. `Named` is
about names: a call that creates a name and has passed an entry will not see it any more, so that
no such entry may get this name (`Missed`). An entry that is added behind the back of another
call for the same name is what the condition of the first result excludes. The third one, for
`sys_unlink`, says that the entry in the hand of a call still names the inode that it was found
with (`Held`); the condition of the second result is that no other call of `sys_unlink` clears
it, since everybody else leaves an entry alone that is in use.
-/

namespace Linux011

open Function Runs

namespace DirCalls

open Dir (Entry)

abbrev Name : Type := List UInt8

/-- A call, with the name as the entries have it. -/
inductive Job where
  | create (name : Name)
  | unlink (name : Name)

def Job.name : Job → Name
  | .create name | .unlink name => name

/-- Where a task is; `k` is the index of a block of the directory and `b` the block that was
read for it. -/
inductive Pc where
  | user
  /-- `find_entry` is about to take the number of the block -/
  | look (job : Job) (entries k : Nat)
  /-- `find_entry` sleeps in `bread` -/
  | find (job : Job) (entries k b : Nat)
  /-- between `find_entry` and `add_entry`, in `new_inode` or `new_block` -/
  | make (name : Name)
  /-- `add_entry` calls `create_block` -/
  | more (name : Name) (k : Nat)
  /-- `create_block` sleeps in `new_block` -/
  | grow (name : Name) (k : Nat)
  /-- `add_entry` sleeps in `bread` -/
  | add (name : Name) (k b : Nat)
  /-- `sys_unlink` sleeps in `iget(dir->i_dev, inr)`, with entry `j` of the block in hand -/
  | hold (name : Name) (k b j inr : Nat)

structure State where
  /-- `i_size / sizeof (struct dir_entry)` -/
  entries : Nat
  zone : Nat → Nat
  /-- an indirect block that was replaced has the number `b` for block `k` -/
  lost : Nat → Nat → Bool
  blk : Nat → Nat → Entry
  /-- blocks from here on are free -/
  fresh : Nat
  i_nlinks : Nat → UInt8
  task : Nat → Pc

inductive Act where
  | begin (t : Nat) (job : Job)
  /-- `bmap` returns; `old` where it goes through an indirect block that was replaced -/
  | look (t : Nat) (old : Option Nat)
  | scan (t : Nat)
  /-- an inode was had, or the call gives up -/
  | made (t : Nat) (ok : Bool)
  | more (t : Nat) (old : Option Nat)
  /-- `new_block` returns; where the indirect block was replaced meanwhile, nobody sees the
  new block -/
  | grow (t : Nat) (ok visible : Bool)
  /-- `add_entry` and `de->inode = nr` -/
  | place (t : Nat) (nr : Nat)
  /-- `de->inode = 0` and `i_nlinks--` in `sys_unlink`, or one of its other ends -/
  | clear (t : Nat)
  | giveUp (t : Nat)
  /-- `create_block` of another call has replaced an indirect block of the directory -/
  | lose (ks : Nat → Bool)
  /-- another call has set the link count of an inode -/
  | count (inr : Nat) (n : UInt8)

def State.goto (s : State) (t : Nat) (pc : Pc) : State := { s with task := update s.task t pc }

/-- `find_entry` has found nothing. -/
def notFound : Job → Pc
  | .create name => .make name
  | .unlink _ => .user

/-- The number of block `k`, as `bmap` has it. -/
def State.number (s : State) (k : Nat) : Option Nat → Option Nat
  | none => some (s.zone k)
  | some b => if 7 ≤ k ∧ s.lost k b = true then some b else none

/-- The loop of `find_entry`, with the number of block `k`. -/
def looked (job : Job) (entries k b : Nat) : Pc :=
  if b ≠ 0 then .find job entries k b
  else if k ≠ 0 ∧ 64 * (k + 1) < entries then .look job entries (k + 1)
  else notFound job

/-- The first entry of a block that `match` takes, below `hi`. -/
def findIn (block : Nat → Entry) (name : Name) (hi : Nat) : Option Nat :=
  (List.range hi).find? fun j => (block j).inode ≠ 0 ∧ (block j).label = name

/-- The first entry of block `k` that `add_entry` takes: it is behind the last one or free. -/
def freeIn (s : State) (k b : Nat) : Option Nat :=
  (List.range 64).find? fun j => s.entries ≤ 64 * k + j ∨ (s.blk b j).inode = 0

/-- A new block for `k`; its number is stored in an old indirect block if not `visible`. -/
def State.grown (s : State) (k : Nat) (visible : Bool) : State :=
  { s with
    zone := if visible then update s.zone k s.fresh else s.zone
    lost := if visible then s.lost else update s.lost k (update (s.lost k) s.fresh true)
    blk := update s.blk s.fresh fun _ => ⟨0, []⟩
    fresh := s.fresh + 1 }

/-- The numbers in an indirect block are replaced by zeroes. -/
def State.losing (s : State) (ks : Nat → Bool) : State :=
  { s with
    zone := fun k => if ks k ∧ 7 ≤ k then 0 else s.zone k
    lost := fun k b => if ks k ∧ 7 ≤ k ∧ (b = 0 ∨ b = s.zone k) then true else s.lost k b }

/-- An entry is written. -/
def State.put (s : State) (b j : Nat) (e : Entry) : State :=
  { s with blk := update s.blk b (update (s.blk b) j e) }

def step (s : State) : Act → Option State
  | .begin t job =>
      match s.task t with
      | .user => some (s.goto t (.look job s.entries 0))
      | _ => none
  | .look t old =>
      match s.task t with
      | .look job entries k =>
          match s.number k old with
          | some b => some (s.goto t (looked job entries k b))
          | none => none
      | _ => none
  | .scan t =>
      match s.task t with
      | .find job entries k b =>
          match findIn (s.blk b) job.name (min 64 (entries - 64 * k)) with
          | some j =>
              match job with
              | .create _ => some (s.goto t .user)
              | .unlink name => some (s.goto t (.hold name k b j (s.blk b j).inode))
          | none =>
              if 64 * (k + 1) < entries then some (s.goto t (.look job entries (k + 1)))
              else some (s.goto t (notFound job))
      | _ => none
  | .made t ok =>
      match s.task t with
      | .make name =>
          if ok ∧ s.zone 0 ≠ 0 then some (s.goto t (.add name 0 (s.zone 0)))
          else some (s.goto t .user)
      | _ => none
  | .more t old =>
      match s.task t with
      | .more name k =>
          match s.number k old with
          | some b => some (s.goto t (if b ≠ 0 then .add name k b else .grow name k))
          | none => none
      | _ => none
  | .grow t ok visible =>
      match s.task t with
      | .grow name k =>
          if ok then some ((s.grown k visible).goto t (.add name k s.fresh))
          else some (s.goto t .user)
      | _ => none
  | .place t nr =>
      match s.task t with
      | .add name k b =>
          if nr = 0 then none
          else
            match freeIn s k b with
            | some j =>
                some (({ s with entries := max s.entries (64 * k + j + 1) }.put b j
                  ⟨nr, name⟩).goto t .user)
            | none => some (s.goto t (.more name (k + 1)))
      | _ => none
  | .clear t =>
      match s.task t with
      | .hold _ _ b j inr =>
          let i_nlinks := if s.i_nlinks inr = 0 then 1 else s.i_nlinks inr
          some (({ s with i_nlinks := update s.i_nlinks inr (i_nlinks - 1) }.put b j
            ⟨0, (s.blk b j).label⟩).goto t .user)
      | _ => none
  | .giveUp t =>
      match s.task t with
      | .hold .. => some (s.goto t .user)
      | _ => none
  | .lose ks => some (s.losing ks)
  | .count inr n => some { s with i_nlinks := update s.i_nlinks inr n }

/-! ## What a step does -/

/-- The steps that change nothing but the place of the task. -/
inductive Quiet (s : State) : Pc → Pc → Prop where
  | begin (job : Job) : Quiet s .user (.look job s.entries 0)
  | read {job : Job} {entries k : Nat} (zone : s.zone k ≠ 0) :
      Quiet s (.look job entries k) (.find job entries k (s.zone k))
  | skip {job : Job} {entries k : Nat} (zone : s.zone k = 0) :
      Quiet s (.look job entries k) (.look job entries (k + 1))
  | hole {job : Job} {entries k : Nat} (zone : s.zone k = 0)
      (last : k = 0 ∨ entries ≤ 64 * (k + 1)) : Quiet s (.look job entries k) (notFound job)
  | exists_ {name : Name} {entries k b : Nat} : Quiet s (.find (.create name) entries k b) .user
  | found {name : Name} {entries k b j : Nat}
      (found : findIn (s.blk b) name (min 64 (entries - 64 * k)) = some j) :
      Quiet s (.find (.unlink name) entries k b) (.hold name k b j (s.blk b j).inode)
  | next {job : Job} {entries k b : Nat}
      (none : findIn (s.blk b) job.name (min 64 (entries - 64 * k)) = none) :
      Quiet s (.find job entries k b) (.look job entries (k + 1))
  | ends {job : Job} {entries k b : Nat}
      (none : findIn (s.blk b) job.name (min 64 (entries - 64 * k)) = none)
      (last : entries ≤ 64 * (k + 1)) : Quiet s (.find job entries k b) (notFound job)
  | made {name : Name} (zone : s.zone 0 ≠ 0) : Quiet s (.make name) (.add name 0 (s.zone 0))
  | there {name : Name} {k : Nat} (zone : s.zone k ≠ 0) :
      Quiet s (.more name k) (.add name k (s.zone k))
  | missing {name : Name} {k : Nat} (zone : s.zone k = 0) :
      Quiet s (.more name k) (.grow name k)
  | full {name : Name} {k b : Nat} (none : freeIn s k b = none) :
      Quiet s (.add name k b) (.more name (k + 1))
  | quit (pc : Pc) : Quiet s pc .user

/-- What a step does: the places where something is written are one constructor each. -/
inductive Effect (s : State) : Act → State → Prop where
  | begin (t : Nat) (job : Job) (user : s.task t = .user) :
      Effect s (.begin t job) (s.goto t (.look job s.entries 0))
  | quiet (a : Act) (t : Nat) (pc : Pc) (busy : s.task t ≠ .user) (quiet : Quiet s (s.task t) pc) :
      Effect s a (s.goto t pc)
  | old (t : Nat) (job : Job) (entries k b : Nat) (pc : s.task t = .look job entries k)
      (lost : 7 ≤ k ∧ s.lost k b = true) :
      Effect s (.look t (some b)) (s.goto t (looked job entries k b))
  | oldMore (t : Nat) (name : Name) (k b : Nat) (pc : s.task t = .more name k)
      (lost : 7 ≤ k ∧ s.lost k b = true) :
      Effect s (.more t (some b)) (s.goto t (if b ≠ 0 then .add name k b else .grow name k))
  | grow (t : Nat) (visible : Bool) (name : Name) (k : Nat) (pc : s.task t = .grow name k) :
      Effect s (.grow t true visible) ((s.grown k visible).goto t (.add name k s.fresh))
  | place (t nr : Nat) (name : Name) (k b j : Nat) (pc : s.task t = .add name k b) (pos : nr ≠ 0)
      (free : freeIn s k b = some j) :
      Effect s (.place t nr) (({ s with entries := max s.entries (64 * k + j + 1) }.put b j
        ⟨nr, name⟩).goto t .user)
  | clear (t : Nat) (name : Name) (k b j inr : Nat) (i_nlinks : Nat → UInt8)
      (pc : s.task t = .hold name k b j inr) :
      Effect s (.clear t) (({ s with i_nlinks := i_nlinks }.put b j
        ⟨0, (s.blk b j).label⟩).goto t .user)
  | lose (ks : Nat → Bool) : Effect s (.lose ks) (s.losing ks)
  | count (inr : Nat) (n : UInt8) :
      Effect s (.count inr n) { s with i_nlinks := update s.i_nlinks inr n }

variable {s s' : State} {home : Nat → Nat}

theorem number_some {k b : Nat} {old : Option Nat} (h : s.number k old = some b) :
    old = none ∧ b = s.zone k ∨ old = some b ∧ 7 ≤ k ∧ s.lost k b = true := by
  cases old with
  | none => exact .inl ⟨rfl, (Option.some.inj h).symm⟩
  | some b' =>
      obtain ⟨hlost, hb⟩ := Option.ite_none_right_eq_some.mp h
      obtain rfl := Option.some.inj hb
      exact .inr ⟨rfl, hlost⟩

theorem step_effect {a : Act} (h : step s a = some s') : Effect s a s' := by
  cases a with
  | begin t job =>
      dsimp only [step] at h
      split at h
      · rename_i hpc
        obtain rfl := Option.some.inj h
        exact .begin t job hpc
      · cases h
  | look t old =>
      dsimp only [step] at h
      split at h
      · rename_i job entries k hpc
        have hbusy : s.task t ≠ .user := by rw [hpc]; exact Pc.noConfusion
        split at h
        · rename_i b hb
          obtain rfl := Option.some.inj h
          rcases number_some hb with ⟨rfl, rfl⟩ | ⟨rfl, hlost⟩
          · refine .quiet _ t _ hbusy ?_
            rw [hpc, looked]
            split
            · rename_i hz
              exact .read hz
            · rename_i hz
              split
              · exact .skip (not_not.mp hz)
              · exact .hole (not_not.mp hz) (by omega)
          · exact .old t job entries k b hpc hlost
        · cases h
      · cases h
  | scan t =>
      dsimp only [step] at h
      split at h
      · rename_i job entries k b hpc
        have hbusy : s.task t ≠ .user := by rw [hpc]; exact Pc.noConfusion
        split at h
        · rename_i j hj
          cases job with
          | create name =>
              obtain rfl := Option.some.inj h
              exact .quiet _ t _ hbusy (hpc ▸ .exists_)
          | unlink name =>
              obtain rfl := Option.some.inj h
              exact .quiet _ t _ hbusy (hpc ▸ .found hj)
        · rename_i hnone
          split at h
          · obtain rfl := Option.some.inj h
            exact .quiet _ t _ hbusy (hpc ▸ .next hnone)
          · rename_i hlast
            obtain rfl := Option.some.inj h
            exact .quiet _ t _ hbusy (hpc ▸ .ends hnone (Nat.le_of_not_lt hlast))
      · cases h
  | made t ok =>
      dsimp only [step] at h
      split at h
      · rename_i name hpc
        have hbusy : s.task t ≠ .user := by rw [hpc]; exact Pc.noConfusion
        split at h
        · rename_i hok
          obtain rfl := Option.some.inj h
          exact .quiet _ t _ hbusy (hpc ▸ .made hok.2)
        · obtain rfl := Option.some.inj h
          exact .quiet _ t _ hbusy (.quit _)
      · cases h
  | more t old =>
      dsimp only [step] at h
      split at h
      · rename_i name k hpc
        have hbusy : s.task t ≠ .user := by rw [hpc]; exact Pc.noConfusion
        split at h
        · rename_i b hb
          obtain rfl := Option.some.inj h
          rcases number_some hb with ⟨rfl, rfl⟩ | ⟨rfl, hlost⟩
          · refine .quiet _ t _ hbusy ?_
            rw [hpc]
            split
            · rename_i hz
              exact .there hz
            · rename_i hz
              exact .missing (not_not.mp hz)
          · exact .oldMore t name k b hpc hlost
        · cases h
      · cases h
  | grow t ok visible =>
      dsimp only [step] at h
      split at h
      · rename_i name k hpc
        have hbusy : s.task t ≠ .user := by rw [hpc]; exact Pc.noConfusion
        split at h
        · rename_i hok
          obtain rfl := Option.some.inj h
          rw [hok]
          exact .grow t visible name k hpc
        · obtain rfl := Option.some.inj h
          exact .quiet _ t _ hbusy (.quit _)
      · cases h
  | place t nr =>
      dsimp only [step] at h
      split at h
      · rename_i name k b hpc
        have hbusy : s.task t ≠ .user := by rw [hpc]; exact Pc.noConfusion
        split at h
        · cases h
        · rename_i hnr
          split at h
          · rename_i j hj
            obtain rfl := Option.some.inj h
            exact .place t nr name k b j hpc hnr hj
          · rename_i hnone
            obtain rfl := Option.some.inj h
            exact .quiet _ t _ hbusy (hpc ▸ .full hnone)
      · cases h
  | clear t =>
      dsimp only [step] at h
      split at h
      · rename_i name k b j inr hpc
        obtain rfl := Option.some.inj h
        exact .clear t name k b j inr _ hpc
      · cases h
  | giveUp t =>
      dsimp only [step] at h
      split at h
      · rename_i hpc
        have hbusy : s.task t ≠ .user := by rw [hpc]; exact Pc.noConfusion
        obtain rfl := Option.some.inj h
        exact .quiet _ t _ hbusy (.quit _)
      · cases h
  | lose ks =>
      obtain rfl := Option.some.inj h
      exact .lose ks
  | count inr n =>
      obtain rfl := Option.some.inj h
      exact .count inr n

theorem findIn_some {block : Nat → Entry} {name : Name} {hi j : Nat}
    (h : findIn block name hi = some j) :
    j < hi ∧ (block j).inode ≠ 0 ∧ (block j).label = name := by
  obtain ⟨hj, hlt, -⟩ := List.find?_range_eq_some.mp h
  exact ⟨List.mem_range.mp hlt, of_decide_eq_true hj⟩

theorem findIn_none {block : Nat → Entry} {name : Name} {hi j : Nat}
    (h : findIn block name hi = none) (hj : j < hi) (hlive : (block j).inode ≠ 0) :
    (block j).label ≠ name := by
  have hno := List.find?_eq_none.mp h j (List.mem_range.mpr hj)
  rw [decide_eq_true_eq] at hno
  exact fun hlabel => hno ⟨hlive, hlabel⟩

theorem freeIn_some {k b j : Nat} (h : freeIn s k b = some j) :
    j < 64 ∧ (s.entries ≤ 64 * k + j ∨ (s.blk b j).inode = 0) ∧
      ∀ j' < j, 64 * k + j' < s.entries := by
  obtain ⟨hj, hlt, hbefore⟩ := List.find?_range_eq_some.mp h
  refine ⟨List.mem_range.mp hlt, of_decide_eq_true hj, fun j' hj' => ?_⟩
  have hno := hbefore j' hj'
  rw [Bool.not_eq_true', decide_eq_false_iff_not] at hno
  omega

theorem freeIn_none {k b : Nat} (h : freeIn s k b = none) : 64 * (k + 1) ≤ s.entries := by
  have hno := List.find?_eq_none.mp h 63 (List.mem_range.mpr (by decide))
  rw [decide_eq_true_eq] at hno
  omega

/-- The first free entry of a block is not beyond the end of the directory. -/
theorem freeIn_le {k b j : Nat} (h : freeIn s k b = some j) (hk : 64 * k ≤ s.entries) :
    64 * k + j ≤ s.entries := by
  rcases Nat.eq_zero_or_pos j with rfl | hpos
  · exact hk
  · have := (freeIn_some h).2.2 (j - 1) (by omega)
    omega

/-! ## Blocks -/

/-- Block `b` was taken for place `k` of the directory. -/
def Taken (s : State) (home : Nat → Nat) (k b : Nat) : Prop := b ≠ 0 ∧ b < s.fresh ∧ home b = k

/-- The blocks of the directory are different ones. -/
def Laid (s : State) (home : Nat → Nat) : Prop :=
  0 < s.fresh ∧ ∀ k, s.zone k ≠ 0 → Taken s home k (s.zone k)

/-- What a task has in hand belongs to the place where it looks. -/
def Handy (s : State) (home : Nat → Nat) : Pc → Prop
  | .look _ entries _ => entries ≤ s.entries
  | .find _ entries k b => Taken s home k b ∧ entries ≤ s.entries
  | .more _ k | .grow _ k => k ≠ 0 ∧ 64 * k ≤ s.entries
  | .add _ k b => Taken s home k b ∧ 64 * k ≤ s.entries
  | .hold _ k b j _ => Taken s home k b ∧ j < 64 ∧ 64 * k + j < s.entries
  | .user | .make _ => True

/-- The task does not bring another block than `b` to place `k`. -/
def Apart (k b : Nat) : Pc → Prop
  | .grow _ k' => k' ≠ k
  | .add _ k' b' => k' = k → b' = b
  | _ => True

/-- Entries behind the last one may be in use only in a block that no call has made. -/
def Tail (s : State) : Prop :=
  ∀ k j, j < 64 → s.entries ≤ 64 * k + j → s.zone k ≠ 0 → (s.blk (s.zone k) j).inode ≠ 0 →
    (∀ b, s.lost k b = false) ∧ ∀ t, Apart k (s.zone k) (s.task t)

structure Sound (s : State) (home : Nat → Nat) : Prop where
  laid : Laid s home
  lost : ∀ k b, s.lost k b = true → b ≠ 0 → Taken s home k b
  handy : ∀ t, Handy s home (s.task t)
  tail : Tail s

/-- Before the calls. -/
structure Start (s : State) : Prop where
  user : ∀ t, s.task t = .user
  lost : ∀ k b, s.lost k b = false
  laid : ∃ home, Laid s home

theorem Start.sound (h : Start s) : ∃ home, Sound s home := by
  obtain ⟨home, hlaid⟩ := h.laid
  refine ⟨home, hlaid, fun k b hlost => ?_, fun t => ?_, fun k j _ _ _ _ =>
    ⟨h.lost k, fun t => ?_⟩⟩
  · rw [h.lost] at hlost
    cases hlost
  · rw [h.user]
    trivial
  · rw [h.user]
    trivial

theorem Taken.mono {home' : Nat → Nat} {k b : Nat} (h : Taken s home k b)
    (hfresh : s.fresh ≤ s'.fresh) (hhome : ∀ b < s.fresh, home' b = home b) :
    Taken s' home' k b :=
  ⟨h.1, Nat.lt_of_lt_of_le h.2.1 hfresh, (hhome b h.2.1).trans h.2.2⟩

theorem Handy.mono {home' : Nat → Nat} {pc : Pc} (h : Handy s home pc)
    (hentries : s.entries ≤ s'.entries) (hfresh : s.fresh ≤ s'.fresh)
    (hhome : ∀ b < s.fresh, home' b = home b) : Handy s' home' pc := by
  cases pc with
  | user | make => trivial
  | look job entries k => exact Nat.le_trans h hentries
  | find job entries k b => exact ⟨h.1.mono hfresh hhome, Nat.le_trans h.2 hentries⟩
  | more name k | grow name k => exact ⟨h.1, Nat.le_trans h.2 hentries⟩
  | add name k b => exact ⟨h.1.mono hfresh hhome, Nat.le_trans h.2 hentries⟩
  | hold name k b j inr =>
      exact ⟨h.1.mono hfresh hhome, h.2.1, Nat.lt_of_lt_of_le h.2.2 hentries⟩

theorem notFound_handy (job : Job) : Handy s home (notFound job) := by
  cases job <;> trivial

theorem Quiet.handy {pc pc' : Pc} (h : Quiet s pc pc') (hlaid : Laid s home)
    (hpc : Handy s home pc) : Handy s home pc' := by
  cases h with
  | begin job => exact Nat.le_refl _
  | read hz => exact ⟨hlaid.2 _ hz, hpc⟩
  | skip | exists_ | quit => first | exact hpc | trivial
  | hole | ends => exact notFound_handy _
  | found hj =>
      obtain ⟨hlt, -⟩ := findIn_some hj
      have hle := hpc.2
      exact ⟨hpc.1, by omega, by omega⟩
  | next => exact hpc.2
  | made hz => exact ⟨hlaid.2 _ hz, Nat.zero_le _⟩
  | there hz => exact ⟨hlaid.2 _ hz, hpc.2⟩
  | missing => exact hpc
  | full hnone => exact ⟨Nat.succ_ne_zero _, freeIn_none hnone⟩

theorem Quiet.apart {pc pc' : Pc} {k : Nat} (h : Quiet s pc pc') (hzone : s.zone k ≠ 0) :
    Apart k (s.zone k) pc' := by
  cases h with
  | begin | read | skip | exists_ | found | next | full | quit => trivial
  | hole | ends => cases ‹Job› <;> trivial
  | made | there =>
      rintro rfl
      rfl
  | missing hz =>
      rintro rfl
      exact hzone hz

theorem grown_zone (s : State) (k : Nat) (visible : Bool) (k' : Nat) :
    (s.grown k visible).zone k' = s.zone k' ∨
      k' = k ∧ (s.grown k visible).zone k' = s.fresh := by
  dsimp only [State.grown]
  cases visible with
  | false => exact .inl rfl
  | true =>
      rcases eq_or_ne k' k with rfl | hne
      · exact .inr ⟨rfl, update_self _ _ _⟩
      · exact .inl (update_of_ne hne _ _)

theorem losing_zone {ks : Nat → Bool} {k : Nat} (h : (s.losing ks).zone k ≠ 0) :
    (s.losing ks).zone k = s.zone k ∧ ∀ b, (s.losing ks).lost k b = s.lost k b := by
  dsimp only [State.losing] at h ⊢
  split at h
  · exact absurd rfl h
  · rename_i hks
    exact ⟨if_neg hks, fun b => if_neg fun hlost => hks ⟨hlost.1, hlost.2.1⟩⟩

theorem Sound.grow (h : Sound s home) {t k : Nat} {name : Name} (visible : Bool)
    (hpc : s.task t = .grow name k) :
    Sound ((s.grown k visible).goto t (.add name k s.fresh)) (update home s.fresh k) := by
  have hfresh : s.fresh ≠ 0 := Nat.ne_of_gt h.laid.1
  have hgrow : k ≠ 0 ∧ 64 * k ≤ s.entries := by
    have hhandy := h.handy t
    rwa [hpc] at hhandy
  have hhome : ∀ b < s.fresh, update home s.fresh k b = home b := fun b hb =>
    update_of_ne (Nat.ne_of_lt hb) _ _
  have hnew : Taken (s.grown k visible) (update home s.fresh k) k s.fresh :=
    ⟨hfresh, Nat.lt_succ_self _, update_self _ _ _⟩
  constructor
  · refine ⟨Nat.succ_pos _, fun k' hk' => ?_⟩
    dsimp only [State.goto] at hk' ⊢
    rcases grown_zone s k visible k' with hold | ⟨rfl, hz⟩
    · rw [hold] at hk' ⊢
      exact (h.laid.2 k' hk').mono (Nat.le_succ _) hhome
    · rw [hz]
      exact hnew
  · intro k' b hlost hb
    have hcases : k' = k ∧ b = s.fresh ∨ s.lost k' b = true := by
      dsimp only [State.goto, State.grown] at hlost
      split at hlost
      · exact .inr hlost
      · by_cases hkb : k' = k ∧ b = s.fresh
        · exact .inl hkb
        · refine .inr ?_
          rcases eq_or_ne k' k with rfl | hne
          · rwa [update_self, update_of_ne fun heq => hkb ⟨rfl, heq⟩] at hlost
          · rwa [update_of_ne hne] at hlost
    rcases hcases with ⟨rfl, rfl⟩ | hold
    · exact hnew
    · exact (h.lost k' b hold hb).mono (Nat.le_succ _) hhome
  · intro t'
    dsimp only [State.goto]
    rcases eq_or_ne t' t with rfl | hne
    · rw [update_self]
      exact ⟨hnew, hgrow.2⟩
    · rw [update_of_ne hne]
      exact (h.handy t').mono (Nat.le_refl _) (Nat.le_succ _) hhome
  · intro k' j hj hbehind hk' hlive
    dsimp only [State.goto] at hbehind hk' hlive ⊢
    rcases grown_zone s k visible k' with hold | ⟨rfl, hz⟩
    · rw [hold] at hk' hlive ⊢
      dsimp only [State.grown] at hlive
      rw [update_of_ne (Nat.ne_of_lt (h.laid.2 k' hk').2.1)] at hlive
      obtain ⟨hlost, hapart⟩ := h.tail k' j hj hbehind hk' hlive
      have hkk : k ≠ k' := by
        have hother := hapart t
        rwa [hpc] at hother
      refine ⟨fun b => ?_, fun t' => ?_⟩
      · dsimp only [State.grown]
        split
        · exact hlost b
        · rw [update_of_ne hkk.symm]
          exact hlost b
      · rcases eq_or_ne t' t with rfl | hne
        · rw [update_self]
          exact fun heq => absurd heq hkk
        · rw [update_of_ne hne]
          exact hapart t'
    · -- the new block is empty
      rw [hz] at hlive
      dsimp only [State.grown] at hlive
      rw [update_self] at hlive
      exact absurd rfl hlive

theorem Sound.goto (h : Sound s home) {t : Nat} {pc : Pc} (hhandy : Handy s home pc)
    (hapart : ∀ k, s.zone k ≠ 0 → (∀ b, s.lost k b = false) → Apart k (s.zone k) pc) :
    Sound (s.goto t pc) home := by
  refine ⟨h.laid, h.lost, fun t' => ?_, fun k j hj hbehind hzone hlive => ?_⟩
  · dsimp only [State.goto]
    rcases eq_or_ne t' t with rfl | hne
    · rw [update_self]
      exact hhandy
    · rw [update_of_ne hne]
      exact h.handy t'
  · obtain ⟨hlost, hothers⟩ := h.tail k j hj hbehind hzone hlive
    refine ⟨hlost, fun t' => ?_⟩
    dsimp only [State.goto] at hzone ⊢
    rcases eq_or_ne t' t with rfl | hne
    · rw [update_self]
      exact hapart k hzone hlost
    · rw [update_of_ne hne]
      exact hothers t'

theorem Sound.place (h : Sound s home) {t k b j : Nat} {name : Name} (e : Entry)
    (hpc : s.task t = .add name k b) :
    Sound ({ s with entries := max s.entries (64 * k + j + 1) }.put b j e) home := by
  have hadd : Taken s home k b ∧ 64 * k ≤ s.entries := by
    have hhandy := h.handy t
    rwa [hpc] at hhandy
  have hentries : s.entries ≤ max s.entries (64 * k + j + 1) := Nat.le_max_left _ _
  refine ⟨h.laid, h.lost, fun t' => (h.handy t').mono hentries (Nat.le_refl _) fun _ _ => rfl,
    fun k' j' hj' hbehind hk' hlive => ?_⟩
  dsimp only [State.put] at hbehind hk' hlive ⊢
  refine h.tail k' j' hj' (Nat.le_trans hentries hbehind) hk' ?_
  rcases eq_or_ne (s.zone k') b with hb | hb
  · have hkk : k' = k := by rw [← (h.laid.2 k' hk').2.2, hb, hadd.1.2.2]
    have hjj : j' ≠ j := by omega
    rwa [hb, update_self, update_of_ne hjj, ← hb] at hlive
  · rwa [update_of_ne hb] at hlive

theorem Sound.clear (h : Sound s home) {b j : Nat} {label : List UInt8}
    {i_nlinks : Nat → UInt8} :
    Sound ({ s with i_nlinks := i_nlinks }.put b j ⟨0, label⟩) home := by
  refine ⟨h.laid, h.lost, h.handy, fun k' j' hj' hbehind hk' hlive => ?_⟩
  dsimp only [State.put] at hbehind hk' hlive ⊢
  refine h.tail k' j' hj' hbehind hk' ?_
  rcases eq_or_ne (s.zone k') b with hb | hb
  · rcases eq_or_ne j' j with hjj | hjj
    · rw [hb, hjj, update_self, update_self] at hlive
      exact absurd rfl hlive
    · rwa [hb, update_self, update_of_ne hjj, ← hb] at hlive
  · rwa [update_of_ne hb] at hlive

theorem Sound.losing (h : Sound s home) (ks : Nat → Bool) : Sound (s.losing ks) home := by
  refine ⟨⟨h.laid.1, fun k hk => ?_⟩, fun k b hlost hb => ?_, h.handy,
    fun k j hj hbehind hk hlive => ?_⟩
  · have hsame := (losing_zone hk).1
    rw [hsame] at hk ⊢
    exact h.laid.2 k hk
  · dsimp only [State.losing] at hlost
    split at hlost
    · rename_i hold
      obtain rfl := hold.2.2.resolve_left hb
      exact h.laid.2 k hb
    · exact h.lost k b hlost hb
  · obtain ⟨hsame, hlost⟩ := losing_zone hk
    rw [hsame] at hk hlive ⊢
    obtain ⟨hnone, hapart⟩ := h.tail k j hj hbehind hk hlive
    exact ⟨fun b => (hlost b).trans (hnone b), hapart⟩

theorem looked_handy {job : Job} {entries k b : Nat} (hentries : entries ≤ s.entries)
    (hb : b ≠ 0 → Taken s home k b) : Handy s home (looked job entries k b) := by
  unfold looked
  split
  · rename_i hne
    exact ⟨hb hne, hentries⟩
  · split
    · exact hentries
    · exact notFound_handy job

theorem looked_apart (job : Job) (entries k b k' b' : Nat) :
    Apart k' b' (looked job entries k b) := by
  unfold looked
  split
  · trivial
  · split
    · trivial
    · cases job <;> trivial

theorem Sound.effect {a : Act} (h : Sound s home) (he : Effect s a s') :
    ∃ home', Sound s' home' := by
  have hquiet : ∀ {t pc}, Quiet s (s.task t) pc → Sound (s.goto t pc) home := fun {t} {pc} hq =>
    h.goto (hq.handy h.laid (h.handy t)) fun k hk _ => hq.apart hk
  have hback : ∀ {s' t}, Sound s' home → Sound (s'.goto t .user) home := fun h' =>
    h'.goto trivial fun _ _ _ => trivial
  cases he with
  | begin t job hpc => exact ⟨home, hquiet (hpc ▸ .begin job)⟩
  | quiet _ t pc busy hq => exact ⟨home, hquiet hq⟩
  | old t job entries k b hpc hlost =>
      have hhandy := h.handy t
      rw [hpc] at hhandy
      exact ⟨home, h.goto (looked_handy hhandy (h.lost k b hlost.2)) fun k' _ _ =>
        looked_apart job entries k b k' _⟩
  | oldMore t name k b hpc hlost =>
      have hhandy := h.handy t
      rw [hpc] at hhandy
      refine ⟨home, h.goto ?_ fun k' _ hnone => ?_⟩
      · split
        · rename_i hb
          exact ⟨h.lost k b hlost.2 hb, hhandy.2⟩
        · exact hhandy
      · have hne : k ≠ k' := by
          rintro rfl
          exact absurd ((hnone b).symm.trans hlost.2) Bool.false_ne_true
        split
        · exact fun heq => absurd heq hne
        · exact hne
  | grow t visible name k hpc => exact ⟨_, h.grow visible hpc⟩
  | place t nr name k b j hpc hpos hfree => exact ⟨home, hback (h.place _ hpc)⟩
  | clear t name k b j inr i_nlinks hpc => exact ⟨home, hback h.clear⟩
  | lose ks => exact ⟨home, h.losing ks⟩
  | count inr n => exact ⟨home, h.laid, h.lost, h.handy, h.tail⟩

/-! ## Names -/

/-- A live entry with the name. -/
def Has (s : State) (name : Name) (k j : Nat) : Prop :=
  j < 64 ∧ 64 * k + j < s.entries ∧ s.zone k ≠ 0 ∧ (s.blk (s.zone k) j).inode ≠ 0 ∧
    (s.blk (s.zone k) j).label = name

/-- No two live entries have the same name. -/
def Unique (s : State) : Prop :=
  ∀ name k j k' j', Has s name k j → Has s name k' j' → k = k' ∧ j = j'

/-- A call that creates `name` and will not see entry `j` of block `k` any more. -/
def Missed (s : State) (name : Name) (k j : Nat) : Pc → Prop
  | .look (.create name') entries k' => name' = name ∧ (k < k' ∨ entries ≤ 64 * k + j)
  | .find (.create name') entries k' b =>
      name' = name ∧ (k < k' ∨ entries ≤ 64 * k + j ∨ k = k' ∧ b ≠ s.zone k)
  | .make name' => name' = name ∧ s.zone 0 ≠ 0
  | .more name' _ | .grow name' _ | .add name' _ _ => name' = name
  | _ => False

structure Named (s : State) : Prop where
  unique : Unique s
  seen : ∀ name k j, Has s name k j → ∀ t, ¬ Missed s name k j (s.task t)

/-- When an entry is added to the directory, no other call that creates the name has passed
its place; and where such a call reads a block that is no longer part of the directory, the
block in its place has no entry with the name. -/
def Ahead (s : State) : Act → Prop
  | .look t (some _) => ∀ name entries k, s.task t = .look (.create name) entries k →
      ∀ j, ¬ Has s name k j
  | .place t _ => ∀ name k b j, s.task t = .add name k b → freeIn s k b = some j →
      s.zone k = b → ∀ t', t' ≠ t → ¬ Missed s name k j (s.task t')
  | _ => True

theorem Missed.congr {name : Name} {k j : Nat} {pc : Pc} (h : Missed s' name k j pc)
    (hzone : s'.zone k = s.zone k) (hzero : s'.zone 0 = s.zone 0) : Missed s name k j pc := by
  cases pc with
  | user | hold | more | grow | add => exact h
  | look job => cases job <;> exact h
  | find job entries k' b =>
      cases job with
      | create name' =>
          refine ⟨h.1, ?_⟩
          rw [← hzone]
          exact h.2
      | unlink name' => exact h
  | make name' => exact ⟨h.1, hzero ▸ h.2⟩

theorem notFound_missed {job : Job} {name : Name} {k j : Nat}
    (h : Missed s name k j (notFound job)) : job = .create name ∧ s.zone 0 ≠ 0 := by
  cases job with
  | create name' => exact ⟨congrArg _ h.1, h.2⟩
  | unlink name' => exact h.elim

/-- What a call has seen it does not miss later. -/
theorem Quiet.missed {pc pc' : Pc} {name : Name} {k j : Nat} (h : Quiet s pc pc')
    (hhas : Has s name k j) (hm : Missed s name k j pc') : Missed s name k j pc := by
  obtain ⟨hj, hlt, hzone, hlive, hlabel⟩ := hhas
  -- the block of the entry has been looked through
  have hpassed : ∀ {name' : Name} {entries k' b : Nat}, name' = name → ¬ entries ≤ 64 * k + j →
      findIn (s.blk b) name' (min 64 (entries - 64 * k')) = none → k = k' → b ≠ s.zone k := by
    rintro name' entries k' b rfl hin hnone rfl rfl
    exact findIn_none hnone (by omega) hlive hlabel
  cases h with
  | begin job =>
      cases job with
      | create name' => exact absurd hm.2 (by omega)
      | unlink name' => exact hm
  | read hz =>
      rename_i job entries k'
      cases job with
      | create name' =>
          refine ⟨hm.1, ?_⟩
          rcases hm.2 with hpast | hend | ⟨rfl, hne⟩
          · exact .inl hpast
          · exact .inr hend
          · exact absurd rfl hne
      | unlink name' => exact hm
  | skip hz =>
      rename_i job entries k'
      cases job with
      | create name' =>
          have hne : k ≠ k' := fun heq => hzone (heq ▸ hz)
          refine ⟨hm.1, ?_⟩
          have := hm.2
          omega
      | unlink name' => exact hm
  | hole hz hlast =>
      rename_i job entries k'
      obtain ⟨rfl, hzero⟩ := notFound_missed hm
      have hne : k ≠ k' := fun heq => hzone (heq ▸ hz)
      have hk' : k' ≠ 0 := fun heq => hzero (heq ▸ hz)
      exact ⟨rfl, by omega⟩
  | exists_ | found | quit => exact hm.elim
  | next hnone =>
      rename_i job entries k' b
      cases job with
      | create name' =>
          have hblock := fun hin => hpassed hm.1 hin hnone
          refine ⟨hm.1, ?_⟩
          by_cases hin : entries ≤ 64 * k + j
          · exact .inr (.inl hin)
          · have := hm.2
            rcases eq_or_ne k k' with heq | hne
            · exact .inr (.inr ⟨heq, hblock hin heq⟩)
            · omega
      | unlink name' => exact hm
  | ends hnone hlast =>
      rename_i job entries k' b
      obtain ⟨rfl, hzero⟩ := notFound_missed hm
      have hblock := fun hin => hpassed rfl hin hnone
      refine ⟨rfl, ?_⟩
      by_cases hin : entries ≤ 64 * k + j
      · exact .inr (.inl hin)
      · rcases eq_or_ne k k' with heq | hne
        · exact .inr (.inr ⟨heq, hblock hin heq⟩)
        · omega
  | made hz => exact ⟨hm, hz⟩
  | there | missing | full => exact hm

/-- A step that adds no entry and that makes nobody miss one. -/
theorem Named.shrink (h : Named s)
    (hhas : ∀ name k j, Has s' name k j → Has s name k j ∧ s'.zone k = s.zone k)
    (hzero : s'.zone 0 = s.zone 0)
    (hmissed : ∀ name k j, Has s name k j → ∀ t, Missed s name k j (s'.task t) →
      Missed s name k j (s.task t)) : Named s' := by
  constructor
  · intro name k j k' j' hk hk'
    exact h.unique name k j k' j' (hhas _ _ _ hk).1 (hhas _ _ _ hk').1
  · intro name k j hk t hm
    obtain ⟨hold, hzone⟩ := hhas _ _ _ hk
    exact h.seen name k j hold t (hmissed name k j hold t (hm.congr hzone hzero))

/-- Where an entry is added, this one at most becomes part of the directory. -/
theorem has_place (hs : Sound s home) {t k b j nr : Nat} {name name' : Name} {k' j' : Nat}
    (hpc : s.task t = .add name k b) (hfree : freeIn s k b = some j)
    (h : Has (({ s with entries := max s.entries (64 * k + j + 1) }.put b j
      ⟨nr, name⟩).goto t .user) name' k' j') :
    Has s name' k' j' ∨ name' = name ∧ k' = k ∧ j' = j ∧ s.zone k = b := by
  have hadd : Taken s home k b ∧ 64 * k ≤ s.entries := by
    have hhandy := hs.handy t
    rwa [hpc] at hhandy
  have hle := freeIn_le hfree hadd.2
  obtain ⟨hj64, -⟩ := freeIn_some hfree
  obtain ⟨hj, hlt, hzone, hlive, hlabel⟩ := h
  dsimp only [State.goto, State.put] at hlt hzone hlive hlabel
  by_cases hplace : s.zone k' = b ∧ j' = j
  · obtain ⟨rfl, rfl⟩ := hplace
    have hkk : k' = k := by rw [← (hs.laid.2 k' hzone).2.2, hadd.1.2.2]
    subst hkk
    rw [update_self, update_self] at hlabel
    exact .inr ⟨hlabel.symm, rfl, rfl, rfl⟩
  · have hblk : update s.blk b (update (s.blk b) j ⟨nr, name⟩) (s.zone k') j' =
        s.blk (s.zone k') j' := by
      rcases eq_or_ne (s.zone k') b with hb | hb
      · rw [hb, update_self, update_of_ne fun hjj => hplace ⟨hb, hjj⟩]
      · rw [update_of_ne hb]
    rw [hblk] at hlive hlabel
    refine .inl ⟨hj, ?_, hzone, hlive, hlabel⟩
    -- an entry that the length uncovers is in the block that the task has in hand
    by_contra hbehind
    obtain ⟨rfl, rfl⟩ : k' = k ∧ j' = j := by omega
    have hapart := (hs.tail k' j' hj (Nat.le_of_not_lt hbehind) hzone hlive).2 t
    rw [hpc] at hapart
    exact hplace ⟨(hapart rfl).symm, rfl⟩

theorem has_clear {t b j : Nat} {i_nlinks : Nat → UInt8} {label : List UInt8} {name : Name}
    {k' j' : Nat}
    (h : Has (({ s with i_nlinks := i_nlinks }.put b j ⟨0, label⟩).goto t .user) name k' j') :
    Has s name k' j' := by
  obtain ⟨hj, hlt, hzone, hlive, hlabel⟩ := h
  dsimp only [State.goto, State.put] at hlt hzone hlive hlabel
  have hblk : update s.blk b (update (s.blk b) j ⟨0, label⟩) (s.zone k') j' =
      s.blk (s.zone k') j' := by
    rcases eq_or_ne (s.zone k') b with hb | hb
    · rcases eq_or_ne j' j with rfl | hjj
      · rw [hb, update_self, update_self] at hlive
        exact absurd rfl hlive
      · rw [hb, update_self, update_of_ne hjj]
    · rw [update_of_ne hb]
  rw [hblk] at hlive hlabel
  exact ⟨hj, hlt, hzone, hlive, hlabel⟩

theorem has_grown (hs : Sound s home) {k : Nat} {name : Name} {visible : Bool} {k' j' : Nat}
    (h : Has (s.grown k visible) name k' j') :
    Has s name k' j' ∧ (s.grown k visible).zone k' = s.zone k' := by
  obtain ⟨hj, hlt, hzone, hlive, hlabel⟩ := h
  rcases grown_zone s k visible k' with hold | ⟨-, hnew⟩
  · rw [hold] at hzone hlive hlabel
    dsimp only [State.grown] at hlive hlabel
    rw [update_of_ne (Nat.ne_of_lt (hs.laid.2 k' hzone).2.1)] at hlive hlabel
    exact ⟨⟨hj, hlt, hzone, hlive, hlabel⟩, hold⟩
  · rw [hnew] at hlive
    dsimp only [State.grown] at hlive
    rw [update_self] at hlive
    exact absurd rfl hlive

theorem looked_missed {job : Job} {name : Name} {entries k' b k j : Nat}
    (h : Missed s name k j (looked job entries k' b)) (hseven : 7 ≤ k')
    (hnone : ∀ name', job = .create name' → ∀ j, ¬ Has s name' k' j) (hhas : Has s name k j) :
    Missed s name k j (.look job entries k') := by
  have hne : job = .create name → k ≠ k' := by
    rintro hjob rfl
    exact hnone name hjob j hhas
  unfold looked at h
  split at h
  · cases job with
    | create name' =>
        obtain ⟨rfl, hpast⟩ := h
        have := hne rfl
        exact ⟨rfl, by omega⟩
    | unlink name' => exact h
  · split at h
    · cases job with
      | create name' =>
          obtain ⟨rfl, hpast⟩ := h
          have := hne rfl
          exact ⟨rfl, by omega⟩
      | unlink name' => exact h
    · obtain ⟨rfl, -⟩ := notFound_missed h
      have := hne rfl
      exact ⟨rfl, by omega⟩

theorem Named.effect {a : Act} (h : Named s) (hs : Sound s home) (hok : Ahead s a)
    (he : Effect s a s') : Named s' := by
  -- what the task itself misses at its new place
  have hgoto : ∀ {t pc}, (∀ name k j, Has s name k j → Missed s name k j pc →
      Missed s name k j (s.task t)) → Named (s.goto t pc) := by
    intro t pc hpc
    refine h.shrink (fun name k j hk => ⟨hk, rfl⟩) rfl fun name k j hk t' hm => ?_
    dsimp only [State.goto] at hm
    rcases eq_or_ne t' t with rfl | hne
    · rw [update_self] at hm
      exact hpc name k j hk hm
    · rwa [update_of_ne hne] at hm
  cases he with
  | begin t job hpc =>
      refine hgoto fun name k j hk hm => ?_
      rw [hpc]
      exact (Quiet.begin job).missed hk hm
  | quiet _ t pc busy hq => exact hgoto fun name k j hk hm => hq.missed hk hm
  | old t job entries k b hpc hlost =>
      refine hgoto fun name k' j' hk hm => ?_
      rw [hpc]
      refine looked_missed hm hlost.1 (fun name' hjob => ?_) hk
      exact hok name' entries k (hpc.trans (hjob ▸ rfl))
  | oldMore t name k b hpc hlost =>
      refine hgoto fun name' k' j' hk hm => ?_
      rw [hpc]
      split at hm <;> exact hm
  | grow t visible name k hpc =>
      have hgrow : k ≠ 0 ∧ 64 * k ≤ s.entries := by
        have hhandy := hs.handy t
        rwa [hpc] at hhandy
      refine h.shrink (fun name' k' j' hk => ?_) ?_ fun name' k' j' hk t' hm => ?_
      · have hk : Has (s.grown k visible) name' k' j' := hk
        exact has_grown hs hk
      · rcases grown_zone s k visible 0 with hold | ⟨hzero, -⟩
        · exact hold
        · exact absurd hzero.symm hgrow.1
      · dsimp only [State.goto] at hm
        rcases eq_or_ne t' t with rfl | hne
        · rw [update_self] at hm
          rw [hpc]
          exact hm
        · rwa [update_of_ne hne] at hm
  | place t nr name k b j hpc hpos hfree =>
      -- the task itself has missed no entry of its name: there is none
      have hnone : ∀ k' j', ¬ Has s name k' j' := by
        intro k' j' hk
        refine h.seen name k' j' hk t ?_
        rw [hpc]
        rfl
      constructor
      · intro name' k₁ j₁ k₂ j₂ h₁ h₂
        rcases has_place hs hpc hfree h₁ with hold₁ | ⟨rfl, rfl, rfl, -⟩
        · rcases has_place hs hpc hfree h₂ with hold₂ | ⟨rfl, -⟩
          · exact h.unique name' k₁ j₁ k₂ j₂ hold₁ hold₂
          · exact absurd hold₁ (hnone _ _)
        · rcases has_place hs hpc hfree h₂ with hold₂ | ⟨-, rfl, rfl, -⟩
          · exact absurd hold₂ (hnone _ _)
          · exact ⟨rfl, rfl⟩
      · intro name' k' j' hk t' hm
        dsimp only [State.goto] at hm
        rcases eq_or_ne t' t with rfl | hne
        · rw [update_self] at hm
          exact hm
        · rw [update_of_ne hne] at hm
          have hm : Missed s name' k' j' (s.task t') := hm.congr rfl rfl
          rcases has_place hs hpc hfree hk with hk | ⟨rfl, rfl, rfl, hzone⟩
          · exact h.seen name' k' j' hk t' hm
          · exact hok name' k' b j' hpc hfree hzone t' hne hm
  | clear t name k b j inr i_nlinks hpc =>
      refine h.shrink (fun name' k' j' hk => ⟨has_clear hk, rfl⟩) rfl
        fun name' k' j' hk t' hm => ?_
      dsimp only [State.goto] at hm
      rcases eq_or_ne t' t with rfl | hne
      · rw [update_self] at hm
        exact hm.elim
      · rwa [update_of_ne hne] at hm
  | lose ks =>
      refine h.shrink (fun name' k' j' hk => ?_) (if_neg (by omega)) fun _ _ _ _ _ hm => hm
      obtain ⟨hj, hlt, hzone, hlive, hlabel⟩ := hk
      have hsame := (losing_zone hzone).1
      rw [hsame] at hzone hlive hlabel
      exact ⟨⟨hj, hlt, hzone, hlive, hlabel⟩, hsame⟩
  | count inr n =>
      exact h.shrink (fun _ _ _ hk => ⟨hk, rfl⟩) rfl fun _ _ _ _ _ hm => hm

theorem Start.named (h : Start s) (hunique : Unique s) : Named s := by
  refine ⟨hunique, fun name k j _ t hm => ?_⟩
  rw [h.user] at hm
  exact hm

/-- Any number of calls on one directory, in any order of their steps: if no entry is added
behind the back of another call that creates the same name, the names stay different. -/
theorem names_unique {s₀ : State} (hstart : Start s₀) (hunique : Unique s₀)
    (h : Reach step Ahead s₀ s) : Unique s := by
  have hinv : Named s ∧ ∃ home, Sound s home := by
    refine h.invariant (I := fun s => Named s ∧ ∃ home, Sound s home)
      ⟨hstart.named hunique, hstart.sound⟩ fun s a s' hi hok hs => ?_
    obtain ⟨hnamed, home, hsound⟩ := hi
    have he := step_effect hs
    exact ⟨hnamed.effect hsound hok he, hsound.effect he⟩
  exact hinv.1.unique

/-! ## A directory with one block -/

section Room

/-- A directory without entries, and task `t` in user mode. -/
def room : State where
  entries := 0
  zone := fun k => if k = 0 then 1 else 0
  lost := fun _ _ => false
  blk := fun _ _ => ⟨0, []⟩
  fresh := 2
  i_nlinks := fun _ => 1
  task := fun _ => .user

theorem room_start : Start room where
  user := fun _ => rfl
  lost := fun _ _ => rfl
  laid := by
    refine ⟨fun _ => 0, Nat.zero_lt_two, fun k hk => ?_⟩
    have hzero : k = 0 := by
      by_contra hne
      exact hk (if_neg hne)
    subst hzero
    exact ⟨Nat.one_ne_zero, Nat.lt_succ_self 1, rfl⟩

theorem room_unique : Unique room :=
  fun _ _ _ _ _ h _ => absurd h.2.1 (Nat.not_lt_zero _)

end Room

theorem names_unique_one : ∃ s,
    exec step room [.begin 0 (.create [97]), .look 0 none, .scan 0, .made 0 true, .place 0 5]
      = some s ∧ Has s [97] 0 0 ∧ Unique s := by
  have h₁ : Reach step Ahead room room := .start
  have h₂ := h₁.next (a := Act.begin 0 (.create [97])) trivial rfl
  have h₃ := h₂.next (a := Act.look 0 none) trivial rfl
  have h₄ := h₃.next (a := Act.scan 0) trivial rfl
  have h₅ := h₄.next (a := Act.made 0 true) trivial rfl
  refine ⟨_, rfl, ?_, names_unique room_start room_unique (h₅.next (a := Act.place 0 5) ?_ rfl)⟩
  · exact ⟨by decide, by decide, by decide, by decide, rfl⟩
  · intro name k b j _ _ _ t' ht' hm
    dsimp only [State.goto] at hm
    rw [update_of_ne ht', update_of_ne ht', update_of_ne ht', update_of_ne ht'] at hm
    exact hm

/-- Two calls of `creat` have looked for the name before one of them adds it. -/
theorem not_names_unique :
    ¬ ∀ {s₀ s : State}, Start s₀ → Unique s₀ → Reach step Free s₀ s → Unique s := by
  intro h
  have hrun : ∃ s, exec step room [.begin 0 (.create [97]), .begin 1 (.create [97]), .look 0 none,
      .scan 0, .look 1 none, .scan 1, .made 0 true, .place 0 5, .made 1 true, .place 1 6] = some s ∧
      Has s [97] 0 0 ∧ Has s [97] 0 1 := by
    refine ⟨_, rfl, ?_, ?_⟩
    · exact ⟨by decide, by decide, by decide, by decide, rfl⟩
    · exact ⟨by decide, by decide, by decide, by decide, rfl⟩
  obtain ⟨s, hexec, hfirst, hsecond⟩ := hrun
  have hunique := h room_start room_unique (exec_reach hexec) _ _ _ _ _ hfirst hsecond
  exact absurd hunique.2 (by decide)

/-! ## `sys_unlink` -/

/-- The entry that a call of `sys_unlink` has in hand. -/
def Held (s : State) : Pc → Prop
  | .hold name _ b j inr => s.blk b j = ⟨inr, name⟩ ∧ inr ≠ 0
  | _ => True

/-- When a call clears an entry, no other call of `sys_unlink` has it in hand. -/
def Alone (s : State) : Act → Prop
  | .clear t => ∀ name k b j inr, s.task t = .hold name k b j inr →
      ∀ t', t' ≠ t → ∀ name' k' inr', s.task t' ≠ .hold name' k' b j inr'
  | _ => True

/-- Writing another entry leaves the one in hand as it is. -/
theorem Held.put {pc : Pc} {b j : Nat} {e : Entry} {s' : State} (h : Held s pc)
    (hne : ∀ name k inr, pc ≠ .hold name k b j inr)
    (hblk : s'.blk = update s.blk b (update (s.blk b) j e)) : Held s' pc := by
  cases pc with
  | hold name k b' j' inr =>
      refine ⟨?_, h.2⟩
      rw [hblk]
      rcases eq_or_ne b' b with rfl | hb
      · have hj : j' ≠ j := fun heq => hne name k inr (heq ▸ rfl)
        rw [update_self, update_of_ne hj]
        exact h.1
      · rw [update_of_ne hb]
        exact h.1
  | user | look | find | make | more | grow | add => trivial

theorem Quiet.held {pc pc' : Pc} (h : Quiet s pc pc') : Held s pc' := by
  cases h with
  | begin | read | skip | exists_ | next | made | there | missing | full | quit => trivial
  | hole | ends => cases ‹Job› <;> trivial
  | found hj =>
      obtain ⟨-, hlive, hlabel⟩ := findIn_some hj
      refine ⟨?_, hlive⟩
      rw [← hlabel]

theorem looked_held (job : Job) (entries k b : Nat) : Held s (looked job entries k b) := by
  unfold looked
  split
  · trivial
  · split
    · trivial
    · cases job <;> trivial

theorem held_effect {a : Act} (h : ∀ t, Held s (s.task t)) (hs : Sound s home) (hok : Alone s a)
    (he : Effect s a s') : ∀ t, Held s' (s'.task t) := by
  -- the other tasks, and the task itself at its new place
  have hmoved : ∀ {s' : State} {t : Nat} {pc : Pc}, Held s' pc →
      (∀ t', t' ≠ t → Held s' (s.task t')) → ∀ t', Held s' (update s.task t pc t') := by
    intro s' t pc hpc hothers t'
    rcases eq_or_ne t' t with rfl | hne
    · rwa [update_self]
    · rw [update_of_ne hne]
      exact hothers t' hne
  cases he with
  | begin t job hpc => exact hmoved trivial fun t' _ => h t'
  | quiet _ t pc busy hq =>
      have hheld : Held (s.goto t pc) pc := hq.held
      exact hmoved hheld fun t' _ => h t'
  | old t job entries k b hpc hlost =>
      have hheld : Held (s.goto t (looked job entries k b)) (looked job entries k b) :=
        looked_held job entries k b
      exact hmoved hheld fun t' _ => h t'
  | oldMore t name k b hpc hlost =>
      refine hmoved ?_ fun t' _ => h t'
      split <;> trivial
  | grow t visible name k hpc =>
      refine hmoved trivial fun t' _ => ?_
      have hheld := h t'
      have hhandy := hs.handy t'
      cases hpc' : s.task t' with
      | hold name k b j inr =>
          rw [hpc'] at hheld hhandy
          refine ⟨?_, hheld.2⟩
          dsimp only [State.goto, State.grown]
          rw [update_of_ne (Nat.ne_of_lt hhandy.1.2.1)]
          exact hheld.1
      | user | look | find | make | more | grow | add => trivial
  | place t nr name k b j hpc hpos hfree =>
      refine hmoved trivial fun t' _ => (h t').put (fun name' k' inr' hpc' => ?_) rfl
      have hheld := h t'
      have hhandy := hs.handy t'
      have hadd := hs.handy t
      rw [hpc'] at hheld hhandy
      rw [hpc] at hadd
      -- an entry in hand is neither free nor behind the last one
      have hkk : k' = k := hhandy.1.2.2.symm.trans hadd.1.2.2
      rcases (freeIn_some hfree).2.1 with hbehind | hzero
      · have := hhandy.2.2
        omega
      · rw [hheld.1] at hzero
        exact hheld.2 hzero
  | clear t name k b j inr i_nlinks hpc =>
      exact hmoved trivial fun t' hne =>
        (h t').put (hok name k b j inr hpc t' hne · · ·) rfl
  | lose ks => exact h
  | count inr n => exact h

/-- Entry `j` of block `b` is removed, and the link of inode `inr`; all else stays. -/
structure Removes (s s' : State) (name : Name) (b j inr : Nat) : Prop where
  entry : s.blk b j = ⟨inr, name⟩
  cleared : s'.blk b j = ⟨0, name⟩
  others : ∀ b' j', ¬ (b' = b ∧ j' = j) → s'.blk b' j' = s.blk b' j'
  entries : s'.entries = s.entries
  zone : s'.zone = s.zone
  i_nlinks : s'.i_nlinks inr = (if s.i_nlinks inr = 0 then 1 else s.i_nlinks inr) - 1
  counts : ∀ n, n ≠ inr → s'.i_nlinks n = s.i_nlinks n

/-- Any number of calls on one directory, in any order of their steps: if no entry is cleared
that another call of `sys_unlink` has in hand, then `sys_unlink(name)` clears an entry with
this name, and the link count that goes down is the one of the inode that the entry names. -/
theorem unlink_own_entry {s₀ : State} {t k b j inr : Nat} {name : Name} (hstart : Start s₀)
    (h : Reach step Alone s₀ s) (hpc : s.task t = .hold name k b j inr)
    (hs : step s (.clear t) = some s') : Removes s s' name b j inr := by
  have hinv : (∀ t, Held s (s.task t)) ∧ ∃ home, Sound s home := by
    refine h.invariant (I := fun s => (∀ t, Held s (s.task t)) ∧ ∃ home, Sound s home)
      ⟨fun t => ?_, hstart.sound⟩ fun s a s' hi hok hs => ?_
    · rw [hstart.user]
      trivial
    · obtain ⟨hheld, home, hsound⟩ := hi
      have he := step_effect hs
      exact ⟨held_effect hheld hsound hok he, hsound.effect he⟩
  have hheld := hinv.1 t
  rw [hpc] at hheld
  have hblk : s.blk b j = ⟨inr, name⟩ := hheld.1
  dsimp only [step] at hs
  rw [hpc] at hs
  dsimp only at hs
  rw [hblk] at hs
  obtain rfl := Option.some.inj hs
  dsimp only [State.goto, State.put]
  exact {
    entry := hblk
    cleared := by
      dsimp only
      rw [update_self, update_self]
    others := by
      intro b' j' hne
      dsimp only
      rcases eq_or_ne b' b with rfl | hb
      · rw [update_self, update_of_ne fun heq => hne ⟨rfl, heq⟩]
      · rw [update_of_ne hb]
    entries := rfl
    zone := rfl
    i_nlinks := update_self _ _ _
    counts := fun n hn => update_of_ne hn _ _ }

/-- The directory with one entry. -/
def single : State :=
  { room with
    entries := 1
    blk := update room.blk 1 (update (room.blk 1) 0 ⟨5, [97]⟩) }

theorem single_start : Start single := ⟨room_start.user, room_start.lost, room_start.laid⟩

theorem unlink_own_entry_single : ∃ s s' : State,
    exec step single [.begin 0 (.unlink [97]), .look 0 none, .scan 0] = some s ∧
      step s (.clear 0) = some s' ∧ Removes s s' [97] 1 0 5 := by
  have h₁ : Reach step Alone single single := .start
  have h₂ := h₁.next (a := Act.begin 0 (.unlink [97])) trivial rfl
  have h₃ := h₂.next (a := Act.look 0 none) trivial rfl
  have h₄ := h₃.next (a := Act.scan 0) trivial rfl
  exact ⟨_, _, rfl, rfl, unlink_own_entry (k := 0) (t := 0) single_start h₄ rfl rfl⟩

/-- A call sleeps in `iget`; meanwhile another one removes the entry and a third one uses it
for a file of another name. -/
theorem not_unlink_own_entry :
    ¬ ∀ {s₀ s s' : State} {t k b j inr : Nat} {name : Name}, Start s₀ → Reach step Free s₀ s →
      s.task t = .hold name k b j inr → step s (.clear t) = some s' →
        Removes s s' name b j inr := by
  intro h
  have hrun : ∃ s, exec step single [.begin 0 (.unlink [97]), .look 0 none, .scan 0,
      .begin 1 (.unlink [97]), .look 1 none, .scan 1, .clear 1, .begin 2 (.create [98]),
      .look 2 none,
      .scan 2, .made 2 true, .place 2 6] = some s ∧ s.task 0 = .hold [97] 0 1 0 5 ∧
      s.blk 1 0 = ⟨6, [98]⟩ := ⟨_, rfl, rfl, rfl⟩
  obtain ⟨s, hexec, hpc, hblk⟩ := hrun
  have hclear : ∃ s', step s (.clear 0) = some s' := by
    dsimp only [step]
    rw [hpc]
    exact ⟨_, rfl⟩
  obtain ⟨s', hs'⟩ := hclear
  have hentry := (h single_start (exec_reach hexec) hpc hs').entry
  rw [hblk] at hentry
  exact absurd (congrArg Entry.inode hentry) (by decide)

end DirCalls

end Linux011
