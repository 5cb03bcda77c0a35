import Linux011.DoubleLinks
import Linux011.Runs
import Mathlib.Data.Fintype.Card
import Mathlib.Data.List.FinRange

/-!
# The buffer cache

`fs/buffer.c`: the heads with their hash queues and the free list, and tasks inside `getblk`,
`get_hash_table` and `brelse`. A step of a task ends where the code may sleep (`wait_on_buffer`,
`buffer_wait`, `sync_dev`) and at the two labels it jumps back to, so that every interleaving of
the code is a run here. What the rest of the kernel and the interrupts do to the flags of a head
is a step of its own.

The cache is two linked structures over the same heads, and each operation of the source works on
the pointers of both. `DoubleLinks` has the general facts: a ring and a chain are lists of nodes
that the pointers follow in both directions, and unlinking and linking a node are changes of
these lists. Here `removeFromHash`, `insertIntoHash` and the rest are shown to be just that, so
that `take_spec` can say what `getblk` does with the head that it has chosen without a pointer in
it: the head gets another device and block and is held once, and leaves the one queue for the
other.

`Consistent` is the invariant of every interleaving. The point where it could break is the sleep:
a task has chosen a head, sleeps, and finds another task to have put the same block into the
cache meanwhile. The source looks again, and `GetblkStep` shows where: in the step that takes a
head no sleep lies between the last look and `take`, so that the block is in no other head
(`Unique`). That heads in use keep their blocks (`step_busy`) holds because this step only takes
a head that is neither held nor locked nor dirty.
-/

namespace Linux011

open Function DoubleLinks Runs

def NR_HASH : Nat := 307

/-- The buffer heads, field by field, with the tables that point to them. -/
structure Buffers (n : Nat) where
  b_blocknr : Fin n → UInt32
  b_dev : Fin n → UInt16
  b_uptodate : Fin n → Bool
  b_dirt : Fin n → Bool
  b_count : Fin n → UInt8
  b_lock : Fin n → Bool
  b_prev : Fin n → Option (Fin n)
  b_next : Fin n → Option (Fin n)
  b_prev_free : Fin n → Option (Fin n)
  b_next_free : Fin n → Option (Fin n)
  hash_table : Nat → Option (Fin n)
  free_list : Fin n

def hashfn (dev : UInt16) (block : UInt32) : Nat := (dev.toUInt32 ^^^ block).toNat % NR_HASH

namespace Buffers

variable {n : Nat}

/-- The hash queue that the device and block of a head select. -/
def hashOf (s : Buffers n) (bh : Fin n) : Nat := hashfn (s.b_dev bh) (s.b_blocknr bh)

/-! ## Queues -/

def removeFromHash (s : Buffers n) (bh : Fin n) : Buffers n :=
  let s := match s.b_next bh with
    | some next => { s with b_prev := update s.b_prev next (s.b_prev bh) }
    | none => s
  let s := match s.b_prev bh with
    | some prev => { s with b_next := update s.b_next prev (s.b_next bh) }
    | none => s
  if s.hash_table (s.hashOf bh) = some bh then
    { s with hash_table := update s.hash_table (s.hashOf bh) (s.b_next bh) }
  else s

/-- A null pointer here is the panic "Free block list corrupted". -/
def removeFromFree (s : Buffers n) (bh : Fin n) : Option (Buffers n) :=
  match s.b_prev_free bh, s.b_next_free bh with
  | some prev, some next =>
      some { s with
        b_next_free := update s.b_next_free prev (some next)
        b_prev_free := update s.b_prev_free next (some prev)
        free_list := if s.free_list = bh then next else s.free_list }
  | _, _ => none

def removeFromQueues (s : Buffers n) (bh : Fin n) : Option (Buffers n) :=
  (s.removeFromHash bh).removeFromFree bh

/-- The end of the free list; `none` when the pointer in front of it is null. -/
def putAtEnd (s : Buffers n) (bh : Fin n) : Option (Buffers n) :=
  let s := { s with
    b_next_free := update s.b_next_free bh (some s.free_list)
    b_prev_free := update s.b_prev_free bh (s.b_prev_free s.free_list) }
  (s.b_prev_free s.free_list).map fun last => { s with
    b_next_free := update s.b_next_free last (some bh)
    b_prev_free := update s.b_prev_free s.free_list (some bh) }

/-- The store through a null `b_next` touches no buffer head. -/
def insertIntoHash (s : Buffers n) (bh : Fin n) : Buffers n :=
  let s := { s with b_prev := update s.b_prev bh none, b_next := update s.b_next bh none }
  if s.b_dev bh = 0 then s
  else
    let s := { s with
      b_next := update s.b_next bh (s.hash_table (s.hashOf bh))
      hash_table := update s.hash_table (s.hashOf bh) (some bh) }
    match s.b_next bh with
    | some next => { s with b_prev := update s.b_prev next (some bh) }
    | none => s

def insertIntoQueues (s : Buffers n) (bh : Fin n) : Option (Buffers n) :=
  (s.putAtEnd bh).map fun s => s.insertIntoHash bh

def Carries (s : Buffers n) (dev : UInt16) (block : UInt32) (bh : Fin n) : Prop :=
  s.b_dev bh = dev ∧ s.b_blocknr bh = block

instance (s : Buffers n) (dev : UInt16) (block : UInt32) (bh : Fin n) :
    Decidable (s.Carries dev block bh) := inferInstanceAs (Decidable (_ ∧ _))

def findBuffer (s : Buffers n) (dev : UInt16) (block : UInt32) : Option (Fin n) :=
  search s.b_next (fun bh => s.Carries dev block bh) n (s.hash_table (hashfn dev block))

/-! ## Choosing a head -/

def badness (s : Buffers n) (bh : Fin n) : Nat := 2 * (s.b_dirt bh).toNat + (s.b_lock bh).toNat

/-- The loop over the free list, from `tmp` with the head `bh` found so far. -/
def scan (s : Buffers n) : Nat → Fin n → Option (Fin n) → Option (Fin n)
  | 0, _, bh => bh
  | fuel + 1, tmp, bh =>
      let better := s.b_count tmp = 0 ∧ ∀ b ∈ bh, s.badness tmp < s.badness b
      if better ∧ s.badness tmp = 0 then some tmp
      else
        let bh := if better then some tmp else bh
        match s.b_next_free tmp with
        | some next => if next = s.free_list then bh else s.scan fuel next bh
        | none => bh

def scanFree (s : Buffers n) : Option (Fin n) := s.scan n s.free_list none

/-- The end of `getblk`: the head gets the new device and block. -/
def take (s : Buffers n) (dev : UInt16) (block : UInt32) (bh : Fin n) : Option (Buffers n) := do
  let s := { s with
    b_count := update s.b_count bh 1
    b_dirt := update s.b_dirt bh false
    b_uptodate := update s.b_uptodate bh false }
  let s ← s.removeFromQueues bh
  let s := { s with
    b_dev := update s.b_dev bh dev
    b_blocknr := update s.b_blocknr bh block }
  s.insertIntoQueues bh

end Buffers

/-- The heads as `buffer_init` leaves them; it stores no `b_blocknr`. -/
def bufferInit {n : Nat} (hn : 0 < n) (b_blocknr : Fin n → UInt32) : Buffers n where
  b_blocknr := b_blocknr
  b_dev _ := 0
  b_uptodate _ := false
  b_dirt _ := false
  b_count _ := 0
  b_lock _ := false
  b_prev _ := none
  b_next _ := none
  b_prev_free h := if h.val = 0 then some ⟨n - 1, by omega⟩ else some ⟨h - 1, by omega⟩
  b_next_free h := if h : h.val + 1 < n then some ⟨_, h⟩ else some ⟨0, hn⟩
  hash_table _ := none
  free_list := ⟨0, hn⟩

/-! ## Tasks -/

namespace Buffer

inductive Call (n : Nat) where
  | getblk (dev : UInt16) (block : UInt32)
  | get_hash_table (dev : UInt16) (block : UInt32)
  | brelse (buf : Option (Fin n))

/-- Where a task is. `get_hash_table` remembers whether `getblk` has called it. -/
inductive Pc (n : Nat) where
  /-- outside, with what the last call has returned -/
  | user (ret : Option (Fin n))
  /-- `get_hash_table` in front of `find_buffer` -/
  | find (getblk : Bool) (dev : UInt16) (block : UInt32)
  /-- `get_hash_table` in `wait_on_buffer` -/
  | found (getblk : Bool) (dev : UInt16) (block : UInt32) (bh : Fin n)
  /-- `getblk` on `buffer_wait` -/
  | buffer_wait (dev : UInt16) (block : UInt32)
  /-- `getblk` in either `wait_on_buffer` -/
  | chosen (dev : UInt16) (block : UInt32) (bh : Fin n)
  | sync_dev (dev : UInt16) (block : UInt32) (bh : Fin n)
  /-- `brelse` in `wait_on_buffer` -/
  | brelse (buf : Fin n)

structure System (n : Nat) where
  cache : Buffers n
  pc : Nat → Pc n

variable {n : Nat}

def enter : Call n → Pc n
  | .getblk dev block => .find true dev block
  | .get_hash_table dev block => .find false dev block
  | .brelse (some buf) => .brelse buf
  | .brelse none => .user none

/-- A task goes on to the next point where it may be switched. -/
def resume (s : Buffers n) : Pc n → Option (Pc n × Buffers n)
  | .user _ => none
  | .find getblk dev block =>
      match s.findBuffer dev block with
      | some bh =>
          some (.found getblk dev block bh,
            { s with b_count := update s.b_count bh (s.b_count bh + 1) })
      | none =>
          if getblk then
            match s.scanFree with
            | some bh => some (.chosen dev block bh, s)
            | none => some (.buffer_wait dev block, s)
          else some (.user none, s)
  | .found getblk dev block bh =>
      if s.b_lock bh then none
      else if s.Carries dev block bh then some (.user (some bh), s)
      else some (.find getblk dev block,
        { s with b_count := update s.b_count bh (s.b_count bh - 1) })
  | .buffer_wait dev block => some (.find true dev block, s)
  | .chosen dev block bh =>
      if s.b_lock bh then none
      else if s.b_count bh ≠ 0 then some (.find true dev block, s)
      else if s.b_dirt bh then some (.sync_dev dev block bh, s)
      else if (s.findBuffer dev block).isSome then some (.find true dev block, s)
      else (s.take dev block bh).map fun s => (.user (some bh), s)
  | .sync_dev dev block bh => some (.chosen dev block bh, s)
  | .brelse buf =>
      if s.b_lock buf then none
      else if s.b_count buf = 0 then none
      else some (.user none, { s with b_count := update s.b_count buf (s.b_count buf - 1) })

inductive Act (n : Nat) where
  | call (t : Nat) (c : Call n)
  | run (t : Nat)
  /-- the flags of a head change under other parts of the kernel -/
  | flags (bh : Fin n) (uptodate dirt lock : Bool)

def step (s : System n) : Act n → Option (System n)
  | .call t c =>
      match s.pc t with
      | .user _ => some { s with pc := update s.pc t (enter c) }
      | _ => none
  | .run t =>
      (resume s.cache (s.pc t)).map fun (pc, cache) => ⟨cache, update s.pc t pc⟩
  | .flags bh uptodate dirt lock =>
      some { s with cache := { s.cache with
        b_uptodate := update s.cache.b_uptodate bh uptodate
        b_dirt := update s.cache.b_dirt bh dirt
        b_lock := update s.cache.b_lock bh lock } }

def start (hn : 0 < n) (b_blocknr : Fin n → UInt32) : System n :=
  ⟨bufferInit hn b_blocknr, fun _ => .user none⟩

end Buffer

/-! ## The two structures -/

namespace Buffers

variable {n : Nat} {s s' : Buffers n} {dev : UInt16} {block : UInt32} {bh : Fin n}

/-- The free list is a ring of all heads, read from `free_list`. -/
def FreeRing (s : Buffers n) : Prop :=
  ∃ l, Ring s.b_next_free s.b_prev_free l ∧ l.head? = some s.free_list ∧ ∀ h, h ∈ l

/-- The heads in each hash queue. -/
structure Queued (s : Buffers n) (queue : Nat → List (Fin n)) : Prop where
  chain : ∀ i, Chain s.b_next s.b_prev (s.hash_table i) (queue i)
  mem : ∀ i h, h ∈ queue i ↔ s.b_dev h ≠ 0 ∧ s.hashOf h = i
  apart : ∀ h, s.b_dev h = 0 → s.b_next h = none ∧ s.b_prev h = none

/-- No device and block is carried twice. -/
def Unique (s : Buffers n) : Prop :=
  ∀ h h', s.b_dev h ≠ 0 → s.Carries (s.b_dev h) (s.b_blocknr h) h' → h' = h

/-! ### Removing -/

section Queues

variable {queue : Nat → List (Fin n)}

theorem Queued.pointers_ne (hq : s.Queued queue) (bh : Fin n) :
    s.b_next bh ≠ some bh ∧ s.b_prev bh ≠ some bh := by
  by_cases hdev : s.b_dev bh = 0
  · rw [(hq.apart bh hdev).1, (hq.apart bh hdev).2]
    exact ⟨nofun, nofun⟩
  · have hmem := (hq.mem _ bh).mpr ⟨hdev, rfl⟩
    have hc := hq.chain (s.hashOf bh)
    have hnext := hc.next_ne hmem
    exact ⟨hnext, fun hp => hnext ((hc.inverse hmem hmem).mpr hp)⟩

/-- The pointers of a head stay in its own queue. -/
theorem Queued.apart_of (hq : s.Queued queue) {i : Nat} {a : Fin n} (ha : a ∈ queue i)
    (hbh : bh ∉ queue i) : s.b_next bh ≠ some a ∧ s.b_prev bh ≠ some a := by
  by_cases hdev : s.b_dev bh = 0
  · rw [(hq.apart bh hdev).1, (hq.apart bh hdev).2]
    exact ⟨nofun, nofun⟩
  · have hmem := (hq.mem _ bh).mpr ⟨hdev, rfl⟩
    have hc := hq.chain (s.hashOf bh)
    have hother : a ∉ queue (s.hashOf bh) := by
      intro ha'
      have hi := ((hq.mem _ a).mp ha).2.symm.trans ((hq.mem _ a).mp ha').2
      exact hbh (hi ▸ hmem)
    exact ⟨fun h => hother (hc.next_mem hmem h), fun h => hother (hc.prev_mem hmem h)⟩

theorem Queued.dev_ne (hq : s.Queued queue) {a : Fin n}
    (h : s.b_next bh = some a ∨ s.b_prev bh = some a) : s.b_dev a ≠ 0 := by
  have hdev : s.b_dev bh ≠ 0 := by
    intro hdev
    obtain ⟨hn, hp⟩ := hq.apart bh hdev
    rw [hn, hp] at h
    rcases h with h | h <;> cases h
  have hmem := (hq.mem _ bh).mpr ⟨hdev, rfl⟩
  have hc := hq.chain (s.hashOf bh)
  rcases h with h | h
  · exact ((hq.mem _ a).mp (hc.next_mem hmem h)).1
  · exact ((hq.mem _ a).mp (hc.prev_mem hmem h)).1

theorem Queued.inverse (hq : s.Queued queue) (bh bh' : Fin n) :
    s.b_next bh = some bh' ↔ s.b_prev bh' = some bh := by
  constructor
  · intro h
    have hmem := (hq.mem _ bh).mpr ⟨fun hdev => by simp [(hq.apart bh hdev).1] at h, rfl⟩
    have hc := hq.chain (s.hashOf bh)
    exact (hc.inverse hmem (hc.next_mem hmem h)).mp h
  · intro h
    have hmem := (hq.mem _ bh').mpr ⟨fun hdev => by simp [(hq.apart bh' hdev).2] at h, rfl⟩
    have hc := hq.chain (s.hashOf bh')
    exact (hc.inverse (hc.prev_mem hmem h) hmem).mpr h

theorem removeFromHash_eq (hnext : s.b_next bh ≠ some bh) (hprev : s.b_prev bh ≠ some bh) :
    s.removeFromHash bh = { s with
      b_next := unlinkNext s.b_next s.b_prev bh
      b_prev := unlinkPrev s.b_next s.b_prev bh
      hash_table := if s.hash_table (s.hashOf bh) = some bh then
        update s.hash_table (s.hashOf bh) (s.b_next bh) else s.hash_table } := by
  have hq : ∀ q, s.b_next bh = some q → bh ≠ q := by
    rintro q hn rfl
    exact hnext hn
  have hp : ∀ p, s.b_prev bh = some p → bh ≠ p := by
    rintro p hp rfl
    exact hprev hp
  by_cases hhead : s.hash_table (hashfn (s.b_dev bh) (s.b_blocknr bh)) = some bh <;>
    cases hbn : s.b_next bh <;> cases hbp : s.b_prev bh <;>
      simp_all [removeFromHash, unlinkNext, unlinkPrev, hashOf]

theorem Queued.remove (hq : s.Queued queue) (bh : Fin n) (i : Nat) :
    Chain (s.removeFromHash bh).b_next (s.removeFromHash bh).b_prev
      ((s.removeFromHash bh).hash_table i) ((queue i).erase bh) := by
  rw [removeFromHash_eq (hq.pointers_ne bh).1 (hq.pointers_ne bh).2]
  by_cases hmem : bh ∈ queue i
  · obtain ⟨-, rfl⟩ := (hq.mem i bh).mp hmem
    have h := (hq.chain _).unlink hmem
    by_cases hhead : s.hash_table (s.hashOf bh) = some bh
    · rw [if_pos hhead] at h
      simpa [hhead] using h
    · rw [if_neg hhead] at h
      simpa [hhead] using h
  · rw [List.erase_of_not_mem hmem]
    have htable : (if s.hash_table (s.hashOf bh) = some bh then
        update s.hash_table (s.hashOf bh) (s.b_next bh) else s.hash_table) i = s.hash_table i := by
      split
      · next hhead =>
        refine update_of_ne ?_ _ _
        rintro rfl
        have hstart := (hq.chain (s.hashOf bh)).start
        exact hmem (List.mem_of_head? (hstart.symm.trans hhead))
      · rfl
    dsimp only
    rw [htable]
    refine (hq.chain i).congr ?_ ?_
    · intro a ha
      exact unlinkNext_of_ne (hq.apart_of ha hmem).2
    · intro a ha
      exact unlinkPrev_of_ne (hq.apart_of ha hmem).1

theorem insertIntoHash_of_dev {s : Buffers n} (h : s.b_dev bh = 0) :
    s.insertIntoHash bh =
      { s with b_prev := update s.b_prev bh none, b_next := update s.b_next bh none } := by
  simp [insertIntoHash, h]

theorem insertIntoHash_eq {s : Buffers n} (h : s.b_dev bh ≠ 0) :
    s.insertIntoHash bh = { s with
      b_next := update s.b_next bh (s.hash_table (s.hashOf bh))
      b_prev := fun a => if s.hash_table (s.hashOf bh) = some a then some bh
        else if a = bh then none else s.b_prev a
      hash_table := update s.hash_table (s.hashOf bh) (some bh) } := by
  cases hq : s.hash_table (hashfn (s.b_dev bh) (s.b_blocknr bh)) with
  | none =>
      have hprev : update s.b_prev bh none = fun a => if a = bh then none else s.b_prev a := by
        funext a
        exact update_apply ..
      simp [insertIntoHash, h, hashOf, hq, hprev]
  | some q =>
      have hprev : update (update s.b_prev bh none) q (some bh) =
          fun a => if q = a then some bh else if a = bh then none else s.b_prev a := by
        funext a
        rw [update_apply, update_apply]
        simp only [eq_comm]
      simp [insertIntoHash, h, hashOf, hq, hprev]

/-- A head that is in no queue joins the one of its device and block. -/
theorem insertIntoHash_queued {s : Buffers n}
    (hc : ∀ i, Chain s.b_next s.b_prev (s.hash_table i) (queue i))
    (hmem : ∀ i h, h ∈ queue i ↔ h ≠ bh ∧ s.b_dev h ≠ 0 ∧ s.hashOf h = i)
    (hapart : ∀ h, h ≠ bh → s.b_dev h = 0 → s.b_next h = none ∧ s.b_prev h = none) :
    ∃ queue', (s.insertIntoHash bh).Queued queue' := by
  have hne : ∀ i, ∀ a ∈ queue i, a ≠ bh := fun i a ha => ((hmem i a).mp ha).1
  by_cases hdev : s.b_dev bh = 0
  · rw [insertIntoHash_of_dev hdev]
    refine ⟨queue, ⟨?_, ?_, ?_⟩⟩
    · intro i
      exact (hc i).congr (fun a ha => update_of_ne (hne i a ha) _ _)
        (fun a ha => update_of_ne (hne i a ha) _ _)
    · intro i h
      rw [hmem]
      refine ⟨fun hh => hh.2, fun hh => ⟨?_, hh⟩⟩
      rintro rfl
      exact hh.1 hdev
    · intro h hh
      by_cases hhb : h = bh
      · subst hhb
        exact ⟨update_self .., update_self ..⟩
      · dsimp only
        rw [update_of_ne hhb, update_of_ne hhb]
        exact hapart h hhb hh
  · rw [insertIntoHash_eq hdev]
    refine ⟨update queue (s.hashOf bh) (bh :: queue (s.hashOf bh)), ⟨?_, ?_, ?_⟩⟩
    · intro i
      by_cases hi : i = s.hashOf bh
      · subst hi
        dsimp only
        rw [update_self, update_self]
        exact (hc _).push (fun h => hne _ _ h rfl) rfl fun a => rfl
      · dsimp only
        rw [update_of_ne hi, update_of_ne hi]
        refine (hc i).congr (fun a ha => update_of_ne (hne i a ha) _ _) ?_
        intro a ha
        have hhead : s.hash_table (s.hashOf bh) ≠ some a := by
          intro hh
          have ha' := List.mem_of_head? ((hc _).start.symm.trans hh)
          exact hi (((hmem i a).mp ha).2.2.symm.trans ((hmem _ a).mp ha').2.2)
        rw [if_neg hhead, if_neg (hne i a ha)]
    · intro i h
      show _ ↔ s.b_dev h ≠ 0 ∧ s.hashOf h = i
      by_cases hi : i = s.hashOf bh
      · subst hi
        rw [update_self, List.mem_cons, hmem]
        by_cases hhb : h = bh
        · simp [hhb, hdev]
        · simp [hhb]
      · rw [update_of_ne hi, hmem]
        refine ⟨fun hh => hh.2, fun hh => ⟨?_, hh⟩⟩
        rintro rfl
        exact hi hh.2.symm
    · intro h hh
      have hhb : h ≠ bh := by rintro rfl; exact hdev hh
      have hhead : s.hash_table (s.hashOf bh) ≠ some h := by
        intro hhd
        have hin := List.mem_of_head? ((hc _).start.symm.trans hhd)
        exact ((hmem _ h).mp hin).2.1 hh
      dsimp only
      rw [update_of_ne hhb, if_neg hhead, if_neg hhb]
      exact hapart h hhb hh

end Queues

/-! ### Giving a head a new device and block -/

/-- The head as `getblk` returns it, in no hash queue yet. -/
def retagged (s : Buffers n) (dev : UInt16) (block : UInt32) (bh p q z : Fin n) : Buffers n :=
  let f := if s.free_list = bh then q else s.free_list
  { s.removeFromHash bh with
    b_count := update s.b_count bh 1
    b_dirt := update s.b_dirt bh false
    b_uptodate := update s.b_uptodate bh false
    b_dev := update s.b_dev bh dev
    b_blocknr := update s.b_blocknr bh block
    b_next_free := update (update (update s.b_next_free p (some q)) bh (some f)) z (some bh)
    b_prev_free := update (update (update s.b_prev_free q (some p)) bh
      (update s.b_prev_free q (some p) f)) f (some bh)
    free_list := f }

theorem take_eq {queue : Nat → List (Fin n)} {p q z : Fin n} (hqueue : s.Queued queue)
    (hp : s.b_prev_free bh = some p) (hq : s.b_next_free bh = some q)
    (hz : update (update s.b_prev_free q (some p)) bh (update s.b_prev_free q (some p)
        (if s.free_list = bh then q else s.free_list))
      (if s.free_list = bh then q else s.free_list) = some z) :
    s.take dev block bh = some ((s.retagged dev block bh p q z).insertIntoHash bh) := by
  have hne := hqueue.pointers_ne bh
  have hrem := removeFromHash_eq (s := { s with
    b_count := update s.b_count bh 1
    b_dirt := update s.b_dirt bh false
    b_uptodate := update s.b_uptodate bh false }) hne.1 hne.2
  simp only [take, removeFromQueues, hrem, removeFromFree, hp, hq, Option.bind_eq_bind,
    Option.bind_some, insertIntoQueues, putAtEnd, hz, Option.map_some, retagged,
    removeFromHash_eq hne.1 hne.2]
  rfl

/-- What `getblk` does with the head it has chosen. -/
structure Taken (s s' : Buffers n) (dev : UInt16) (block : UInt32) (bh : Fin n) : Prop where
  b_dev : s'.b_dev = update s.b_dev bh dev
  b_blocknr : s'.b_blocknr = update s.b_blocknr bh block
  b_count : s'.b_count = update s.b_count bh 1
  b_dirt : s'.b_dirt = update s.b_dirt bh false
  b_uptodate : s'.b_uptodate = update s.b_uptodate bh false
  b_lock : s'.b_lock = s.b_lock

theorem insertIntoHash_frame (s : Buffers n) (bh : Fin n) :
    (s.insertIntoHash bh).b_dev = s.b_dev ∧ (s.insertIntoHash bh).b_blocknr = s.b_blocknr ∧
    (s.insertIntoHash bh).b_count = s.b_count ∧ (s.insertIntoHash bh).b_dirt = s.b_dirt ∧
    (s.insertIntoHash bh).b_uptodate = s.b_uptodate ∧ (s.insertIntoHash bh).b_lock = s.b_lock ∧
    (s.insertIntoHash bh).b_next_free = s.b_next_free ∧
    (s.insertIntoHash bh).b_prev_free = s.b_prev_free ∧
    (s.insertIntoHash bh).free_list = s.free_list := by
  by_cases h : s.b_dev bh = 0
  · rw [insertIntoHash_of_dev h]
    exact ⟨rfl, rfl, rfl, rfl, rfl, rfl, rfl, rfl, rfl⟩
  · rw [insertIntoHash_eq h]
    exact ⟨rfl, rfl, rfl, rfl, rfl, rfl, rfl, rfl, rfl⟩

theorem take_spec {queue : Nat → List (Fin n)} (hqueue : s.Queued queue) (hring : s.FreeRing)
    (dev : UInt16) (block : UInt32) (bh : Fin n) :
    ∃ s', s.take dev block bh = some s' ∧ s.Taken s' dev block bh ∧ s'.FreeRing ∧
      ∃ queue', s'.Queued queue' := by
  obtain ⟨l, hl, hhead, hall⟩ := hring
  obtain ⟨p, -, q, -, hp, hq⟩ := hl.links (hall bh)
  -- the head of the free list, once `bh` is out of it, has a node in front of it
  obtain ⟨z, hz⟩ : ∃ z, update (update s.b_prev_free q (some p)) bh
      (update s.b_prev_free q (some p) (if s.free_list = bh then q else s.free_list))
      (if s.free_list = bh then q else s.free_list) = some z := by
    generalize (if s.free_list = bh then q else s.free_list) = f
    have hsome : ∀ a, ∃ z, update s.b_prev_free q (some p) a = some z := by
      intro a
      by_cases ha : a = q
      · exact ⟨p, by rw [ha, update_self]⟩
      · obtain ⟨z, -, -, -, hz, -⟩ := hl.links (hall a)
        exact ⟨z, by rw [update_of_ne ha, hz]⟩
    by_cases hf : f = bh
    · rw [hf, update_self]
      exact hsome bh
    · rw [update_of_ne hf]
      exact hsome f
  obtain ⟨hback, hfront⟩ := hl.toBack hhead (hall bh) hp hq hz
  obtain ⟨hdev, hblock, hcount, hdirt, huptodate, hlock, hnext, hprev, hfree⟩ :=
    insertIntoHash_frame (s.retagged dev block bh p q z) bh
  have hne := hqueue.pointers_ne bh
  refine ⟨_, take_eq hqueue hp hq hz, ⟨hdev, hblock, hcount, hdirt, huptodate, ?_⟩,
    ⟨l.erase bh ++ [bh], ?_, ?_, ?_⟩, ?_⟩
  · rw [hlock, retagged, removeFromHash_eq hne.1 hne.2]
  · rw [hnext, hprev]
    exact hback
  · rw [hfree]
    exact hfront
  · intro h
    by_cases hh : h = bh
    · simp [hh]
    · exact List.mem_append_left _ ((List.mem_erase_of_ne hh).mpr (hall h))
  · refine insertIntoHash_queued (fun i => hqueue.remove bh i) ?_ ?_
    · intro i h
      rw [(hqueue.chain i).nodup.mem_erase_iff, hqueue.mem]
      refine and_congr_right fun hh => ?_
      simp only [retagged, hashOf, update_of_ne hh]
    · intro h hh hdev
      have hdev : s.b_dev h = 0 := by
        simpa only [retagged, update_of_ne hh] using hdev
      obtain ⟨hn, hp⟩ := hqueue.apart h hdev
      simp only [retagged, removeFromHash_eq hne.1 hne.2]
      exact ⟨(unlinkNext_of_ne fun hb => hqueue.dev_ne (.inr hb) hdev).trans hn,
        (unlinkPrev_of_ne fun hb => hqueue.dev_ne (.inl hb) hdev).trans hp⟩

/-! ### Searching -/

theorem findBuffer_eq {queue : Nat → List (Fin n)} (hq : s.Queued queue) (dev : UInt16)
    (block : UInt32) :
    s.findBuffer dev block = (queue (hashfn dev block)).find? fun bh => s.Carries dev block bh := by
  have hc := hq.chain (hashfn dev block)
  have hlen := List.Nodup.length_le_card hc.nodup
  rw [Fintype.card_fin] at hlen
  exact hc.search hlen

/-- A device and block that `find_buffer` does not find is carried by no head. -/
theorem findBuffer_none {queue : Nat → List (Fin n)} (hq : s.Queued queue) (hdev : dev ≠ 0)
    (h : s.findBuffer dev block = none) (bh : Fin n) : ¬ s.Carries dev block bh := by
  intro hbh
  rw [findBuffer_eq hq, List.find?_eq_none] at h
  have hmem : bh ∈ queue (hashfn dev block) := by
    rw [hq.mem, hashOf, hbh.1, hbh.2]
    exact ⟨hdev, rfl⟩
  exact h bh hmem (decide_eq_true hbh)

/-! ### The cache -/

/-- The free list holds every head once, the hash queues hold the heads with a device, and
no device and block is carried twice. -/
structure Consistent (s : Buffers n) : Prop where
  free : s.FreeRing
  hashed : ∃ queue, s.Queued queue
  unique : s.Unique

/-- The queues and identities do not depend on the flags and counts. -/
theorem Consistent.flags (h : s.Consistent) (b_uptodate b_dirt b_lock : Fin n → Bool)
    (b_count : Fin n → UInt8) :
    Consistent { s with
      b_uptodate := b_uptodate, b_dirt := b_dirt, b_lock := b_lock, b_count := b_count } := by
  obtain ⟨hfree, ⟨queue, hchain, hmem, hapart⟩, hunique⟩ := h
  exact ⟨hfree, ⟨queue, hchain, hmem, hapart⟩, hunique⟩

theorem Consistent.take (h : s.Consistent) (hfind : s.findBuffer dev block = none) (bh : Fin n) :
    ∃ s', s.take dev block bh = some s' ∧ s.Taken s' dev block bh ∧ s'.Consistent := by
  obtain ⟨hfree, ⟨queue, hqueue⟩, hunique⟩ := h
  obtain ⟨s', hs', htaken, hfree', hqueue'⟩ := take_spec hqueue hfree dev block bh
  refine ⟨s', hs', htaken, hfree', hqueue', ?_⟩
  intro a c ha hc
  simp only [Carries, htaken.b_dev, htaken.b_blocknr, update_apply] at ha hc
  by_cases hab : a = bh
  · subst hab
    simp only [if_true] at ha hc
    by_contra hca
    simp only [if_neg hca] at hc
    exact findBuffer_none hqueue ha hfind c hc
  · simp only [if_neg hab] at ha hc
    by_cases hcb : c = bh
    · subst hcb
      simp only [if_true] at hc
      rw [← hc.1] at ha
      exact (findBuffer_none hqueue ha hfind a ⟨hc.1.symm, hc.2.symm⟩).elim
    · simp only [if_neg hcb] at hc
      exact hunique a c ha hc

theorem consistent_bufferInit (hn : 0 < n) (b_blocknr : Fin n → UInt32) :
    (bufferInit hn b_blocknr).Consistent := by
  have hget : ∀ j (hj : j < n), (List.finRange n)[j]? = some ⟨j, hj⟩ := by
    intro j hj
    rw [List.getElem?_eq_getElem (by simpa using hj)]
    simp
  refine ⟨⟨List.finRange n, ⟨Seg.of_getElem ?_, List.nodup_finRange n⟩, ?_, List.mem_finRange⟩,
    ⟨fun _ => [], fun _ => Chain.nil, ?_, fun _ _ => ⟨rfl, rfl⟩⟩, ?_⟩
  · intro i hi
    have hi : i < n := by simpa using hi
    rw [List.getLast?_eq_getElem?, List.head?_eq_getElem?, List.length_finRange]
    constructor
    · rcases Nat.eq_zero_or_pos i with rfl | hpos
      · simp [bufferInit, hget (n - 1) (by omega)]
      · simp [bufferInit, hget (i - 1) (by omega), hpos.ne']
    · by_cases hlast : i + 1 < n
      · simp [bufferInit, hlast]
      · simp [bufferInit, hget 0 hn, hlast]
  · rw [List.head?_eq_getElem?, hget 0 hn]
    rfl
  · intro i h
    simp [bufferInit]
  · intro h h' hdev
    exact absurd rfl hdev

end Buffers

/-! ## Every interleaving -/

namespace Buffer

variable {n : Nat} {s s' : System n} {c c' : Buffers n} {pc pc' : Pc n}

/-- Held, locked or dirty. -/
def Busy (c : Buffers n) (bh : Fin n) : Prop :=
  c.b_count bh ≠ 0 ∨ c.b_lock bh = true ∨ c.b_dirt bh = true

/-- The heads keep their device and block. -/
def SameTags (c c' : Buffers n) (bh : Fin n) : Prop :=
  c'.b_dev bh = c.b_dev bh ∧ c'.b_blocknr bh = c.b_blocknr bh

/-- The one step that changes the device and block of a head is the end of `getblk`. -/
theorem resume_cases (h : resume c pc = some (pc', c')) :
    (∃ b_count, c' = { c with b_count := b_count }) ∨
      ∃ dev block bh, c.b_lock bh = false ∧ c.b_count bh = 0 ∧ c.b_dirt bh = false ∧
        c.findBuffer dev block = none ∧ c.take dev block bh = some c' := by
  cases pc with
  | user ret => cases h
  | find getblk dev block =>
      left
      simp only [resume] at h
      split at h
      · obtain ⟨-, rfl⟩ := Prod.mk.inj (Option.some.inj h)
        exact ⟨_, rfl⟩
      · split at h
        · split at h <;>
          · obtain ⟨-, rfl⟩ := Prod.mk.inj (Option.some.inj h)
            exact ⟨_, rfl⟩
        · obtain ⟨-, rfl⟩ := Prod.mk.inj (Option.some.inj h)
          exact ⟨_, rfl⟩
  | found getblk dev block bh =>
      left
      simp only [resume] at h
      split at h
      · cases h
      · split at h <;>
        · obtain ⟨-, rfl⟩ := Prod.mk.inj (Option.some.inj h)
          exact ⟨_, rfl⟩
  | buffer_wait dev block =>
      obtain ⟨-, rfl⟩ := Prod.mk.inj (Option.some.inj h)
      exact Or.inl ⟨_, rfl⟩
  | chosen dev block bh =>
      simp only [resume] at h
      split at h
      · cases h
      · next hlock =>
        split at h
        · obtain ⟨-, rfl⟩ := Prod.mk.inj (Option.some.inj h)
          exact Or.inl ⟨_, rfl⟩
        · next hcount =>
          split at h
          · obtain ⟨-, rfl⟩ := Prod.mk.inj (Option.some.inj h)
            exact Or.inl ⟨_, rfl⟩
          · next hdirt =>
            split at h
            · obtain ⟨-, rfl⟩ := Prod.mk.inj (Option.some.inj h)
              exact Or.inl ⟨_, rfl⟩
            · next hfind =>
              obtain ⟨c'', hc'', heq⟩ := Option.map_eq_some_iff.mp h
              obtain ⟨-, rfl⟩ := Prod.mk.inj heq
              exact Or.inr ⟨dev, block, bh, by simpa using hlock, by simpa using hcount,
                by simpa using hdirt, by simpa using hfind, hc''⟩
  | sync_dev dev block bh =>
      obtain ⟨-, rfl⟩ := Prod.mk.inj (Option.some.inj h)
      exact Or.inl ⟨_, rfl⟩
  | brelse buf =>
      left
      simp only [resume] at h
      split at h
      · cases h
      · split at h
        · cases h
        · obtain ⟨-, rfl⟩ := Prod.mk.inj (Option.some.inj h)
          exact ⟨_, rfl⟩

/-! ### Inside `getblk` -/

/-- The task is inside `getblk(dev, block)`. -/
def Pc.Asks (dev : UInt16) (block : UInt32) : Pc n → Prop
  | .find getblk d b | .found getblk d b _ => getblk = true ∧ d = dev ∧ b = block
  | .buffer_wait d b | .chosen d b _ | .sync_dev d b _ => d = dev ∧ b = block
  | .user _ | .brelse _ => False

/-- The head that `get_hash_table` holds while it waits. -/
def Pc.holding : Pc n → Option (Fin n)
  | .found _ _ _ bh => some bh
  | _ => none

/-- What one step of a task inside `getblk` does. -/
inductive GetblkStep (dev : UInt16) (block : UInt32) (c : Buffers n) :
    Pc n → Pc n → Buffers n → Prop where
  | hold {pc : Pc n} {bh : Fin n} (hpc : pc.holding = none) :
      GetblkStep dev block c pc (.found true dev block bh)
        { c with b_count := update c.b_count bh (c.b_count bh + 1) }
  | move {pc pc' : Pc n} (hpc : pc.holding = none) (hpc' : pc'.holding = none)
      (hasks : pc'.Asks dev block) : GetblkStep dev block c pc pc' c
  | found {bh : Fin n} (hlock : c.b_lock bh = false) (hbh : c.Carries dev block bh) :
      GetblkStep dev block c (.found true dev block bh) (.user (some bh)) c
  | drop {bh : Fin n} :
      GetblkStep dev block c (.found true dev block bh) (.find true dev block)
        { c with b_count := update c.b_count bh (c.b_count bh - 1) }
  | take {pc : Pc n} {c' : Buffers n} {bh : Fin n} (hpc : pc.holding = none)
      (hlock : c.b_lock bh = false) (hcount : c.b_count bh = 0) (hdirt : c.b_dirt bh = false)
      (hfind : c.findBuffer dev block = none) (htake : c.take dev block bh = some c') :
      GetblkStep dev block c pc (.user (some bh)) c'

theorem getblkStep_of_resume {dev : UInt16} {block : UInt32} (hpc : pc.Asks dev block)
    (h : resume c pc = some (pc', c')) : GetblkStep dev block c pc pc' c' := by
  cases pc with
  | user ret => cases h
  | find getblk d b =>
      obtain ⟨rfl, rfl, rfl⟩ := hpc
      simp only [resume] at h
      split at h
      · cases h
        exact .hold rfl
      · split at h
        · split at h <;> cases h <;> exact .move rfl rfl ⟨rfl, rfl⟩
        · next hf => exact (hf trivial).elim
  | found getblk d b bh =>
      obtain ⟨rfl, rfl, rfl⟩ := hpc
      simp only [resume] at h
      split at h
      · cases h
      · next hlock =>
        split at h
        · next hbh =>
          cases h
          exact .found (by simpa using hlock) hbh
        · cases h
          exact .drop
  | buffer_wait d b =>
      obtain ⟨rfl, rfl⟩ := hpc
      cases h
      exact .move rfl rfl ⟨rfl, rfl, rfl⟩
  | chosen d b bh =>
      obtain ⟨rfl, rfl⟩ := hpc
      simp only [resume] at h
      split at h
      · cases h
      · next hlock =>
        split at h
        · cases h
          exact .move rfl rfl ⟨rfl, rfl, rfl⟩
        · next hcount =>
          split at h
          · cases h
            exact .move rfl rfl ⟨rfl, rfl⟩
          · next hdirt =>
            split at h
            · cases h
              exact .move rfl rfl ⟨rfl, rfl, rfl⟩
            · next hfind =>
              obtain ⟨c'', hc'', heq⟩ := Option.map_eq_some_iff.mp h
              cases heq
              exact .take rfl (by simpa using hlock) (by simpa using hcount)
                (by simpa using hdirt) (by simpa using hfind) hc''
  | sync_dev d b bh =>
      obtain ⟨rfl, rfl⟩ := hpc
      cases h
      exact .move rfl rfl ⟨rfl, rfl⟩
  | brelse buf => cases hpc

/-- What a step of the system does to the cache. -/
theorem step_cases {a : Act n} (h : step s a = some s') :
    (∃ b_uptodate b_dirt b_lock b_count, s'.cache = { s.cache with
      b_uptodate := b_uptodate, b_dirt := b_dirt, b_lock := b_lock, b_count := b_count }) ∨
    ∃ dev block bh, s.cache.b_lock bh = false ∧ s.cache.b_count bh = 0 ∧
      s.cache.b_dirt bh = false ∧ s.cache.findBuffer dev block = none ∧
      s.cache.take dev block bh = some s'.cache := by
  cases a with
  | call t c =>
      simp only [step] at h
      split at h
      · obtain rfl := Option.some.inj h
        exact Or.inl ⟨_, _, _, _, rfl⟩
      · cases h
  | run t =>
      obtain ⟨⟨pc, cache⟩, hres, rfl⟩ := Option.map_eq_some_iff.mp h
      rcases resume_cases hres with ⟨b_count, rfl⟩ | htake
      · exact Or.inl ⟨_, _, _, b_count, rfl⟩
      · exact Or.inr htake
  | flags bh uptodate dirt lock =>
      obtain rfl := Option.some.inj h
      exact Or.inl ⟨_, _, _, _, rfl⟩

theorem step_consistent {a : Act n} (hs : s.cache.Consistent) (h : step s a = some s') :
    s'.cache.Consistent := by
  rcases step_cases h with ⟨_, _, _, _, heq⟩ | ⟨dev, block, bh, -, -, -, hfind, htake⟩
  · rw [heq]
    exact hs.flags ..
  · obtain ⟨c, hc, -, hcons⟩ := hs.take hfind bh
    obtain rfl := Option.some.inj (htake.symm.trans hc)
    exact hcons

theorem step_busy {a : Act n} (hs : s.cache.Consistent) (h : step s a = some s') {bh : Fin n}
    (hbusy : Busy s.cache bh) : SameTags s.cache s'.cache bh := by
  rcases step_cases h with ⟨_, _, _, _, heq⟩ | ⟨dev, block, b, hlock, hcount, hdirt, hfind, htake⟩
  · rw [heq]
    exact ⟨rfl, rfl⟩
  · obtain ⟨c, hc, htaken, -⟩ := hs.take hfind b
    obtain rfl := Option.some.inj (htake.symm.trans hc)
    have hne : bh ≠ b := by
      rintro rfl
      rcases hbusy with hb | hb | hb
      · exact hb hcount
      · rw [hlock] at hb; cases hb
      · rw [hdirt] at hb; cases hb
    rw [SameTags, htaken.b_dev, htaken.b_blocknr]
    exact ⟨update_of_ne hne _ _, update_of_ne hne _ _⟩

/-- In every interleaving of any number of tasks the free list is a ring with every head
in it, the hash queues are intact and hold the heads with a device at their hash values,
the two links of a queue are inverse to one another, no block is cached twice, and no
step gives another block to a head that is held, locked or dirty. -/
theorem buffer_cache {hn : 0 < n} {b_blocknr : Fin n → UInt32}
    (h : Reach step Free (start hn b_blocknr) s) :
    (∃ l, Ring s.cache.b_next_free s.cache.b_prev_free l ∧ l.head? = some s.cache.free_list ∧
      ∀ bh, bh ∈ l) ∧
    (∃ queue : Nat → List (Fin n),
      (∀ i, Chain s.cache.b_next s.cache.b_prev (s.cache.hash_table i) (queue i)) ∧
      ∀ i bh, bh ∈ queue i ↔
        s.cache.b_dev bh ≠ 0 ∧ hashfn (s.cache.b_dev bh) (s.cache.b_blocknr bh) = i) ∧
    (∀ bh bh', s.cache.b_next bh = some bh' ↔ s.cache.b_prev bh' = some bh) ∧
    (∀ bh bh', s.cache.b_dev bh ≠ 0 → s.cache.b_dev bh' = s.cache.b_dev bh →
      s.cache.b_blocknr bh' = s.cache.b_blocknr bh → bh' = bh) ∧
    ∀ a s', step s a = some s' → ∀ bh, Busy s.cache bh → SameTags s.cache s'.cache bh := by
  have hs : s.cache.Consistent := by
    refine h.invariant (I := fun s => s.cache.Consistent) ?_ ?_
    · exact Buffers.consistent_bufferInit hn b_blocknr
    · intro s a s' hs _ hstep
      exact step_consistent hs hstep
  obtain ⟨queue, hq⟩ := hs.hashed
  refine ⟨hs.free, ⟨queue, hq.chain, hq.mem⟩, hq.inverse, ?_, ?_⟩
  · intro bh bh' hdev hd hb
    exact hs.unique bh bh' hdev ⟨hd, hb⟩
  · intro a s' hstep bh hbusy
    exact step_busy hs hstep hbusy

/-- Two tasks ask for one block, and a third one takes the other head. -/
def contended : List (Act 2) :=
  [.call 0 (.getblk 0x301 5), .call 1 (.getblk 0x301 5), .run 0, .run 1, .run 0, .run 1, .run 1,
    .run 1, .call 2 (.getblk 0x301 6), .run 2, .run 2,
    .call 0 (.brelse (some ⟨0, Nat.two_pos⟩)), .run 0]

theorem buffer_cache_contended : ∃ s : System 2,
    exec step (start Nat.two_pos fun _ => 7) contended = some s ∧
      (s.cache.b_count 0 = 1 ∧ s.cache.b_blocknr 0 = 5 ∧ s.cache.b_blocknr 1 = 6) ∧
      ∀ bh bh', s.cache.b_dev bh ≠ 0 → s.cache.b_dev bh' = s.cache.b_dev bh →
        s.cache.b_blocknr bh' = s.cache.b_blocknr bh → bh' = bh := by
  obtain ⟨s, hs, hp⟩ : ∃ s, exec step (start Nat.two_pos fun _ => 7) contended = some s ∧
      (s.cache.b_count 0 = 1 ∧ s.cache.b_blocknr 0 = 5 ∧ s.cache.b_blocknr 1 = 6) :=
    exec_any (by decide +kernel)
  exact ⟨s, hs, hp, (buffer_cache (exec_reach hs)).2.2.2.1⟩

end Buffer

end Linux011
