import Linux011.Buffer

/-!
# The stores of the queue functions

`remove_from_queues` and `insert_into_queues` of `fs/buffer.c`, pointer by pointer. A store
through a null pointer, which goes to the page directory at address 0, stops them here; those of
`Buffers` go on behind it, for it touches no buffer head.

The last store of `insert_into_queues` goes through the null pointer when the hash queue is empty
(`queue_stores_inside`).

`Buffers` lets a store through a null pointer go by, since it changes no head, and proves that
the cache stays consistent. This module is stricter: a store through a null pointer is an error,
and the functions are written once more with it. Each of them is first shown to do what its
counterpart does where it does not stop, so that the runs of `Buffers` are reused with their
invariant. What is left is to say when it stops. In a consistent cache the pointers of a ring are
never null, and those of a chain are null only at its two ends, where the source looks first; the
one store without such a test is the last one of `insert_into_queues`, which goes to the old
first head of the queue. It is null just if the queue was empty.
-/

namespace Linux011

open Function DoubleLinks Runs Buffer

namespace QueueStores

inductive Stop where
  /-- a store through a null pointer -/
  | null
  /-- "Free block list corrupted" -/
  | corrupted
deriving DecidableEq

variable {n : Nat}

/-- The head that is stored through. -/
def target : Option (Fin n) → Except Stop (Fin n)
  | some h => .ok h
  | none => .error .null

/-- `p->b_prev = q` -/
def setPrev (s : Buffers n) (p q : Option (Fin n)) : Except Stop (Buffers n) :=
  (target p).map fun h => { s with b_prev := update s.b_prev h q }

/-- `p->b_next = q` -/
def setNext (s : Buffers n) (p q : Option (Fin n)) : Except Stop (Buffers n) :=
  (target p).map fun h => { s with b_next := update s.b_next h q }

/-- `p->b_prev_free = q` -/
def setPrevFree (s : Buffers n) (p q : Option (Fin n)) : Except Stop (Buffers n) :=
  (target p).map fun h => { s with b_prev_free := update s.b_prev_free h q }

/-- `p->b_next_free = q` -/
def setNextFree (s : Buffers n) (p q : Option (Fin n)) : Except Stop (Buffers n) :=
  (target p).map fun h => { s with b_next_free := update s.b_next_free h q }

/-- `if (bh->b_next) bh->b_next->b_prev = bh->b_prev` -/
def skipBack (s : Buffers n) (bh : Fin n) : Except Stop (Buffers n) :=
  if s.b_next bh = none then .ok s else setPrev s (s.b_next bh) (s.b_prev bh)

/-- `if (bh->b_prev) bh->b_prev->b_next = bh->b_next` -/
def skipOn (s : Buffers n) (bh : Fin n) : Except Stop (Buffers n) :=
  if s.b_prev bh = none then .ok s else setNext s (s.b_prev bh) (s.b_next bh)

def removeFromHash (s : Buffers n) (bh : Fin n) : Except Stop (Buffers n) := do
  let s ← skipBack s bh
  let s ← skipOn s bh
  if s.hash_table (s.hashOf bh) = some bh then
    .ok { s with hash_table := update s.hash_table (s.hashOf bh) (s.b_next bh) }
  else .ok s

/-- `free_list` is stored through as soon as the head is put back, so that it may not become
null. -/
def removeFromFree (s : Buffers n) (bh : Fin n) : Except Stop (Buffers n) :=
  if s.b_prev_free bh = none ∨ s.b_next_free bh = none then .error .corrupted
  else do
    let s ← setNextFree s (s.b_prev_free bh) (s.b_next_free bh)
    let s ← setPrevFree s (s.b_next_free bh) (s.b_prev_free bh)
    if s.free_list = bh then
      (target (s.b_next_free bh)).map fun h => { s with free_list := h }
    else .ok s

def removeFromQueues (s : Buffers n) (bh : Fin n) : Except Stop (Buffers n) :=
  removeFromHash s bh >>= fun s => removeFromFree s bh

def putAtEnd (s : Buffers n) (bh : Fin n) : Except Stop (Buffers n) := do
  let s := { s with b_next_free := update s.b_next_free bh (some s.free_list) }
  let s := { s with b_prev_free := update s.b_prev_free bh (s.b_prev_free s.free_list) }
  let s ← setNextFree s (s.b_prev_free s.free_list) (some bh)
  setPrevFree s (some s.free_list) (some bh)

def insertIntoHash (s : Buffers n) (bh : Fin n) : Except Stop (Buffers n) :=
  let s := { s with b_prev := update s.b_prev bh none, b_next := update s.b_next bh none }
  if s.b_dev bh = 0 then .ok s
  else
    let s := { s with b_next := update s.b_next bh (s.hash_table (s.hashOf bh)) }
    let s := { s with hash_table := update s.hash_table (s.hashOf bh) (some bh) }
    setPrev s (s.b_next bh) (some bh)

def insertIntoQueues (s : Buffers n) (bh : Fin n) : Except Stop (Buffers n) :=
  putAtEnd s bh >>= fun s => insertIntoHash s bh

/-- The end of `getblk`. -/
def take (s : Buffers n) (dev : UInt16) (block : UInt32) (bh : Fin n) :
    Except Stop (Buffers n) := do
  let s := { s with
    b_count := update s.b_count bh 1
    b_dirt := update s.b_dirt bh false
    b_uptodate := update s.b_uptodate bh false }
  let s ← removeFromQueues s bh
  let s := { s with
    b_dev := update s.b_dev bh dev
    b_blocknr := update s.b_blocknr bh block }
  insertIntoQueues s bh

/-! ## The stores of each function -/

variable {s s' : Buffers n} {dev : UInt16} {block : UInt32} {bh : Fin n}

theorem skipBack_ok (s : Buffers n) (bh : Fin n) :
    skipBack s bh = .ok (match s.b_next bh with
      | some next => { s with b_prev := update s.b_prev next (s.b_prev bh) }
      | none => s) := by
  unfold skipBack
  cases s.b_next bh <;> rfl

theorem skipOn_ok (s : Buffers n) (bh : Fin n) :
    skipOn s bh = .ok (match s.b_prev bh with
      | some prev => { s with b_next := update s.b_next prev (s.b_next bh) }
      | none => s) := by
  unfold skipOn
  cases s.b_prev bh <;> rfl

theorem removeFromHash_ok (s : Buffers n) (bh : Fin n) :
    removeFromHash s bh = .ok (s.removeFromHash bh) := by
  unfold removeFromHash Buffers.removeFromHash
  rw [skipBack_ok]
  dsimp only [bind, Except.bind]
  rw [skipOn_ok]
  exact (apply_ite Except.ok _ _ _).symm

/-- The panic comes when a pointer of the free list is null, and no store goes through one. -/
theorem removeFromFree_eq (s : Buffers n) (bh : Fin n) :
    removeFromFree s bh = match s.removeFromFree bh with
      | some s' => .ok s'
      | none => .error .corrupted := by
  unfold removeFromFree Buffers.removeFromFree
  cases hprev : s.b_prev_free bh with
  | none => rfl
  | some prev =>
      cases hnext : s.b_next_free bh with
      | none => rfl
      | some next =>
          have hstays : update s.b_next_free prev (some next) bh = some next := by
            rcases eq_or_ne bh prev with rfl | hne
            · exact update_self _ _ _
            · rw [update_of_ne hne, hnext]
          rw [if_neg (by simp)]
          dsimp only [setNextFree, target, Except.map, bind, Except.bind]
          rw [hstays, hprev]
          dsimp only [setPrevFree, target, Except.map]
          rw [hstays]
          split <;> rfl

theorem putAtEnd_eq (s : Buffers n) (bh : Fin n) :
    putAtEnd s bh = match s.putAtEnd bh with
      | some s' => .ok s'
      | none => .error .null := by
  unfold putAtEnd Buffers.putAtEnd setNextFree
  dsimp only [bind, Except.bind]
  cases update s.b_prev_free bh (s.b_prev_free s.free_list) s.free_list <;> rfl

theorem setPrev_some (s : Buffers n) (h : Fin n) (q : Option (Fin n)) :
    setPrev s (some h) q = .ok { s with b_prev := update s.b_prev h q } := rfl

/-- The head that was first in the hash queue is stored through, be there one or not. -/
theorem insertIntoHash_eq (s : Buffers n) (bh : Fin n) :
    insertIntoHash s bh =
      if s.b_dev bh = 0 ∨ s.hash_table (s.hashOf bh) ≠ none then .ok (s.insertIntoHash bh)
      else .error .null := by
  by_cases hdev : s.b_dev bh = 0
  · rw [if_pos (.inl hdev), Buffers.insertIntoHash_of_dev hdev]
    exact if_pos hdev
  unfold insertIntoHash
  dsimp only
  rw [if_neg hdev, update_self]
  rcases Option.eq_none_or_eq_some (s.hash_table (s.hashOf bh)) with hqueue | ⟨q, hqueue⟩
  · rw [if_neg (not_or.mpr ⟨hdev, not_not.mpr hqueue⟩)]
    exact congrArg (setPrev _ · _) hqueue
  · have hsome : s.b_dev bh = 0 ∨ s.hash_table (s.hashOf bh) ≠ none := by simp [hqueue]
    rw [if_pos hsome]
    refine (congrArg (setPrev _ · _) hqueue).trans ?_
    have hslot : s.hash_table (hashfn (s.b_dev bh) (s.b_blocknr bh)) = some q := hqueue
    rw [setPrev_some]
    simp [Buffers.insertIntoHash, Buffers.hashOf, hdev, hslot]

theorem removeFromQueues_eq (s : Buffers n) (bh : Fin n) :
    removeFromQueues s bh = match s.removeFromQueues bh with
      | some s' => .ok s'
      | none => .error .corrupted := by
  unfold removeFromQueues
  rw [removeFromHash_ok]
  exact removeFromFree_eq _ _

theorem removeFromFree_hash (s' : Buffers n) (h : s.removeFromFree bh = some s') :
    s'.hash_table = s.hash_table := by
  unfold Buffers.removeFromFree at h
  split at h
  · obtain rfl := Option.some.inj h
    rfl
  · cases h

theorem putAtEnd_frame (h : s.putAtEnd bh = some s') :
    s'.hash_table = s.hash_table ∧ s'.b_dev = s.b_dev ∧ s'.b_blocknr = s.b_blocknr := by
  obtain ⟨last, -, rfl⟩ := Option.map_eq_some_iff.mp h
  exact ⟨rfl, rfl, rfl⟩

theorem removeFromHash_table (hnext : s.b_next bh ≠ some bh) (hprev : s.b_prev bh ≠ some bh) :
    (s.removeFromHash bh).hash_table = if s.hash_table (s.hashOf bh) = some bh then
      update s.hash_table (s.hashOf bh) (s.b_next bh) else s.hash_table := by
  rw [Buffers.removeFromHash_eq hnext hprev]

/-- `getblk` stores through a null pointer when the queue that its head joins is empty. -/
theorem take_ok (htake : s.take dev block bh = some s') (hnext : s.b_next bh ≠ some bh)
    (hprev : s.b_prev bh ≠ some bh) :
    take s dev block bh =
      if dev = 0 ∨ (s.removeFromHash bh).hash_table (hashfn dev block) ≠ none then .ok s'
      else .error .null := by
  obtain ⟨s₁, hs₁, htake⟩ := Option.bind_eq_some_iff.mp htake
  obtain ⟨s₂, hs₂, rfl⟩ := Option.map_eq_some_iff.mp htake
  have hretained := removeFromHash_table (s := { s with
    b_count := update s.b_count bh 1
    b_dirt := update s.b_dirt bh false
    b_uptodate := update s.b_uptodate bh false }) hnext hprev
  obtain ⟨htable, hdev, hblock⟩ := putAtEnd_frame hs₂
  have htable₂ : s₂.hash_table = (s.removeFromHash bh).hash_table := by
    refine htable.trans ((removeFromFree_hash s₁ hs₁).trans ?_)
    exact hretained.trans (removeFromHash_table hnext hprev).symm
  have hdev₂ : s₂.b_dev bh = dev := by
    rw [hdev]
    exact update_self _ _ _
  have hhash : s₂.hashOf bh = hashfn dev block := by
    unfold Buffers.hashOf
    rw [hdev₂, hblock]
    exact congrArg (hashfn dev) (update_self _ _ _)
  unfold take insertIntoQueues
  dsimp only
  rw [removeFromQueues_eq, hs₁]
  dsimp only [bind, Except.bind]
  rw [putAtEnd_eq, hs₂]
  dsimp only
  rw [insertIntoHash_eq, hhash, htable₂, hdev₂]

/-! ## Every step of every run -/

/-- The end of `getblk`, if the step is one: the head that is taken, and for which block. -/
def taking (s : System n) : Act n → Option (UInt16 × UInt32 × Fin n)
  | .run t =>
      match s.pc t with
      | .chosen dev block bh =>
          if s.cache.b_lock bh = false ∧ s.cache.b_count bh = 0 ∧ s.cache.b_dirt bh = false ∧
              s.cache.findBuffer dev block = none then some (dev, block, bh)
          else none
      | _ => none
  | _ => none

/-- The cache behind a step whose queue functions run as above. -/
def cacheAfter (s : System n) (a : Act n) : Except Stop (Option (Buffers n)) :=
  match taking s a with
  | some (dev, block, bh) => (QueueStores.take s.cache dev block bh).map some
  | none => .ok ((step s a).map System.cache)

/-- Every pointer that the step stores through is one to a head, and the panic does not come. -/
def Inside (s : System n) (a : Act n) : Prop :=
  cacheAfter s a = .ok ((step s a).map System.cache)

/-- Another head is in the queue of the block that is taken. -/
def Joins (s : System n) (a : Act n) : Prop :=
  ∀ dev block bh, taking s a = some (dev, block, bh) → dev = 0 ∨
    ∃ h, h ≠ bh ∧ s.cache.b_dev h ≠ 0 ∧ s.cache.hashOf h = hashfn dev block

theorem taking_step {s : System n} {a : Act n} (h : taking s a = some (dev, block, bh)) :
    s.cache.findBuffer dev block = none ∧
      (step s a).map System.cache = s.cache.take dev block bh := by
  cases a with
  | call t c => cases h
  | flags b up dirt lock => cases h
  | run t =>
      unfold taking at h
      dsimp only at h
      split at h
      · rename_i dev' block' bh' hpc
        obtain ⟨⟨hlock, hcount, hdirt, hfind⟩, hr⟩ := Option.ite_none_right_eq_some.mp h
        obtain ⟨rfl, hpair⟩ := Prod.mk.inj (Option.some.inj hr)
        obtain ⟨rfl, rfl⟩ := Prod.mk.inj hpair
        refine ⟨hfind, ?_⟩
        unfold step resume
        dsimp only
        rw [hpc]
        dsimp only
        cases s.cache.take dev' block' bh' <;> simp [hlock, hcount, hdirt, hfind]
      · cases h

/-- The queue without the head that is taken has another one. -/
theorem table_ne_none {queue : Nat → List (Fin n)} (hq : s.Queued queue) (bh : Fin n) (i : Nat) :
    (s.removeFromHash bh).hash_table i ≠ none ↔
      ∃ h, h ≠ bh ∧ s.b_dev h ≠ 0 ∧ s.hashOf h = i := by
  have hchain := hq.remove bh i
  have hmem : ∀ h, h ∈ (queue i).erase bh ↔ h ≠ bh ∧ s.b_dev h ≠ 0 ∧ s.hashOf h = i := fun h => by
    rw [(hq.chain i).nodup.mem_erase_iff, hq.mem]
  rw [hchain.start]
  cases hl : (queue i).erase bh with
  | nil =>
      refine iff_of_false (not_not.mpr rfl) ?_
      rintro ⟨h, hh⟩
      have := (hmem h).mpr hh
      rw [hl] at this
      cases this
  | cons h l =>
      refine iff_of_true (Option.some_ne_none h) ⟨h, (hmem h).mp ?_⟩
      rw [hl]
      exact List.mem_cons_self ..

/-- A step in a cache that is as it should be. -/
theorem inside_iff {s : System n} (hs : s.cache.Consistent) (a : Act n) :
    (Inside s a ↔ Joins s a) ∧ cacheAfter s a ≠ .error .corrupted := by
  unfold Inside Joins cacheAfter
  cases htaking : taking s a with
  | none =>
      refine ⟨iff_of_true rfl fun _ _ _ h => ?_, by simp⟩
      cases h
  | some r =>
      obtain ⟨dev, block, bh⟩ := r
      obtain ⟨hfind, hstep⟩ := taking_step htaking
      obtain ⟨queue, hq⟩ := hs.hashed
      obtain ⟨c, hc, -, -⟩ := hs.take hfind bh
      dsimp only
      rw [hstep, hc, take_ok hc (hq.pointers_ne bh).1 (hq.pointers_ne bh).2]
      by_cases hjoins : dev = 0 ∨ (s.cache.removeFromHash bh).hash_table (hashfn dev block) ≠ none
      · rw [if_pos hjoins]
        refine ⟨iff_of_true rfl fun dev' block' bh' h => ?_, by simp [Except.map]⟩
        obtain ⟨rfl, hpair⟩ := Prod.mk.inj (Option.some.inj h)
        obtain ⟨rfl, rfl⟩ := Prod.mk.inj hpair
        exact hjoins.imp_right (table_ne_none hq bh _).mp
      · rw [if_neg hjoins]
        refine ⟨iff_of_false (by simp [Except.map]) fun h => hjoins ?_, by simp [Except.map]⟩
        exact (h dev block bh rfl).imp_right (table_ne_none hq bh _).mpr

theorem reach_consistent {hn : 0 < n} {b_blocknr : Fin n → UInt32} {s : System n}
    (h : Reach step Free (start hn b_blocknr) s) : s.cache.Consistent :=
  h.invariant (I := fun s => s.cache.Consistent) (Buffers.consistent_bufferInit hn b_blocknr)
    fun _ _ _ hs _ hstep => step_consistent hs hstep

/-- In every run from `buffer_init` of any tasks the free list is never found corrupted,
and in each step the queue functions store through pointers to heads if and only if it
is no step that takes a head for a device, or the head joins another one in its hash
queue. So a run all of whose steps are of this kind stores nowhere else. -/
theorem queue_stores_inside (hn : 0 < n) (b_blocknr : Fin n → UInt32) (as : List (Act n)) :
    Each step (fun s a => cacheAfter s a ≠ .error .corrupted ∧ (Inside s a ↔ Joins s a))
        (start hn b_blocknr) as ∧
      (Each step Joins (start hn b_blocknr) as → Each step Inside (start hn b_blocknr) as) := by
  have heach : Each step (fun s a => cacheAfter s a ≠ .error .corrupted ∧ (Inside s a ↔ Joins s a))
      (start hn b_blocknr) as :=
    each_of_reach (fun s a hs => (inside_iff (reach_consistent hs) a).symm) as .start
  exact ⟨heach, (heach.mono fun _ _ h => h.2.mpr).imp⟩

/-- A block, and another one of the same queue: 769 xor 5 and 769 xor 1846 leave 158. -/
def twoBlocks : List (Act 2) :=
  [.call 0 (.getblk 769 5), .run 0, .run 0, .call 0 (.getblk 769 1846), .run 0]

theorem queue_stores_inside_second : ∃ s : System 2,
    exec step (start Nat.two_pos fun _ => 7) twoBlocks = some s ∧
      taking s (.run 0) = some (769, 1846, 1) ∧ Inside s (.run 0) := by
  obtain ⟨s, hs, htaking, hdev, hblock⟩ : ∃ s : System 2,
      exec step (start Nat.two_pos fun _ => 7) twoBlocks = some s ∧
        taking s (.run 0) = some (769, 1846, 1) ∧ s.cache.b_dev 0 = 769 ∧
        s.cache.b_blocknr 0 = 5 := exec_any (by decide +kernel)
  have heach := (queue_stores_inside Nat.two_pos (fun _ => 7) (twoBlocks ++ [.run 0])).1
  refine ⟨s, hs, htaking, (heach.at_end hs).2.mpr fun dev block bh h => .inr ⟨0, ?_⟩⟩
  obtain ⟨rfl, hpair⟩ := Prod.mk.inj (Option.some.inj (htaking.symm.trans h))
  obtain ⟨rfl, rfl⟩ := Prod.mk.inj hpair
  unfold Buffers.hashOf
  rw [hdev, hblock]
  decide

/-- The first buffer that is taken for a device. -/
theorem not_queue_stores_inside : ¬ ∀ as : List (Act 2),
    Each step Inside (start Nat.two_pos fun _ => 7) as := by
  intro h
  obtain ⟨s, hs, htaking, hdev⟩ : ∃ s : System 2,
      exec step (start Nat.two_pos fun _ => 7) [.call 0 (.getblk 769 5), .run 0] = some s ∧
        taking s (.run 0) = some (769, 5, 0) ∧ ∀ b, s.cache.b_dev b = 0 :=
    exec_any (by decide +kernel)
  have hinside : Inside s (.run 0) :=
    (h ([.call 0 (.getblk 769 5), .run 0] ++ [.run 0])).at_end hs
  rcases (inside_iff (reach_consistent (exec_reach hs)) _).1.mp hinside _ _ _ htaking with
    hzero | ⟨b, -, hb, -⟩
  · exact absurd hzero (by decide)
  · exact hb (hdev b)

end QueueStores

end Linux011
