import Mathlib.Data.Prod.Lex
import Linux011.Elevator
import Linux011.LlRwBlk

/-!
# The order of the requests

The queue of one device between `add_request`, the interrupts of the disk and `end_request`: two
sweeps of the elevator, and reads before writes as far as they find their place.

The queue is compared with a list of the requests that were added and are not completed, which
`step` keeps from the actions alone: it grows by what `make_request` was asked for, and one
request leaves it when its last sector is done. No function of the driver sees it. So `Shaped`
says two things at once, that the list of requests is the right one up to its order, and that the
order is two ascending runs in the sense of `Elevator`.

The order is proved in general there: `insertRequest` is the insertion behind the head at the
first place where `IN_ORDER` allows it, with `key` as the key, and it keeps two runs if the keys
are distinct. What the driver adds is that the current request moves on by a sector while it is
served, so that its key changes in place; sectors are counted in pairs, which is why it cannot
pass its neighbour by this (`sectorOf_even`, `original`). For the second result one insertion is
looked at: a read finds its place before the first write or it does not, and the condition of the
run is exactly this.
-/

namespace Linux011

open Runs

/-- The queue behind `current_request`. The last two fields are history: `step` writes them, and
no function of the driver reads or writes them. -/
structure Queue (n : Nat) where
  current_request : List (Request n)
  /-- of the current request; the others have two -/
  nr_sectors : Nat
  /-- the requests that were added and are not completed, as they were added -/
  pending : List (Request n)
  /-- the sectors of the current request that were transferred -/
  moved : Nat

namespace Queue

variable {n : Nat}

/-! ## The code -/

inductive Act (n : Nat) where
  | addRequest (slot : Nat) (dev : UInt16) (cmd : Rw) (b_blocknr : UInt32) (bh : Fin n)
  /-- `read_intr` or `write_intr`: one sector more -/
  | transferred
  | endRequest

/-- What `make_request` writes into the slot. -/
def fill (slot : Nat) (dev : UInt16) (cmd : Rw) (b_blocknr : UInt32) (bh : Fin n) : Request n :=
  ⟨slot, dev, cmd, sectorOf b_blocknr, bh⟩

def addRequest (q : Queue n) (req : Request n) : Queue n :=
  match q.current_request with
  | [] => { q with current_request := [req], nr_sectors := 2 }
  | tmp :: rest => { q with current_request := Blocks.insertRequest req (tmp :: rest) }

def endRequest (q : Queue n) : Option (Queue n) :=
  match q.current_request with
  | [] => none
  | _ :: rest => some { q with current_request := rest, nr_sectors := 2 }

def transferred (q : Queue n) : Option (Queue n) :=
  match q.current_request with
  | [] => none
  | r :: rest =>
    if q.nr_sectors - 1 = 0 then q.endRequest
    else some { q with
      current_request := { r with sector := r.sector + 1 } :: rest
      nr_sectors := q.nr_sectors - 1 }

/-- The requests that are left to do when the current one is done. -/
def others (q : Queue n) : List (Request n) :=
  match q.current_request with
  | [] => q.pending
  | r :: _ => q.pending.filter fun p => p.slot ≠ r.slot

/-- `make_request` adds requests in free slots, and a request is done with its second sector. -/
def step (q : Queue n) : Act n → Option (Queue n)
  | .addRequest slot dev cmd b_blocknr bh =>
    if q.current_request.all fun r => r.slot ≠ slot then
      some { q.addRequest (fill slot dev cmd b_blocknr bh) with
        pending := fill slot dev cmd b_blocknr bh :: q.pending }
    else none
  | .transferred => q.transferred.map fun q' =>
    if q.moved = 0 then { q' with moved := 1 } else { q' with pending := q.others, moved := 0 }
  | .endRequest => q.endRequest.map fun q' => { q' with pending := q.others, moved := 0 }

def empty : Queue n := ⟨[], 2, [], 0⟩

/-- What `IN_ORDER` compares. -/
def key (r : Request n) : Nat ×ₗ Nat ×ₗ Nat :=
  toLex (if r.cmd = .read then 0 else 1, toLex (r.dev.toNat, r.sector.toNat))

/-- The current request as it was added. -/
def original (moved : Nat) (r : Request n) : Request n :=
  if moved = 1 then { r with sector := r.sector - 1 } else r

/-- The queue with its requests as they were added. -/
def asAdded (q : Queue n) : List (Request n) :=
  match q.current_request with
  | [] => []
  | r :: rest => original q.moved r :: rest

/-! ## The order -/

theorem key_lt_iff (a b : Request n) : key a < key b ↔ (a.cmd = .read ∧ b.cmd = .write) ∨
    (a.cmd = b.cmd ∧ (a.dev.toNat < b.dev.toNat ∨
      (a.dev.toNat = b.dev.toNat ∧ a.sector.toNat < b.sector.toNat))) := by
  rw [key, key, Prod.Lex.toLex_lt_toLex, Prod.Lex.toLex_lt_toLex]
  cases a.cmd <;> cases b.cmd <;> simp

theorem inOrder_iff (a b : Request n) : Blocks.inOrder a b = true ↔ key a < key b := by
  rw [key_lt_iff, Blocks.inOrder]
  simp [UInt16.lt_iff_toNat_lt, UInt32.lt_iff_toNat_lt, ← UInt16.toNat_inj]

theorem insertRequest_eq (req : Request n) (l : List (Request n)) :
    Blocks.insertRequest req l = Elevator.insert key req l := by
  induction l with
  | nil => rfl
  | cons tmp l ih =>
      cases l with
      | nil => rfl
      | cons next rest =>
          rw [Blocks.insertRequest, Elevator.insert, ih]
          refine if_congr ?_ rfl rfl
          rw [Bool.and_eq_true, Bool.or_eq_true, Bool.not_eq_true', ← Bool.not_eq_true,
            inOrder_iff, inOrder_iff, inOrder_iff]
          rfl

theorem read_lt_write (a b : Request n) (ha : ¬a.cmd = .write) (hb : b.cmd = .write) :
    key a < key b := by
  refine (key_lt_iff a b).mpr (.inl ⟨?_, hb⟩)
  cases hcmd : a.cmd with
  | read => rfl
  | write => exact absurd hcmd ha

/-! ## The shape of the queue -/

/-- Each request that was added and is not completed stands in the queue once, in two runs. -/
structure Shaped (q : Queue n) : Prop where
  runs : Elevator.TwoRuns key q.current_request
  contents : q.asAdded.Perm q.pending
  slots : (q.current_request.map Request.slot).Nodup

structure Inv (q : Queue n) : Prop extends Shaped q where
  even : ∀ r ∈ q.pending, r.sector.toNat % 2 = 0
  idle : q.current_request = [] → q.moved = 0
  sectors : q.moved = 0 ∧ q.nr_sectors = 2 ∨ q.moved = 1 ∧ q.nr_sectors = 1

/-- The keys of the requests are distinct. -/
def Distinct (q : Queue n) : Act n → Prop
  | .addRequest slot dev cmd b_blocknr bh =>
    ∀ p ∈ q.pending, key p ≠ key (fill slot dev cmd b_blocknr bh)
  | _ => True

variable {q q' : Queue n} {r req : Request n} {rest : List (Request n)}

@[simp] theorem original_slot (k : Nat) (r : Request n) : (original k r).slot = r.slot := by
  unfold original
  split <;> rfl

theorem asAdded_cons (h : q.current_request = r :: rest) :
    q.asAdded = original q.moved r :: rest := by
  unfold asAdded
  rw [h]

theorem asAdded_fresh (h : q.moved = 0) : q.asAdded = q.current_request := by
  cases hq : q.current_request with
  | nil =>
      unfold asAdded
      rw [hq]
  | cons r rest =>
      rw [asAdded_cons hq, original, if_neg (by rw [h]; exact Nat.zero_ne_one)]

theorem addRequest_nil (h : q.current_request = []) (req : Request n) :
    q.addRequest req = { q with current_request := [req], nr_sectors := 2 } := by
  unfold Queue.addRequest
  rw [h]

theorem addRequest_cons (h : q.current_request = r :: rest) (req : Request n) :
    q.addRequest req = { q with current_request := Blocks.insertRequest req (r :: rest) } := by
  unfold Queue.addRequest
  rw [h]

theorem others_cons (h : q.current_request = r :: rest) :
    q.others = q.pending.filter fun p => p.slot ≠ r.slot := by
  unfold others
  rw [h]

theorem sectorOf_even (b : UInt32) : (sectorOf b).toNat % 2 = 0 := by
  have hval : (sectorOf b).toNat = b.toNat * 2 % 0x100000000 := by
    simp [sectorOf, UInt32.toNat_shiftLeft, Nat.shiftLeft_eq]
  omega

theorem odd_of_pred_even {a : UInt32} (h : (a - 1).toNat % 2 = 0) : a.toNat % 2 = 1 := by
  have hval : (a - 1).toNat = (0xffffffff + a.toNat) % 0x100000000 := by
    simp [UInt32.toNat_sub]
  omega

/-- The requests behind the current one are as they were added. -/
theorem Inv.mem_pending (h : q.Inv) (hq : q.current_request = r :: rest) {x : Request n}
    (hx : x ∈ rest) : x ∈ q.pending :=
  h.contents.mem_iff.mp (by rw [asAdded_cons hq]; exact List.mem_cons_of_mem _ hx)

theorem Inv.original_mem (h : q.Inv) (hq : q.current_request = r :: rest) :
    original q.moved r ∈ q.pending :=
  h.contents.mem_iff.mp (by rw [asAdded_cons hq]; exact List.mem_cons_self)

/-- A request with the key of a queued one has the key that this was added with. -/
theorem Inv.distinct (h : q.Inv) (heven : req.sector.toNat % 2 = 0)
    (hne : ∀ p ∈ q.pending, key p ≠ key req) : ∀ x ∈ q.current_request, key x ≠ key req := by
  intro x hx
  cases hq : q.current_request with
  | nil =>
      rw [hq] at hx
      cases hx
  | cons tmp rest =>
      rw [hq] at hx
      rcases List.mem_cons.mp hx with rfl | hx
      · have hmem := h.original_mem hq
        rcases h.sectors with ⟨hnone, -⟩ | ⟨hone, -⟩
        · rw [hnone] at hmem
          exact hne x hmem
        · -- one sector of it has been transferred
          rw [hone] at hmem
          have hodd := odd_of_pred_even (h.even _ hmem)
          intro heq
          have hsector : x.sector.toNat = req.sector.toNat := congrArg (fun k => k.2.2) heq
          omega
      · exact hne x (h.mem_pending hq hx)

/-- The queue behind `add_request`, whose history the step has extended by the request. -/
theorem Inv.addRequest (h : q.Inv) (heven : req.sector.toNat % 2 = 0)
    (hfree : ∀ r ∈ q.current_request, r.slot ≠ req.slot)
    (hne : ∀ p ∈ q.pending, key p ≠ key req) :
    Inv { q.addRequest req with pending := req :: q.pending } := by
  have hpending : ∀ p ∈ req :: q.pending, p.sector.toNat % 2 = 0 := by
    intro p hp
    rcases List.mem_cons.mp hp with rfl | hp
    · exact heven
    · exact h.even p hp
  cases hq : q.current_request with
  | nil =>
      rw [addRequest_nil hq]
      have hmoved := h.idle hq
      have hnone : q.pending = [] := by
        have hperm := h.contents
        rw [asAdded_fresh hmoved, hq] at hperm
        exact hperm.symm.eq_nil
      refine ⟨⟨⟨[req], [], rfl, List.pairwise_singleton .., .nil⟩, ?_,
        List.nodup_singleton _⟩, hpending, fun _ => hmoved, .inl ⟨hmoved, rfl⟩⟩
      rw [asAdded_fresh, hnone]
      exact hmoved
  | cons tmp rest =>
      rw [addRequest_cons hq]
      have hruns := h.runs.insert (h.distinct heven hne)
      have hperm := Elevator.insert_perm key req q.current_request
      rw [← insertRequest_eq, hq] at hruns hperm
      obtain ⟨l', hl'⟩ := Elevator.insert_cons key req tmp rest
      refine ⟨⟨hruns, ?_, ?_⟩, hpending, fun hnil => ?_, h.sectors⟩
      · rw [insertRequest_eq, hl'] at hperm
        have hrest : l'.Perm (req :: rest) := (hperm.trans (.swap ..)).cons_inv
        rw [asAdded_cons (by rw [insertRequest_eq, hl'])]
        have hold := h.contents
        rw [asAdded_cons hq] at hold
        exact (hrest.cons _).trans ((List.Perm.swap ..).trans (hold.cons req))
      · refine (hperm.map Request.slot).nodup_iff.mpr (List.nodup_cons.mpr ⟨fun hmem => ?_, ?_⟩)
        · obtain ⟨x, hx, hslot⟩ := List.mem_map.mp hmem
          exact hfree x (hq ▸ hx) hslot
        · exact hq ▸ h.slots
      · rw [insertRequest_eq, hl'] at hnil
        cases hnil

/-- The queue behind the head, whose history the step has cut by the head's request. -/
theorem Inv.endRequest (h : q.Inv) (hs : q.endRequest = some q') :
    Inv { q' with pending := q.others, moved := 0 } := by
  unfold Queue.endRequest at hs
  cases hq : q.current_request with
  | nil =>
      rw [hq] at hs
      cases hs
  | cons r rest =>
      rw [hq] at hs
      obtain rfl := Option.some.inj hs
      rw [others_cons hq]
      have hslots := h.slots
      rw [hq, List.map_cons, List.nodup_cons] at hslots
      refine ⟨⟨?_, ?_, hslots.2⟩, fun p hp => h.even p (List.mem_filter.mp hp).1,
        fun _ => rfl, .inl ⟨rfl, rfl⟩⟩
      · have hruns := h.runs.tail
        rwa [hq] at hruns
      · have hperm := h.contents.filter fun p => p.slot ≠ r.slot
        have hkept : rest.filter (fun p => p.slot ≠ r.slot) = rest := by
          refine List.filter_eq_self.mpr fun x hx => decide_eq_true fun heq => ?_
          exact hslots.1 (heq ▸ List.mem_map_of_mem hx)
        rw [asAdded_cons hq, List.filter_cons_of_neg (by simp), hkept] at hperm
        rw [asAdded_fresh rfl]
        exact hperm

/-- The head of which the first sector is transferred: its sector is the next one, and its key
stays below those that it was below, which belong to even sectors. -/
theorem Inv.transferred (h : q.Inv) (hmoved : q.moved = 0) (hs : q.transferred = some q') :
    Inv { q' with moved := 1 } := by
  have htwo : q.nr_sectors = 2 := by
    rcases h.sectors with ⟨-, htwo⟩ | ⟨hone, -⟩
    · exact htwo
    · omega
  unfold Queue.transferred at hs
  cases hq : q.current_request with
  | nil =>
      rw [hq] at hs
      cases hs
  | cons r rest =>
      rw [hq] at hs
      dsimp only at hs
      rw [if_neg (by rw [htwo]; exact Nat.one_ne_zero)] at hs
      obtain rfl := Option.some.inj hs
      have hold := h.contents
      rw [asAdded_fresh hmoved, hq] at hold
      have heven : r.sector.toNat % 2 = 0 := h.even r (hold.mem_iff.mp List.mem_cons_self)
      have hruns := h.runs
      rw [hq] at hruns
      refine ⟨⟨hruns.head fun x hx hlt => ?_, ?_, ?_⟩, h.even, fun hnil => (nomatch hnil),
        .inr ⟨rfl, by rw [htwo]⟩⟩
      · have hx2 := h.even x (h.mem_pending hq hx)
        have hsucc : (r.sector + 1).toNat = r.sector.toNat + 1 := by
          have hlt32 := r.sector.toNat_lt
          rw [UInt32.toNat_add]
          show (r.sector.toNat + 1) % 4294967296 = _
          omega
        rw [key_lt_iff] at hlt ⊢
        rw [hsucc]
        refine hlt.imp_right (And.imp_right (Or.imp_right (And.imp_right fun hsector => ?_)))
        omega
      · rw [asAdded_cons rfl]
        have hback : original 1 { r with sector := r.sector + 1 } = r := by
          show ({ r with sector := r.sector + 1 - 1 } : Request n) = r
          rw [UInt32.add_sub_cancel]
        rw [hback]
        exact hold
      · have hslots := h.slots
        rw [hq] at hslots
        exact hslots

theorem transferred_last (hone : q.nr_sectors = 1) : q.transferred = q.endRequest := by
  unfold Queue.transferred
  cases hq : q.current_request with
  | nil =>
      unfold Queue.endRequest
      rw [hq]
  | cons r rest => exact if_pos (by rw [hone])

theorem Inv.step {a : Act n} (h : q.Inv) (hok : Distinct q a) (hs : q.step a = some q') :
    q'.Inv := by
  cases a with
  | addRequest slot dev cmd b_blocknr bh =>
      obtain ⟨hfree, hs⟩ := Option.ite_none_right_eq_some.mp hs
      obtain rfl := Option.some.inj hs
      refine h.addRequest (sectorOf_even b_blocknr) (fun r hr => ?_) hok
      exact of_decide_eq_true (List.all_eq_true.mp hfree r hr)
  | transferred =>
      obtain ⟨q₁, hend, rfl⟩ := Option.map_eq_some_iff.mp hs
      rcases h.sectors with ⟨hmoved, -⟩ | ⟨hmoved, hone⟩
      · rw [if_pos hmoved]
        exact h.transferred hmoved hend
      · rw [if_neg (by rw [hmoved]; exact Nat.one_ne_zero)]
        exact h.endRequest (transferred_last hone ▸ hend)
  | endRequest =>
      obtain ⟨q₁, hend, rfl⟩ := Option.map_eq_some_iff.mp hs
      exact h.endRequest hend

/-- **The queue of a device**: whatever is added, transferred and completed in any
order, the requests in the queue are those that were added and are not completed, each
of them once, and behind one another they are two sweeps of the elevator, the one that
is under way and the one that comes next. -/
theorem elevator_shape {q : Queue n} (h : Reach step Distinct (empty : Queue n) q) : q.Shaped := by
  have hinv : q.Inv := by
    refine h.invariant (I := Inv) ?_ fun q a q' hq hok hs => hq.step hok hs
    have hshaped : (empty : Queue n).Shaped := ⟨Elevator.twoRuns_nil, .rfl, .nil⟩
    exact ⟨hshaped, (fun _ hno => nomatch hno), fun _ => rfl, .inl ⟨rfl, rfl⟩⟩
  exact hinv.toShaped

instance (q : Queue n) (a : Act n) : Decidable (Distinct q a) := by
  cases a <;> unfold Distinct <;> infer_instance

/-- The last request is behind the current one, and waits for the next sweep. -/
def sweeps : List (Act 1) :=
  [.addRequest 0 0x300 .read 20 ⟨0, Nat.one_pos⟩, .transferred,
    .addRequest 1 0x300 .read 30 ⟨0, Nat.one_pos⟩, .addRequest 2 0x300 .read 5 ⟨0, Nat.one_pos⟩,
    .addRequest 3 0x300 .read 25 ⟨0, Nat.one_pos⟩]

theorem elevator_shape_sweeps : ∃ q : Queue 1,
    exec (checked step Distinct) empty sweeps = some q ∧
    q.current_request.map Request.slot = [0, 3, 1, 2] ∧ q.Shaped := by
  obtain ⟨q, hq, hslots⟩ : ∃ q, exec (checked step Distinct) empty sweeps = some q ∧
      q.current_request.map Request.slot = [0, 3, 1, 2] := exec_any (by decide +kernel)
  exact ⟨q, hq, hslots, elevator_shape (exec_checked hq)⟩

/-! ## Reads before writes -/

/-- Behind the current request, no read stands behind a write. -/
def ReadsFirst (q : Queue n) : Prop :=
  q.current_request.tail.Pairwise fun a b => a.cmd = .write → b.cmd = .write

/-- A read has its place between two neighbours before the first write behind the current
request. -/
def InPlace (q : Queue n) : Act n → Prop
  | .addRequest slot dev cmd b_blocknr bh =>
    cmd = .write ∨ ¬Elevator.Missed key (fun r : Request n => r.cmd = .write)
      (fill slot dev cmd b_blocknr bh) q.current_request
  | _ => True

theorem ReadsFirst.endRequest (h : q.ReadsFirst) (hs : q.endRequest = some q') :
    q'.ReadsFirst := by
  unfold Queue.endRequest at hs
  cases hq : q.current_request with
  | nil =>
      rw [hq] at hs
      cases hs
  | cons r rest =>
      rw [hq] at hs
      obtain rfl := Option.some.inj hs
      rw [ReadsFirst, hq] at h
      exact h.tail

theorem ReadsFirst.transferred (h : q.ReadsFirst) (hs : q.transferred = some q') :
    q'.ReadsFirst := by
  unfold Queue.transferred at hs
  cases hq : q.current_request with
  | nil =>
      rw [hq] at hs
      cases hs
  | cons r rest =>
      rw [hq] at hs
      dsimp only at hs
      split at hs
      · exact h.endRequest hs
      · obtain rfl := Option.some.inj hs
        rw [ReadsFirst, hq] at h
        exact h

/-- Whether a new request keeps the order is decided by its place. -/
theorem readsFirst_addRequest_iff (h : q.ReadsFirst) (req : Request n) :
    (q.addRequest req).ReadsFirst ↔ req.cmd = .write ∨
      ¬Elevator.Missed key (fun r : Request n => r.cmd = .write) req q.current_request := by
  cases hq : q.current_request with
  | nil =>
      rw [addRequest_nil hq]
      exact iff_of_true .nil (.inr id)
  | cons tmp rest =>
      rw [addRequest_cons hq]
      rw [ReadsFirst, hq] at h
      show List.Pairwise _ (Blocks.insertRequest req (tmp :: rest)).tail ↔ _
      rw [insertRequest_eq]
      exact Elevator.overtaken_insert_iff read_lt_write h

/-- **Reads go before writes** in every run in which each new read finds a place between
two neighbours before the first write that waits. Where it does not, `add_request` puts
it at the end, and a write that waits is served before it. -/
theorem reads_first {q : Queue n} (h : Reach step InPlace (empty : Queue n) q) :
    q.ReadsFirst := by
  have hstart : (empty : Queue n).ReadsFirst := List.Pairwise.nil
  refine h.invariant (I := ReadsFirst) hstart ?_
  intro q a q' hq hok hs
  cases a with
  | addRequest slot dev cmd b_blocknr bh =>
      obtain ⟨-, hs⟩ := Option.ite_none_right_eq_some.mp hs
      obtain rfl := Option.some.inj hs
      exact (readsFirst_addRequest_iff hq _).mpr hok
  | transferred =>
      obtain ⟨q₁, hend, rfl⟩ := Option.map_eq_some_iff.mp hs
      have hfirst := hq.transferred hend
      split
      · exact hfirst
      · exact hfirst
  | endRequest =>
      obtain ⟨q₁, hend, rfl⟩ := Option.map_eq_some_iff.mp hs
      have hfirst := hq.endRequest hend
      exact hfirst

instance (q : Queue n) (a : Act n) : Decidable (InPlace q a) := by
  cases a <;> unfold InPlace <;> infer_instance

/-- The second read belongs between the write that is served and the first read. -/
def placed : List (Act 1) :=
  [.addRequest 0 0x300 .write 5 ⟨0, Nat.one_pos⟩, .addRequest 1 0x300 .read 7 ⟨0, Nat.one_pos⟩,
    .addRequest 2 0x300 .write 20 ⟨0, Nat.one_pos⟩, .addRequest 3 0x300 .read 3 ⟨0, Nat.one_pos⟩]

theorem reads_first_placed : ∃ q : Queue 1,
    exec (checked step InPlace) empty placed = some q ∧
    q.current_request.map Request.slot = [0, 3, 1, 2] ∧ q.ReadsFirst := by
  obtain ⟨q, hq, hslots⟩ : ∃ q, exec (checked step InPlace) empty placed = some q ∧
      q.current_request.map Request.slot = [0, 3, 1, 2] := exec_any (by decide +kernel)
  exact ⟨q, hq, hslots, reads_first (exec_checked hq)⟩

/-- Two writes, of which the first is being served, and a read. -/
def lateRead : List (Act 1) :=
  [.addRequest 0 0x300 .write 5 ⟨0, Nat.one_pos⟩, .addRequest 1 0x300 .write 10 ⟨0, Nat.one_pos⟩,
    .addRequest 2 0x300 .read 2 ⟨0, Nat.one_pos⟩]

instance (q : Queue n) : Decidable q.ReadsFirst := by
  unfold ReadsFirst
  infer_instance

theorem not_reads_first :
    ¬∀ (n : Nat) (q : Queue n), Reach step Free (empty : Queue n) q → q.ReadsFirst := by
  intro hall
  obtain ⟨q, hq, hno⟩ : ∃ q, exec step (empty : Queue 1) lateRead = some q ∧ ¬q.ReadsFirst :=
    exec_any (by decide +kernel)
  exact hno (hall 1 q (exec_reach hq))

end Queue

end Linux011
