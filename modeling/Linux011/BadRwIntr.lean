import Linux011.HardDisk

/-!
# The error handler of the hard disk

Which request the second test of `bad_rw_intr` of `kernel/blk_drv/hd.c` is about. `end_request`
moves the next request to the head of the queue, or leaves a null pointer there. In a run in which
no request comes to `MAX_ERRORS` errors the test is always about the request that has failed, and
there is one.

`bad_rw_intr` is cut at its second test (`countError`, `testErrors`), and `badRwIntr_eq` says
that the two parts are the function of `HardDisk`. For one call the answer is exact: the number
of the request at the head is the same before and after the first part if and only if the first
test has not ended it (`testsOwn_iff`). Over the runs one thing more is needed, that the handler
is never called without a request, which is `Quiet`: with an empty queue `do_hd` is null, because
the functions that end a request put a handler there only when another one follows.
-/

namespace Linux011

open Runs

namespace HardDisk

variable {n : Nat}

/-- `bad_rw_intr` up to the second test. -/
def countError (s : Hd n) : Option (Hd n) :=
  match s.current_request with
  | [] => none
  | r :: rest =>
    let r := { r with errors := r.errors + 1, since := r.since + 1 }
    let s := { s with current_request := r :: rest }
    some (if MAX_ERRORS ≤ r.errors then endRequest s false else s)

/-- The handler counts the error of a request and tests the errors of the same request. -/
def TestsOwn (s : Hd n) : Prop :=
  ∃ r ∈ s.current_request.head?, ∃ s' ∈ countError s, ∃ r' ∈ s'.current_request.head?, r'.id = r.id

instance (s : Hd n) : Decidable (TestsOwn s) :=
  inferInstanceAs (Decidable (∃ r ∈ s.current_request.head?, _))

/-- The action calls `bad_rw_intr`. -/
def Calls (s : Hd n) : Act n → Prop
  | .makeRequest .. => False
  | .interrupt ok => s.polling = false ∧ s.do_hd.isSome ∧ ok = false
  | .drq ok => s.polling = true ∧ ok = false

/-- The state in which it does. -/
def entered (s : Hd n) : Act n → Hd n
  | .makeRequest .. => s
  | .interrupt _ => { tick s with do_hd := none }
  | .drq _ => { tick s with polling := false }

/-- The error is not the last one that the current request may have. -/
def Spare (s : Hd n) (a : Act n) : Prop :=
  Calls s a → ∀ r ∈ s.current_request.head?, r.errors + 1 < MAX_ERRORS

variable {d : Disks} {s s' : Hd n} {r : HdRequest n} {rest : List (HdRequest n)}

instance (s : Hd n) (a : Act n) : Decidable (Calls s a) := by
  unfold Calls
  split
  · infer_instance
  · infer_instance
  · infer_instance

instance (s : Hd n) (a : Act n) : Decidable (Spare s a) :=
  inferInstanceAs (Decidable (_ → ∀ r ∈ s.current_request.head?, _))

/-- The rest of `bad_rw_intr`. -/
def testErrors (s : Hd n) : Hd n :=
  match s.current_request with
  | [] => { s with reset := true }
  | r :: _ => { s with reset := s.reset || decide (MAX_ERRORS / 2 < r.errors) }

theorem badRwIntr_eq (s : Hd n) : badRwIntr s = (countError s).map testErrors := by
  unfold badRwIntr countError
  cases s.current_request with
  | nil => rfl
  | cons r rest =>
      dsimp only [Option.map_some]
      generalize (if MAX_ERRORS ≤ r.errors + 1 then _ else _ : Hd n) = s'
      unfold testErrors
      cases s'.current_request with
      | nil => rfl
      | cons r rest => rfl

/-- `countError` keeps the request that may have more errors. -/
theorem testsOwn_iff (hs : s.current_request = r :: rest)
    (hids : (s.current_request.map HdRequest.id).Nodup) :
    TestsOwn s ↔ r.errors + 1 < MAX_ERRORS := by
  rw [hs] at hids
  obtain ⟨hid, -⟩ := List.nodup_cons.mp hids
  unfold TestsOwn countError
  rw [hs]
  dsimp only [List.head?_cons]
  by_cases hmax : MAX_ERRORS ≤ r.errors + 1
  · rw [if_pos hmax]
    refine ⟨?_, fun hlt => absurd hmax (Nat.not_le_of_lt hlt)⟩
    rintro ⟨r₁, hr₁, s', hs', r', hr', hsame⟩
    obtain rfl := Option.some.inj hr₁
    obtain rfl := Option.some.inj hs'
    have hmem : r' ∈ rest := List.mem_of_mem_head? hr'
    exact absurd (hsame ▸ List.mem_map_of_mem hmem) hid
  · rw [if_neg hmax]
    exact ⟨fun _ => Nat.lt_of_not_le hmax, fun _ => ⟨r, rfl, _, rfl, _, rfl, rfl⟩⟩

/-! ## No command without a request -/

/-- Without a request nothing is left to wait for. -/
def Quiet (s : Hd n) : Prop := s.current_request = [] → s.do_hd = none

theorem hdOut_current {drive nsect sect head cyl : Nat} {intr : Intr}
    (h : hdOut s drive nsect sect head cyl intr = some s') :
    s'.current_request = s.current_request := by
  obtain ⟨-, h⟩ := Option.ite_none_left_eq_some.mp h
  obtain rfl := Option.some.inj h
  rfl

theorem startCommand_current (h : startCommand d s = some s') :
    s'.current_request = s.current_request ∧ (s.current_request = [] → s' = s) := by
  unfold startCommand at h
  split at h
  · obtain rfl := Option.some.inj h
    exact ⟨rfl, fun _ => rfl⟩
  · rename_i r rest hcur
    refine ⟨?_, fun hnil => absurd (hcur.symm.trans hnil) (List.cons_ne_nil _ _)⟩
    dsimp only at h
    split at h
    · exact (hdOut_current h).trans rfl
    · split at h
      · exact (hdOut_current h).trans rfl
      · split at h
        · exact (hdOut_current h).trans rfl
        · exact (hdOut_current h).trans rfl

theorem doHdRequest_quiet (hdo : s.do_hd = none) (h : doHdRequest d s = some s') : Quiet s' := by
  intro hnil
  obtain ⟨hcur, hsame⟩ := startCommand_current h
  rw [hsame (hcur.symm.trans hnil)]
  obtain ⟨gone, kept, -, -, -, hdrop⟩ := dropOutside_spec d s s.current_request
  rw [hdrop]
  exact hdo

theorem countError_do_hd (h : countError s = some s') : s'.do_hd = s.do_hd := by
  unfold countError at h
  split at h
  · cases h
  · obtain rfl := Option.some.inj h
    split <;> rfl

theorem badRwIntr_do_hd (h : badRwIntr s = some s') : s'.do_hd = s.do_hd := by
  rw [badRwIntr_eq] at h
  obtain ⟨s₁, hcount, rfl⟩ := Option.map_eq_some_iff.mp h
  rw [← countError_do_hd hcount]
  unfold testErrors
  split <;> rfl

theorem failed_quiet (hdo : s.do_hd = none) (h : failed d s = some s') : Quiet s' := by
  obtain ⟨s₁, hbad, hdone⟩ := Option.bind_eq_some_iff.mp h
  exact doHdRequest_quiet ((badRwIntr_do_hd hbad).trans hdo) hdone

/-- An error that is not the last one leaves the request at the head of the queue. -/
theorem failed_spare (hs : s.current_request = r :: rest) (hpart : InPartition d r)
    (hmax : r.errors + 1 < MAX_ERRORS) (h : failed d s = some s') : Quiet s' := by
  obtain ⟨s₁, hbad, -, -, ⟨-, -, hcur⟩ | ⟨hle, -⟩⟩ := badRwIntr_spec hs
  · have hagain : InPartition d { r with errors := r.errors + 1, since := r.since + 1 } := hpart
    rw [failed, hbad, Option.bind_some, doHdRequest, hcur, dropOutside] at h
    rw [if_pos hagain] at h
    intro hnil
    have hkept := (startCommand_current h).1
    rw [hnil] at hkept
    cases hkept
  · omega

theorem callIntr_quiet {intr : Intr} {ok : Bool} (hdo : s.do_hd = none)
    (h : callIntr d s intr ok = some s') : Quiet s' := by
  unfold callIntr at h
  split at h
  · cases intr with
    | recal_intr => exact doHdRequest_quiet hdo h
    | read_intr =>
        change readIntr d s = some s' at h
        unfold readIntr at h
        split at h
        · cases h
        · dsimp only at h
          split at h
          · obtain rfl := Option.some.inj h
            exact nofun
          · refine doHdRequest_quiet ?_ h
            exact hdo
    | write_intr =>
        change writeIntr d s = some s' at h
        unfold writeIntr at h
        split at h
        · cases h
        · dsimp only at h
          split at h
          · obtain rfl := Option.some.inj h
            exact nofun
          · refine doHdRequest_quiet ?_ h
            exact hdo
  · exact failed_quiet hdo h

theorem tick_cons (hs : s.current_request = r :: rest) :
    (tick s).current_request = { r with rounds := r.rounds + 1 } :: rest := by
  rw [tick, hs]

theorem Quiet.step {a : Act n} (hsteady : Steady d s) (hquiet : Quiet s) (hspare : Spare s a)
    (hs : HardDisk.step d s a = some s') : Quiet s' := by
  cases a with
  | makeRequest slot dev cmd b_blocknr bh b_data =>
      obtain ⟨-, hs⟩ := Option.ite_none_left_eq_some.mp hs
      unfold addRequest at hs
      split at hs
      · rename_i hcur
        refine doHdRequest_quiet ?_ hs
        exact hquiet hcur
      · rename_i tmp rest _
        obtain rfl := Option.some.inj hs
        obtain ⟨l, hl⟩ := Elevator.insert_cons (fun r : HdRequest n => Queue.key r.toRequest)
          (fill s.count slot dev cmd b_blocknr bh b_data) tmp rest
        intro hnil
        exact absurd (hl.symm.trans hnil) (List.cons_ne_nil _ _)
  | interrupt ok =>
      obtain ⟨-, hs⟩ := Option.ite_none_left_eq_some.mp hs
      unfold hdInterrupt at hs
      split at hs
      · obtain rfl := Option.some.inj hs
        exact hquiet
      · exact callIntr_quiet rfl hs
  | drq ok =>
      obtain ⟨hpoll, hs⟩ := Option.ite_none_right_eq_some.mp hs
      cases hcur : s.current_request with
      | nil =>
          rw [hsteady.idle hcur] at hpoll
          cases hpoll
      | cons r rest =>
          have htick := tick_cons hcur
          unfold drqWait at hs
          dsimp only at hs
          cases ok with
          | true =>
              rw [if_pos rfl, htick] at hs
              obtain rfl := Option.some.inj hs
              exact nofun
          | false =>
              rw [if_neg Bool.false_ne_true] at hs
              obtain ⟨-, hphase⟩ := hsteady.busy r rest hcur
              have hmax : r.errors + 1 < MAX_ERRORS :=
                hspare ⟨hpoll, rfl⟩ r (by rw [hcur]; rfl)
              have hpart : InPartition d r := by
                cases hphase with
                | poll _ _ _ _ hpart => exact hpart
                | recal _ hoff | read _ hoff | write _ hoff =>
                    rw [hoff] at hpoll
                    cases hpoll
              exact @failed_spare n d { tick s with polling := false } s'
                { r with rounds := r.rounds + 1 } rest htick hpart hmax hs

/-- In a run without a last error each call of the handler is about a request of its own, as long
as this error is not a last one. -/
theorem testsOwn_run (h : Reach (step d) Spare boot s) {a : Act n} (ha : Calls s a) :
    TestsOwn (entered s a) ↔ Spare s a := by
  obtain ⟨hsteady, hquiet⟩ : Steady d s ∧ Quiet s := h.invariant
    (I := fun s => Steady d s ∧ Quiet s) ⟨steady_boot d, fun _ => rfl⟩
    fun _ _ _ ⟨hsteady, hquiet⟩ hspare hs =>
      ⟨(hsteady.step hs).1, hquiet.step hsteady hspare hs⟩
  obtain ⟨r, rest, hcur⟩ : ∃ r rest, s.current_request = r :: rest := by
    refine List.exists_cons_of_ne_nil fun hnil => ?_
    cases a with
    | makeRequest => exact ha
    | interrupt ok =>
        rw [Calls, hquiet hnil] at ha
        exact absurd ha.2.1 Bool.false_ne_true
    | drq ok =>
        rw [Calls, hsteady.idle hnil] at ha
        exact absurd ha.1 Bool.false_ne_true
  have hentered : (entered s a).current_request = { r with rounds := r.rounds + 1 } :: rest := by
    cases a with
    | makeRequest => exact ha.elim
    | interrupt ok => exact tick_cons hcur
    | drq ok => exact tick_cons hcur
  have hids : ((entered s a).current_request.map HdRequest.id).Nodup := by
    have hids := hsteady.ids
    rw [hcur] at hids
    rw [hentered]
    exact hids
  rw [testsOwn_iff hentered hids]
  constructor
  · intro hlt _ r' hr'
    rw [hcur] at hr'
    obtain rfl := Option.some.inj hr'
    exact hlt
  · exact fun hspare => hspare ha r (by rw [hcur]; rfl)

end HardDisk

end Linux011
