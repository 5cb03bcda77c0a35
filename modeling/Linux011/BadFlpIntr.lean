import Linux011.Floppy

/-!
# The error handler of the floppy disk

Which request the second test of `bad_flp_intr` of `kernel/blk_drv/floppy.c` is about. As for the
hard disk, `end_request` moves the next request to the head of the queue, or leaves none there.
A request that comes while a command is on its way without one starts a second command; in a run
without such a request the test is about the request that has failed just when this has an error
left.

For one call the answer is again exact (`testsOwn_iff`). The runs are harder than those of the
hard disk, because the floppy driver has timers: a transfer starts when the motor is up, and
until then no command is on its way although there is a request. `Busy` says that there is never
more than one thing on its way, a command or a timer, and that it has a request; `Clear` is the
state between the end of one and the start of the next, inside an interrupt. Each function of the
driver takes `Clear` to `Busy` or leaves it `Clear`. The condition of the run is about the one
step that can break this, a request that comes to an empty queue while a command that needs no
request is on its way.
-/

namespace Linux011

open Runs

namespace Floppy

variable {n : Nat} {floppy_type : Nat → FloppyStruct} {s s' : Fd n} {r : FdRequest n}
  {rest : List (FdRequest n)}

/-- The handler counts the error of a request and tests the errors of the same request. -/
def TestsOwn (s : Fd n) : Prop :=
  ∃ r ∈ s.current_request.head?, ∃ s' ∈ countError s, ∃ r' ∈ s'.current_request.head?, r'.id = r.id

instance (s : Fd n) : Decidable (TestsOwn s) :=
  inferInstanceAs (Decidable (∃ r ∈ s.current_request.head?, _))

/-- The state in which an interrupt calls `bad_flp_intr`, if it does. -/
def entered (s : Fd n) : Act n → Option (Fd n)
  | .interrupt io =>
    let s' := { s with do_floppy := none }
    match s.do_floppy with
    | some .rw_interrupt =>
      if rwFails s' io ∧ io.ST1 &&& 0x02 = 0 then some (result s' io).1 else none
    | some .seek_interrupt =>
      let s' := output s' io.first
      if seekFails s' io then some (result s' io).1 else none
    | _ => none
  | _ => none

/-- The error is not the last one that the current request may have. -/
def Spare (s : Fd n) (a : Act n) : Prop :=
  (entered s a).isSome → ∀ r ∈ s.current_request.head?, r.errors + 1 ≤ MAX_ERRORS

/-- A request that finds no other finds no command and no timer on its way. -/
def Idle (s : Fd n) : Act n → Prop
  | .makeRequest .. => s.current_request = [] → s.do_floppy = none ∧ s.on = 0 ∧ s.transfers = 0
  | _ => True

instance (s : Fd n) (a : Act n) : Decidable (Spare s a) :=
  inferInstanceAs (Decidable (_ → ∀ r ∈ s.current_request.head?, _))

instance (s : Fd n) (a : Act n) : Decidable (Idle s a) := by
  unfold Idle
  split
  · infer_instance
  · infer_instance

/-- `countError` keeps the request that may have more errors. -/
theorem testsOwn_iff (hs : s.current_request = r :: rest)
    (hids : (s.current_request.map FdRequest.id).Nodup) :
    TestsOwn s ↔ r.errors + 1 ≤ MAX_ERRORS := by
  rw [hs] at hids
  obtain ⟨hid, -⟩ := List.nodup_cons.mp hids
  unfold TestsOwn countError
  rw [hs]
  dsimp only [List.head?_cons]
  by_cases hmax : MAX_ERRORS < r.errors + 1
  · rw [if_pos hmax]
    refine ⟨?_, fun hle => absurd hmax (Nat.not_lt_of_le hle)⟩
    rintro ⟨r₁, hr₁, s', hs', r', hr', hsame⟩
    obtain rfl := Option.some.inj hr₁
    obtain rfl := Option.some.inj hs'
    have hmem : r' ∈ rest := List.mem_of_mem_head? hr'
    exact absurd (hsame ▸ List.mem_map_of_mem hmem) hid
  · rw [if_neg hmax]
    exact ⟨fun _ => Nat.le_of_not_lt hmax, fun _ => ⟨r, rfl, _, rfl, _, rfl, rfl⟩⟩

/-! ## What is on its way -/

/-- Each request has a number of its own. -/
structure Named (s : Fd n) : Prop where
  ids : (s.current_request.map FdRequest.id).Nodup
  made : ∀ id ∈ s.current_request.map FdRequest.id, id < s.count

/-- A command that needs a request and a timer have one, and there is one of them. -/
structure Busy (s : Fd n) : Prop extends Named s where
  command : s.do_floppy = some .rw_interrupt ∨ s.do_floppy = some .seek_interrupt →
    s.current_request ≠ []
  timer : s.on + s.transfers ≠ 0 → s.current_request ≠ [] ∧ s.do_floppy = none
  one : s.on + s.transfers ≤ 1

/-- Nothing is on its way. -/
structure Clear (s : Fd n) : Prop extends Named s where
  command : s.do_floppy = none
  timer : s.on + s.transfers = 0

/-- The requests of the second state are the last ones of the first. -/
structure Follows (s s' : Fd n) : Prop where
  ids : s'.current_request.map FdRequest.id <:+ s.current_request.map FdRequest.id
  count : s'.count = s.count

theorem Named.follow (h : Named s) (hs : Follows s s') : Named s' where
  ids := h.ids.sublist hs.ids.sublist
  made id hid := by
    rw [hs.count]
    exact h.made id (hs.ids.subset hid)

/-- `do_fd_request` only drops requests before it starts a transfer. -/
theorem dropOutside_spec (floppy_type : Nat → FloppyStruct) (s : Fd n) (l : List (FdRequest n)) :
    ∃ kept, kept <:+ l ∧ ∃ floppy seek drive, dropOutside floppy_type s l =
      { s with current_request := kept, floppy := floppy, seek := seek, current_drive := drive } := by
  induction l generalizing s with
  | nil => exact ⟨[], List.suffix_refl _, s.floppy, s.seek, s.current_drive, rfl⟩
  | cons r rest ih =>
      unfold dropOutside
      dsimp only
      split
      · obtain ⟨kept, hkept, floppy, seek, drive, heq⟩ := ih _
        refine ⟨kept, hkept.trans (List.suffix_cons r rest), floppy, seek, drive, heq.trans rfl⟩
      · exact ⟨r :: rest, List.suffix_refl _, _, _, _, rfl⟩

theorem doFdRequest_busy (hnamed : Named s) (htimer : s.on + s.transfers = 0)
    (hdo : s.reset = true ∨ s.do_floppy = none) (taken : Bool) :
    Busy (doFdRequest floppy_type s taken) := by
  unfold doFdRequest
  dsimp only
  split
  · exact ⟨hnamed.follow ⟨List.suffix_refl _, rfl⟩, nofun, fun h => absurd htimer h,
      htimer.le.trans (Nat.zero_le 1)⟩
  · rename_i hreset
    split
    · unfold recalibrateFloppy
      dsimp only
      split
      · exact ⟨hnamed.follow ⟨List.suffix_refl _, rfl⟩, nofun, fun h => absurd htimer h,
          htimer.le.trans (Nat.zero_le 1)⟩
      · exact ⟨hnamed.follow ⟨List.suffix_refl _, rfl⟩, nofun, fun h => absurd htimer h,
          htimer.le.trans (Nat.zero_le 1)⟩
    · have hnone : s.do_floppy = none := hdo.resolve_left hreset
      obtain ⟨kept, hkept, floppy, seek, drive, heq⟩ :=
        dropOutside_spec floppy_type { s with seek := false } s.current_request
      rw [heq]
      unfold startTransfer
      cases kept with
      | nil =>
          refine ⟨hnamed.follow ⟨List.nil_suffix, rfl⟩, fun h => ?_, fun h => absurd htimer h,
            htimer.le.trans (Nat.zero_le 1)⟩
          rw [show s.do_floppy = none from hnone] at h
          exact absurd h (by decide)
      | cons r rest =>
          refine ⟨hnamed.follow ⟨hkept.map _, rfl⟩, fun _ => List.cons_ne_nil _ _,
            fun _ => ⟨List.cons_ne_nil _ _, hnone⟩, ?_⟩
          show s.on + 1 + s.transfers ≤ 1
          omega

theorem Clear.doFdRequest (h : Clear s) (taken : Bool) : Busy (doFdRequest floppy_type s taken) :=
  doFdRequest_busy h.toNamed h.timer (.inr h.command) taken

theorem Clear.output (h : Clear s) (taken : Bool) : Clear (output s taken) :=
  ⟨h.toNamed.follow ⟨List.suffix_refl _, rfl⟩, h.command, h.timer⟩

theorem Clear.result (h : Clear s) (io : Io) : Clear (result s io).1 := by
  unfold Floppy.result
  split
  · exact h
  · split
    · exact ⟨h.toNamed.follow ⟨List.suffix_refl _, rfl⟩, h.command, h.timer⟩
    · exact h

theorem Clear.endRequest (h : Clear s) (hs : endRequest s = some s') : Clear s' := by
  unfold Floppy.endRequest at hs
  split at hs
  · cases hs
  · rename_i r rest hcur
    obtain rfl := Option.some.inj hs
    refine ⟨h.toNamed.follow ⟨?_, rfl⟩, h.command, h.timer⟩
    rw [hcur]
    exact List.suffix_cons _ _

theorem Clear.countError (h : Clear s) (hs : countError s = some s') : Clear s' := by
  unfold Floppy.countError at hs
  split at hs
  · cases hs
  · rename_i r rest hcur
    have hcounted : Clear { s with current_request := { r with errors := r.errors + 1 } :: rest } := by
      refine ⟨h.toNamed.follow ⟨?_, rfl⟩, h.command, h.timer⟩
      rw [hcur]
      exact List.suffix_refl _
    dsimp only at hs
    split at hs
    · exact hcounted.endRequest hs
    · obtain rfl := Option.some.inj hs
      exact hcounted

theorem Clear.badFlpIntr (h : Clear s) (hs : badFlpIntr s = some s') : Clear s' := by
  obtain ⟨s₁, hcount, rfl⟩ := Option.map_eq_some_iff.mp hs
  have h₁ := h.countError hcount
  unfold testErrors
  split
  · exact ⟨h₁.toNamed.follow ⟨List.suffix_refl _, rfl⟩, h₁.command, h₁.timer⟩
  · split <;> exact ⟨h₁.toNamed.follow ⟨List.suffix_refl _, rfl⟩, h₁.command, h₁.timer⟩

theorem Clear.setupRwFloppy {io : Io} {taken : Bool} (h : Clear s)
    (hs : setupRwFloppy floppy_type s io taken = some s') : Busy s' := by
  unfold Floppy.setupRwFloppy at hs
  split at hs
  · cases hs
  · rename_i hne
    obtain rfl := Option.some.inj hs
    have hnamed : Named (Floppy.output { s with do_floppy := some .rw_interrupt } taken) :=
      h.toNamed.follow ⟨List.suffix_refl _, rfl⟩
    split
    · rename_i hreset
      exact doFdRequest_busy hnamed h.timer (.inl hreset) _
    · exact ⟨hnamed, fun _ => hne, fun ht => absurd h.timer ht, h.timer.le.trans (Nat.zero_le 1)⟩

theorem Clear.transfer {io : Io} (h : Clear s) (hne : s.current_request ≠ [])
    (hs : transfer floppy_type s io = some s') : Busy s' := by
  unfold Floppy.transfer at hs
  obtain ⟨s₁, hs₁, h₁, hcur⟩ : ∃ s₁, (if s.cur_spec1 ≠ some s.floppy.spec1 then
      Floppy.output { s with cur_spec1 := some s.floppy.spec1 } io.first else s) = s₁ ∧ Clear s₁ ∧
      s₁.current_request = s.current_request := by
    refine ⟨_, rfl, ?_⟩
    split
    · exact ⟨⟨h.toNamed.follow ⟨List.suffix_refl _, rfl⟩, h.command, h.timer⟩, rfl⟩
    · exact ⟨h, rfl⟩
  rw [hs₁] at hs
  dsimp only at hs
  split at hs
  · obtain rfl := Option.some.inj hs
    exact h₁.doFdRequest _
  · split at hs
    · exact h₁.setupRwFloppy hs
    · obtain rfl := Option.some.inj hs
      have hnamed : Named (Floppy.output { s₁ with do_floppy := some .seek_interrupt } io.second) :=
        h₁.toNamed.follow ⟨List.suffix_refl _, rfl⟩
      split
      · rename_i hreset
        exact doFdRequest_busy hnamed h₁.timer (.inl hreset) _
      · exact ⟨hnamed, fun _ hnil => hne (hcur.symm.trans hnil), fun ht => absurd h₁.timer ht,
          h₁.timer.le.trans (Nat.zero_le 1)⟩

theorem Clear.rwInterrupt {io : Io} (h : Clear s) (hs : rwInterrupt floppy_type s io = some s') :
    Busy s' := by
  obtain ⟨s₁, hended, rfl⟩ := Option.map_eq_some_iff.mp hs
  refine Clear.doFdRequest ?_ _
  split at hended
  · split at hended
    · exact (h.result io).endRequest hended
    · exact (h.result io).badFlpIntr hended
  · exact (h.result io).endRequest hended

theorem Clear.seekInterrupt {io : Io} (h : Clear s)
    (hs : seekInterrupt floppy_type s io = some s') : Busy s' := by
  have h₁ := (h.output io.first).result io
  unfold Floppy.seekInterrupt at hs
  dsimp only at hs
  split at hs
  · obtain ⟨s₂, hbad, rfl⟩ := Option.map_eq_some_iff.mp hs
    exact (h₁.badFlpIntr hbad).doFdRequest _
  · refine Clear.setupRwFloppy ?_ hs
    exact ⟨h₁.toNamed.follow ⟨List.suffix_refl _, rfl⟩, h₁.command, h₁.timer⟩

theorem Clear.recalInterrupt (h : Clear s) (io : Io) : Busy (recalInterrupt floppy_type s io) := by
  have h₁ := (h.output io.first).result io
  refine Clear.doFdRequest ?_ _
  split <;> exact ⟨h₁.toNamed.follow ⟨List.suffix_refl _, rfl⟩, h₁.command, h₁.timer⟩

theorem Clear.resetInterrupt (h : Clear s) (io : Io) : Busy (resetInterrupt floppy_type s io) :=
  (((h.output io.first).result io).output io.second).doFdRequest _

/-! ## Runs -/

/-- Without a timer the driver waits for its command only. -/
theorem Busy.taken (h : Busy s) (ht : s.on + s.transfers = 0) :
    Clear { s with do_floppy := none } :=
  ⟨h.toNamed.follow ⟨List.suffix_refl _, rfl⟩, rfl, ht⟩

theorem Busy.no_timer {intr : Intr} (h : Busy s) (hdo : s.do_floppy = some intr) :
    s.on + s.transfers = 0 := by
  refine Classical.byContradiction fun ht => ?_
  rw [(h.timer ht).2] at hdo
  cases hdo

theorem unexpectedFloppyInterrupt_spec (s : Fd n) (io : Io) :
    ∃ reset recalibrate, unexpectedFloppyInterrupt s io =
      { s with reset := reset, recalibrate := recalibrate } := by
  unfold unexpectedFloppyInterrupt
  have hresult : ∃ reset, (result (output s io.first) io).1 = { s with reset := reset } := by
    unfold result
    split
    · exact ⟨_, rfl⟩
    · split <;> exact ⟨_, rfl⟩
  obtain ⟨reset, hreset⟩ := hresult
  dsimp only
  rw [hreset]
  split <;> exact ⟨_, _, rfl⟩

theorem Busy.floppyInterrupt {io : Io} (h : Busy s)
    (hs : floppyInterrupt floppy_type s io = some s') : Busy s' := by
  unfold Floppy.floppyInterrupt at hs
  split at hs
  · obtain rfl := Option.some.inj hs
    obtain ⟨reset, recalibrate, heq⟩ := unexpectedFloppyInterrupt_spec s io
    rw [heq]
    exact ⟨h.toNamed.follow ⟨List.suffix_refl _, rfl⟩, h.command, h.timer, h.one⟩
  · rename_i hdo
    exact (h.taken (h.no_timer hdo)).rwInterrupt hs
  · rename_i hdo
    exact (h.taken (h.no_timer hdo)).seekInterrupt hs
  · rename_i hdo
    obtain rfl := Option.some.inj hs
    exact (h.taken (h.no_timer hdo)).recalInterrupt io
  · rename_i hdo
    obtain rfl := Option.some.inj hs
    exact (h.taken (h.no_timer hdo)).resetInterrupt io

theorem Busy.step {a : Act n} (h : Busy s) (hidle : Idle s a)
    (hs : step floppy_type s a = some s') : Busy s' := by
  cases a with
  | makeRequest slot dev cmd b_blocknr bh taken =>
      obtain rfl := Option.some.inj hs
      unfold addRequest
      split
      · rename_i hcur
        obtain ⟨hdo, hon, htransfers⟩ := hidle hcur
        have hclear : Clear { s with
            current_request := [fill s.count slot dev cmd b_blocknr bh], count := s.count + 1 } := by
          refine ⟨⟨List.nodup_singleton _, fun id hid => ?_⟩, hdo, ?_⟩
          · obtain rfl := List.mem_singleton.mp hid
            exact Nat.lt_succ_self _
          · show s.on + s.transfers = 0
            rw [hon, htransfers]
        exact hclear.doFdRequest _
      · rename_i tmp rest hcur
        have hids : (s.current_request.map FdRequest.id) = (tmp :: rest).map FdRequest.id := by
          rw [hcur]
        have hperm := (Elevator.insert_perm (fun r : FdRequest n => Queue.key r.toRequest)
          (fill s.count slot dev cmd b_blocknr bh) (tmp :: rest)).map FdRequest.id
        obtain ⟨l, hl⟩ := Elevator.insert_cons (fun r : FdRequest n => Queue.key r.toRequest)
          (fill s.count slot dev cmd b_blocknr bh) tmp rest
        have hne : Elevator.insert (fun r : FdRequest n => Queue.key r.toRequest)
            (fill s.count slot dev cmd b_blocknr bh) (tmp :: rest) ≠ [] := by
          rw [hl]
          exact List.cons_ne_nil _ _
        refine ⟨⟨?_, ?_⟩, fun _ => hne, fun ht => ⟨hne, (h.timer ht).2⟩, h.one⟩
        · refine hperm.nodup_iff.mpr (List.nodup_cons.mpr ⟨fun hmem => ?_, hids ▸ h.ids⟩)
          exact absurd (h.made _ (hids ▸ hmem)) (Nat.lt_irrefl _)
        · intro id hid
          show id < s.count + 1
          rcases List.mem_cons.mp (hperm.subset hid) with heq | hmem
          · exact heq ▸ Nat.lt_succ_self _
          · exact Nat.lt_succ_of_lt (h.made id (hids ▸ hmem))
  | interrupt io => exact h.floppyInterrupt hs
  | floppyOn io selected =>
      obtain ⟨hon, hs⟩ := Option.ite_none_left_eq_some.mp hs
      obtain ⟨hne, hdo⟩ := h.timer (by omega)
      have hone := h.one
      unfold floppyOnInterrupt at hs
      split at hs
      · have hclear : Clear { s with on := s.on - 1 } := by
          refine ⟨h.toNamed.follow ⟨List.suffix_refl _, rfl⟩, hdo, ?_⟩
          show s.on - 1 + s.transfers = 0
          omega
        exact hclear.transfer hne hs
      · obtain rfl := Option.some.inj hs
        refine ⟨h.toNamed.follow ⟨List.suffix_refl _, rfl⟩, fun _ => hne, fun _ => ⟨hne, hdo⟩, ?_⟩
        show s.on - 1 + (s.transfers + 1) ≤ 1
        omega
  | transfer io =>
      obtain ⟨htransfers, hs⟩ := Option.ite_none_left_eq_some.mp hs
      obtain ⟨hne, hdo⟩ := h.timer (by omega)
      have hone := h.one
      have hclear : Clear { s with transfers := s.transfers - 1 } := by
        refine ⟨h.toNamed.follow ⟨List.suffix_refl _, rfl⟩, hdo, ?_⟩
        show s.on + (s.transfers - 1) = 0
        omega
      exact hclear.transfer hne hs

/-- The driver calls the handler for the command of a request. -/
theorem Busy.entered {a : Act n} (h : Busy s) (ha : entered s a = some s') :
    s'.current_request = s.current_request ∧ s.current_request ≠ [] := by
  have hresult : ∀ (t : Fd n) (io : Io), (result t io).1.current_request = t.current_request := by
    intro t io
    unfold result
    split
    · rfl
    · split <;> rfl
  cases a with
  | interrupt io =>
      unfold Floppy.entered at ha
      dsimp only at ha
      split at ha
      · rename_i hdo
        obtain ⟨-, ha⟩ := Option.ite_none_right_eq_some.mp ha
        obtain rfl := Option.some.inj ha
        exact ⟨hresult _ io, h.command (.inl hdo)⟩
      · rename_i hdo
        obtain ⟨-, ha⟩ := Option.ite_none_right_eq_some.mp ha
        obtain rfl := Option.some.inj ha
        exact ⟨hresult _ io, h.command (.inr hdo)⟩
      · cases ha
  | makeRequest | floppyOn | transfer => cases ha

theorem busy_boot (floppy : FloppyStruct) : Busy (boot floppy : Fd n) :=
  ⟨⟨.nil, nofun⟩, fun h => h.elim nofun nofun, fun h => absurd rfl h, Nat.zero_le 1⟩

/-- In a run in which no request meets a command that has none each call of the handler is about
a request of its own, as long as this error is not a last one. -/
theorem testsOwn_run {floppy : FloppyStruct} (h : Reach (step floppy_type) Idle (boot floppy) s)
    {a : Act n} (ha : entered s a = some s') : TestsOwn s' ↔ Spare s a := by
  have hbusy : Busy s := h.invariant (I := Busy) (busy_boot floppy)
    fun _ _ _ hb hidle hs => hb.step hidle hs
  obtain ⟨hcur, hne⟩ := hbusy.entered ha
  obtain ⟨r, rest, hs⟩ := List.exists_cons_of_ne_nil hne
  have hids : (s'.current_request.map FdRequest.id).Nodup := by
    rw [hcur]
    exact hbusy.ids
  rw [testsOwn_iff (hcur.trans hs) hids]
  constructor
  · intro hle _ r' hr'
    rw [hs] at hr'
    obtain rfl := Option.some.inj hr'
    exact hle
  · exact fun hspare => hspare (by rw [ha]; rfl) r (by rw [hs]; rfl)

end Floppy

end Linux011
