import Linux011.SemUnlink

/-!
# Removed semaphores

A handle whose slot was removed by the last `sys_sem_unlink` reads 0 from the slot, which
is what every free slot holds. `sys_sem_post` and `sys_sem_wait` look for the first slot
with the number they read, so they always find one, the first free slot of the table, and
work on it (`removed_handle`).

The hypotheses name one unlink that removes the slot and a run behind it in which the slot is not
filled again. What is to be followed through this run is one field of one slot: the `sem` of slot
`k` is 0 (`sem_step`), since only `sys_sem_open` writes a number there. A call on the handle
reads this 0 and searches for it, so that it comes to the first slot of the table with a 0, which
is a free one at or in front of `k` (`cursem_free`), and goes on to work on it as on any other.
Nothing in the two calls can tell the handle of a removed semaphore from one that was never made;
so the statement is a refutation for every input, together with what the calls do instead.
-/

namespace Linux011

open Function Runs

namespace SemRemoved

open SemUnlink

variable {T : Type} {a : SemArray T} {k : Nat}

/-- The return value of `sys_sem_post`. -/
def semPostReturn (a : SemArray T) (h : Option Nat) : Int :=
  match h.bind (cursem a) with
  | none => -1
  | some _ => 0

/-- The return value of `sys_sem_wait`, `none` when the task has to sleep. -/
def semWaitReturn (a : SemArray T) (h : Option Nat) : Option Int :=
  match h.bind (cursem a) with
  | none => some (-1)
  | some k => if 0 ≥ (a k).value then none else some 0

variable [DecidableEq T]

/-- `sys_sem_post` fails and leaves the table as it was. -/
def PostFails (s : SemState T) (t : T) (k : Nat) : Prop :=
  semPostReturn s.semarray (some k) = -1 ∧ (s.sysSemPost t (some k)).semarray = s.semarray

/-- `sys_sem_wait` fails without sleeping and leaves the table as it was. -/
def WaitFails (initTask : T) (s : SemState T) (t : T) (k : Nat) : Prop :=
  semWaitReturn s.semarray (some k) = some (-1) ∧
    (s.sysSemWait initTask t (some k)).map SemState.semarray = some s.semarray

/-- The slot is not filled again. -/
def NotReused (k : Nat) (s : SemState T) : SemUnlink.Act T → Prop
  | .semOpen _ name oflag _ => createdSlot s.semarray name oflag ≠ some k
  | _ => True

instance (k : Nat) (s : SemState T) : ∀ a, Decidable (NotReused k s a)
  | .semOpen _ name oflag _ =>
      inferInstanceAs (Decidable (createdSlot s.semarray name oflag ≠ some k))
  | .sem _ => isTrue trivial
  | .semUnlink .. => isTrue trivial

/-! ## The number in a slot -/

omit [DecidableEq T] in
/-- A store keeps the 0 of a slot when it goes elsewhere or stores 0. -/
theorem sem_update (h : (a k).sem = 0) {i : Nat} {x : StructSem T} (hx : k = i → x.sem = 0) :
    (update a i x k).sem = 0 := by
  rcases eq_or_ne k i with rfl | hki
  · rw [update_self]
    exact hx rfl
  · rw [update_of_ne hki]
    exact h

omit [DecidableEq T] in
theorem sysSemUnlink_freed {name : Option (Nat → UInt8)} (h : freedSlot a name = some k) :
    ((sysSemUnlink a name).2 k).sem = 0 := by
  cases name with
  | none => cases h
  | some name =>
      obtain ⟨hfind, hcont⟩ := Option.filter_eq_some_iff.mp h
      have hzero : (a k).cont - 1 = 0 := by simpa using hcont
      simp only [sysSemUnlink, hfind, if_pos hzero, update_self]

omit [DecidableEq T] in
theorem sysSemUnlink_sem {name : Option (Nat → UInt8)} (h : (a k).sem = 0) :
    ((sysSemUnlink a name).2 k).sem = 0 := by
  unfold sysSemUnlink
  split
  · exact h
  · split
    · exact h
    · dsimp only
      split
      · exact sem_update h fun _ => rfl
      · exact sem_update h fun e => e ▸ h

omit [DecidableEq T] in
theorem sysSemOpen_sem {name : Option (Nat → UInt8)} {oflag : Nat} {value : BitVec 32}
    (h : (a k).sem = 0) (hnot : createdSlot a name oflag ≠ some k) :
    ((sysSemOpen a name oflag value).2 k).sem = 0 := by
  unfold sysSemOpen
  split
  · exact h
  · rename_i name
    dsimp only
    split
    · rename_i hname
      split
      · rename_i hflag
        split
        · rename_i i hi
          refine sem_update h fun e => absurd ?_ hnot
          simp only [createdSlot, Option.bind_some, hname, if_pos hflag]
          exact e ▸ hi
        · exact h
      · exact h
    · split
      · exact h
      · exact sem_update h fun e => e ▸ h

variable {s s' : SemState T} {initTask t : T}

theorem tryWait_sem {i : Nat} (h : (s.semarray k).sem = 0)
    (hs : s.tryWait initTask i t = some s') : (s'.semarray k).sem = 0 := by
  unfold SemState.tryWait at hs
  split at hs
  · obtain ⟨q, -, rfl⟩ := Option.map_eq_some_iff.mp hs
    exact sem_update h fun e => e ▸ h
  · obtain rfl := Option.some.inj hs
    exact sem_update h fun e => e ▸ h

theorem sysSemPost_sem {h' : Option Nat} (h : (s.semarray k).sem = 0) :
    ((s.sysSemPost t h').semarray k).sem = 0 := by
  unfold SemState.sysSemPost
  split
  · exact h
  · rename_i i _
    have hcount : ((s.countPost i).semarray k).sem = 0 := sem_update h fun e => e ▸ h
    exact sem_update hcount fun e => e ▸ hcount

theorem sem_step {b : SemUnlink.Act T} (h : (s.semarray k).sem = 0) (hnot : NotReused k s b)
    (hs : SemUnlink.step initTask s b = some s') : (s'.semarray k).sem = 0 := by
  cases b with
  | sem b =>
      cases b with
      | wait t h' =>
          obtain ⟨-, hs⟩ := Option.ite_none_right_eq_some.mp hs
          unfold SemState.sysSemWait at hs
          split at hs
          · obtain rfl := Option.some.inj hs
            exact h
          · exact tryWait_sem h hs
      | post t h' =>
          obtain ⟨-, hs⟩ := Option.ite_none_right_eq_some.mp hs
          obtain rfl := Option.some.inj hs
          exact sysSemPost_sem h
      | resume t =>
          simp only [SemUnlink.step, SemState.step] at hs
          split at hs
          · cases hs
          · split at hs
            · exact tryWait_sem (sem_update h fun e => e ▸ h) hs
            · cases hs
  | semOpen t name oflag value =>
      obtain ⟨-, hs⟩ := Option.ite_none_right_eq_some.mp hs
      obtain rfl := Option.some.inj hs
      exact sysSemOpen_sem h hnot
  | semUnlink t name =>
      obtain ⟨-, hs⟩ := Option.ite_none_right_eq_some.mp hs
      obtain rfl := Option.some.inj hs
      exact sysSemUnlink_sem h

/-! ## Calls on a removed handle -/

omit [DecidableEq T] in
theorem freedSlot_lt {name : Option (Nat → UInt8)} (h : freedSlot a name = some k) :
    k < SEM_NUM := by
  cases name with
  | none => cases h
  | some name => exact findSlot_lt (Option.filter_eq_some_iff.mp h).1

omit [DecidableEq T] in
/-- The handle of a free slot designates the first free slot. -/
theorem cursem_free (hk : k < SEM_NUM) (h : (a k).sem = 0) :
    ∃ i ≤ k, cursem a k = some i ∧ (a i).sem = 0 ∧ ∀ j < i, (a j).sem ≠ 0 := by
  have hsome : (cursem a k).isSome := by
    rw [cursem, findSlot, List.find?_isSome]
    exact ⟨k, List.mem_range.mpr hk, beq_self_eq_true _⟩
  obtain ⟨i, hi⟩ := Option.isSome_iff_exists.mp hsome
  obtain ⟨hsem, -, hbefore⟩ := List.find?_range_eq_some.mp hi
  rw [h, beq_iff_eq] at hsem
  have hfirst : ∀ j < i, (a j).sem ≠ 0 := fun j hj hzero => by
    have := hbefore j hj
    simp [h, hzero] at this
  refine ⟨i, ?_, hi, hsem.symm, hfirst⟩
  by_contra hik
  exact hfirst k (Nat.lt_of_not_le hik) h

/-- **Removed semaphores.** From any state in which an unlink removes slot `k` on, as long
as the slot is not filled again, neither call on the handle fails: `sys_sem_post` returns 0
and counts the first free slot up, and `sys_sem_wait` takes one from that slot or sleeps
there. -/
theorem removed_handle {s₀ s₁ : SemState T} {u : T} {name : Option (Nat → UInt8)}
    (hfreed : freedSlot s₀.semarray name = some k)
    (hunlink : SemUnlink.step initTask s₀ (.semUnlink u name) = some s₁)
    (hrun : Reach (SemUnlink.step initTask) (NotReused k) s₁ s) (t : T) :
    ¬PostFails s t k ∧ ¬WaitFails initTask s t k ∧
      ∃ i ≤ k, (s.semarray i).sem = 0 ∧ (∀ j < i, (s.semarray j).sem ≠ 0) ∧
        semPostReturn s.semarray (some k) = 0 ∧
        ((s.sysSemPost t (some k)).semarray i).value = (s.semarray i).value + 1 ∧
        semWaitReturn s.semarray (some k)
          = if 0 ≥ (s.semarray i).value then none else some 0 := by
  obtain ⟨-, hunlink⟩ := Option.ite_none_right_eq_some.mp hunlink
  obtain rfl := Option.some.inj hunlink
  have hzero : (s.semarray k).sem = 0 :=
    hrun.invariant (I := fun s => (s.semarray k).sem = 0) (sysSemUnlink_freed hfreed)
      fun _ _ _ h hnot hs => sem_step h hnot hs
  obtain ⟨i, hik, hi, hsem, hfirst⟩ := cursem_free (freedSlot_lt hfreed) hzero
  have hpost : semPostReturn s.semarray (some k) = 0 := by simp [semPostReturn, hi]
  have hwait : semWaitReturn s.semarray (some k) =
      if 0 ≥ (s.semarray i).value then none else some 0 := by simp [semWaitReturn, hi]
  refine ⟨fun h => ?_, fun h => ?_, i, hik, hsem, hfirst, hpost, ?_, hwait⟩
  · have := hpost.symm.trans h.1
    omega
  · have := hwait.symm.trans h.1
    split at this <;> simp at this
  · simp [SemState.sysSemPost, hi, SemState.withQueue, SemState.countPost]

/-- The name "m" is created, with the value 0. -/
def opened : SemState Nat :=
  SemState.start (sysSemOpen (sysInisem semarrayBoot) nameM O_CREAT 0).2 fun _ => .running

/-- The state after the name was removed. -/
def removed : SemState Nat :=
  { opened with semarray := (sysSemUnlink opened.semarray nameM).2 }

theorem removed_handle_removed : ¬PostFails removed 2 0 ∧ ¬WaitFails 0 removed 2 0 := by
  have hfreed : freedSlot opened.semarray nameM = some 0 := by decide
  have hunlink : SemUnlink.step 0 opened (.semUnlink 1 nameM) = some removed := rfl
  have hfails := removed_handle hfreed hunlink .start 2
  exact ⟨hfails.1, hfails.2.1⟩

/-- After the removal `sys_sem_post` returns 0 and counts. -/
theorem not_removed_handle :
    SemUnlink.step 0 opened (.semUnlink 1 nameM) = some removed ∧
      freedSlot opened.semarray nameM = some 0 ∧ semPostReturn removed.semarray (some 0) = 0 ∧
      ((removed.sysSemPost 2 (some 0)).semarray 0).value ≠ (removed.semarray 0).value :=
  ⟨rfl, by decide, by decide, by decide⟩

end SemRemoved

end Linux011
