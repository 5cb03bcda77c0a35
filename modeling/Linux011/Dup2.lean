import Linux011.FileTable

/-!
# One descriptor for another

`sys_dup2` of `fs/fcntl.c` from its call to its return, in a task that runs alone. It closes the
new descriptor before it looks at the old one: where the old one is not open, or is the new one
itself, the call fails and the new one is closed all the same (`dup2_all_or_nothing`).

The theorem is about one call and exact in both directions, so that the proof follows the
branches of the source with the descriptors that they find. Behind the close the new descriptor
is the first free one from itself on (`firstFd_self`), so that a `dupfd` of an open descriptor
gives just this one and the count that goes with it. Where the old descriptor is not open, or was
the one that has just been closed, `dupfd` fails behind the close, and the call leaves the table
as it was only if there was nothing to close. The hypothesis about the counts is what `FileTable`
proves of every state.
-/

namespace Linux011

open Function

namespace Files

/-- `sys_dup2`; `none` is the panic of `sys_close`. -/
def dup2 (ft : FileTable) (current : Task) (oldfd newfd : Nat) :
    Option (Int × FileTable × Task) :=
  (sys_dup2 ft current oldfd newfd).map fun r => dupfd r.1 (r.2.goto .user) oldfd newfd

/-- The descriptor refers to a file. -/
def Task.IsOpen (current : Task) (fd : Nat) : Prop :=
  ∃ h : fd < NR_OPEN, (current.filp ⟨fd, h⟩).isSome

/-- The descriptors, their `close_on_exec` bits and the counts are as they were. -/
structure Unchanged (ft : FileTable) (current : Task) (ft' : FileTable) (p : Task) : Prop where
  filp : p.filp = current.filp
  close_on_exec : p.close_on_exec = current.close_on_exec
  f_count : ∀ f, (ft' f).f_count = (ft f).f_count

/-- `newfd` refers to the file of `oldfd`, and no other descriptor has changed. -/
structure Duplicated (ft : FileTable) (current : Task) (oldfd newfd : Fd) (ft' : FileTable)
    (p : Task) : Prop where
  filp : p.filp = update current.filp newfd (current.filp oldfd)
  close_on_exec : ∀ fd, fd ≠ newfd → p.close_on_exec fd = current.close_on_exec fd
  same : oldfd = newfd → Unchanged ft current ft' p

/-- A call that returns, with everything done or nothing. -/
def AllOrNothing (ft : FileTable) (current : Task) (oldfd newfd : Nat) : Prop :=
  ∃ ret ft' p, dup2 ft current oldfd newfd = some (ret, ft', p) ∧
    (ret < 0 ∧ Unchanged ft current ft' p ∨
      ∃ (ho : oldfd < NR_OPEN) (hn : newfd < NR_OPEN), ret = newfd ∧
        Duplicated ft current ⟨oldfd, ho⟩ ⟨newfd, hn⟩ ft' p)

/-- The old descriptor is open and is not the new one, or there is nothing to close. -/
def Harmless (current : Task) (oldfd newfd : Nat) : Prop :=
  ∀ h : newfd < NR_OPEN, current.IsOpen oldfd ∧ oldfd ≠ newfd ∨
    ¬ current.IsOpen oldfd ∧ current.filp ⟨newfd, h⟩ = none ∧
      current.close_on_exec ⟨newfd, h⟩ = false

variable {ft : FileTable} {current : Task} {oldfd newfd : Nat}

/-- A descriptor that is free is the first free one from itself on. -/
theorem firstFd_self {fd : Fd} (h : current.filp fd = none) :
    firstFd current fd.val = some fd := by
  unfold firstFd
  rw [List.find?_eq_some_iff_getElem]
  refine ⟨by rw [h]; simp, fd.val, by simp, by simp, fun j hj => ?_⟩
  simp only [List.getElem_finRange, Fin.cast_mk, Bool.not_eq_true', Bool.and_eq_false_iff,
    decide_eq_false_iff_not]
  exact .inl (Nat.not_le_of_lt hj)

theorem dupfd_closed (h : ¬ current.IsOpen oldfd) :
    dupfd ft current oldfd newfd = (-EBADF, ft, current) := by
  unfold dupfd
  split
  · rename_i ho
    cases hfd : current.filp ⟨oldfd, ho⟩ with
    | none => rfl
    | some f => exact absurd ⟨ho, by rw [hfd]; rfl⟩ h
  · rfl

/-- `dupfd` with a free descriptor to duplicate to. -/
theorem dupfd_free {f : File} (ho : oldfd < NR_OPEN) (hn : newfd < NR_OPEN)
    (hold : current.filp ⟨oldfd, ho⟩ = some f) (hnew : current.filp ⟨newfd, hn⟩ = none) :
    dupfd ft current oldfd newfd = ((newfd : Int), ft.inc f,
      (current.setClose ⟨newfd, hn⟩ false).setFilp ⟨newfd, hn⟩ (some f)) := by
  have hfirst : firstFd current newfd = some ⟨newfd, hn⟩ := firstFd_self hnew
  unfold dupfd
  rw [dif_pos ho, hold]
  dsimp only
  rw [if_neg (Nat.not_le_of_lt hn), hfirst]

theorem dup2_outside (h : NR_OPEN ≤ newfd) : AllOrNothing ft current oldfd newfd := by
  have hclose : sys_close ft current newfd = some (-EINVAL, ft, current) :=
    dif_neg (Nat.not_lt_of_le h)
  unfold AllOrNothing dup2 sys_dup2
  rw [hclose]
  dsimp only [Option.map_some]
  unfold dupfd
  split
  · rename_i ho
    dsimp only [Task.goto]
    cases hfd : current.filp ⟨oldfd, ho⟩ with
    | none => exact ⟨_, _, _, rfl, .inl ⟨by decide, rfl, rfl, fun _ => rfl⟩⟩
    | some f => exact ⟨_, _, _, rfl, .inl ⟨by decide, rfl, rfl, fun _ => rfl⟩⟩
  · exact ⟨_, _, _, rfl, .inl ⟨by decide, rfl, rfl, fun _ => rfl⟩⟩

/-- What `sys_close` leaves: the descriptor is closed and its bit is clear. -/
theorem sys_close_leaves (hc : ∀ fd f, current.filp fd = some f → (ft f).f_count ≠ 0)
    (hn : newfd < NR_OPEN) : ∃ ret ft' p, sys_close ft current newfd = some (ret, ft', p) ∧
      p.filp = update current.filp ⟨newfd, hn⟩ none ∧
      p.close_on_exec = update current.close_on_exec ⟨newfd, hn⟩ false ∧
      (current.filp ⟨newfd, hn⟩ = none → ft' = ft) := by
  unfold sys_close
  rw [dif_pos hn]
  dsimp only [Task.setClose, Task.setFilp]
  cases hfd : current.filp ⟨newfd, hn⟩ with
  | none =>
      refine ⟨_, _, _, rfl, ?_, rfl, fun _ => rfl⟩
      dsimp only
      rw [← hfd, update_eq_self]
  | some f =>
      dsimp only
      rw [if_neg (hc _ f hfd)]
      exact ⟨_, _, _, rfl, rfl, rfl, nofun⟩

/-- In a table where every file that a descriptor refers to has a count, a call is all or nothing
exactly if the old descriptor is open and is not the new one, or the new one was closed already
and the old one is not open, or the new one is out of range. -/
theorem dup2_all_or_nothing (hc : ∀ fd f, current.filp fd = some f → (ft f).f_count ≠ 0) :
    AllOrNothing ft current oldfd newfd ↔ Harmless current oldfd newfd := by
  by_cases hn : newfd < NR_OPEN
  · obtain ⟨ret, ft', p, hclose, hfilp, hbits, hft⟩ := sys_close_leaves hc hn
    have hdup : dup2 ft current oldfd newfd
        = some (dupfd ft' ((p.goto (.dup2 oldfd newfd)).goto .user) oldfd newfd) := by
      rw [dup2, sys_dup2, hclose]
      rfl
    have hnew : ((p.goto (.dup2 oldfd newfd)).goto .user).filp ⟨newfd, hn⟩ = none := by
      rw [Task.goto_filp, Task.goto_filp, hfilp, update_self]
    by_cases hopen : current.IsOpen oldfd ∧ oldfd ≠ newfd
    · refine ⟨fun _ _ => .inl hopen, fun _ => ?_⟩
      obtain ⟨⟨ho, hsome⟩, hne⟩ := hopen
      obtain ⟨f, hold⟩ := Option.isSome_iff_exists.mp hsome
      have hold' : ((p.goto (.dup2 oldfd newfd)).goto .user).filp ⟨oldfd, ho⟩ = some f := by
        rw [Task.goto_filp, Task.goto_filp, hfilp, update_of_ne fun e => hne (Fin.mk.inj e), hold]
      rw [dupfd_free ho hn hold' hnew] at hdup
      refine ⟨_, _, _, hdup, .inr ⟨ho, hn, rfl, ?_, fun fd hfd => ?_, fun e => ?_⟩⟩
      · rw [Task.setFilp_filp, Task.setClose_filp, Task.goto_filp, Task.goto_filp, hfilp,
          update_idem, hold]
      · dsimp only [Task.setFilp, Task.setClose, Task.goto]
        rw [update_of_ne hfd, hbits, update_of_ne hfd]
      · exact absurd (Fin.mk.inj e) hne
    · have hclosed : ¬ ((p.goto (.dup2 oldfd newfd)).goto .user).IsOpen oldfd := by
        rintro ⟨ho, hsome⟩
        rw [Task.goto_filp, Task.goto_filp, hfilp] at hsome
        rcases eq_or_ne oldfd newfd with rfl | hne
        · rw [update_self] at hsome
          cases hsome
        · rw [update_of_ne fun e => hne (Fin.mk.inj e)] at hsome
          exact hopen ⟨⟨ho, hsome⟩, hne⟩
      rw [dupfd_closed hclosed] at hdup
      constructor
      · rintro ⟨ret', ft'', p', hcall, hcases⟩ h
        obtain ⟨rfl, rfl, rfl⟩ : ret' = -EBADF ∧ ft'' = ft' ∧
            p' = (p.goto (.dup2 oldfd newfd)).goto .user := by
          have hinj := Option.some.inj (hcall.symm.trans hdup)
          exact ⟨congrArg (fun r => r.1) hinj, congrArg (fun r => r.2.1) hinj,
            congrArg (fun r => r.2.2) hinj⟩
        obtain ⟨-, hsame⟩ | ⟨-, -, hret, -⟩ := hcases
        · have hnone : current.filp ⟨newfd, h⟩ = none := by
            rw [← hsame.filp]
            exact hnew
          refine .inr ⟨fun hold => ?_, hnone, ?_⟩
          · rcases eq_or_ne oldfd newfd with rfl | hne
            · obtain ⟨ho, hsome⟩ := hold
              rw [hnone] at hsome
              cases hsome
            · exact hopen ⟨hold, hne⟩
          · rw [← hsame.close_on_exec]
            dsimp only [Task.goto]
            rw [hbits, update_self]
        · have : (0 : Int) ≤ newfd := Int.natCast_nonneg newfd
          rw [← hret] at this
          exact absurd this (by decide)
      · intro h
        obtain hor | ⟨-, hnone, hbit⟩ := h hn
        · exact absurd hor hopen
        · refine ⟨_, _, _, hdup, .inl ⟨by decide, ?_, ?_, fun f => ?_⟩⟩
          · rw [Task.goto_filp, Task.goto_filp, hfilp, ← hnone, update_eq_self]
          · dsimp only [Task.goto]
            rw [hbits, ← hbit, update_eq_self]
          · rw [hft hnone]
  · exact ⟨fun _ h => absurd h hn, fun _ => dup2_outside (Nat.le_of_not_lt hn)⟩

/-! ## A task with one descriptor -/

section One

/-- File 0 has one user. -/
def oneFile : FileTable := fun f => { FileEntry.zero with f_count := if f = file0 then 1 else 0 }

def fd0 : Fd := ⟨0, Nat.zero_lt_succ 19⟩

/-- Descriptor 0 refers to file 0. -/
def oneOpen : Task where
  pc := .user
  filp fd := if fd = fd0 then some file0 else none
  close_on_exec _ := false

theorem oneOpen_counted : ∀ fd f, oneOpen.filp fd = some f → (oneFile f).f_count ≠ 0 := by
  intro fd f h
  dsimp only [oneOpen] at h
  split at h
  · obtain rfl := Option.some.inj h
    decide
  · cases h

theorem oneOpen_isOpen : oneOpen.IsOpen 0 := ⟨by decide, rfl⟩

theorem dup2_all_or_nothing_one : AllOrNothing oneFile oneOpen 0 1 :=
  (dup2_all_or_nothing oneOpen_counted).mpr fun _ => .inl ⟨oneOpen_isOpen, by decide⟩

/-- A call with an old descriptor that is not open fails, and closes descriptor 0. -/
theorem not_dup2_all_or_nothing :
    (∀ fd f, oneOpen.filp fd = some f → (oneFile f).f_count ≠ 0) ∧
      ¬ AllOrNothing oneFile oneOpen 5 0 := by
  refine ⟨oneOpen_counted, ?_⟩
  rintro ⟨ret, ft', p, hcall, hcases⟩
  have hcalled : (dup2 oneFile oneOpen 5 0).map (fun r => (r.1, r.2.2.filp fd0))
      = some (-EBADF, none) := by decide
  rw [hcall] at hcalled
  obtain ⟨hret, hfilp⟩ := Prod.mk.inj (Option.some.inj hcalled)
  obtain ⟨-, hsame⟩ | ⟨-, -, hnew, -⟩ := hcases
  · rw [hsame.filp] at hfilp
    cases hfilp
  · rw [show ret = -EBADF from hret] at hnew
    exact absurd hnew (by decide)

end One

end Files

end Linux011
