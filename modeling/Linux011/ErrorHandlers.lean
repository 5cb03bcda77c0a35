import Linux011.BadFlpIntr
import Linux011.BadRwIntr

/-!
# The error handlers of the two block drivers

`bad_rw_intr` and `bad_flp_intr` in runs of their drivers.

Both handlers count the error of the request at the head of the queue, end the
request if that was one too many, and then look at the errors again, of whatever
is at the head by then. The modules on the two drivers say for each of them in
which runs this is the same request. The conditions differ because the hard disk
never waits for anything without a request, while the floppy disk may have a
recalibration or a reset on its way when a request comes; so they are put side
by side here and not made one.
-/

namespace Linux011

open Runs

namespace ErrorHandlers

/-- For both drivers: in a run without a last error, and for the floppy disk without a
request that finds a command but no other request, each call of the handler tests the
errors of the request that has failed just when the error is not a last one. -/
theorem handlers_test_own {n : Nat} :
    (∀ (d : HardDisk.Disks) (s : HardDisk.Hd n) (a : HardDisk.Act n),
      Reach (HardDisk.step d) HardDisk.Spare HardDisk.boot s → HardDisk.Calls s a →
      (HardDisk.TestsOwn (HardDisk.entered s a) ↔ HardDisk.Spare s a)) ∧
    ∀ (floppy_type : Nat → Floppy.FloppyStruct) (floppy : Floppy.FloppyStruct)
      (s s' : Floppy.Fd n) (a : Floppy.Act n),
      Reach (Floppy.step floppy_type) Floppy.Idle (Floppy.boot floppy) s →
      Floppy.entered s a = some s' → (Floppy.TestsOwn s' ↔ Floppy.Spare s a) :=
  ⟨fun _ _ _ h ha => HardDisk.testsOwn_run h ha, fun _ _ _ _ _ h ha => Floppy.testsOwn_run h ha⟩

/-- A disk of 18 sectors a track. -/
def disk : Floppy.FloppyStruct := ⟨2880, 18, 2, 0, 0xcf⟩

/-- The controller takes every byte and answers with two bytes. -/
def two : Floppy.Io := ⟨true, true, true, some 2, 0, 0, 0⟩

/-- To read a block of the second floppy disk. -/
def ask (b_blocknr : UInt32) : Floppy.Act 1 :=
  .makeRequest 0 0x021d .read b_blocknr ⟨0, Nat.zero_lt_one⟩ true

/-- An interrupt for each command of a transfer, with an error in the last one. -/
def again : List (Floppy.Act 1) := [.interrupt two, .floppyOn two true, .interrupt two]

/-- The first error of a request of each driver. -/
theorem handlers_test_own_first :
    (∃ s : HardDisk.Hd 1, exec (checked (HardDisk.step HardDisk.oneDisk) HardDisk.Spare)
      HardDisk.boot [HardDisk.ask 0x0301 .read 0] = some s ∧
      HardDisk.TestsOwn (HardDisk.entered s (.interrupt false))) ∧
    ∃ s s' : Floppy.Fd 1, exec (checked (Floppy.step fun _ => disk) Floppy.Idle)
      (Floppy.boot disk) [ask 0, .floppyOn two true] = some s ∧
      Floppy.entered s (.interrupt two) = some s' ∧ Floppy.TestsOwn s' := by
  constructor
  · obtain ⟨s, hs, hcalls, hspare⟩ : ∃ s : HardDisk.Hd 1,
        exec (checked (HardDisk.step HardDisk.oneDisk) HardDisk.Spare)
          HardDisk.boot [HardDisk.ask 0x0301 .read 0] = some s ∧
        HardDisk.Calls s (.interrupt false) ∧ HardDisk.Spare s (.interrupt false) :=
      exec_any (by decide +kernel)
    exact ⟨s, hs, (handlers_test_own.1 _ s _ (exec_checked hs) hcalls).mpr hspare⟩
  · obtain ⟨s, hs, hentered, hspare⟩ : ∃ s : Floppy.Fd 1,
        exec (checked (Floppy.step fun _ => disk) Floppy.Idle)
          (Floppy.boot disk) [ask 0, .floppyOn two true] = some s ∧
        (Floppy.entered s (.interrupt two)).isSome = true ∧ Floppy.Spare s (.interrupt two) :=
      exec_any (by decide +kernel)
    obtain ⟨s', hs'⟩ := Option.isSome_iff_exists.mp hentered
    exact ⟨s, s', hs, hs', (handlers_test_own.2 _ _ s s' _ (exec_checked hs) hs').mpr hspare⟩

/-- The seventh error of a request of the hard disk and the ninth one of a request of a floppy
disk, with no other request and with one behind it. -/
theorem not_handlers_test_own :
    (∀ behind ∈ [[], [HardDisk.ask 0x0301 .read 1]],
      ∃ s : HardDisk.Hd 1, exec (HardDisk.step HardDisk.oneDisk) HardDisk.boot
        (HardDisk.ask 0x0301 .read 0 :: behind ++ List.replicate 6 (.interrupt false)) = some s ∧
        HardDisk.Calls s (.interrupt false) ∧
        ¬HardDisk.TestsOwn (HardDisk.entered s (.interrupt false))) ∧
    ∀ behind ∈ [[], [ask 1]],
      ∃ s : Floppy.Fd 1, exec (Floppy.step fun _ => disk) (Floppy.boot disk)
        (ask 0 :: behind ++ [.floppyOn two true, .interrupt two] ++
          (List.replicate 3 again).flatten ++
          (List.replicate 4 (again ++ [.interrupt two])).flatten ++
          [.interrupt two, .floppyOn two true]) = some s ∧
        ∃ s' ∈ Floppy.entered s (.interrupt two), ¬Floppy.TestsOwn s' := by
  constructor
  · refine List.forall_mem_cons.mpr ⟨?_, List.forall_mem_singleton.mpr ?_⟩
    · exact exec_any (by decide +kernel)
    · exact exec_any (by decide +kernel)
  · refine List.forall_mem_cons.mpr ⟨?_, List.forall_mem_singleton.mpr ?_⟩
    · exact exec_any (by decide +kernel)
    · exact exec_any (by decide +kernel)

end ErrorHandlers

end Linux011
