import Mathlib.Tactic.Common

/-!
# System call dispatch

`system_call` of `kernel/system_call.s` with the table of `include/linux/sys.h` and the numbers
of `include/unistd.h`. The bound is meant to be the variable `nr_system_calls`, to which `main`
assigns `__NR_END`; but `cmpl $nr_system_calls-1,%eax` compares with the address of the variable.
Every number between the length of the table and that address is called through a word behind the
table (`dispatches_iff`).

There is no run here, only one call with any number in `eax`. What the linker decides is a
parameter: `Image` has the address of the variable and of the table and the words of the memory,
and `Linked` what holds for every kernel that is linked from these sources, namely that the
variable lies above the page tables, holds `__NR_END` after `main`, and that the words of the
table are the addresses of the routines in the order of `sys.h`. The table itself is written
down, so that the number of each call can be compared with `unistd.h`. The comparison is of
unsigned words, with the address less one (`above_iff`), and the theorem splits on whether the
number is in the table.
-/

namespace Linux011

/-- The system calls, in the order of `sys_call_table`. -/
inductive SysCall where
  | setup | exit | fork | read | write | open | close | waitpid | creat | link
  | unlink | execve | chdir | time | mknod | chmod | chown | break | stat | lseek
  | getpid | mount | umount | setuid | getuid | stime | ptrace | alarm | fstat | pause
  | utime | stty | gtty | access | nice | ftime | sync | kill | rename | mkdir
  | rmdir | dup | pipe | times | prof | brk | setgid | getgid | signal | geteuid
  | getegid | acct | phys | lock | ioctl | fcntl | mpx | setpgid | ulimit | uname
  | umask | chroot | ustat | dup2 | getppid | getpgrp | setsid | sigaction | sgetmask | ssetmask
  | setreuid | setregid | semOpen | semWait | semPost | semUnlink | ftok | shmget | shmat | shmdt
deriving Repr, DecidableEq

namespace SysCall

/-- `__NR_END` -/
def NR_END : Nat := 80

def sysCallTable : List SysCall := [
  setup, exit, fork, read, write, «open», close, waitpid, creat, link,
  unlink, execve, chdir, time, mknod, chmod, chown, «break», stat, lseek,
  getpid, mount, umount, setuid, getuid, stime, ptrace, alarm, fstat, pause,
  utime, stty, gtty, access, nice, ftime, sync, kill, rename, mkdir,
  rmdir, dup, pipe, times, prof, brk, setgid, getgid, signal, geteuid,
  getegid, acct, phys, lock, ioctl, fcntl, mpx, setpgid, ulimit, uname,
  umask, chroot, ustat, dup2, getppid, getpgrp, setsid, sigaction, sgetmask, ssetmask,
  setreuid, setregid, semOpen, semWait, semPost, semUnlink, ftok, shmget, shmat, shmdt]

/-- `__NR_setup` .. `__NR_shmdt` -/
def nr : SysCall → Nat
  | setup => 0 | exit => 1 | fork => 2 | read => 3 | write => 4
  | «open» => 5 | close => 6 | waitpid => 7 | creat => 8 | link => 9
  | unlink => 10 | execve => 11 | chdir => 12 | time => 13 | mknod => 14
  | chmod => 15 | chown => 16 | «break» => 17 | stat => 18 | lseek => 19
  | getpid => 20 | mount => 21 | umount => 22 | setuid => 23 | getuid => 24
  | stime => 25 | ptrace => 26 | alarm => 27 | fstat => 28 | pause => 29
  | utime => 30 | stty => 31 | gtty => 32 | access => 33 | nice => 34
  | ftime => 35 | sync => 36 | kill => 37 | rename => 38 | mkdir => 39
  | rmdir => 40 | dup => 41 | pipe => 42 | times => 43 | prof => 44
  | brk => 45 | setgid => 46 | getgid => 47 | signal => 48 | geteuid => 49
  | getegid => 50 | acct => 51 | phys => 52 | lock => 53 | ioctl => 54
  | fcntl => 55 | mpx => 56 | setpgid => 57 | ulimit => 58 | uname => 59
  | umask => 60 | chroot => 61 | ustat => 62 | dup2 => 63 | getppid => 64
  | getpgrp => 65 | setsid => 66 | sigaction => 67 | sgetmask => 68 | ssetmask => 69
  | setreuid => 70 | setregid => 71 | semOpen => 72 | semWait => 73 | semPost => 74
  | semUnlink => 75 | ftok => 76 | shmget => 77 | shmat => 78 | shmdt => 79

/-- The kernel image: where the linker put the variable `nr_system_calls` and the table,
and the words of the memory after `main` has run. -/
structure Image where
  nrSystemCalls : BitVec 32
  sysCallTable : BitVec 32
  load : BitVec 32 → BitVec 32

/-- What `system_call` does with the number in `eax`. -/
inductive Outcome where
  /-- `bad_sys_call`: back to the user with this `eax` -/
  | badSysCall (eax : BitVec 32)
  /-- the indirect call, of this address -/
  | call (address : BitVec 32)
deriving DecidableEq

/-- The assembler puts the address of `nr_system_calls` into the comparison. -/
def systemCall (k : Image) (eax : BitVec 32) : Outcome :=
  if k.nrSystemCalls - 1 < eax then .badSysCall (-1)
  else .call (k.load (k.sysCallTable + eax * 4))

/-- The variable holds `__NR_END` and lies above the page tables, and the words of the
table are the addresses of the routines. -/
structure Linked (k : Image) (routine : SysCall → BitVec 32) : Prop where
  above : 0x5000 ≤ k.nrSystemCalls.toNat
  nr : k.load k.nrSystemCalls = BitVec.ofNat 32 NR_END
  table : ∀ c, k.load (k.sysCallTable + BitVec.ofNat 32 c.nr * 4) = routine c

/-- A number in the table calls its routine, and every other one is refused. -/
def Dispatches (k : Image) (routine : SysCall → BitVec 32) (eax : BitVec 32) : Prop :=
  match SysCall.sysCallTable[eax.toNat]? with
  | some c => systemCall k eax = .call (routine c)
  | none => systemCall k eax = .badSysCall (-1)

variable {k : Image} {routine : SysCall → BitVec 32} {eax : BitVec 32}

theorem nr_of_getElem? {n : Nat} {c : SysCall} (h : SysCall.sysCallTable[n]? = some c) :
    c.nr = n := by
  have hlt : n < 80 := by
    obtain ⟨hlt, -⟩ := List.getElem?_eq_some_iff.mp h
    exact hlt
  have hall : ∀ i < 80, (SysCall.sysCallTable[i]?.map nr) = some i := by decide
  have := hall n hlt
  rw [h] at this
  exact Option.some.inj this

/-- The comparison lets exactly the numbers below the address through. -/
theorem above_iff (hk : 0x5000 ≤ k.nrSystemCalls.toNat) :
    k.nrSystemCalls - 1 < eax ↔ k.nrSystemCalls.toNat ≤ eax.toNat := by
  have hlt := k.nrSystemCalls.isLt
  have h1 : (1 : BitVec 32).toNat = 1 := rfl
  rw [BitVec.lt_def, BitVec.toNat_sub, h1]
  omega

/-- **System call dispatch** does what the table says for the numbers in the table and
for those from the address of `nr_system_calls` on, as unsigned words, and for no
others: whatever the linker has done, a number between the two is called through a word
behind the table. -/
theorem dispatches_iff (hk : Linked k routine) (eax : BitVec 32) :
    Dispatches k routine eax ↔ eax.toNat < NR_END ∨ k.nrSystemCalls.toNat ≤ eax.toNat := by
  have habove : k.nrSystemCalls - 1 < eax ↔ k.nrSystemCalls.toNat ≤ eax.toNat :=
    above_iff hk.above
  have h5000 := hk.above
  have hend : NR_END = 80 := rfl
  unfold Dispatches
  cases hc : SysCall.sysCallTable[eax.toNat]? with
  | some c =>
      have hnr := nr_of_getElem? hc
      obtain ⟨hlt, -⟩ := List.getElem?_eq_some_iff.mp hc
      have hlt : eax.toNat < 80 := hlt
      have hword : BitVec.ofNat 32 c.nr = eax := by
        rw [hnr, BitVec.ofNat_toNat, BitVec.setWidth_eq]
      have hcall : systemCall k eax = .call (routine c) := by
        rw [systemCall, if_neg (by rw [habove]; omega), ← hk.table c, hword]
      exact iff_of_true hcall (Or.inl (by omega))
  | none =>
      have hge : 80 ≤ eax.toNat := List.getElem?_eq_none_iff.mp hc
      dsimp only
      constructor
      · intro h
        by_contra hnot
        rw [systemCall, if_neg (by rw [habove]; omega)] at h
        cases h
      · intro h
        rw [systemCall, if_pos (habove.mpr (by omega))]

/-- The variable at 0x8000 and the table at 0x9000, with routines at multiples of 16. -/
def image : Image where
  nrSystemCalls := 0x8000
  sysCallTable := 0x9000
  load a := if a = 0x8000 then BitVec.ofNat 32 NR_END else (a - 0x9000) * 4

def imageRoutine (c : SysCall) : BitVec 32 := BitVec.ofNat 32 c.nr * 16

theorem linked_image : Linked image imageRoutine :=
  ⟨by decide, by decide, fun c => by cases c <;> decide⟩

theorem dispatches_iff_image : Dispatches image imageRoutine 2 :=
  (dispatches_iff linked_image 2).mpr (Or.inl (by decide))

/-- The first number behind the table is called, although it names no routine. -/
theorem not_dispatches : Linked image imageRoutine ∧ ¬Dispatches image imageRoutine 80 := by
  refine ⟨linked_image, fun h => ?_⟩
  have hbad : systemCall image 80 = .badSysCall (-1) := h
  exact absurd hbad (by decide)

end SysCall

end Linux011
