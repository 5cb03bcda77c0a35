import Linux011.PageEntry
import Mathlib.Data.List.FinRange
import Mathlib.Logic.Function.Basic

/-!
# Paged memory

`mm/memory.c` over the flat physical memory: page frames of 1024 words, the page
directory in frame 0 and the kernel's own page tables in the frames 1 to 4. The
kernel maps the physical memory one to one, so its accesses are accesses to
frames. Pages are named by their frame number.

The functions that can stop the machine answer in `Except Panic`.

The C loops over entries and over directory slots go over lists of slot numbers,
in the order in which the source visits them, so that what one round does can be
stated about one round and carried along the list. A linear address is split
into a directory slot and a table slot as the source computes them, by shifts
and masks. `mem_map` is a function on frames whose cells are stored through
`setCount`, which keeps the lower byte as the store into an unsigned char does;
that no count ever needs more than the lower byte is a result (`PageCounts`) and
not part of the model. What the functions do to entries is stated in
`PageTables`, and what they do to the counts in `PageLedger`.
-/

namespace Linux011

open Function

/-- The number of an entry in a page directory or a page table. -/
abbrev Slot := Fin 1024

/-- The frame at address `LOW_MEM`. -/
def LOW_MEM : Nat := 0x100

def PAGING_PAGES : Nat := 15 * 1024 * 1024 / 4096

def USED : Nat := 100

/-- `memMap` is indexed by frame: the cell of frame `p` is `mem_map[p - LOW_MEM]`,
that is `MAP_NR` of its address. `HIGH_MEMORY` is the frame behind the last one. -/
structure Mem where
  phys : Nat → Slot → Word
  memMap : Nat → Nat
  HIGH_MEMORY : Nat

inductive Panic where
  | tryingToFreeNonexistentPage
  | tryingToFreeFreePage
  | freePageTablesWrongAlignment
  | tryingToFreeUpSwapperMemorySpace
  | copyPageTablesWrongAlignment
  | copyPageTablesAlreadyExist
  | toPageAlreadyExists
deriving Repr, DecidableEq

namespace Mem

/-- The directory entry `d`. -/
def dir (m : Mem) (d : Slot) : Word := m.phys 0 d

/-- The page table that the directory entry `d` names. -/
def table (m : Mem) (d : Slot) : Nat := frame (m.dir d)

/-- Store a word of a frame. -/
def write (m : Mem) (page : Nat) (i : Slot) (e : Word) : Mem :=
  { m with phys := update m.phys page (update (m.phys page) i e) }

/-- Store a cell of `mem_map`, an unsigned char. -/
def setCount (m : Mem) (page n : Nat) : Mem :=
  { m with memMap := update m.memMap page (n % 256) }

end Mem

/-! ## Linear addresses -/

/-- `(address>>20) & 0xffc`, as the number of a directory entry. -/
def dirSlot (address : Nat) : Slot :=
  ⟨address / 0x400000 % 1024, Nat.mod_lt _ (by decide)⟩

/-- `(address>>12) & 0x3ff`, the number of a page table entry. -/
def tableSlot (address : Nat) : Slot :=
  ⟨address / 0x1000 % 1024, Nat.mod_lt _ (by decide)⟩

/-- The directory entries from the one of address `start` on that cover `size` bytes. -/
def dirSlots (start size : Nat) : List Slot :=
  (List.range ((size + 0x3fffff) % 2 ^ 32 / 0x400000)).map fun k =>
    dirSlot (start + k * 0x400000)

/-! ## Pages -/

/-- The last free frame below `LOW_MEM + n`. -/
def lastFree (m : Mem) : Nat → Option Nat
  | 0 => none
  | n + 1 => if m.memMap (LOW_MEM + n) = 0 then some (LOW_MEM + n) else lastFree m n

/-- `none` where the source returns 0; memory is then as before. -/
def getFreePage (m : Mem) : Option (Nat × Mem) :=
  (lastFree m PAGING_PAGES).map fun page =>
    (page, { m with
      phys := update m.phys page fun _ => 0
      memMap := update m.memMap page 1 })

def freePage (m : Mem) (page : Nat) : Except Panic Mem :=
  if page < LOW_MEM then .ok m
  else if m.HIGH_MEMORY ≤ page then .error .tryingToFreeNonexistentPage
  else if m.memMap page ≠ 0 then .ok (m.setCount page (m.memMap page - 1))
  else .error .tryingToFreeFreePage

/-! ## Page tables -/

/-- One round of the inner loop of `free_page_tables`. -/
def freeEntry (pgTable : Nat) (m : Mem) (nr : Slot) : Except Panic Mem := do
  let m ← if Present (m.phys pgTable nr) then freePage m (frame (m.phys pgTable nr)) else pure m
  pure (m.write pgTable nr 0)

/-- One round of the outer loop of `free_page_tables`. -/
def freeDir (m : Mem) (dir : Slot) : Except Panic Mem :=
  if Present (m.dir dir) then do
    let m ← (List.finRange 1024).foldlM (freeEntry (m.table dir)) m
    let m ← freePage m (m.table dir)
    pure (m.write 0 dir 0)
  else pure m

def freePageTables (m : Mem) (start size : Nat) : Except Panic Mem :=
  if start % 0x400000 ≠ 0 then .error .freePageTablesWrongAlignment
  else if start = 0 then .error .tryingToFreeUpSwapperMemorySpace
  else (dirSlots start size).foldlM freeDir m

/-- One round of the inner loop of `copy_page_tables`. -/
def copyEntry (fromPageTable toPageTable : Nat) (m : Mem) (nr : Slot) : Mem :=
  if Present (m.phys fromPageTable nr) then
    let thisPage := wrprotect (m.phys fromPageTable nr)
    let m := m.write toPageTable nr thisPage
    if 0x100000 < thisPage then
      let m := m.write fromPageTable nr thisPage
      m.setCount (frame thisPage) (m.memMap (frame thisPage) + 1)
    else m
  else m

/-- The entries that are copied: all of a page table, or the first 640 kB of the
kernel space. -/
def copiedEntries (start : Nat) : List Slot :=
  (List.finRange 1024).take (if start = 0 then 0xA0 else 1024)

/-- The outer loop of `copy_page_tables`, over pairs of directory entries. The result
is 0, or -1 when the memory was too small. -/
def copyDirs (entries : List Slot) : List (Slot × Slot) → Mem → Except Panic (Int × Mem)
  | [], m => .ok (0, m)
  | (fromDir, toDir) :: dirs, m =>
    if Present (m.dir toDir) then .error .copyPageTablesAlreadyExist
    else if Present (m.dir fromDir) then
      match getFreePage m with
      | none => .ok (-1, m)
      | some (toPageTable, m') =>
        let m' := m'.write 0 toDir (entry toPageTable)
        copyDirs entries dirs (entries.foldl (copyEntry (m.table fromDir) toPageTable) m')
    else copyDirs entries dirs m

def copyPageTables (m : Mem) (start dest size : Nat) : Except Panic (Int × Mem) :=
  if start % 0x400000 ≠ 0 ∨ dest % 0x400000 ≠ 0 then .error .copyPageTablesWrongAlignment
  else copyDirs (copiedEntries start) ((dirSlots start size).zip (dirSlots dest size)) m

/-- The page table of a directory entry, which `put_page`, `try_to_share` and
`findEmptyAdress` take from `get_free_page` when there is none. -/
def pageTable (m : Mem) (d : Slot) : Option (Nat × Mem) :=
  if Present (m.dir d) then some (m.table d, m)
  else (getFreePage m).map fun (tmp, m) => (tmp, m.write 0 d (entry tmp))

/-- The page put there, or 0 when there is no page for the page table. -/
def putPage (m : Mem) (page address : Nat) : Nat × Mem :=
  match pageTable m (dirSlot address) with
  | none => (0, m)
  | some (pageTable, m) => (page, m.write pageTable (tableSlot address) (entry page))

/-- `none` where the source runs out of memory and kills the task; memory is then as
before. -/
def unWpPage (m : Mem) (pgTable : Nat) (nr : Slot) : Option Mem :=
  let oldPage := frame (m.phys pgTable nr)
  if LOW_MEM ≤ oldPage ∧ m.memMap oldPage = 1 then
    some (m.write pgTable nr (m.phys pgTable nr ||| 2))
  else
    match getFreePage m with
    | none => none
    | some (newPage, m) =>
      let m := if LOW_MEM ≤ oldPage then m.setCount oldPage (m.memMap oldPage + 255) else m
      let m := m.write pgTable nr (entry newPage)
      some { m with phys := update m.phys newPage (m.phys oldPage) }

def doWpPage (m : Mem) (address : Nat) : Option Mem :=
  unWpPage m (m.table (dirSlot address)) (tableSlot address)

def writeVerify (m : Mem) (address : Nat) : Option Mem :=
  if Present (m.dir (dirSlot address)) then
    let e := m.phys (m.table (dirSlot address)) (tableSlot address)
    if Present e ∧ ¬Writable e then doWpPage m address else some m
  else some m

/-- The flag says whether the page is there; otherwise the task is killed. -/
def getEmptyPage (m : Mem) (address : Nat) : Except Panic (Bool × Mem) :=
  match getFreePage m with
  | none => .ok (false, m)
  | some (tmp, m) =>
    let (page, m) := putPage m tmp address
    if page = 0 then do
      let m ← freePage m tmp
      pure (false, m)
    else .ok (true, m)

/-- `address` is relative to `start_code` of the tasks; `start` is that of `p` and
`dest` that of `current`. The result is `none` where the source runs out of memory. -/
def tryToShare (m : Mem) (address start dest : Nat) : Except Panic (Option Int × Mem) :=
  let fromDir := dirSlot (address + start)
  let toDir := dirSlot (address + dest)
  let nr := tableSlot address
  if ¬Present (m.dir fromDir) then .ok (some 0, m)
  else
    let fromTable := m.table fromDir
    let physAddr := m.phys fromTable nr
    if physAddr &&& 0x41 ≠ 0x01 then .ok (some 0, m)
    else if m.HIGH_MEMORY ≤ frame physAddr ∨ frame physAddr < LOW_MEM then .ok (some 0, m)
    else
      match pageTable m toDir with
      | none => .ok (none, m)
      | some (toTable, m) =>
        if Present (m.phys toTable nr) then .error .toPageAlreadyExists
        else
          let m := m.write fromTable nr (wrprotect (m.phys fromTable nr))
          let m := m.write toTable nr (m.phys fromTable nr)
          .ok (some 1, m.setCount (frame physAddr) (m.memMap (frame physAddr) + 1))

/-- `head.s` maps the first 16 MB one to one; the other frames hold anything. -/
def headPhys (rest : Nat → Slot → Word) (page : Nat) (i : Slot) : Word :=
  if page = 0 then if i.val < 4 then entry (i.val + 1) else 0
  else if page ≤ 4 then entry ((page - 1) * 1024 + i.val)
  else rest page i

/-- The frames from `startMem` up to `endMem` are free. -/
def memInit (rest : Nat → Slot → Word) (startMem endMem : Nat) : Mem where
  phys := headPhys rest
  memMap page := if startMem ≤ page ∧ page < endMem then 0 else USED
  HIGH_MEMORY := endMem

end Linux011
