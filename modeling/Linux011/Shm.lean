import Linux011.Memory
import Linux011.Runs

/-!
# Shared memory

`mm/shm.c`: the table `shmnum` with the calls that create a segment (`sys_shmget`), attach it
(`sys_shmat`) and detach it (`sys_shmdt`). A segment holds up to 64 pages, and a record with pid
and address for each task that attached it. What the calls read of `current` is a `Task`. Linear
addresses are numbers below 2 ^ 32.

A call has no result when it does not return: `findEmptyAdress` loops forever at a page that is
present, `sys_shmget` follows a null pointer when the first slot it stops at is not free, and
`free_page` may panic.

Every call is a function of the table and the memory, with the loops of the source as recursions
over the number of pages that are left, and a history is any sequence of calls by any tasks, with
whatever else the kernel does with the memory as one more kind of step. The last part says once
what a call can do to the table: `sysShmget_cases`, `sysShmat_cases` and `sysShmdt_cases` list
the ways in which it ends, each with the state it leaves. Everything that is proved about
segments, in the modules on keys, on attaching, on searching and on the page tables, starts from
these lists and does not unfold a call again.
-/

namespace Linux011

open Function

def SHM_NUM : Nat := 64
def PAGE_NUM : Nat := 64
def TASK_NUM : Nat := 64
def PAGE_SIZE : Nat := 4096
def SHM_MAX_HEAP : Nat := 0xA00000

def IPC_PRIVATE : Word := 0
def IPC_CREAT : Word := 0o1000
def IPC_EXCL : Word := 0o2000
def SHM_RND : Word := 1
def SHMLBA : Nat := 1

/-- The key of a free slot, `(key_t)-1`. -/
def KEY_FREE : Word := -1

/-- `shmaddr` holds pages, `vaddr` linear addresses. -/
structure ShmStruct where
  key : Word
  pageNum : Nat
  shmaddr : Nat → Nat
  pid : Nat → Nat
  vaddr : Nat → Nat
  shm_nattch : BitVec 32

/-- The fields of `current` that the calls read; `base` is `get_base(current->ldt[1])`. -/
structure Task where
  pid : Nat
  base : Word
  brk : Word
  pid_ne : pid ≠ 0

structure ShmState where
  shmnum : Nat → ShmStruct
  mem : Mem

/-- The static `shmnum`. -/
def shmBoot (_ : Nat) : ShmStruct := ⟨0, 0, fun _ => 0, fun _ => 0, fun _ => 0, 0⟩

/-- The `memset` calls count bytes, and clear a quarter of each array. -/
def sysInishm (shmnum : Nat → ShmStruct) (i : Nat) : ShmStruct where
  key := KEY_FREE
  pageNum := 0
  shmaddr j := if j < PAGE_NUM / 4 then 0 else (shmnum i).shmaddr j
  pid j := if j < TASK_NUM / 4 then 0 else (shmnum i).pid j
  vaddr j := if j < TASK_NUM / 4 then 0 else (shmnum i).vaddr j
  shm_nattch := 0

/-! ## Creating -/

/-- The loop that gives pages back, from index `n - 1` down. -/
def giveBack : Nat → (Nat → Nat) → Mem → Except Panic ((Nat → Nat) × Mem)
  | 0, shmaddr, m => .ok (shmaddr, m)
  | n + 1, shmaddr, m => do
    let m ← freePage m (shmaddr n)
    giveBack n (update shmaddr n 0) m

/-- The loop over `get_free_page` from index `i` on, for `left` pages; the flag says
whether it got them all. -/
def getPages (i : Nat) : Nat → (Nat → Nat) → Mem → Except Panic (Bool × (Nat → Nat) × Mem)
  | 0, shmaddr, m => .ok (true, shmaddr, m)
  | left + 1, shmaddr, m =>
    match getFreePage m with
    | some (page, m) => getPages (i + 1) left (update shmaddr i page) m
    | none => do
      let (shmaddr, m) ← giveBack (i + 1) (update shmaddr i 0) m
      pure (false, shmaddr, m)

/-- The first slot that is free or has the key. -/
def findKey (shmnum : Nat → ShmStruct) (key : Word) : Option Nat :=
  (List.range SHM_NUM).find? fun i => (shmnum i).key == key || (shmnum i).key == KEY_FREE

def pagesOf (size : Word) : Nat := (size + 0x0FFF).toNat / 4096

/-- The sizes that `sys_shmget` accepts. -/
def SizeOk (size : Word) : Prop := size ≠ 0 ∧ pagesOf size ≤ PAGE_NUM

instance (size : Word) : Decidable (SizeOk size) := inferInstanceAs (Decidable (_ ∧ _))

/-- The result is the id of a slot, or -1. -/
def sysShmget (s : ShmState) (key size shmflg : Word) : Option (Int × ShmState) :=
  if size = 0 then some (-1, s)
  else
    match findKey s.shmnum key with
    | none => some (-1, s)
    | some i =>
      if PAGE_NUM < pagesOf size then some (-1, s)
      else if key = IPC_PRIVATE ∨ shmflg &&& IPC_CREAT ≠ 0 ∧ (s.shmnum i).key ≠ key then
        if (s.shmnum i).key = KEY_FREE then
          let x := s.shmnum i
          match getPages 0 (pagesOf size) x.shmaddr s.mem with
          | .error _ => none
          | .ok (true, shmaddr, m) =>
            some (i, ⟨update s.shmnum i
              { x with shmaddr := shmaddr, pageNum := pagesOf size, key := key
                       shm_nattch := 0 }, m⟩)
          | .ok (false, shmaddr, m) =>
            some (-1, ⟨update s.shmnum i
              { x with shmaddr := shmaddr, pageNum := 0, key := KEY_FREE }, m⟩)
        else none
      else if shmflg &&& IPC_CREAT ≠ 0 ∧ shmflg &&& IPC_EXCL = 0 ∧ (s.shmnum i).key = key then
        some (i, s)
      else some (-1, s)

/-! ## Attaching -/

/-- The loop of `findEmptyAdress` with `left` pages to go; the flag says whether it found
room. A page that is present starts the search again at the same address. -/
def findFrom (limit : Nat) : Nat → Nat → Mem → Option (Bool × Mem)
  | 0, _, m => some (false, m)
  | left + 1, dataBase, m =>
    if dataBase < limit then
      match pageTable m (dirSlot dataBase) with
      | none => some (false, m)
      | some (pageTable, m) =>
        if Present (m.phys pageTable (tableSlot dataBase)) then none
        else if left = 0 then some (true, m)
        else findFrom limit left ((dataBase + PAGE_SIZE) % 2 ^ 32) m
    else some (false, m)

/-- The end of the heap, rounded up to a page. -/
def heapEnd (t : Task) : Nat := (t.base.toNat + t.brk.toNat + 0x0FFF) % 2 ^ 32 / 4096 * 4096

/-- The address, or 0. -/
def findEmptyAdress (m : Mem) (t : Task) (pageNum : Nat) : Option (Nat × Mem) :=
  (findFrom ((heapEnd t + SHM_MAX_HEAP) % 2 ^ 32) pageNum (heapEnd t) m).map fun (found, m) =>
    (if found then heapEnd t else 0, m)

/-- The loop over `put_page` that does not look at its results. -/
def putPages (shmaddr : Nat → Nat) (address pageNum : Nat) (m : Mem) : Mem :=
  (List.range pageNum).foldl
    (fun m i => (putPage m (shmaddr i) ((address + i * PAGE_SIZE) % 2 ^ 32)).2) m

/-- The loop over `put_page` that stops at the first failure. All pages go to the same
address. -/
def putSame (shmaddr : Nat → Nat) (address : Nat) : List Nat → Mem → Bool × Mem
  | [], m => (true, m)
  | i :: is, m =>
    let (page, m) := putPage m (shmaddr i) address
    if page = 0 then (false, m) else putSame shmaddr address is m

/-- The part of `sys_shmat` that maps the pages; the address, or `none` when it fails. -/
def mapSegment (m : Mem) (t : Task) (x : ShmStruct) (shmaddr shmflg : Word) :
    Option (Option Nat × Mem) :=
  if shmaddr = 0 then
    (findEmptyAdress m t x.pageNum).map fun (address, m) =>
      if address > 0 then (some address, putPages x.shmaddr address x.pageNum m)
      else (none, m)
  else
    let address :=
      if shmflg &&& SHM_RND ≠ 0 then shmaddr.toNat - shmaddr.toNat % SHMLBA else shmaddr.toNat
    let (mapped, m) := putSame x.shmaddr address (List.range x.pageNum) m
    some (if mapped then some address else none, m)

/-- The first record that is not used. -/
def unusedRecord (x : ShmStruct) : Option Nat :=
  (List.range TASK_NUM).find? fun j => x.pid j == 0

/-- The part of `sys_shmat` that keeps the books. -/
def record (x : ShmStruct) (pid address : Nat) : ShmStruct :=
  match unusedRecord x with
  | some j => { x with shm_nattch := x.shm_nattch + 1, pid := update x.pid j pid
                       vaddr := update x.vaddr j address }
  | none => { x with shm_nattch := x.shm_nattch + 1 }

/-- The result is the address relative to the base of the task, `none` for -1. -/
def sysShmat (s : ShmState) (t : Task) (shmid : Int) (shmaddr shmflg : Word) :
    Option (Option Nat × ShmState) :=
  if shmid < 0 ∨ SHM_NUM ≤ shmid then some (none, s)
  else
    let i := shmid.toNat
    (mapSegment s.mem t (s.shmnum i) shmaddr shmflg).map fun (address, m) =>
      match address with
      | none => (none, { s with mem := m })
      | some address =>
        (some ((address + 2 ^ 32 - t.base.toNat) % 2 ^ 32),
          ⟨update s.shmnum i (record (s.shmnum i) t.pid address), m⟩)

/-! ## Detaching -/

/-- The test for a present page looks at entry 0 of the page table. -/
def cancelAdress (m : Mem) (addr : Nat) : Mem :=
  if Present (m.dir (dirSlot addr)) then
    if Present (m.phys (m.table (dirSlot addr)) 0) then
      m.write (m.table (dirSlot addr)) (tableSlot addr) 0
    else m
  else m

/-- The first slot and record with pid and address; the test `key >= 0` always holds. -/
def findRecord (shmnum : Nat → ShmStruct) (pid address : Nat) : Option (Nat × Nat) :=
  (List.range SHM_NUM).findSome? fun i =>
    ((List.range TASK_NUM).find? fun j =>
      (shmnum i).pid j == pid && (shmnum i).vaddr j == address).map fun j => (i, j)

def sysShmdt (s : ShmState) (t : Task) (shmaddr : Word) : Option (Int × ShmState) :=
  if shmaddr = 0 then some (-1, s)
  else
    match findRecord s.shmnum t.pid ((shmaddr.toNat + t.base.toNat) % 2 ^ 32) with
    | none => some (-1, s)
    | some (i, j) =>
      let x := s.shmnum i
      if 0 < x.shm_nattch.toInt then
        let m := (List.range x.pageNum).foldl
          (fun m k => cancelAdress m ((x.vaddr j + k * PAGE_SIZE) % 2 ^ 32)) s.mem
        let x' : ShmStruct :=
          { x with shm_nattch := x.shm_nattch - 1, pid := update x.pid j 0
                   vaddr := update x.vaddr j 0 }
        if x'.shm_nattch = 0 then
          match (List.range x.pageNum).foldlM (fun m k => freePage m (x.shmaddr k)) m with
          | .error _ => none
          | .ok m =>
            some (0, ⟨update s.shmnum i { x' with key := KEY_FREE, pageNum := 0 }, m⟩)
        else some (0, ⟨update s.shmnum i x', m⟩)
      else some (0, s)

/-! ## Histories -/

namespace Shm

/-- A call of some task, or whatever else the kernel does with the memory. -/
inductive Act where
  | shmget (key size shmflg : Word)
  | shmat (t : Task) (shmid : Int) (shmaddr shmflg : Word)
  | shmdt (t : Task) (shmaddr : Word)
  | memory (m : Mem)

def step (s : ShmState) : Act → Option ShmState
  | .shmget key size shmflg => (sysShmget s key size shmflg).map Prod.snd
  | .shmat t shmid shmaddr shmflg => (sysShmat s t shmid shmaddr shmflg).map Prod.snd
  | .shmdt t shmaddr => (sysShmdt s t shmaddr).map Prod.snd
  | .memory m => some { s with mem := m }

def start (shmnum : Nat → ShmStruct) (m : Mem) : ShmState := ⟨sysInishm shmnum, m⟩

/-- Memory with all pages free. -/
def freeMem : Mem := memInit (fun _ _ => 0) LOW_MEM (LOW_MEM + PAGING_PAGES)

/-- The process of task 1, with a heap of one page. -/
def taskOne : Task := ⟨1, 0x4000000, 0x1000, by decide⟩

end Shm

/-! ## What the calls do to the table -/

section Table

variable {s s' : ShmState} {t : Task} {key size shmflg shmaddr : Word} {shmid : Int}

theorem findKey_some {shmnum : Nat → ShmStruct} {i : Nat} (h : findKey shmnum key = some i) :
    i < SHM_NUM ∧ ((shmnum i).key = key ∨ (shmnum i).key = KEY_FREE) ∧
      ∀ j < i, (shmnum j).key ≠ key ∧ (shmnum j).key ≠ KEY_FREE := by
  obtain ⟨hi, hlt, hbefore⟩ := List.find?_range_eq_some.mp h
  refine ⟨List.mem_range.mp hlt, by simpa using hi, fun j hj => ?_⟩
  simpa using hbefore j hj

/-- What `sys_shmget` does to a free slot that it takes, when the loop over `get_free_page`
got all pages or not. -/
def created (x : ShmStruct) (key size : Word) (got : Bool) (shmaddr : Nat → Nat) : ShmStruct :=
  if got then
    { x with shmaddr := shmaddr, pageNum := pagesOf size, key := key, shm_nattch := 0 }
  else { x with shmaddr := shmaddr, pageNum := 0, key := KEY_FREE }

/-- What `sys_shmget` does: nothing, or it takes the first free slot, which no slot before
has the key of, and pages for it. -/
theorem sysShmget_made {r : Int} (h : sysShmget s key size shmflg = some (r, s')) :
    s' = s ∨
    ∃ i, findKey s.shmnum key = some i ∧ (s.shmnum i).key = KEY_FREE ∧ SizeOk size ∧
      key ≠ KEY_FREE ∧ (key = IPC_PRIVATE ∨ shmflg &&& IPC_CREAT ≠ 0) ∧ ∃ got shmaddr m,
      getPages 0 (pagesOf size) (s.shmnum i).shmaddr s.mem = .ok (got, shmaddr, m) ∧
      r = (if got then (i : Int) else -1) ∧
      s' = ⟨update s.shmnum i (created (s.shmnum i) key size got shmaddr), m⟩ := by
  have hsame : ∀ {r' : Int}, some (r', s) = some (r, s') → s' = s := fun h =>
    (congrArg Prod.snd (Option.some.inj h)).symm
  unfold sysShmget at h
  split at h
  · exact Or.inl (hsame h)
  · rename_i h0
    split at h
    · exact Or.inl (hsame h)
    · rename_i i hi
      split at h
      · exact Or.inl (hsame h)
      · rename_i hpages
        split at h
        · rename_i hcreate
          have hsize : SizeOk size := ⟨h0, Nat.le_of_not_lt hpages⟩
          have hflag := hcreate.imp_right And.left
          split at h
          · rename_i hfree
            have hmark : key ≠ KEY_FREE := by
              rcases hcreate with rfl | ⟨-, hne⟩
              · decide
              · exact fun e => hne (hfree.trans e.symm)
            refine Or.inr ⟨i, hi, hfree, hsize, hmark, hflag, ?_⟩
            dsimp only at h
            split at h
            · cases h
            · rename_i shmaddr m hget
              cases h
              exact ⟨true, shmaddr, m, hget, rfl, rfl⟩
            · rename_i shmaddr m hget
              cases h
              exact ⟨false, shmaddr, m, hget, rfl, rfl⟩
          · cases h
        · split at h
          · exact Or.inl (hsame h)
          · exact Or.inl (hsame h)

/-- What `sys_shmget` leaves in the table: a new segment in the first free slot, which no
slot before has the key of, or what was there but for the page addresses of a free
slot. -/
theorem sysShmget_cases {r : Int} (h : sysShmget s key size shmflg = some (r, s')) :
    s' = s ∨
    ∃ i, findKey s.shmnum key = some i ∧ (s.shmnum i).key = KEY_FREE ∧ SizeOk size ∧
      key ≠ KEY_FREE ∧ (key = IPC_PRIVATE ∨ shmflg &&& IPC_CREAT ≠ 0) ∧ ∃ shmaddr,
      (r = i ∧ s'.shmnum = update s.shmnum i { s.shmnum i with
          shmaddr := shmaddr, pageNum := pagesOf size, key := key, shm_nattch := 0 }) ∨
      s'.shmnum = update s.shmnum i { s.shmnum i with
          shmaddr := shmaddr, pageNum := 0, key := KEY_FREE } := by
  rcases sysShmget_made h with hs | ⟨i, hi, hfree, hsize, hmark, hflag, got, shmaddr, m, -, hr, rfl⟩
  · exact Or.inl hs
  · refine Or.inr ⟨i, hi, hfree, hsize, hmark, hflag, shmaddr, ?_⟩
    cases got with
    | true => exact Or.inl ⟨hr, rfl⟩
    | false => exact Or.inr rfl

/-- Without an address, a segment comes behind the heap where `findEmptyAdress` finds room;
otherwise nothing is mapped. -/
theorem mapSegment_null {m m' : Mem} {t : Task} {x : ShmStruct} {r : Option Nat}
    (h : mapSegment m t x 0 shmflg = some (r, m')) :
    ∃ found m₁, findFrom ((heapEnd t + SHM_MAX_HEAP) % 2 ^ 32) x.pageNum (heapEnd t) m
        = some (found, m₁) ∧
      ((found = true ∧ r = some (heapEnd t) ∧ m' = putPages x.shmaddr (heapEnd t) x.pageNum m₁) ∨
        (r = none ∧ m' = m₁)) := by
  rw [mapSegment, if_pos rfl] at h
  obtain ⟨⟨address, m₁⟩, hf, he⟩ := Option.map_eq_some_iff.mp h
  obtain ⟨⟨found, m₂⟩, hfind, hres⟩ := Option.map_eq_some_iff.mp hf
  obtain ⟨haddr, rfl⟩ := Prod.mk.inj hres
  refine ⟨found, m₂, hfind, ?_⟩
  dsimp only at he
  split at he
  · rename_i hpos
    obtain ⟨rfl, rfl⟩ := Prod.mk.inj he
    cases found with
    | false => exact absurd hpos (by rw [← haddr]; exact Nat.lt_irrefl 0)
    | true =>
        obtain rfl : heapEnd t = address := haddr
        exact .inl ⟨rfl, rfl, rfl⟩
  · obtain ⟨rfl, rfl⟩ := Prod.mk.inj he
    exact .inr ⟨rfl, rfl⟩

/-- `sys_shmat` adds a record to the slot it names when it has mapped the pages, and
otherwise leaves the table alone. -/
theorem sysShmat_cases {r : Option Nat} (h : sysShmat s t shmid shmaddr shmflg = some (r, s')) :
    (r = none ∧ s'.shmnum = s.shmnum ∧ (s' = s ∨
      mapSegment s.mem t (s.shmnum shmid.toNat) shmaddr shmflg = some (none, s'.mem))) ∨
    ∃ (i : Nat) (address : Nat) (m : Mem), shmid = i ∧ i < SHM_NUM ∧
      mapSegment s.mem t (s.shmnum i) shmaddr shmflg = some (some address, m) ∧
      r = some ((address + 2 ^ 32 - t.base.toNat) % 2 ^ 32) ∧
      s' = ⟨update s.shmnum i (record (s.shmnum i) t.pid address), m⟩ := by
  unfold sysShmat at h
  split at h
  · obtain ⟨rfl, rfl⟩ := Prod.mk.inj (Option.some.inj h)
    exact Or.inl ⟨rfl, rfl, Or.inl rfl⟩
  · rename_i hid
    obtain ⟨h0, hlt⟩ := not_or.mp hid
    obtain ⟨⟨address, m⟩, hm, h⟩ := Option.map_eq_some_iff.mp h
    cases address with
    | none =>
        obtain ⟨rfl, rfl⟩ := Prod.mk.inj h
        exact Or.inl ⟨rfl, rfl, Or.inr hm⟩
    | some address =>
        obtain ⟨rfl, rfl⟩ := Prod.mk.inj h
        exact Or.inr ⟨shmid.toNat, address, m, by omega, by omega, hm, rfl, rfl⟩

@[simp] theorem record_key (x : ShmStruct) (pid address : Nat) :
    (record x pid address).key = x.key := by
  unfold record
  split <;> rfl

@[simp] theorem record_pageNum (x : ShmStruct) (pid address : Nat) :
    (record x pid address).pageNum = x.pageNum := by
  unfold record
  split <;> rfl

@[simp] theorem record_shmaddr (x : ShmStruct) (pid address : Nat) :
    (record x pid address).shmaddr = x.shmaddr := by
  unfold record
  split <;> rfl

/-- What a detached record leaves of its slot. -/
def detached (x : ShmStruct) (j : Nat) : ShmStruct :=
  if x.shm_nattch - 1 = 0 then
    { x with shm_nattch := x.shm_nattch - 1, pid := update x.pid j 0
             vaddr := update x.vaddr j 0, key := KEY_FREE, pageNum := 0 }
  else
    { x with shm_nattch := x.shm_nattch - 1, pid := update x.pid j 0
             vaddr := update x.vaddr j 0 }

/-- The loop of `sys_shmdt` over `cancelAdress`. -/
def cancelPages (address pageNum : Nat) (m : Mem) : Mem :=
  (List.range pageNum).foldl (fun m k => cancelAdress m ((address + k * PAGE_SIZE) % 2 ^ 32)) m

/-- What `sys_shmdt` does when it finds a record of a slot with attachments: it clears the
record and the addresses, and the last detach gives the pages back. -/
theorem sysShmdt_made {r : Int} (h : sysShmdt s t shmaddr = some (r, s')) :
    (r = -1 ∧ s' = s) ∨
    ∃ i j, findRecord s.shmnum t.pid ((shmaddr.toNat + t.base.toNat) % 2 ^ 32) = some (i, j) ∧
      r = 0 ∧
      if 0 < (s.shmnum i).shm_nattch.toInt then
        s'.shmnum = update s.shmnum i (detached (s.shmnum i) j) ∧
        if (s.shmnum i).shm_nattch - 1 = 0 then
          (List.range (s.shmnum i).pageNum).foldlM
            (fun m k => freePage m ((s.shmnum i).shmaddr k))
            (cancelPages ((s.shmnum i).vaddr j) (s.shmnum i).pageNum s.mem) = .ok s'.mem
        else s'.mem = cancelPages ((s.shmnum i).vaddr j) (s.shmnum i).pageNum s.mem
      else s' = s := by
  unfold sysShmdt at h
  split at h
  · obtain ⟨rfl, rfl⟩ := Prod.mk.inj (Option.some.inj h)
    exact Or.inl ⟨rfl, rfl⟩
  · split at h
    · obtain ⟨rfl, rfl⟩ := Prod.mk.inj (Option.some.inj h)
      exact Or.inl ⟨rfl, rfl⟩
    · rename_i i j hij
      refine Or.inr ⟨i, j, hij, ?_⟩
      dsimp only at h
      split at h
      · rename_i hn
        rw [if_pos hn]
        split at h
        · rename_i hzero
          rw [if_pos hzero, detached, if_pos hzero]
          split at h
          · cases h
          · rename_i hfree
            obtain ⟨rfl, rfl⟩ := Prod.mk.inj (Option.some.inj h)
            exact ⟨rfl, rfl, hfree⟩
        · rename_i hzero
          rw [if_neg hzero, detached, if_neg hzero]
          obtain ⟨rfl, rfl⟩ := Prod.mk.inj (Option.some.inj h)
          exact ⟨rfl, rfl, rfl⟩
      · rename_i hn
        obtain ⟨rfl, rfl⟩ := Prod.mk.inj (Option.some.inj h)
        rw [if_neg hn]
        exact ⟨rfl, rfl⟩

/-- `sys_shmdt` clears a record of a slot with attachments, or leaves all as it was. -/
theorem sysShmdt_cases {r : Int} (h : sysShmdt s t shmaddr = some (r, s')) :
    (r = -1 ∧ s' = s) ∨
    ∃ i j, findRecord s.shmnum t.pid ((shmaddr.toNat + t.base.toNat) % 2 ^ 32) = some (i, j) ∧
      r = 0 ∧
      (if 0 < (s.shmnum i).shm_nattch.toInt then
        s'.shmnum = update s.shmnum i (detached (s.shmnum i) j) else s' = s) := by
  refine (sysShmdt_made h).imp_right fun ⟨i, j, hij, hr, hc⟩ => ⟨i, j, hij, hr, ?_⟩
  split at hc
  · rename_i hn
    rw [if_pos hn]
    exact hc.1
  · rename_i hn
    rw [if_neg hn]
    exact hc

theorem findRecord_some {shmnum : Nat → ShmStruct} {pid address i j : Nat}
    (h : findRecord shmnum pid address = some (i, j)) :
    i < SHM_NUM ∧ j < TASK_NUM ∧ (shmnum i).pid j = pid ∧ (shmnum i).vaddr j = address := by
  obtain ⟨k, hk, h⟩ := List.exists_of_findSome?_eq_some h
  obtain ⟨j', hj, he⟩ := Option.map_eq_some_iff.mp h
  obtain ⟨rfl, rfl⟩ := Prod.mk.inj he
  have htest := List.find?_some hj
  rw [Bool.and_eq_true, beq_iff_eq, beq_iff_eq] at htest
  exact ⟨List.mem_range.mp hk, List.mem_range.mp (List.mem_of_find?_eq_some hj), htest⟩

end Table

end Linux011
