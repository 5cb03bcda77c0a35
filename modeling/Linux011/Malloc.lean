import Linux011.Links
import Linux011.PageLedger
import Linux011.Runs

/-!
# The kernel's bucket allocator

`init_bucket_desc`, `malloc` and `free_s` of `lib/malloc.c` over the physical memory: the
bucket descriptors and the links of the free objects are words of pages that come from
`get_free_page`. Addresses are numbers, and 0 is the null pointer. Interrupts are off, so a
call is one step; a walk along a chain that does not end is `hang`.

The rest of the kernel takes and gives back pages of its own, and stores into these and into
the objects that it has.

The heap is memory and nothing else: the fields of a descriptor and the links of the free objects
are words of pages, read and written by their addresses, and a store into an object that is in
use could overwrite any of them if the two were not apart. The state of a run adds what the
kernel outside knows, the objects that it has, the lengths that were asked for and its own pages.
`Accounted` says what this allocator is to keep, in terms of lists of descriptors and of free
objects that can be found by following the words. That it holds in every state is proved in
`MallocChains`.
-/

namespace Linux011

open Function Runs

namespace Malloc

def PAGE_SIZE : Nat := 4096

/-- The frames that `get_free_page` may give are below this one. -/
def FRAMES : Nat := LOW_MEM + PAGING_PAGES

/-! ## Words -/

def wordOf (a : Nat) : Slot := ⟨a / 4 % 1024, Nat.mod_lt _ (Nat.zero_lt_succ 1023)⟩

/-- `*(unsigned long *) a`. -/
def load (m : Mem) (a : Nat) : Nat := (m.phys (a / 4096) (wordOf a)).toNat

def store (m : Mem) (a w : Nat) : Mem := m.write (a / 4096) (wordOf a) (BitVec.ofNat 32 w)

/-- Word `j` of a descriptor. -/
def field (m : Mem) (bdesc j : Nat) : Nat := load m (bdesc + 4 * j)

def setField (m : Mem) (bdesc j w : Nat) : Mem := store m (bdesc + 4 * j) w

/-- `bdesc->page`. -/
def page (m : Mem) (bdesc : Nat) : Nat := field m bdesc 0

def next (m : Mem) (bdesc : Nat) : Nat := field m bdesc 1

def freeptr (m : Mem) (bdesc : Nat) : Nat := field m bdesc 2

/-- The lower half of the last word. -/
def refcnt (m : Mem) (bdesc : Nat) : Nat := field m bdesc 3 % 0x10000

def bucket_size (m : Mem) (bdesc : Nat) : Nat := field m bdesc 3 / 0x10000

def setRefcnt (m : Mem) (bdesc n : Nat) : Mem :=
  setField m bdesc 3 (n % 0x10000 + bucket_size m bdesc * 0x10000)

def setBucketSize (m : Mem) (bdesc n : Nat) : Mem :=
  setField m bdesc 3 (refcnt m bdesc + n % 0x10000 * 0x10000)

/-- Words at distance `stride`, from `base` on, are made to point each at the place of the
one behind it, and the last of the `n` at `last`; the places are `off` before the words. -/
def thread (m : Mem) (base off stride n last : Nat) : Mem :=
  store ((List.range (n - 1)).foldl
      (fun m k => store m (base + stride * k + off) (base + stride * (k + 1))) m)
    (base + stride * (n - 1) + off) last

/-! ## The allocator -/

/-- `bucket_dir[i].size`. -/
def bucketSize (bdir : Fin 9) : Nat := 16 * 2 ^ bdir.val

/-- The size of `struct bucket_desc`. -/
def DESC_SIZE : Nat := 16

structure Heap where
  mem : Mem
  /-- `bucket_dir[i].chain` -/
  chain : Fin 9 → Nat
  free_bucket_desc : Nat

inductive Stop where
  | mallocBadArg
  | outOfMemoryInInitBucketDesc
  | outOfMemoryInKernelMalloc
  | badAddressPassedToKernelFreeS
  | mallocBucketChainsCorrupted
  | freePage (p : Panic)
  | hang

def init_bucket_desc (h : Heap) : Except Stop Heap :=
  match getFreePage h.mem with
  | none => .error .outOfMemoryInInitBucketDesc
  | some (page, mem) =>
    let first := page * PAGE_SIZE
    .ok { h with
      mem := thread mem first 4 DESC_SIZE (PAGE_SIZE / DESC_SIZE) h.free_bucket_desc
      free_bucket_desc := first }

/-- The first descriptor with a free object from `bdesc` on, or 0. -/
def findFree (m : Mem) : Nat → Nat → Except Stop Nat
  | 0, _ => .error .hang
  | n + 1, bdesc =>
    if bdesc = 0 then .ok 0
    else if freeptr m bdesc ≠ 0 then .ok bdesc
    else findFree m n (next m bdesc)

/-- `bdesc->page = bdesc->freeptr = cp`, and the chain of free objects. -/
def fillBucket (m : Mem) (bdesc cp size : Nat) : Mem :=
  thread (setField (setField m bdesc 2 cp) bdesc 0 cp) cp 0 size (PAGE_SIZE / size) 0

/-- The first spare descriptor gets a page, and goes in front of the chain. -/
def linkBucket (h : Heap) (bdir : Fin 9) : Except Stop (Nat × Heap) :=
  let bdesc := h.free_bucket_desc
  let mem := setBucketSize (setRefcnt h.mem bdesc 0) bdesc (bucketSize bdir)
  match getFreePage mem with
  | none => .error .outOfMemoryInKernelMalloc
  | some (page, mem) =>
    let mem := fillBucket mem bdesc (page * PAGE_SIZE) (bucketSize bdir)
    .ok (bdesc, {
      mem := setField mem bdesc 1 (h.chain bdir)
      chain := update h.chain bdir bdesc
      free_bucket_desc := next h.mem bdesc })

def newBucket (h : Heap) (bdir : Fin 9) : Except Stop (Nat × Heap) := do
  let h ← if h.free_bucket_desc = 0 then init_bucket_desc h else pure h
  linkBucket h bdir

/-- The end of `malloc`: the first free object of the bucket. -/
def takeObject (h : Heap) (bdesc : Nat) : Nat × Heap :=
  let retval := freeptr h.mem bdesc
  let mem := setField h.mem bdesc 2 (load h.mem retval)
  (retval, { h with mem := setRefcnt mem bdesc (refcnt mem bdesc + 1) })

/-- The bucket for objects of a length. -/
def bucketFor (len : Nat) : Option (Fin 9) :=
  (List.finRange 9).find? fun bdir => decide (len ≤ bucketSize bdir)

def malloc (h : Heap) (len : Nat) : Except Stop (Nat × Heap) := do
  match bucketFor len with
  | none => .error .mallocBadArg
  | some bdir =>
    let bdesc ← findFree h.mem (FRAMES + 1) (h.chain bdir)
    if bdesc = 0 then
      let (bdesc, h) ← newBucket h bdir
      pure (takeObject h bdesc)
    else pure (takeObject h bdesc)

/-- The descriptor of the page and the one before it, along a chain. -/
def findPage (m : Mem) (pg : Nat) : Nat → Nat → Nat → Except Stop (Option (Nat × Nat))
  | 0, _, _ => .error .hang
  | n + 1, prev, bdesc =>
    if bdesc = 0 then .ok none
    else if page m bdesc = pg then .ok (some (bdesc, prev))
    else findPage m pg n bdesc (next m bdesc)

/-- The search of `free_s` in the chains of `bdirs`. -/
def search (h : Heap) (pg : Nat) (size : Int) :
    List (Fin 9) → Except Stop (Option (Fin 9 × Nat × Nat))
  | [] => .ok none
  | bdir :: bdirs => do
    if (bucketSize bdir : Int) < size then search h pg size bdirs
    else match ← findPage h.mem pg (FRAMES + 1) 0 (h.chain bdir) with
      | none => search h pg size bdirs
      | some (bdesc, prev) => pure (some (bdir, bdesc, prev))

/-- The descriptor before `bdesc`, or 0. -/
def findPrev (m : Mem) (bdesc : Nat) : Nat → Nat → Except Stop Nat
  | 0, _ => .error .hang
  | n + 1, prev =>
    if prev = 0 then .ok 0
    else if next m prev = bdesc then .ok prev
    else findPrev m bdesc n (next m prev)

/-- Take the descriptor off its chain. -/
def unlink (h : Heap) (bdir : Fin 9) (bdesc prev : Nat) : Except Stop Heap := do
  let prev ← if prev ≠ 0 ∧ next h.mem prev ≠ bdesc ∨ prev = 0 ∧ h.chain bdir ≠ bdesc then
      findPrev h.mem bdesc (FRAMES + 1) (h.chain bdir)
    else pure prev
  if prev ≠ 0 then pure { h with mem := setField h.mem prev 1 (next h.mem bdesc) }
  else if h.chain bdir ≠ bdesc then .error .mallocBucketChainsCorrupted
  else pure { h with chain := update h.chain bdir (next h.mem bdesc) }

/-- The object becomes the first free one of its bucket. -/
def putObject (h : Heap) (obj bdesc : Nat) : Heap :=
  let mem := setField (store h.mem obj (freeptr h.mem bdesc)) bdesc 2 obj
  { h with mem := setRefcnt mem bdesc (refcnt mem bdesc + 0xffff) }

/-- The end of `free_s` for a bucket that has become empty. -/
def dropBucket (h : Heap) (bdir : Fin 9) (bdesc prev : Nat) : Except Stop Heap := do
  let h ← unlink h bdir bdesc prev
  match freePage h.mem (page h.mem bdesc / PAGE_SIZE) with
  | .error p => .error (.freePage p)
  | .ok mem => pure { h with
      mem := setField mem bdesc 1 h.free_bucket_desc
      free_bucket_desc := bdesc }

def free_s (h : Heap) (obj : Nat) (size : Int) : Except Stop Heap := do
  match ← search h (obj / PAGE_SIZE * PAGE_SIZE) size (List.finRange 9) with
  | none => .error .badAddressPassedToKernelFreeS
  | some (bdir, bdesc, prev) =>
    let h := putObject h obj bdesc
    if refcnt h.mem bdesc = 0 then dropBucket h bdir bdesc prev else pure h

/-! ## Runs -/

structure State where
  heap : Heap
  /-- the objects that are allocated -/
  live : Finset Nat
  /-- the length that was asked for -/
  len : Nat → Nat
  /-- the pages that the rest of the kernel has -/
  held : Finset Nat

/-- The size of the bucket of an object. -/
def State.size (s : State) (obj : Nat) : Nat := (bucketFor (s.len obj)).elim 0 bucketSize

inductive Act where
  | malloc (len : Nat)
  | free_s (obj : Nat) (size : Int)
  /-- the rest of the kernel stores a word -/
  | store (a w : Nat)
  | getFreePage
  | freePage (page : Nat)

def step (s : State) : Act → Except Stop State
  | .malloc len => do
    let (obj, h) ← malloc s.heap len
    pure { s with heap := h, live := insert obj s.live, len := update s.len obj len }
  | .free_s obj size => do
    let h ← free_s s.heap obj size
    pure { s with heap := h, live := s.live.erase obj }
  | .store a w => pure { s with heap := { s.heap with mem := store s.heap.mem a w } }
  | .getFreePage => match getFreePage s.heap.mem with
    | none => pure s
    | some (p, mem) =>
      pure { s with heap := { s.heap with mem := mem }, held := insert p s.held }
  | .freePage p => match freePage s.heap.mem p with
    | .error e => .error (.freePage e)
    | .ok mem => pure { s with heap := { s.heap with mem := mem }, held := s.held.erase p }

/-- Requests of at most a page, objects that are allocated with a size that is not above that
of the bucket, and stores and pages of others only where they may. -/
def Admissible (s : State) : Act → Prop
  | .malloc len => len ≤ PAGE_SIZE
  | .free_s obj size => obj ∈ s.live ∧ size ≤ s.size obj
  | .store a _ => a / PAGE_SIZE ∈ s.held ∨ ∃ o ∈ s.live, o ≤ a ∧ a < o + s.size o
  | .getFreePage => True
  | .freePage p => p ∈ s.held

def run (s : State) (a : Act) : Option State := (step s a).toOption

/-- The memory that `mem_init` leaves, and empty chains. -/
def start (z : Zone) (rest : Nat → Slot → Word) : State where
  heap := ⟨memInit rest z.start z.stop, fun _ => 0, 0⟩
  live := ∅
  len _ := 0
  held := ∅

/-! ## What the allocator is for -/

/-- The address, when it is not the null pointer. -/
def ptr (a : Nat) : Option Nat := if a = 0 then none else some a

/-- The objects on a page. -/
def State.onPage (s : State) (p : Nat) : Finset Nat := s.live.filter fun o => o / PAGE_SIZE = p

/-- The page comes from `get_free_page` and is no one else's. -/
def State.Granted (s : State) (p : Nat) : Prop :=
  LOW_MEM ≤ p ∧ p < s.heap.mem.HIGH_MEMORY ∧ s.heap.mem.memMap p = 1 ∧ p ∉ s.held

/-- The ranges of `n` bytes from `a` on and of `k` bytes from `b` on. -/
def Apart (a n b k : Nat) : Prop := a + n ≤ b ∨ b + k ≤ a

/-- The descriptors of the nine chains and the spare ones, no two of them the same, apart
from the objects; those of the chains have different pages. -/
structure Chained (s : State) (chain : Fin 9 → List Nat) (spare : List Nat) : Prop where
  path : ∀ i, Links.Path (fun d => ptr (next s.heap.mem d)) (ptr (s.heap.chain i)) (chain i)
  path_spare : Links.Path (fun d => ptr (next s.heap.mem d)) (ptr s.heap.free_bucket_desc) spare
  nodup : ∀ i, (chain i).Nodup
  nodup_spare : spare.Nodup
  pages : ∀ i j, ∀ d ∈ chain i, ∀ e ∈ chain j, page s.heap.mem d = page s.heap.mem e →
    i = j ∧ d = e
  not_spare : ∀ i, ∀ d ∈ chain i, d ∉ spare
  apart : ∀ i d, d ∈ chain i ∨ d ∈ spare → ∀ o ∈ s.live, Apart o (s.size o) d DESC_SIZE

/-- An object is a place of its size in a page with a descriptor in the chain of that size;
it is apart from the other objects. -/
structure Objects (s : State) (chain : Fin 9 → List Nat) : Prop where
  enough : ∀ o ∈ s.live, s.len o ≤ s.size o
  inside : ∀ o ∈ s.live, ∃ i, bucketFor (s.len o) = some i ∧ ∃ d ∈ chain i,
    page s.heap.mem d ≤ o ∧ o + s.size o ≤ page s.heap.mem d + PAGE_SIZE
  apart : ∀ o ∈ s.live, ∀ o' ∈ s.live, o ≠ o' → Apart o (s.size o) o' (s.size o')

/-- What is in a bucket: the descriptor counts the objects on its page, of which there is
one, and the other places are those of the chain of free ones. -/
structure Bucket (s : State) (i : Fin 9) (d : Nat) (free : List Nat) : Prop where
  granted : s.Granted (page s.heap.mem d / PAGE_SIZE)
  aligned : PAGE_SIZE ∣ page s.heap.mem d
  size : bucket_size s.heap.mem d = bucketSize i
  refcnt : refcnt s.heap.mem d = (s.onPage (page s.heap.mem d / PAGE_SIZE)).card
  path : Links.Path (fun a => ptr (load s.heap.mem a)) (ptr (freeptr s.heap.mem d)) free
  nodup : free.Nodup
  free : ∀ a, a ∈ free ↔
    a / PAGE_SIZE = page s.heap.mem d / PAGE_SIZE ∧ bucketSize i ∣ a ∧ a ∉ s.live

/-- What `malloc` gives is no object of another; it stops only when there is no page, and it
leaves the pages that are in use. -/
def MallocOk (s : State) (len : Nat) : Prop :=
  match malloc s.heap len with
  | .ok (obj, h) => obj ∉ s.live ∧
      ∀ p, s.heap.mem.memMap p ≠ 0 → h.mem.memMap p = s.heap.mem.memMap p
  | .error e => (e = .outOfMemoryInInitBucketDesc ∨ e = .outOfMemoryInKernelMalloc) ∧
      ∀ p m p' m', getFreePage s.heap.mem = some (p, m) → getFreePage m ≠ some (p', m')

/-- `free_s` does not stop, and gives back a page exactly when it frees its last object. -/
def FreeOk (s : State) (o : Nat) (size : Int) : Prop :=
  ∃ h, free_s s.heap o size = .ok h ∧
    (h.mem.memMap (o / PAGE_SIZE) = 0 ↔ ∀ o' ∈ s.onPage (o / PAGE_SIZE), o' = o) ∧
    ∀ p, p ≠ o / PAGE_SIZE → h.mem.memMap p = s.heap.mem.memMap p

/-- The lists of the buckets and the counts of the pages are those of the objects that are live, and
the next `malloc` or `free_s` goes well. -/
structure Accounted (s : State) : Prop where
  buckets : ∃ chain spare, ∃ free : Nat → List Nat, Chained s chain spare ∧ Objects s chain ∧
    ∀ i, ∀ d ∈ chain i, Bucket s i d (free d) ∧ 1 ≤ refcnt s.heap.mem d ∧
      ∀ a ∈ free d, ∀ o ∈ s.live, Apart o (s.size o) a 4
  malloc_ok : ∀ len ≤ PAGE_SIZE, MallocOk s len
  free_ok : ∀ o ∈ s.live, ∀ size : Int, size ≤ s.size o → FreeOk s o size

end Malloc

end Linux011
