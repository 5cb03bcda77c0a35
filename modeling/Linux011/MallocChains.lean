import Linux011.Malloc

/-!
# The chains of the bucket allocator

What the pages of the allocator hold in every reachable state (`Sound`), operation by
operation: a page of descriptors is threaded, a descriptor goes from the spare ones to a
chain, an object goes from the chain of free ones to its user and back, and an empty bucket
gives back its page (`bucket_allocator`).

`Sound` is the invariant, and its lists are the evidence that `Accounted` only says to be there:
the descriptors of each of the nine chains and the spare ones, the free objects of each bucket,
and the pages that are full of descriptors. One bucket may be in the middle of an operation (the
last argument), without an object in use and not yet given back. Each operation of the source is
a lemma from `Sound` to `Sound` that moves one element from one list to another, and the words
that it does not touch are framed by the lemmas on `load` and `store` at different addresses:
descriptors lie in pages of their own, objects in the pages of their buckets, and two objects of
a bucket are a multiple of its size apart.

The walks of the source end because the chains are finite and no page can have two descriptors,
so that `hang` never comes. `malloc` and `free_s` are then sequences of these operations
(`Sound.malloc`, `Sound.free_s`).
-/

namespace Linux011

open Function Runs Links

namespace Malloc

variable {m m' : Mem}

/-! ## Words -/

theorem load_store (m : Mem) (a b : Nat) {w : Nat} (hw : w < 2 ^ 32) :
    load (store m b w) a = if a / 4 = b / 4 then w else load m a := by
  unfold load store Mem.write
  dsimp only
  split
  · rename_i heq
    have hpage : a / 4096 = b / 4096 := by omega
    have hword : wordOf a = wordOf b := Fin.ext (by simp only [wordOf]; omega)
    rw [hpage, hword, update_self, update_self, BitVec.toNat_ofNat, Nat.mod_eq_of_lt hw]
  · rename_i hne
    rcases eq_or_ne (a / 4096) (b / 4096) with hpage | hpage
    · have hword : wordOf a ≠ wordOf b := fun e => by
        have := congrArg Fin.val e
        simp only [wordOf] at this
        omega
      rw [hpage, update_self, update_of_ne hword]
    · rw [update_of_ne hpage]

theorem load_store_self (m : Mem) (a : Nat) {w : Nat} (hw : w < 2 ^ 32) :
    load (store m a w) a = w := by
  rw [load_store m a a hw, if_pos rfl]

theorem load_store_ne {a b : Nat} (m : Mem) (w : Nat) (h : a / 4 ≠ b / 4) :
    load (store m b w) a = load m a := by
  unfold load store Mem.write
  dsimp only
  rcases eq_or_ne (a / 4096) (b / 4096) with hpage | hpage
  · have hword : wordOf a ≠ wordOf b := fun e => by
      have := congrArg Fin.val e
      simp only [wordOf] at this
      omega
    rw [hpage, update_self, update_of_ne hword]
  · rw [update_of_ne hpage]

@[simp] theorem store_memMap (m : Mem) (a w : Nat) : (store m a w).memMap = m.memMap := rfl

@[simp] theorem store_high (m : Mem) (a w : Nat) :
    (store m a w).HIGH_MEMORY = m.HIGH_MEMORY := rfl

@[simp] theorem setField_memMap (m : Mem) (d j w : Nat) :
    (setField m d j w).memMap = m.memMap := rfl

@[simp] theorem setField_high (m : Mem) (d j w : Nat) :
    (setField m d j w).HIGH_MEMORY = m.HIGH_MEMORY := rfl

/-- The words of descriptors, which lie at multiples of their size. -/
theorem field_setField {d e j k w : Nat} (m : Mem) (hd : 16 ∣ d) (he : 16 ∣ e) (hj : j < 4)
    (hk : k < 4) (hw : w < 2 ^ 32) :
    field (setField m d j w) e k = if d = e ∧ j = k then w else field m e k := by
  unfold field setField
  rw [load_store m _ _ hw]
  refine if_congr ?_ rfl rfl
  omega

theorem field_setField_self {d j w : Nat} (m : Mem) (hd : 16 ∣ d) (hj : j < 4)
    (hw : w < 2 ^ 32) : field (setField m d j w) d j = w := by
  rw [field_setField m hd hd hj hj hw, if_pos ⟨rfl, rfl⟩]

theorem field_setField_ne {d e j k : Nat} (m : Mem) (w : Nat) (hd : 16 ∣ d) (he : 16 ∣ e)
    (hj : j < 4) (hk : k < 4) (hne : d ≠ e ∨ j ≠ k) :
    field (setField m d j w) e k = field m e k :=
  load_store_ne m w (by omega)

/-- A word of a descriptor and a word of another page. -/
theorem load_setField_ne {d j a : Nat} (m : Mem) (w : Nat) (hd : 16 ∣ d) (hj : j < 4)
    (h : a / 4096 ≠ d / 4096) : load (setField m d j w) a = load m a :=
  load_store_ne m w (by omega)

theorem field_store_ne {d j a : Nat} (m : Mem) (w : Nat) (hd : 16 ∣ d) (hj : j < 4)
    (h : a / 4096 ≠ d / 4096) : field (store m a w) d j = field m d j :=
  load_store_ne m w (by omega)

/-- The words that a thread goes through, in order. -/
def places (base stride n : Nat) : List Nat := (List.range n).map fun k => base + stride * k

theorem mem_places {base stride n a : Nat} :
    a ∈ places base stride n ↔ ∃ k < n, a = base + stride * k := by
  simp [places, eq_comm]

theorem foldl_load (base off : Nat) {stride : Nat} (hs : 4 ≤ stride) (hs4 : 4 ∣ stride)
    (n : Nat) (m : Mem) (hlt : base + stride * n < 2 ^ 32) :
    (∀ k < n, load ((List.range n).foldl (fun m k =>
        store m (base + stride * k + off) (base + stride * (k + 1))) m) (base + stride * k + off)
          = base + stride * (k + 1)) ∧
      ∀ a, (∀ k < n, a / 4 ≠ (base + stride * k + off) / 4) →
        load ((List.range n).foldl (fun m k =>
          store m (base + stride * k + off) (base + stride * (k + 1))) m) a = load m a := by
  induction n with
  | zero => exact ⟨fun k hk => absurd hk (Nat.not_lt_zero k), fun a _ => rfl⟩
  | succ n ih =>
      have hle : stride * n ≤ stride * (n + 1) := Nat.mul_le_mul_left _ (Nat.le_succ n)
      obtain ⟨hin, hout⟩ := ih (by omega)
      rw [List.range_succ, List.foldl_append]
      simp only [List.foldl_cons, List.foldl_nil]
      refine ⟨fun k hk => ?_, fun a ha => ?_⟩
      · rcases Nat.lt_succ_iff_lt_or_eq.mp hk with hk | rfl
        · have hmul : stride * (k + 1) ≤ stride * n := Nat.mul_le_mul_left _ hk
          rw [Nat.mul_succ] at hmul
          rw [load_store_ne _ _ (by omega)]
          exact hin k hk
        · exact load_store_self _ _ (by omega)
      · rw [load_store_ne _ _ (ha n (Nat.lt_succ_self n))]
        exact hout a fun k hk => ha k (Nat.lt_succ_of_lt hk)

/-- A thread goes through its places, and then on from where its last word points. -/
theorem thread_load (base off : Nat) {stride n last : Nat} (hs : 4 ≤ stride) (hs4 : 4 ∣ stride)
    (hn : 1 ≤ n) (m : Mem) (hlt : base + stride * n < 2 ^ 32) (hlast : last < 2 ^ 32) :
    (∀ k, k + 1 < n → load (thread m base off stride n last) (base + stride * k + off)
      = base + stride * (k + 1)) ∧
    load (thread m base off stride n last) (base + stride * (n - 1) + off) = last ∧
    ∀ a, (∀ k < n, a / 4 ≠ (base + stride * k + off) / 4) →
      load (thread m base off stride n last) a = load m a := by
  have hle : stride * (n - 1) ≤ stride * n := Nat.mul_le_mul_left _ (Nat.sub_le n 1)
  obtain ⟨hin, hout⟩ := foldl_load base off hs hs4 (n - 1) m (by omega)
  refine ⟨fun k hk => ?_, load_store_self _ _ hlast, fun a ha => ?_⟩
  · have hmul : stride * (k + 1) ≤ stride * (n - 1) := Nat.mul_le_mul_left _ (by omega)
    rw [Nat.mul_succ] at hmul
    unfold thread
    rw [load_store_ne _ _ (by omega)]
    exact hin k (by omega)
  · unfold thread
    rw [load_store_ne _ _ (ha (n - 1) (by omega))]
    exact hout a fun k hk => ha k (by omega)

theorem path_places {f : Nat → Option Nat} {base stride n last : Nat} {l : List Nat}
    (hn : 1 ≤ n) (hbase : 1 ≤ base)
    (hin : ∀ k, k + 1 < n → f (base + stride * k) = ptr (base + stride * (k + 1)))
    (hend : f (base + stride * (n - 1)) = ptr last) (hl : Path f (ptr last) l) :
    Path f (ptr base) (places base stride n ++ l) := by
  -- on the places that are left, from the end of the thread on
  have hsuffix : ∀ j k, k + (j + 1) = n → Path f (ptr (base + stride * k))
      ((List.range' k (j + 1)).map (fun k => base + stride * k) ++ l) := by
    intro j
    induction j with
    | zero =>
        intro k hk
        obtain rfl : k = n - 1 := by omega
        refine ⟨if_neg (by omega), ?_⟩
        rw [hend]
        exact hl
    | succ j ih =>
        intro k hk
        refine ⟨if_neg (by omega), ?_⟩
        rw [hin k (by omega)]
        exact ih (k + 1) (by omega)
  have := hsuffix (n - 1) 0 (by omega)
  rw [Nat.sub_add_cancel hn, ← List.range_eq_range'] at this
  simpa [places] using this

theorem places_nodup {base stride n : Nat} (hs : 1 ≤ stride) : (places base stride n).Nodup := by
  refine List.Nodup.map (fun a b hab => ?_) List.nodup_range
  have hab : stride * a = stride * b := Nat.add_left_cancel hab
  exact Nat.eq_of_mul_eq_mul_left hs hab

/-! ## Sizes and places -/

theorem bucketSize_spec (i : Fin 9) :
    16 ≤ bucketSize i ∧ bucketSize i ≤ 4096 ∧ 16 ∣ bucketSize i ∧ bucketSize i ∣ 4096 := by
  revert i
  decide

theorem bucketFor_spec {len : Nat} {i : Fin 9} (h : bucketFor len = some i) :
    len ≤ bucketSize i := by
  have h := List.find?_some h
  exact of_decide_eq_true h

theorem bucketFor_isSome {len : Nat} (h : len ≤ PAGE_SIZE) : ∃ i, bucketFor len = some i := by
  refine Option.isSome_iff_exists.mp (List.find?_isSome.mpr ⟨⟨8, by decide⟩, ?_, ?_⟩)
  · exact List.mem_finRange _
  · exact decide_eq_true h

/-- The places of a bucket are the multiples of its size in its page. -/
theorem mem_places_page {i : Fin 9} {p a : Nat} :
    a ∈ places (p * PAGE_SIZE) (bucketSize i) (PAGE_SIZE / bucketSize i) ↔
      a / PAGE_SIZE = p ∧ bucketSize i ∣ a := by
  obtain ⟨hpos, -, -, hdvd⟩ := bucketSize_spec i
  obtain ⟨n, hn⟩ := hdvd
  have hdiv : PAGE_SIZE / bucketSize i = n := by
    rw [show PAGE_SIZE = bucketSize i * n from hn]
    exact Nat.mul_div_cancel_left n (by omega)
  have hpage : PAGE_SIZE = bucketSize i * n := hn
  rw [mem_places, hdiv]
  constructor
  · rintro ⟨k, hk, rfl⟩
    refine ⟨?_, ?_⟩
    · have hlt : bucketSize i * k < PAGE_SIZE := by
        rw [hpage]
        exact Nat.mul_lt_mul_of_pos_left hk (by omega)
      rw [Nat.mul_comm p, Nat.mul_add_div (by decide), Nat.div_eq_of_lt hlt, Nat.add_zero]
    · refine (Nat.dvd_add_right ?_).mpr (Nat.dvd_mul_right ..)
      exact Dvd.dvd.mul_left ⟨n, hpage⟩ p
  · rintro ⟨rfl, q, rfl⟩
    refine ⟨q % n, Nat.mod_lt q ?_, ?_⟩
    · rcases Nat.eq_zero_or_pos n with rfl | hn0
      · exact absurd (hpage.trans (Nat.mul_zero _)) (by decide)
      · exact hn0
    · have hq : bucketSize i * q / PAGE_SIZE = q / n := by
        rw [hpage, Nat.mul_div_mul_left _ _ (by omega)]
      rw [hq, hpage, ← Nat.mul_assoc, Nat.mul_comm (q / n), Nat.mul_assoc, ← Nat.mul_add,
        Nat.mul_comm (q / n), Nat.div_add_mod]

/-! ## The invariant -/

/-- The pointers of the descriptors. -/
def nextPtr (m : Mem) (d : Nat) : Option Nat := ptr (next m d)

/-- Where the chains and the spare descriptors begin. -/
def Heap.heads (h : Heap) : Option (Fin 9) → Option Nat
  | none => ptr h.free_bucket_desc
  | some i => ptr (h.chain i)

/-- The descriptors lie in pages of their own, those of a chain have a bucket each, every
object is in one of these, and no page of the allocator is another's. No bucket but that of
`x` is empty. -/
structure Sound (s : State) (own : Option (Fin 9) → List Nat) (free : Nat → List Nat)
    (dpages : Finset Nat) (x : Option Nat) : Prop where
  forest : Forest (nextPtr s.heap.mem) s.heap.heads own
  desc : ∀ k, ∀ d ∈ own k, 16 ∣ d ∧ d / PAGE_SIZE ∈ dpages
  granted : ∀ p ∈ dpages, s.Granted p
  bucket : ∀ i, ∀ d ∈ own (some i), Bucket s i d (free d)
  other : ∀ i, ∀ d ∈ own (some i), page s.heap.mem d / PAGE_SIZE ∉ dpages
  pages : ∀ i j, ∀ d ∈ own (some i), ∀ e ∈ own (some j),
    page s.heap.mem d / PAGE_SIZE = page s.heap.mem e / PAGE_SIZE → d = e
  objects : ∀ o ∈ s.live, ∃ i, bucketFor (s.len o) = some i ∧ bucketSize i ∣ o ∧
    ∃ d ∈ own (some i), page s.heap.mem d / PAGE_SIZE = o / PAGE_SIZE
  unused : ∀ p, LOW_MEM ≤ p → s.heap.mem.memMap p = 0 → p < s.heap.mem.HIGH_MEMORY
  high : s.heap.mem.HIGH_MEMORY ≤ FRAMES
  used : ∀ i, ∀ d ∈ own (some i), x ≠ some d → 1 ≤ refcnt s.heap.mem d
  held : ∀ p ∈ s.held, LOW_MEM ≤ p ∧ p < s.heap.mem.HIGH_MEMORY ∧ s.heap.mem.memMap p = 1

variable {s s' : State} {own : Option (Fin 9) → List Nat} {free : Nat → List Nat}
  {dpages : Finset Nat} {x : Option Nat} {i : Fin 9} {d p : Nat} {l : List Nat}

theorem ptr_pos {a : Nat} (h : a ≠ 0) : ptr a = some a := if_neg h

theorem ptr_eq_some {a b : Nat} (h : ptr a = some b) : a = b ∧ b ≠ 0 := by
  unfold ptr at h
  split at h
  · cases h
  · obtain rfl := Option.some.inj h
    exact ⟨rfl, by assumption⟩

theorem ptr_eq_none {a : Nat} (h : ptr a = none) : a = 0 := by
  by_contra hne
  rw [ptr_pos hne] at h
  cases h

/-- The fields of a descriptor are those of its four words. -/
theorem fields_eq (h : ∀ j < 4, field m' d j = field m d j) :
    page m' d = page m d ∧ next m' d = next m d ∧ freeptr m' d = freeptr m d ∧
      refcnt m' d = refcnt m d ∧ bucket_size m' d = bucket_size m d := by
  refine ⟨h 0 (by omega), h 1 (by omega), h 2 (by omega), ?_, ?_⟩
  · exact congrArg (· % 0x10000) (h 3 (by omega))
  · exact congrArg (· / 0x10000) (h 3 (by omega))

/-- What a bucket is depends on its descriptor, on the links of its free objects, and on
what is allocated on its page. -/
theorem Bucket.congr (h : Bucket s i d l)
    (hfield : ∀ j < 4, field s'.heap.mem d j = field s.heap.mem d j)
    (hlink : ∀ a ∈ l, load s'.heap.mem a = load s.heap.mem a)
    (hgr : s.Granted (page s.heap.mem d / PAGE_SIZE) → s'.Granted (page s.heap.mem d / PAGE_SIZE))
    (hlive : ∀ a, a / PAGE_SIZE = page s.heap.mem d / PAGE_SIZE → (a ∈ s'.live ↔ a ∈ s.live)) :
    Bucket s' i d l := by
  obtain ⟨hpage, -, hptr, hcnt, hsize⟩ := fields_eq hfield
  constructor
  · rw [hpage]
    exact hgr h.granted
  · rw [hpage]
    exact h.aligned
  · rw [hsize]
    exact h.size
  · rw [hcnt, hpage, h.refcnt]
    refine congrArg Finset.card (Finset.ext fun a => ?_)
    simp only [State.onPage, Finset.mem_filter]
    exact and_congr_left fun ha => (hlive a ha).symm
  · rw [hptr]
    exact h.path.congr fun a ha => congrArg ptr (hlink a ha)
  · exact h.nodup
  · intro a
    rw [h.free a, hpage]
    exact and_congr_right fun ha => and_congr_right fun _ => not_congr (hlive a ha).symm

theorem Sound.frame_lt (h : Sound s own free dpages x) (hp : s.Granted p) : p < FRAMES :=
  Nat.lt_of_lt_of_le hp.2.1 h.high

/-- A page that the allocator has. -/
def Owned (s : State) (own : Option (Fin 9) → List Nat) (dpages : Finset Nat) (p : Nat) : Prop :=
  p ∈ dpages ∨ ∃ i, ∃ d ∈ own (some i), page s.heap.mem d / PAGE_SIZE = p

theorem Sound.owned (h : Sound s own free dpages x) (hp : Owned s own dpages p) :
    s.Granted p := by
  rcases hp with hp | ⟨i, d, hd, rfl⟩
  · exact h.granted p hp
  · exact (h.bucket i d hd).granted

/-- The page of a free object is that of its descriptor. -/
theorem Bucket.free_page (h : Bucket s i d l) {a : Nat} (ha : a ∈ l) :
    a / PAGE_SIZE = page s.heap.mem d / PAGE_SIZE :=
  ((h.free a).mp ha).1

/-- A change of the memory that leaves the descriptors and the links of free objects, and
the pages of the allocator. -/
theorem Sound.frame (h : Sound s own free dpages x) {held : Finset Nat}
    (hfield : ∀ k, ∀ d ∈ own k, ∀ j < 4, field m' d j = field s.heap.mem d j)
    (hlink : ∀ i, ∀ d ∈ own (some i), ∀ a ∈ free d, load m' a = load s.heap.mem a)
    (hgr : ∀ p, Owned s own dpages p → m'.memMap p = 1 ∧ p ∉ held)
    (hhigh : m'.HIGH_MEMORY = s.heap.mem.HIGH_MEMORY)
    (hunused : ∀ p, LOW_MEM ≤ p → m'.memMap p = 0 → p < s.heap.mem.HIGH_MEMORY)
    (hheld : ∀ p ∈ held, LOW_MEM ≤ p ∧ p < s.heap.mem.HIGH_MEMORY ∧ m'.memMap p = 1) :
    Sound ⟨{ s.heap with mem := m' }, s.live, s.len, held⟩ own free dpages x := by
  have hgranted : ∀ p, Owned s own dpages p →
      State.Granted ⟨{ s.heap with mem := m' }, s.live, s.len, held⟩ p := fun p hp => by
    obtain ⟨hlow, hlt, -, -⟩ := h.owned hp
    exact ⟨hlow, hhigh ▸ hlt, (hgr p hp).1, (hgr p hp).2⟩
  have hpage : ∀ k, ∀ d ∈ own k, page m' d = page s.heap.mem d := fun k d hd =>
    hfield k d hd 0 (by omega)
  constructor
  · exact h.forest.congr (fun k d hd => congrArg ptr (hfield k d hd 1 (by omega))) fun _ => rfl
  · exact h.desc
  · exact fun p hp => hgranted p (Or.inl hp)
  · intro i d hd
    exact (h.bucket i d hd).congr (hfield _ d hd) (hlink i d hd)
      (fun _ => hgranted _ (Or.inr ⟨i, d, hd, rfl⟩)) fun _ _ => Iff.rfl
  · intro i d hd
    dsimp only
    rw [hpage _ d hd]
    exact h.other i d hd
  · intro i j d hd e he heq
    dsimp only at heq
    rw [hpage _ d hd, hpage _ e he] at heq
    exact h.pages i j d hd e he heq
  · intro o ho
    obtain ⟨i, hi, hdvd, d, hd, heq⟩ := h.objects o ho
    refine ⟨i, hi, hdvd, d, hd, ?_⟩
    dsimp only
    rw [hpage _ d hd, heq]
  · intro p hlow h0
    dsimp only
    rw [hhigh]
    exact hunused p hlow h0
  · dsimp only
    rw [hhigh]
    exact h.high
  · intro i d hd hx
    exact (h.used i d hd hx).trans_eq (fields_eq (hfield _ d hd)).2.2.2.1.symm
  · intro p hp
    dsimp only
    rw [hhigh]
    exact hheld p hp

/-! ## Changes outside of the allocator -/

theorem desc_word {d j : Nat} (hd : 16 ∣ d) (hj : j < 4) :
    (d + 4 * j) / PAGE_SIZE = d / PAGE_SIZE := by
  unfold PAGE_SIZE
  omega

/-- A page of descriptors is no page of a bucket, and a page that is not the allocator's is
neither. -/
theorem Sound.page_ne (h : Sound s own free dpages x) (hp : ¬Owned s own dpages p)
    {k : Option (Fin 9)} (hd : d ∈ own k) : d / PAGE_SIZE ≠ p := fun e =>
  hp (Or.inl (e ▸ (h.desc k d hd).2))

theorem Sound.link_ne (h : Sound s own free dpages x) (hp : ¬Owned s own dpages p)
    (hd : d ∈ own (some i)) {a : Nat} (ha : a ∈ free d) : a / PAGE_SIZE ≠ p := fun e =>
  hp (Or.inr ⟨i, d, hd, by rw [← e, (h.bucket i d hd).free_page ha]⟩)

/-- A page that is not the allocator's is filled. -/
theorem Sound.outside (h : Sound s own free dpages x) (hp : ¬Owned s own dpages p)
    (hmap : m'.memMap = s.heap.mem.memMap) (hhigh : m'.HIGH_MEMORY = s.heap.mem.HIGH_MEMORY)
    (hload : ∀ a, a / PAGE_SIZE ≠ p → load m' a = load s.heap.mem a) :
    Sound { s with heap := { s.heap with mem := m' } } own free dpages x := by
  refine h.frame (fun k d hd j hj => hload _ ?_) (fun i d hd a ha => hload _ ?_) (fun q hq => ?_)
    hhigh ?_ ?_
  · rw [desc_word (h.desc k d hd).1 hj]
    exact h.page_ne hp hd
  · exact h.link_ne hp hd ha
  · rw [hmap]
    exact (h.owned hq).2.2
  · rw [hmap]
    exact h.unused
  · rw [hmap]
    exact h.held

/-- A new page is not the allocator's, and no one else's. -/
theorem Sound.fresh (h : Sound s own free dpages x) (hg : getFreePage s.heap.mem = some (p, m')) :
    Sound { s with heap := { s.heap with mem := m' } } own free dpages x ∧
      State.Granted { s with heap := { s.heap with mem := m' } } p ∧
      ¬Owned { s with heap := { s.heap with mem := m' } } own dpages p ∧
      m'.memMap = update s.heap.mem.memMap p 1 ∧
      ∀ a, a / PAGE_SIZE ≠ p → load m' a = load s.heap.mem a := by
  obtain ⟨hlow, -, h0, rfl⟩ := getFreePage_eq hg
  have hnot : ¬Owned s own dpages p := fun hp => by
    rw [(h.owned hp).2.2.1] at h0
    cases h0
  have hheld : p ∉ s.held := fun hp => by
    rw [(h.held p hp).2.2] at h0
    cases h0
  have hload : ∀ a, a / PAGE_SIZE ≠ p → load { s.heap.mem with
      phys := update s.heap.mem.phys p fun _ => 0
      memMap := update s.heap.mem.memMap p 1 } a = load s.heap.mem a := fun a ha => by
    have ha : a / 4096 ≠ p := ha
    unfold load
    dsimp only
    rw [update_of_ne ha]
  refine ⟨?_, ⟨hlow, h.unused p hlow h0, update_self .., hheld⟩, ?_, rfl, hload⟩
  rotate_left
  · rintro (hp | ⟨i, d, hd, heq⟩)
    · exact hnot (Or.inl hp)
    · refine hnot (Or.inr ⟨i, d, hd, ?_⟩)
      rw [← heq]
      refine congrArg (· / PAGE_SIZE) (hload _ ?_).symm
      rw [desc_word (h.desc _ d hd).1 (by omega)]
      exact h.page_ne hnot hd
  refine h.frame (fun k d hd j hj => hload _ ?_) (fun i d hd a ha => hload _ ?_) (fun q hq => ?_)
    rfl (fun q hlow' hq0 => ?_) fun q hq => ?_
  · rw [desc_word (h.desc k d hd).1 hj]
    exact h.page_ne hnot hd
  · exact h.link_ne hnot hd ha
  · have hne : q ≠ p := fun e => hnot (e ▸ hq)
    dsimp only
    rw [update_of_ne hne]
    exact (h.owned hq).2.2
  · rcases eq_or_ne q p with rfl | hne
    · exact h.unused q hlow h0
    · dsimp only at hq0
      rw [update_of_ne hne] at hq0
      exact h.unused q hlow' hq0
  · have hne : q ≠ p := fun e => hheld (e ▸ hq)
    dsimp only
    rw [update_of_ne hne]
    exact h.held q hq

/-- The rest of the kernel keeps a new page. -/
theorem Sound.take (h : Sound s own free dpages x) (hg : getFreePage s.heap.mem = some (p, m')) :
    Sound { s with heap := { s.heap with mem := m' }, held := insert p s.held } own free
      dpages x := by
  obtain ⟨hs, hgr, hnot, -, -⟩ := h.fresh hg
  refine hs.frame (fun _ _ _ _ _ => rfl) (fun _ _ _ _ _ => rfl) (fun q hq => ?_) rfl hs.unused
    fun q hq => ?_
  · obtain ⟨-, -, h1, hheld⟩ := hs.owned hq
    refine ⟨h1, fun hmem => ?_⟩
    rcases Finset.mem_insert.mp hmem with rfl | hmem
    · exact hnot hq
    · exact hheld hmem
  · rcases Finset.mem_insert.mp hq with rfl | hq
    · exact ⟨hgr.1, hgr.2.1, hgr.2.2.1⟩
    · exact hs.held q hq

theorem freePage_once {m : Mem} (hlow : LOW_MEM ≤ p) (hlt : p < m.HIGH_MEMORY)
    (h1 : m.memMap p = 1) :
    freePage m p = .ok { m with memMap := update m.memMap p 0 } := by
  unfold freePage
  rw [if_neg (Nat.not_lt_of_le hlow), if_neg (Nat.not_le_of_lt hlt), if_pos (by rw [h1]; decide),
    Mem.setCount, h1]

/-- The rest of the kernel gives back a page. -/
theorem Sound.give (h : Sound s own free dpages x) (hp : p ∈ s.held) :
    Sound { s with
      heap := { s.heap with mem :=
        { s.heap.mem with memMap := update s.heap.mem.memMap p 0 } }
      held := s.held.erase p } own free dpages x := by
  refine h.frame (fun _ _ _ _ _ => rfl) (fun _ _ _ _ _ => rfl) (fun q hq => ?_) rfl
    (fun q hlow h0 => ?_) fun q hq => ?_
  · obtain ⟨-, -, h1, hheld⟩ := h.owned hq
    have hne : q ≠ p := fun e => hheld (e ▸ hp)
    dsimp only
    rw [update_of_ne hne]
    exact ⟨h1, fun hmem => hheld (Finset.mem_of_mem_erase hmem)⟩
  · rcases eq_or_ne q p with rfl | hne
    · exact (h.held q hp).2.1
    · dsimp only at h0
      rw [update_of_ne hne] at h0
      exact h.unused q hlow h0
  · obtain ⟨hne, hq⟩ := Finset.mem_erase.mp hq
    dsimp only
    rw [update_of_ne hne]
    exact h.held q hq

/-! ## Objects and their places -/

/-- An object is aligned to the size of its bucket. -/
theorem Sound.object (h : Sound s own free dpages x) {o : Nat} (ho : o ∈ s.live) :
    ∃ i, s.size o = bucketSize i ∧ bucketSize i ∣ o ∧
      ∃ d ∈ own (some i), page s.heap.mem d / PAGE_SIZE = o / PAGE_SIZE := by
  obtain ⟨i, hi, hdvd, hd⟩ := h.objects o ho
  refine ⟨i, ?_, hdvd, hd⟩
  rw [State.size, hi]
  rfl

/-- The bytes of an object are in its page, and of the places of the page in no other. -/
theorem object_bytes {o a b : Nat} (hdvd : bucketSize i ∣ o) (hle : o ≤ b)
    (hlt : b < o + bucketSize i) (ha : bucketSize i ∣ a) (hne : a ≠ o) :
    b / PAGE_SIZE = o / PAGE_SIZE ∧ a / 4 ≠ b / 4 := by
  obtain ⟨h16, -, ⟨c, hc⟩, hpage⟩ := bucketSize_spec i
  obtain ⟨q, rfl⟩ := hdvd
  obtain ⟨r, rfl⟩ := ha
  constructor
  · obtain ⟨n, hn⟩ := hpage
    have hsize : PAGE_SIZE = bucketSize i * n := hn
    rw [hsize, ← Nat.div_div_eq_div_mul, ← Nat.div_div_eq_div_mul,
      Nat.mul_div_cancel_left q (by omega)]
    refine congrArg (· / n) ?_
    refine Nat.div_eq_of_lt_le ?_ ?_
    · rw [Nat.mul_comm]
      exact hle
    · rw [Nat.succ_mul, Nat.mul_comm q]
      exact hlt
  · rcases Nat.lt_or_gt_of_ne (fun e : r = q => hne (by rw [e])) with hlt' | hlt'
    · have := Nat.mul_le_mul_left (bucketSize i) hlt'
      rw [Nat.mul_succ] at this
      omega
    · have := Nat.mul_le_mul_left (bucketSize i) hlt'
      rw [Nat.mul_succ] at this
      have h16r : bucketSize i * r = 16 * (c * r) := by rw [hc, Nat.mul_assoc]
      omega

theorem Sound.storeObject (h : Sound s own free dpages x) {o a w : Nat} (ho : o ∈ s.live)
    (hle : o ≤ a) (hlt : a < o + s.size o) :
    Sound { s with heap := { s.heap with mem := store s.heap.mem a w } } own free dpages x := by
  obtain ⟨i, hsize, hdvd, d, hd, heq⟩ := h.object ho
  rw [hsize] at hlt
  have hpage : a / PAGE_SIZE = o / PAGE_SIZE := by
    obtain ⟨h16, -, -, -⟩ := bucketSize_spec i
    exact (object_bytes hdvd hle hlt (Nat.dvd_add hdvd (Nat.dvd_refl _)) (by omega)).1
  refine h.frame (fun k e he j hj => ?_) (fun j e he b hb => ?_) (fun q hq => (h.owned hq).2.2) rfl
    h.unused h.held
  · refine field_store_ne _ _ (h.desc k e he).1 hj fun e' => h.other i d hd ?_
    have heq' : page s.heap.mem d / PAGE_SIZE = e / PAGE_SIZE := by
      rw [heq, ← hpage]
      exact e'
    rw [heq']
    exact (h.desc k e he).2
  · rcases eq_or_ne (b / PAGE_SIZE) (o / PAGE_SIZE) with hbo | hbo
    · have hpages : page s.heap.mem d / PAGE_SIZE = page s.heap.mem e / PAGE_SIZE := by
        rw [heq, ← hbo, (h.bucket j e he).free_page hb]
      obtain rfl := h.pages i j d hd e he hpages
      obtain rfl : i = j := Option.some.inj (h.forest.disjoint hd he)
      obtain ⟨-, hbdvd, hblive⟩ := ((h.bucket i d hd).free b).mp hb
      have hne : b ≠ o := fun e => hblive (e ▸ ho)
      exact load_store_ne _ _ (object_bytes hdvd hle hlt hbdvd hne).2
    · refine load_store_ne _ _ fun e' => hbo ?_
      rw [← hpage]
      unfold PAGE_SIZE
      omega

/-! ## Descriptors -/

theorem Sound.desc_pos (h : Sound s own free dpages x) {k : Option (Fin 9)} (hd : d ∈ own k) :
    d ≠ 0 ∧ d < 2 ^ 32 := by
  obtain ⟨-, hpage⟩ := h.desc k d hd
  have hgr := h.granted _ hpage
  have hlow : LOW_MEM ≤ d / PAGE_SIZE := hgr.1
  have hlt := h.frame_lt hgr
  have hframes : FRAMES = 4096 := rfl
  have hmem : LOW_MEM = 256 := rfl
  unfold PAGE_SIZE at hlow hlt
  omega

theorem Sound.page_lt (h : Sound s own free dpages x) {q : Nat} (hq : s.Granted q) :
    q * PAGE_SIZE ≠ 0 ∧ q * PAGE_SIZE + PAGE_SIZE < 2 ^ 32 := by
  have hlow : LOW_MEM ≤ q := hq.1
  have hlt := h.frame_lt hq
  have hframes : FRAMES = 4096 := rfl
  have hmem : LOW_MEM = 256 := rfl
  unfold PAGE_SIZE
  omega

theorem Sound.heads_lt (h : Sound s own free dpages x) :
    s.heap.free_bucket_desc < 2 ^ 32 ∧ ∀ i, s.heap.chain i < 2 ^ 32 := by
  have hhead : ∀ k a, s.heap.heads k = ptr a → a < 2 ^ 32 := fun k a hk => by
    rcases eq_or_ne a 0 with rfl | hne
    · exact Nat.two_pow_pos 32
    · rw [ptr_pos hne] at hk
      exact (h.desc_pos ((h.forest.path k).head_mem hk)).2
  exact ⟨hhead none _ rfl, fun i => hhead (some i) _ rfl⟩

/-- A descriptor that is on no chain is filled. -/
theorem Sound.setSpare (h : Sound s own free dpages x) (hd : 16 ∣ d)
    (hpage : d / PAGE_SIZE ∈ dpages)
    (hnot : ∀ k, d ∉ own k) {j : Nat} (hj : j < 4) (w : Nat) :
    Sound { s with heap := { s.heap with mem := setField s.heap.mem d j w } } own free
      dpages x := by
  refine h.frame (fun k e he j' hj' => ?_) (fun i e he a ha => ?_)
    (fun q hq => (h.owned hq).2.2) rfl h.unused h.held
  · exact field_setField_ne _ _ hd (h.desc k e he).1 hj hj' (Or.inl fun e' => hnot k (e' ▸ he))
  · refine load_setField_ne _ _ hd hj fun e' => h.other i e he ?_
    rw [← (h.bucket i e he).free_page ha]
    exact e' ▸ hpage

theorem Sound.pop (h : Sound s own free dpages x) (hown : own none = d :: l) :
    Sound { s with heap := { s.heap with free_bucket_desc := next s.heap.mem d } }
        (update own none l) free dpages x ∧
      ∀ k, d ∉ update own none l k := by
  have hsome : ∀ i, update own none l (some i) = own (some i) := fun i =>
    update_of_ne (Option.some_ne_none i) ..
  have hmem : ∀ k, ∀ e ∈ update own none l k, e ∈ own k := fun k e he => by
    cases k with
    | none =>
        rw [update_self] at he
        rw [hown]
        exact List.mem_cons_of_mem _ he
    | some i => rwa [hsome] at he
  refine ⟨⟨?_, ?_, h.granted, ?_, ?_, ?_, ?_, h.unused, h.high, ?_, h.held⟩, ?_⟩
  · refine (h.forest.unlink_head hown).congr (fun _ _ _ => rfl) fun k => ?_
    cases k with
    | none => simp [Heap.heads, nextPtr]
    | some i => simp [Heap.heads]
  · exact fun k e he => h.desc k e (hmem k e he)
  · intro i e he
    rw [hsome] at he
    exact (h.bucket i e he).congr (fun _ _ => rfl) (fun _ _ => rfl) id fun _ _ => Iff.rfl
  · exact fun i e he => h.other i e (hmem _ e he)
  · exact fun i j e he e' he' => h.pages i j e (hmem _ e he) e' (hmem _ e' he')
  · intro o ho
    obtain ⟨i, hi, hdvd, e, he, heq⟩ := h.objects o ho
    exact ⟨i, hi, hdvd, e, by rwa [hsome], heq⟩
  · exact fun i e he => h.used i e (hmem _ e he)
  · intro k hk
    have hd : d ∈ own none := by
      rw [hown]
      exact List.mem_cons_self ..
    cases k with
    | none =>
        rw [update_self] at hk
        have hnd := h.forest.nodup none
        rw [hown] at hnd
        exact (List.nodup_cons.mp hnd).1 hk
    | some i =>
        rw [hsome] at hk
        exact Option.some_ne_none i (h.forest.disjoint hk hd)

/-- A descriptor whose bucket is ready is linked in. -/
theorem Sound.push (h : Sound s own free dpages none) (hd : 16 ∣ d) (hpage : d / PAGE_SIZE ∈ dpages)
    (hnot : ∀ k, d ∉ own k) (hb : Bucket s i d l)
    (hnew : ¬Owned s own dpages (page s.heap.mem d / PAGE_SIZE)) :
    Sound { s with heap := { s.heap with
        mem := setField s.heap.mem d 1 (s.heap.chain i)
        chain := update s.heap.chain i d } }
      (update own (some i) (d :: own (some i))) (update free d l) dpages (some d) := by
  have hset := h.setSpare hd hpage hnot (j := 1) (by omega) (s.heap.chain i)
  have hmem : ∀ k, ∀ e ∈ update own (some i) (d :: own (some i)) k,
      (k = some i ∧ e = d) ∨ e ∈ own k := fun k e he => by
    rcases eq_or_ne k (some i) with rfl | hne
    · rw [update_self] at he
      exact (List.mem_cons.mp he).imp (fun he => ⟨rfl, he⟩) id
    · rw [update_of_ne hne] at he
      exact Or.inr he
  have hfree : ∀ j, ∀ e ∈ own (some j), update free d l e = free e := fun j e he =>
    update_of_ne (fun e' : e = d => hnot (some j) (e' ▸ he)) ..
  have hd0 : d ≠ 0 := by
    have hlow : LOW_MEM ≤ d / PAGE_SIZE := (h.granted _ hpage).1
    rintro rfl
    rw [Nat.zero_div] at hlow
    exact absurd hlow (by decide)
  have hfield : ∀ j < 4, j ≠ 1 →
      field (setField s.heap.mem d 1 (s.heap.chain i)) d j = field s.heap.mem d j :=
    fun j hj hne => field_setField_ne _ _ hd hd (by omega) hj (Or.inr hne.symm)
  have hpaged : page (setField s.heap.mem d 1 (s.heap.chain i)) d = page s.heap.mem d :=
    hfield 0 (by omega) (by omega)
  refine ⟨?_, ?_, hset.granted, ?_, ?_, ?_, ?_, h.unused, h.high, ?_, h.held⟩
  · refine (h.forest.push (some i) (t := d) hnot).congr (fun k e he => ?_) fun k => ?_
    · have h16 : 16 ∣ e := by
        rcases hmem k e he with ⟨-, rfl⟩ | he
        · exact hd
        · exact (h.desc k e he).1
      unfold nextPtr next
      dsimp only
      rw [field_setField _ hd h16 (by omega) (by omega) (h.heads_lt.2 i)]
      rcases eq_or_ne e d with rfl | hne
      · rw [if_pos ⟨rfl, rfl⟩, update_self]
        rfl
      · rw [if_neg fun e' => hne e'.1.symm, update_of_ne hne]
    · cases k with
      | none => simp [Heap.heads]
      | some j =>
          rcases eq_or_ne j i with rfl | hne
          · simp [Heap.heads, ptr_pos hd0]
          · simp [Heap.heads, hne]
  · intro k e he
    rcases hmem k e he with ⟨-, rfl⟩ | he
    · exact ⟨hd, hpage⟩
    · exact h.desc k e he
  · intro j e he
    rcases hmem _ e he with ⟨hj, rfl⟩ | he
    · obtain rfl : j = i := Option.some.inj hj
      rw [update_self]
      have hnot' : ∀ a ∈ l, a / PAGE_SIZE ≠ e / PAGE_SIZE := fun a ha e' => hnew <| Or.inl <| by
        rw [← hb.free_page ha, e']
        exact hpage
      constructor
      · dsimp only
        rw [hpaged]
        exact hb.granted
      · dsimp only
        rw [hpaged]
        exact hb.aligned
      · exact (congrArg (· / 0x10000) (hfield 3 (by omega) (by omega))).trans hb.size
      · refine (congrArg (· % 0x10000) (hfield 3 (by omega) (by omega))).trans ?_
        dsimp only
        rw [hpaged]
        exact hb.refcnt
      · have hptr : freeptr (setField s.heap.mem e 1 (s.heap.chain j)) e = freeptr s.heap.mem e :=
          hfield 2 (by omega) (by omega)
        dsimp only
        rw [hptr]
        exact hb.path.congr fun a ha =>
          congrArg ptr (load_setField_ne _ _ hd (by omega) (hnot' a ha))
      · exact hb.nodup
      · dsimp only
        rw [hpaged]
        exact hb.free
    · rw [hfree j e he]
      exact (hset.bucket j e he).congr (fun _ _ => rfl) (fun _ _ => rfl) id fun _ _ => Iff.rfl
  · intro j e he
    rcases hmem _ e he with ⟨-, rfl⟩ | he
    · dsimp only
      rw [hpaged]
      exact fun hp => hnew (Or.inl hp)
    · exact hset.other j e he
  · intro j j' e he e' he' heq
    dsimp only at heq
    have hold : ∀ j, ∀ e ∈ own (some j),
        page (setField s.heap.mem d 1 (s.heap.chain i)) e = page s.heap.mem e := fun j e he =>
      field_setField_ne _ _ hd (h.desc _ e he).1 (by omega) (by omega) (Or.inr (by omega))
    rcases hmem _ e he with ⟨-, hed⟩ | he₁
    · rcases hmem _ e' he' with ⟨-, hed'⟩ | he₁'
      · exact hed.trans hed'.symm
      · rw [hed, hpaged, hold j' e' he₁'] at heq
        exact absurd (Or.inr ⟨j', e', he₁', heq.symm⟩) hnew
    · rcases hmem _ e' he' with ⟨-, hed'⟩ | he₁'
      · rw [hed', hpaged, hold j e he₁] at heq
        exact absurd (Or.inr ⟨j, e, he₁, heq⟩) hnew
      · exact hset.pages j j' e he₁ e' he₁' heq
  · intro o ho
    obtain ⟨j, hj, hdvd, e, he, heq⟩ := hset.objects o ho
    refine ⟨j, hj, hdvd, e, ?_, heq⟩
    rcases eq_or_ne j i with rfl | hne
    · rw [update_self]
      exact List.mem_cons_of_mem _ he
    · rwa [update_of_ne fun e' => hne (Option.some.inj e')]
  · intro j e he hne
    rcases hmem _ e he with ⟨-, rfl⟩ | he
    · exact absurd rfl hne
    · exact hset.used j e he (Option.some_ne_none e).symm

/-! ## A new bucket -/

theorem load_lt (m : Mem) (a : Nat) : load m a < 2 ^ 32 := BitVec.isLt _

theorem bucket_size_lt (m : Mem) (d : Nat) : bucket_size m d < 0x10000 :=
  Nat.div_lt_of_lt_mul (load_lt m _)

theorem setRefcnt_self (m : Mem) (hd : 16 ∣ d) (n : Nat) :
    refcnt (setRefcnt m d n) d = n % 0x10000 ∧
      bucket_size (setRefcnt m d n) d = bucket_size m d := by
  have hsize := bucket_size_lt m d
  have hcnt := Nat.mod_lt n (show 0 < 0x10000 by decide)
  unfold setRefcnt refcnt bucket_size at *
  rw [field_setField_self m hd (by omega) (by omega)]
  omega

theorem setBucketSize_self (m : Mem) (hd : 16 ∣ d) (n : Nat) :
    refcnt (setBucketSize m d n) d = refcnt m d ∧
      bucket_size (setBucketSize m d n) d = n % 0x10000 := by
  have hcnt := Nat.mod_lt (field m d 3) (show 0 < 0x10000 by decide)
  have hsize := Nat.mod_lt n (show 0 < 0x10000 by decide)
  unfold setBucketSize refcnt bucket_size at *
  rw [field_setField_self m hd (by omega) (by omega)]
  omega

theorem thread_maps (m : Mem) (base off stride n last : Nat) :
    (thread m base off stride n last).memMap = m.memMap ∧
      (thread m base off stride n last).HIGH_MEMORY = m.HIGH_MEMORY := by
  have hfold : ∀ (l : List Nat) (m : Mem),
      (l.foldl (fun m k => store m (base + stride * k + off) (base + stride * (k + 1))) m).memMap
        = m.memMap ∧
      (l.foldl (fun m k => store m (base + stride * k + off) (base + stride * (k + 1)))
        m).HIGH_MEMORY = m.HIGH_MEMORY := by
    intro l
    induction l with
    | nil => exact fun m => ⟨rfl, rfl⟩
    | cons k l ih => exact fun m => ih _
  exact hfold _ m

/-- The words that a thread stores lie in its page. -/
theorem thread_page {q off stride n last : Nat} (hs : 4 ≤ stride) (hs4 : 4 ∣ stride)
    (hn : 1 ≤ n) (hend : stride * n ≤ PAGE_SIZE) (hoff : off + 4 ≤ stride) (m : Mem)
    (hlt : q * PAGE_SIZE + PAGE_SIZE < 2 ^ 32) (hlast : last < 2 ^ 32) {a : Nat}
    (ha : a / PAGE_SIZE ≠ q) : load (thread m (q * PAGE_SIZE) off stride n last) a = load m a := by
  refine (thread_load _ _ hs hs4 hn m (by omega) hlast).2.2 a fun k hk e => ha ?_
  have hmul : stride * (k + 1) ≤ stride * n := Nat.mul_le_mul_left _ hk
  rw [Nat.mul_succ] at hmul
  unfold PAGE_SIZE at *
  omega

theorem Sound.addDescs (h : Sound s own free dpages x) (hown : own none = [])
    (hnull : s.heap.free_bucket_desc = 0) (hg : getFreePage s.heap.mem = some (p, m')) :
    Sound { s with heap := { s.heap with
        mem := thread m' (p * PAGE_SIZE) 4 DESC_SIZE (PAGE_SIZE / DESC_SIZE)
          s.heap.free_bucket_desc
        free_bucket_desc := p * PAGE_SIZE } }
      (update own none (places (p * PAGE_SIZE) 16 256)) free (insert p dpages) x := by
  obtain ⟨hs, hgr, hnot, -, -⟩ := h.fresh hg
  obtain ⟨hpos, hlt⟩ := hs.page_lt hgr
  have hdesc : PAGE_SIZE = 16 * 256 := rfl
  obtain ⟨hmap, hhigh⟩ := thread_maps m' (p * PAGE_SIZE) 4 16 256 0
  have h256 : PAGE_SIZE / DESC_SIZE = 256 := by decide
  have h16 : DESC_SIZE = 16 := rfl
  obtain ⟨hin, hend, -⟩ := thread_load (p * PAGE_SIZE) 4 (show 4 ≤ 16 by omega)
    (show 4 ∣ 16 by omega) (show 1 ≤ 256 by omega) m' (by omega) (Nat.two_pow_pos 32)
  have hout := hs.outside hnot hmap hhigh fun a ha => thread_page (by omega) (by omega)
    (by omega) (Nat.le_of_eq hdesc.symm) (by omega) m' hlt (by omega) ha
  rw [hnull, h256, h16]
  have hmem : ∀ d ∈ places (p * PAGE_SIZE) 16 256, 16 ∣ d ∧ d / PAGE_SIZE = p := by
    intro d hd
    obtain ⟨k, hk, rfl⟩ := mem_places.mp hd
    unfold PAGE_SIZE
    omega
  have hnotin : p ∉ dpages := fun hp => hnot (Or.inl hp)
  have hsome : ∀ i, update own none (places (p * PAGE_SIZE) 16 256) (some i) = own (some i) :=
    fun i => update_of_ne (Option.some_ne_none i) ..
  refine ⟨?_, ?_, ?_, ?_, ?_, ?_, ?_, hout.unused, hout.high, ?_, hout.held⟩
  · have hpath : Path (nextPtr (thread m' (p * PAGE_SIZE) 4 16 256 0)) (ptr (p * PAGE_SIZE))
        (places (p * PAGE_SIZE) 16 256 ++ []) :=
      path_places (by omega) (by omega) (fun k hk => congrArg ptr (hin k hk))
        (congrArg ptr hend) rfl
    rw [List.append_nil] at hpath
    refine (hout.forest.put hown hpath (places_nodup (by omega)) fun k d hd hk => ?_).congr
      (fun _ _ _ => rfl) fun k => ?_
    · exact hnotin ((hmem d hd).2 ▸ (hout.desc k d hk).2)
    · cases k with
      | none => simp [Heap.heads]
      | some i => simp [Heap.heads]
  · intro k d hd
    cases k with
    | none =>
        rw [update_self] at hd
        exact ⟨(hmem d hd).1, by rw [(hmem d hd).2]; exact Finset.mem_insert_self ..⟩
    | some i =>
        rw [hsome] at hd
        exact (hout.desc _ d hd).imp_right (Finset.mem_insert_of_mem)
  · intro q hq
    rcases Finset.mem_insert.mp hq with rfl | hq
    · have hlt' := hgr.2.1.trans_eq hhigh.symm
      exact ⟨hgr.1, hlt', (congrFun hmap q).trans hgr.2.2.1, hgr.2.2.2⟩
    · exact hout.granted q hq
  · intro i d hd
    rw [hsome] at hd
    exact (hout.bucket i d hd).congr (fun _ _ => rfl) (fun _ _ => rfl) id fun _ _ => Iff.rfl
  · intro i d hd hp
    rw [hsome] at hd
    rcases Finset.mem_insert.mp hp with hp | hp
    · refine hnot (Or.inr ⟨i, d, hd, ?_⟩)
      rw [← hp]
      refine congrArg (· / PAGE_SIZE) (Eq.symm ?_)
      refine thread_page (by omega) (by omega) (by omega) (Nat.le_of_eq hdesc.symm) (by omega)
        m' hlt (by omega) ?_
      rw [desc_word (hs.desc _ d hd).1 (by omega)]
      exact hs.page_ne hnot hd
    · exact hout.other i d hd hp
  · intro i j d hd e he
    rw [hsome] at hd he
    exact hout.pages i j d hd e he
  · intro o ho
    obtain ⟨i, hi, hdvd, d, hd, heq⟩ := hout.objects o ho
    exact ⟨i, hi, hdvd, d, by rwa [hsome], heq⟩
  · intro i d hd
    rw [hsome] at hd
    exact hout.used i d hd

theorem bucketSize_mul (i : Fin 9) : 1 ≤ PAGE_SIZE / bucketSize i ∧
    bucketSize i * (PAGE_SIZE / bucketSize i) = PAGE_SIZE := by
  revert i
  decide

theorem fillBucket_memMap (m : Mem) (d cp size : Nat) :
    (fillBucket m d cp size).memMap = m.memMap :=
  (thread_maps (setField (setField m d 2 cp) d 0 cp) cp 0 size (PAGE_SIZE / size) 0).1

/-- A descriptor that points to its page, and the free objects there. -/
theorem fillBucket_spec (m : Mem) (i : Fin 9) (hd : 16 ∣ d) (hne : d / PAGE_SIZE ≠ p)
    (hpos : p * PAGE_SIZE ≠ 0) (hlt : p * PAGE_SIZE + PAGE_SIZE < 2 ^ 32) :
    page (fillBucket m d (p * PAGE_SIZE) (bucketSize i)) d = p * PAGE_SIZE ∧
    freeptr (fillBucket m d (p * PAGE_SIZE) (bucketSize i)) d = p * PAGE_SIZE ∧
    field (fillBucket m d (p * PAGE_SIZE) (bucketSize i)) d 3 = field m d 3 ∧
    Path (fun a => ptr (load (fillBucket m d (p * PAGE_SIZE) (bucketSize i)) a))
      (ptr (p * PAGE_SIZE)) (places (p * PAGE_SIZE) (bucketSize i) (PAGE_SIZE / bucketSize i)) := by
  obtain ⟨hsize, -, hdvd16, -⟩ := bucketSize_spec i
  obtain ⟨hn, hmul⟩ := bucketSize_mul i
  have h4 : 4 ∣ bucketSize i := Nat.dvd_trans (by decide) hdvd16
  have hw : p * PAGE_SIZE < 2 ^ 32 := by omega
  have hfield : ∀ j < 4, field (fillBucket m d (p * PAGE_SIZE) (bucketSize i)) d j
      = field (setField (setField m d 2 (p * PAGE_SIZE)) d 0 (p * PAGE_SIZE)) d j := fun j hj =>
    thread_page (by omega) h4 hn (Nat.le_of_eq hmul) (by omega) _ hlt (Nat.two_pow_pos 32)
      (by rw [desc_word hd hj]; exact hne)
  refine ⟨?_, ?_, ?_, ?_⟩
  · exact (hfield 0 (by omega)).trans (field_setField_self _ hd (by omega) hw)
  · exact (hfield 2 (by omega)).trans <|
      (field_setField_ne _ _ hd hd (by omega) (by omega) (Or.inr (by omega))).trans
        (field_setField_self m hd (by omega) hw)
  · rw [hfield 3 (by omega), field_setField_ne _ _ hd hd (by omega) (by omega)
      (Or.inr (by omega)), field_setField_ne _ _ hd hd (by omega) (by omega) (Or.inr (by omega))]
  · obtain ⟨hin, hend, -⟩ := thread_load (p * PAGE_SIZE) 0 (by omega) h4 hn
      (setField (setField m d 2 (p * PAGE_SIZE)) d 0 (p * PAGE_SIZE))
      (by rw [hmul]; exact hlt) (Nat.two_pow_pos 32)
    simp only [Nat.add_zero] at hin hend
    rw [← List.append_nil (places ..)]
    exact path_places hn (Nat.one_le_iff_ne_zero.mpr hpos) (fun k hk => congrArg ptr (hin k hk))
      (congrArg ptr hend) (path_nil.mpr rfl)

/-- With a page that is not the allocator's, a descriptor that is on no chain is made that of
an empty bucket. -/
theorem Sound.fillBucket (h : Sound s own free dpages x) (h16 : 16 ∣ d)
    (hpage : d / PAGE_SIZE ∈ dpages) (hnot : ∀ k, d ∉ own k) (hgr : s.Granted p)
    (hp : ¬Owned s own dpages p) (hcnt : refcnt s.heap.mem d = 0)
    (hsize : bucket_size s.heap.mem d = bucketSize i) :
    let m := Malloc.fillBucket s.heap.mem d (p * PAGE_SIZE) (bucketSize i)
    Sound { s with heap := { s.heap with mem := m } } own free dpages x ∧
    Bucket { s with heap := { s.heap with mem := m } } i d
      (places (p * PAGE_SIZE) (bucketSize i) (PAGE_SIZE / bucketSize i)) ∧
    ¬Owned { s with heap := { s.heap with mem := m } } own dpages (page m d / PAGE_SIZE) := by
  intro m
  obtain ⟨hpos, hlt⟩ := h.page_lt hgr
  have hne : d / PAGE_SIZE ≠ p := fun e => hp (Or.inl (e ▸ hpage))
  obtain ⟨hsize16, -, hdvd16, -⟩ := bucketSize_spec i
  obtain ⟨hn, hmul⟩ := bucketSize_mul i
  have h4 : 4 ∣ bucketSize i := Nat.dvd_trans (by decide) hdvd16
  let m₂ := setField (setField s.heap.mem d 2 (p * PAGE_SIZE)) d 0 (p * PAGE_SIZE)
  have h₁ := h.setSpare h16 hpage hnot (j := 2) (by omega) (p * PAGE_SIZE)
  have h₂ := h₁.setSpare h16 hpage hnot (j := 0) (by omega) (p * PAGE_SIZE)
  have hfield : ∀ k, ∀ e ∈ own k, ∀ j < 4, field m₂ e j = field s.heap.mem e j := by
    intro k e he j hj
    have hde : d ≠ e := fun e' => hnot k (e' ▸ he)
    have h16' := (h.desc k e he).1
    exact (field_setField_ne _ _ h16 h16' (by omega) hj (Or.inl hde)).trans
      (field_setField_ne _ _ h16 h16' (by omega) hj (Or.inl hde))
  have hp₂ : ¬Owned { s with heap := { s.heap with mem := m₂ } } own dpages p := by
    rintro (hp' | ⟨j, e, he, heq⟩)
    · exact hp (Or.inl hp')
    · refine hp (Or.inr ⟨j, e, he, ?_⟩)
      rw [← heq]
      exact congrArg (· / PAGE_SIZE) (hfield _ e he 0 (by omega)).symm
  have hload : ∀ a, a / PAGE_SIZE ≠ p → load m a = load m₂ a := fun a ha =>
    thread_page (by omega) h4 hn (Nat.le_of_eq hmul) (by omega) _ hlt (Nat.two_pow_pos 32) ha
  obtain ⟨hmap, hhigh⟩ := thread_maps m₂ (p * PAGE_SIZE) 0 (bucketSize i)
    (PAGE_SIZE / bucketSize i) 0
  have h₃ : Sound { s with heap := { s.heap with mem := m } } own free dpages x :=
    h₂.outside hp₂ hmap hhigh hload
  obtain ⟨hpg, hptr, hcount, hpath⟩ := fillBucket_spec s.heap.mem i h16 hne hpos hlt
  have hdiv : page m d / PAGE_SIZE = p := by
    rw [hpg]
    exact Nat.mul_div_cancel p (by decide)
  have hempty : ∀ o ∈ s.live, o / PAGE_SIZE ≠ p := fun o ho e => by
    obtain ⟨j, -, -, e', he', heq⟩ := h.objects o ho
    exact hp (Or.inr ⟨j, e', he', heq.trans e⟩)
  refine ⟨h₃, ?_, ?_⟩
  · constructor
    · dsimp only
      rw [hdiv]
      exact ⟨hgr.1, hgr.2.1.trans_eq hhigh.symm, (congrFun hmap p).trans hgr.2.2.1, hgr.2.2.2⟩
    · exact ⟨p, hpg.trans (Nat.mul_comm ..)⟩
    · exact (congrArg (· / 0x10000) hcount).trans hsize
    · refine (congrArg (· % 0x10000) hcount).trans (hcnt.trans ?_)
      dsimp only
      rw [hdiv, State.onPage, Finset.filter_false_of_mem hempty]
      rfl
    · dsimp only
      rw [hptr]
      exact hpath
    · exact places_nodup (by omega)
    · intro a
      dsimp only
      rw [hdiv, mem_places_page]
      exact and_congr_right fun ha => ⟨fun hi => ⟨hi, fun hlive => hempty a hlive ha⟩, And.left⟩
  · rw [hdiv]
    rintro (hp' | ⟨j, e, he, heq⟩)
    · exact hp (Or.inl hp')
    · refine hp₂ (Or.inr ⟨j, e, he, ?_⟩)
      rw [← heq]
      refine congrArg (· / PAGE_SIZE) (hload _ ?_).symm
      rw [desc_word (h.desc _ e he).1 (by omega)]
      exact h.page_ne hp he

/-- The first spare descriptor becomes that of a bucket with a new page. -/
theorem Sound.addBucket (h : Sound s own free dpages none) (hown : own none = d :: l)
    (hg : getFreePage (setBucketSize (setRefcnt s.heap.mem d 0) d (bucketSize i)) = some (p, m')) :
    Sound { s with heap := {
        mem := setField (Malloc.fillBucket m' d (p * PAGE_SIZE) (bucketSize i)) d 1
          (s.heap.chain i)
        chain := update s.heap.chain i d
        free_bucket_desc := next s.heap.mem d } }
      (update (update own none l) (some i) (d :: own (some i)))
      (update free d (places (p * PAGE_SIZE) (bucketSize i) (PAGE_SIZE / bucketSize i)))
      dpages (some d) := by
  have hd : d ∈ own none := by
    rw [hown]
    exact List.mem_cons_self ..
  obtain ⟨h16, hpage⟩ := h.desc none d hd
  obtain ⟨hpop, hnot⟩ := h.pop hown
  have h₁ := hpop.setSpare h16 hpage hnot (j := 3) (by omega)
    (0 % 0x10000 + bucket_size s.heap.mem d * 0x10000)
  have h₂ := h₁.setSpare h16 hpage hnot (j := 3) (by omega)
    (refcnt (setRefcnt s.heap.mem d 0) d + bucketSize i % 0x10000 * 0x10000)
  obtain ⟨h₃, hgr, hp₃, -, hload⟩ := h₂.fresh hg
  have hcount : field m' d 3
      = field (setBucketSize (setRefcnt s.heap.mem d 0) d (bucketSize i)) d 3 := by
    refine hload _ ?_
    rw [desc_word h16 (by omega)]
    exact fun e => hp₃ (Or.inl (e ▸ hpage))
  obtain ⟨hcnt, hsize⟩ := setBucketSize_self (setRefcnt s.heap.mem d 0) h16 (bucketSize i)
  have hle := (bucketSize_spec i).2.1
  have hcnt' : refcnt m' d = 0 := by
    have hzero := (setRefcnt_self s.heap.mem h16 0).1
    rw [Nat.zero_mod] at hzero
    exact (congrArg (· % 0x10000) hcount).trans (hcnt.trans hzero)
  have hsize' : bucket_size m' d = bucketSize i := by
    rw [Nat.mod_eq_of_lt (by omega)] at hsize
    exact (congrArg (· / 0x10000) hcount).trans hsize
  obtain ⟨h₄, hbucket, hp₄⟩ := h₃.fillBucket h16 hpage hnot hgr hp₃ hcnt' hsize'
  have hpush := h₄.push h16 hpage hnot hbucket hp₄
  have hsome : update own none l (some i) = own (some i) :=
    update_of_ne (Option.some_ne_none i) ..
  rw [hsome] at hpush
  exact hpush

/-! ## Walks along the chains -/

theorem findFree_spec {n : Nat} : ∀ {l : List Nat} {b : Nat}, Path (nextPtr m) (ptr b) l →
    l.length < n → ∃ r, findFree m n b = .ok r ∧ (r ≠ 0 → r ∈ l ∧ freeptr m r ≠ 0) := by
  induction n with
  | zero => exact fun _ hlt => absurd hlt (Nat.not_lt_zero _)
  | succ n ih =>
      intro l b hl hlt
      cases l with
      | nil =>
          have hb := ptr_eq_none (path_nil.mp hl)
          exact ⟨0, by rw [findFree, if_pos hb], fun h => absurd rfl h⟩
      | cons d l =>
          obtain ⟨hb, hl⟩ := hl
          obtain ⟨rfl, hb0⟩ := ptr_eq_some hb
          rw [findFree, if_neg hb0]
          by_cases hf : freeptr m b ≠ 0
          · exact ⟨b, by rw [if_pos hf], fun _ => ⟨List.mem_cons_self .., hf⟩⟩
          · obtain ⟨r, hr, hrl⟩ := ih hl (Nat.lt_of_succ_lt_succ hlt)
            exact ⟨r, by rw [if_neg hf, hr], fun h0 =>
              (hrl h0).imp_left (List.mem_cons_of_mem b)⟩

theorem findPage_none {n pg : Nat} : ∀ {l : List Nat} (prev : Nat) {b : Nat},
    Path (nextPtr m) (ptr b) l → l.length < n → (∀ e ∈ l, page m e ≠ pg) →
      findPage m pg n prev b = .ok none := by
  induction n with
  | zero =>
      intro l prev b _ hlt
      exact absurd hlt (Nat.not_lt_zero _)
  | succ n ih =>
      intro l prev b hl hlt hne
      cases l with
      | nil => rw [findPage, if_pos (ptr_eq_none (path_nil.mp hl))]
      | cons d l =>
          obtain ⟨hb, hl⟩ := hl
          obtain ⟨rfl, hb0⟩ := ptr_eq_some hb
          rw [findPage, if_neg hb0, if_neg (hne b (List.mem_cons_self ..))]
          exact ih b hl (Nat.lt_of_succ_lt_succ hlt) fun e he =>
            hne e (List.mem_cons_of_mem b he)

theorem findPage_some {n pg : Nat} : ∀ {l₁ l₂ : List Nat} (prev : Nat) {b : Nat},
    Path (nextPtr m) (ptr b) (l₁ ++ d :: l₂) → (l₁ ++ d :: l₂).length < n →
      (∀ e ∈ l₁, page m e ≠ pg) → page m d = pg →
        findPage m pg n prev b = .ok (some (d, l₁.getLastD prev)) := by
  induction n with
  | zero =>
      intro l₁ l₂ prev b _ hlt
      exact absurd hlt (Nat.not_lt_zero _)
  | succ n ih =>
      intro l₁ l₂ prev b hl hlt hne hd
      cases l₁ with
      | nil =>
          obtain ⟨hb, -⟩ := hl
          obtain ⟨rfl, hb0⟩ := ptr_eq_some hb
          rw [findPage, if_neg hb0, if_pos hd]
          rfl
      | cons e l₁ =>
          obtain ⟨hb, hl⟩ := hl
          obtain ⟨rfl, hb0⟩ := ptr_eq_some hb
          rw [findPage, if_neg hb0, if_neg (hne b (List.mem_cons_self ..)), List.getLastD_cons]
          exact ih b hl (Nat.lt_of_succ_lt_succ hlt)
            (fun e he => hne e (List.mem_cons_of_mem b he)) hd

/-- A chain is not longer than there are pages. -/
theorem Sound.length_lt (h : Sound s own free dpages x) (i : Fin 9) :
    (own (some i)).length < FRAMES + 1 := by
  have hnd : ((own (some i)).map fun d => page s.heap.mem d / PAGE_SIZE).Nodup :=
    (h.forest.nodup (some i)).map_on fun d hd e he => h.pages i i d hd e he
  have hsub : ((own (some i)).map fun d => page s.heap.mem d / PAGE_SIZE) ⊆
      List.range FRAMES := fun q hq => by
    obtain ⟨d, hd, rfl⟩ := List.mem_map.mp hq
    exact List.mem_range.mpr (h.frame_lt (h.bucket i d hd).granted)
  have hle := (hnd.subperm hsub).length_le
  rw [List.length_map, List.length_range] at hle
  exact Nat.lt_succ_of_le hle

/-- The search of `free_s` ends at the descriptor of the page, whatever size it is given. -/
theorem Sound.search (h : Sound s own free dpages x) {size : Int} {l₁ l₂ : List Nat}
    (hown : own (some i) = l₁ ++ d :: l₂) (hsize : size ≤ bucketSize i) :
    ∀ {bdirs : List (Fin 9)}, i ∈ bdirs →
      Malloc.search s.heap (page s.heap.mem d) size bdirs = .ok (some (i, d, l₁.getLastD 0)) := by
  have hd : d ∈ own (some i) := by simp [hown]
  have hother : ∀ j, ∀ e ∈ own (some j), e ≠ d →
      page s.heap.mem e ≠ page s.heap.mem d := fun j e he hne heq =>
    hne (h.pages j i e he d hd (by rw [heq]))
  intro bdirs
  induction bdirs with
  | nil => exact fun hi => (List.not_mem_nil hi).elim
  | cons j bdirs ih =>
      intro hi
      rw [Malloc.search]
      rcases eq_or_ne i j with rfl | hne
      · have hnd := h.forest.nodup (some i)
        rw [hown, List.nodup_append] at hnd
        have hfind := findPage_some 0 (hown ▸ h.forest.path (some i))
          (hown ▸ h.length_lt i) (fun e he => hother i e (by simp [hown, he])
            (hnd.2.2 e he d (List.mem_cons_self ..))) rfl
        rw [if_neg (Int.not_lt.mpr hsize), hfind]
        rfl
      · have hi := (List.mem_cons.mp hi).resolve_left hne
        have hfind := findPage_none 0 (h.forest.path (some j)) (h.length_lt j)
          fun e he => hother j e he fun e' => hne <| by
            subst e'
            exact (Option.some.inj (h.forest.disjoint hd he))
        split
        · exact ih hi
        · rw [hfind]
          exact ih hi

/-! ## Objects come and go -/

/-- A change in one bucket: two fields of its descriptor, words of its page, and what is
allocated there. -/
theorem Sound.ofBucket (h : Sound s own free dpages x) (hd : d ∈ own (some i))
    {live : Finset Nat} {len : Nat → Nat} {x' : Option Nat}
    (hload : ∀ a, a / PAGE_SIZE ≠ page s.heap.mem d / PAGE_SIZE → a / 4 ≠ (d + 8) / 4 →
      a / 4 ≠ (d + 12) / 4 → load m' a = load s.heap.mem a)
    (hmap : m'.memMap = s.heap.mem.memMap) (hhigh : m'.HIGH_MEMORY = s.heap.mem.HIGH_MEMORY)
    (hlive : ∀ a, a / PAGE_SIZE ≠ page s.heap.mem d / PAGE_SIZE → (a ∈ live ↔ a ∈ s.live))
    (hobj : ∀ o ∈ live, ∃ i, bucketFor (len o) = some i ∧ bucketSize i ∣ o ∧
      ∃ e ∈ own (some i), page s.heap.mem e / PAGE_SIZE = o / PAGE_SIZE)
    (hb : Bucket ⟨{ s.heap with mem := m' }, live, len, s.held⟩ i d l)
    (hx : ∀ e, x' ≠ some e → e ≠ d → x ≠ some e) (hx' : x' ≠ some d → 1 ≤ refcnt m' d) :
    Sound ⟨{ s.heap with mem := m' }, live, len, s.held⟩ own (update free d l) dpages x' := by
  obtain ⟨h16, -⟩ := h.desc _ d hd
  have hdesc : ∀ k, ∀ e ∈ own k, ∀ j < 4, (e ≠ d ∨ j < 2) →
      field m' e j = field s.heap.mem e j := by
    intro k e he j hj hor
    obtain ⟨h16', hpage⟩ := h.desc k e he
    refine hload _ ?_ (by omega) (by omega)
    rw [desc_word h16' hj]
    exact fun e' => h.other i d hd (e' ▸ hpage)
  have hpage : ∀ k, ∀ e ∈ own k, page m' e = page s.heap.mem e := fun k e he =>
    hdesc k e he 0 (by omega) (Or.inr (by omega))
  have hgranted : ∀ p, s.Granted p →
      State.Granted ⟨{ s.heap with mem := m' }, live, len, s.held⟩ p := fun p hp =>
    ⟨hp.1, hp.2.1.trans_eq hhigh.symm, (congrFun hmap p).trans hp.2.2.1, hp.2.2.2⟩
  constructor
  · exact h.forest.congr
      (fun k e he => congrArg ptr (hdesc k e he 1 (by omega) (Or.inr (by omega)))) fun _ => rfl
  · exact h.desc
  · exact fun p hp => hgranted p (h.granted p hp)
  · intro j e he
    rcases eq_or_ne e d with rfl | hne
    · obtain rfl : j = i := Option.some.inj (h.forest.disjoint he hd)
      rw [update_self]
      exact hb
    · rw [update_of_ne hne]
      have hpages : page s.heap.mem e / PAGE_SIZE ≠ page s.heap.mem d / PAGE_SIZE := fun e' =>
        hne (h.pages j i e he d hd e')
      refine (h.bucket j e he).congr (fun k hk => hdesc _ e he k hk (Or.inl hne)) ?_
        (hgranted _) fun a ha => hlive a (ha ▸ hpages)
      intro a ha
      have hap := (h.bucket j e he).free_page ha
      have hnot : a / PAGE_SIZE ≠ d / PAGE_SIZE := fun e' => h.other j e he <| by
        rw [← hap, e']
        exact (h.desc _ d hd).2
      have h4096 : PAGE_SIZE = 4096 := rfl
      rw [h4096] at hnot
      exact hload a (hap ▸ hpages) (by omega) (by omega)
  · intro j e he
    dsimp only
    rw [hpage _ e he]
    exact h.other j e he
  · intro j k e he e' he' heq
    dsimp only at heq
    rw [hpage _ e he, hpage _ e' he'] at heq
    exact h.pages j k e he e' he' heq
  · intro o ho
    obtain ⟨j, hj, hdvd, e, he, heq⟩ := hobj o ho
    refine ⟨j, hj, hdvd, e, he, ?_⟩
    dsimp only
    rw [hpage _ e he, heq]
  · intro p hlow h0
    dsimp only at h0 ⊢
    rw [hmap] at h0
    rw [hhigh]
    exact h.unused p hlow h0
  · exact hhigh.trans_le h.high
  · intro j e he hxe
    rcases eq_or_ne e d with rfl | hne
    · exact hx' hxe
    · have hcnt : refcnt m' e = refcnt s.heap.mem e :=
        congrArg (· % 0x10000) (hdesc _ e he 3 (by omega) (Or.inl hne))
      dsimp only
      rw [hcnt]
      exact h.used j e he (hx e hxe hne)
  · intro p hp
    dsimp only
    rw [hmap, hhigh]
    exact h.held p hp

/-- There is room for the number of objects on a page. -/
theorem Sound.card_le (h : Sound s own free dpages x) (p : Nat) : (s.onPage p).card ≤ 256 := by
  have hsub : s.onPage p ⊆ (places (p * PAGE_SIZE) 16 256).toFinset := fun o ho => by
    obtain ⟨ho, hpage⟩ := Finset.mem_filter.mp ho
    obtain ⟨i, -, hdvd, -⟩ := h.object ho
    have h16 : 16 ∣ o := Nat.dvd_trans (bucketSize_spec i).2.2.1 hdvd
    refine List.mem_toFinset.mpr (mem_places.mpr ⟨o % PAGE_SIZE / 16, ?_, ?_⟩)
    · unfold PAGE_SIZE
      omega
    · unfold PAGE_SIZE at hpage ⊢
      omega
  refine (Finset.card_le_card hsub).trans ((List.toFinset_card_le _).trans ?_)
  simp [places]

theorem onPage_insert {o : Nat} (ho : o ∉ s.live) {h : Heap} {len : Nat → Nat} (p : Nat)
    (hp : o / PAGE_SIZE = p) :
    ((⟨h, insert o s.live, len, s.held⟩ : State).onPage p).card = (s.onPage p).card + 1 := by
  have heq : (⟨h, insert o s.live, len, s.held⟩ : State).onPage p = insert o (s.onPage p) := by
    simp only [State.onPage]
    rw [Finset.filter_insert, if_pos hp]
  have hnot : o ∉ s.onPage p := fun hmem => ho (Finset.mem_filter.mp hmem).1
  rw [heq, Finset.card_insert_of_notMem hnot]

theorem Sound.takeObject (h : Sound s own free dpages x) (hx : x = none ∨ x = some d)
    (hd : d ∈ own (some i)) {a n : Nat} (hfree : free d = a :: l) (hn : bucketFor n = some i) :
    (Malloc.takeObject s.heap d).1 = a ∧ a ∉ s.live ∧
    Sound { s with
      heap := (Malloc.takeObject s.heap d).2
      live := insert a s.live
      len := update s.len a n } own (update free d l) dpages none ∧
    (Malloc.takeObject s.heap d).2.mem.memMap = s.heap.mem.memMap := by
  have hb := h.bucket i d hd
  obtain ⟨h16, hpd⟩ := h.desc _ d hd
  obtain ⟨hptr, hpath⟩ := hfree ▸ hb.path
  have hnd := hb.nodup
  rw [hfree] at hnd
  obtain ⟨hap, hai, halive⟩ := (hb.free a).mp (by rw [hfree]; exact List.mem_cons_self ..)
  obtain rfl := (ptr_eq_some hptr).1
  have hcard := h.card_le (page s.heap.mem d / PAGE_SIZE)
  have hw := load_lt s.heap.mem (freeptr s.heap.mem d)
  -- the fields of the descriptor at the end
  let m₁ := setField s.heap.mem d 2 (load s.heap.mem (freeptr s.heap.mem d))
  let m₂ := setRefcnt m₁ d (refcnt m₁ d + 1)
  obtain ⟨hcnt₂, hsize₂⟩ := setRefcnt_self m₁ h16 (refcnt m₁ d + 1)
  have h₁ : ∀ j < 4, j ≠ 2 → field m₁ d j = field s.heap.mem d j := fun j hj hne =>
    field_setField_ne _ _ h16 h16 (by omega) hj (Or.inr hne.symm)
  have h₂ : ∀ j < 3, field m₂ d j = field m₁ d j := fun j hj =>
    field_setField_ne _ _ h16 h16 (by omega) (by omega) (Or.inr (by omega))
  have hpage : page m₂ d = page s.heap.mem d :=
    (h₂ 0 (by omega)).trans (h₁ 0 (by omega) (by omega))
  have hfreeptr : freeptr m₂ d = load s.heap.mem (freeptr s.heap.mem d) :=
    (h₂ 2 (by omega)).trans (field_setField_self _ h16 (by omega) hw)
  have hrefcnt₁ : refcnt m₁ d = refcnt s.heap.mem d :=
    congrArg (· % 0x10000) (h₁ 3 (by omega) (by omega))
  have hsize : bucket_size m₂ d = bucketSize i :=
    hsize₂.trans ((congrArg (· / 0x10000) (h₁ 3 (by omega) (by omega))).trans hb.size)
  have hrefcnt : refcnt m₂ d = (s.onPage (page s.heap.mem d / PAGE_SIZE)).card + 1 := by
    refine hcnt₂.trans ?_
    rw [hrefcnt₁, hb.refcnt]
    exact Nat.mod_eq_of_lt (by omega)
  have hload : ∀ b, b / 4 ≠ (d + 8) / 4 → b / 4 ≠ (d + 12) / 4 → load m₂ b = load s.heap.mem b :=
    fun b h8 h12 => (load_store_ne _ _ h12).trans (load_store_ne _ _ h8)
  have hlink : ∀ b ∈ l, load m₂ b = load s.heap.mem b := fun b hbl => by
    have hbp := hb.free_page (a := b) (by rw [hfree]; exact List.mem_cons_of_mem _ hbl)
    have hne : b / PAGE_SIZE ≠ d / PAGE_SIZE := fun e => h.other i d hd <| by
      rw [← hbp, e]
      exact hpd
    have h4096 : PAGE_SIZE = 4096 := rfl
    rw [h4096] at hne
    exact hload b (by omega) (by omega)
  refine ⟨rfl, halive, h.ofBucket hd (fun b _ => hload b) rfl rfl (fun b hb' => ?_)
    (fun o ho => ?_) ?_ (fun e _ hne => ?_) fun _ => ?_, rfl⟩
  · rw [Finset.mem_insert]
    exact or_iff_right fun e => hb' (e ▸ hap)
  · rcases eq_or_ne o (freeptr s.heap.mem d) with rfl | hne
    · rw [update_self]
      exact ⟨i, hn, hai, d, hd, hap.symm⟩
    · rw [update_of_ne hne]
      exact h.objects o ((Finset.mem_insert.mp ho).resolve_left hne)
  · have hgr := hb.granted
    constructor
    · dsimp only
      rw [hpage]
      exact hgr
    · dsimp only
      rw [hpage]
      exact hb.aligned
    · exact hsize
    · dsimp only
      rw [hrefcnt, hpage]
      exact (onPage_insert halive _ hap).symm
    · dsimp only
      rw [hfreeptr]
      exact hpath.congr fun b hbl => congrArg ptr (hlink b hbl)
    · exact (List.nodup_cons.mp hnd).2
    · intro b
      have hmem := hb.free b
      rw [hfree, List.mem_cons] at hmem
      dsimp only
      rw [hpage, Finset.mem_insert, not_or]
      constructor
      · intro hbl
        obtain ⟨hbp, hbi, hblive⟩ := hmem.mp (Or.inr hbl)
        exact ⟨hbp, hbi, fun e => (List.nodup_cons.mp hnd).1 (e ▸ hbl), hblive⟩
      · rintro ⟨hbp, hbi, hne, hblive⟩
        exact (hmem.mpr ⟨hbp, hbi, hblive⟩).resolve_left hne
  · rcases hx with rfl | rfl
    · exact (Option.some_ne_none e).symm
    · exact fun e' => hne (Option.some.inj e').symm
  · exact hrefcnt.symm ▸ Nat.succ_le_succ (Nat.zero_le _)

theorem onPage_erase {o : Nat} (ho : o ∈ s.live) {h : Heap} (p : Nat) (hp : o / PAGE_SIZE = p) :
    (({ s with heap := h, live := s.live.erase o } : State).onPage p).card + 1
      = (s.onPage p).card := by
  have heq : ({ s with heap := h, live := s.live.erase o } : State).onPage p
      = (s.onPage p).erase o := by
    simp only [State.onPage]
    rw [Finset.filter_erase]
  rw [heq]
  exact Finset.card_erase_add_one (Finset.mem_filter.mpr ⟨ho, hp⟩)

/-- An object becomes the first free one of its bucket, which may now be empty. -/
theorem Sound.putObject (h : Sound s own free dpages none) {o : Nat} (ho : o ∈ s.live)
    (hdvd : bucketSize i ∣ o) (hd : d ∈ own (some i))
    (hod : page s.heap.mem d / PAGE_SIZE = o / PAGE_SIZE) :
    Sound { s with heap := Malloc.putObject s.heap o d, live := s.live.erase o } own
        (update free d (o :: free d)) dpages
        (if refcnt (Malloc.putObject s.heap o d).mem d = 0 then some d else none) ∧
      (∀ k, ∀ e ∈ own k, next (Malloc.putObject s.heap o d).mem e = next s.heap.mem e) ∧
      page (Malloc.putObject s.heap o d).mem d = page s.heap.mem d ∧
      (Malloc.putObject s.heap o d).mem.memMap = s.heap.mem.memMap ∧
      refcnt (Malloc.putObject s.heap o d).mem d + 1 = (s.onPage (o / PAGE_SIZE)).card := by
  have hb := h.bucket i d hd
  obtain ⟨h16, hpd⟩ := h.desc _ d hd
  have hsize16 := (bucketSize_spec i).2.2.1
  have ho16 : 16 ∣ o := Nat.dvd_trans hsize16 hdvd
  have hgr := hb.granted
  have hodesc : o / PAGE_SIZE ≠ d / PAGE_SIZE := fun e => h.other i d hd (by rw [hod, e]; exact hpd)
  have hne : o / 4096 ≠ d / 4096 := hodesc
  have hcard := h.card_le (o / PAGE_SIZE)
  have hcnt := hb.refcnt
  rw [hod] at hcnt
  have hpos : 1 ≤ (s.onPage (o / PAGE_SIZE)).card :=
    Finset.card_pos.mpr ⟨o, Finset.mem_filter.mpr ⟨ho, rfl⟩⟩
  have ho32 : o ≠ 0 ∧ o < 2 ^ 32 := by
    have hlow : LOW_MEM ≤ o / PAGE_SIZE := hod ▸ hgr.1
    have hlt : o / PAGE_SIZE < FRAMES := hod ▸ h.frame_lt hgr
    have hframes : FRAMES = 4096 := rfl
    have hmem : LOW_MEM = 256 := rfl
    unfold PAGE_SIZE at hlow hlt
    omega
  have hw := load_lt s.heap.mem (d + 4 * 2)
  -- the words that change
  let m₁ := store s.heap.mem o (freeptr s.heap.mem d)
  let m₂ := setField m₁ d 2 o
  let m₃ := setRefcnt m₂ d (refcnt m₂ d + 0xffff)
  obtain ⟨hcnt₃, hsize₃⟩ := setRefcnt_self m₂ h16 (refcnt m₂ d + 0xffff)
  have h₁ : ∀ j < 4, field m₁ d j = field s.heap.mem d j := fun j hj =>
    field_store_ne _ _ h16 hj hne
  have h₂ : ∀ j < 4, j ≠ 2 → field m₂ d j = field s.heap.mem d j := fun j hj hj2 =>
    (field_setField_ne _ _ h16 h16 (by omega) hj (Or.inr hj2.symm)).trans (h₁ j hj)
  have h₃ : ∀ j < 3, field m₃ d j = field m₂ d j := fun j hj =>
    field_setField_ne _ _ h16 h16 (by omega) (by omega) (Or.inr (by omega))
  have hpage : page m₃ d = page s.heap.mem d :=
    (h₃ 0 (by omega)).trans (h₂ 0 (by omega) (by omega))
  have hptr : freeptr m₃ d = o :=
    (h₃ 2 (by omega)).trans (field_setField_self _ h16 (by omega) ho32.2)
  have hrefcnt₂ : refcnt m₂ d = refcnt s.heap.mem d :=
    congrArg (· % 0x10000) (h₂ 3 (by omega) (by omega))
  have hsize : bucket_size m₃ d = bucketSize i :=
    hsize₃.trans ((congrArg (· / 0x10000) (h₂ 3 (by omega) (by omega))).trans hb.size)
  have hrefcnt : refcnt m₃ d + 1 = (s.onPage (o / PAGE_SIZE)).card := by
    have heq : refcnt m₃ d = (refcnt s.heap.mem d + 0xffff) % 0x10000 := by
      rw [← hrefcnt₂]
      exact hcnt₃
    rw [heq, hcnt]
    omega
  have hload : ∀ b, b / 4 ≠ o / 4 → b / 4 ≠ (d + 8) / 4 → b / 4 ≠ (d + 12) / 4 →
      load m₃ b = load s.heap.mem b := fun b hbo h8 h12 =>
    (load_store_ne _ _ h12).trans ((load_store_ne _ _ h8).trans (load_store_ne _ _ hbo))
  have hlinko : load m₃ o = freeptr s.heap.mem d :=
    (load_store_ne _ _ (by omega)).trans ((load_store_ne _ _ (by omega)).trans
      (load_store_self _ _ hw))
  have hnot : o ∉ free d := fun hf => ((hb.free o).mp hf).2.2 ho
  have hlink : ∀ b ∈ free d, load m₃ b = load s.heap.mem b := fun b hbf => by
    obtain ⟨hbp, hbi, -⟩ := (hb.free b).mp hbf
    have hb16 : 16 ∣ b := Nat.dvd_trans hsize16 hbi
    have hbo : b ≠ o := fun e => hnot (e ▸ hbf)
    have hbp' : b / 4096 = o / 4096 := hbp.trans hod
    exact hload b (by omega) (by omega) (by omega)
  have hnext : ∀ k, ∀ e ∈ own k, next m₃ e = next s.heap.mem e := by
    intro k e he
    obtain ⟨he16, hep⟩ := h.desc k e he
    have hne' : o / 4096 ≠ e / 4096 := fun e' => h.other i d hd <| by
      rw [hod]
      exact e' ▸ hep
    exact hload _ (by omega) (by omega) (by omega)
  refine ⟨h.ofBucket hd (fun b hbp => hload b fun e => hbp ?_) rfl rfl
    (fun b hbp => ?_) (fun q hq => h.objects q (Finset.mem_of_mem_erase hq)) ?_ (fun e _ _ =>
    (Option.some_ne_none e).symm) fun hx => ?_, hnext, hpage, rfl, hrefcnt⟩
  · rw [hod]
    unfold PAGE_SIZE
    omega
  · rw [Finset.mem_erase]
    exact and_iff_right fun e => hbp (e ▸ hod.symm)
  · constructor
    · dsimp only
      rw [hpage]
      exact hgr
    · dsimp only
      rw [hpage]
      exact hb.aligned
    · exact hsize
    · dsimp only
      rw [hpage, hod]
      exact Nat.add_right_cancel (hrefcnt.trans (onPage_erase ho _ rfl).symm)
    · dsimp only
      rw [hptr]
      refine ⟨ptr_pos ho32.1, ?_⟩
      dsimp only
      rw [hlinko]
      exact hb.path.congr fun b hbf => congrArg ptr (hlink b hbf)
    · exact List.nodup_cons.mpr ⟨hnot, hb.nodup⟩
    · intro b
      dsimp only
      rw [hpage, List.mem_cons, hb.free b, Finset.mem_erase, not_and_or, not_not]
      constructor
      · rintro (rfl | ⟨hbp, hbi, hbl⟩)
        · exact ⟨hod.symm, hdvd, Or.inl rfl⟩
        · exact ⟨hbp, hbi, Or.inr hbl⟩
      · rintro ⟨hbp, hbi, rfl | hbl⟩
        · exact Or.inl rfl
        · exact Or.inr ⟨hbp, hbi, hbl⟩
  · by_contra h0
    exact hx (if_pos (Nat.lt_one_iff.mp (Nat.lt_of_not_le h0)))

/-! ## An empty bucket goes -/

/-- An empty bucket is taken off its chain; only a pointer to its descriptor changes. -/
theorem Sound.without (h : Sound s own free dpages (some d)) (hd : d ∈ own (some i))
    (h0 : refcnt s.heap.mem d = 0) {hp : Heap} {own' : Option (Fin 9) → List Nat}
    (hforest : Forest (nextPtr hp.mem) hp.heads own')
    (hsub : ∀ k, ∀ e ∈ own' k, e ∈ own k ∧ e ≠ d)
    (hkeep : ∀ k, ∀ e ∈ own k, e ≠ d → e ∈ own' k)
    (hfield : ∀ k, ∀ e ∈ own k, ∀ j < 4, j ≠ 1 → field hp.mem e j = field s.heap.mem e j)
    (hlink : ∀ i, ∀ e ∈ own (some i), ∀ a ∈ free e, load hp.mem a = load s.heap.mem a)
    (hmap : hp.mem.memMap = s.heap.mem.memMap)
    (hhigh : hp.mem.HIGH_MEMORY = s.heap.mem.HIGH_MEMORY) :
    Sound { s with heap := hp } own' free dpages none := by
  have hpage : ∀ k, ∀ e ∈ own k, page hp.mem e = page s.heap.mem e := fun k e he =>
    hfield k e he 0 (by omega) (by omega)
  have hgranted : ∀ p, s.Granted p → State.Granted { s with heap := hp } p := fun p hg =>
    ⟨hg.1, hg.2.1.trans_eq hhigh.symm, (congrFun hmap p).trans hg.2.2.1, hg.2.2.2⟩
  have hcnt : ∀ k, ∀ e ∈ own k, refcnt hp.mem e = refcnt s.heap.mem e := fun k e he =>
    congrArg (· % 0x10000) (hfield k e he 3 (by omega) (by omega))
  constructor
  · exact hforest
  · exact fun k e he => h.desc k e (hsub k e he).1
  · exact fun p hp => hgranted p (h.granted p hp)
  · intro j e he
    have he := (hsub _ e he).1
    have hb := h.bucket j e he
    constructor
    · dsimp only
      rw [hpage _ e he]
      exact hgranted _ hb.granted
    · dsimp only
      rw [hpage _ e he]
      exact hb.aligned
    · exact (congrArg (· / 0x10000) (hfield _ e he 3 (by omega) (by omega))).trans hb.size
    · dsimp only
      rw [hcnt _ e he, hpage _ e he]
      exact hb.refcnt
    · have hptr : freeptr hp.mem e = freeptr s.heap.mem e := hfield _ e he 2 (by omega) (by omega)
      dsimp only
      rw [hptr]
      exact hb.path.congr fun a ha => congrArg ptr (hlink j e he a ha)
    · exact hb.nodup
    · dsimp only
      rw [hpage _ e he]
      exact hb.free
  · intro j e he
    dsimp only
    rw [hpage _ e (hsub _ e he).1]
    exact h.other j e (hsub _ e he).1
  · intro j k e he e' he' heq
    dsimp only at heq
    rw [hpage _ e (hsub _ e he).1, hpage _ e' (hsub _ e' he').1] at heq
    exact h.pages j k e (hsub _ e he).1 e' (hsub _ e' he').1 heq
  · intro o ho
    obtain ⟨j, hj, hdvd, e, he, heq⟩ := h.objects o ho
    have hne : e ≠ d := fun e' => by
      subst e'
      have hcard := (h.bucket j e he).refcnt
      rw [h0] at hcard
      have hempty := Finset.card_eq_zero.mp hcard.symm
      have hmem : o ∈ s.onPage (page s.heap.mem e / PAGE_SIZE) :=
        Finset.mem_filter.mpr ⟨ho, heq.symm⟩
      rw [hempty] at hmem
      exact Finset.notMem_empty o hmem
    refine ⟨j, hj, hdvd, e, hkeep _ e he hne, ?_⟩
    dsimp only
    rw [hpage _ e he, heq]
  · intro p hlow hz
    dsimp only at hz ⊢
    rw [hmap] at hz
    rw [hhigh]
    exact h.unused p hlow hz
  · exact hhigh.trans_le h.high
  · intro j e he _
    have ⟨he, hne⟩ := hsub _ e he
    dsimp only
    rw [hcnt _ e he]
    exact h.used j e he fun e' => hne (Option.some.inj e').symm
  · intro p hp
    dsimp only
    rw [hmap, hhigh]
    exact h.held p hp

/-- `unlink` with the descriptor before the one that goes. -/
theorem Sound.unlink (h : Sound s own free dpages (some d)) {l₁ l₂ : List Nat}
    (hown : own (some i) = l₁ ++ d :: l₂) (h0 : refcnt s.heap.mem d = 0) :
    ∃ hp, Malloc.unlink s.heap i d (l₁.getLastD 0) = .ok hp ∧
      Sound { s with heap := hp } (update own (some i) (l₁ ++ l₂)) free dpages none ∧
      hp.mem.memMap = s.heap.mem.memMap ∧ hp.mem.HIGH_MEMORY = s.heap.mem.HIGH_MEMORY ∧
      (∀ k, ∀ e ∈ own k, page hp.mem e = page s.heap.mem e) ∧
      ∀ k, ∀ e ∈ update own (some i) (l₁ ++ l₂) k, e ∈ own k ∧ e ≠ d := by
  have hd : d ∈ own (some i) := by simp [hown]
  have hd0 := (h.desc_pos hd).1
  have hnd := h.forest.nodup (some i)
  rw [hown] at hnd
  have hperm : (l₁ ++ d :: l₂).Perm (d :: (l₁ ++ l₂)) := List.perm_middle
  have hnotin : d ∉ l₁ ++ l₂ := (List.nodup_cons.mp (hperm.nodup_iff.mp hnd)).1
  have hmem : ∀ e, e ∈ own (some i) ↔ e = d ∨ e ∈ l₁ ++ l₂ := fun e => by
    rw [hown, hperm.mem_iff, List.mem_cons]
  have hsub : ∀ k, ∀ e ∈ update own (some i) (l₁ ++ l₂) k, e ∈ own k ∧ e ≠ d := by
    intro k e he
    rcases eq_or_ne k (some i) with rfl | hne
    · rw [update_self] at he
      exact ⟨(hmem e).mpr (Or.inr he), fun e' => hnotin (e' ▸ he)⟩
    · rw [update_of_ne hne] at he
      exact ⟨he, fun e' => hne (h.forest.disjoint he (e' ▸ hd))⟩
  have hkeep : ∀ k, ∀ e ∈ own k, e ≠ d → e ∈ update own (some i) (l₁ ++ l₂) k := by
    intro k e he hed
    rcases eq_or_ne k (some i) with rfl | hne
    · rw [update_self]
      exact ((hmem e).mp he).resolve_left hed
    · rwa [update_of_ne hne]
  rcases List.eq_nil_or_concat l₁ with rfl | ⟨l, b, rfl⟩
  · -- the first of its chain
    obtain ⟨hhead, -⟩ : ptr (s.heap.chain i) = some d ∧ _ := by
      have hpath := h.forest.path (some i)
      rw [hown] at hpath
      exact hpath
    have hchain := (ptr_eq_some hhead).1
    refine ⟨{ s.heap with chain := update s.heap.chain i (next s.heap.mem d) }, ?_,
      h.without hd h0 ?_ hsub hkeep (fun _ _ _ _ _ _ => rfl) (fun _ _ _ _ _ => rfl) rfl rfl,
      rfl, rfl, fun _ _ _ => rfl, hsub⟩
    · rw [Malloc.unlink]
      simp only [List.getLastD_nil]
      rw [if_neg (by simp [hchain])]
      simp only [pure_bind]
      rw [if_neg (by simp), if_neg (by simp [hchain])]
      rfl
    · refine (h.forest.unlink_head hown).congr (fun _ _ _ => rfl) fun k => ?_
      cases k with
      | none => simp [Heap.heads]
      | some j =>
          rcases eq_or_ne j i with rfl | hne
          · simp [Heap.heads, nextPtr]
          · simp [Heap.heads, hne]
  · -- behind descriptor `b`
    rw [List.concat_eq_append] at hown hsub hkeep ⊢
    have hb : b ∈ own (some i) := by simp [hown]
    have hb0 := (h.desc_pos hb).1
    have hbd : b ≠ d := fun e => hnotin (by simp [← e])
    have hown' : own (some i) = l ++ b :: d :: l₂ := by simp [hown]
    have hnext : next s.heap.mem b = d := by
      have hpath := h.forest.path (some i)
      rw [hown'] at hpath
      exact (ptr_eq_some hpath.drop.1).1
    have hw : field s.heap.mem d 1 < 2 ^ 32 := load_lt _ _
    obtain ⟨hb16, hbp⟩ := h.desc _ b hb
    have hfield : ∀ k, ∀ e ∈ own k, ∀ j < 4, j ≠ 1 →
        field (setField s.heap.mem b 1 (next s.heap.mem d)) e j = field s.heap.mem e j :=
      fun k e he j hj hne => field_setField_ne _ _ hb16 (h.desc k e he).1 (by omega) hj
        (Or.inr hne.symm)
    refine ⟨{ s.heap with mem := setField s.heap.mem b 1 (next s.heap.mem d) }, ?_,
      h.without hd h0 ?_ hsub hkeep hfield (fun j e he a ha => ?_) rfl rfl, rfl, rfl,
      fun k e he => hfield k e he 0 (by omega) (by omega), hsub⟩
    · rw [Malloc.unlink]
      simp only [List.getLastD_concat]
      rw [if_neg (by simp [hnext, hb0])]
      simp only [pure_bind]
      rw [if_pos hb0]
      rfl
    · have hcut := h.forest.unlink_behind hown'
      rw [show l ++ [b] ++ l₂ = l ++ b :: l₂ by simp]
      refine hcut.congr (fun k e he => ?_) fun _ => rfl
      have he16 : 16 ∣ e := by
        rcases eq_or_ne k (some i) with rfl | hne
        · rw [update_self] at he
          refine (h.desc (some i) e ?_).1
          rw [hown']
          simp only [List.mem_append, List.mem_cons] at he ⊢
          tauto
        · rw [update_of_ne hne] at he
          exact (h.desc k e he).1
      unfold nextPtr next
      dsimp only
      rw [field_setField _ hb16 he16 (by omega) (by omega) hw]
      rcases eq_or_ne e b with rfl | hne
      · rw [if_pos ⟨rfl, rfl⟩, update_self]
      · rw [if_neg fun e' => hne e'.1.symm, update_of_ne hne]
    · refine load_setField_ne _ _ hb16 (by omega) fun e' => h.other j e he ?_
      rw [← (h.bucket j e he).free_page ha]
      exact e' ▸ hbp

/-- A descriptor that is on no chain becomes the first spare one. -/
theorem Sound.pushSpare (h : Sound s own free dpages x) (hd : 16 ∣ d)
    (hpage : d / PAGE_SIZE ∈ dpages) (hnot : ∀ k, d ∉ own k) :
    Sound { s with heap := { s.heap with
        mem := setField s.heap.mem d 1 s.heap.free_bucket_desc
        free_bucket_desc := d } } (update own none (d :: own none)) free dpages x := by
  have hset := h.setSpare hd hpage hnot (j := 1) (by omega) s.heap.free_bucket_desc
  have hsome : ∀ i, update own none (d :: own none) (some i) = own (some i) := fun i =>
    update_of_ne (Option.some_ne_none i) ..
  have hmem : ∀ k, ∀ e ∈ update own none (d :: own none) k, e = d ∨ e ∈ own k := by
    intro k e he
    cases k with
    | none =>
        rw [update_self] at he
        exact List.mem_cons.mp he
    | some i =>
        rw [hsome] at he
        exact Or.inr he
  have hdesc : ∀ k, ∀ e ∈ update own none (d :: own none) k,
      16 ∣ e ∧ e / PAGE_SIZE ∈ dpages := fun k e he => by
    rcases hmem k e he with rfl | he
    · exact ⟨hd, hpage⟩
    · exact h.desc k e he
  have hd0 : d ≠ 0 := by
    have hlow : LOW_MEM ≤ d / PAGE_SIZE := (h.granted _ hpage).1
    rintro rfl
    rw [Nat.zero_div] at hlow
    exact absurd hlow (by decide)
  refine ⟨?_, hdesc, hset.granted, ?_, ?_, ?_, ?_, h.unused, h.high, ?_, h.held⟩
  · refine (h.forest.push none (t := d) hnot).congr (fun k e he => ?_) fun k => ?_
    · unfold nextPtr next
      dsimp only
      rw [field_setField _ hd (hdesc k e he).1 (by omega) (by omega) h.heads_lt.1]
      rcases eq_or_ne e d with rfl | hne
      · rw [if_pos ⟨rfl, rfl⟩, update_self]
        rfl
      · rw [if_neg fun e' => hne e'.1.symm, update_of_ne hne]
    · cases k with
      | none => simp [Heap.heads, ptr_pos hd0]
      | some i => simp [Heap.heads]
  · intro i e he
    rw [hsome] at he
    exact (hset.bucket i e he).congr (fun _ _ => rfl) (fun _ _ => rfl) id fun _ _ => Iff.rfl
  · intro i e he
    rw [hsome] at he
    exact hset.other i e he
  · intro i j e he e' he'
    rw [hsome] at he he'
    exact hset.pages i j e he e' he'
  · intro o ho
    obtain ⟨i, hi, hdvd, e, he, heq⟩ := hset.objects o ho
    exact ⟨i, hi, hdvd, e, by rwa [hsome], heq⟩
  · intro i e he
    rw [hsome] at he
    exact hset.used i e he

/-- The page of an empty bucket is given back. -/
theorem Sound.dropBucket (h : Sound s own free dpages (some d)) {l₁ l₂ : List Nat}
    (hown : own (some i) = l₁ ++ d :: l₂) (h0 : refcnt s.heap.mem d = 0) :
    ∃ hp own', Malloc.dropBucket s.heap i d (l₁.getLastD 0) = .ok hp ∧
      Sound { s with heap := hp } own' free dpages none ∧
      hp.mem.memMap = update s.heap.mem.memMap (page s.heap.mem d / PAGE_SIZE) 0 := by
  have hd : d ∈ own (some i) := by simp [hown]
  obtain ⟨h16, hpd⟩ := h.desc _ d hd
  have hgr := (h.bucket i d hd).granted
  obtain ⟨hp, hunlink, h₁, hmap, hhigh, hpage, hsub⟩ := h.unlink hown h0
  have hfree := freePage_once (m := hp.mem) hgr.1 (hgr.2.1.trans_eq hhigh.symm)
    ((congrFun hmap _).trans hgr.2.2.1)
  -- no other page of the allocator is given back
  have hne : ∀ q, Owned { s with heap := hp } (update own (some i) (l₁ ++ l₂)) dpages q →
      q ≠ page s.heap.mem d / PAGE_SIZE := by
    rintro q (hq | ⟨j, e, he, rfl⟩) e'
    · exact h.other i d hd (e' ▸ hq)
    · obtain ⟨heown, hed⟩ := hsub _ e he
      dsimp only at e'
      rw [hpage _ e heown] at e'
      exact hed (h.pages j i e heown d hd e')
  let m₂ : Mem := { hp.mem with memMap := update hp.mem.memMap (page s.heap.mem d / PAGE_SIZE) 0 }
  have h₂ : Sound { s with heap := { hp with mem := m₂ } } (update own (some i) (l₁ ++ l₂)) free
      dpages none := by
    refine h₁.frame (fun _ _ _ _ _ => rfl) (fun _ _ _ _ _ => rfl) (fun q hq => ?_) rfl
      (fun q hlow hq => ?_) fun q hq => ?_
    · obtain ⟨-, -, hone, hheld⟩ := h₁.owned hq
      dsimp only [m₂]
      rw [update_of_ne (hne q hq)]
      exact ⟨hone, hheld⟩
    · rcases eq_or_ne q (page s.heap.mem d / PAGE_SIZE) with rfl | hqp
      · exact hgr.2.1.trans_eq hhigh.symm
      · dsimp only [m₂] at hq
        rw [update_of_ne hqp] at hq
        exact h₁.unused q hlow hq
    · have hqp : q ≠ page s.heap.mem d / PAGE_SIZE := fun e => hgr.2.2.2 (e ▸ hq)
      dsimp only [m₂]
      rw [update_of_ne hqp]
      exact h₁.held q hq
  have h₃ := h₂.pushSpare h16 hpd fun k hk => (hsub k d hk).2 rfl
  refine ⟨_, _, ?_, h₃, ?_⟩
  · rw [Malloc.dropBucket, hunlink]
    simp only [bind, Except.bind]
    rw [hpage _ d hd, hfree]
    rfl
  · exact congrArg (update · (page s.heap.mem d / PAGE_SIZE) 0) hmap

/-! ## The calls -/

/-- The pages that are in use stay so. -/
def KeepsPages (m m' : Mem) : Prop := ∀ p, m.memMap p ≠ 0 → m'.memMap p = m.memMap p

/-- A bucket for the size is there: one with free objects, and no other is empty. -/
def Ready (s : State) (i : Fin 9) (d : Nat) : Prop :=
  ∃ own free dpages x, Sound s own free dpages x ∧ (x = none ∨ x = some d) ∧
    d ∈ own (some i) ∧ free d ≠ []

theorem Sound.linkBucket (h : Sound s own free dpages none) (hnull : s.heap.free_bucket_desc ≠ 0)
    (i : Fin 9) :
    (Malloc.linkBucket s.heap i = .error .outOfMemoryInKernelMalloc ∧
      getFreePage s.heap.mem = none) ∨
    ∃ hp, Malloc.linkBucket s.heap i = .ok (s.heap.free_bucket_desc, hp) ∧
      Ready { s with heap := hp } i s.heap.free_bucket_desc ∧ KeepsPages s.heap.mem hp.mem := by
  obtain ⟨l, hown, -⟩ := h.forest.own_of_ptr (k := none) (ptr_pos hnull)
  unfold Malloc.linkBucket
  dsimp only
  cases hg : getFreePage (setBucketSize (setRefcnt s.heap.mem s.heap.free_bucket_desc 0)
      s.heap.free_bucket_desc (bucketSize i)) with
  | none =>
      have hmap : (setBucketSize (setRefcnt s.heap.mem s.heap.free_bucket_desc 0)
          s.heap.free_bucket_desc (bucketSize i)).memMap = s.heap.mem.memMap := by
        rw [setBucketSize, setField_memMap, setRefcnt, setField_memMap]
      exact Or.inl ⟨rfl, getFreePage_none hmap hg⟩
  | some r =>
      obtain ⟨p, m'⟩ := r
      have hs := h.addBucket hown hg
      refine Or.inr ⟨_, rfl, ⟨_, _, _, _, hs, Or.inr rfl, ?_, ?_⟩, ?_⟩
      · rw [update_self]
        exact List.mem_cons_self ..
      · rw [update_self]
        have hn := (bucketSize_mul i).1
        refine fun hnil => absurd (congrArg List.length hnil) ?_
        rw [places, List.length_map, List.length_range, List.length_nil]
        omega
      · obtain ⟨-, -, h0, rfl⟩ := getFreePage_eq hg
        intro q hq
        have hqp : q ≠ p := fun e => hq (e ▸ h0)
        dsimp only
        rw [setField_memMap, fillBucket_memMap]
        exact update_of_ne hqp ..

theorem Sound.newBucket (h : Sound s own free dpages none) (i : Fin 9) :
    (∃ e, Malloc.newBucket s.heap i = .error e ∧
      (e = .outOfMemoryInInitBucketDesc ∨ e = .outOfMemoryInKernelMalloc) ∧
      ∀ p m p' m', getFreePage s.heap.mem = some (p, m) → getFreePage m ≠ some (p', m')) ∨
    ∃ d hp, Malloc.newBucket s.heap i = .ok (d, hp) ∧ Ready { s with heap := hp } i d ∧
      KeepsPages s.heap.mem hp.mem := by
  unfold Malloc.newBucket
  by_cases hnull : s.heap.free_bucket_desc = 0
  · have hempty : own none = [] := by
      have hpath := h.forest.path none
      rw [show s.heap.heads none = none by simp [Heap.heads, ptr, hnull]] at hpath
      exact hpath.null
    rw [if_pos hnull]
    unfold init_bucket_desc
    cases hg : getFreePage s.heap.mem with
    | none => exact Or.inl ⟨_, rfl, Or.inl rfl, fun p m _ _ hg' => by cases hg'⟩
    | some r =>
        obtain ⟨p, m₁⟩ := r
        have hadd := h.addDescs hempty hnull hg
        have hmaps : (thread m₁ (p * PAGE_SIZE) 4 DESC_SIZE (PAGE_SIZE / DESC_SIZE)
            s.heap.free_bucket_desc).memMap = m₁.memMap := (thread_maps _ _ _ _ _ _).1
        obtain ⟨hlow, -, h0, hm₁⟩ := getFreePage_eq hg
        have hpos : p * PAGE_SIZE ≠ 0 := by
          have hmem : LOW_MEM = 256 := rfl
          unfold PAGE_SIZE
          omega
        simp only [bind, Except.bind]
        rcases hadd.linkBucket hpos i with ⟨herr, hnone⟩ | ⟨hp, hok, hready, hkeep⟩
        · refine Or.inl ⟨_, herr, Or.inr rfl, fun p' m p'' m'' hg' hg'' => ?_⟩
          obtain ⟨rfl, rfl⟩ := Prod.mk.inj (Option.some.inj hg')
          rw [getFreePage_none hmaps hnone] at hg''
          cases hg''
        · refine Or.inr ⟨_, hp, hok, hready, fun q hq => ?_⟩
          have hqp : q ≠ p := fun e => hq (e ▸ h0)
          have hsame : m₁.memMap q = s.heap.mem.memMap q := by
            rw [hm₁]
            exact update_of_ne hqp ..
          have hq₁ := (congrFun hmaps q).trans hsame
          exact (hkeep q (fun e => hq (hq₁.symm.trans e))).trans hq₁
  · rw [if_neg hnull]
    simp only [pure_bind]
    rcases h.linkBucket hnull i with ⟨herr, hnone⟩ | ⟨hp, hok, hready, hkeep⟩
    · refine Or.inl ⟨_, herr, Or.inr rfl, fun p m p' m' hg' => ?_⟩
      rw [hnone] at hg'
      cases hg'
    · exact Or.inr ⟨_, hp, hok, hready, hkeep⟩

/-- The first free object of a bucket that is there. -/
theorem Ready.takeObject (h : Ready s i d) {n : Nat} (hn : bucketFor n = some i) :
    (Malloc.takeObject s.heap d).1 ∉ s.live ∧
    (∃ own free dpages, Sound { s with
      heap := (Malloc.takeObject s.heap d).2
      live := insert (Malloc.takeObject s.heap d).1 s.live
      len := update s.len (Malloc.takeObject s.heap d).1 n } own free dpages none) ∧
    (Malloc.takeObject s.heap d).2.mem.memMap = s.heap.mem.memMap := by
  obtain ⟨own, free, dpages, x, hs, hx, hd, hne⟩ := h
  obtain ⟨a, l, hfree⟩ := List.exists_cons_of_ne_nil hne
  obtain ⟨ha, hnot, hs', hmap⟩ := hs.takeObject hx hd hfree hn
  rw [ha]
  exact ⟨hnot, ⟨_, _, _, hs'⟩, hmap⟩

theorem Sound.malloc (h : Sound s own free dpages none) {n : Nat} (hn : n ≤ PAGE_SIZE) :
    (∃ e, Malloc.malloc s.heap n = .error e ∧
      (e = .outOfMemoryInInitBucketDesc ∨ e = .outOfMemoryInKernelMalloc) ∧
      ∀ p m p' m', getFreePage s.heap.mem = some (p, m) → getFreePage m ≠ some (p', m')) ∨
    ∃ o hp, Malloc.malloc s.heap n = .ok (o, hp) ∧ o ∉ s.live ∧ KeepsPages s.heap.mem hp.mem ∧
      ∃ own free dpages, Sound { s with
        heap := hp, live := insert o s.live, len := update s.len o n } own free dpages none := by
  obtain ⟨i, hi⟩ := bucketFor_isSome hn
  obtain ⟨r, hr, hfound⟩ := findFree_spec (h.forest.path (some i)) (h.length_lt i)
  unfold Malloc.malloc
  rw [hi]
  simp only [hr, bind, Except.bind]
  by_cases h0 : r = 0
  · rw [if_pos h0]
    rcases h.newBucket i with ⟨e, herr, hout⟩ | ⟨d, hp, hok, hready, hkeep⟩
    · rw [herr]
      exact Or.inl ⟨e, rfl, hout⟩
    · rw [hok]
      obtain ⟨hnot, hs, hmap⟩ := hready.takeObject hi
      refine Or.inr ⟨_, _, rfl, hnot, fun q hq => ?_, hs⟩
      exact (congrFun hmap q).trans (hkeep q hq)
  · rw [if_neg h0]
    obtain ⟨hmem, hptr⟩ := hfound h0
    have hready : Ready s i r := by
      refine ⟨own, free, dpages, none, h, Or.inl rfl, hmem, fun hnil => ?_⟩
      have hpath := (h.bucket i r hmem).path
      rw [hnil] at hpath
      exact hptr (ptr_eq_none hpath)
    obtain ⟨hnot, hs, hmap⟩ := hready.takeObject hi
    exact Or.inr ⟨_, _, rfl, hnot, fun q _ => congrFun hmap q, hs⟩

theorem Sound.free_s (h : Sound s own free dpages none) {o : Nat} (ho : o ∈ s.live) {size : Int}
    (hsize : size ≤ s.size o) :
    ∃ hp, Malloc.free_s s.heap o size = .ok hp ∧
      (∃ own free, Sound { s with heap := hp, live := s.live.erase o } own free dpages none) ∧
      (hp.mem.memMap (o / PAGE_SIZE) = 0 ↔ ∀ o' ∈ s.onPage (o / PAGE_SIZE), o' = o) ∧
      ∀ p, p ≠ o / PAGE_SIZE → hp.mem.memMap p = s.heap.mem.memMap p := by
  obtain ⟨i, hi, hdvd, d, hd, hod⟩ := h.objects o ho
  have hsize' : size ≤ bucketSize i := by
    rw [State.size, hi] at hsize
    exact hsize
  obtain ⟨l₁, l₂, hown⟩ := List.append_of_mem hd
  have hb := h.bucket i d hd
  have hpage : o / PAGE_SIZE * PAGE_SIZE = page s.heap.mem d := by
    rw [← hod]
    exact Nat.div_mul_cancel hb.aligned
  have hsearch := h.search hown hsize' (List.mem_finRange i)
  obtain ⟨hput, hnext, hpg, hmap, hcnt⟩ := h.putObject ho hdvd hd hod
  have h1 : s.heap.mem.memMap (o / PAGE_SIZE) = 1 := by
    rw [← hod]
    exact hb.granted.2.2.1
  unfold Malloc.free_s
  rw [hpage, hsearch]
  simp only [bind, Except.bind]
  by_cases h0 : refcnt (Malloc.putObject s.heap o d).mem d = 0
  · rw [if_pos h0] at hput ⊢
    obtain ⟨hp, own', hdrop, hs, hmaps⟩ := hput.dropBucket hown h0
    dsimp only at hmaps
    rw [hpg, hod, hmap] at hmaps
    refine ⟨hp, hdrop, ⟨_, _, hs⟩, ?_, fun p hpne => ?_⟩
    · rw [hmaps, update_self]
      refine iff_of_true rfl fun o' ho' => ?_
      rw [h0] at hcnt
      exact Finset.card_le_one.mp (Nat.le_of_eq hcnt.symm) o' ho' o
        (Finset.mem_filter.mpr ⟨ho, rfl⟩)
    · rw [hmaps, update_of_ne hpne]
  · rw [if_neg h0] at hput ⊢
    refine ⟨_, rfl, ⟨_, _, hput⟩, ?_, fun p _ => congrFun hmap p⟩
    rw [hmap, h1]
    refine iff_of_false Nat.one_ne_zero fun hall => h0 ?_
    have hle : (s.onPage (o / PAGE_SIZE)).card ≤ 1 :=
      Finset.card_le_one.mpr fun a ha b hb => (hall a ha).trans (hall b hb).symm
    omega

/-! ## Runs -/

theorem Sound.init (z : Zone) (rest : Nat → Slot → Word) :
    Sound (start z rest) (fun _ => []) (fun _ => []) ∅ none where
  forest := by
    refine ⟨fun k => ?_, fun k => List.nodup_nil, fun h => (List.not_mem_nil h).elim⟩
    cases k with
    | none => exact path_nil.mpr rfl
    | some i => exact path_nil.mpr rfl
  desc _ _ h := (List.not_mem_nil h).elim
  granted _ h := (Finset.notMem_empty _ h).elim
  bucket _ _ h := (List.not_mem_nil h).elim
  other _ _ h := (List.not_mem_nil h).elim
  pages _ _ _ h := (List.not_mem_nil h).elim
  objects _ h := (Finset.notMem_empty _ h).elim
  unused p _ h0 := by
    by_contra hle
    rw [start, memInit] at h0
    dsimp only at h0
    rw [if_neg fun h => hle h.2] at h0
    exact absurd h0 (by decide)
  high := z.le_high
  used _ _ h := (List.not_mem_nil h).elim
  held _ h := (Finset.notMem_empty _ h).elim

theorem Sound.step (h : Sound s own free dpages none) {a : Act} (hok : Admissible s a)
    (hs : run s a = some s') : ∃ own free dpages, Sound s' own free dpages none := by
  unfold run at hs
  cases a with
  | malloc n =>
      rw [Malloc.step] at hs
      rcases h.malloc hok with ⟨e, herr, -⟩ | ⟨o, hp, hcall, -, -, hsound⟩
      · rw [herr] at hs
        cases hs
      · rw [hcall] at hs
        obtain rfl := Option.some.inj hs
        exact hsound
  | free_s o size =>
      rw [Malloc.step] at hs
      obtain ⟨hp, hcall, ⟨own', free', hsound⟩, -⟩ := h.free_s hok.1 hok.2
      rw [hcall] at hs
      obtain rfl := Option.some.inj hs
      exact ⟨_, _, _, hsound⟩
  | store a w =>
      obtain rfl := Option.some.inj hs
      rcases hok with hp | ⟨o, ho, hle, hlt⟩
      · refine ⟨_, _, _, h.outside (p := a / PAGE_SIZE) (fun hown => ?_) rfl rfl fun b hb => ?_⟩
        · exact (h.owned hown).2.2.2 hp
        · refine load_store_ne _ _ fun e => hb ?_
          unfold PAGE_SIZE
          omega
      · exact ⟨_, _, _, h.storeObject ho hle hlt⟩
  | getFreePage =>
      rw [Malloc.step] at hs
      cases hg : Linux011.getFreePage s.heap.mem with
      | none =>
          rw [hg] at hs
          obtain rfl := Option.some.inj hs
          exact ⟨_, _, _, h⟩
      | some r =>
          obtain ⟨p, m'⟩ := r
          rw [hg] at hs
          obtain rfl := Option.some.inj hs
          exact ⟨_, _, _, h.take hg⟩
  | freePage p =>
      obtain ⟨hlow, hlt, h1⟩ := h.held p hok
      rw [Malloc.step, freePage_once hlow hlt h1] at hs
      obtain rfl := Option.some.inj hs
      exact ⟨_, _, _, h.give hok⟩

/-! ## What holds in every state -/

theorem apart_of_page {a n b k : Nat} (hn : a + n ≤ (a / PAGE_SIZE + 1) * PAGE_SIZE)
    (hk : b + k ≤ (b / PAGE_SIZE + 1) * PAGE_SIZE) (hne : a / PAGE_SIZE ≠ b / PAGE_SIZE) :
    Apart a n b k := by
  unfold Apart PAGE_SIZE at *
  omega

/-- A place does not reach into the next page. -/
theorem place_end {a : Nat} (hdvd : bucketSize i ∣ a) :
    a + bucketSize i ≤ (a / PAGE_SIZE + 1) * PAGE_SIZE := by
  have h16 := (bucketSize_spec i).1
  have hlast := (object_bytes (a := a + bucketSize i) (b := a + bucketSize i - 1) hdvd (by omega)
    (by omega) (Nat.dvd_add hdvd (Nat.dvd_refl _)) (by omega)).1
  unfold PAGE_SIZE at hlast ⊢
  omega

theorem apart_of_dvd {a b : Nat} (ha : bucketSize i ∣ a) (hb : bucketSize i ∣ b) (hne : a ≠ b) :
    Apart a (bucketSize i) b (bucketSize i) := by
  obtain ⟨q, rfl⟩ := ha
  obtain ⟨r, rfl⟩ := hb
  rcases Nat.lt_or_gt_of_ne fun e : q = r => hne (by rw [e]) with hlt | hlt
  · exact Or.inl (Nat.mul_le_mul_left (bucketSize i) hlt)
  · exact Or.inr (Nat.mul_le_mul_left (bucketSize i) hlt)

theorem Sound.apart_place (h : Sound s own free dpages x) {o a : Nat} (ho : o ∈ s.live)
    (hd : d ∈ own (some i)) (hap : a / PAGE_SIZE = page s.heap.mem d / PAGE_SIZE)
    (hai : bucketSize i ∣ a) (hne : o ≠ a) : Apart o (s.size o) a (bucketSize i) := by
  obtain ⟨j, hsize, hdvd, e, he, heq⟩ := h.object ho
  rw [hsize]
  by_cases hpage : o / PAGE_SIZE = a / PAGE_SIZE
  · obtain rfl : e = d := h.pages j i e he d hd (by rw [heq, hpage, hap])
    obtain rfl : j = i := Option.some.inj (h.forest.disjoint he hd)
    exact apart_of_dvd hdvd hai hne
  · exact apart_of_page (place_end hdvd) (place_end hai) hpage

theorem Sound.accounted (h : Sound s own free dpages none) : Accounted s := by
  refine ⟨⟨fun i => own (some i), own none, free, ?_, ?_, ?_⟩, ?_, ?_⟩
  · refine ⟨fun i => h.forest.path (some i), h.forest.path none, fun i => h.forest.nodup _,
      h.forest.nodup none, fun i j d hd e he heq => ?_, fun i d hd hspare => ?_,
      fun i d hd o ho => ?_⟩
    · obtain rfl := h.pages i j d hd e he (by rw [heq])
      exact ⟨Option.some.inj (h.forest.disjoint hd he), rfl⟩
    · exact Option.some_ne_none i (h.forest.disjoint hd hspare)
    · obtain ⟨j, hsize, hdvd, e, he, heq⟩ := h.object ho
      obtain ⟨h16, hpage⟩ : 16 ∣ d ∧ d / PAGE_SIZE ∈ dpages := by
        rcases hd with hd | hd
        · exact h.desc _ d hd
        · exact h.desc _ d hd
      rw [hsize]
      refine apart_of_page (place_end hdvd) ?_ fun e' => h.other j e he ?_
      · unfold PAGE_SIZE DESC_SIZE
        omega
      · rw [heq, e']
        exact hpage
  · refine ⟨fun o ho => ?_, fun o ho => ?_, fun o ho o' ho' hne => ?_⟩
    · obtain ⟨i, hi, -, -⟩ := h.objects o ho
      rw [State.size, hi]
      exact bucketFor_spec hi
    · obtain ⟨i, hi, hdvd, d, hd, heq⟩ := h.objects o ho
      have halign := Nat.div_mul_cancel (h.bucket i d hd).aligned
      have hend := place_end hdvd
      refine ⟨i, hi, d, hd, ?_, ?_⟩
      · rw [← halign, heq]
        exact Nat.div_mul_le_self o PAGE_SIZE
      · rw [State.size, hi, ← halign, heq, ← Nat.succ_mul]
        exact hend
    · obtain ⟨j, hsize, hdvd, e, he, heq⟩ := h.object ho'
      rw [hsize]
      exact h.apart_place ho he heq.symm hdvd hne
  · intro i d hd
    refine ⟨h.bucket i d hd, h.used i d hd (Option.some_ne_none d).symm, fun a ha o ho => ?_⟩
    obtain ⟨hap, hai, hlive⟩ := ((h.bucket i d hd).free a).mp ha
    have h16 := (bucketSize_spec i).1
    rcases h.apart_place ho hd hap hai fun e => hlive (e ▸ ho) with hlt | hlt
    · exact Or.inl hlt
    · exact Or.inr (by omega)
  · intro n hn
    unfold MallocOk
    rcases h.malloc hn with ⟨e, herr, hout⟩ | ⟨o, hp, hcall, hnot, hkeep, -⟩
    · rw [herr]
      exact hout
    · rw [hcall]
      exact ⟨hnot, hkeep⟩
  · intro o ho size hsize
    obtain ⟨hp, hcall, -, hpages⟩ := h.free_s ho hsize
    exact ⟨hp, hcall, hpages⟩

/-- The objects, pages and free lists of the bucket allocator in every reachable state,
for any requests of at most a page, any frees of objects that are there, and anything
that the rest of the kernel does with its own pages and objects. The lists of the
buckets and the counts of the pages are those of the objects, no two of which overlap;
the next `malloc` gives an object that is nobody's, or stops for want of a page, and a
`free_s` goes through and gives a page back with its last object. -/
theorem bucket_allocator (z : Zone) (rest : Nat → Slot → Word)
    (h : Reach run Admissible (start z rest) s) : Accounted s := by
  have hinv := h.invariant (I := fun s => ∃ own free dpages, Sound s own free dpages none)
    ⟨_, _, _, Sound.init z rest⟩ fun s a s' ⟨_, _, _, hs⟩ hok hstep => hs.step hok hstep
  obtain ⟨_, _, _, hs⟩ := hinv
  exact hs.accounted

instance (s : State) (a : Act) : Decidable (Admissible s a) :=
  match a with
  | .malloc len => inferInstanceAs (Decidable (len ≤ PAGE_SIZE))
  | .free_s obj size => inferInstanceAs (Decidable (obj ∈ s.live ∧ size ≤ s.size obj))
  | .store a _ => inferInstanceAs
      (Decidable (a / PAGE_SIZE ∈ s.held ∨ ∃ o ∈ s.live, o ≤ a ∧ a < o + s.size o))
  | .getFreePage => inferInstanceAs (Decidable True)
  | .freePage p => inferInstanceAs (Decidable (p ∈ s.held))

/-- Two objects of a bucket, one of which is freed. -/
def twoObjects : List Act := [.malloc 2000, .malloc 1500, .free_s 0xffe800 0]

theorem bucket_allocator_twoObjects : ∃ s,
    exec (checked run Admissible) (start ⟨4000, 4096, by decide, by decide⟩ fun _ _ => 0)
      twoObjects = some s ∧ s.live = {0xffe000} ∧ Accounted s := by
  let z : Zone := ⟨4000, 4096, by decide, by decide⟩
  obtain ⟨s, hs, hlive⟩ : ∃ s, exec (checked run Admissible) (start z fun _ _ => 0)
      twoObjects = some s ∧ s.live = {0xffe000} := exec_any (by decide +kernel)
  exact ⟨s, hs, hlive, bucket_allocator z _ (exec_checked hs)⟩

end Malloc

end Linux011
