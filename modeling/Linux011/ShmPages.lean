import Linux011.ShmHeap

/-!
# The pages of attached segments

What `sys_shmat` and `sys_shmdt` do to the page table entries of the caller. Without an
address the pages of a segment come one after another behind the heap; with an address all
of them go to that address, so that only the last one is there (`attach_maps`).
`cancelAdress` looks at entry 0 of the page table and clears the entry of the address, so
that detaching depends on an entry that may be another one, and may be cleared on the way
(`detach_unmaps`).

Both results are about one call in a state that calls have reached, and both are exact. For
`attach_maps` the loops over `put_page` are followed page by page: without an address the entries
are different ones, that were empty when the search looked at them, and each page stands at its
place behind the last round; with an address each round stores into the same entry, so that what
is read there is the last page, and the segment is mapped as it should be only if it has at most
one page. For `detach_unmaps` the loop over `cancelAdress` is followed with the entries that it
has already cleared: whether a round clears the entry of its own page is decided by entry 0 of
the page table as it stands then, and the condition says from the page tables before the call
what it will find there in each round.
-/

namespace Linux011

open Function Runs

namespace ShmPages

open Shm (Act start)

/-- The position of page `k` of a range. -/
def pagePos (address k : Nat) : Pos := posOf (address + k * PAGE_SIZE)

variable {s s' : ShmState} {t : Task} {m m' : Mem} {x : ShmStruct}

theorem pagePos_inj {address j k : Nat} (hj : j < 0x100000) (hk : k < 0x100000)
    (h : pagePos address j = pagePos address k) : j = k := by
  obtain ⟨hdir, htable⟩ := Prod.mk.inj h
  have hdir : (address + j * PAGE_SIZE) / 0x400000 % 1024
      = (address + k * PAGE_SIZE) / 0x400000 % 1024 := congrArg Fin.val hdir
  have htable : (address + j * PAGE_SIZE) / 0x1000 % 1024
      = (address + k * PAGE_SIZE) / 0x1000 % 1024 := congrArg Fin.val htable
  have hpage : ∀ i, (address + i * PAGE_SIZE) / 0x1000 = address / 0x1000 + i := fun i => by
    simp only [PAGE_SIZE]
    omega
  have hbig : ∀ i, (address + i * PAGE_SIZE) / 0x400000 = (address / 0x1000 + i) / 1024 :=
    fun i => by
      simp only [PAGE_SIZE]
      omega
  rw [hbig, hbig] at hdir
  rw [hpage, hpage] at htable
  omega

/-! ## The pages of a slot -/

/-- A slot has at most 64 pages, which are different frames behind the first megabyte. -/
structure PagesOk (x : ShmStruct) : Prop where
  pageNum : x.pageNum ≤ PAGE_NUM
  frames : ∀ k < x.pageNum, LOW_MEM ≤ x.shmaddr k ∧ x.shmaddr k < PAGES
  apart : ∀ j < x.pageNum, ∀ k < x.pageNum, x.shmaddr j = x.shmaddr k → j = k

theorem PagesOk.none (h : x.pageNum = 0) : PagesOk x := by
  refine ⟨by omega, fun k hk => ?_, fun j hj => ?_⟩ <;> omega

theorem PagesOk.congr {y : ShmStruct} (h : PagesOk x) (hn : y.pageNum = x.pageNum)
    (ha : y.shmaddr = x.shmaddr) : PagesOk y := by
  constructor
  · rw [hn]
    exact h.pageNum
  · rw [hn, ha]
    exact h.frames
  · rw [hn, ha]
    exact h.apart

/-- The pages that the loop over `get_free_page` gets were free, and so they are different
ones. -/
theorem getPages_spec {i left : Nat} {shmaddr shmaddr' : Nat → Nat}
    (h : getPages i left shmaddr m = .ok (true, shmaddr', m')) :
    (∀ k < i, shmaddr' k = shmaddr k) ∧
    (∀ k, i ≤ k → k < i + left →
      LOW_MEM ≤ shmaddr' k ∧ shmaddr' k < PAGES ∧ m.memMap (shmaddr' k) = 0) ∧
    ∀ j k, i ≤ j → j < i + left → i ≤ k → k < i + left → shmaddr' j = shmaddr' k → j = k := by
  induction left generalizing i shmaddr m with
  | zero =>
      obtain ⟨-, he⟩ := Prod.mk.inj (Except.ok.inj h)
      obtain ⟨rfl, -⟩ := Prod.mk.inj he
      exact ⟨fun _ _ => rfl, fun k h₁ h₂ => by omega, fun j k h₁ h₂ => by omega⟩
  | succ left ih =>
      rw [getPages] at h
      split at h
      · rename_i page m₁ hp
        obtain ⟨hlow, hhigh, hzero, rfl⟩ := getFreePage_eq hp
        obtain ⟨hbefore, hgot, hapart⟩ := ih h
        have hi : shmaddr' i = page := by
          rw [hbefore i (Nat.lt_succ_self i), update_self]
        -- what comes later was free when `page` was taken
        have hlater : ∀ k, i + 1 ≤ k → k < i + 1 + left →
            shmaddr' k ≠ page ∧ m.memMap (shmaddr' k) = 0 := by
          intro k h₁ h₂
          obtain ⟨-, -, hcount⟩ := hgot k h₁ h₂
          have hne : shmaddr' k ≠ page := by
            intro e
            rw [e] at hcount
            change update m.memMap page 1 page = 0 at hcount
            rw [update_self] at hcount
            cases hcount
          refine ⟨hne, ?_⟩
          change update m.memMap page 1 (shmaddr' k) = 0 at hcount
          rwa [update_of_ne hne] at hcount
        refine ⟨fun k hk => ?_, fun k h₁ h₂ => ?_, fun j k hj₁ hj₂ hk₁ hk₂ he => ?_⟩
        · rw [hbefore k (by omega), update_of_ne (Nat.ne_of_lt hk)]
        · rcases Nat.eq_or_lt_of_le h₁ with rfl | hlt
          · rw [hi]
            exact ⟨hlow, Nat.lt_of_lt_of_le hhigh (by decide), hzero⟩
          · obtain ⟨h₃, h₄, -⟩ := hgot k hlt (by omega)
            exact ⟨h₃, h₄, (hlater k hlt (by omega)).2⟩
        · rcases Nat.eq_or_lt_of_le hj₁ with rfl | hj
          · rcases Nat.eq_or_lt_of_le hk₁ with rfl | hk
            · rfl
            · exact absurd (he.symm.trans hi) (hlater k hk (by omega)).1
          · rcases Nat.eq_or_lt_of_le hk₁ with rfl | hk
            · exact absurd (he.trans hi) (hlater j hj (by omega)).1
            · exact hapart j k hj (by omega) hk (by omega) he
      · cases hg : giveBack (i + 1) (update shmaddr i 0) m with
        | error e =>
            rw [hg] at h
            cases h
        | ok r =>
            rw [hg] at h
            cases h

/-- What `sys_shmget` stores is a slot with such pages, or with none. -/
theorem sysShmget_pages {key size shmflg : Word} {r : Int}
    (h : sysShmget s key size shmflg = some (r, s')) :
    s' = s ∨ ∃ i x, s'.shmnum = update s.shmnum i x ∧ PagesOk x := by
  rcases sysShmget_made h with hs | ⟨i, -, -, hsize, -, -, got, shmaddr, m, hget, -, rfl⟩
  · exact Or.inl hs
  · refine Or.inr ⟨i, _, rfl, ?_⟩
    cases got with
    | true =>
        obtain ⟨-, hgot, hapart⟩ := getPages_spec hget
        rw [Nat.zero_add] at hgot hapart
        exact ⟨hsize.2, fun k hk =>
          ⟨(hgot k (Nat.zero_le k) hk).1, (hgot k (Nat.zero_le k) hk).2.1⟩,
          fun j hj k hk => hapart j k (Nat.zero_le j) hj (Nat.zero_le k) hk⟩
    | false => exact .none rfl

theorem PagesOk.update {shmnum : Nat → ShmStruct} (h : ∀ i, PagesOk (shmnum i)) (i : Nat)
    (hx : PagesOk x) (j : Nat) : PagesOk (update shmnum i x j) := by
  rcases eq_or_ne j i with rfl | hji
  · rw [update_self]
    exact hx
  · rw [update_of_ne hji]
    exact h j

theorem PagesOk.detached (h : PagesOk x) (j : Nat) : PagesOk (detached x j) := by
  unfold Linux011.detached
  split
  · exact .none rfl
  · exact h.congr rfl rfl

theorem pagesOk_step {a : Act} (h : ∀ i, PagesOk (s.shmnum i)) (hs : Shm.step s a = some s') :
    ∀ i, PagesOk (s'.shmnum i) := by
  cases a with
  | shmget key size shmflg =>
      obtain ⟨⟨r, s'⟩, hr, rfl⟩ := Option.map_eq_some_iff.mp hs
      rcases sysShmget_pages hr with rfl | ⟨i, x, he, hx⟩
      · exact h
      · dsimp only
        rw [he]
        exact PagesOk.update h i hx
  | shmat t shmid shmaddr shmflg =>
      obtain ⟨⟨r, s'⟩, hr, rfl⟩ := Option.map_eq_some_iff.mp hs
      rcases sysShmat_cases hr with ⟨-, he, -⟩ | ⟨i, address, m, -, -, -, -, rfl⟩
      · dsimp only
        rw [he]
        exact h
      · exact PagesOk.update h i ((h i).congr (record_pageNum ..) (record_shmaddr ..))
  | shmdt t shmaddr =>
      obtain ⟨⟨r, s'⟩, hr, rfl⟩ := Option.map_eq_some_iff.mp hs
      rcases sysShmdt_cases hr with ⟨-, rfl⟩ | ⟨i, j, -, -, hc⟩
      · exact h
      · split at hc
        · dsimp only
          rw [hc]
          exact PagesOk.update h i ((h i).detached j)
        · rw [hc]
          exact h
  | memory m =>
      obtain rfl := Option.some.inj hs
      exact h

theorem pagesOk_reach {shmnum : Nat → ShmStruct} {m : Mem}
    (h : Reach Shm.step Free (start shmnum m) s) (i : Nat) : PagesOk (s.shmnum i) :=
  h.invariant (I := fun s => ∀ i, PagesOk (s.shmnum i)) (fun _ => .none rfl)
    (fun _ _ _ hi _ hs => pagesOk_step hi hs) i

/-! ## Attaching -/

/-- The pages of a segment are at the address, one after another, and no other entry that
was present has changed. -/
def Attached (m m' : Mem) (x : ShmStruct) (address : Nat) : Prop :=
  (∀ k < x.pageNum, ∃ e, m'.ent (pagePos address k) = some e ∧ frame e = x.shmaddr k) ∧
    ∀ y, m.ent y ≠ none → (∀ k < x.pageNum, y ≠ pagePos address k) → m'.ent y = m.ent y

/-- The loop over `put_page` where all page tables are there. -/
theorem putPages_entries (shmaddr : Nat → Nat) (address : Nat) {n : Nat} (hm : Separate m)
    (hn : n ≤ 0x100000)
    (ht : ∀ k < n, m.tableOf (pagePos address k).1 ≠ none) :
    Separate (putPages shmaddr address n m) ∧
      (∀ d, m.tableOf d ≠ none → (putPages shmaddr address n m).tableOf d ≠ none) ∧
      (∀ k < n, (putPages shmaddr address n m).ent (pagePos address k)
        = some (entry (shmaddr k))) ∧
      ∀ y, (∀ k < n, y ≠ pagePos address k) →
        (putPages shmaddr address n m).ent y = m.ent y := by
  induction n with
  | zero => exact ⟨hm, fun _ hd => hd, fun k hk => absurd hk (Nat.not_lt_zero k), fun _ _ => rfl⟩
  | succ n ih =>
      obtain ⟨hm₁, htab₁, hpages₁, hkeep₁⟩ := ih (by omega) fun k hk => ht k (by omega)
      have hstep : putPages shmaddr address (n + 1) m
          = (putPage (putPages shmaddr address n m) (shmaddr n)
              ((address + n * PAGE_SIZE) % 2 ^ 32)).2 := by
        rw [putPages, List.range_succ, List.foldl_append]
        rfl
      have hpos : posOf ((address + n * PAGE_SIZE) % 2 ^ 32) = pagePos address n :=
        ShmHeap.posOf_congr (Nat.mod_mod ..)
      have htn : pageTable (putPages shmaddr address n m)
          (dirSlot ((address + n * PAGE_SIZE) % 2 ^ 32)) ≠ none := by
        refine ShmHeap.pageTable_of_tableOf (htab₁ _ ?_)
        rw [show dirSlot ((address + n * PAGE_SIZE) % 2 ^ 32) = (pagePos address n).1 from
          congrArg Prod.fst hpos]
        exact ht n (Nat.lt_succ_self n)
      obtain ⟨-, hm₂, htab₂, hent₂⟩ := ShmHeap.putPage_entry hm₁ (shmaddr n) htn
      rw [hpos] at hent₂
      rw [hstep]
      refine ⟨hm₂, fun d hd => htab₂ d (htab₁ d hd), fun k hk => ?_, fun y hy => ?_⟩
      · rw [hent₂]
        rcases Nat.lt_succ_iff_lt_or_eq.mp hk with hlt | rfl
        · have hne : pagePos address k ≠ pagePos address n := fun e =>
            absurd (pagePos_inj (by omega) (by omega) e) (Nat.ne_of_lt hlt)
          rw [update_of_ne hne]
          exact hpages₁ k hlt
        · rw [update_self]
      · rw [hent₂, update_of_ne (hy n (Nat.lt_succ_self n))]
        exact hkeep₁ y fun k hk => hy k (by omega)

/-- The loop over `put_page` that puts all pages at one address. -/
theorem putSame_entries {shmaddr : Nat → Nat} {address : Nat} {is : List Nat} (hm : Separate m)
    (h : putSame shmaddr address is m = (true, m')) :
    Separate m' ∧ (∀ y, y ≠ posOf address → m'.ent y = m.ent y) ∧
      m'.ent (posOf address) = match is.getLast? with
        | none => m.ent (posOf address)
        | some i => some (entry (shmaddr i)) := by
  induction is generalizing m with
  | nil =>
      obtain ⟨-, rfl⟩ := Prod.mk.inj h
      exact ⟨hm, fun _ _ => rfl, rfl⟩
  | cons i is ih =>
      rw [putSame] at h
      dsimp only at h
      split at h
      · cases h
      · rename_i hpage
        have ht : pageTable m (dirSlot address) ≠ none := by
          intro hnone
          rw [putPage, hnone] at hpage
          exact hpage rfl
        obtain ⟨-, hm₁, -, hent₁⟩ := ShmHeap.putPage_entry hm (shmaddr i) ht
        obtain ⟨hm', hkeep, hlast⟩ := ih hm₁ h
        refine ⟨hm', fun y hy => ?_, ?_⟩
        · rw [hkeep y hy, hent₁, update_of_ne hy]
        · rw [hlast, List.getLast?_cons]
          cases is.getLast? with
          | none => rw [hent₁, update_self]; rfl
          | some j => rfl

/-- Without an address the segment comes to pages that were not present, behind the heap. -/
theorem attached_null (hm : Separate m) (hx : PagesOk x) {shmflg : Word} {address : Nat}
    (h : mapSegment m t x 0 shmflg = some (some address, m')) : Attached m m' x address := by
  obtain ⟨found, m₁, hfind, ⟨hyes, ha, rfl⟩ | ⟨ha, -⟩⟩ := mapSegment_null h
  · obtain rfl := Option.some.inj ha
    obtain ⟨hm₁, hent₁, -, hfound⟩ := ShmHeap.findFrom_spec hm hfind
    obtain ⟨-, hpages⟩ := hfound hyes
    have hbound : x.pageNum ≤ 0x100000 := Nat.le_trans hx.pageNum (by decide)
    obtain ⟨-, -, hput, hkeep⟩ := putPages_entries x.shmaddr (heapEnd t) hm₁ hbound
      fun k hk => (hpages k hk).1
    refine ⟨fun k hk => ⟨_, hput k hk, frame_entry (hx.frames k hk).2⟩, fun y _ hy => ?_⟩
    rw [hkeep y hy, hent₁]
  · cases ha

/-- With an address only the last page is there. -/
theorem attached_explicit (hm : Separate m) (hx : PagesOk x) {shmaddr shmflg : Word}
    {address : Nat} (haddr : shmaddr ≠ 0)
    (h : mapSegment m t x shmaddr shmflg = some (some address, m')) :
    Attached m m' x address ↔ x.pageNum ≤ 1 := by
  rw [mapSegment, if_neg haddr] at h
  obtain ⟨ha, rfl⟩ := Prod.mk.inj (Option.some.inj h)
  generalize (if shmflg &&& SHM_RND ≠ 0 then shmaddr.toNat - shmaddr.toNat % SHMLBA
    else shmaddr.toNat) = a at *
  cases hput : putSame x.shmaddr a (List.range x.pageNum) m with
  | mk mapped m₁ =>
      rw [hput] at ha
      dsimp only at ha ⊢
      cases mapped with
      | false => cases ha
      | true =>
          obtain rfl := Option.some.inj ha
          obtain ⟨-, hkeep, hlast⟩ := putSame_entries hm hput
          have hfirst : pagePos a 0 = posOf a := by rw [pagePos, Nat.zero_mul, Nat.add_zero]
          constructor
          · rintro ⟨hall, -⟩
            by_contra hmany
            have hn : x.pageNum = x.pageNum - 2 + 1 + 1 := by omega
            rw [hn, List.range_succ, List.getLast?_concat] at hlast
            -- page 0 should be there, and the last one is
            obtain ⟨e, he, hframe⟩ := hall 0 (by omega)
            rw [hfirst, hlast] at he
            obtain rfl := Option.some.inj he
            rw [frame_entry (hx.frames _ (by omega)).2] at hframe
            have := hx.apart _ (by omega) 0 (by omega) hframe
            omega
          · intro hone
            rcases Nat.le_one_iff_eq_zero_or_eq_one.mp hone with h0 | h1
            · refine ⟨fun k hk => by omega, fun y _ _ => ?_⟩
              rw [h0] at hput
              obtain ⟨-, rfl⟩ := Prod.mk.inj hput
              rfl
            · rw [h1] at hlast
              refine ⟨fun k hk => ?_, fun y _ hy => hkeep y ?_⟩
              · obtain rfl : k = 0 := by omega
                exact ⟨_, hfirst ▸ hlast, frame_entry (hx.frames 0 hk).2⟩
              · rw [← hfirst]
                exact hy 0 (by omega)

/-- **Attaching.** When `sys_shmat` returns an address, the pages of the segment are there
one after another and no other entry that was present has changed, exactly when no
address was given or the segment has at most one page. -/
theorem attach_maps {shmnum : Nat → ShmStruct} {m₀ : Mem}
    (h : Reach Shm.step Free (start shmnum m₀) s) (hm : Separate s.mem) {i v : Nat}
    {shmaddr shmflg : Word} (hr : sysShmat s t i shmaddr shmflg = some (some v, s')) :
    Attached s.mem s'.mem (s.shmnum i) (t.base.toNat + v) ↔
      shmaddr = 0 ∨ (s.shmnum i).pageNum ≤ 1 := by
  have hx := pagesOk_reach h i
  rcases sysShmat_cases hr with ⟨e, -⟩ | ⟨i', address, m, hi, -, hmap, hv, rfl⟩
  · cases e
  · obtain rfl := Int.ofNat.inj hi
    obtain rfl := Option.some.inj hv
    have hpos : ∀ k, pagePos (t.base.toNat + (address + 2 ^ 32 - t.base.toNat) % 2 ^ 32) k
        = pagePos address k := fun k => ShmHeap.posOf_congr (by
      have := t.base.isLt
      omega)
    have hat : Attached s.mem m (s.shmnum i)
        (t.base.toNat + (address + 2 ^ 32 - t.base.toNat) % 2 ^ 32) ↔
        Attached s.mem m (s.shmnum i) address := by simp only [Attached, hpos]
    rw [hat]
    rcases eq_or_ne shmaddr 0 with rfl | hne
    · exact iff_of_true (attached_null hm hx hmap) (Or.inl rfl)
    · rw [attached_explicit hm hx hne hmap, or_iff_right hne]

theorem separate_getFreePage {p : Nat} (hm : Separate m) (h : getFreePage m = some (p, m')) :
    Separate m' := by
  obtain ⟨hlow, -, -, rfl⟩ := getFreePage_eq h
  have htab : ({ m with phys := update m.phys p fun _ => 0
                        memMap := update m.memMap p 1 } : Mem).tableOf = m.tableOf :=
    tableOf_congr fun d => by
      have h256 : LOW_MEM = 256 := rfl
      rw [Mem.dir, Mem.dir]
      dsimp only
      rw [update_of_ne (by omega)]
  constructor
  · rw [htab]
    exact hm.table_pos
  · rw [htab]
    exact hm.table_inj
  · rw [htab]
    intro d t ht hlow
    by_cases hp : t = p
    · dsimp only
      rw [hp, update_self]
      decide
    · dsimp only
      rw [update_of_ne hp]
      exact hm.table_used d t ht hlow

theorem separate_getPages {i left : Nat} {shmaddr shmaddr' : Nat → Nat} (hm : Separate m)
    (h : getPages i left shmaddr m = .ok (true, shmaddr', m')) : Separate m' := by
  induction left generalizing i shmaddr m with
  | zero =>
      obtain ⟨-, he⟩ := Prod.mk.inj (Except.ok.inj h)
      obtain ⟨-, rfl⟩ := Prod.mk.inj he
      exact hm
  | succ left ih =>
      rw [getPages] at h
      split at h
      · rename_i page m₁ hp
        exact ih (separate_getFreePage hm hp) h
      · obtain ⟨⟨_, _⟩, -, he⟩ := Loops.bind_eq_ok h
        cases he

/-- A call that makes a segment leaves the page tables apart. -/
theorem separate_shmget {key size shmflg : Word} {n : Nat} (hm : Separate s.mem)
    (hs : Shm.step s (.shmget key size shmflg) = some s')
    (hr : (sysShmget s key size shmflg).map Prod.fst = some (n : Int)) : Separate s'.mem := by
  obtain ⟨⟨r, s'⟩, h, rfl⟩ := Option.map_eq_some_iff.mp hs
  rw [h] at hr
  obtain rfl : r = n := Option.some.inj hr
  rcases sysShmget_made h with rfl | ⟨i, -, -, -, -, -, got, shmaddr, m, hgot, hn, rfl⟩
  · exact hm
  · cases got with
    | true => exact separate_getPages hm hgot
    | false => cases hn

theorem separate_shmat {i : Int} (hm : Separate s.mem)
    (hs : Shm.step s (.shmat t i 0 0) = some s') : Separate s'.mem := by
  obtain ⟨⟨r, s'⟩, hr, rfl⟩ := Option.map_eq_some_iff.mp hs
  rcases sysShmat_cases hr with ⟨-, -, rfl | hmap⟩ | ⟨i', address, m, -, -, hmap, -, rfl⟩
  · exact hm
  · exact (ShmHeap.mapSegment_spec hm hmap).1
  · exact (ShmHeap.mapSegment_spec hm hmap).1

/-- A segment of two pages, attached without an address. -/
theorem attach_maps_null : ∃ s s',
    exec Shm.step (start shmBoot Shm.freeMem) [.shmget 5 0x2000 IPC_CREAT] = some s ∧
      (s.shmnum 0).pageNum = 2 ∧ sysShmat s Shm.taskOne 0 0 0 = some (some 0x1000, s') ∧
      Attached s.mem s'.mem (s.shmnum 0) 0x4001000 := by
  obtain ⟨s, hs, hn, hat⟩ : ∃ s, exec Shm.step (start shmBoot Shm.freeMem)
      [.shmget 5 0x2000 IPC_CREAT] = some s ∧ (s.shmnum 0).pageNum = 2 ∧
        (sysShmat s Shm.taskOne (0 : Nat) 0 0).map Prod.fst = some (some 0x1000) :=
    exec_any (by decide +kernel)
  obtain ⟨⟨r, s'⟩, hat, rfl⟩ := Option.map_eq_some_iff.mp hat
  have hsep : Separate s.mem := by
    obtain ⟨s₁, h₁, h⟩ := Option.bind_eq_some_iff.mp hs
    obtain rfl := Option.some.inj h
    exact separate_shmget (n := 0) (memInit_separate ..) h₁ (by decide +kernel)
  exact ⟨s, s', hs, hn, hat, (attach_maps (exec_reach hs) hsep hat).mpr (Or.inl rfl)⟩

/-- The same segment, attached at an address: its second page is at the place of the
first. -/
theorem not_attach_maps :
    ∃ s, exec Shm.step (start shmBoot Shm.freeMem) [.shmget 5 0x2000 IPC_CREAT] = some s ∧
      ∃ s', sysShmat s Shm.taskOne 0 0x5000000 0 = some (some 0x1000000, s') ∧
        ¬Attached s.mem s'.mem (s.shmnum 0) 0x5000000 := by
  obtain ⟨s, hs, hn, hne, hr⟩ : ∃ s, exec Shm.step (start shmBoot Shm.freeMem)
      [.shmget 5 0x2000 IPC_CREAT] = some s ∧ (s.shmnum 0).pageNum = 2 ∧
        (s.shmnum 0).shmaddr 1 ≠ (s.shmnum 0).shmaddr 0 ∧
        (sysShmat s Shm.taskOne 0 0x5000000 0).map
          (fun r => (r.1, (r.2.mem.ent (pagePos 0x5000000 0)).map frame))
          = some (some 0x1000000, some ((s.shmnum 0).shmaddr 1)) := exec_any (by decide)
  obtain ⟨⟨r, s'⟩, hr, he⟩ := Option.map_eq_some_iff.mp hr
  obtain ⟨rfl, hent⟩ := Prod.mk.inj he
  refine ⟨s, hs, s', hr, fun hat => ?_⟩
  obtain ⟨e, he, hframe⟩ := hat.1 0 (by omega)
  rw [he] at hent
  exact hne ((Option.some.inj hent).symm.trans hframe)

/-! ## Detaching -/

/-- Entry 0 of the page table of a position. -/
def tableHead (y : Pos) : Pos := (y.1, tableSlot 0)

/-- The entries that the walk over `n` pages clears: entry 0 of the page table is present,
and the walk clears it only as this entry. -/
def Clears (m : Mem) (address n : Nat) (y : Pos) : Prop :=
  (∃ k < n, y = pagePos address k) ∧ m.ent (tableHead y) ≠ none ∧
    (y = tableHead y ∨ ∀ k < n, pagePos address k ≠ tableHead y)

/-- None of the `n` pages is present, and all other entries are as before. -/
def Unmapped (m m' : Mem) (address n : Nat) : Prop :=
  (∀ k < n, m'.ent (pagePos address k) = none) ∧
    ∀ y, (∀ k < n, y ≠ pagePos address k) → m'.ent y = m.ent y

/-- The slot that `sys_shmdt` finds has attachments, and the walk over its pages clears
every one of the `n` pages that is present, and no other entry that is. -/
def Covered (s : ShmState) (t : Task) (shmaddr : Word) (n : Nat) : Prop :=
  ∀ i j, findRecord s.shmnum t.pid ((shmaddr.toNat + t.base.toNat) % 2 ^ 32) = some (i, j) →
    (∀ k < n, s.mem.ent (pagePos (t.base.toNat + shmaddr.toNat) k) ≠ none →
      0 < (s.shmnum i).shm_nattch.toInt ∧ Clears s.mem (t.base.toNat + shmaddr.toNat)
        (s.shmnum i).pageNum (pagePos (t.base.toNat + shmaddr.toNat) k)) ∧
    ∀ y, s.mem.ent y ≠ none → 0 < (s.shmnum i).shm_nattch.toInt →
      Clears s.mem (t.base.toNat + shmaddr.toNat) (s.shmnum i).pageNum y →
      ∃ k < n, y = pagePos (t.base.toNat + shmaddr.toNat) k

/-- Behind entry 0 of a page table the range has no other page of it in front. -/
theorem pagePos_order {address j k : Nat} (hj : j < 0x400) (hk : k < 0x400) (hkj : k < j)
    (h : pagePos address j = tableHead (pagePos address k)) : False := by
  obtain ⟨hdir, htable⟩ := Prod.mk.inj h
  have hdir : (address + j * PAGE_SIZE) / 0x400000 % 1024
      = (address + k * PAGE_SIZE) / 0x400000 % 1024 := congrArg Fin.val hdir
  have htable : (address + j * PAGE_SIZE) / 0x1000 % 1024 = 0 := congrArg Fin.val htable
  have hpage : (address + j * PAGE_SIZE) / 0x1000 = address / 0x1000 + j := by
    simp only [PAGE_SIZE]
    omega
  have hbig : ∀ i, (address + i * PAGE_SIZE) / 0x400000 = (address / 0x1000 + i) / 1024 :=
    fun i => by
      simp only [PAGE_SIZE]
      omega
  rw [hbig, hbig] at hdir
  rw [hpage] at htable
  omega

theorem cancelAdress_entry (hm : Separate m) (addr : Nat) :
    Separate (cancelAdress m addr) ∧ (cancelAdress m addr).ent
      = if m.ent (tableHead (posOf addr)) = none then m.ent
        else update m.ent (posOf addr) none := by
  unfold cancelAdress
  split
  · rename_i hdir
    have ht : m.tableOf (posOf addr).1 = some (m.table (dirSlot addr)) := if_pos hdir
    have hhead : m.ent (tableHead (posOf addr)) = none ↔
        ¬Present (m.phys (m.table (dirSlot addr)) 0) := ent_eq_none ht
    split
    · rename_i hpres
      refine ⟨hm.write ht _ _, ?_⟩
      rw [if_neg fun hnone => hhead.mp hnone hpres]
      exact (hm.write_ent ht 0).trans (by rw [presentEntry, if_neg not_present_zero])
    · rename_i hpres
      exact ⟨hm, by rw [if_pos (hhead.mpr hpres)]⟩
  · rename_i hdir
    have hnone : m.ent (tableHead (posOf addr)) = none := by
      have ht : m.tableOf (tableHead (posOf addr)).1 = none := if_neg hdir
      rw [Mem.ent, ht]
      rfl
    exact ⟨hm, by rw [if_pos hnone]⟩

/-- What the walk has done to the entries after `k` pages. -/
theorem walk_entries (hm : Separate m) (address : Nat) {n : Nat} (hn : n ≤ PAGE_NUM) :
    ∀ k ≤ n, ∃ m', (List.range k).foldl
        (fun m k => cancelAdress m ((address + k * PAGE_SIZE) % 2 ^ 32)) m = m' ∧ Separate m' ∧
      (∀ i < k, Clears m address n (pagePos address i) → m'.ent (pagePos address i) = none) ∧
      ∀ y, (∀ i < k, y = pagePos address i → ¬Clears m address n y) → m'.ent y = m.ent y := by
  have h64 : PAGE_NUM = 64 := rfl
  intro k
  induction k with
  | zero => exact fun _ => ⟨m, rfl, hm, fun i hi => absurd hi (Nat.not_lt_zero i), fun _ _ => rfl⟩
  | succ k ih =>
      intro hk
      obtain ⟨m₁, hfold, hm₁, hcleared, hkept⟩ := ih (by omega)
      have hpos : posOf ((address + k * PAGE_SIZE) % 2 ^ 32) = pagePos address k :=
        ShmHeap.posOf_congr (Nat.mod_mod ..)
      obtain ⟨hm₂, hent₂⟩ := cancelAdress_entry hm₁ ((address + k * PAGE_SIZE) % 2 ^ 32)
      rw [hpos] at hent₂
      -- the test of this round sees entry 0 as it was, unless it was cleared before
      have htest : m₁.ent (tableHead (pagePos address k)) ≠ none ↔
          Clears m address n (pagePos address k) := by
        constructor
        · intro hhead
          have hbefore : ∀ i < k, pagePos address i = tableHead (pagePos address k) →
              ¬Clears m address n (pagePos address i) := fun i hi e hc =>
            hhead (e ▸ hcleared i hi hc)
          have hm : m.ent (tableHead (pagePos address k)) ≠ none := by
            rw [hkept] at hhead
            · exact hhead
            · intro i hi e
              rw [e]
              exact hbefore i hi e.symm
          refine ⟨⟨k, hk, rfl⟩, hm, ?_⟩
          by_contra hno
          obtain ⟨hne, hin⟩ := not_or.mp hno
          obtain ⟨i, hi⟩ := not_forall.mp hin
          obtain ⟨hin, he⟩ := Classical.not_imp.mp hi
          have he := not_not.mp he
          rcases Nat.lt_trichotomy i k with hik | rfl | hki
          · refine hbefore i hik he ⟨⟨i, hin, rfl⟩, ?_, Or.inl ?_⟩
            · rw [he]
              exact hm
            · rw [he]
              rfl
          · exact hne he
          · exact pagePos_order (by omega) (by omega) hki he
        · rintro ⟨-, hhead, hor⟩
          rw [hkept]
          · exact hhead
          · intro i hi e hc
            rcases hor with hself | hnot
            · have := pagePos_inj (by omega) (by omega) (hself.trans e)
              omega
            · exact hnot i (by omega) e.symm
      refine ⟨cancelAdress m₁ ((address + k * PAGE_SIZE) % 2 ^ 32), ?_, hm₂, ?_, ?_⟩
      · rw [List.range_succ, List.foldl_append, hfold]
        rfl
      · intro i hi hc
        rw [hent₂]
        split
        · rename_i hno
          rcases Nat.lt_succ_iff_lt_or_eq.mp hi with hlt | rfl
          · exact hcleared i hlt hc
          · exact absurd hno (htest.mpr hc)
        · rcases Nat.lt_succ_iff_lt_or_eq.mp hi with hlt | rfl
          · have hne : pagePos address i ≠ pagePos address k := fun e =>
              absurd (pagePos_inj (by omega) (by omega) e) (Nat.ne_of_lt hlt)
            rw [update_of_ne hne]
            exact hcleared i hlt hc
          · rw [update_self]
      · intro y hy
        have hold := hkept y fun i hi => hy i (Nat.lt_succ_of_lt hi)
        rw [hent₂]
        split
        · exact hold
        · rename_i hyes
          have hc := htest.mp hyes
          have hne : y ≠ pagePos address k := fun e =>
            hy k (Nat.lt_succ_self k) e (e ▸ hc)
          rw [update_of_ne hne]
          exact hold

theorem freePages_ent {shmaddr : Nat → Nat} {ks : List Nat}
    (h : ks.foldlM (fun m k => freePage m (shmaddr k)) m = .ok m') : m'.ent = m.ent := by
  induction ks generalizing m with
  | nil =>
      obtain rfl := Except.ok.inj h
      rfl
  | cons k ks ih =>
      rw [List.foldlM_cons] at h
      cases h₁ : freePage m (shmaddr k) with
      | error e =>
          rw [h₁] at h
          cases h
      | ok m₁ =>
          rw [h₁] at h
          have hphys : m₁.phys = m.phys := by
            unfold freePage at h₁
            split at h₁
            · rw [Except.ok.inj h₁]
            · split at h₁
              · cases h₁
              · split at h₁
                · rw [← Except.ok.inj h₁]
                  rfl
                · cases h₁
          exact (ih h).trans (ent_of_phys hphys)

/-- The entries after `sys_shmdt` are those after the walk, if there is one. -/
theorem sysShmdt_ent {shmaddr : Word} (h : sysShmdt s t shmaddr = some (0, s')) :
    ∃ i j, findRecord s.shmnum t.pid ((shmaddr.toNat + t.base.toNat) % 2 ^ 32) = some (i, j) ∧
      s'.mem.ent = if 0 < (s.shmnum i).shm_nattch.toInt then
          ((List.range (s.shmnum i).pageNum).foldl (fun m k =>
            cancelAdress m (((s.shmnum i).vaddr j + k * PAGE_SIZE) % 2 ^ 32)) s.mem).ent
        else s.mem.ent := by
  rcases sysShmdt_made h with ⟨e, -⟩ | ⟨i, j, hij, -, hc⟩
  · cases e
  · refine ⟨i, j, hij, ?_⟩
    split at hc
    · rename_i hn
      rw [if_pos hn]
      obtain ⟨-, hmem⟩ := hc
      split at hmem
      · exact freePages_ent hmem
      · rw [hmem]
        rfl
    · rename_i hn
      rw [if_neg hn, hc]

/-- The walk clears what `Clears` says, and nothing when there are no attachments. -/
theorem sysShmdt_clears {shmnum : Nat → ShmStruct} {m₀ : Mem}
    (h : Reach Shm.step Free (start shmnum m₀) s) (hm : Separate s.mem) {shmaddr : Word}
    (hr : sysShmdt s t shmaddr = some (0, s')) :
    ∃ i j, findRecord s.shmnum t.pid ((shmaddr.toNat + t.base.toNat) % 2 ^ 32) = some (i, j) ∧
      ∀ y, (0 < (s.shmnum i).shm_nattch.toInt ∧
          Clears s.mem (t.base.toNat + shmaddr.toNat) (s.shmnum i).pageNum y →
            s'.mem.ent y = none) ∧
        (¬(0 < (s.shmnum i).shm_nattch.toInt ∧
          Clears s.mem (t.base.toNat + shmaddr.toNat) (s.shmnum i).pageNum y) →
            s'.mem.ent y = s.mem.ent y) := by
  obtain ⟨i, j, hij, hent⟩ := sysShmdt_ent hr
  obtain ⟨-, -, -, hvaddr⟩ := findRecord_some hij
  refine ⟨i, j, hij, fun y => ?_⟩
  have hpos : ∀ k, pagePos ((s.shmnum i).vaddr j) k
      = pagePos (t.base.toNat + shmaddr.toNat) k := fun k => ShmHeap.posOf_congr (by
    rw [hvaddr]
    omega)
  have hclears : Clears s.mem ((s.shmnum i).vaddr j) (s.shmnum i).pageNum y ↔
      Clears s.mem (t.base.toNat + shmaddr.toNat) (s.shmnum i).pageNum y := by
    simp only [Clears, hpos]
  rw [← hclears, hent]
  split
  · rename_i hn
    obtain ⟨m', hfold, -, hcleared, hkept⟩ := walk_entries hm ((s.shmnum i).vaddr j)
      (pagesOk_reach h i).pageNum _ (Nat.le_refl _)
    rw [hfold]
    refine ⟨fun hc => ?_, fun hc => ?_⟩
    · obtain ⟨k, hk, rfl⟩ := hc.2.1
      exact hcleared k hk hc.2
    · exact hkept y fun _ _ _ hc' => hc ⟨hn, hc'⟩
  · rename_i hn
    exact ⟨fun hc => absurd hc.1 hn, fun _ => rfl⟩

/-- **Detaching.** When `sys_shmdt` returns 0, none of the `n` pages of a segment is
present afterwards and all other entries are as before, exactly when the walk covers
what is present. -/
theorem detach_unmaps {shmnum : Nat → ShmStruct} {m₀ : Mem}
    (h : Reach Shm.step Free (start shmnum m₀) s) (hm : Separate s.mem) {shmaddr : Word}
    (n : Nat) (hr : sysShmdt s t shmaddr = some (0, s')) :
    Unmapped s.mem s'.mem (t.base.toNat + shmaddr.toNat) n ↔ Covered s t shmaddr n := by
  obtain ⟨i, j, hij, hclears⟩ := sysShmdt_clears h hm hr
  constructor
  · rintro ⟨hgone, hkeep⟩ i' j' hij'
    obtain ⟨rfl, rfl⟩ := Prod.mk.inj (Option.some.inj (hij.symm.trans hij'))
    refine ⟨fun k hk hpres => ?_, fun y hpres hn hc => ?_⟩
    · by_contra hno
      rw [← (hclears _).2 hno, hgone k hk] at hpres
      exact hpres rfl
    · by_contra hout
      have hsame := hkeep y fun k hk e => hout ⟨k, hk, e⟩
      rw [← hsame, (hclears y).1 ⟨hn, hc⟩] at hpres
      exact hpres rfl
  · intro hcov
    obtain ⟨hall, hothers⟩ := hcov i j hij
    refine ⟨fun k hk => ?_, fun y hout => ?_⟩
    · by_cases hpres : s.mem.ent (pagePos (t.base.toNat + shmaddr.toNat) k) = none
      · by_cases hc : 0 < (s.shmnum i).shm_nattch.toInt ∧ Clears s.mem
            (t.base.toNat + shmaddr.toNat) (s.shmnum i).pageNum
            (pagePos (t.base.toNat + shmaddr.toNat) k)
        · exact (hclears _).1 hc
        · rw [(hclears _).2 hc, hpres]
      · exact (hclears _).1 (hall k hk hpres)
    · by_cases hc : 0 < (s.shmnum i).shm_nattch.toInt ∧ Clears s.mem
          (t.base.toNat + shmaddr.toNat) (s.shmnum i).pageNum y
      · by_cases hpres : s.mem.ent y = none
        · rw [(hclears y).1 hc, hpres]
        · obtain ⟨k, hk, e⟩ := hothers y hpres hc.1 hc.2
          exact absurd e (hout k hk)
      · exact (hclears y).2 hc

/-- Tasks whose heaps end where a page table starts. -/
def roundTask (pid : Nat) (base : Word) (h : pid ≠ 0) : Task := ⟨pid, base, 0x400000, h⟩

/-- A segment of one page at entry 0 of a page table, attached by two tasks. -/
theorem detach_unmaps_shared : ∃ s s',
    exec Shm.step (start shmBoot Shm.freeMem) [.shmget 5 1 IPC_CREAT,
      .shmat (roundTask 2 0x8000000 (Nat.succ_ne_zero 1)) 0 0 0,
      .shmat (roundTask 1 0x4000000 Nat.one_ne_zero) 0 0 0] = some s ∧
      sysShmdt s (roundTask 1 0x4000000 Nat.one_ne_zero) 0x400000 = some (0, s') ∧
      s.mem.ent (pagePos 0x4400000 0) ≠ none ∧ Unmapped s.mem s'.mem 0x4400000 1 := by
  obtain ⟨s, hs, hn, hpres, hfind, hr⟩ : ∃ s, exec Shm.step (start shmBoot Shm.freeMem)
      [.shmget 5 1 IPC_CREAT,
        .shmat (roundTask 2 0x8000000 (Nat.succ_ne_zero 1)) 0 0 0,
        .shmat (roundTask 1 0x4000000 Nat.one_ne_zero) 0 0 0] = some s ∧
      ((s.shmnum 0).pageNum = 1 ∧ 0 < (s.shmnum 0).shm_nattch.toInt) ∧
      s.mem.ent (pagePos 0x4400000 0) ≠ none ∧
      findRecord s.shmnum 1 0x4400000 = some (0, 1) ∧
      (sysShmdt s (roundTask 1 0x4000000 Nat.one_ne_zero) 0x400000).map Prod.fst = some 0 :=
    exec_any (by decide +kernel)
  obtain ⟨⟨r, s'⟩, hr, hr0⟩ := Option.map_eq_some_iff.mp hr
  have hsep : Separate s.mem := by
    obtain ⟨s₁, h₁, h⟩ := Option.bind_eq_some_iff.mp hs
    obtain ⟨s₂, h₂, h⟩ := Option.bind_eq_some_iff.mp h
    obtain ⟨s₃, h₃, h⟩ := Option.bind_eq_some_iff.mp h
    obtain rfl := Option.some.inj h
    have hsep₁ : Separate s₁.mem :=
      separate_shmget (n := 0) (memInit_separate ..) h₁ (by decide +kernel)
    exact separate_shmat (separate_shmat hsep₁ h₂) h₃
  have haddr : (roundTask 1 0x4000000 Nat.one_ne_zero).base.toNat + (0x400000 : Word).toNat
      = 0x4400000 := by decide +kernel
  obtain rfl : r = 0 := hr0
  have hiff := detach_unmaps (exec_reach hs) hsep 1 hr
  simp only [Covered, haddr] at hiff
  have hsum : ((0x400000 : Word).toNat
      + (roundTask 1 0x4000000 Nat.one_ne_zero).base.toNat) % 2 ^ 32 = 0x4400000 := by
    rw [Nat.add_comm, haddr]
    omega
  have hhead : pagePos 0x4400000 0 = tableHead (pagePos 0x4400000 0) := by decide +kernel
  refine ⟨s, s', hs, hr, hpres, hiff.mpr fun i j hij => ?_⟩
  rw [hsum] at hij
  obtain ⟨rfl, rfl⟩ := Prod.mk.inj (Option.some.inj (hfind.symm.trans hij))
  rw [hn.1]
  refine ⟨fun k hk _ => ?_, fun y _ _ hc => hc.1⟩
  obtain rfl : k = 0 := by omega
  refine ⟨hn.2, ⟨0, hk, rfl⟩, ?_, Or.inl hhead⟩
  rw [← hhead]
  exact hpres

/-- A segment of two pages there: the second is left, and its frame is free. -/
theorem not_detach_unmaps :
    ∃ s, exec Shm.step (start shmBoot Shm.freeMem) [.shmget 5 0x2000 IPC_CREAT,
        .shmat (roundTask 1 0x4000000 Nat.one_ne_zero) 0 0 0] = some s ∧
      (s.shmnum 0).pageNum = 2 ∧
      ∃ s', sysShmdt s (roundTask 1 0x4000000 Nat.one_ne_zero) 0x400000 = some (0, s') ∧
        s'.mem.ent (pagePos 0x4400000 1) ≠ none := by
  obtain ⟨s, hs, hn, hr⟩ : ∃ s, exec Shm.step (start shmBoot Shm.freeMem)
      [.shmget 5 0x2000 IPC_CREAT, .shmat (roundTask 1 0x4000000 Nat.one_ne_zero) 0 0 0] = some s ∧
      (s.shmnum 0).pageNum = 2 ∧
      (sysShmdt s (roundTask 1 0x4000000 Nat.one_ne_zero) 0x400000).map
        (fun r => (r.1, (r.2.mem.ent (pagePos 0x4400000 1)).isSome)) = some (0, true) :=
    exec_any (by decide +kernel)
  obtain ⟨⟨r, s'⟩, hr, he⟩ := Option.map_eq_some_iff.mp hr
  obtain ⟨rfl, hsome⟩ := Prod.mk.inj he
  exact ⟨s, hs, hn, s', hr, Option.isSome_iff_ne_none.mp hsome⟩

end ShmPages

end Linux011
