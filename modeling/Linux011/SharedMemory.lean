import Linux011.SharedPages

/-!
# Shared memory stays shared

Two processes that attached a segment read what the other one stores there, as long as
`un_wp_page` does not take an attached page that `fork` protected for a private one: it gives the
process that stores a copy of its own when the count of the page is not 1 (`shared_memory`).

`SharedPages` has the runs of all processes, and what every one of their steps keeps: the page of
a live slot has a count and is no page table, and an entry that `sys_shmat` made shows it. What
is added here is a place: `AttachedAt` says that a segment is at an address through such entries,
and `AttachedAt.later` that no later step moves it away, as long as nobody detaches and no attach
goes to one of its pages. The step that could is the copy of `un_wp_page`, which the condition of
the runs excludes for attached pages. Two processes with the same segment then look at the same
frames (`same_of_attached`), so that one reads what the other has stored, and a store through
either address can be made.
-/

namespace Linux011

open Function RefCount Runs SegmentBooks

namespace SharedMemory

open SharedPages
open ShmPages (pagePos)
open ShmAttach (linearAddr)

variable {z : Zone} {s s' : State} {t : Task} {i address a₁ a₂ o : Nat}

/-- A live segment is at the linear address, through entries that `sys_shmat` made and that
are still there. -/
structure AttachedAt (s : State) (i address : Nat) : Prop where
  slot : i < SHM_NUM
  live : (s.shm.shmnum i).key ≠ KEY_FREE
  aligned : address % PAGE_SIZE = 0
  entries : ∀ k < (s.shm.shmnum i).pageNum,
    s.mapped (pagePos address k) = some ((s.shm.shmnum i).shmaddr k)

/-- The later steps: nobody detaches, and nobody attaches at an attached page. -/
def Later (s : State) (a : Act) : Prop :=
  Allowed s a ∧ match a with
    | .shmat _ _ shmaddr _ => shmaddr = 0 ∨ s.mapped (posOf shmaddr.toNat) = none
    | .shmdt _ _ => False
    | _ => True

/-- Both addresses lead to the same bytes: every page is the same page, and what is stored
through one address is read through the other. -/
def Same (s : State) (i a₁ a₂ : Nat) : Prop :=
  ∀ o < (s.shm.shmnum i).pageNum * PAGE_SIZE,
    s.mem.page (posOf (a₁ + o)) = some ((s.shm.shmnum i).shmaddr (o / PAGE_SIZE)) ∧
    s.mem.page (posOf (a₂ + o)) = some ((s.shm.shmnum i).shmaddr (o / PAGE_SIZE)) ∧
    s.mem.byteAt (a₁ + o) = s.mem.byteAt (a₂ + o) ∧
    ∀ value, Allowed s (.store (a₁ + o) value) →
      ∃ s', step s (.store (a₁ + o) value) = some s' ∧ s'.mem.byteAt (a₂ + o) = value

/-! ## Attached segments -/

theorem posOf_add (ha : address % PAGE_SIZE = 0) (o : Nat) :
    posOf (address + o) = pagePos address (o / PAGE_SIZE) := by
  have ha : address % 4096 = 0 := ha
  refine Prod.ext (Fin.ext ?_) (Fin.ext ?_)
  · show (address + o) / 0x400000 % 1024 = (address + o / 4096 * 4096) / 0x400000 % 1024
    omega
  · show (address + o) / 0x1000 % 1024 = (address + o / 4096 * 4096) / 0x1000 % 1024
    omega

theorem AttachedAt.page (h : AttachedAt s i address) (hi : SharedPages.Inv z s)
    (ho : o < (s.shm.shmnum i).pageNum * PAGE_SIZE) :
    s.mapped (posOf (address + o)) = some ((s.shm.shmnum i).shmaddr (o / PAGE_SIZE)) ∧
      s.mem.page (posOf (address + o)) = some ((s.shm.shmnum i).shmaddr (o / PAGE_SIZE)) := by
  have hmap := h.entries _ (Nat.div_lt_of_lt_mul (by rwa [Nat.mul_comm] at ho))
  rw [← posOf_add h.aligned] at hmap
  exact ⟨hmap, hi.books.shown _ _ hmap⟩

theorem byteAt_eq {m : Mem} (h₁ : a₁ % PAGE_SIZE = 0) (h₂ : a₂ % PAGE_SIZE = 0)
    (hpage : m.page (posOf (a₁ + o)) = m.page (posOf (a₂ + o))) :
    m.byteAt (a₁ + o) = m.byteAt (a₂ + o) := by
  have h₁ : a₁ % 4096 = 0 := h₁
  have h₂ : a₂ % 4096 = 0 := h₂
  have hword : wordSlot (a₁ + o) = wordSlot (a₂ + o) := Fin.ext (by
    show (a₁ + o) % 0x1000 / 4 = (a₂ + o) % 0x1000 / 4
    omega)
  have hbyte : (a₁ + o) % 4 = (a₂ + o) % 4 := by omega
  rw [Mem.byteAt, Mem.byteAt, hpage, hword, hbyte]

theorem same_of_attached (hi : SharedPages.Inv z s) (h₁ : AttachedAt s i a₁)
    (h₂ : AttachedAt s i a₂) : Same s i a₁ a₂ := fun o ho => by
  obtain ⟨-, hp₁⟩ := h₁.page hi ho
  obtain ⟨-, hp₂⟩ := h₂.page hi ho
  refine ⟨hp₁, hp₂, byteAt_eq h₁.aligned h₂.aligned (hp₁.trans hp₂.symm), fun value hok => ?_⟩
  obtain ⟨m, hm, -, hpage, hbyte⟩ := hi.store hok
  refine ⟨s.withMem m, by simp only [step, hm]; rfl, ?_⟩
  show m.byteAt (a₂ + o) = value
  rw [← hbyte]
  refine byteAt_eq h₂.aligned h₁.aligned ?_
  rw [hpage, hp₁, hp₂]

/-! ## The pages of the slots -/

/-- What a step does to the table is a step of `mm/shm.c`. -/
theorem shm_step {a : Act} (hs : step s a = some s') :
    ∃ b, Shm.step s.shm b = some s'.shm := by
  cases a with
  | shmget key size shmflg =>
      obtain ⟨⟨r, shm⟩, hr, rfl⟩ := Option.map_eq_some_iff.mp hs
      exact ⟨.shmget key size shmflg, Option.map_eq_some_iff.mpr ⟨_, hr, rfl⟩⟩
  | shmat t shmid shmaddr shmflg =>
      obtain ⟨⟨r, shm⟩, hr, rfl⟩ := Option.map_eq_some_iff.mp hs
      exact ⟨.shmat t shmid shmaddr shmflg, Option.map_eq_some_iff.mpr ⟨_, hr, rfl⟩⟩
  | shmdt t shmaddr =>
      obtain ⟨⟨r, shm⟩, hr, rfl⟩ := Option.map_eq_some_iff.mp hs
      exact ⟨.shmdt t shmaddr, Option.map_eq_some_iff.mpr ⟨_, hr, rfl⟩⟩
  | pages a =>
      obtain ⟨s₁, -, rfl⟩ := Option.map_eq_some_iff.mp hs
      exact ⟨.memory s₁.mem, rfl⟩
  | store address value =>
      obtain ⟨⟨r, m⟩, -, rfl⟩ := Option.map_eq_some_iff.mp hs
      exact ⟨.memory m, rfl⟩

/-- The invariant of the runs: the pages are accounted for, and every slot has its pages. -/
structure Inv (z : Zone) (s : State) : Prop where
  pages : SharedPages.Inv z s
  slots : ∀ i, ShmPages.PagesOk (s.shm.shmnum i)

theorem Inv.step {a : Act} (h : Inv z s) (hok : Allowed s a)
    (hs : SharedPages.step s a = some s') : Inv z s' := by
  obtain ⟨b, hb⟩ := shm_step hs
  exact ⟨h.pages.step hok hs, ShmPages.pagesOk_step h.slots hb⟩

theorem inv_reach {rest : Nat → Slot → Word} {shmnum : Nat → ShmStruct}
    (h : Reach step Allowed (start z rest shmnum) s) : Inv z s :=
  h.invariant (I := Inv z) ⟨inv_start z rest shmnum, fun _ => .none rfl⟩
    fun _ _ _ hi hok hs => hi.step hok hs

/-! ## The later steps -/

/-- `sys_shmat` leaves the entries that it made before, unless it is called with an address
of one of them. -/
theorem attaching_kept {own : Nat → Nat} {mapped : Pos → Option Nat} {m m' : Mem}
    (h : Books z own mapped m) {x : ShmStruct} {shmaddr shmflg : Word} {r : Option Nat}
    (hm : mapSegment m t x shmaddr shmflg = some (r, m'))
    (hok : shmaddr = 0 ∨ mapped (posOf shmaddr.toNat) = none) {y : Pos} {p : Nat}
    (hy : mapped y = some p) : attaching mapped x shmaddr r m' y = some p := by
  cases r with
  | none => exact hy
  | some address =>
    suffices hout : y ∉ places x shmaddr address from (if_neg hout).trans hy
    intro hin
    by_cases hnull : shmaddr = 0
    · -- the pages behind the heap were not there
      subst hnull
      obtain ⟨found, m₁, hfind, ⟨hyes, ha, -⟩ | ⟨ha, -⟩⟩ := mapSegment_null hm
      · obtain rfl := Option.some.inj ha
        obtain ⟨k, hk, rfl⟩ := List.mem_map.mp hin
        obtain ⟨-, -, -, hfound⟩ := ShmHeap.findFrom_spec h.separate hfind
        have hnone := ((hfound hyes).2 k (List.mem_range.mp hk)).2
        rw [h.absent (by rw [Mem.page, pagePos, hnone]; rfl)] at hy
        cases hy
      · cases ha
    · rw [mapSegment, if_neg hnull] at hm
      obtain ⟨ha, -⟩ := Prod.mk.inj (Option.some.inj hm)
      obtain ⟨-, ha⟩ := Option.ite_none_right_eq_some.mp ha
      have haddr : address = shmaddr.toNat := by
        rw [← Option.some.inj ha, SHMLBA, Nat.mod_one, Nat.sub_zero, ite_self]
      rw [places, if_neg hnull] at hin
      split at hin
      · exact List.not_mem_nil hin
      · obtain rfl := List.mem_singleton.mp hin
        rw [haddr, hok.resolve_left hnull] at hy
        cases hy

theorem attaching_entries {own : Nat → Nat} {mapped : Pos → Option Nat} {m m' : Mem}
    (h : Books z own mapped m) {x : ShmStruct} (hx : ShmPages.PagesOk x) {shmflg : Word}
    (hm : mapSegment m t x 0 shmflg = some (some address, m')) {k : Nat} (hk : k < x.pageNum) :
    attaching mapped x 0 (some address) m' (pagePos address k) = some (x.shmaddr k) := by
  have hin : pagePos address k ∈ places x 0 address :=
    List.mem_map.mpr ⟨k, List.mem_range.mpr hk, rfl⟩
  obtain ⟨e, he, hframe⟩ := (ShmPages.attached_null h.separate hx hm).1 k hk
  refine (if_pos hin).trans ?_
  rw [Mem.page, he, Option.map_some, hframe]

/-- A later step leaves the entries that `sys_shmat` made, and the live slots their
pages. -/
theorem Inv.later {a : Act} (h : Inv z s) (hok : Later s a) (hs : SharedPages.step s a = some s') :
    (∀ y p, s.mapped y = some p → s'.mapped y = some p) ∧
      ∀ i, (s.shm.shmnum i).key ≠ KEY_FREE → (s'.shm.shmnum i).key ≠ KEY_FREE ∧
        (s'.shm.shmnum i).pageNum = (s.shm.shmnum i).pageNum ∧
        (s'.shm.shmnum i).shmaddr = (s.shm.shmnum i).shmaddr := by
  cases a with
  | shmget key size shmflg =>
      obtain ⟨⟨r, shm⟩, hr, rfl⟩ := Option.map_eq_some_iff.mp hs
      refine ⟨fun _ _ hy => hy, fun i hi => ?_⟩
      rcases sysShmget_cases hr with rfl | ⟨j, -, hfree, -, -, -, shmaddr, hnew⟩
      · exact ⟨hi, rfl, rfl⟩
      · have hne : i ≠ j := fun e => hi (e ▸ hfree)
        have hsame : shm.shmnum i = s.shm.shmnum i := by
          rcases hnew with ⟨-, hnew⟩ | hnew <;> rw [hnew, update_of_ne hne]
        dsimp only
        rw [hsame]
        exact ⟨hi, rfl, rfl⟩
  | shmat t shmid shmaddr shmflg =>
      obtain ⟨⟨r, shm⟩, hr, rfl⟩ := Option.map_eq_some_iff.mp hs
      rcases sysShmat_cases hr with ⟨rfl, hsame, -⟩ | ⟨i, address, m, rfl, hi, hm, rfl, rfl⟩
      · refine ⟨fun _ _ hy => hy, fun i hi => ?_⟩
        dsimp only
        rw [hsame]
        exact ⟨hi, rfl, rfl⟩
      · refine ⟨fun y p hy => ?_, fun j hj => ?_⟩
        · show attaching s.mapped (s.shm.shmnum (i : Int).toNat) shmaddr
            (some (linearAddr t ((address + 2 ^ 32 - t.base.toNat) % 2 ^ 32))) m y = some p
          rw [ShmAttach.linearAddr_relative t (ShmAttach.mapSegment_lt hm)]
          exact attaching_kept h.pages.books hm hok.2 hy
        · dsimp only
          rcases eq_or_ne j i with rfl | hne
          · rw [update_self, record_key, record_pageNum, record_shmaddr]
            exact ⟨hj, rfl, rfl⟩
          · rw [update_of_ne hne]
            exact ⟨hj, rfl, rfl⟩
  | shmdt t shmaddr => exact hok.2.elim
  | pages a =>
      obtain ⟨s₁, hs₁, rfl⟩ := Option.map_eq_some_iff.mp hs
      refine ⟨fun y p hy => ?_, fun i hi => ⟨hi, rfl, rfl⟩⟩
      show still s.mapped s₁.mem y = some p
      rw [(h.pages.pages hok.1 hs₁).2]
      exact hy
  | store address value =>
      obtain ⟨⟨r, m⟩, -, rfl⟩ := Option.map_eq_some_iff.mp hs
      exact ⟨fun _ _ hy => hy, fun i hi => ⟨hi, rfl, rfl⟩⟩

theorem AttachedAt.later {a : Act} (h : AttachedAt s i address) (hi : Inv z s)
    (hok : Later s a) (hs : step s a = some s') : AttachedAt s' i address := by
  obtain ⟨hmapped, hslots⟩ := hi.later hok hs
  obtain ⟨hlive, hn, ha⟩ := hslots i h.live
  refine ⟨h.slot, hlive, h.aligned, fun k hk => ?_⟩
  rw [ha]
  exact hmapped _ _ (h.entries k (hn ▸ hk))

theorem attachedAt_shmat (hi : Inv z s) {shmflg : Word} {r : Nat} {shm : ShmState}
    (hlive : (s.shm.shmnum i).key ≠ KEY_FREE)
    (hr : sysShmat s.shm t i 0 shmflg = some (some r, shm))
    (hs : step s (.shmat t i 0 shmflg) = some s') : AttachedAt s' i (linearAddr t r) := by
  obtain ⟨⟨r', shm'⟩, hr', rfl⟩ := Option.map_eq_some_iff.mp hs
  obtain ⟨rfl, rfl⟩ := Prod.mk.inj (Option.some.inj (hr'.symm.trans hr))
  rcases sysShmat_cases hr with ⟨hn, -⟩ | ⟨j, address, m, hj, hlt, hm, ha, rfl⟩
  · cases hn
  · obtain rfl := Int.ofNat.inj hj
    obtain rfl := Option.some.inj ha
    have hlin := ShmAttach.linearAddr_relative t (ShmAttach.mapSegment_lt hm)
    obtain ⟨found, m₁, -, ⟨-, haddr, -⟩ | ⟨haddr, -⟩⟩ := mapSegment_null hm
    · refine ⟨hlt, ?_, ?_, fun k hk => ?_⟩
      · dsimp only
        rwa [update_self, record_key]
      · rw [hlin, Option.some.inj haddr, heapEnd]
        exact Nat.mul_mod_left _ _
      · dsimp only at hk ⊢
        rw [update_self, record_pageNum] at hk
        rw [update_self, record_shmaddr, Option.map_some, hlin]
        exact attaching_entries hi.pages.books (hi.slots i) hm hk
    · cases haddr

/-! ## Runs -/

/-- **Shared memory.** An attach without an address puts the segment at the address that
it returns. Two processes that attached a live segment in this way share its bytes, in
every later run in which no page of it is copied away: each byte is the same through
both addresses, and what is stored through one is read through the other. -/
theorem shared_memory (z : Zone) (rest : Nat → Slot → Word) (shmnum : Nat → ShmStruct)
    (h : Reach step Allowed (start z rest shmnum) s) :
    (∀ (t : Task) (i r : Nat) (shmflg : Word) (shm : ShmState) (s' : State),
      (s.shm.shmnum i).key ≠ KEY_FREE → sysShmat s.shm t i 0 shmflg = some (some r, shm) →
        step s (.shmat t i 0 shmflg) = some s' → AttachedAt s' i (linearAddr t r)) ∧
    ∀ (i a₁ a₂ : Nat) (s' : State), AttachedAt s i a₁ → AttachedAt s i a₂ →
      Reach step Later s s' → AttachedAt s' i a₁ ∧ AttachedAt s' i a₂ ∧ Same s' i a₁ a₂ := by
  have hi := inv_reach h
  refine ⟨fun t i r shmflg shm s' => attachedAt_shmat hi, fun i a₁ a₂ s' h₁ h₂ hlater => ?_⟩
  obtain ⟨hi', h₁', h₂'⟩ := hlater.invariant
    (I := fun s => Inv z s ∧ AttachedAt s i a₁ ∧ AttachedAt s i a₂) ⟨hi, h₁, h₂⟩
    fun s a s' ⟨hi, h₁, h₂⟩ hok hs => ⟨hi.step hok.1 hs, h₁.later hi hok hs, h₂.later hi hok hs⟩
  exact ⟨h₁', h₂', same_of_attached hi'.pages h₁' h₂'⟩

/-- Two processes attach a segment of one page. -/
def attachTwo : List Act :=
  [.shmget 5 1 IPC_CREAT, .shmat Shm.taskOne 0 0 0, .shmat taskTwo 0 0 0]

theorem shared_memory_two : ∃ s s', exec calls (start zone (fun _ _ => 0) shmBoot) attachTwo
      = some s ∧ step s (.store 0x4001000 7) = some s' ∧ s'.mem.byteAt 0x8001000 = 7 := by
  obtain ⟨s, hs, hkey, hn, hpage, hmap₁, hmap₂, hw⟩ : ∃ s,
      exec calls (start zone (fun _ _ => 0) shmBoot) attachTwo = some s ∧
      (s.shm.shmnum 0).key = 5 ∧ (s.shm.shmnum 0).pageNum = 1 ∧
        (s.shm.shmnum 0).shmaddr 0 = 4095 ∧ s.mapped (pagePos 0x4001000 0) = some 4095 ∧
        s.mapped (pagePos 0x8001000 0) = some 4095 ∧
        (s.mem.ent (posOf 0x4001000)).any (fun e => decide (Writable e)) = true :=
    exec_any (by decide +kernel)
  have hlive : (s.shm.shmnum 0).key ≠ KEY_FREE := by rw [hkey]; decide
  have hat : ∀ {a}, a % PAGE_SIZE = 0 → s.mapped (pagePos a 0) = some 4095 → AttachedAt s 0 a :=
    fun ha hm => ⟨by decide, hlive, ha, fun k hk => by
      rw [show k = 0 by omega, hpage]
      exact hm⟩
  obtain ⟨-, -, hsame⟩ := (shared_memory zone _ _ (reach_calls hs)).2 0 _ _ s
    (hat (by decide) hmap₁) (hat (by decide) hmap₂) .start
  obtain ⟨-, -, -, hstore⟩ := hsame 0 (by rw [hn]; decide)
  have hok : Allowed s (.store 0x4001000 7) :=
    ⟨⟨4095, hmap₁, 0, by decide, hlive, 0, by omega, hpage⟩, .inl (by
      obtain ⟨e, he, hw⟩ := (Option.any_eq_true ..).mp hw
      exact ⟨e, he, of_decide_eq_true hw⟩)⟩
  obtain ⟨s', hs', hbyte⟩ := hstore 7 hok
  exact ⟨s, s', hs, hs', hbyte⟩

set_option maxRecDepth 20000 in
/-- One of the two processes forks, and then stores a byte: the other one does not see
it. -/
theorem not_shared_memory : ∃ s s', Reach step Allowed (start zone (fun _ _ => 0) shmBoot) s ∧
    AttachedAt s 0 0x4001000 ∧ AttachedAt s 0 0x8001000 ∧ Reach step Admissible s s' ∧
      s'.mem.byteAt 0x4001000 = 7 ∧ s'.mem.byteAt 0x8001000 = 0 := by
  obtain ⟨s, hs, hkey, hn, hpage, hmap₁, hmap₂, hadm, hlater⟩ : ∃ s,
      exec calls (start zone (fun _ _ => 0) shmBoot) attachTwo = some s ∧
      (s.shm.shmnum 0).key = 5 ∧ (s.shm.shmnum 0).pageNum = 1 ∧
        (s.shm.shmnum 0).shmaddr 0 = 4095 ∧ s.mapped (pagePos 0x4001000 0) = some 4095 ∧
        s.mapped (pagePos 0x8001000 0) = some 4095 ∧
        PageCounts.Admissible ⟨s.mem, s.held⟩ (.copyPageTables 1 3 0x400000) ∧
        (step s (.pages (.copyPageTables 1 3 0x400000))).any (fun s₁ =>
          decide ((s₁.shm.shmnum 0).key = 5 ∧ (s₁.shm.shmnum 0).pageNum = 1 ∧
            (s₁.shm.shmnum 0).shmaddr 0 = 4095 ∧ s₁.mapped (posOf 0x4001000) = some 4095) &&
          (step s₁ (.store 0x4001000 7)).any fun s' =>
            decide (s'.mem.byteAt 0x4001000 = 7 ∧ s'.mem.byteAt 0x8001000 = 0)) = true :=
    exec_any (by decide +kernel)
  have hat : ∀ {a}, a % PAGE_SIZE = 0 → s.mapped (pagePos a 0) = some 4095 → AttachedAt s 0 a :=
    fun ha hm => ⟨by decide, by rw [hkey]; decide, ha, fun k hk => by
      rw [show k = 0 by omega, hpage]
      exact hm⟩
  obtain ⟨s₁, hs₁, hfacts⟩ := (Option.any_eq_true ..).mp hlater
  obtain ⟨hfacts, hstore⟩ := (Bool.and_eq_true ..).mp hfacts
  obtain ⟨hkey₁, hn₁, hpage₁, hmap⟩ := of_decide_eq_true hfacts
  obtain ⟨s', hs', hbytes⟩ := (Option.any_eq_true ..).mp hstore
  obtain ⟨hnew, hold⟩ := of_decide_eq_true hbytes
  have hok : Admissible s₁ (.store 0x4001000 7) :=
    ⟨4095, hmap, 0, by decide, by rw [hkey₁]; decide, 0, by omega, hpage₁⟩
  exact ⟨s, s', reach_calls hs, hat (by decide) hmap₁, hat (by decide) hmap₂,
    (Reach.one (a := .pages (.copyPageTables 1 3 0x400000)) hadm hs₁).next hok hs', hnew, hold⟩

end SharedMemory

end Linux011
