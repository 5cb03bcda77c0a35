import Linux011.CopyOnWrite
import Linux011.SegmentBooks
import Linux011.ShmAttach

/-!
# The pages of shared segments

Runs of `sys_shmget`, `sys_shmat` and `sys_shmdt` with the functions of `mm/memory.c`, as
`fork`, `exit`, page faults and the rest of the kernel call them. `sys_shmat` does not
raise the counts of the pages that it maps, so a process that exits without detaching
gives the count of the segment away. Where that does not happen, the pages of live
segments are never free (`segment_pages`).

The state carries, beside the segments and the memory, the entries that `sys_shmat` made and that
are still there, so that a step can be asked about them; no step of the source reads this. `Inv`
puts the pages that live segments own into the books of `SegmentBooks` as one share each, and
`owned` counts these shares over the table. A call of `shm.c` changes the shares of one slot
together with its pages, and a function of `memory.c` changes no slot; each is one lemma, and
`Inv.step` picks the right one. The condition `Spared` is the case in which a function of
`memory.c` would take a page through an entry of which it does not know that it has no count.
-/

namespace Linux011

open Function RefCount Runs SegmentBooks

namespace SharedPages

open ShmPages (pagePos)
open ShmAttach (linearAddr)

structure State where
  shm : ShmState
  /-- how often the kernel holds a page for itself -/
  held : Nat → Nat
  /-- the entries that `sys_shmat` made and that are still there, each with its page -/
  mapped : Pos → Option Nat

inductive Act where
  | shmget (key size shmflg : Word)
  | shmat (t : Task) (shmid : Int) (shmaddr shmflg : Word)
  | shmdt (t : Task) (shmaddr : Word)
  /-- a function of `mm/memory.c` -/
  | pages (a : PageCounts.Act)
  /-- a task stores a byte at a linear address -/
  | store (address : Nat) (value : Byte)

def State.mem (s : State) : Mem := s.shm.mem

def State.withMem (s : State) (m : Mem) : State := { s with shm := { s.shm with mem := m } }

def step (s : State) : Act → Option State
  | .shmget key size shmflg =>
      (sysShmget s.shm key size shmflg).map fun (_, shm) => { s with shm := shm }
  | .shmat t shmid shmaddr shmflg =>
      (sysShmat s.shm t shmid shmaddr shmflg).map fun (r, shm) =>
        { s with
          shm := shm
          mapped := attaching s.mapped (s.shm.shmnum shmid.toNat) shmaddr
            (r.map (linearAddr t)) shm.mem }
  | .shmdt t shmaddr =>
      (sysShmdt s.shm t shmaddr).map fun (_, shm) =>
        { s with shm := shm, mapped := still s.mapped shm.mem }
  | .pages a =>
      (PageCounts.run ⟨s.mem, s.held⟩ a).map fun s' =>
        { s.withMem s'.mem with held := s'.held, mapped := still s.mapped s'.mem }
  | .store address value =>
      (userStore s.mem address value).toOption.map fun (_, m) => s.withMem m

/-- The page belongs to a segment. -/
def SegmentPage (s : State) (p : Nat) : Prop :=
  ∃ i < SHM_NUM, (s.shm.shmnum i).key ≠ KEY_FREE ∧
    ∃ k < (s.shm.shmnum i).pageNum, (s.shm.shmnum i).shmaddr k = p

/-- How the kernel calls the functions of `mm/memory.c`; the stores are stores to attached
pages. -/
def Admissible (s : State) : Act → Prop
  | .pages a => PageCounts.Admissible ⟨s.mem, s.held⟩ a
  | .store address _ => ∃ p, s.mapped (posOf address) = some p ∧ SegmentPage s p
  | _ => True

/-- Nothing gives away the count of an entry that `sys_shmat` made: it is not freed with
its page table, and `un_wp_page` does not replace its page; and no count overflows. -/
def Spared (s : State) : Act → Prop
  | .pages (.freePageTables nr size) =>
      ∀ x, x.1 ∈ dirSlots (nr * TASK_SIZE) size → s.mapped x = none
  | .pages (.unWpPage x) => ∀ p, s.mapped x = some p → s.mem.memMap p = 1
  | .store address _ => s.mem.WritableAt (posOf address) ∨
      ∀ p, s.mapped (posOf address) = some p → s.mem.memMap p = 1
  | .pages (.copyPageTables src _ size) =>
      ∀ p, LOW_MEM ≤ p → max 1 (s.mem.memMap p) + forked s.mem src size p ≤ 255
  | .pages (.tryToShare address p _) =>
      ∀ q, LOW_MEM ≤ q → s.mem.page (posOf (address + p * TASK_SIZE)) = some q →
        s.mem.memMap q < 255
  | _ => True

def Allowed (s : State) (a : Act) : Prop := Admissible s a ∧ Spared s a

/-- The state after boot. -/
def start (z : Zone) (rest : Nat → Slot → Word) (shmnum : Nat → ShmStruct) : State :=
  ⟨⟨sysInishm shmnum, memInit rest z.start z.stop⟩, fun _ => 0, fun _ => none⟩

variable {z : Zone} {s s' : State} {m m' : Mem} {t : Task} {key size shmflg shmaddr : Word}

/-! ## The pages that the segments own -/

/-- How often the segments have the page. -/
@[irreducible] def owned (shmnum : Nat → ShmStruct) (p : Nat) : Nat :=
  Tally.tally (fun x : ShmStruct => (firstPages x.shmaddr x.pageNum).count p)
    fun i : Fin SHM_NUM => shmnum i

theorem owned_update (shmnum : Nat → ShmStruct) {i : Nat} (hi : i < SHM_NUM) (x : ShmStruct)
    (p : Nat) : owned (update shmnum i x) p
      + (firstPages (shmnum i).shmaddr (shmnum i).pageNum).count p
      = owned shmnum p + (firstPages x.shmaddr x.pageNum).count p := by
  have hfun : (fun j : Fin SHM_NUM => update shmnum i x j)
      = update (fun j : Fin SHM_NUM => shmnum j) ⟨i, hi⟩ x := by
    funext j
    rcases eq_or_ne j ⟨i, hi⟩ with rfl | hne
    · simp
    · rw [update_of_ne hne, update_of_ne fun e => hne (Fin.ext e)]
  unfold owned
  rw [hfun]
  exact Tally.tally_update _ (fun j : Fin SHM_NUM => shmnum j) ⟨i, hi⟩ x

theorem owned_congr (shmnum : Nat → ShmStruct) {i : Nat} (hi : i < SHM_NUM) {x : ShmStruct}
    (hn : x.pageNum = (shmnum i).pageNum) (ha : x.shmaddr = (shmnum i).shmaddr) :
    owned (update shmnum i x) = owned shmnum := by
  funext p
  have := owned_update shmnum hi x p
  rw [hn, ha] at this
  omega

theorem owned_fill (shmnum : Nat → ShmStruct) {i : Nat} (hi : i < SHM_NUM) {x : ShmStruct}
    (hn : (shmnum i).pageNum = 0) (p : Nat) :
    owned (update shmnum i x) p = owned shmnum p + (firstPages x.shmaddr x.pageNum).count p := by
  have := owned_update shmnum hi x p
  rw [hn, show firstPages (shmnum i).shmaddr 0 = [] from rfl, List.count_nil] at this
  omega

theorem owned_pos {shmnum : Nat → ShmStruct} {i k : Nat} (hi : i < SHM_NUM)
    (hk : k < (shmnum i).pageNum) : 1 ≤ owned shmnum ((shmnum i).shmaddr k) := by
  have hmem : (shmnum i).shmaddr k ∈ firstPages (shmnum i).shmaddr (shmnum i).pageNum :=
    List.mem_map.mpr ⟨k, List.mem_range.mpr hk, rfl⟩
  have hle := Tally.le_tally (fun x : ShmStruct =>
    (firstPages x.shmaddr x.pageNum).count ((shmnum i).shmaddr k))
    (fun j : Fin SHM_NUM => shmnum j) ⟨i, hi⟩
  unfold owned
  exact Nat.le_trans (List.count_pos_iff.mpr hmem) hle

/-- What holds in every state of the runs: the books are in order, and a free slot has no
pages. -/
structure Inv (z : Zone) (s : State) : Prop where
  books : Books z (fun p => s.held p + owned s.shm.shmnum p) s.mapped s.mem
  free : ∀ i, (s.shm.shmnum i).key = KEY_FREE → (s.shm.shmnum i).pageNum = 0

/-! ## One step -/

/-- The books when the kernel or a segment takes or gives a share. -/
theorem held_update (held owned : Nat → Nat) (p n : Nat) :
    update (fun q => held q + owned q) p (n + owned p)
      = fun q => update held p n q + owned q := by
  funext q
  rcases eq_or_ne q p with rfl | hne
  · rw [update_self, update_self]
  · rw [update_of_ne hne, update_of_ne hne]

/-- Other books of the memory, with the table as it is. -/
theorem Inv.withBooks (h : Inv z s) {held : Nat → Nat} {mapped : Pos → Option Nat}
    (hb : Books z (fun p => held p + owned s.shm.shmnum p) mapped m) :
    Inv z { s.withMem m with held := held, mapped := still mapped m } := by
  refine ⟨?_, h.free⟩
  rw [hb.still]
  exact hb

/-- Other books with the entries that `sys_shmat` made as they are. -/
theorem Inv.keeping (h : Inv z s) {held : Nat → Nat}
    (hb : Books z (fun p => held p + owned s.shm.shmnum p) s.mapped m) :
    Inv z { s.withMem m with held := held, mapped := still s.mapped m } ∧
      still s.mapped m = s.mapped :=
  ⟨h.withBooks hb, hb.still⟩

theorem Inv.shmget (h : Inv z s) {r : Int} {shm : ShmState}
    (hr : sysShmget s.shm key size shmflg = some (r, shm)) : Inv z { s with shm := shm } := by
  rcases sysShmget_made hr with rfl | ⟨i, hi, hfree, -, hmark, -, got, shmaddr, m, hget, -, rfl⟩
  · exact h
  · have hlt := (findKey_some hi).1
    have hnone := h.free i hfree
    have hfirst : ∀ p, (firstPages (s.shm.shmnum i).shmaddr 0).count p = 0 := fun _ => rfl
    have hbooks : Books z (fun p => s.held p + owned s.shm.shmnum p
        + (firstPages (s.shm.shmnum i).shmaddr 0).count p) s.mapped s.mem := by
      simpa only [hfirst, Nat.add_zero] using h.books
    have hpages := hbooks.getPages hget
    have hfill : ∀ p,
        owned (update s.shm.shmnum i (created (s.shm.shmnum i) key size got shmaddr)) p
        = owned s.shm.shmnum p + (firstPages
          (created (s.shm.shmnum i) key size got shmaddr).shmaddr
          (created (s.shm.shmnum i) key size got shmaddr).pageNum).count p :=
      owned_fill s.shm.shmnum hlt hnone
    refine ⟨?_, fun j hj => ?_⟩
    · show Books z (fun p => s.held p + owned (update s.shm.shmnum i
        (created (s.shm.shmnum i) key size got shmaddr)) p) s.mapped m
      simp only [hfill]
      cases got with
      | true =>
          rw [if_pos rfl, Nat.zero_add] at hpages
          simp only [Nat.add_assoc] at hpages
          exact hpages
      | false =>
          rw [if_neg Bool.false_ne_true] at hpages
          exact hpages
    · dsimp only at hj ⊢
      rcases eq_or_ne j i with rfl | hji
      · rw [update_self] at hj ⊢
        cases got with
        | true => exact absurd hj hmark
        | false => rfl
      · rw [update_of_ne hji] at hj ⊢
        exact h.free j hj

theorem Inv.shmat (h : Inv z s) {shmid : Int} {r : Option Nat} {shm : ShmState}
    (hr : sysShmat s.shm t shmid shmaddr shmflg = some (r, shm)) :
    Inv z { s with
      shm := shm
      mapped := attaching s.mapped (s.shm.shmnum shmid.toNat) shmaddr (r.map (linearAddr t))
        shm.mem } := by
  unfold sysShmat at hr
  split at hr
  · obtain ⟨rfl, rfl⟩ := Prod.mk.inj (Option.some.inj hr)
    exact h
  · rename_i hid
    have hi : shmid.toNat < SHM_NUM := by omega
    obtain ⟨⟨address, m⟩, hmap, hr⟩ := Option.map_eq_some_iff.mp hr
    have hb := h.books.mapSegment
      (fun k hk => Nat.le_trans (owned_pos hi hk) (Nat.le_add_left _ _)) hmap
    cases address with
    | none =>
        obtain ⟨rfl, rfl⟩ := Prod.mk.inj hr
        exact ⟨hb, h.free⟩
    | some address =>
        obtain ⟨rfl, rfl⟩ := Prod.mk.inj hr
        rw [Option.map_some, ShmAttach.linearAddr_relative t (ShmAttach.mapSegment_lt hmap)]
        refine ⟨?_, fun j hj => ?_⟩
        · dsimp only
          rw [owned_congr s.shm.shmnum hi (record_pageNum ..) (record_shmaddr ..)]
          exact hb
        · dsimp only at hj ⊢
          rcases eq_or_ne j shmid.toNat with rfl | hji
          · rw [update_self, record_key] at hj
            rw [update_self, record_pageNum]
            exact h.free _ hj
          · rw [update_of_ne hji] at hj ⊢
            exact h.free j hj

theorem Inv.shmdt (h : Inv z s) {r : Int} {shm : ShmState}
    (hr : sysShmdt s.shm t shmaddr = some (r, shm)) :
    Inv z { s with shm := shm, mapped := still s.mapped shm.mem } := by
  rcases sysShmdt_made hr with ⟨-, rfl⟩ | ⟨i, j, hij, -, hc⟩
  · exact h.withBooks h.books
  · split at hc
    · obtain ⟨hshm, hmem⟩ := hc
      have hi := (findRecord_some hij).1
      obtain ⟨hb, -⟩ := h.books.canceled ((s.shm.shmnum i).vaddr j) (s.shm.shmnum i).pageNum
      have hfree : ∀ k, (shm.shmnum k).key = KEY_FREE → (shm.shmnum k).pageNum = 0 := by
        intro k hk
        rw [hshm] at hk ⊢
        rcases eq_or_ne k i with rfl | hki
        · rw [update_self] at hk ⊢
          unfold detached at hk ⊢
          split at hk
          · rename_i hzero
            rw [if_pos hzero]
          · rename_i hzero
            rw [if_neg hzero]
            exact h.free k hk
        · rw [update_of_ne hki] at hk ⊢
          exact h.free k hk
      split at hmem
      · rename_i hzero
        have hdet : detached (s.shm.shmnum i) j = { s.shm.shmnum i with
            shm_nattch := (s.shm.shmnum i).shm_nattch - 1
            pid := update (s.shm.shmnum i).pid j 0, vaddr := update (s.shm.shmnum i).vaddr j 0
            key := KEY_FREE, pageNum := 0 } := if_pos hzero
        -- the share of the segment is given back, page by page
        have hgive : ∀ p, owned s.shm.shmnum p = owned shm.shmnum p
            + (firstPages (s.shm.shmnum i).shmaddr (s.shm.shmnum i).pageNum).count p := fun p => by
          have := owned_update s.shm.shmnum hi (detached (s.shm.shmnum i) j) p
          have hnil : (firstPages (detached (s.shm.shmnum i) j).shmaddr
              (detached (s.shm.shmnum i) j).pageNum).count p = 0 := by rw [hdet]; rfl
          rw [hnil, ← hshm] at this
          omega
        simp only [hgive, ← Nat.add_assoc] at hb
        have hb' := hb.freePages hmem
        have hent := ShmPages.freePages_ent hmem
        refine ⟨?_, hfree⟩
        have hstill : still s.mapped shm.mem
            = still s.mapped (cancelPages ((s.shm.shmnum i).vaddr j) (s.shm.shmnum i).pageNum
              s.mem) := by
          funext x
          rw [still, hent]
          rfl
        dsimp only
        rw [hstill]
        exact hb'
      · rename_i hzero
        have hdet : detached (s.shm.shmnum i) j = { s.shm.shmnum i with
            shm_nattch := (s.shm.shmnum i).shm_nattch - 1
            pid := update (s.shm.shmnum i).pid j 0
            vaddr := update (s.shm.shmnum i).vaddr j 0 } := if_neg hzero
        refine ⟨?_, hfree⟩
        have hown : owned shm.shmnum = owned s.shm.shmnum := by
          rw [hshm]
          exact owned_congr s.shm.shmnum hi (by rw [hdet]) (by rw [hdet])
        show Books z (fun p => s.held p + owned shm.shmnum p) (still s.mapped shm.mem) shm.mem
        rw [hown, hmem]
        exact hb
    · rw [hc]
      exact h.withBooks h.books

/-- The entry at the position of an address in task `nr`. -/
theorem posOf_share {address nr : Nat} (ha : address < TASK_SIZE) (hnr : nr < 64) :
    posOf (address + nr * TASK_SIZE) = (dirSlot (address + nr * TASK_SIZE), tableSlot address) ∧
      (dirSlot (address + nr * TASK_SIZE)).val / 16 = nr := by
  obtain ⟨hpos, hval⟩ := posOf_task ha hnr
  refine ⟨hpos, ?_⟩
  simp only [TASK_SIZE] at ha hval ⊢
  omega

/-- The functions of `mm/memory.c` as the kernel calls them leave the entries that
`sys_shmat` made. -/
theorem Inv.pages (h : Inv z s) {a : PageCounts.Act} (hok : Allowed s (.pages a))
    {s₁ : PageCounts.State} (hs : PageCounts.run ⟨s.mem, s.held⟩ a = some s₁) :
    Inv z { s.withMem s₁.mem with held := s₁.held, mapped := still s.mapped s₁.mem } ∧
      still s.mapped s₁.mem = s.mapped := by
  obtain ⟨hadm, hspared⟩ := hok
  have hown : ∀ p, 1 ≤ s.held p → 1 ≤ s.held p + owned s.shm.shmnum p := fun p hp =>
    Nat.le_trans hp (Nat.le_add_right _ _)
  cases a with
  | getFreePage =>
      obtain rfl := Option.some.inj hs
      dsimp only
      cases hg : getFreePage s.mem with
      | none => exact h.keeping h.books
      | some r =>
          obtain ⟨p, m⟩ := r
          obtain ⟨hzero, hb⟩ := h.books.alloc hg
          have hone : s.held p + 1 + owned s.shm.shmnum p = 1 := by omega
          rw [← hone, held_update] at hb
          exact h.keeping hb
  | freePage p =>
      have hheld : 1 ≤ s.held p := hadm
      obtain ⟨hfree, hb⟩ := h.books.drop (hown p hheld)
      have hsub : s.held p + owned s.shm.shmnum p - 1
          = s.held p - 1 + owned s.shm.shmnum p := by omega
      rw [hsub, held_update] at hb
      simp only [PageCounts.run, PageCounts.step, hfree] at hs
      obtain rfl := Option.some.inj hs
      exact h.keeping hb
  | putPage p address =>
      obtain ⟨hadm, hlo, hhi, hx⟩ := hadm
      have hheld : 1 ≤ s.held p := hadm
      have hm := h.books.managed p (hown p hheld)
      have hpos : p ≠ 0 := by
        have := hm.1
        have := z.lowMem_le
        have : LOW_MEM = 256 := rfl
        omega
      obtain rfl := Option.some.inj hs
      dsimp only
      rcases h.books.putPage (hown p hheld) (user_posOf hlo hhi) hx with hput | ⟨m, hput, hb⟩
      · rw [hput]
        exact h.keeping h.books
      · have hsub : s.held p + owned s.shm.shmnum p - 1
            = s.held p - 1 + owned s.shm.shmnum p := by omega
        rw [hsub, held_update] at hb
        rw [hput]
        cases p with
        | zero => exact absurd rfl hpos
        | succ n => exact h.keeping hb
  | copyPageTables src dst size =>
      obtain ⟨hsrc, h1, hdst, hne, hle, hle0, hempty⟩ := hadm
      obtain ⟨r, m, hm, hb⟩ := h.books.copy hsrc h1 hdst hne hle hle0 hempty hspared
      simp only [PageCounts.run, PageCounts.step, hm] at hs
      obtain rfl := Option.some.inj hs
      exact h.keeping hb
  | freePageTables nr size =>
      obtain ⟨h1, hnr, hle⟩ := hadm
      obtain ⟨m, hm, hb⟩ := h.books.freeTables h1 hnr hle hspared
      simp only [PageCounts.run, PageCounts.step, hm] at hs
      obtain rfl := Option.some.inj hs
      exact h.keeping hb
  | unWpPage x =>
      obtain ⟨hx, hpres⟩ := hadm
      obtain ⟨e, he⟩ := Option.ne_none_iff_exists'.mp hpres
      obtain ⟨t, ht⟩ := ent_tableOf he
      have htab : s.mem.table x.1 = t := table_of_tableOf ht
      obtain rfl := Option.some.inj hs
      dsimp only
      rw [htab]
      rcases h.books.unWp ht he hx hspared with hnone | ⟨m, hm, hb⟩
      · rw [hnone]
        exact h.keeping h.books
      · rw [hm]
        exact h.keeping hb
  | tryToShare address p current =>
      obtain ⟨ha, h1, hp, h1', hcur, hne, hx⟩ := hadm
      obtain ⟨hposp, hdp⟩ := posOf_share ha hp
      obtain ⟨hpos, hdc⟩ := posOf_share ha hcur
      obtain ⟨r, m, hm, hb⟩ := h.books.share address (p * TASK_SIZE) (current * TASK_SIZE)
        hposp hpos (show 16 ≤ (dirSlot (address + p * TASK_SIZE)).val by omega)
        (show 16 ≤ (dirSlot (address + current * TASK_SIZE)).val by omega)
        (fun e => hne (by
          have hd : dirSlot (address + p * TASK_SIZE) = dirSlot (address + current * TASK_SIZE) := e
          rw [← hdp, ← hdc, hd]))
        hx hspared
      simp only [PageCounts.run, PageCounts.step, hm] at hs
      obtain rfl := Option.some.inj hs
      exact h.keeping hb
  | access x dirty =>
      obtain ⟨hx, hpres⟩ := hadm
      obtain ⟨e, he⟩ := Option.ne_none_iff_exists'.mp hpres
      obtain ⟨t, ht⟩ := ent_tableOf he
      have htab : s.mem.table x.1 = t := table_of_tableOf ht
      have hphys := ((ent_eq_some ht).mp he).2
      obtain ⟨hb, -, -⟩ := h.books.rewrite ht he (present_access (ent_present he) dirty)
        (frame_access e dirty)
      obtain rfl := Option.some.inj hs
      dsimp only
      rw [htab, hphys]
      exact h.keeping hb

theorem owned_segmentPage {p : Nat} (hp : SegmentPage s p) :
    1 ≤ owned s.shm.shmnum p := by
  obtain ⟨i, hi, -, k, hk, rfl⟩ := hp
  exact owned_pos hi hk

/-- A store into a page that is owned changes no page table. -/
theorem storePage {own : Nat → Nat} {mapped : Pos → Option Nat} (h : Books z own mapped m)
    {p : Nat} (hp : 1 ≤ own p) (i : Slot) (w : Word) :
    Books z own mapped (m.write p i w) ∧ (m.write p i w).page = m.page := by
  have hlow := z.lowMem_le.trans (h.managed p hp).1
  have h256 : LOW_MEM = 256 := rfl
  have hnt : ∀ d, m.tableOf d ≠ some p := fun d hd => by
    have := h.table d p hd
    omega
  have hdir : ∀ d, (m.write p i w).dir d = m.dir d := fun d => by
    rw [Mem.dir, write_phys_of_ne (by omega), Mem.dir]
  have ht := tableOf_congr hdir
  have he : (m.write p i w).ent = m.ent := ent_congr hdir fun d t j hd => by
    rw [write_phys_of_ne fun e : t = p => hnt d (e ▸ hd)]
  have hpage := page_of_ent he
  obtain ⟨held, hpaged, hheld⟩ := h.paged
  refine ⟨h.step ⟨held, hpaged.congr ht he rfl rfl, hheld⟩ (fun _ => Nat.le_refl _)
    (fun d t' ht' => Or.inl (ht ▸ ht')) h.mapped_managed fun x q hx => ?_, hpage⟩
  rw [hpage]
  exact h.shown x q hx

/-- A store to an attached page goes to the page that `sys_shmat` put there. -/
theorem Inv.store (h : Inv z s) {address : Nat} {value : Byte}
    (hok : Allowed s (.store address value)) :
    ∃ m, userStore s.mem address value = .ok (true, m) ∧ Inv z (s.withMem m) ∧
      m.page = s.mem.page ∧ m.byteAt address = value := by
  obtain ⟨⟨p, hmap, hlive⟩, hspared⟩ := hok
  have hp := owned_segmentPage hlive
  have hpx := h.books.shown _ _ hmap
  obtain ⟨e, he, hframe⟩ := Option.map_eq_some_iff.mp hpx
  obtain ⟨t, ht⟩ := ent_tableOf he
  have htab : s.mem.table (dirSlot address) = t := table_of_tableOf ht
  obtain ⟨hpres, hphys⟩ := (ent_eq_some ht).mp he
  -- after the page fault the entry is there, still for the same page
  obtain ⟨m₁, e₁, hfault, hb₁, he₁, hpage₁⟩ : ∃ m₁ e₁,
      pageFault s.mem address true = .ok (true, m₁) ∧
      Books z (fun p => s.held p + owned s.shm.shmnum p) s.mapped m₁ ∧
      m₁.ent (posOf address) = some e₁ ∧ m₁.page = s.mem.page := by
    by_cases hw : Writable e
    · refine ⟨s.mem, e, ?_, h.books, he, rfl⟩
      rw [pageFault, he]
      exact if_neg fun hn => hn.2 hw
    · have hone : s.mem.memMap p = 1 := by
        rcases hspared with ⟨e', he', hw'⟩ | hone
        · rw [he] at he'
          obtain rfl := Option.some.inj he'
          exact absurd hw' hw
        · exact hone p hmap
      have hlow : LOW_MEM ≤ frame e :=
        hframe ▸ z.lowMem_le.trans (h.books.mapped_managed _ _ hmap).1
      obtain ⟨hb, hent, hpage⟩ := h.books.rewrite ht he ((present_or_two e).mpr hpres)
        (frame_or_two e)
      refine ⟨_, e ||| 2, ?_, hb, by rw [hent, update_self], hpage⟩
      have hun : doWpPage s.mem address = some (s.mem.write t (posOf address).2 (e ||| 2)) := by
        have hcell : s.mem.phys t (tableSlot address) = e := hphys
        unfold doWpPage unWpPage
        simp only [htab, hcell]
        exact if_pos ⟨hlow, hframe ▸ hone⟩
      rw [pageFault, he]
      dsimp only
      rw [if_pos ⟨rfl, hw⟩, hun]
  obtain ⟨t₁, ht₁⟩ := ent_tableOf he₁
  have htab₁ : m₁.table (dirSlot address) = t₁ := table_of_tableOf ht₁
  obtain ⟨hpres₁, hphys₁⟩ := (ent_eq_some ht₁).mp he₁
  obtain ⟨hb₂, hent₂, hpage₂⟩ := hb₁.rewrite ht₁ he₁ (present_access hpres₁ true)
    (frame_access e₁ true)
  have hmark : m₁.mark address true
      = m₁.write t₁ (posOf address).2 (e₁ ||| accessBits true) := by
    have hcell : m₁.phys t₁ (tableSlot address) = e₁ := hphys₁
    rw [Mem.mark, htab₁, hcell]
    rfl
  have hpx₂ : (m₁.mark address true).page (posOf address) = some p := by
    rw [hmark, hpage₂, hpage₁, hpx]
  rw [← hmark] at hb₂ hpage₂
  obtain ⟨hb₃, hpage₃⟩ := storePage hb₂ (Nat.le_trans hp (Nat.le_add_left _ _))
    (wordSlot address)
    (setByte ((m₁.mark address true).phys p (wordSlot address)) (address % 4) value)
  have hstore : (m₁.mark address true).storeByte address value
      = (m₁.mark address true).write p (wordSlot address)
        (setByte ((m₁.mark address true).phys p (wordSlot address)) (address % 4) value) := by
    rw [Mem.storeByte, hpx₂]
  rw [← hstore] at hb₃ hpage₃
  refine ⟨(m₁.mark address true).storeByte address value, ?_, ⟨hb₃, h.free⟩,
    hpage₃.trans (hpage₂.trans hpage₁), ?_⟩
  · simp only [userStore, hfault]
    rfl
  · rw [Mem.byteAt, hpage₃, hpx₂, hstore]
    dsimp only
    rw [write_phys_self, update_self, byteOf_setByte _ _ (Nat.mod_lt _ (by decide))]

theorem Inv.step {a : Act} (h : Inv z s) (hok : Allowed s a)
    (hs : SharedPages.step s a = some s') : Inv z s' := by
  cases a with
  | shmget key size shmflg =>
      obtain ⟨⟨r, shm⟩, hr, rfl⟩ := Option.map_eq_some_iff.mp hs
      exact h.shmget hr
  | shmat t shmid shmaddr shmflg =>
      obtain ⟨⟨r, shm⟩, hr, rfl⟩ := Option.map_eq_some_iff.mp hs
      exact h.shmat hr
  | shmdt t shmaddr =>
      obtain ⟨⟨r, shm⟩, hr, rfl⟩ := Option.map_eq_some_iff.mp hs
      exact h.shmdt hr
  | pages a =>
      obtain ⟨s₁, hs₁, rfl⟩ := Option.map_eq_some_iff.mp hs
      exact (h.pages hok hs₁).1
  | store address value =>
      obtain ⟨m, hm, hi, -, -⟩ := h.store hok
      simp only [SharedPages.step, hm] at hs
      obtain rfl := Option.some.inj hs
      exact hi

theorem inv_start (z : Zone) (rest : Nat → Slot → Word) (shmnum : Nat → ShmStruct) :
    Inv z (start z rest shmnum) := by
  have hcount : counting (fun _ => none) = user := by
    funext x
    simp [counting]
  have hown : ∀ p, owned (sysInishm shmnum) p = 0 := fun p => by
    unfold owned
    exact Tally.tally_eq_zero fun _ => rfl
  have hpaged := (tasks_start z rest).paged
  refine ⟨⟨⟨fun _ => 0, hcount ▸ hpaged, fun p => ?_⟩, fun p hp => ?_, fun x p hx => ?_,
    fun x p hx => ?_, fun d t _ => ?_⟩, fun i _ => rfl⟩
  · show 0 + owned (sysInishm shmnum) p ≤ 0
    rw [hown]
  · change 1 ≤ 0 + owned (sysInishm shmnum) p at hp
    rw [hown] at hp
    omega
  · cases hx
  · cases hx
  · show 0 + owned (sysInishm shmnum) t = 0
    rw [hown]

theorem inv_reach {rest : Nat → Slot → Word} {shmnum : Nat → ShmStruct}
    (h : Reach step Allowed (start z rest shmnum) s) : Inv z s :=
  h.invariant (I := Inv z) (inv_start z rest shmnum) fun _ _ _ hi hok hs => hi.step hok hs

/-! ## The pages of live segments -/

/-- The pages of live segments are counted and can be freed, and no other page is given
out for one of them. -/
structure Kept (s : State) : Prop where
  counted : ∀ p, SegmentPage s p → 1 ≤ s.mem.memMap p
  not_given : ∀ p m, getFreePage s.mem = some (p, m) → ¬SegmentPage s p
  freeable : ∀ p, SegmentPage s p → ∃ m, freePage s.mem p = .ok m

/-- **Segment pages.** In every run in which no entry that `sys_shmat` made is freed
with its page table or gets another page from `un_wp_page`, and no count overflows, the
pages of live segments are counted, `get_free_page` never gives one of them out, and
each can be freed when its segment goes. They have one share for the segment, however
many processes have attached it. -/
theorem segment_pages (z : Zone) (rest : Nat → Slot → Word) (shmnum : Nat → ShmStruct)
    (h : Reach step Allowed (start z rest shmnum) s) : Kept s := by
  have hi := inv_reach h
  have hcount : ∀ p, SegmentPage s p → 1 ≤ s.mem.memMap p := fun p hp =>
    hi.books.count_pos (Nat.le_trans (owned_segmentPage hp) (Nat.le_add_left _ _))
  refine ⟨hcount, fun p m hg hp => ?_, fun p hp => ?_⟩
  · have h0 := (getFreePage_eq hg).2.2.1
    have := hcount p hp
    omega
  · exact ⟨_, (hi.books.drop (Nat.le_trans (owned_segmentPage hp) (Nat.le_add_left _ _))).1⟩

/-- The calls of `mm/shm.c` alone, to compute runs. -/
def calls (s : State) : Act → Option State
  | .pages _ => none
  | .store _ _ => none
  | a => step s a

theorem reach_calls {s₀ : State} {as : List Act} (h : exec calls s₀ as = some s) :
    Reach step Allowed s₀ s := by
  refine exec_refines (fun s a s' hs => ?_) h
  cases a with
  | shmget key size shmflg => exact Reach.one (a := .shmget key size shmflg) ⟨trivial, trivial⟩ hs
  | shmat t shmid shmaddr shmflg =>
      exact Reach.one (a := .shmat t shmid shmaddr shmflg) ⟨trivial, trivial⟩ hs
  | shmdt t shmaddr => exact Reach.one (a := .shmdt t shmaddr) ⟨trivial, trivial⟩ hs
  | pages a => cases hs
  | store address value => cases hs

/-- Ninety-six page frames. -/
def zone : Zone := ⟨4000, 4096, low_mem_le, le_high_mem⟩

def taskTwo : Task := ⟨2, 0x8000000, 0x1000, by decide⟩

/-- Two tasks attach the same segment and one of them detaches it. -/
theorem segment_pages_two : ∃ s, exec calls (start zone (fun _ _ => 0) shmBoot)
      [.shmget 5 1 IPC_CREAT, .shmat Shm.taskOne 0 0 0, .shmat taskTwo 0 0 0,
        .shmdt Shm.taskOne 0x1000] = some s ∧
      SegmentPage s 4095 ∧ Kept s := by
  obtain ⟨s, hs, hkey, hn, hpage⟩ : ∃ s, exec calls (start zone (fun _ _ => 0) shmBoot)
      [.shmget 5 1 IPC_CREAT, .shmat Shm.taskOne 0 0 0, .shmat taskTwo 0 0 0,
        .shmdt Shm.taskOne 0x1000] = some s ∧
      (s.shm.shmnum 0).key = 5 ∧ (s.shm.shmnum 0).pageNum = 1 ∧
        (s.shm.shmnum 0).shmaddr 0 = 4095 := exec_any (by decide +kernel)
  refine ⟨s, hs, ⟨0, by decide, ?_, 0, by omega, hpage⟩, segment_pages _ _ _ (reach_calls hs)⟩
  rw [hkey]
  decide

/-- A process exits that has attached a segment of one page and nothing else: the count of
the page is given away with its page table. -/
theorem exit_frees (h : Inv z s) {x : Pos} {p nr size : Nat} (hp : SegmentPage s p)
    (hx : s.mapped x = some p) (honly : ∀ y, s.mapped y ≠ none → y = x)
    (hone : s.mem.memMap p = 1) (h1 : 1 ≤ nr) (hnr : nr < 64) (hle : size ≤ TASK_SIZE)
    (hmem : x.1 ∈ dirSlots (nr * TASK_SIZE) size) :
    ∃ m, freePageTables s.mem (nr * TASK_SIZE) size = .ok m ∧ m.memMap p = 0 := by
  obtain ⟨held, hpaged, hheld⟩ := h.books.paged
  have hm := h.books.mapped_managed x p hx
  have hval := mem_dirSlots_task hnr hle hmem
  have hux : User x := show 16 ≤ x.1.val by omega
  obtain ⟨e, he, hframe⟩ := Option.map_eq_some_iff.mp (h.books.shown x p hx)
  obtain ⟨t, ht⟩ := ent_tableOf he
  obtain ⟨hpres, hphys⟩ := (ent_eq_some ht).mp he
  have hnot : counting s.mapped x = false := by simp [counting, hx]
  have hown : 1 ≤ held p :=
    Nat.le_trans (Nat.le_trans (owned_segmentPage hp) (Nat.le_add_left _ _)) (hheld p)
  -- the same counts, with the entry in the place of the segment
  have hall : update (counting s.mapped) x true = user := by
    funext y
    rcases eq_or_ne y x with rfl | hne
    · rw [update_self, hux.counted]
    · rw [update_of_ne hne]
      have hy : s.mapped y = none := by
        by_contra hy
        exact hne (honly y hy)
      simp [counting, hy]
  have hpaged' : Paged z user (update held p (held p - 1)) s.mem := by
    rw [← hall]
    refine hpaged.setEnt (e := e) ht true ?_ rfl hpaged.cells (fun _ _ => Or.inr (hframe ▸ hm))
      fun q _ => ?_
    · rw [← hphys]
      show s.mem.phys = update s.mem.phys t (update (s.mem.phys t) x.2 (s.mem.phys t x.2))
      rw [update_eq_self, update_eq_self]
    · rw [if_pos rfl, presentEntry_of hpres, Option.map_some, hframe, names_some]
      simp only [Mem.ref, hnot, Bool.false_eq_true, if_false, names_none]
      rcases eq_or_ne q p with rfl | hne
      · rw [update_self, if_pos rfl]
        omega
      · rw [update_of_ne hne, if_neg hne.symm]
  have hfree : ∀ d ∈ dirSlots (nr * TASK_SIZE) size, Freeable user s.mem d := fun d hd => by
    have hd := mem_dirSlots_task hnr hle hd
    exact ⟨by omega, fun i e _ _ => User.counted (show 16 ≤ d.val by omega)⟩
  obtain ⟨m, hok, hpaged₂, hf⟩ := hpaged'.freePageTables_spec (by simp only [TASK_SIZE]; omega)
    (by simp only [TASK_SIZE]; omega) hfree
  refine ⟨m, hok, ?_⟩
  have hbefore := hpaged'.balanced p hm
  have hafter := hpaged₂.balanced p hm
  have href : s.mem.ref user (.inr x) = some p := by
    simp only [Mem.ref, hux.counted, if_true]
    exact h.books.shown x p hx
  have hrefs := one_le_refs href
  -- nothing else names the page, and the entry is gone
  have hzero : refs (m.ref user) p = 0 := refs_eq_zero fun r hr => by
    have hold : s.mem.ref user r = some p := by
      rcases r with d | y
      · simp only [Mem.ref, hf.tableOf] at hr
        split at hr
        · cases hr
        · exact hr
      · obtain ⟨hy, hpy⟩ := ref_user_eq_some hr
        rw [Mem.page, hf.ent] at hpy
        split at hpy
        · cases hpy
        · simp only [Mem.ref, hy.counted, if_true]
          exact hpy
    have hne : r ≠ .inr x := by
      rintro rfl
      obtain ⟨-, hpx⟩ := ref_user_eq_some hr
      rw [Mem.page, hf.ent, if_pos hmem] at hpx
      cases hpx
    have := two_le_refs hne hold href
    omega
  omega

theorem step_shmget_mapped (h : step s (.shmget key size shmflg) = some s') :
    s'.mapped = s.mapped := by
  obtain ⟨_, -, rfl⟩ := Option.map_eq_some_iff.mp h
  rfl

/-- `sys_shmat` at no given address makes entries for the pages of the segment only. -/
theorem step_shmat_mapped {shmid : Int} (h : step s (.shmat t shmid 0 shmflg) = some s') :
    ∃ address, ∀ y, s'.mapped y ≠ none → s.mapped y ≠ none ∨
      ∃ k < (s.shm.shmnum shmid.toNat).pageNum, y = pagePos address k := by
  obtain ⟨⟨r, shm⟩, -, rfl⟩ := Option.map_eq_some_iff.mp h
  cases r with
  | none => exact ⟨0, fun y hy => .inl hy⟩
  | some r =>
    refine ⟨linearAddr t r, fun y hy => ?_⟩
    by_cases hin : y ∈ places (s.shm.shmnum shmid.toNat) 0 (linearAddr t r)
    · obtain ⟨k, hk, rfl⟩ := List.mem_map.mp (show y ∈ List.map _ _ from hin)
      exact .inr ⟨k, List.mem_range.mp hk, rfl⟩
    · exact .inl fun hn => hy ((if_neg hin).trans hn)

/-- The process of task 1 attaches a segment and exits without detaching it. -/
theorem not_segment_pages : ∃ s, Reach step Admissible (start zone (fun _ _ => 0) shmBoot) s ∧
    ¬Kept s := by
  obtain ⟨s, hs, hkey, hn, hpage, hmap, hone⟩ : ∃ s,
      exec calls (start zone (fun _ _ => 0) shmBoot)
        [.shmget 5 1 IPC_CREAT, .shmat Shm.taskOne 0 0 0] = some s ∧
      (s.shm.shmnum 0).key = 5 ∧ (s.shm.shmnum 0).pageNum = 1 ∧
        (s.shm.shmnum 0).shmaddr 0 = 4095 ∧ s.mapped (pagePos 0x4001000 0) = some 4095 ∧
        s.mem.memMap 4095 = 1 := exec_any (by decide +kernel)
  have hi := inv_reach (reach_calls hs)
  have hseg : SegmentPage s 4095 := ⟨0, by decide, by rw [hkey]; decide, 0, by omega, hpage⟩
  -- the run, step by step: the segment has one page, and nothing was attached before
  have hreach := (reach_calls hs).weaken fun _ _ hok => hok.1
  obtain ⟨s₁, h₁, hs⟩ := Option.bind_eq_some_iff.mp hs
  obtain ⟨s₂, h₂, hs⟩ := Option.bind_eq_some_iff.mp hs
  obtain rfl := Option.some.inj hs
  have hn₁ : (s₁.shm.shmnum 0).pageNum = 1 := by
    obtain ⟨s₁', h₁', hn₁⟩ : ∃ s₁, calls (start zone (fun _ _ => 0) shmBoot)
        (.shmget 5 1 IPC_CREAT) = some s₁ ∧ (s₁.shm.shmnum 0).pageNum = 1 :=
      ⟨_, rfl, by decide +kernel⟩
    rwa [Option.some.inj (h₁.symm.trans h₁')]
  have hmapped : s₁.mapped = fun _ => none :=
    step_shmget_mapped (show step (start zone (fun _ _ => 0) shmBoot) (.shmget 5 1 IPC_CREAT)
      = some s₁ from h₁)
  obtain ⟨address, honly⟩ := step_shmat_mapped (show step _ _ = some s₂ from h₂)
  have hpos : ∀ y, s₂.mapped y ≠ none → y = pagePos address 0 := fun y hy => by
    rcases honly y hy with hy | ⟨k, hk, rfl⟩
    · exact absurd (congrFun hmapped y) hy
    · have hk : k < 1 := hn₁ ▸ hk
      rw [show k = 0 by omega]
  have hx := hpos (pagePos 0x4001000 0) (by rw [hmap]; simp)
  have hmem : (pagePos 0x4001000 0).1 ∈ dirSlots (1 * TASK_SIZE) 0x400000 := by decide
  obtain ⟨m, hm, hzero⟩ := exit_frees hi hseg hmap (fun y hy => (hpos y hy).trans hx.symm) hone
    (by decide) (by decide) (by decide) hmem
  have hstep : step s₂ (.pages (.freePageTables 1 0x400000))
      = some { s₂.withMem m with mapped := still s₂.mapped m } := by
    simp only [step, PageCounts.run, PageCounts.step, hm]
    rfl
  have hok : Admissible s₂ (.pages (.freePageTables 1 0x400000)) :=
    ⟨by decide, by decide, by decide⟩
  refine ⟨_, hreach.next hok hstep, fun hk => ?_⟩
  have := hk.counted 4095 hseg
  change 1 ≤ m.memMap 4095 at this
  omega

end SharedPages

end Linux011
