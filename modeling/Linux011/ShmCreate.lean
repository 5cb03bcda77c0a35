import Linux011.PageLedger
import Linux011.Shm

/-!
# Creating segments

What a caller of `sys_shmget` may rely on. When the free pages run out in the middle, the
call gives back exactly the pages it took (`failed_creation`). A page count is computed
with a sum that wraps, and a segment that exists is returned whatever its size
(`requested_size`). The search stops at the first slot that has the key or is free, and
`IPC_PRIVATE` is a key that slots can have: a private segment before the first free slot
is met, and the pointer to the free slot is then null (`private_fresh`).

All three results hold in every state that the calls reach from a boot, whatever the rest of the
kernel does with the memory in between as long as it frees no frame behind the end of the memory
(`Managed`). What this gives is `Clean`: a frame that is free lies where `free_page` takes it, so
that giving a page back cannot panic, and a free slot has no pages. `Taken` is the invariant of
the loop that takes pages: the pages taken so far, in their order, and the counts as they were
before, so that the loop that gives them back, which runs in the other direction, ends with the
counts of the beginning. The lemma about one call (`FreeBelow.sysShmget`) lists its outcomes, and
the results are read off this list.
-/

namespace Linux011

open Function Runs

namespace ShmCreate

open Shm (Act start freeMem)

/-- Frames that `get_free_page` can return lie where `free_page` takes them. -/
def FreeBelow (m : Mem) : Prop := ∀ p, LOW_MEM ≤ p → m.memMap p = 0 → p < m.HIGH_MEMORY

/-- No frame behind `HIGH_MEMORY` was freed between two states of the memory; `free_page`
would panic. -/
def HighKept (m m' : Mem) : Prop :=
  m'.HIGH_MEMORY = m.HIGH_MEMORY ∧
    ∀ p, m.HIGH_MEMORY ≤ p → m.memMap p ≠ 0 → m'.memMap p ≠ 0

/-- What the rest of the kernel does with the memory. -/
def Managed (s : ShmState) : Act → Prop
  | .memory m => HighKept s.mem m
  | _ => True

/-- `mem_init`, with the main memory up to `endMem`. -/
def boot (shmnum : Nat → ShmStruct) (rest : Nat → Slot → Word) (startMem endMem : Nat) :
    ShmState :=
  start shmnum (memInit rest startMem endMem)

variable {s s' : ShmState} {m m' : Mem} {key size shmflg : Word}

/-! ## Frames behind the end of the memory -/

theorem HighKept.refl (m : Mem) : HighKept m m := ⟨rfl, fun _ _ h => h⟩

theorem HighKept.trans {m'' : Mem} (h : HighKept m m') (h' : HighKept m' m'') :
    HighKept m m'' :=
  ⟨h'.1.trans h.1, fun p hp hne => h'.2 p (h.1.symm ▸ hp) (h.2 p hp hne)⟩

theorem HighKept.write (m : Mem) (page : Nat) (i : Slot) (e : Word) :
    HighKept m (m.write page i e) := ⟨rfl, fun _ _ h => h⟩

theorem HighKept.getFreePage {page : Nat} (h : getFreePage m = some (page, m')) :
    HighKept m m' := by
  obtain ⟨-, -, -, rfl⟩ := getFreePage_eq h
  refine ⟨rfl, fun p _ hne => ?_⟩
  dsimp only
  rcases eq_or_ne p page with rfl | hpage
  · rw [update_self]
    exact Nat.one_ne_zero
  · rw [update_of_ne hpage]
    exact hne

theorem HighKept.freePage {page : Nat} (h : freePage m page = .ok m') : HighKept m m' := by
  unfold Linux011.freePage at h
  split at h
  · obtain rfl := Except.ok.inj h
    exact .refl m
  · split at h
    · cases h
    · rename_i hhigh
      split at h
      · obtain rfl := Except.ok.inj h
        refine ⟨rfl, fun p hp hne => ?_⟩
        have hpage : p ≠ page := by
          rintro rfl
          exact hhigh hp
        change update m.memMap page _ p ≠ 0
        rw [update_of_ne hpage]
        exact hne
      · cases h

theorem HighKept.giveBack {n : Nat} {shmaddr shmaddr' : Nat → Nat}
    (h : giveBack n shmaddr m = .ok (shmaddr', m')) : HighKept m m' := by
  induction n generalizing shmaddr m with
  | zero =>
      obtain ⟨-, rfl⟩ := Prod.mk.inj (Except.ok.inj h)
      exact .refl m
  | succ n ih =>
      rw [Linux011.giveBack] at h
      cases h₁ : Linux011.freePage m (shmaddr n) with
      | error e =>
          rw [h₁] at h
          cases h
      | ok m₁ =>
          rw [h₁] at h
          exact (HighKept.freePage h₁).trans (ih h)

theorem HighKept.getPages {i left : Nat} {shmaddr shmaddr' : Nat → Nat} {got : Bool}
    (h : getPages i left shmaddr m = .ok (got, shmaddr', m')) : HighKept m m' := by
  induction left generalizing i shmaddr m with
  | zero =>
      obtain ⟨-, -, rfl⟩ := by simpa [Linux011.getPages] using h
      exact .refl m
  | succ left ih =>
      rw [Linux011.getPages] at h
      split at h
      · rename_i hp
        exact (HighKept.getFreePage hp).trans (ih h)
      · cases h₁ : Linux011.giveBack (i + 1) (update shmaddr i 0) m with
        | error e =>
            rw [h₁] at h
            cases h
        | ok r =>
            rw [h₁] at h
            obtain ⟨-, he⟩ := Prod.mk.inj (Except.ok.inj h)
            obtain ⟨-, rfl⟩ := Prod.mk.inj he
            exact .giveBack h₁

theorem HighKept.pageTable {d : Slot} {t : Nat} (h : pageTable m d = some (t, m')) :
    HighKept m m' := by
  unfold Linux011.pageTable at h
  split at h
  · obtain ⟨-, rfl⟩ := Prod.mk.inj (Option.some.inj h)
    exact .refl m
  · obtain ⟨⟨tmp, m₁⟩, hp, he⟩ := Option.map_eq_some_iff.mp h
    obtain ⟨-, rfl⟩ := Prod.mk.inj he
    exact (HighKept.getFreePage hp).trans (.write ..)

theorem HighKept.putPage (m : Mem) (page address : Nat) :
    HighKept m (putPage m page address).2 := by
  unfold Linux011.putPage
  split
  · exact .refl m
  · rename_i h
    exact (HighKept.pageTable h).trans (.write ..)

theorem HighKept.findFrom {limit left dataBase : Nat} {found : Bool}
    (h : findFrom limit left dataBase m = some (found, m')) : HighKept m m' := by
  induction left generalizing dataBase m with
  | zero =>
      obtain ⟨-, rfl⟩ := Prod.mk.inj (Option.some.inj h)
      exact .refl m
  | succ left ih =>
      rw [Linux011.findFrom] at h
      split at h
      · split at h
        · obtain ⟨-, rfl⟩ := Prod.mk.inj (Option.some.inj h)
          exact .refl m
        · rename_i ht
          split at h
          · cases h
          · split at h
            · obtain ⟨-, rfl⟩ := Prod.mk.inj (Option.some.inj h)
              exact .pageTable ht
            · exact (HighKept.pageTable ht).trans (ih h)
      · obtain ⟨-, rfl⟩ := Prod.mk.inj (Option.some.inj h)
        exact .refl m

theorem HighKept.putPages (shmaddr : Nat → Nat) (address pageNum : Nat) (m : Mem) :
    HighKept m (putPages shmaddr address pageNum m) := by
  induction pageNum with
  | zero => exact .refl m
  | succ n ih =>
      rw [Linux011.putPages, List.range_succ, List.foldl_append]
      exact ih.trans (.putPage ..)

theorem HighKept.putSame (shmaddr : Nat → Nat) (address : Nat) (is : List Nat) (m : Mem) :
    HighKept m (putSame shmaddr address is m).2 := by
  induction is generalizing m with
  | nil => exact .refl m
  | cons i is ih =>
      have hput := HighKept.putPage m (shmaddr i) address
      rw [Linux011.putSame]
      dsimp only
      split
      · exact hput
      · exact hput.trans (ih _)

theorem HighKept.mapSegment {t : Task} {x : ShmStruct} {shmaddr shmflg : Word}
    {r : Option Nat} (h : mapSegment m t x shmaddr shmflg = some (r, m')) : HighKept m m' := by
  unfold Linux011.mapSegment at h
  split at h
  · obtain ⟨⟨address, m₁⟩, hfind, he⟩ := Option.map_eq_some_iff.mp h
    obtain ⟨⟨found, m₂⟩, hfrom, he'⟩ := Option.map_eq_some_iff.mp hfind
    obtain ⟨-, rfl⟩ := Prod.mk.inj he'
    have hfound := HighKept.findFrom hfrom
    dsimp only at he
    split at he
    · obtain ⟨-, rfl⟩ := Prod.mk.inj he
      exact hfound.trans (.putPages ..)
    · obtain ⟨-, rfl⟩ := Prod.mk.inj he
      exact hfound
  · obtain ⟨-, rfl⟩ := Prod.mk.inj (Option.some.inj h)
    exact .putSame ..

theorem HighKept.cancelAdress (m : Mem) (addr : Nat) : HighKept m (cancelAdress m addr) := by
  unfold Linux011.cancelAdress
  split
  · split
    · exact .write ..
    · exact .refl m
  · exact .refl m

theorem HighKept.cancelAdresses (address : Nat → Nat) (ks : List Nat) (m : Mem) :
    HighKept m (ks.foldl (fun m k => Linux011.cancelAdress m (address k)) m) := by
  induction ks generalizing m with
  | nil => exact .refl m
  | cons k ks ih => exact (HighKept.cancelAdress m (address k)).trans (ih _)

theorem HighKept.freePages {shmaddr : Nat → Nat} {ks : List Nat}
    (h : ks.foldlM (fun m k => Linux011.freePage m (shmaddr k)) m = .ok m') :
    HighKept m m' := by
  induction ks generalizing m with
  | nil =>
      obtain rfl := Except.ok.inj h
      exact .refl m
  | cons k ks ih =>
      rw [List.foldlM_cons] at h
      cases h₁ : Linux011.freePage m (shmaddr k) with
      | error e =>
          rw [h₁] at h
          cases h
      | ok m₁ =>
          rw [h₁] at h
          exact (HighKept.freePage h₁).trans (ih h)

theorem HighKept.sysShmdt {s s' : ShmState} {t : Task} {shmaddr : Word} {r : Int}
    (h : sysShmdt s t shmaddr = some (r, s')) : HighKept s.mem s'.mem := by
  rcases sysShmdt_made h with ⟨-, rfl⟩ | ⟨i, j, -, -, hc⟩
  · exact .refl _
  · split at hc
    · have hcancel := HighKept.cancelAdresses
        (fun k => ((s.shmnum i).vaddr j + k * PAGE_SIZE) % 2 ^ 32)
        (List.range (s.shmnum i).pageNum) s.mem
      obtain ⟨-, hmem⟩ := hc
      split at hmem
      · exact hcancel.trans (.freePages hmem)
      · rw [hmem]
        exact hcancel
    · rw [hc]
      exact .refl _

theorem FreeBelow.kept (h : FreeBelow m) (hm : HighKept m m') : FreeBelow m' := by
  intro p hlow hp
  by_contra hhigh
  rw [hm.1, Nat.not_lt] at hhigh
  refine hm.2 p hhigh (fun hzero => ?_) hp
  exact Nat.not_lt.mpr hhigh (h p hlow hzero)

/-! ## Taking pages and giving them back -/

/-- The first `n` pages of `shmaddr` were taken one after another when the counts were
`counts₀`, and the counts are now `counts`. -/
def Taken (counts₀ : Nat → Nat) (high : Nat) (shmaddr : Nat → Nat) : Nat → (Nat → Nat) → Prop
  | 0, counts => counts = counts₀
  | n + 1, counts => LOW_MEM ≤ shmaddr n ∧ shmaddr n < high ∧ counts (shmaddr n) = 1 ∧
      Taken counts₀ high shmaddr n (update counts (shmaddr n) 0)

theorem Taken.congr {counts₀ : Nat → Nat} {high : Nat} {a b : Nat → Nat} :
    ∀ {n : Nat} {counts : Nat → Nat}, (∀ i < n, a i = b i) →
      Taken counts₀ high a n counts → Taken counts₀ high b n counts
  | 0, _, _, h => h
  | n + 1, _, hab, ⟨hlow, hhigh, hcount, h⟩ => by
      have hn : a n = b n := hab n (Nat.lt_succ_self n)
      rw [hn] at hlow hhigh hcount h
      exact ⟨hlow, hhigh, hcount, h.congr fun i hi => hab i (Nat.lt_succ_of_lt hi)⟩

theorem Taken.getFreePage {counts₀ : Nat → Nat} {shmaddr : Nat → Nat} {n page : Nat}
    (h : Taken counts₀ m.HIGH_MEMORY shmaddr n m.memMap) (hfree : FreeBelow m)
    (hp : getFreePage m = some (page, m')) :
    Taken counts₀ m'.HIGH_MEMORY (update shmaddr n page) (n + 1) m'.memMap := by
  obtain ⟨hlow, -, hzero, rfl⟩ := getFreePage_eq hp
  refine ⟨?_, ?_, ?_, ?_⟩ <;> rw [update_self]
  · exact hlow
  · exact hfree page hlow hzero
  · exact update_self ..
  · dsimp only
    rw [update_idem, ← hzero, update_eq_self]
    exact h.congr fun i hi => (update_of_ne (Nat.ne_of_lt hi) _ _).symm

/-- The pages that were taken can be given back, and the counts are then as before. -/
theorem Taken.giveBack {counts₀ : Nat → Nat} {shmaddr : Nat → Nat} {n : Nat}
    (h : Taken counts₀ m.HIGH_MEMORY shmaddr n m.memMap) :
    ∃ m', giveBack n shmaddr m = .ok (fun i => if i < n then 0 else shmaddr i, m') ∧
      m'.memMap = counts₀ := by
  induction n generalizing shmaddr m with
  | zero => exact ⟨m, by simp [Linux011.giveBack], h⟩
  | succ n ih =>
      obtain ⟨hlow, hhigh, hcount, h⟩ := h
      have hfree : freePage m (shmaddr n) = .ok (m.setCount (shmaddr n) 0) := by
        rw [freePage, if_neg (Nat.not_lt.mpr hlow), if_neg (Nat.not_le.mpr hhigh), hcount,
          if_pos Nat.one_ne_zero]
      have h' : Taken counts₀ (m.setCount (shmaddr n) 0).HIGH_MEMORY (update shmaddr n 0) n
          (m.setCount (shmaddr n) 0).memMap :=
        h.congr fun i hi => (update_of_ne (Nat.ne_of_lt hi) _ _).symm
      obtain ⟨m', hm', hcounts⟩ := ih h'
      refine ⟨m', ?_, hcounts⟩
      rw [Linux011.giveBack, hfree]
      refine hm'.trans ?_
      congr 2
      funext i
      rcases Nat.lt_trichotomy i n with hi | rfl | hi
      · rw [if_pos hi, if_pos (Nat.lt_succ_of_lt hi)]
      · rw [if_neg (Nat.lt_irrefl i), if_pos (Nat.lt_succ_self i), update_self]
      · rw [if_neg (Nat.not_lt_of_lt hi), if_neg (by omega), update_of_ne (Nat.ne_of_gt hi)]

/-- The loop over `get_free_page` gets its pages or leaves the counts as they were before
the first of them; the page that was not there is address 0, which `free_page` ignores. -/
theorem Taken.getPages {counts₀ : Nat → Nat} {shmaddr : Nat → Nat} {i left : Nat}
    (h : Taken counts₀ m.HIGH_MEMORY shmaddr i m.memMap) (hfree : FreeBelow m) :
    ∃ got shmaddr' m', getPages i left shmaddr m = .ok (got, shmaddr', m') ∧
      (got = false → m'.memMap = counts₀) := by
  induction left generalizing i shmaddr m with
  | zero => exact ⟨true, shmaddr, m, rfl, fun h => by cases h⟩
  | succ left ih =>
      rw [Linux011.getPages]
      split
      · rename_i page m₁ hp
        exact ih (h.getFreePage hfree hp) (hfree.kept (.getFreePage hp))
      · have hzero : freePage m (update shmaddr i 0 i) = .ok m := by
          rw [update_self]
          rfl
        have h' : Taken counts₀ m.HIGH_MEMORY (update (update shmaddr i 0) i 0) i m.memMap :=
          h.congr fun j hj => by simp [Nat.ne_of_lt hj]
        obtain ⟨m', hm', hcounts⟩ := h'.giveBack
        refine ⟨false, fun k => if k < i then 0 else update (update shmaddr i 0) i 0 k, m', ?_,
          fun _ => hcounts⟩
        rw [Linux011.giveBack, hzero]
        change (Linux011.giveBack i (update (update shmaddr i 0) i 0) m >>= _) = _
        rw [hm']
        rfl

/-- The loop of a call, from the first page on. -/
theorem FreeBelow.getPages (h : FreeBelow m) (shmaddr : Nat → Nat) (n : Nat) :
    ∃ got shmaddr' m', getPages 0 n shmaddr m = .ok (got, shmaddr', m') ∧
      (got = false → m'.memMap = m.memMap) := by
  have htaken : Taken m.memMap m.HIGH_MEMORY shmaddr 0 m.memMap := rfl
  exact htaken.getPages h

/-! ## What a call does -/

/-- What `sys_shmget` answers, case by case: it refuses, it returns the slot of the key, it
follows the null pointer, it creates, or it runs out of pages. -/
inductive Outcome (s : ShmState) (key size : Word) : Option (Int × ShmState) → Prop
  | refused : (key = IPC_PRIVATE → SizeOk size → findKey s.shmnum key = none) →
      Outcome s key size (some (-1, s))
  | found {i : Nat} : findKey s.shmnum key = some i → key ≠ IPC_PRIVATE →
      (s.shmnum i).key = key → Outcome s key size (some ((i : Int), s))
  | nullSlot {i : Nat} : findKey s.shmnum key = some i → SizeOk size → key = IPC_PRIVATE →
      (s.shmnum i).key = key → Outcome s key size none
  | created {i : Nat} {shmaddr : Nat → Nat} {m : Mem} : findKey s.shmnum key = some i →
      SizeOk size → (s.shmnum i).key = KEY_FREE → key ≠ KEY_FREE → HighKept s.mem m →
      Outcome s key size (some ((i : Int), ⟨update s.shmnum i
        { s.shmnum i with shmaddr := shmaddr, pageNum := pagesOf size, key := key
                          shm_nattch := 0 }, m⟩))
  | gaveBack {i : Nat} {shmaddr : Nat → Nat} {m : Mem} : findKey s.shmnum key = some i →
      (s.shmnum i).key = KEY_FREE → HighKept s.mem m → m.memMap = s.mem.memMap →
      Outcome s key size (some (-1, ⟨update s.shmnum i
        { s.shmnum i with shmaddr := shmaddr, pageNum := 0, key := KEY_FREE }, m⟩))

theorem FreeBelow.sysShmget (h : FreeBelow s.mem) (key size shmflg : Word) :
    Outcome s key size (sysShmget s key size shmflg) := by
  unfold Linux011.sysShmget
  split
  · rename_i hsize
    exact .refused fun _ hok => absurd hsize hok.1
  · rename_i hsize
    split
    · rename_i hnone
      exact .refused fun _ _ => hnone
    · rename_i i hi
      split
      · rename_i hpages
        exact .refused fun _ hok => absurd hok.2 (Nat.not_le.mpr hpages)
      · rename_i hpages
        split
        · rename_i hcreate
          split
          · rename_i hfree
            have hmark : key ≠ KEY_FREE := by
              rcases hcreate with rfl | ⟨-, hne⟩
              · decide
              · exact fun e => hne (hfree.trans e.symm)
            obtain ⟨got, shmaddr, m, hget, hcounts⟩ :=
              h.getPages (s.shmnum i).shmaddr (pagesOf size)
            dsimp only
            rw [hget]
            cases got with
            | true =>
                exact .created hi ⟨hsize, Nat.le_of_not_lt hpages⟩ hfree hmark (.getPages hget)
            | false => exact .gaveBack hi hfree (.getPages hget) (hcounts rfl)
          · rename_i hlive
            -- the search stopped at a slot that is not free, so it has the key
            have hkey : (s.shmnum i).key = key :=
              (findKey_some hi).2.1.resolve_right hlive
            exact .nullSlot hi ⟨hsize, Nat.le_of_not_lt hpages⟩
              (hcreate.resolve_right fun hne => hne.2 hkey) hkey
        · rename_i hcreate
          have hpriv : key ≠ IPC_PRIVATE := fun e => hcreate (Or.inl e)
          split
          · rename_i hold
            exact .found hi hpriv hold.2.2
          · exact .refused fun e => absurd e hpriv

/-- What the calls keep: the frames that are free lie below `HIGH_MEMORY`, and a free slot
has no pages. -/
structure Clean (s : ShmState) : Prop where
  frames : FreeBelow s.mem
  slots : ∀ i, (s.shmnum i).key = KEY_FREE → (s.shmnum i).pageNum = 0

theorem Clean.boot (shmnum : Nat → ShmStruct) (rest : Nat → Slot → Word)
    (startMem endMem : Nat) : Clean (boot shmnum rest startMem endMem) := by
  refine ⟨fun p _ hp => ?_, fun i _ => rfl⟩
  change (if startMem ≤ p ∧ p < endMem then 0 else USED) = 0 at hp
  split at hp
  · rename_i hfree
    exact hfree.2
  · cases hp

/-- Storing a slot that has no pages when it is free. -/
theorem Clean.store (h : Clean s) {i : Nat} {x : ShmStruct} (hm : HighKept s.mem m)
    (hx : x.key = KEY_FREE → x.pageNum = 0) : Clean ⟨update s.shmnum i x, m⟩ := by
  refine ⟨h.frames.kept hm, fun j hj => ?_⟩
  dsimp only at hj ⊢
  rcases eq_or_ne j i with rfl | hji
  · rw [update_self] at hj ⊢
    exact hx hj
  · rw [update_of_ne hji] at hj ⊢
    exact h.slots j hj

theorem Clean.memory (h : Clean s) (hm : HighKept s.mem m) : Clean { s with mem := m } :=
  ⟨h.frames.kept hm, h.slots⟩

theorem Clean.sysShmget (h : Clean s) {r : Int}
    (hr : sysShmget s key size shmflg = some (r, s')) : Clean s' := by
  have ho := h.frames.sysShmget key size shmflg
  rw [hr] at ho
  cases ho with
  | refused => exact h
  | found => exact h
  | created hi hsize hfree hmark hm => exact h.store hm fun e => absurd e hmark
  | gaveBack hi hfree hm hcounts => exact h.store hm fun _ => rfl

theorem Clean.sysShmat (h : Clean s) {t : Task} {shmid : Int} {shmaddr : Word} {r : Option Nat}
    (hr : sysShmat s t shmid shmaddr shmflg = some (r, s')) : Clean s' := by
  rcases sysShmat_cases hr with ⟨-, hsame, rfl | hmap⟩ | ⟨i, address, m, -, -, hmap, -, rfl⟩
  · exact h
  · have hs' : s' = { s with mem := s'.mem } := by rw [← hsame]
    rw [hs']
    exact h.memory (.mapSegment hmap)
  · refine h.store (.mapSegment hmap) fun hfree => ?_
    rw [record_key] at hfree
    rw [record_pageNum]
    exact h.slots i hfree

theorem Clean.sysShmdt (h : Clean s) {t : Task} {shmaddr : Word} {r : Int}
    (hr : sysShmdt s t shmaddr = some (r, s')) : Clean s' := by
  refine ⟨h.frames.kept (.sysShmdt hr), ?_⟩
  rcases sysShmdt_cases hr with ⟨-, rfl⟩ | ⟨i, j, -, -, hc⟩
  · exact h.slots
  · split at hc
    · rw [hc]
      have hx : (detached (s.shmnum i) j).key = KEY_FREE →
          (detached (s.shmnum i) j).pageNum = 0 := by
        unfold detached
        split
        · exact fun _ => rfl
        · exact h.slots i
      exact (h.store (.refl s.mem) hx).slots
    · rw [hc]
      exact h.slots

theorem Clean.step {a : Act} (h : Clean s) (hm : Managed s a) (hs : Shm.step s a = some s') :
    Clean s' := by
  cases a with
  | shmget key size shmflg =>
      obtain ⟨⟨r, s'⟩, hr, rfl⟩ := Option.map_eq_some_iff.mp hs
      exact h.sysShmget hr
  | shmat t shmid shmaddr shmflg =>
      obtain ⟨⟨r, s'⟩, hr, rfl⟩ := Option.map_eq_some_iff.mp hs
      exact h.sysShmat hr
  | shmdt t shmaddr =>
      obtain ⟨⟨r, s'⟩, hr, rfl⟩ := Option.map_eq_some_iff.mp hs
      exact h.sysShmdt hr
  | memory m =>
      obtain rfl := Option.some.inj hs
      exact h.memory hm

/-- The states that the calls reach, from any boot and whatever the rest of the kernel
does with the memory. -/
def Reached (s : ShmState) : Prop :=
  ∃ shmnum rest startMem endMem,
    Reach Shm.step Managed (boot shmnum rest startMem endMem) s

theorem Reached.clean (h : Reached s) : Clean s := by
  obtain ⟨shmnum, rest, startMem, endMem, h⟩ := h
  exact h.invariant (.boot shmnum rest startMem endMem) fun _ _ _ hs hm hstep =>
    hs.step hm hstep

/-- The calls alone, to compute runs. -/
def calls (s : ShmState) : Act → Option ShmState
  | .memory _ => none
  | a => Shm.step s a

theorem Reached.of_exec {shmnum : Nat → ShmStruct} {rest : Nat → Slot → Word}
    {startMem endMem : Nat} {as : List Act}
    (h : exec calls (boot shmnum rest startMem endMem) as = some s) : Reached s := by
  refine ⟨shmnum, rest, startMem, endMem, exec_refines (fun s a s' hs => ?_) h⟩
  cases a with
  | memory m => cases hs
  | shmget key size shmflg => exact Reach.one (a := .shmget key size shmflg) trivial hs
  | shmat t shmid shmaddr shmflg => exact Reach.one (a := .shmat t shmid shmaddr shmflg) trivial hs
  | shmdt t shmaddr => exact Reach.one (a := .shmdt t shmaddr) trivial hs

/-! ## Failure -/

/-- **Failed creation.** No call panics when it gives pages back, and a call that returns
-1 leaves the counts of the pages and the live slots as they were; the free slots are
still free and have no pages. -/
theorem failed_creation (h : Reached s) (key size shmflg : Word) :
    (∀ i, findKey s.shmnum key = some i →
      ∃ r, getPages 0 (pagesOf size) (s.shmnum i).shmaddr s.mem = .ok r) ∧
    ∀ s', sysShmget s key size shmflg = some (-1, s') →
      s'.mem.memMap = s.mem.memMap ∧
      (∀ i, (s.shmnum i).key ≠ KEY_FREE → s'.shmnum i = s.shmnum i) ∧
      ∀ i, (s.shmnum i).key = KEY_FREE →
        (s'.shmnum i).key = KEY_FREE ∧ (s'.shmnum i).pageNum = 0 := by
  have hc := h.clean
  constructor
  · intro i _
    obtain ⟨got, shmaddr, m, hget, -⟩ :=
      hc.frames.getPages (s.shmnum i).shmaddr (pagesOf size)
    exact ⟨_, hget⟩
  · intro s' hr
    have ho := hc.frames.sysShmget key size shmflg
    rw [hr] at ho
    generalize hminus : (-1 : Int) = r at ho
    cases ho with
    | refused => exact ⟨rfl, fun _ _ => rfl, fun i hi => ⟨hi, hc.slots i hi⟩⟩
    | found => omega
    | created => omega
    | gaveBack hi hfree hm hcounts =>
        rename_i i shmaddr m
        refine ⟨hcounts, fun j hj => ?_, fun j hj => ?_⟩
        · have hji : j ≠ i := by
            rintro rfl
            exact hj hfree
          exact update_of_ne hji _ _
        · dsimp only
          rcases eq_or_ne j i with rfl | hji
          · rw [update_self]
            exact ⟨rfl, rfl⟩
          · rw [update_of_ne hji]
            exact ⟨hj, hc.slots j hj⟩

/-- Two pages of main memory. A segment of one page leaves one, too few for a segment of
two. -/
def twoPages : ShmState :=
  boot shmBoot (fun _ _ => 0) (LOW_MEM + PAGING_PAGES - 2) (LOW_MEM + PAGING_PAGES)

theorem failed_creation_twoPages :
    ∃ s, exec calls twoPages [.shmget 5 1 IPC_CREAT] = some s ∧
      ∃ s', sysShmget s 6 0x2000 IPC_CREAT = some (-1, s') ∧ s'.mem.memMap = s.mem.memMap ∧
        (s'.shmnum 1).key = KEY_FREE := by
  obtain ⟨s, hs, hr, hfree⟩ : ∃ s, exec calls twoPages [.shmget 5 1 IPC_CREAT] = some s ∧
      (sysShmget s 6 0x2000 IPC_CREAT).map Prod.fst = some (-1) ∧
        (s.shmnum 1).key = KEY_FREE := exec_any (by decide +kernel)
  obtain ⟨⟨r, s'⟩, hr, rfl⟩ := Option.map_eq_some_iff.mp hr
  have hfail := (failed_creation (Reached.of_exec hs) 6 0x2000 IPC_CREAT).2 s' hr
  exact ⟨s, hs, s', hr, hfail.1, (hfail.2.2 1 hfree).1⟩

/-! ## The size of a segment -/

/-- A free slot gets enough pages when the rounding does not wrap, a live one has them
already; a call with the mark of a free slot as its key is given a free slot. -/
def SizeHeld (s : ShmState) (key size : Word) : Prop :=
  key ≠ KEY_FREE ∧ ∀ i, findKey s.shmnum key = some i →
    if (s.shmnum i).key = KEY_FREE then size.toNat + 0x0FFF < 0x100000000
    else size.toNat ≤ PAGE_SIZE * (s.shmnum i).pageNum

theorem pagesOf_holds (hsize : size ≠ 0) :
    size.toNat ≤ PAGE_SIZE * pagesOf size ↔ size.toNat + 0x0FFF < 0x100000000 := by
  have hpos : 0 < size.toNat := Nat.pos_of_ne_zero fun h => hsize (BitVec.eq_of_toNat_eq h)
  have hlt := size.isLt
  have hround : (size + 0x0FFF).toNat = (size.toNat + 0x0FFF) % 0x100000000 := by
    rw [BitVec.toNat_add]
    rfl
  have hpage : PAGE_SIZE = 4096 := rfl
  rw [pagesOf, hround, hpage]
  omega

/-- **The requested size**, for every state that calls reach and every key, size and
flag. When `sys_shmget` returns a slot, the slot is live and has room for the size
exactly when the sum that rounds a new size up does not wrap, or the segment that is
found was large enough already. -/
theorem requested_size (h : Reached s) {i : Nat}
    (hr : sysShmget s key size shmflg = some ((i : Int), s')) :
    ((s'.shmnum i).key ≠ KEY_FREE ∧ size.toNat ≤ PAGE_SIZE * (s'.shmnum i).pageNum) ↔
      SizeHeld s key size := by
  have ho := h.clean.frames.sysShmget key size shmflg
  rw [hr] at ho
  generalize hid : (i : Int) = r at ho
  cases ho with
  | refused => omega
  | gaveBack => omega
  | found hi hpriv hkey =>
      obtain rfl := Int.ofNat.inj hid
      constructor
      · rintro ⟨hlive, hroom⟩
        refine ⟨hkey ▸ hlive, fun j hj => ?_⟩
        obtain rfl := Option.some.inj (hi.symm.trans hj)
        rw [if_neg hlive]
        exact hroom
      · rintro ⟨hmark, hroom⟩
        have hlive : (s.shmnum i).key ≠ KEY_FREE := hkey ▸ hmark
        have hroom := hroom i hi
        rw [if_neg hlive] at hroom
        exact ⟨hlive, hroom⟩
  | created hi hsize hfree hmark hm =>
      obtain rfl := Int.ofNat.inj hid
      dsimp only
      rw [update_self, pagesOf_holds hsize.1]
      constructor
      · rintro ⟨-, hroom⟩
        refine ⟨hmark, fun j hj => ?_⟩
        obtain rfl := Option.some.inj (hi.symm.trans hj)
        rw [if_pos hfree]
        exact hroom
      · rintro ⟨-, hroom⟩
        have hroom := hroom i hi
        rw [if_pos hfree] at hroom
        exact ⟨hmark, hroom⟩

/-- A segment of one page is asked for, and again with the size of a page. -/
theorem requested_size_one :
    ∃ s, exec calls (boot shmBoot (fun _ _ => 0) LOW_MEM (LOW_MEM + PAGING_PAGES))
        [.shmget 5 1 IPC_CREAT] = some s ∧
      ∃ s', sysShmget s 5 0x1000 IPC_CREAT = some (0, s') ∧
        0x1000 ≤ PAGE_SIZE * (s'.shmnum 0).pageNum := by
  obtain ⟨s, hs, hr, hi, hlive, hroom⟩ : ∃ s,
      exec calls (boot shmBoot (fun _ _ => 0) LOW_MEM (LOW_MEM + PAGING_PAGES))
        [.shmget 5 1 IPC_CREAT] = some s ∧
      (sysShmget s 5 0x1000 IPC_CREAT).map Prod.fst = some 0 ∧ findKey s.shmnum 5 = some 0 ∧
        (s.shmnum 0).key ≠ KEY_FREE ∧ 0x1000 ≤ PAGE_SIZE * (s.shmnum 0).pageNum :=
    exec_any (by decide)
  obtain ⟨⟨r, s'⟩, hr, rfl⟩ := Option.map_eq_some_iff.mp hr
  have hheld : SizeHeld s 5 0x1000 := by
    refine ⟨by decide, fun i hi' => ?_⟩
    obtain rfl := Option.some.inj (hi.symm.trans hi')
    rw [if_neg hlive]
    exact hroom
  exact ⟨s, hs, s', hr, ((requested_size (Reached.of_exec hs) (i := 0) hr).mpr hheld).2⟩

/-- A size near the end of the word is rounded to no pages. -/
theorem not_requested_size :
    ∃ s', sysShmget (boot shmBoot (fun _ _ => 0) LOW_MEM (LOW_MEM + PAGING_PAGES)) 5
        0xFFFFFFFF IPC_CREAT = some (0, s') ∧ ¬0xFFFFFFFF ≤ PAGE_SIZE * (s'.shmnum 0).pageNum :=
  ⟨_, rfl, by decide⟩

/-! ## Private segments -/

/-- Every private segment has a free slot before it. -/
def FreeFirst (shmnum : Nat → ShmStruct) : Prop :=
  ∀ i < SHM_NUM, (shmnum i).key = IPC_PRIVATE → ∃ j < i, (shmnum j).key = KEY_FREE

instance (shmnum : Nat → ShmStruct) : Decidable (FreeFirst shmnum) :=
  inferInstanceAs (Decidable (∀ i < SHM_NUM, _))

theorem findKey_none {shmnum : Nat → ShmStruct} (h : findKey shmnum key = none) {i : Nat}
    (hi : i < SHM_NUM) : (shmnum i).key ≠ key := by
  have := List.find?_eq_none.mp h i (List.mem_range.mpr hi)
  simpa using fun e => this (by simp [e])

/-- The search stops at a private segment unless a free slot comes first. -/
theorem freeFirst_iff {shmnum : Nat → ShmStruct} {i : Nat}
    (hi : findKey shmnum IPC_PRIVATE = some i) :
    FreeFirst shmnum ↔ (shmnum i).key = KEY_FREE := by
  obtain ⟨hlt, hor, hbefore⟩ := findKey_some hi
  constructor
  · intro h
    rcases hor with hpriv | hfree
    · obtain ⟨j, hj, hfree⟩ := h i hlt hpriv
      exact absurd hfree (hbefore j hj).2
    · exact hfree
  · intro hfree k hk hpriv
    rcases Nat.lt_trichotomy k i with hki | rfl | hik
    · exact absurd hpriv (hbefore k hki).1
    · rw [hpriv] at hfree
      exact absurd hfree (by decide)
    · exact ⟨i, hik, hfree⟩

/-- **Private segments.** A call with `IPC_PRIVATE` returns -1 or makes a segment in a free
slot, without following a null pointer, exactly when the size is refused or every private
segment has a free slot before it. -/
theorem private_fresh (h : Reached s) (size shmflg : Word) :
    (∃ r s', sysShmget s IPC_PRIVATE size shmflg = some (r, s') ∧
      (r = -1 ∨ ∃ i : Nat, r = i ∧ (s.shmnum i).key = KEY_FREE ∧
        (s'.shmnum i).key = IPC_PRIVATE ∧ (s'.shmnum i).pageNum = pagesOf size)) ↔
      (SizeOk size → FreeFirst s.shmnum) := by
  have ho := h.clean.frames.sysShmget IPC_PRIVATE size shmflg
  generalize sysShmget s IPC_PRIVATE size shmflg = o at ho
  cases ho with
  | refused hnone =>
      refine iff_of_true ⟨-1, s, rfl, Or.inl rfl⟩ fun hsize i hi hpriv => ?_
      exact absurd hpriv (findKey_none (hnone rfl hsize) hi)
  | found _ hpriv => exact absurd rfl hpriv
  | nullSlot hi hsize _ hkey =>
      refine iff_of_false ?_ fun hfirst => ?_
      · rintro ⟨r, s', he, -⟩
        cases he
      · have hfree := (freeFirst_iff hi).mp (hfirst hsize)
        rw [hkey] at hfree
        exact absurd hfree (by decide)
  | created hi hsize hfree =>
      refine iff_of_true ⟨_, _, rfl, Or.inr ⟨_, rfl, hfree, ?_⟩⟩ fun _ =>
        (freeFirst_iff hi).mpr hfree
      dsimp only
      rw [update_self]
      exact ⟨rfl, rfl⟩
  | gaveBack hi hfree =>
      exact iff_of_true ⟨-1, _, rfl, Or.inl rfl⟩ fun _ => (freeFirst_iff hi).mpr hfree

theorem private_fresh_twoPages : ∃ r s', sysShmget twoPages IPC_PRIVATE 1 0 = some (r, s') ∧
    (r = -1 ∨ ∃ i : Nat, r = i ∧ (twoPages.shmnum i).key = KEY_FREE ∧
      (s'.shmnum i).key = IPC_PRIVATE ∧ (s'.shmnum i).pageNum = pagesOf 1) := by
  have hs : exec calls twoPages [] = some twoPages := rfl
  exact (private_fresh (Reached.of_exec hs) 1 0).mpr fun _ => by decide

/-- Two private segments in a row. -/
theorem not_private_fresh :
    ∃ s, exec calls twoPages [.shmget IPC_PRIVATE 1 0] = some s ∧
      sysShmget s IPC_PRIVATE 1 0 = none := by
  obtain ⟨s, hs, hr⟩ : ∃ s, exec calls twoPages [.shmget IPC_PRIVATE 1 0] = some s ∧
      (sysShmget s IPC_PRIVATE 1 0).isNone := exec_any (by decide +kernel)
  exact ⟨s, hs, Option.isNone_iff_eq_none.mp hr⟩

end ShmCreate

end Linux011
