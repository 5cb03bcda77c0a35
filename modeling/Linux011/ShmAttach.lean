import Linux011.Shm
import Linux011.Slots

/-!
# The books of attachments

A segment counts its attachments in `shm_nattch` and lists them in the records `pid` and `vaddr`.
`sys_shmat` adds one to the count also when there is no unused record, and with an explicit
address it does not look whether the slot is live. In the histories in which neither happens
(`Recorded`) both books agree with the attachments that were made and not undone.

The histories keep a second book beside the table: a list of the attachments that were granted
and not undone, which no call reads. `Slot` is what holds of one slot, that its count is the
number of its used records and that a free slot has none, and `Inv` adds that the records of a
slot are the attachments of the list, as often as they occur there. An attach puts one record and
one attachment in, a detach takes the first record with its pid and address out and with it one
attachment of the same kind; which of several equal ones this is makes no difference to the
counts. The condition is on the attach alone, and the last part of the theorem shows that it is
exact: an attach that maps pages for a free slot makes a record where there may be none, and one
at a slot whose records are all used raises the count and nothing else.
-/

namespace Linux011

open Function Runs

namespace ShmAttach

open Shm (Act start freeMem taskOne)

/-- A segment attached by a task: the slot, the pid and the linear address. -/
abbrev Attachment := Nat × Nat × Nat

/-- The state, with the attachments that `sys_shmat` granted and `sys_shmdt` has not
undone. -/
structure Books where
  state : ShmState
  attached : List Attachment

/-- The linear address of an address that a task uses. -/
def linearAddr (t : Task) (address : Nat) : Nat := (address + t.base.toNat) % 2 ^ 32

def step (b : Books) : Act → Option Books
  | .shmat t shmid shmaddr shmflg =>
      (sysShmat b.state t shmid shmaddr shmflg).map fun (r, s) =>
        match r with
        | some address => ⟨s, (shmid.toNat, t.pid, linearAddr t address) :: b.attached⟩
        | none => ⟨s, b.attached⟩
  | .shmdt t shmaddr =>
      (sysShmdt b.state t shmaddr).map fun (r, s) =>
        match findRecord b.state.shmnum t.pid (linearAddr t shmaddr.toNat) with
        | some (i, _) =>
          if r = 0 then ⟨s, b.attached.erase (i, t.pid, linearAddr t shmaddr.toNat)⟩
          else ⟨s, b.attached⟩
        | none => ⟨s, b.attached⟩
  | a => (Shm.step b.state a).map fun s => ⟨s, b.attached⟩

/-- How many records a slot uses. -/
def usedRecords (x : ShmStruct) : Nat := (List.range TASK_NUM).countP fun j => x.pid j != 0

/-- How many records of a slot hold the pid and the address. -/
def recordsOf (x : ShmStruct) (pid address : Nat) : Nat :=
  (List.range TASK_NUM).countP fun j => x.pid j == pid && x.vaddr j == address

/-- The two books of every slot agree, free slots have none, and every attachment has
its record. -/
structure Kept (b : Books) : Prop where
  nattch : ∀ i < SHM_NUM, (b.state.shmnum i).shm_nattch.toNat = usedRecords (b.state.shmnum i)
  free : ∀ i < SHM_NUM, (b.state.shmnum i).key = KEY_FREE →
    (b.state.shmnum i).shm_nattch = 0 ∧ ∀ j < TASK_NUM, (b.state.shmnum i).pid j = 0
  recorded : ∀ i pid address, (i, pid, address) ∈ b.attached →
    findRecord b.state.shmnum pid address ≠ none

/-- `sys_shmat` gets its pages mapped only for a live slot with an unused record. -/
def Recorded (b : Books) : Act → Prop
  | .shmat t shmid shmaddr shmflg =>
      0 ≤ shmid → shmid < SHM_NUM →
        ∀ r ∈ mapSegment b.state.mem t (b.state.shmnum shmid.toNat) shmaddr shmflg, r.1 ≠ none →
          (b.state.shmnum shmid.toNat).key ≠ KEY_FREE ∧
            unusedRecord (b.state.shmnum shmid.toNat) ≠ none
  | _ => True

instance (b : Books) : ∀ a, Decidable (Recorded b a)
  | .shmat .. => by unfold Recorded; infer_instance
  | .shmget .. | .shmdt .. | .memory .. => isTrue trivial

/-! ## One slot -/

section Slot

variable {x : ShmStruct} {pid address j : Nat}

/-- A free slot has no pages and no records. -/
structure Slot (x : ShmStruct) : Prop where
  nattch : x.shm_nattch.toNat = usedRecords x
  free : x.key = KEY_FREE → x.pageNum = 0 ∧ usedRecords x = 0

theorem usedRecords_le (x : ShmStruct) : usedRecords x ≤ TASK_NUM :=
  List.countP_le_length.trans_eq List.length_range

theorem pid_of_usedRecords (h : usedRecords x = 0) {j : Nat} (hj : j < TASK_NUM) :
    x.pid j = 0 := by
  by_contra hne
  have := Slots.countP_pos (p := fun j => x.pid j != 0) hj (by simpa using hne)
  rw [usedRecords] at h
  omega

theorem unusedRecord_some (h : unusedRecord x = some j) : j < TASK_NUM ∧ x.pid j = 0 :=
  ⟨List.mem_range.mp (List.mem_of_find?_eq_some h), by simpa using List.find?_some h⟩

theorem Slot.record (h : Slot x) (hlive : x.key ≠ KEY_FREE) (hpid : pid ≠ 0)
    (hj : unusedRecord x = some j) : Slot (record x pid address) := by
  obtain ⟨hlt, h0⟩ := unusedRecord_some hj
  have hused : usedRecords (Linux011.record x pid address) = usedRecords x + 1 := by
    have := Slots.countP_update (p := fun i => x.pid i != 0)
      (q := fun i => update x.pid j pid i != 0) hlt fun i hi => by simp [hi]
    have hp : (x.pid j != 0) = false := by simp [h0]
    have hq : (update x.pid j pid j != 0) = true := by simp [hpid]
    rw [hp, hq] at this
    simpa [usedRecords, Linux011.record, hj] using this
  constructor
  · have hle := usedRecords_le (Linux011.record x pid address)
    have hn := h.nattch
    have hnattch : (Linux011.record x pid address).shm_nattch = x.shm_nattch + 1 := by
      simp [Linux011.record, hj]
    have h64 : TASK_NUM = 64 := rfl
    rw [hused, hnattch, BitVec.toNat_add]
    have h1 : (1 : BitVec 32).toNat = 1 := rfl
    omega
  · intro hkey
    rw [record_key] at hkey
    exact absurd hkey hlive

theorem recordsOf_record (hj : unusedRecord x = some j) {pid' address' : Nat}
    (hpid' : pid' ≠ 0) : recordsOf (record x pid address) pid' address'
      = recordsOf x pid' address' + if pid' = pid ∧ address' = address then 1 else 0 := by
  obtain ⟨hlt, h0⟩ := unusedRecord_some hj
  have := Slots.countP_update
    (p := fun i => x.pid i == pid' && x.vaddr i == address')
    (q := fun i => update x.pid j pid i == pid' && update x.vaddr j address i == address')
    hlt fun i hi => by simp [hi]
  have hp : (x.pid j == pid' && x.vaddr j == address') = false := by simp [h0, hpid'.symm]
  simp only [hp, update_self, Bool.toNat_false, Nat.add_zero] at this
  have hrec : recordsOf (record x pid address) pid' address' = (List.range TASK_NUM).countP
      fun i => update x.pid j pid i == pid' && update x.vaddr j address i == address' := by
    simp [recordsOf, record, hj]
  rw [hrec, this, recordsOf]
  by_cases he : pid' = pid ∧ address' = address
  · simp [he]
  · rw [if_neg he]
    have : (pid == pid' && address == address') = false := by
      rw [Bool.eq_false_iff, ne_eq, Bool.and_eq_true, beq_iff_eq, beq_iff_eq]
      exact fun e => he ⟨e.1.symm, e.2.symm⟩
    rw [this]
    rfl

theorem Slot.detached (h : Slot x) (hlt : j < TASK_NUM) (hpid : x.pid j ≠ 0) :
    0 < x.shm_nattch.toInt ∧ Slot (detached x j) := by
  have hle := usedRecords_le x
  have hn := h.nattch
  have h64 : TASK_NUM = 64 := rfl
  have hp : (x.pid j != 0) = true := by simpa using hpid
  have hpos : 0 < usedRecords x := Slots.countP_pos hlt hp
  have hused : usedRecords (Linux011.detached x j) + 1 = usedRecords x := by
    have := Slots.countP_update (p := fun i => x.pid i != 0)
      (q := fun i => update x.pid j 0 i != 0) hlt fun i hi => by simp [hi]
    have hq : (update x.pid j 0 j != 0) = false := by simp
    rw [hp, hq] at this
    have hpids : (Linux011.detached x j).pid = update x.pid j 0 := by
      unfold Linux011.detached
      split <;> rfl
    rw [usedRecords, hpids]
    exact this
  have hnattch : (Linux011.detached x j).shm_nattch = x.shm_nattch - 1 := by
    unfold Linux011.detached
    split <;> rfl
  have hsub : (x.shm_nattch - 1).toNat = x.shm_nattch.toNat - 1 :=
    BitVec.toNat_sub_of_le (by rw [BitVec.le_def]; exact hn ▸ hpos)
  refine ⟨?_, ?_, ?_⟩
  · rw [BitVec.toInt_eq_toNat_of_lt (by omega)]
    omega
  · rw [hnattch, hsub]
    omega
  · unfold Linux011.detached at hused ⊢
    split
    · rename_i hz
      rw [if_pos hz] at hused
      have h0 : x.shm_nattch.toNat - 1 = 0 := by
        rw [← hsub, hz]
        rfl
      exact fun _ => ⟨rfl, by omega⟩
    · intro hkey
      have := (h.free hkey).2
      omega

theorem recordsOf_detached (hlt : j < TASK_NUM) {pid' address' : Nat}
    (hpid' : pid' ≠ 0) : recordsOf x pid' address' = recordsOf (detached x j) pid' address'
      + if pid' = x.pid j ∧ address' = x.vaddr j then 1 else 0 := by
  have := Slots.countP_update
    (p := fun i => x.pid i == pid' && x.vaddr i == address')
    (q := fun i => update x.pid j 0 i == pid' && update x.vaddr j 0 i == address')
    hlt fun i hi => by simp [hi]
  have hq : (update x.pid j 0 j == pid' && update x.vaddr j 0 j == address') = false := by
    simp [hpid'.symm]
  rw [hq] at this
  have hrec : recordsOf (detached x j) pid' address' = (List.range TASK_NUM).countP
      fun i => update x.pid j 0 i == pid' && update x.vaddr j 0 i == address' := by
    unfold detached
    split <;> rfl
  rw [hrec, recordsOf, ← Nat.add_zero (List.countP _ _), ← Bool.toNat_false, ← this]
  by_cases he : pid' = x.pid j ∧ address' = x.vaddr j
  · simp [he]
  · rw [if_neg he]
    have : (x.pid j == pid' && x.vaddr j == address') = false := by
      rw [Bool.eq_false_iff, ne_eq, Bool.and_eq_true, beq_iff_eq, beq_iff_eq]
      exact fun e => he ⟨e.1.symm, e.2.symm⟩
    rw [this]
    rfl

end Slot

/-! ## All slots -/

/-- Every slot is in order, and its records are the attachments of the slot. -/
structure Inv (b : Books) : Prop where
  slots : ∀ i < SHM_NUM, Slot (b.state.shmnum i)
  count : ∀ i < SHM_NUM, ∀ pid address, pid ≠ 0 →
    b.attached.count (i, pid, address) = recordsOf (b.state.shmnum i) pid address
  dom : ∀ i pid address, (i, pid, address) ∈ b.attached → i < SHM_NUM ∧ pid ≠ 0

variable {b b' : Books}

theorem inv_start (m : Mem) : Inv ⟨start shmBoot m, []⟩ where
  slots i _ := by
    have hused : usedRecords (sysInishm shmBoot i) = 0 := by
      simp [usedRecords, sysInishm, shmBoot]
    exact ⟨hused.symm, fun _ => ⟨rfl, hused⟩⟩
  count i _ pid address hpid := by
    have hnone : recordsOf (sysInishm shmBoot i) pid address = 0 := by
      simp [recordsOf, sysInishm, shmBoot, List.countP_eq_zero, hpid.symm]
    exact hnone.symm
  dom _ _ _ h := absurd h List.not_mem_nil

theorem findRecord_ne_none {shmnum : Nat → ShmStruct} {i pid address : Nat} (hi : i < SHM_NUM)
    (h : 0 < recordsOf (shmnum i) pid address) : findRecord shmnum pid address ≠ none := by
  obtain ⟨j, hj, hp⟩ := Slots.exists_of_countP h
  intro hnone
  have hi' := List.findSome?_eq_none_iff.mp hnone i (List.mem_range.mpr hi)
  have hj' := List.find?_eq_none.mp (Option.map_eq_none_iff.mp hi') j (List.mem_range.mpr hj)
  exact hj' hp

theorem Inv.kept (h : Inv b) : Kept b where
  nattch i hi := (h.slots i hi).nattch
  free i hi hkey := by
    have hused := ((h.slots i hi).free hkey).2
    have h0 := (h.slots i hi).nattch
    rw [hused] at h0
    exact ⟨BitVec.eq_of_toNat_eq h0, fun j hj => pid_of_usedRecords hused hj⟩
  recorded i pid address hmem := by
    obtain ⟨hi, hpid⟩ := h.dom i pid address hmem
    refine findRecord_ne_none hi ?_
    rw [← h.count i hi pid address hpid]
    exact List.count_pos_iff.mpr hmem

/-- A step that stores one slot keeps the invariant when the new slot is in order and the
attachments change as its records do. -/
theorem Inv.store (h : Inv b) {i : Nat} {x : ShmStruct} {m : Mem} {attached : List Attachment}
    (hx : Slot x)
    (hother : ∀ k, k ≠ i → ∀ pid address, attached.count (k, pid, address)
      = b.attached.count (k, pid, address))
    (hcount : ∀ pid address, pid ≠ 0 → attached.count (i, pid, address) = recordsOf x pid address)
    (hdom : ∀ k pid address, (k, pid, address) ∈ attached → k < SHM_NUM ∧ pid ≠ 0) :
    Inv ⟨⟨update b.state.shmnum i x, m⟩, attached⟩ where
  slots k hk := by
    rcases eq_or_ne k i with rfl | hki
    · simpa using hx
    · simpa [hki] using h.slots k hk
  count k hk pid address hpid := by
    rcases eq_or_ne k i with rfl | hki
    · simpa using hcount pid address hpid
    · simpa [hki, hother k hki] using h.count k hk pid address hpid
  dom := hdom

/-- A new segment in a free slot, or a free slot that stays one. -/
theorem Inv.fill (h : Inv b) {i : Nat} (hi : i < SHM_NUM)
    (hfree : (b.state.shmnum i).key = KEY_FREE) {x : ShmStruct} {m : Mem}
    (hpid : x.pid = (b.state.shmnum i).pid) (hvaddr : x.vaddr = (b.state.shmnum i).vaddr)
    (hn : x.shm_nattch = 0) (hpages : x.key = KEY_FREE → x.pageNum = 0) :
    Inv ⟨⟨update b.state.shmnum i x, m⟩, b.attached⟩ := by
  have hused : usedRecords x = 0 := by
    rw [usedRecords, hpid]
    exact ((h.slots i hi).free hfree).2
  refine h.store ⟨by rw [hused, hn]; rfl, fun hk => ⟨hpages hk, hused⟩⟩ (fun _ _ _ _ => rfl)
    (fun pid address hp => ?_) h.dom
  rw [h.count i hi pid address hp, recordsOf, recordsOf, hpid, hvaddr]

theorem Inv.attach (h : Inv b) {t : Task} {i address : Nat} {m : Mem} (hi : i < SHM_NUM)
    (hlive : (b.state.shmnum i).key ≠ KEY_FREE)
    (hroom : unusedRecord (b.state.shmnum i) ≠ none) :
    Inv ⟨⟨update b.state.shmnum i (record (b.state.shmnum i) t.pid address), m⟩,
      (i, t.pid, address) :: b.attached⟩ := by
  obtain ⟨j, hj⟩ := Option.ne_none_iff_exists'.mp hroom
  refine h.store ((h.slots i hi).record hlive t.pid_ne hj) (fun k hk pid a => ?_)
    (fun pid a hpid => ?_) fun k pid a hmem => ?_
  · exact List.count_cons_of_ne fun e => hk (congrArg Prod.fst e).symm
  · rw [recordsOf_record hj hpid, List.count_cons, h.count i hi pid a hpid]
    have hiff : (i, t.pid, address) = (i, pid, a) ↔ pid = t.pid ∧ a = address := by
      rw [Prod.mk.injEq, Prod.mk.injEq, eq_comm (a := t.pid), eq_comm (a := address)]
      exact and_iff_right rfl
    simp only [beq_iff_eq, hiff]
  · rcases List.mem_cons.mp hmem with he | hmem
    · obtain ⟨hk, he⟩ := Prod.mk.inj he
      obtain ⟨hpid, -⟩ := Prod.mk.inj he
      exact ⟨hk ▸ hi, hpid ▸ t.pid_ne⟩
    · exact h.dom k pid a hmem

theorem Inv.detach (h : Inv b) {i j : Nat} {m : Mem} (hi : i < SHM_NUM) (hj : j < TASK_NUM)
    (hpid : (b.state.shmnum i).pid j ≠ 0) :
    Inv ⟨⟨update b.state.shmnum i (detached (b.state.shmnum i) j), m⟩,
      b.attached.erase (i, (b.state.shmnum i).pid j, (b.state.shmnum i).vaddr j)⟩ := by
  refine h.store ((h.slots i hi).detached hj hpid).2 (fun k hk pid a => ?_)
    (fun pid a hp => ?_) fun k pid a hmem => h.dom k pid a (List.mem_of_mem_erase hmem)
  · exact List.count_erase_of_ne fun e => hk (congrArg Prod.fst e)
  · have hrec : recordsOf (b.state.shmnum i) pid a
        = recordsOf (detached (b.state.shmnum i) j) pid a
          + if pid = (b.state.shmnum i).pid j ∧ a = (b.state.shmnum i).vaddr j then 1 else 0 :=
      recordsOf_detached hj hp
    have hcount := h.count i hi pid a hp
    rw [List.count_erase]
    by_cases he : pid = (b.state.shmnum i).pid j ∧ a = (b.state.shmnum i).vaddr j
    · rw [if_pos he] at hrec
      rw [if_pos (by simp [he])]
      omega
    · rw [if_neg he] at hrec
      have hne : ((i, (b.state.shmnum i).pid j, (b.state.shmnum i).vaddr j) == (i, pid, a))
          = false := by
        rw [beq_eq_false_iff_ne]
        intro e
        obtain ⟨-, e⟩ := Prod.mk.inj e
        obtain ⟨e₁, e₂⟩ := Prod.mk.inj e
        exact he ⟨e₁.symm, e₂.symm⟩
      rw [hne]
      simpa [hcount] using hrec

/-- An address that is mapped is a linear address. -/
theorem mapSegment_lt {m m' : Mem} {t : Task} {x : ShmStruct} {shmaddr shmflg : Word}
    {address : Nat} (h : mapSegment m t x shmaddr shmflg = some (some address, m')) :
    address < 2 ^ 32 := by
  unfold mapSegment at h
  split at h
  · obtain ⟨⟨found, m₁⟩, hf, he⟩ := Option.map_eq_some_iff.mp h
    obtain ⟨⟨flag, m₂⟩, -, hfound⟩ := Option.map_eq_some_iff.mp hf
    dsimp only at he
    split at he
    · obtain rfl := Option.some.inj (congrArg Prod.fst he)
      obtain rfl := congrArg Prod.fst hfound
      dsimp only
      split
      · unfold heapEnd
        omega
      · decide
    · cases he
  · have hlt := shmaddr.isLt
    obtain ⟨he, -⟩ := Prod.mk.inj (Option.some.inj h)
    obtain ⟨-, he⟩ := Option.ite_none_right_eq_some.mp he
    obtain rfl := Option.some.inj he
    split
    · omega
    · exact hlt

/-- The address that the caller gets leads back to the one that was recorded. -/
theorem linearAddr_relative (t : Task) {address : Nat} (h : address < 2 ^ 32) :
    linearAddr t ((address + 2 ^ 32 - t.base.toNat) % 2 ^ 32) = address := by
  have hb := t.base.isLt
  unfold linearAddr
  omega

theorem Inv.step {a : Act} (h : Inv b) (hok : Recorded b a)
    (hs : ShmAttach.step b a = some b') : Inv b' := by
  cases a with
  | shmget key size shmflg =>
      obtain ⟨s₁, hs₁, rfl⟩ := Option.map_eq_some_iff.mp hs
      have hs₂ : (sysShmget b.state key size shmflg).map Prod.snd = some s₁ := hs₁
      obtain ⟨⟨r, s'⟩, hr, rfl⟩ := Option.map_eq_some_iff.mp hs₂
      rcases sysShmget_cases hr with rfl | ⟨i, hi, hfree, -, hmark, -, shmaddr, hc⟩
      · exact h
      · have hlt := (findKey_some hi).1
        have hn : (b.state.shmnum i).shm_nattch = 0 := (h.kept.free i hlt hfree).1
        rcases hc with ⟨-, hc⟩ | hc
        · have hf := h.fill (m := s'.mem) hlt hfree (x := { b.state.shmnum i with
            shmaddr := shmaddr, pageNum := pagesOf size, key := key, shm_nattch := 0 })
            rfl rfl rfl fun he => absurd he hmark
          rwa [← hc] at hf
        · have hf := h.fill (m := s'.mem) hlt hfree (x := { b.state.shmnum i with
            shmaddr := shmaddr, pageNum := 0, key := KEY_FREE }) rfl rfl hn fun _ => rfl
          rwa [← hc] at hf
  | shmat t shmid shmaddr shmflg =>
      obtain ⟨⟨r, s'⟩, hr, rfl⟩ := Option.map_eq_some_iff.mp hs
      rcases sysShmat_cases hr with ⟨rfl, hc, -⟩ | ⟨i, address, m, rfl, hi, hm, rfl, rfl⟩
      · refine ⟨fun k hk => ?_, fun k hk => ?_, h.dom⟩
        · change Slot (s'.shmnum k)
          rw [hc]
          exact h.slots k hk
        · change ∀ pid address, pid ≠ 0 → _ = recordsOf (s'.shmnum k) pid address
          rw [hc]
          exact h.count k hk
      · have hgood : (b.state.shmnum i).key ≠ KEY_FREE ∧
            unusedRecord (b.state.shmnum i) ≠ none := by
          have := hok (Int.natCast_nonneg i) (Int.ofNat_lt.mpr hi)
          rw [Int.toNat_natCast] at this
          exact this _ hm (Option.some_ne_none address)
        dsimp only
        rw [linearAddr_relative t (mapSegment_lt hm), Int.toNat_natCast]
        exact h.attach hi hgood.1 hgood.2
  | shmdt t shmaddr =>
      obtain ⟨⟨r, s'⟩, hr, rfl⟩ := Option.map_eq_some_iff.mp hs
      rcases sysShmdt_cases hr with ⟨rfl, rfl⟩ | ⟨i, j, hf, rfl, hc⟩
      · dsimp only
        split
        · rw [if_neg (by decide)]
          exact h
        · exact h
      · obtain ⟨hi, hj, hpid, hv⟩ := findRecord_some hf
        have hne : (b.state.shmnum i).pid j ≠ 0 := hpid ▸ t.pid_ne
        rw [if_pos ((h.slots i hi).detached hj hne).1] at hc
        have hd := h.detach (m := s'.mem) hi hj hne
        rw [← hc, hpid, hv] at hd
        have hf' : findRecord b.state.shmnum t.pid (linearAddr t shmaddr.toNat) = some (i, j) := hf
        dsimp only
        rw [hf']
        exact hd
  | memory m =>
      obtain rfl : (⟨{ b.state with mem := m }, b.attached⟩ : Books) = b' := Option.some.inj hs
      exact ⟨h.slots, h.count, h.dom⟩

theorem not_kept_of {a : Act} (hi : Inv b) (hbad : ¬Recorded b a)
    (hs : ShmAttach.step b a = some b') : ¬Kept b' := by
  cases a with
  | shmat t shmid shmaddr shmflg =>
      obtain ⟨⟨r, s'⟩, hr, rfl⟩ := Option.map_eq_some_iff.mp hs
      rcases sysShmat_cases hr with ⟨hnone, -⟩ | ⟨i, address, m, rfl, hlt, hm, rfl, rfl⟩
      · refine absurd (fun h0 hlt => ?_) hbad
        rintro ⟨_ | address, m⟩ hm hne
        · exact absurd rfl hne
        · have hid : ¬(shmid < 0 ∨ (SHM_NUM : Int) ≤ shmid) := by omega
          rw [sysShmat, if_neg hid] at hr
          dsimp only at hr
          rw [Option.mem_def.mp hm] at hr
          obtain ⟨hr, -⟩ := Prod.mk.inj (Option.some.inj hr)
          rw [hnone] at hr
          cases hr
      · dsimp only
        intro hk
        by_cases hlive : (b.state.shmnum i).key = KEY_FREE
        · -- a record in a free slot
          have hused := ((hi.slots i hlt).free hlive).2
          have hn := (hk.free i hlt (by simpa using hlive)).1
          have hn₀ := (hi.kept.free i hlt hlive).1
          simp only [update_self] at hn
          unfold record at hn
          split at hn <;> simp [hn₀] at hn
        · -- the count goes on, the records do not
          have hfull : unusedRecord (b.state.shmnum i) = none := by
            by_contra hroom
            refine hbad fun _ _ => ?_
            rw [Int.toNat_natCast]
            exact fun _ _ _ => ⟨hlive, hroom⟩
          have hn := hk.nattch i hlt
          have hn₀ := hi.kept.nattch i hlt
          have hle := usedRecords_le (b.state.shmnum i)
          have h64 : TASK_NUM = 64 := rfl
          have hrec : record (b.state.shmnum i) t.pid address = { b.state.shmnum i with
              shm_nattch := (b.state.shmnum i).shm_nattch + 1 } := by
            simp [record, hfull]
          dsimp only at hn
          rw [update_self, hrec] at hn
          have hused : usedRecords { b.state.shmnum i with
              shm_nattch := (b.state.shmnum i).shm_nattch + 1 }
              = usedRecords (b.state.shmnum i) := rfl
          have h1 : (1 : BitVec 32).toNat = 1 := rfl
          rw [hused, ← hn₀, BitVec.toNat_add] at hn
          omega
  | _ => exact absurd trivial hbad

/-- **Attach bookkeeping.** In every history in which pages are mapped only for live
slots with an unused record, the count of a slot is the number of its records, free slots
have neither, and each attachment that was not undone has its record. The first step that
maps pages for a free slot, or for one whose records are all used, leaves books that do not
agree. -/
theorem attach_bookkeeping (m : Mem) (h : Reach step Recorded ⟨start shmBoot m, []⟩ b) :
    Kept b ∧ ∀ a b', step b a = some b' → ¬Recorded b a → ¬Kept b' := by
  have hi : Inv b := h.invariant (inv_start m) fun _ _ _ hi hok hs => hi.step hok hs
  exact ⟨hi.kept, fun a b' hs ha => not_kept_of hi ha hs⟩

theorem attach_bookkeeping_one :
    ∃ b, exec (checked step Recorded) ⟨start shmBoot freeMem, []⟩
        [.shmget 5 1 IPC_CREAT, .shmat taskOne 0 0 0, .shmdt taskOne 0x1000] = some b ∧ Kept b := by
  obtain ⟨b, hb, -⟩ : ∃ b, exec (checked step Recorded) ⟨start shmBoot freeMem, []⟩
      [.shmget 5 1 IPC_CREAT, .shmat taskOne 0 0 0, .shmdt taskOne 0x1000] = some b ∧ True :=
    exec_any (by decide)
  exact ⟨b, hb, (attach_bookkeeping freeMem (exec_checked hb)).1⟩

/-- A free slot attached at an explicit address. -/
theorem not_attach_bookkeeping :
    ∃ b, exec step ⟨start shmBoot freeMem, []⟩ [.shmat taskOne 0 0x1000 0] = some b ∧ ¬Kept b := by
  obtain ⟨b, hb, hkey, hn⟩ : ∃ b, exec step ⟨start shmBoot freeMem, []⟩ [.shmat taskOne 0 0x1000 0]
      = some b ∧ (b.state.shmnum 0).key = KEY_FREE ∧ (b.state.shmnum 0).shm_nattch = 1 :=
    exec_any (by decide)
  refine ⟨b, hb, fun hk => ?_⟩
  have h0 := (hk.free 0 (by decide) hkey).1
  rw [hn] at h0
  cases h0

end ShmAttach

end Linux011
