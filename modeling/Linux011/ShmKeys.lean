import Linux011.Shm

/-!
# The keys of segments

`sys_shmget` looks for the key and for a free slot in one scan and stops at the first slot that
is either. A live slot with the key is found exactly when no free slot comes before it; a call
that meets a free slot first makes a second segment with the same key (`not_key_lookup`).

The first half is an invariant of the whole history: `KeysUnique` survives every call of `Shm`,
because only `sys_shmget` writes a key, and it writes one only into the free slot at which its
scan has stopped; with the condition of the run, no slot behind that one has the key
(`no_other_slot`). The second half is about one call in a state of such a history, and exact in
both directions: the scan comes to the slot of the key if and only if every slot before it is
live, and before the scan only the size can make the call fail. Together they say what a key
names: a slot that is found again, as long as no free slot opens in front of it.
-/

namespace Linux011

open Function Runs

namespace ShmKeys

open Shm

/-- No key but `IPC_PRIVATE` is the key of two live slots. -/
def KeysUnique (shmnum : Nat → ShmStruct) : Prop :=
  ∀ i j, i < SHM_NUM → j < SHM_NUM → (shmnum i).key = (shmnum j).key →
    (shmnum i).key ≠ IPC_PRIVATE → (shmnum i).key ≠ KEY_FREE → i = j

/-- The slots up to `i` are live. -/
def NoFreeBefore (shmnum : Nat → ShmStruct) (i : Nat) : Prop :=
  ∀ j < i, (shmnum j).key ≠ KEY_FREE

instance (shmnum : Nat → ShmStruct) (i : Nat) : Decidable (NoFreeBefore shmnum i) :=
  inferInstanceAs (Decidable (∀ j < i, _))

/-- A call with `IPC_CREAT` on a live key has no free slot before the slot of the key. -/
def Found (s : ShmState) : Act → Prop
  | .shmget key size shmflg =>
      key ≠ IPC_PRIVATE → key ≠ KEY_FREE → SizeOk size → shmflg &&& IPC_CREAT ≠ 0 →
        ∀ i < SHM_NUM, (s.shmnum i).key = key → NoFreeBefore s.shmnum i
  | _ => True

instance (s : ShmState) : ∀ a, Decidable (Found s a)
  | .shmget .. => by unfold Found; infer_instance
  | .shmat .. | .shmdt .. | .memory .. => isTrue trivial

variable {s s' : ShmState} {shmnum : Nat → ShmStruct} {key size shmflg : Word}

/-- Storing a slot keeps the keys apart when the new key is free, private, that of the
slot before, or that of no slot. -/
theorem KeysUnique.update (h : KeysUnique shmnum) {i : Nat} {x : ShmStruct}
    (hx : x.key = KEY_FREE ∨ x.key = IPC_PRIVATE ∨ x.key = (shmnum i).key ∨
      ∀ j < SHM_NUM, (shmnum j).key ≠ x.key) : KeysUnique (update shmnum i x) := by
  -- what follows when another slot has the key of the new one
  have hother : ∀ j, j < SHM_NUM → j ≠ i → i < SHM_NUM → (shmnum j).key = x.key →
      x.key ≠ IPC_PRIVATE → x.key ≠ KEY_FREE → False := by
    intro j hj hji hi he hpriv hfree
    rcases hx with h' | h' | h' | h'
    · exact hfree h'
    · exact hpriv h'
    · exact hji (h j i hj hi (he.trans h') (he ▸ hpriv) (he ▸ hfree))
    · exact h' j hj he
  intro j k hj hk he hpriv hfree
  rcases eq_or_ne j i with rfl | hji
  · rcases eq_or_ne k j with rfl | hkj
    · rfl
    · rw [update_self] at hpriv hfree
      rw [update_self, update_of_ne hkj] at he
      exact (hother k hk hkj hj he.symm hpriv hfree).elim
  · rw [update_of_ne hji] at hpriv hfree
    rcases eq_or_ne k i with rfl | hki
    · rw [update_self, update_of_ne hji] at he
      exact (hother j hj hji hk he (he ▸ hpriv) (he ▸ hfree)).elim
    · rw [update_of_ne hji, update_of_ne hki] at he
      exact h j k hj hk he hpriv hfree

/-- The condition leaves a key that is made no other slot. -/
theorem no_other_slot (hfound : Found s (.shmget key size shmflg)) (hsize : SizeOk size)
    (hflag : shmflg &&& IPC_CREAT ≠ 0) (hpriv : key ≠ IPC_PRIVATE) (hmark : key ≠ KEY_FREE)
    {i : Nat} (hi : findKey s.shmnum key = some i) (hfree : (s.shmnum i).key = KEY_FREE) :
    ∀ j < SHM_NUM, (s.shmnum j).key ≠ key := by
  intro j hj he
  obtain ⟨-, -, hbefore⟩ := findKey_some hi
  have hall := hfound hpriv hmark hsize hflag j hj he
  rcases Nat.lt_trichotomy i j with hlt | rfl | hlt
  · exact hall i hlt hfree
  · exact hmark (he.symm.trans hfree)
  · exact (hbefore j hlt).1 he

theorem KeysUnique.step {a : Act} (h : KeysUnique s.shmnum) (hfound : Found s a)
    (hs : Shm.step s a = some s') : KeysUnique s'.shmnum := by
  cases a with
  | shmget key size shmflg =>
      obtain ⟨⟨r, s'⟩, hr, rfl⟩ := Option.map_eq_some_iff.mp hs
      rcases sysShmget_cases hr with rfl | ⟨i, hi, hfree, hsize, hmark, hflag, shmaddr, hc⟩
      · exact h
      · rcases hc with ⟨-, hc⟩ | hc
        · change KeysUnique s'.shmnum
          rw [hc]
          refine h.update ?_
          by_cases hpriv : key = IPC_PRIVATE
          · exact Or.inr (Or.inl hpriv)
          · have hflag := hflag.resolve_left hpriv
            exact Or.inr (Or.inr (Or.inr
              (no_other_slot hfound hsize hflag hpriv hmark hi hfree)))
        · change KeysUnique s'.shmnum
          rw [hc]
          exact h.update (Or.inl rfl)
  | shmat t shmid shmaddr shmflg =>
      obtain ⟨⟨r, s'⟩, hr, rfl⟩ := Option.map_eq_some_iff.mp hs
      rcases sysShmat_cases hr with ⟨-, hc, -⟩ | ⟨i, address, m, -, -, -, -, rfl⟩
      · change KeysUnique s'.shmnum
        rw [hc]
        exact h
      · exact h.update (Or.inr (Or.inr (Or.inl (record_key _ _ _))))
  | shmdt t shmaddr =>
      obtain ⟨⟨r, s'⟩, hr, rfl⟩ := Option.map_eq_some_iff.mp hs
      rcases sysShmdt_cases hr with ⟨-, rfl⟩ | ⟨i, j, -, -, hc⟩
      · exact h
      · split at hc
        · change KeysUnique s'.shmnum
          rw [hc]
          refine h.update ?_
          unfold detached
          split
          · exact Or.inl rfl
          · exact Or.inr (Or.inr (Or.inl rfl))
        · rw [hc]
          exact h
  | memory m =>
      obtain rfl := Option.some.inj hs
      exact h

/-- With the keys apart, a call with `IPC_CREAT` returns the slot of a live key exactly
when its size is accepted and no free slot comes before the slot. -/
theorem KeysUnique.sysShmget_iff (h : KeysUnique s.shmnum) (hpriv : key ≠ IPC_PRIVATE)
    (hmark : key ≠ KEY_FREE) (hcreat : shmflg &&& IPC_CREAT ≠ 0)
    (hexcl : shmflg &&& IPC_EXCL = 0) {i : Nat} (hi : i < SHM_NUM)
    (hkey : (s.shmnum i).key = key) :
    (∃ s', sysShmget s key size shmflg = some ((i : Int), s')) ↔
      SizeOk size ∧ NoFreeBefore s.shmnum i := by
  have honly : ∀ j < SHM_NUM, (s.shmnum j).key = key → j = i := fun j hj he =>
    h j i hj hi (he.trans hkey.symm) (he ▸ hpriv) (he ▸ hmark)
  constructor
  · rintro ⟨s', hs⟩
    unfold sysShmget at hs
    split at hs
    · cases hs
    · rename_i h0
      split at hs
      · cases hs
      · rename_i k hk
        obtain ⟨hlt, hor, hbefore⟩ := findKey_some hk
        split at hs
        · cases hs
        · rename_i hpages
          have hsize : SizeOk size := ⟨h0, Nat.le_of_not_lt hpages⟩
          have hki : k = i := by
            rcases hor with he | hfree
            · exact honly k hlt he
            · rw [if_pos (Or.inr ⟨hcreat, hfree ▸ hmark.symm⟩), if_pos hfree] at hs
              dsimp only at hs
              split at hs
              · cases hs
              · exact Int.ofNat.inj (congrArg Prod.fst (Option.some.inj hs))
              · cases hs
          exact ⟨hsize, fun j hj => (hbefore j (hki ▸ hj)).2⟩
  · rintro ⟨⟨h0, hpages⟩, hbefore⟩
    have hk : findKey s.shmnum key = some i := by
      refine List.find?_range_eq_some.mpr ⟨by simp [hkey], List.mem_range.mpr hi, fun j hj => ?_⟩
      have hne : (s.shmnum j).key ≠ key := fun he =>
        absurd (honly j (hj.trans hi) he) (Nat.ne_of_lt hj)
      simpa using ⟨hne, hbefore j hj⟩
    refine ⟨s, ?_⟩
    rw [sysShmget, if_neg h0, hk]
    dsimp only
    rw [if_neg (Nat.not_lt.mpr hpages), if_neg, if_pos ⟨hcreat, hexcl, hkey⟩]
    rintro (he | ⟨-, hne⟩)
    · exact hpriv he
    · exact hne hkey

/-- **Key lookup.** In every history in which no call with `IPC_CREAT` meets a free slot
before the slot of a live key, no key is that of two live slots. A call returns the slot
of a live key exactly when its size is accepted and no free slot comes before: the scan
takes the first slot that is free or has the key, whichever comes first. -/
theorem key_lookup (shmnum : Nat → ShmStruct) (m : Mem)
    (h : Reach step Found (start shmnum m) s) :
    KeysUnique s.shmnum ∧
      ∀ key size shmflg i, key ≠ IPC_PRIVATE → key ≠ KEY_FREE → shmflg &&& IPC_CREAT ≠ 0 →
        shmflg &&& IPC_EXCL = 0 → i < SHM_NUM → (s.shmnum i).key = key →
        ((∃ s', sysShmget s key size shmflg = some ((i : Int), s')) ↔
          SizeOk size ∧ NoFreeBefore s.shmnum i) := by
  have hstart : KeysUnique (start shmnum m).shmnum := fun i _ _ _ _ _ hmark =>
    absurd (rfl : (sysInishm shmnum i).key = KEY_FREE) hmark
  have hu : KeysUnique s.shmnum :=
    h.invariant (I := fun s => KeysUnique s.shmnum) hstart fun _ _ _ hk hfound hs =>
      hk.step hfound hs
  exact ⟨hu, fun key size shmflg i hpriv hmark hcreat hexcl hi hkey =>
    hu.sysShmget_iff hpriv hmark hcreat hexcl hi hkey⟩

/-- Segments with the keys 5 and 6, of a page each. -/
def twoKeys : List Act := [.shmget 5 1 IPC_CREAT, .shmget 6 1 IPC_CREAT]

theorem key_lookup_twoKeys :
    ∃ s, exec (checked step Found) (start shmBoot freeMem) twoKeys = some s ∧
      ∃ s', sysShmget s 6 1 IPC_CREAT = some (1, s') := by
  obtain ⟨s, hs, hkey, hbefore⟩ : ∃ s, exec (checked step Found) (start shmBoot freeMem) twoKeys
      = some s ∧ (s.shmnum 1).key = 6 ∧ NoFreeBefore s.shmnum 1 := exec_any (by decide)
  exact ⟨s, hs, ((key_lookup shmBoot freeMem (exec_checked hs)).2 6 1 IPC_CREAT 1 (by decide)
    (by decide) (by decide) (by decide) (by decide) hkey).mpr ⟨by decide, hbefore⟩⟩

/-- The segment with key 5 is detached, and the one with key 6 asked for again. -/
theorem not_key_lookup :
    ∃ s, exec step (start shmBoot freeMem) (twoKeys ++
        [.shmat taskOne 0 0 0, .shmdt taskOne 0x1000, .shmget 6 1 IPC_CREAT]) = some s ∧
      (s.shmnum 0).key = 6 ∧ (s.shmnum 1).key = 6 :=
  exec_any (by decide)

end ShmKeys

end Linux011
