import Linux011.Sem
import Linux011.Slots
import Mathlib.Data.List.TakeWhile

/-!
# The names of semaphores

`sys_sem_open` and `sys_sem_unlink` over the table `semarray`, seen as a map from names to a
value and an open count. A name is what `kername` keeps of the string of the caller: at most 19
bytes up to the first NUL. A free slot has the empty name, so for calls with names that are not
empty the first slot that matches is the one that holds the name, if there is one.

The table denotes a map, and each call is shown to do on the table what the map says. `strncmp`,
`strncpy` and the loop that fills `kername` are brought down to strings first: `cString` reads a
name array up to its NUL, and `sameName_iff` says that the comparison of the source is equality
of these strings. `Slots` has what is general about a table whose slots hold a map, each key in
one slot. `Denotes` adds that the free slots are those with an empty name, so that the search of
the source, which does not look whether a slot is free, is a lookup as long as nobody asks for
the empty name. The open counts are words, and a history has to be long before they overflow; the
hypothesis on `opensOf` says how long.
-/

namespace Linux011

open Function Slots

namespace SemNames

/-- The string in a name array: the bytes before the first NUL. -/
def cString (name : Vector UInt8 NAME_SIZE) : List UInt8 := name.toList.takeWhile (· ≠ 0)

/-- What the kernel keeps of the name of a caller. -/
def kernelName (name : Nat → UInt8) : List UInt8 :=
  ((List.range (NAME_SIZE - 1)).map name).takeWhile (· ≠ 0)

theorem takeWhile_padded {s : List UInt8} (hs : 0 ∉ s) (k : Nat) :
    (s ++ List.replicate k 0).takeWhile (· ≠ 0) = s := by
  rw [List.takeWhile_append_of_pos fun c hc => by simpa using ne_of_mem_of_not_mem hc hs]
  cases k <;> simp [List.replicate_succ]

theorem zero_not_mem_takeWhile (s : List UInt8) : 0 ∉ s.takeWhile (· ≠ 0) := by
  intro h
  simpa using List.mem_takeWhile_imp h

theorem cString_padName {s : List UInt8} (hs : 0 ∉ s) (h : s.length ≤ NAME_SIZE) :
    cString (padName s h) = s := by
  rw [cString, padName, Vector.toList_mk, List.toList_toArray]
  exact takeWhile_padded hs _

/-- Storing a NUL at the front makes the name empty. -/
theorem cString_cleared (name : Vector UInt8 NAME_SIZE) : cString (name.set 0 0) = [] := by
  rw [cString, Vector.toList_set]
  cases name.toList with
  | nil => rfl
  | cons c l => rfl

theorem cString_strncpy (name : Vector UInt8 NAME_SIZE) :
    cString (strncpy name) = cString name :=
  cString_padName (zero_not_mem_takeWhile _) _

theorem cString_kername (name : Nat → UInt8) : cString (kername name) = kernelName name :=
  cString_padName (zero_not_mem_takeWhile _) _

theorem kernelName_ne_nil {name : Nat → UInt8} (h : name 0 ≠ 0) : kernelName name ≠ [] := by
  have hrange : List.range (NAME_SIZE - 1) = 0 :: List.range' 1 18 := rfl
  rw [kernelName, hrange, List.map_cons, List.takeWhile_cons_of_pos (by simpa using h)]
  exact List.cons_ne_nil _ _

/-- `strncmp` over the whole length compares the strings before the first NUL. -/
theorem strncmp_eq_zero : ∀ {l l' : List UInt8}, l.length = l'.length →
    (strncmp l l' l.length = 0 ↔ l.takeWhile (· ≠ 0) = l'.takeWhile (· ≠ 0))
  | [], [], _ => by simp [strncmp]
  | c :: l, t :: l', hlen => by
      have hlen' : l.length = l'.length := Nat.succ.inj hlen
      rw [List.length_cons, strncmp]
      by_cases htc : t = c
      · subst htc
        by_cases ht : t = 0
        · simp [ht]
        · simp [ht, strncmp_eq_zero hlen']
      · rw [if_pos htc]
        refine iff_of_false (by split <;> decide) fun he => htc ?_
        -- two strings that agree have the same first byte, or both are empty
        by_cases hc : c = 0
        · by_cases ht : t = 0
          · rw [hc, ht]
          · simp [hc, ht] at he
        · by_cases ht : t = 0
          · simp [hc, ht] at he
          · simp only [ne_eq, decide_not, hc, decide_false, Bool.not_false,
              List.takeWhile_cons_of_pos, ht, List.cons.injEq] at he
            exact he.1.symm

theorem sameName_iff {k name : Vector UInt8 NAME_SIZE} :
    sameName k name = true ↔ cString k = cString name := by
  have hlen : k.toList.length = name.toList.length := by simp
  have hk : k.toList.length = NAME_SIZE := by simp
  rw [sameName, beq_iff_eq, cString, cString, ← strncmp_eq_zero hlen, hk]

/-! ## The map -/

/-- What `semarray` is for: names with a value and an open count. -/
abbrev SemMap := BoundedMap (List UInt8) (BitVec 32 × Nat) SEM_NUM

namespace SemMap

/-- Opening a name; `none` is a failing call. -/
def openName (m : SemMap) (name : List UInt8) (oflag : Nat) (value : BitVec 32) :
    Option SemMap :=
  match m.get name with
  | some _ =>
      if oflag &&& O_CREAT ≠ 0 ∧ oflag &&& O_EXCL ≠ 0 then none
      else some (m.modify name fun (value, cont) => (value, cont + 1))
  | none =>
      if h : oflag &&& O_CREAT ≠ 0 ∧ m.keys.card < SEM_NUM then
        some (m.put name (value, 1) h.2)
      else none

def unlinkName (m : SemMap) (name : List UInt8) : Option SemMap :=
  match m.get name with
  | some (_, cont) =>
      if cont = 1 then some (m.erase name)
      else some (m.modify name fun (value, cont) => (value, cont - 1))
  | none => none

end SemMap

/-- A call, with the string it passes (`none` for a null pointer). -/
inductive Call where
  | semOpen (name : Option (Nat → UInt8)) (oflag : Nat) (value : BitVec 32)
  | semUnlink (name : Option (Nat → UInt8))

namespace Call

variable {T : Type}

def name : Call → Option (Nat → UInt8)
  | semOpen name _ _ => name
  | semUnlink name => name

/-- The string of the caller is not empty. -/
def Named (c : Call) : Prop := ∀ s, c.name = some s → s 0 ≠ 0

/-- Whether the call succeeds, and the table after it. -/
def perform (a : SemArray T) : Call → Bool × SemArray T
  | semOpen name oflag value =>
      ((sysSemOpen a name oflag value).1.isSome, (sysSemOpen a name oflag value).2)
  | semUnlink name => ((sysSemUnlink a name).1 == 0, (sysSemUnlink a name).2)

/-- What the call does to the map; `none` when it fails. -/
def onMap (m : SemMap) : Call → Option SemMap
  | semOpen name oflag value => name.bind fun s => m.openName (kernelName s) oflag value
  | semUnlink name => name.bind fun s => m.unlinkName (kernelName s)

def opens (name : List UInt8) : Call → Bool
  | semOpen (some s) _ _ => kernelName s == name
  | _ => false

end Call

/-- The table after a history of calls. -/
def performAll {T : Type} (a : SemArray T) (calls : List Call) : SemArray T :=
  calls.foldl (fun a c => (c.perform a).2) a

/-- The map after a history of calls; failing calls leave it as it is. -/
def mapAll (m : SemMap) (calls : List Call) : SemMap :=
  calls.foldl (fun m c => (c.onMap m).getD m) m

/-- How often a history opens a name. -/
def opensOf (name : List UInt8) (calls : List Call) : Nat :=
  calls.countP (Call.opens name)

/-- What a slot holds: nothing, or a name with its value and its open count. -/
def entry {T : Type} (x : StructSem T) : Option (List UInt8 × BitVec 32 × Nat) :=
  if x.sem = 0 then none else some (cString x.name, x.value, x.cont.toNat)

/-! ## The table holds the map -/

section Refinement

variable {T : Type} {a : SemArray T} {m m' : SemMap} {i : Nat} {name : Nat → UInt8}

/-- The slots hold the map, the free ones are those with an empty name, and the counts
are positive. -/
structure Denotes (a : SemArray T) (m : SemMap) : Prop where
  ids : SemIds a
  free : ∀ i < SEM_NUM, (a i).sem = 0 ↔ cString (a i).name = []
  holds : Holds (fun i => entry (a i)) m
  pos : ∀ n v c, m.get n = some (v, c) → 0 < c

theorem denotes_ini (a : SemArray T) : Denotes (sysInisem a) .empty where
  ids _ _ := Or.inl rfl
  free _ _ := iff_of_true rfl (cString_cleared _)
  holds := Holds.empty fun _ _ => rfl
  pos _ _ _ h := by cases h

/-- The slot a name designates, if the map has the name. -/
theorem Denotes.find (h : Denotes a m) (hn : name 0 ≠ 0) :
    (m.get (kernelName name) = none ∧
      findSlot (fun i => sameName (kername name) (a i).name) = none) ∨
    ∃ i, i < SEM_NUM ∧ (a i).sem ≠ 0 ∧ cString (a i).name = kernelName name ∧
      m.get (kernelName name) = some ((a i).value, (a i).cont.toNat) ∧
      findSlot (fun i => sameName (kername name) (a i).name) = some i := by
  cases hf : findSlot fun i => sameName (kername name) (a i).name with
  | none =>
      refine Or.inl ⟨?_, rfl⟩
      by_contra hne
      obtain ⟨⟨v, c⟩, hg⟩ := Option.ne_none_iff_exists'.mp hne
      obtain ⟨i, hi, he⟩ := (h.holds.get _ _).mp hg
      have hname : cString (a i).name = kernelName name := by
        unfold entry at he
        split at he
        · cases he
        · exact congrArg Prod.fst (Option.some.inj he)
      refine List.find?_eq_none.mp hf i (List.mem_range.mpr hi) ?_
      rw [sameName_iff, cString_kername, hname]
  | some i =>
      have hi := findSlot_lt hf
      have hname := findSlot_true hf
      rw [sameName_iff, cString_kername] at hname
      have hlive : (a i).sem ≠ 0 := fun he => by
        rw [h.free i hi, ← hname] at he
        exact kernelName_ne_nil hn he
      have he : entry (a i) = some (kernelName name, (a i).value, (a i).cont.toNat) := by
        rw [entry, if_neg hlive, ← hname]
      exact Or.inr ⟨i, hi, hlive, hname.symm, h.holds.get_slot hi he, rfl⟩

/-- There is a free slot exactly when the map is not full. -/
theorem Denotes.findFree (h : Denotes a m) :
    (¬m.keys.card < SEM_NUM ∧ findSlot (fun i => (a i).sem == 0) = none) ∨
    ∃ i, i < SEM_NUM ∧ (a i).sem = 0 ∧ m.keys.card < SEM_NUM ∧
      findSlot (fun i => (a i).sem == 0) = some i := by
  have hentry : ∀ i, entry (a i) = none ↔ (a i).sem = 0 := fun i => by
    unfold entry
    split <;> simp_all
  cases hf : findSlot fun i => (a i).sem == 0 with
  | none =>
      refine Or.inl ⟨fun hlt => ?_, rfl⟩
      obtain ⟨i, hi, he⟩ := h.holds.card_lt_iff.mp hlt
      exact List.find?_eq_none.mp hf i (List.mem_range.mpr hi) (by simpa using (hentry i).mp he)
  | some i =>
      have hi := findSlot_lt hf
      have hsem : (a i).sem = 0 := by simpa using findSlot_true hf
      exact Or.inr ⟨i, hi, hsem, h.holds.card_lt_iff.mpr ⟨i, hi, (hentry i).mpr hsem⟩, rfl⟩

/-- Work on one slot: the table still denotes a map when the new slot is well formed
and the map changes as the slot does. -/
theorem Denotes.update (h : Denotes a m) {x : StructSem T}
    (hid : x.sem = 0 ∨ x.sem = BitVec.ofNat 32 (i + 1))
    (hfree : x.sem = 0 ↔ cString x.name = [])
    (hh : Holds (update (fun i => entry (a i)) i (entry x)) m')
    (hpos : ∀ n v c, m'.get n = some (v, c) → 0 < c) : Denotes (update a i x) m' where
  ids := h.ids.update hid
  free j hj := by
    rcases eq_or_ne j i with rfl | hji
    · simpa using hfree
    · simpa [hji] using h.free j hj
  holds := by
    have hentry : (fun j => entry (Function.update a i x j))
        = Function.update (fun j => entry (a j)) i (entry x) := by
      funext j
      rcases eq_or_ne j i with rfl | hji
      · simp
      · simp [hji]
    rw [hentry]
    exact hh
  pos := hpos

theorem Denotes.count (h : Denotes a m) (hi : i < SEM_NUM) (hlive : (a i).sem ≠ 0)
    {cont : BitVec 32} {f : Nat → Nat} (hf : f (a i).cont.toNat = cont.toNat)
    (hpos : 0 < cont.toNat) :
    Denotes (Function.update a i { a i with cont := cont })
      (m.modify (cString (a i).name) fun (value, cont) => (value, f cont)) := by
  have he : entry (a i) = some (cString (a i).name, (a i).value, (a i).cont.toNat) := by
    rw [entry, if_neg hlive]
  have hx : entry { a i with cont := cont }
      = some (cString (a i).name, (a i).value, f (a i).cont.toNat) := by
    rw [entry, if_neg hlive, hf]
  refine h.update (h.ids i hi) (h.free i hi) ?_ fun n v c hg => ?_
  · rw [hx]
    exact h.holds.modify hi he fun (value, cont) => (value, f cont)
  · rcases eq_or_ne n (cString (a i).name) with rfl | hne
    · have hc : f (a i).cont.toNat = c := by
        simpa [BoundedMap.modify, h.holds.get_slot hi he] using congrArg (Option.map Prod.snd) hg
      rw [← hc, hf]
      exact hpos
    · exact h.pos n v c (by simpa [BoundedMap.modify, hne] using hg)

/-- Opening a name that is not empty does to the table what it does to the map. -/
theorem Denotes.semOpen (h : Denotes a m) (hn : name 0 ≠ 0) (oflag : Nat) (value : BitVec 32)
    (hcont : ∀ v c, m.get (kernelName name) = some (v, c) → c + 1 < 2 ^ 32) :
    match m.openName (kernelName name) oflag value with
    | none => sysSemOpen a (some name) oflag value = (none, a)
    | some m' => ∃ i a', sysSemOpen a (some name) oflag value = (some i, a') ∧ i < SEM_NUM ∧
        (a' i).sem ≠ 0 ∧ cString (a' i).name = kernelName name ∧ Denotes a' m' := by
  rcases h.find hn with ⟨hg, hf⟩ | ⟨i, hi, hlive, hname, hg, hf⟩
  · simp only [SemMap.openName, hg, sysSemOpen, hf]
    rcases h.findFree with ⟨hfull, hnull⟩ | ⟨i, hi, hsem, hroom, hnull⟩
    · rw [dif_neg fun hc => hfull hc.2]
      simp only [hnull, ite_self]
    · by_cases hc : oflag &&& O_CREAT ≠ 0
      · rw [dif_pos ⟨hc, hroom⟩, if_pos hc]
        simp only [hnull]
        let x : StructSem T :=
          { sem := BitVec.ofNat 32 (i + 1), name := strncpy (kername name), value := value
            wait := none, cont := 1 }
        have hi' : i < 64 := hi
        have hx : x.sem ≠ 0 := fun e => by
          have h0 : (BitVec.ofNat 32 (i + 1)).toNat = 0 := congrArg BitVec.toNat e
          rw [BitVec.toNat_ofNat] at h0
          omega
        have hxname : cString x.name = kernelName name := by
          rw [cString_strncpy, cString_kername]
        have he : entry x = some (kernelName name, value, 1) := by
          rw [entry, if_neg hx, hxname]
          rfl
        refine ⟨i, _, rfl, hi, by simpa using hx, by simpa using hxname, ?_⟩
        refine h.update (x := x) (Or.inr rfl) (iff_of_false hx ?_) ?_ fun n v c hg' => ?_
        · rw [hxname]
          exact kernelName_ne_nil hn
        · rw [he]
          exact h.holds.put hi (by rw [entry, if_pos hsem]) hg hroom
        · rcases eq_or_ne n (kernelName name) with rfl | hne
          · have hc' : 1 = c := by
              simpa [BoundedMap.put] using congrArg (Option.map Prod.snd) hg'
            omega
          · exact h.pos n v c (by simpa [BoundedMap.put, hne] using hg')
      · rw [dif_neg fun hc' => hc hc'.1, if_neg hc]
  · have hlt := hcont _ _ hg
    have hone : ((a i).cont + 1).toNat = (a i).cont.toNat + 1 := by
      rw [BitVec.toNat_add]
      exact Nat.mod_eq_of_lt hlt
    simp only [SemMap.openName, hg, sysSemOpen, hf]
    by_cases hc : oflag &&& O_CREAT ≠ 0 ∧ oflag &&& O_EXCL ≠ 0
    · rw [if_pos hc, if_pos hc]
    · rw [if_neg hc, if_neg hc]
      refine ⟨i, _, rfl, hi, by simpa using hlive, by simpa using hname, ?_⟩
      have hd := h.count hi hlive (f := fun cont => cont + 1) hone.symm (by omega)
      rwa [hname] at hd

theorem Denotes.semUnlink (h : Denotes a m) (hn : name 0 ≠ 0) :
    match m.unlinkName (kernelName name) with
    | none => sysSemUnlink a (some name) = (-1, a)
    | some m' => ∃ a', sysSemUnlink a (some name) = (0, a') ∧ Denotes a' m' := by
  rcases h.find hn with ⟨hg, hf⟩ | ⟨i, hi, hlive, hname, hg, hf⟩
  · simp only [SemMap.unlinkName, hg, sysSemUnlink, hf]
  · have hpos := h.pos _ _ _ hg
    have he : entry (a i) = some (kernelName name, (a i).value, (a i).cont.toNat) := by
      rw [entry, if_neg hlive, hname]
    have hsub : ((a i).cont - 1).toNat = (a i).cont.toNat - 1 :=
      BitVec.toNat_sub_of_le (by rw [BitVec.le_def]; exact hpos)
    have hzero : (a i).cont - 1 = 0 ↔ (a i).cont.toNat = 1 := by
      rw [← BitVec.toNat_inj, hsub]
      change _ = 0 ↔ _
      omega
    simp only [SemMap.unlinkName, hg, sysSemUnlink, hf]
    by_cases hc : (a i).cont.toNat = 1
    · rw [if_pos hc, if_pos (hzero.mpr hc)]
      refine ⟨_, rfl, h.update (Or.inl rfl) (iff_of_true rfl ?_) ?_ fun n v c hg' => ?_⟩
      · exact cString_cleared _
      · exact h.holds.erase hi he
      · have hne : n ≠ kernelName name := fun e => by
          simp [BoundedMap.erase, e] at hg'
        exact h.pos n v c (by simpa [BoundedMap.erase, hne] using hg')
    · rw [if_neg hc, if_neg fun e => hc (hzero.mp e)]
      have hd := h.count hi hlive (f := fun cont => cont - 1) hsub.symm (by omega)
      rw [hname] at hd
      exact ⟨_, rfl, hd⟩

/-- One call: a failing one changes nothing, the others do what they do to the map. -/
theorem Denotes.perform (h : Denotes a m) {call : Call} (hn : call.Named)
    (hcont : ∀ n v c, call.opens n = true → m.get n = some (v, c) → c + 1 < 2 ^ 32) :
    match call.onMap m with
    | none => call.perform a = (false, a)
    | some m' => (call.perform a).1 = true ∧ Denotes (call.perform a).2 m' := by
  cases call with
  | semOpen name oflag value =>
      cases name with
      | none => rfl
      | some name =>
          have hopen := h.semOpen (hn name rfl) oflag value fun v c =>
            hcont (kernelName name) v c (by simp [Call.opens])
          simp only [Call.onMap, Option.bind_some, Call.perform]
          cases hm : m.openName (kernelName name) oflag value with
          | none =>
              rw [hm] at hopen
              simp [hopen]
          | some m' =>
              rw [hm] at hopen
              obtain ⟨i, a', ho, -, -, -, hd⟩ := hopen
              simp [ho, hd]
  | semUnlink name =>
      cases name with
      | none => rfl
      | some name =>
          have hunlink := h.semUnlink (hn name rfl)
          simp only [Call.onMap, Option.bind_some, Call.perform]
          cases hm : m.unlinkName (kernelName name) with
          | none =>
              rw [hm] at hunlink
              simp [hunlink]
          | some m' =>
              rw [hm] at hunlink
              obtain ⟨a', ho, hd⟩ := hunlink
              simp [ho, hd]

/-- A call adds at most one to the count of the name it opens, and to no other. -/
theorem count_le_onMap {call : Call} {k : List UInt8 → Nat}
    (hle : ∀ n v c, m.get n = some (v, c) → c ≤ k n) (h : call.onMap m = some m') (n v c)
    (hg : m'.get n = some (v, c)) : c ≤ k n + if call.opens n then 1 else 0 := by
  obtain ⟨name, hname, hcase⟩ : ∃ name, call.name = some name ∧
      ((∃ oflag value, call = .semOpen (some name) oflag value ∧
        m.openName (kernelName name) oflag value = some m') ∨
      m.unlinkName (kernelName name) = some m') := by
    cases call with
    | semOpen name oflag value =>
        obtain ⟨name, rfl, h⟩ := Option.bind_eq_some_iff.mp h
        exact ⟨name, rfl, Or.inl ⟨oflag, value, rfl, h⟩⟩
    | semUnlink name =>
        obtain ⟨name, rfl, h⟩ := Option.bind_eq_some_iff.mp h
        exact ⟨name, rfl, Or.inr h⟩
  rcases hcase with ⟨oflag, value, rfl, hm⟩ | hm
  · have hopens : (Call.semOpen (some name) oflag value).opens n = true ↔ n = kernelName name := by
      rw [Call.opens, beq_iff_eq, eq_comm]
    unfold SemMap.openName at hm
    split at hm
    · rename_i p hp
      split at hm
      · cases hm
      · obtain rfl := Option.some.inj hm
        rcases eq_or_ne n (kernelName name) with rfl | hne
        · have hc : p.2 + 1 = c := by
            simpa [BoundedMap.modify, hp] using congrArg (Option.map Prod.snd) hg
          have := hle _ p.1 p.2 hp
          rw [if_pos (hopens.mpr rfl)]
          omega
        · rw [if_neg fun e => hne (hopens.mp e)]
          exact hle n v c (by simpa [BoundedMap.modify, hne] using hg)
    · split at hm
      · obtain rfl := Option.some.inj hm
        rcases eq_or_ne n (kernelName name) with rfl | hne
        · have hc : 1 = c := by
            simpa [BoundedMap.put] using congrArg (Option.map Prod.snd) hg
          rw [if_pos (hopens.mpr rfl)]
          omega
        · rw [if_neg fun e => hne (hopens.mp e)]
          exact hle n v c (by simpa [BoundedMap.put, hne] using hg)
      · cases hm
  · refine Nat.le_add_right_of_le ?_
    unfold SemMap.unlinkName at hm
    split at hm
    · rename_i p w cont hp
      split at hm
      · obtain rfl := Option.some.inj hm
        have hne : n ≠ kernelName name := fun e => by simp [BoundedMap.erase, e] at hg
        exact hle n v c (by simpa [BoundedMap.erase, hne] using hg)
      · obtain rfl := Option.some.inj hm
        rcases eq_or_ne n (kernelName name) with rfl | hne
        · have hc : cont - 1 = c := by
            simpa [BoundedMap.modify, hp] using congrArg (Option.map Prod.snd) hg
          have := hle _ w cont hp
          omega
        · exact hle n v c (by simpa [BoundedMap.modify, hne] using hg)
    · cases hm

theorem opensOf_append (n : List UInt8) (calls : List Call) (call : Call) :
    opensOf n (calls ++ [call]) = opensOf n calls + if call.opens n then 1 else 0 := by
  rw [opensOf, List.countP_append, List.countP_singleton, opensOf]

/-- After every history the table denotes the map of that history, and no count is
above the number of opens. -/
theorem denotes_all (a : SemArray T) {calls : List Call} (hnamed : ∀ c ∈ calls, c.Named)
    (hfew : ∀ n, opensOf n calls < 2 ^ 32) :
    Denotes (performAll (sysInisem a) calls) (mapAll .empty calls) ∧
      ∀ n v c, (mapAll .empty calls).get n = some (v, c) → c ≤ opensOf n calls := by
  induction calls using List.reverseRecOn with
  | nil => exact ⟨denotes_ini a, fun _ _ _ hg => by cases hg⟩
  | append_singleton calls call ih =>
      obtain ⟨hd, hle⟩ := ih (fun c hc => hnamed c (List.mem_append_left _ hc)) fun n =>
        Nat.lt_of_le_of_lt (by rw [opensOf_append]; exact Nat.le_add_right ..) (hfew n)
      have hstep := hd.perform (hnamed call (by simp)) fun n v c hopens hg => by
        have := hfew n
        rw [opensOf_append, if_pos hopens] at this
        exact Nat.lt_of_le_of_lt (Nat.add_le_add_right (hle n v c hg) 1) this
      have ha : performAll (sysInisem a) (calls ++ [call])
          = (call.perform (performAll (sysInisem a) calls)).2 := by
        rw [performAll, List.foldl_append]
        rfl
      have hm : mapAll .empty (calls ++ [call])
          = (call.onMap (mapAll .empty calls)).getD (mapAll .empty calls) := by
        rw [mapAll, List.foldl_append]
        rfl
      rw [ha, hm]
      cases hc : call.onMap (mapAll .empty calls) with
      | none =>
          rw [hc] at hstep
          rw [hstep]
          refine ⟨hd, fun n v c hg => (hle n v c hg).trans ?_⟩
          rw [opensOf_append]
          exact Nat.le_add_right ..
      | some m' =>
          rw [hc] at hstep
          refine ⟨hstep.2, fun n v c hg => ?_⟩
          rw [opensOf_append]
          exact count_le_onMap hle hc n v c hg

end Refinement

/-- **Semaphore names.** After every history of opens and unlinks with names that are
not empty, in which no name is opened 2 ^ 32 times, the table holds the map from names
to values and counts that the history makes. The next call succeeds exactly when it does
on the map and then leaves the new map in the table, a failing call changes no slot, and
the slot of the handle that an open returns is the one that holds the name. A name is
what the kernel keeps of it: at most 19 bytes. -/
theorem semaphore_names {T : Type} (a : SemArray T) (calls : List Call) (call : Call)
    (hnamed : ∀ c ∈ calls ++ [call], c.Named)
    (hfew : ∀ n, opensOf n (calls ++ [call]) < 2 ^ 32) :
    let a' := performAll (sysInisem a) calls
    let m := mapAll .empty calls
    Holds (fun i => entry (a' i)) m ∧
      (match call.onMap m with
        | none => call.perform a' = (false, a')
        | some m' => (call.perform a').1 = true ∧
            Holds (fun i => entry ((call.perform a').2 i)) m') ∧
      ∀ s oflag value i, call = .semOpen (some s) oflag value →
        (sysSemOpen a' (some s) oflag value).1 = some i →
        i < SEM_NUM ∧ ∃ v c,
          entry ((sysSemOpen a' (some s) oflag value).2 i) = some (kernelName s, v, c) := by
  intro a' m
  obtain ⟨hd, hle⟩ : Denotes a' m ∧ ∀ n v c, m.get n = some (v, c) → c ≤ opensOf n calls :=
    denotes_all a (fun c hc => hnamed c (List.mem_append_left _ hc)) fun n =>
      Nat.lt_of_le_of_lt (by rw [opensOf_append]; exact Nat.le_add_right ..) (hfew n)
  have hroom : ∀ n v c, call.opens n = true → m.get n = some (v, c) → c + 1 < 2 ^ 32 := by
    intro n v c hopens hg
    have := hfew n
    rw [opensOf_append, if_pos hopens] at this
    exact Nat.lt_of_le_of_lt (Nat.add_le_add_right (hle n v c hg) 1) this
  have hcall : call.Named := hnamed call (by simp)
  refine ⟨hd.holds, ?_, ?_⟩
  · have hstep := hd.perform hcall hroom
    cases hc : call.onMap m with
    | none =>
        rw [hc] at hstep
        exact hstep
    | some m' =>
        rw [hc] at hstep
        exact ⟨hstep.1, hstep.2.holds⟩
  · rintro s oflag value i rfl hi
    have hopen := hd.semOpen (hcall s rfl) oflag value fun v c =>
      hroom (kernelName s) v c (by simp [Call.opens])
    cases hm : m.openName (kernelName s) oflag value with
    | none =>
        rw [hm] at hopen
        rw [hopen] at hi
        cases hi
    | some m' =>
        rw [hm] at hopen
        obtain ⟨k, a'', ho, hk, hlive, hname, -⟩ := hopen
        rw [ho] at hi
        obtain rfl := Option.some.inj hi
        rw [ho]
        exact ⟨hk, (a'' k).value, (a'' k).cont.toNat, by rw [entry, if_neg hlive, hname]⟩

/-- A string in the memory of a caller. -/
def userString (s : List UInt8) : Nat → UInt8 := fun i => s.getD i 0

theorem semaphore_names_one :
    let create := Call.semOpen (some (userString [0x6d])) O_CREAT 1
    Holds (fun i => entry (performAll (sysInisem (semarrayBoot (T := Nat))) [create] i))
      (mapAll .empty [create]) := by
  intro create
  refine (semaphore_names semarrayBoot [create] (.semUnlink (some (userString [0x6d])))
    (fun c hc => ?_) fun n => ?_).1
  · intro s hs
    have hcs : c.name = some (userString [0x6d]) := by
      rcases List.mem_cons.mp hc with rfl | hc
      · rfl
      · rw [List.mem_singleton.mp hc]
        rfl
    obtain rfl := Option.some.inj (hcs.symm.trans hs)
    decide
  · exact Nat.lt_of_le_of_lt List.countP_le_length (by decide)

/-- Two names of 20 bytes that differ in the last one are one name to the kernel. -/
theorem not_semaphore_names :
    ∃ s t : List UInt8, s ≠ t ∧ 0 ∉ s ∧ 0 ∉ t ∧ ∃ a' : SemArray Nat,
      sysSemOpen (sysInisem semarrayBoot) (some (userString s)) O_CREAT 1 = (some 0, a') ∧
      (a' 0).sem ≠ 0 ∧ (sysSemOpen a' (some (userString t)) 0 0).1 = some 0 := by
  refine ⟨List.replicate 20 0x61, List.replicate 19 0x61 ++ [0x62], by decide, by decide,
    by decide, _, rfl, ?_, ?_⟩
  · decide
  · decide

end SemNames

end Linux011
