import Linux011.Bmap
import Linux011.Runs

/-!
# Directories

`match`, `find_entry` and `add_entry` of `fs/namei.c` on one directory. The entries are read
through the block map of the inode, 64 in a block.

Both loops keep a buffer and an offset, and take the next block when the offset is at the end of
the buffer. `Place` says where they are at step `i`, so that entry `i` of the directory (`ent`)
is what they see as `de` there. `findLoop_spec` and `addLoop_spec` are inductions on the entries
that are left: a name is found at an entry that is in use and has it (`Finds`), and `add_entry`
gives the name to an entry that is free, or makes one behind the last (`Added`). A store to one
entry leaves the others alone (`ent_store`), because no block is in the file twice.

When `add_entry` has got no block, the entries are as they were before the call (`Adds`); that
happens on a full disk only, and whether the disk is full is left to the users of this module. An
entry holds 14 bytes of a name, so that two names with the same first 14 bytes are one (`key`);
`find_entry` treats `..` differently in the root of a process, and the names that its lemma is
about are the others (`Plain`).
-/

namespace Linux011

open Function Super SuperBlock Zones Bmap Runs

namespace Dir

def BLOCK_SIZE : Nat := 1024
def NAME_LEN : Nat := 14
/-- `sizeof (struct dir_entry)`. -/
def ENTRY : Nat := 16
def DIR_ENTRIES_PER_BLOCK : Nat := BLOCK_SIZE / ENTRY

/-! ## Entries of a block -/

/-- `de->inode`, where `de` is an offset in the block. -/
def getInode (b_data : Bytes) (de : Nat) : Nat :=
  (b_data de).toNat + 256 * (b_data (de + 1)).toNat

def setInode (b_data : Bytes) (de n : Nat) : Bytes :=
  update (update b_data de (UInt8.ofNat n)) (de + 1) (UInt8.ofNat (n / 256))

/-- `de->name`. -/
def getName (b_data : Bytes) (de : Nat) : List UInt8 :=
  (List.range NAME_LEN).map fun i => b_data (de + 2 + i)

def setName (b_data : Bytes) (de : Nat) (name : List UInt8) : Bytes := fun p =>
  if de + 2 ≤ p ∧ p < de + 2 + NAME_LEN then name.getD (p - (de + 2)) 0 else b_data p

/-- `match`; `len` is the length of `name`. -/
def matchEntry (name : List UInt8) (b_data : Bytes) (de : Nat) : Bool :=
  if getInode b_data de = 0 ∨ name.length > NAME_LEN then false
  else if name.length < NAME_LEN ∧ b_data (de + 2 + name.length) ≠ 0 then false
  else (getName b_data de).take name.length == name

/-! ## The two loops -/

/-- The head of both loops: at the end of a block, the block of entry `i` is taken. -/
def nextBlock (create : Bool) (inode : MInode) (s : Disk) (i block de : Nat) :
    Except String (MInode × Disk × Nat × Nat) :=
  if de ≥ BLOCK_SIZE then
    match bmap create inode s (i / DIR_ENTRIES_PER_BLOCK) with
    | .error e => .error e
    | .ok (inode, s, block) => .ok (inode, s, block, 0)
  else .ok (inode, s, block, de)

/-- The loop of `find_entry`, which takes one step for each entry at most. The entries of a
hole are skipped: with `bh == NULL` the test for the end of the block holds again. -/
def findLoop (inode : MInode) (s : Disk) (name : List UInt8) (entries : Nat) :
    Nat → Nat → Nat → Nat → Except String (Option (Nat × Nat))
  | 0, _, _, _ => .ok none
  | n + 1, i, block, de =>
      if i < entries then
        match nextBlock false inode s i block de with
        | .error e => .error e
        | .ok (_, _, block, de) =>
            if block = 0 then
              findLoop inode s name entries n (i + DIR_ENTRIES_PER_BLOCK) block BLOCK_SIZE
            else if matchEntry name (s.b_data block) de then .ok (some (block, de))
            else findLoop inode s name entries n (i + 1) block (de + ENTRY)
      else .ok none

/-- `find_entry`: the block and the offset of the entry. In the root of the process `..`
is `.`; the exchange of the directory at a mount point is left out. -/
def findEntry (root : Bool) (inode : MInode) (s : Disk) (name : List UInt8) :
    Except String (Option (Nat × Nat)) :=
  let name := name.take NAME_LEN
  let entries := inode.i_size / ENTRY
  if name.length = 0 then .ok none
  else
    let name := if name = [46, 46] ∧ root then name.take 1 else name
    if inode.i_zone 0 = 0 then .ok none
    else findLoop inode s name entries entries 0 (inode.i_zone 0) 0

/-- The entry behind the last one is made part of the directory. -/
def extend (inode : MInode) (s : Disk) (i block de : Nat) : MInode × Disk :=
  if i * ENTRY ≥ inode.i_size then
    ({ inode with i_size := (i + 1) * ENTRY, i_dirt := true },
      s.store block (setInode (s.b_data block) de 0))
  else (inode, s)

/-- The loop of `add_entry`; it ends at the first entry behind the last. -/
def addLoop (name : List UInt8) :
    Nat → MInode → Disk → Nat → Nat → Nat → Except String (MInode × Disk × Option (Nat × Nat))
  | 0, inode, s, _, _, _ => .ok (inode, s, none)
  | n + 1, inode, s, i, block, de =>
      match nextBlock true inode s i block de with
      | .error e => .error e
      | .ok (inode, s, block, de) =>
          if block = 0 then .ok (inode, s, none)
          else
            let (inode, s) := extend inode s i block de
            if getInode (s.b_data block) de = 0 then
              .ok (inode, s.store block (setName (s.b_data block) de name), some (block, de))
            else addLoop name n inode s (i + 1) block (de + ENTRY)

/-- `add_entry`: the block and the offset of the entry, whose `inode` is 0 still. -/
def addEntry (inode : MInode) (s : Disk) (name : List UInt8) :
    Except String (MInode × Disk × Option (Nat × Nat)) :=
  let name := name.take NAME_LEN
  if name.length = 0 then .ok (inode, s, none)
  else if inode.i_zone 0 = 0 then .ok (inode, s, none)
  else addLoop name (inode.i_size / ENTRY + 1) inode s 0 (inode.i_zone 0) 0

/-! ## Names -/

/-- A name as the callers pass it: not empty, and without a 0. -/
def Name (name : List UInt8) : Prop := name ≠ [] ∧ (0 : UInt8) ∉ name

/-- The name of an entry, up to the 0 that ends it. -/
def label (b_data : Bytes) (de : Nat) : List UInt8 := (getName b_data de).takeWhile (· ≠ 0)

theorem takeWhile_eq_iff {α : Type*} (p : α → Bool) (xs ys : List α) :
    xs.takeWhile p = ys ↔
      (∀ y ∈ ys, p y = true) ∧ ∃ zs, xs = ys ++ zs ∧ ∀ z ∈ zs.head?, p z = false := by
  constructor
  · rintro rfl
    refine ⟨fun y hy => List.all_eq_true.mp List.all_takeWhile y hy, xs.dropWhile p,
      (List.takeWhile_append_dropWhile).symm, fun z hz => ?_⟩
    have hne := List.head?_dropWhile_not p xs
    rw [Option.mem_def.mp hz] at hne
    simpa using hne
  · rintro ⟨hall, zs, rfl, hhead⟩
    rw [List.takeWhile_append_of_pos hall]
    cases zs with
    | nil => rw [List.takeWhile_nil, List.append_nil]
    | cons z zs =>
        rw [List.takeWhile_cons_of_neg, List.append_nil]
        rw [hhead z rfl]
        exact Bool.false_ne_true

theorem length_getName (b_data : Bytes) (de : Nat) : (getName b_data de).length = NAME_LEN := by
  rw [getName, List.length_map, List.length_range]

theorem getName_get (b_data : Bytes) (de : Nat) {i : Nat} (hi : i < NAME_LEN) :
    (getName b_data de)[i]? = some (b_data (de + 2 + i)) := by
  rw [getName, List.getElem?_map, List.getElem?_range hi]
  rfl

/-- `match` compares the name up to the 0. -/
theorem matchEntry_iff {name : List UInt8} (hlen : name.length ≤ NAME_LEN) (hname : Name name)
    (b_data : Bytes) (de : Nat) :
    matchEntry name b_data de = true ↔ getInode b_data de ≠ 0 ∧ label b_data de = name := by
  have hlong : ¬ name.length > NAME_LEN := Nat.not_lt_of_le hlen
  have hnz : ∀ y ∈ name, decide (y ≠ 0) = true := fun y hy =>
    decide_eq_true fun h0 => hname.2 (h0 ▸ hy)
  unfold matchEntry
  by_cases hino : getInode b_data de = 0
  · rw [if_pos (.inl hino)]
    exact ⟨fun h => absurd h Bool.false_ne_true, fun h => absurd hino h.1⟩
  rw [if_neg fun hc => hc.elim hino hlong, label, takeWhile_eq_iff]
  have hsplit : ∀ zs, getName b_data de = name ++ zs ↔
      (getName b_data de).take name.length = name ∧ (getName b_data de).drop name.length = zs := by
    intro zs
    constructor
    · intro h
      rw [h, List.take_left, List.drop_left]
      exact ⟨rfl, rfl⟩
    · rintro ⟨htake, hdrop⟩
      rw [← htake, ← hdrop, List.take_append_drop]
  -- what stands behind the name
  have hhead : (getName b_data de |>.drop name.length).head? =
      if name.length < NAME_LEN then some (b_data (de + 2 + name.length)) else none := by
    rw [List.head?_drop]
    split
    · rename_i hlt
      exact getName_get b_data de hlt
    · rename_i hge
      rw [List.getElem?_eq_none_iff, length_getName]
      exact Nat.le_of_not_lt hge
  by_cases hend : name.length < NAME_LEN ∧ b_data (de + 2 + name.length) ≠ 0
  · rw [if_pos hend]
    refine ⟨fun h => absurd h Bool.false_ne_true, ?_⟩
    rintro ⟨-, -, zs, hzs, hz⟩
    obtain ⟨-, rfl⟩ := (hsplit zs).mp hzs
    rw [hhead, if_pos hend.1] at hz
    exact absurd (of_decide_eq_false (hz _ rfl)) (not_not.mpr hend.2)
  · rw [if_neg hend, beq_iff_eq]
    constructor
    · intro htake
      refine ⟨hino, hnz, _, (hsplit _).mpr ⟨htake, rfl⟩, fun z hz => ?_⟩
      rw [hhead] at hz
      split at hz
      · rename_i hlt
        obtain rfl := Option.some.inj hz
        exact decide_eq_false fun hne => hend ⟨hlt, hne⟩
      · cases hz
    · rintro ⟨-, -, zs, hzs, -⟩
      exact ((hsplit zs).mp hzs).1

/-! ## Entries of the directory -/

structure Entry where
  inode : Nat
  label : List UInt8

def entryAt (b_data : Bytes) (de : Nat) : Entry := ⟨getInode b_data de, label b_data de⟩

theorem entryAt_congr {b b' : Bytes} {de : Nat} (h : ∀ p, de ≤ p → p < de + ENTRY → b' p = b p) :
    entryAt b' de = entryAt b de := by
  have hentry : ENTRY = 16 := rfl
  have hname : NAME_LEN = 14 := rfl
  have hlist : getName b' de = getName b de := by
    unfold getName
    refine List.map_congr_left fun i hi => ?_
    have hi := List.mem_range.mp hi
    exact h _ (by omega) (by omega)
  rw [entryAt, entryAt, getInode, getInode, label, label, hlist, h de (by omega) (by omega),
    h (de + 1) (by omega) (by omega)]

theorem getInode_setInode (b_data : Bytes) (de : Nat) {n : Nat} (hn : n < 0x10000) :
    getInode (setInode b_data de n) de = n := by
  have hne : de ≠ de + 1 := by omega
  rw [getInode, setInode, update_self, update_of_ne hne, update_self, UInt8.toNat_ofNat',
    UInt8.toNat_ofNat']
  omega

theorem setInode_apply {b_data : Bytes} {de n p : Nat} (h : p ≠ de) (h' : p ≠ de + 1) :
    setInode b_data de n p = b_data p := by
  rw [setInode, update_of_ne h', update_of_ne h]

/-- `de->inode = n` changes the number of this entry only. -/
theorem entryAt_setInode (b_data : Bytes) {de de' n : Nat} (hn : n < 0x10000)
    (hde : de % ENTRY = 0) (hde' : de' % ENTRY = 0) :
    entryAt (setInode b_data de n) de' =
      if de' = de then ⟨n, label b_data de⟩ else entryAt b_data de' := by
  have hentry : ENTRY = 16 := rfl
  rw [hentry] at hde hde'
  by_cases heq : de' = de
  · subst heq
    rw [if_pos rfl, entryAt, getInode_setInode b_data de' hn]
    refine congrArg (Entry.mk n) ?_
    unfold label getName
    refine congrArg _ (List.map_congr_left fun i _ => ?_)
    exact setInode_apply (by omega) (by omega)
  · rw [if_neg heq]
    exact entryAt_congr fun p hlow hhigh => setInode_apply (by omega) (by omega)

/-- Writing the name of a free entry leaves it free, and the other entries alone. -/
theorem entryAt_setName (b_data : Bytes) {de de' : Nat} {name : List UInt8}
    (hlen : name.length ≤ NAME_LEN) (hname : Name name) (hde : de % ENTRY = 0)
    (hde' : de' % ENTRY = 0) :
    entryAt (setName b_data de name) de' =
      if de' = de then ⟨getInode b_data de, name⟩ else entryAt b_data de' := by
  have hentry : ENTRY = 16 := rfl
  have hnl : NAME_LEN = 14 := rfl
  rw [hentry] at hde hde'
  by_cases heq : de' = de
  · subst heq
    have hino : getInode (setName b_data de' name) de' = getInode b_data de' := by
      unfold getInode setName
      rw [if_neg (by omega), if_neg (by omega)]
    have hlabel : label (setName b_data de' name) de' = name := by
      rw [label, takeWhile_eq_iff]
      refine ⟨fun y hy => decide_eq_true fun h0 => hname.2 (h0 ▸ hy),
        List.replicate (NAME_LEN - name.length) 0, ?_, fun z hz => ?_⟩
      · refine List.ext_getElem? fun i => ?_
        by_cases hi : i < NAME_LEN
        · rw [getName_get _ _ hi, setName, if_pos (by omega),
            show de' + 2 + i - (de' + 2) = i by omega, List.getElem?_append]
          split
          · rename_i hlt
            rw [List.getD_eq_getElem?_getD, List.getElem?_eq_getElem hlt]
            rfl
          · rename_i hge
            rw [List.getD_eq_getElem?_getD, List.getElem?_eq_none (by omega),
              List.getElem?_replicate, if_pos (by omega)]
            rfl
        · rw [List.getElem?_eq_none (by rw [length_getName]; omega),
            List.getElem?_eq_none (by rw [List.length_append, List.length_replicate]; omega)]
      · rw [List.head?_replicate] at hz
        split at hz
        · cases hz
        · obtain rfl := Option.some.inj hz
          rfl
    rw [if_pos rfl, entryAt, hino, hlabel]
  · rw [if_neg heq]
    refine entryAt_congr fun p hlow hhigh => ?_
    rw [setName, if_neg (by omega)]

/-- Entry `i` of the directory. -/
def ent (inode : MInode) (s : Disk) (i : Nat) : Entry :=
  entryAt (fileBlock inode s (i / DIR_ENTRIES_PER_BLOCK)) (i % DIR_ENTRIES_PER_BLOCK * ENTRY)

/-- A directory with `n` entries, all of whose blocks are allocated. -/
structure Directory (d : DSuperBlock) (inode : MInode) (s : Disk) (n : Nat) : Prop where
  tree : Tree d inode s
  size : inode.i_size = n * ENTRY
  first : blockNr inode s 0 ≠ 0
  blocks : ∀ i < n, blockNr inode s (i / DIR_ENTRIES_PER_BLOCK) ≠ 0
  max : n ≤ MAXBLOCK * DIR_ENTRIES_PER_BLOCK

/-- `bh` and `de` at the step `i` of a loop. -/
def Place (inode : MInode) (s : Disk) (i block de : Nat) : Prop :=
  block = blockNr inode s (i / DIR_ENTRIES_PER_BLOCK) ∧ de = i % DIR_ENTRIES_PER_BLOCK * ENTRY ∧
      (i = 0 ∨ i % DIR_ENTRIES_PER_BLOCK ≠ 0) ∨
    de = BLOCK_SIZE ∧ i % DIR_ENTRIES_PER_BLOCK = 0 ∧ 0 < i

variable {d : DSuperBlock} {inode inode' : MInode} {s s' : Disk} {n i : Nat} {name : List UInt8}

theorem Place.first (inode : MInode) (s : Disk) : Place inode s 0 (inode.i_zone 0) 0 :=
  .inl ⟨rfl, rfl, .inl rfl⟩

theorem Place.next (inode : MInode) (s : Disk) (i : Nat) :
    Place inode s (i + 1) (blockNr inode s (i / DIR_ENTRIES_PER_BLOCK))
      (i % DIR_ENTRIES_PER_BLOCK * ENTRY + ENTRY) := by
  have hd : DIR_ENTRIES_PER_BLOCK = 64 := rfl
  have he : ENTRY = 16 := rfl
  have hb : BLOCK_SIZE = 1024 := rfl
  unfold Place
  rw [hd, he, hb]
  by_cases hend : (i + 1) % 64 = 0
  · exact .inr ⟨by omega, hend, by omega⟩
  · rw [show (i + 1) / 64 = i / 64 by omega]
    exact .inl ⟨rfl, by omega, .inr hend⟩

theorem offset_lt (i : Nat) : i % DIR_ENTRIES_PER_BLOCK * ENTRY < BLOCK_SIZE := by
  have h := Nat.mod_lt i (by decide : 0 < DIR_ENTRIES_PER_BLOCK)
  have hd : DIR_ENTRIES_PER_BLOCK = 64 := rfl
  have he : ENTRY = 16 := rfl
  have hb : BLOCK_SIZE = 1024 := rfl
  rw [hd] at h ⊢
  rw [he, hb]
  omega

theorem Directory.block_lt (h : Directory d inode s n) (hi : i < n) :
    i / DIR_ENTRIES_PER_BLOCK < MAXBLOCK :=
  Nat.div_lt_of_lt_mul (Nat.lt_of_lt_of_le hi (Nat.mul_comm _ _ ▸ h.max))

theorem nextBlock_read {block de : Nat} (hp : Place inode s i block de)
    (hi : i / DIR_ENTRIES_PER_BLOCK < MAXBLOCK) :
    nextBlock false inode s i block de =
      .ok (inode, s, blockNr inode s (i / DIR_ENTRIES_PER_BLOCK),
        i % DIR_ENTRIES_PER_BLOCK * ENTRY) := by
  unfold nextBlock
  rcases hp with ⟨rfl, rfl, -⟩ | ⟨rfl, hmod, -⟩
  · rw [if_neg (Nat.not_le_of_lt (offset_lt i))]
  · rw [if_pos (Nat.le_refl _), bmap_read inode s hi, hmod, Nat.zero_mul]
    rfl

/-! ## `find_entry` -/

/-- Entry `i` is live and has the name. -/
def Named (e : Nat → Entry) (n : Nat) (name : List UInt8) (i : Nat) : Prop :=
  i < n ∧ (e i).inode ≠ 0 ∧ (e i).label = name

/-- The block and the offset of entry `i`. -/
def place (inode : MInode) (s : Disk) (i : Nat) : Nat × Nat :=
  (blockNr inode s (i / DIR_ENTRIES_PER_BLOCK), i % DIR_ENTRIES_PER_BLOCK * ENTRY)

/-- What `find_entry` gives: an entry with the name, or none when there is none. -/
def Finds (inode : MInode) (s : Disk) (n : Nat) (name : List UInt8) :
    Option (Nat × Nat) → Prop
  | some r => ∃ i, Named (ent inode s) n name i ∧ r = place inode s i
  | none => ∀ i, ¬ Named (ent inode s) n name i

theorem findLoop_spec (h : Directory d inode s n) (hlen : name.length ≤ NAME_LEN)
    (hname : Name name) (m : Nat) :
    ∀ {i block de : Nat}, i + m = n → (∀ j < i, ¬ Named (ent inode s) n name j) →
      Place inode s i block de →
      ∃ r, findLoop inode s name n m i block de = .ok r ∧ Finds inode s n name r := by
  induction m with
  | zero =>
      intro i block de hm hbefore _
      obtain rfl : i = n := hm
      exact ⟨none, rfl, fun j hj => hbefore j hj.1 hj⟩
  | succ m ih =>
      intro i block de hm hbefore hp
      have hi : i < n := by omega
      have hmatch := matchEntry_iff hlen hname (fileBlock inode s (i / DIR_ENTRIES_PER_BLOCK))
        (i % DIR_ENTRIES_PER_BLOCK * ENTRY)
      rw [fileBlock] at hmatch
      unfold findLoop
      rw [if_pos hi, nextBlock_read hp (h.block_lt hi)]
      dsimp only
      rw [if_neg (h.blocks i hi)]
      by_cases hmt : matchEntry name
          (s.b_data (blockNr inode s (i / DIR_ENTRIES_PER_BLOCK)))
          (i % DIR_ENTRIES_PER_BLOCK * ENTRY) = true
      · rw [if_pos hmt]
        exact ⟨_, rfl, i, ⟨hi, hmatch.mp hmt⟩, rfl⟩
      · rw [if_neg hmt]
        refine ih (by omega) (fun j hj hnamed => ?_) (Place.next inode s i)
        rcases Nat.lt_succ_iff_lt_or_eq.mp hj with hj | rfl
        · exact hbefore j hj hnamed
        · exact hmt (hmatch.mpr hnamed.2)

/-- The name as the entries have it. -/
def key (name : List UInt8) : List UInt8 := name.take NAME_LEN

/-- Names other than `..`. -/
def Plain (name : List UInt8) : Prop := Name name ∧ name ≠ [46, 46]

theorem length_key (name : List UInt8) : (key name).length ≤ NAME_LEN := by
  rw [key, List.length_take]
  exact Nat.min_le_left _ _

theorem Name.key (h : Name name) : Name (key name) := by
  refine ⟨fun hnil => ?_, fun h0 => h.2 (List.mem_of_mem_take h0)⟩
  rcases List.take_eq_nil_iff.mp hnil with hzero | hnil
  · cases hzero
  · exact h.1 hnil

theorem Plain.key (h : Plain name) : Plain (key name) := by
  refine ⟨h.1.key, fun hdots => ?_⟩
  have hlen := congrArg List.length hdots
  rw [Dir.key, List.length_take, NAME_LEN] at hlen
  have hshort : name.length ≤ 14 := by
    rw [List.length_cons, List.length_cons, List.length_nil] at hlen
    omega
  rw [Dir.key, NAME_LEN, List.take_of_length_le hshort] at hdots
  exact h.2 hdots

theorem findEntry_spec (h : Directory d inode s n) (root : Bool) (hname : Plain name) :
    ∃ r, findEntry root inode s name = .ok r ∧ Finds inode s n (key name) r := by
  have hk := hname.key
  have hfirst : inode.i_zone 0 ≠ 0 := h.first
  have hlen : (key name).length ≠ 0 := fun h0 => hk.1.1 (List.length_eq_zero_iff.mp h0)
  have hdots : ¬ (key name = [46, 46] ∧ root = true) := fun hd => hk.2 hd.1
  have hn : inode.i_size / ENTRY = n := by rw [h.size, Nat.mul_div_cancel n (by decide)]
  have hloop := findLoop_spec h (length_key name) hk.1 n (Nat.zero_add n)
    (fun j hj => absurd hj (Nat.not_lt_zero j)) (Place.first inode s)
  unfold findEntry
  rw [← key] at *
  dsimp only
  rw [if_neg hlen, if_neg hdots, if_neg hfirst, hn]
  exact hloop

/-! ## Writing an entry -/

theorem offset_mod (i : Nat) : i % DIR_ENTRIES_PER_BLOCK * ENTRY % ENTRY = 0 :=
  Nat.mul_mod_left _ _

theorem same_entry {i j : Nat} (hdiv : j / DIR_ENTRIES_PER_BLOCK = i / DIR_ENTRIES_PER_BLOCK)
    (hoff : j % DIR_ENTRIES_PER_BLOCK * ENTRY = i % DIR_ENTRIES_PER_BLOCK * ENTRY) : j = i := by
  have hmod := Nat.eq_of_mul_eq_mul_right (by decide : 0 < ENTRY) hoff
  rw [← Nat.div_add_mod j DIR_ENTRIES_PER_BLOCK, ← Nat.div_add_mod i DIR_ENTRIES_PER_BLOCK, hdiv,
    hmod]

/-- A new block of bytes in which only the entry `e` at `i` has changed. -/
theorem ent_store (h : Tree d inode s) (hi : i / DIR_ENTRIES_PER_BLOCK < MAXBLOCK)
    (hne : blockNr inode s (i / DIR_ENTRIES_PER_BLOCK) ≠ 0) {data : Bytes} {e : Entry}
    (hdata : ∀ de', de' % ENTRY = 0 → entryAt data de' =
      if de' = i % DIR_ENTRIES_PER_BLOCK * ENTRY then e
      else entryAt (fileBlock inode s (i / DIR_ENTRIES_PER_BLOCK)) de')
    {j : Nat} (hj : j / DIR_ENTRIES_PER_BLOCK < MAXBLOCK) :
    ent inode (s.store (blockNr inode s (i / DIR_ENTRIES_PER_BLOCK)) data) j =
      if j = i then e else ent inode s j := by
  unfold ent
  rw [h.fileBlock_store hi hne data hj]
  by_cases hdiv : j / DIR_ENTRIES_PER_BLOCK = i / DIR_ENTRIES_PER_BLOCK
  · rw [if_pos hdiv, hdata _ (offset_mod j), hdiv]
    exact if_congr ⟨same_entry hdiv, fun heq => by rw [heq]⟩ rfl rfl
  · rw [if_neg hdiv, if_neg fun heq : j = i => hdiv (heq ▸ rfl)]

theorem Directory.store (h : Directory d inode s n) (hi : i / DIR_ENTRIES_PER_BLOCK < MAXBLOCK)
    (hne : blockNr inode s (i / DIR_ENTRIES_PER_BLOCK) ≠ 0) (data : Bytes) :
    Directory d inode (s.store (blockNr inode s (i / DIR_ENTRIES_PER_BLOCK)) data) n where
  tree := h.tree.store hi hne data
  size := h.size
  first := by
    rw [h.tree.blockNr_store hi hne data (by decide)]
    exact h.first
  blocks := fun j hj => by
    rw [h.tree.blockNr_store hi hne data (h.block_lt hj)]
    exact h.blocks j hj
  max := h.max

theorem store_store (s : Disk) (b : Nat) (x y : Bytes) : (s.store b x).store b y = s.store b y := by
  unfold Disk.store
  rw [update_idem]

/-! ## `add_entry` -/

/-- The entry `i` was free, or behind the last, and has the name afterwards. -/
structure Added (d : DSuperBlock) (inode : MInode) (s : Disk) (n : Nat) (name : List UInt8)
    (inode' : MInode) (s' : Disk) (i n' : Nat) : Prop where
  directory : Directory d inode' s' n'
  le : i ≤ n
  free : i < n → (ent inode s i).inode = 0
  size : n' = if i = n then n + 1 else n
  named : ent inode' s' i = ⟨0, name⟩
  others : ∀ j < n, j ≠ i → ent inode' s' j = ent inode s j

/-- What `add_entry` does when it returns: it has an entry, or no block could be had. -/
def Adds (d : DSuperBlock) (inode : MInode) (s : Disk) (n : Nat) (name : List UInt8)
    (inode' : MInode) (s' : Disk) : Option (Nat × Nat) → Prop
  | some r => ∃ i n', Added d inode s n name inode' s' i n' ∧ r = place inode' s' i
  | none => Directory d inode' s' n ∧ ∀ j < n, ent inode' s' j = ent inode s j

theorem createBlock_keeps (h : Tree d inode s) {k : Nat} (hk : k < MAXBLOCK)
    (hne : blockNr inode s k ≠ 0) : bmap true inode s k = .ok (inode, s, blockNr inode s k) := by
  obtain ⟨inode', s', r, hbmap, hc⟩ := createBlock_spec h hk
  obtain ⟨rfl, rfl⟩ := hc.kept hne
  rw [hbmap, hc.result]

/-- The head of the loop with `create`, at an entry whose block is there. -/
theorem nextBlock_keeps (h : Tree d inode s) {block de : Nat} (hp : Place inode s i block de)
    (hi : i / DIR_ENTRIES_PER_BLOCK < MAXBLOCK)
    (hne : blockNr inode s (i / DIR_ENTRIES_PER_BLOCK) ≠ 0) :
    nextBlock true inode s i block de =
      .ok (inode, s, blockNr inode s (i / DIR_ENTRIES_PER_BLOCK),
        i % DIR_ENTRIES_PER_BLOCK * ENTRY) := by
  unfold nextBlock
  rcases hp with ⟨rfl, rfl, -⟩ | ⟨rfl, hmod, -⟩
  · rw [if_neg (Nat.not_le_of_lt (offset_lt i))]
  · rw [if_pos (Nat.le_refl _), createBlock_keeps h hi hne, hmod, Nat.zero_mul]

/-- The directory behind `create_block` for the block of the entry behind the last. -/
theorem Directory.created (h : Directory d inode s n) {r : Nat}
    (hn : n % DIR_ENTRIES_PER_BLOCK = 0) (hpos : 0 < n)
    (hc : CreateBlock d inode s (n / DIR_ENTRIES_PER_BLOCK) inode' s' r) :
    Directory d inode' s' n ∧ ∀ j < n, ent inode' s' j = ent inode s j := by
  have hd : DIR_ENTRIES_PER_BLOCK = 64 := rfl
  have hother : ∀ j < n, blockNr inode' s' (j / DIR_ENTRIES_PER_BLOCK) =
      blockNr inode s (j / DIR_ENTRIES_PER_BLOCK) := fun j hj =>
    hc.others _ (h.block_lt hj) (by rw [hd] at hn ⊢; omega)
  constructor
  · exact {
      tree := hc.tree
      size := hc.size.trans h.size
      first := by
        rw [hc.others 0 (by decide) (by rw [hd] at hn ⊢; omega)]
        exact h.first
      blocks := fun j hj => by
        rw [hother j hj]
        exact h.blocks j hj
      max := h.max }
  · intro j hj
    unfold ent
    rw [hc.data _ (h.block_lt hj) (h.blocks j hj)]

/-- The last step of the loop: the entry behind the last one is made. -/
theorem Directory.append (h : Directory d inode s n) (hlen : name.length ≤ NAME_LEN)
    (hname : Name name) (hlt : n / DIR_ENTRIES_PER_BLOCK < MAXBLOCK)
    (hne : blockNr inode s (n / DIR_ENTRIES_PER_BLOCK) ≠ 0) (dirt : Bool) :
    let block := blockNr inode s (n / DIR_ENTRIES_PER_BLOCK)
    let de := n % DIR_ENTRIES_PER_BLOCK * ENTRY
    Added d inode s n name { inode with i_size := (n + 1) * ENTRY, i_dirt := dirt }
      (s.store block (setName (setInode (s.b_data block) de 0) de name)) n (n + 1) := by
  intro block de
  have hent : ∀ j, j / DIR_ENTRIES_PER_BLOCK < MAXBLOCK →
      ent inode (s.store block (setName (setInode (s.b_data block) de 0) de name)) j =
        if j = n then ⟨0, name⟩ else ent inode s j := by
    intro j hj
    refine ent_store h.tree hlt hne (fun de' hde' => ?_) hj
    rw [entryAt_setName _ hlen hname (offset_mod n) hde', getInode_setInode _ _ (by decide),
      entryAt_setInode _ (by decide) (offset_mod n) hde']
    by_cases heq : de' = de
    · rw [if_pos heq, if_pos heq]
    · rw [if_neg heq, if_neg heq, if_neg heq]
      rfl
  have hdir := h.store hlt hne (setName (setInode (s.b_data block) de 0) de name)
  refine {
    directory := {
      tree := { hdir.tree with }
      size := rfl
      first := hdir.first
      blocks := fun j hj => ?_
      max := ?_ }
    le := Nat.le_refl n
    free := fun hn => absurd hn (Nat.lt_irrefl n)
    size := (if_pos rfl).symm
    named := (hent n hlt).trans (if_pos rfl)
    others := fun j hj hjn => (hent j (h.block_lt hj)).trans (if_neg hjn) }
  · rcases Nat.lt_succ_iff_lt_or_eq.mp hj with hj | rfl
    · exact hdir.blocks j hj
    · refine ne_of_eq_of_ne ?_ hne
      exact h.tree.blockNr_store hlt hne _ hlt
  · have hd : DIR_ENTRIES_PER_BLOCK = 64 := rfl
    rw [hd] at hlt ⊢
    omega

theorem Directory.reuse (h : Directory d inode s n) (hlen : name.length ≤ NAME_LEN)
    (hname : Name name) (hi : i < n) (hfree : (ent inode s i).inode = 0) :
    let block := blockNr inode s (i / DIR_ENTRIES_PER_BLOCK)
    let de := i % DIR_ENTRIES_PER_BLOCK * ENTRY
    Added d inode s n name inode (s.store block (setName (s.b_data block) de name)) i n := by
  intro block de
  have hent : ∀ j, j / DIR_ENTRIES_PER_BLOCK < MAXBLOCK →
      ent inode (s.store block (setName (s.b_data block) de name)) j =
        if j = i then ⟨0, name⟩ else ent inode s j := by
    intro j hj
    refine ent_store h.tree (h.block_lt hi) (h.blocks i hi) (fun de' hde' => ?_) hj
    rw [entryAt_setName _ hlen hname (offset_mod i) hde']
    have hzero : getInode (s.b_data block) de = 0 := hfree
    rw [hzero]
    rfl
  exact {
    directory := h.store (h.block_lt hi) (h.blocks i hi) _
    le := Nat.le_of_lt hi
    free := fun _ => hfree
    size := (if_neg (Nat.ne_of_lt hi)).symm
    named := (hent i (h.block_lt hi)).trans (if_pos rfl)
    others := fun j hj hji => (hent j (h.block_lt hj)).trans (if_neg hji) }

theorem extend_lt (h : Directory d inode s n) (hi : i < n) (block de : Nat) :
    extend inode s i block de = (inode, s) := by
  refine if_neg (Nat.not_le_of_lt ?_)
  rw [h.size]
  exact Nat.mul_lt_mul_of_pos_right hi (by decide)

theorem extend_last (h : Directory d inode s n) (block de : Nat) :
    extend inode s n block de =
      ({ inode with i_size := (n + 1) * ENTRY, i_dirt := true },
        s.store block (setInode (s.b_data block) de 0)) :=
  if_pos (Nat.le_of_eq h.size)

/-- The last step of the loop, once the block of the entry is there. -/
theorem Directory.last (h : Directory d inode s n) (hlen : name.length ≤ NAME_LEN)
    (hname : Name name) (hlt : n / DIR_ENTRIES_PER_BLOCK < MAXBLOCK)
    (hne : blockNr inode s (n / DIR_ENTRIES_PER_BLOCK) ≠ 0) :
    let block := blockNr inode s (n / DIR_ENTRIES_PER_BLOCK)
    let de := n % DIR_ENTRIES_PER_BLOCK * ENTRY
    ∃ inode' s', (let (inode', s') := extend inode s n block de
      if getInode (s'.b_data block) de = 0 then
        .ok (inode', s'.store block (setName (s'.b_data block) de name), some (block, de))
      else addLoop name 0 inode' s' (n + 1) block (de + ENTRY)) =
        (.ok (inode', s', some (place inode' s' n)) : Except String _) ∧
      Added d inode s n name inode' s' n (n + 1) := by
  intro block de
  rw [extend_last h]
  dsimp only
  rw [Disk.store_data, if_pos (getInode_setInode _ _ (by decide)), store_store]
  refine ⟨_, _, ?_, h.append hlen hname hlt hne true⟩
  have hstay : place { inode with i_size := (n + 1) * ENTRY, i_dirt := true }
      (s.store block (setName (setInode (s.b_data block) de 0) de name)) n = (block, de) :=
    congrArg (Prod.mk · de) (h.tree.blockNr_store hlt hne _ hlt)
  rw [hstay]

/-- The block of the entry behind the last one, unless that one ends its block. -/
theorem Directory.open_block (h : Directory d inode s n)
    (hn : n = 0 ∨ n % DIR_ENTRIES_PER_BLOCK ≠ 0) :
    n / DIR_ENTRIES_PER_BLOCK < MAXBLOCK ∧ blockNr inode s (n / DIR_ENTRIES_PER_BLOCK) ≠ 0 := by
  rcases Nat.eq_zero_or_pos n with rfl | hpos
  · exact ⟨by decide, h.first⟩
  · have hd : DIR_ENTRIES_PER_BLOCK = 64 := rfl
    have hlast : (n - 1) / DIR_ENTRIES_PER_BLOCK = n / DIR_ENTRIES_PER_BLOCK := by
      rw [hd] at hn ⊢
      omega
    rw [← hlast]
    exact ⟨h.block_lt (by omega), h.blocks _ (by omega)⟩

theorem addLoop_spec (h : Directory d inode s n) (hlen : name.length ≤ NAME_LEN)
    (hname : Name name) (m : Nat) :
    ∀ {i block de : Nat} {inode' : MInode} {s' : Disk} {r : Option (Nat × Nat)},
      i + m = n → Place inode s i block de →
      addLoop name (m + 1) inode s i block de = .ok (inode', s', r) →
      Adds d inode s n name inode' s' r := by
  induction m with
  | zero =>
      intro n' block de inode' s' r hm hp hadd
      obtain rfl : n' = n := hm
      unfold addLoop nextBlock at hadd
      rcases hp with ⟨rfl, rfl, hstart⟩ | ⟨rfl, hmod, hpos⟩
      · -- the block of the last entry goes on
        obtain ⟨hlt, hne⟩ := h.open_block hstart
        rw [if_neg (Nat.not_le_of_lt (offset_lt n'))] at hadd
        dsimp only at hadd
        rw [if_neg hne] at hadd
        obtain ⟨inode₁, s₁, hlast, hadded⟩ := h.last hlen hname hlt hne
        obtain ⟨rfl, heq⟩ := Prod.mk.inj (Except.ok.inj (hlast.symm.trans hadd))
        obtain ⟨rfl, rfl⟩ := Prod.mk.inj heq
        exact ⟨n', n' + 1, hadded, rfl⟩
      · rw [if_pos (Nat.le_refl _)] at hadd
        by_cases hlt : n' / DIR_ENTRIES_PER_BLOCK < MAXBLOCK
        · obtain ⟨inode₁, s₁, r₁, hbmap, hc⟩ := createBlock_spec h.tree hlt
          obtain ⟨hdir, hsame⟩ := h.created hmod hpos hc
          rw [hbmap] at hadd
          dsimp only at hadd
          by_cases hr₁ : r₁ = 0
          · rw [if_pos hr₁] at hadd
            obtain ⟨rfl, heq⟩ := Prod.mk.inj (Except.ok.inj hadd)
            obtain ⟨rfl, rfl⟩ := Prod.mk.inj heq
            exact ⟨hdir, hsame⟩
          · have hne : blockNr inode₁ s₁ (n' / DIR_ENTRIES_PER_BLOCK) ≠ 0 := by
              rwa [hc.result]
            obtain ⟨inode₂, s₂, hlast, hadded⟩ := hdir.last hlen hname hlt hne
            rw [if_neg hr₁, ← hc.result] at hadd
            rw [hmod, Nat.zero_mul] at hlast
            obtain ⟨rfl, heq⟩ := Prod.mk.inj (Except.ok.inj (hlast.symm.trans hadd))
            obtain ⟨rfl, rfl⟩ := Prod.mk.inj heq
            exact ⟨n', n' + 1, { hadded with
              free := fun hn => absurd hn (Nat.lt_irrefl n')
              others := fun j hj hne => (hadded.others j hj hne).trans (hsame j hj) }, rfl⟩
        · rw [bmap_big _ _ _ hlt] at hadd
          cases hadd
  | succ m ih =>
      intro i block de inode' s' r hm hp hadd
      have hi : i < n := by omega
      unfold addLoop at hadd
      rw [nextBlock_keeps h.tree hp (h.block_lt hi) (h.blocks i hi)] at hadd
      dsimp only at hadd
      rw [if_neg (h.blocks i hi), extend_lt h hi] at hadd
      dsimp only at hadd
      split at hadd
      · rename_i hfree
        obtain ⟨rfl, heq⟩ := Prod.mk.inj (Except.ok.inj hadd)
        obtain ⟨rfl, rfl⟩ := Prod.mk.inj heq
        refine ⟨i, n, h.reuse hlen hname hi hfree, ?_⟩
        rw [place, h.tree.blockNr_store (h.block_lt hi) (h.blocks i hi) _ (h.block_lt hi)]
      · exact ih (by omega) (Place.next inode s i) hadd

theorem Directory.addEntry_eq (h : Directory d inode s n) (hname : key name ≠ []) :
    addEntry inode s name = addLoop (key name) (n + 1) inode s 0 (inode.i_zone 0) 0 := by
  have hlen : (key name).length ≠ 0 := fun h0 => hname (List.length_eq_zero_iff.mp h0)
  have hfirst : inode.i_zone 0 ≠ 0 := h.first
  have hn : inode.i_size / ENTRY = n := by rw [h.size, Nat.mul_div_cancel n (by decide)]
  unfold addEntry
  rw [← key]
  dsimp only
  rw [if_neg hlen, if_neg hfirst, hn]

theorem addEntry_spec (h : Directory d inode s n) (hname : Name name) {r : Option (Nat × Nat)}
    (hadd : addEntry inode s name = .ok (inode', s', r)) :
    Adds d inode s n (key name) inode' s' r := by
  rw [h.addEntry_eq hname.key.1] at hadd
  exact addLoop_spec h (length_key name) hname.key n (Nat.zero_add n) (Place.first inode s) hadd

section Floppy

def emptyDir : MInode := ⟨0, fun i => if i = 0 then 5 else 0, false⟩

theorem emptyDir_value (x : Bmap.Slot) (hx : value emptyDir emptyDisk x ≠ 0) : x = .direct 0 := by
  cases x with
  | direct i =>
      by_cases hi : i = 0
      · rw [hi]
      · exact absurd (if_neg hi) hx
  | _ => exact absurd rfl hx

theorem emptyDir_directory : Directory floppy emptyDir emptyDisk 0 where
  tree := {
    covers := oneZone_covers
    short := by decide
    inj := fun x y _ _ heq hne => by
      rw [emptyDir_value x hne, emptyDir_value y (heq ▸ hne)]
    used := fun x _ hne => by
      obtain rfl := emptyDir_value x hne
      exact ⟨⟨by decide, by decide⟩, by decide⟩ }
  size := rfl
  first := by decide
  blocks := fun i hi => absurd hi (Nat.not_lt_zero i)
  max := Nat.zero_le _

end Floppy

end Dir

end Linux011
