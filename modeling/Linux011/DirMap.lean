import Linux011.ZoneRoom

/-!
# A directory is a finite map

`find_entry`, `add_entry` and the assignments to `de->inode` of one process, over a history of
operations. With respect to lookups the directory is a finite map from names to inode numbers:
what `find_entry` finds behind the history is what the map of the history has (`directory_map`).

`Represents` is the relation between the two. It keeps that the directory has no holes and that no
two entries in use have the same name, and reads the map off the entries. An operation changes one
entry, which may be a new one behind the last (`Changes`), and what that does to the map is
`Represents.add` and `Represents.delete`; they do not look into the blocks. `step_represents` gets
the change out of the calls, from `addEntry_spec` and `assign_spec`, and the run is an induction
on the history.

The history of the theorem is one in which each operation applies, so the theorem also says when
the next one does: a name is deleted when the map has it, and added when the map has it not and
there is a place for it. There is none only when all the entries are in use, fill their blocks and
leave too few zones for another block; `addLoop_room` counts them.
-/

namespace Linux011

open Function Super SuperBlock Zones Bmap Runs

namespace Dir

variable {d : DSuperBlock} {inode inode' : MInode} {s s' : Disk} {n n' i nr : Nat}
  {name : List UInt8}

/-- The names with their inode numbers. -/
abbrev DirMap : Type := List UInt8 → Option Nat

inductive Op where
  /-- `add_entry` for a name that `find_entry` does not find, and `de->inode = nr` -/
  | add (name : List UInt8) (nr : Nat)
  /-- `de->inode = 0` for an entry that `find_entry` has found -/
  | delete (name : List UInt8)
  | find (name : List UInt8)

def Op.Valid : Op → Prop
  | .add name nr => Plain name ∧ nr ≠ 0 ∧ nr < 0x10000
  | .delete name | .find name => Plain name

/-- What the operation means for the map. -/
def DirMap.apply (m : DirMap) : Op → DirMap
  | .add name nr => update m (key name) (some nr)
  | .delete name => update m (key name) none
  | .find _ => m

/-- `de->inode = nr`. -/
def assign (s : Disk) (r : Nat × Nat) (nr : Nat) : Disk :=
  s.store r.1 (setInode (s.b_data r.1) r.2 nr)

/-- One operation by one process; `none` when it does not apply or a block is missing. -/
def step (root : Bool) : MInode × Disk → Op → Option (MInode × Disk)
  | (inode, s), .add name nr =>
      match findEntry root inode s name with
      | .ok none =>
          match addEntry inode s name with
          | .ok (inode, s, some r) => some (inode, assign s r nr)
          | _ => none
      | _ => none
  | (inode, s), .delete name =>
      match findEntry root inode s name with
      | .ok (some r) => some (inode, assign s r 0)
      | _ => none
  | (inode, s), .find name =>
      match findEntry root inode s name with
      | .ok _ => some (inode, s)
      | _ => none

/-- The inode number that `find_entry` finds. -/
def lookup (root : Bool) (inode : MInode) (s : Disk) : DirMap := fun name =>
  match findEntry root inode s name with
  | .ok (some r) => some (getInode (s.b_data r.1) r.2)
  | _ => none

/-- No two live entries have the same name. -/
def Unique (e : Nat → Entry) (n : Nat) : Prop :=
  ∀ name, name ≠ [] → ∀ i j, Named e n name i → Named e n name j → i = j

/-- The map that the entries give, for the names that have 14 bytes at most. -/
theorem lookup_eq_some (h : Directory d inode s n) (hu : Unique (ent inode s) n) (root : Bool)
    (hname : Plain name) (nr : Nat) :
    lookup root inode s name = some nr ↔
      ∃ i, Named (ent inode s) n (key name) i ∧ (ent inode s i).inode = nr := by
  obtain ⟨r, hfind, hspec⟩ := findEntry_spec h root hname
  unfold lookup
  rw [hfind]
  cases r with
  | none =>
      constructor
      · intro h0
        cases h0
      · rintro ⟨i, hi, -⟩
        exact absurd hi (hspec i)
  | some r =>
      obtain ⟨i, hi, rfl⟩ := hspec
      constructor
      · intro h0
        exact ⟨i, hi, Option.some.inj h0⟩
      · rintro ⟨j, hj, rfl⟩
        obtain rfl := hu _ hname.key.1.1 _ _ hi hj
        rfl

/-- The lookups are those of the map `m`. -/
structure Represents (d : DSuperBlock) (inode : MInode) (s : Disk) (n : Nat) (m : DirMap) :
    Prop where
  directory : Directory d inode s n
  unique : Unique (ent inode s) n
  entries : ∀ name, Plain name → ∀ nr, m (key name) = some nr ↔
    ∃ i, Named (ent inode s) n (key name) i ∧ (ent inode s i).inode = nr

theorem Represents.lookup {m : DirMap} (h : Represents d inode s n m) (root : Bool)
    (hname : Plain name) : lookup root inode s name = m (key name) :=
  Option.ext fun nr =>
    (lookup_eq_some h.directory h.unique root hname nr).trans (h.entries name hname nr).symm

theorem key_key (name : List UInt8) : key (key name) = key name := by
  rw [key, key, List.take_take, Nat.min_self]

theorem represents_lookup (h : Directory d inode s n) (hu : Unique (ent inode s) n)
    (root : Bool) : Represents d inode s n (lookup root inode s) where
  directory := h
  unique := hu
  entries := fun name hname nr => by
    rw [lookup_eq_some h hu root hname.key, key_key]

/-- Entry `i` of `n'` gets a name and a number, or loses its number. -/
structure Changes (e : Nat → Entry) (n : Nat) (e' : Nat → Entry) (n' i : Nat) (x : Entry) :
    Prop where
  lt : i < n'
  le : n ≤ n'
  at_ : e' i = x
  others : ∀ j, j < n' → j ≠ i → j < n ∧ e' j = e j

theorem Changes.named {e e' : Nat → Entry} {n' : Nat} {x : Entry} (h : Changes e n e' n' i x)
    {j : Nat} (hne : j ≠ i) : Named e' n' name j ↔ Named e n name j := by
  constructor
  · rintro ⟨hj, hrest⟩
    obtain ⟨hjn, heq⟩ := h.others j hj hne
    exact ⟨hjn, heq ▸ hrest⟩
  · rintro ⟨hj, hrest⟩
    obtain ⟨-, heq⟩ := h.others j (Nat.lt_of_lt_of_le hj h.le) hne
    exact ⟨Nat.lt_of_lt_of_le hj h.le, heq ▸ hrest⟩

theorem Represents.add {m : DirMap} (h : Represents d inode s n m) {n' nr : Nat}
    (hdir : Directory d inode' s' n') (hnr : nr ≠ 0)
    (hnone : ∀ j, ¬ Named (ent inode s) n (key name) j)
    (hfree : i < n → (ent inode s i).inode = 0)
    (hc : Changes (ent inode s) n (ent inode' s') n' i ⟨nr, key name⟩) :
    Represents d inode' s' n' (update m (key name) (some nr)) := by
  have hdead : ∀ l, ¬ Named (ent inode s) n l i := fun l hl => hl.2.1 (hfree hl.1)
  have hnamed : ∀ l j, Named (ent inode' s') n' l j ↔
      Named (ent inode s) n l j ∨ (j = i ∧ l = key name) := by
    intro l j
    by_cases hji : j = i
    · subst hji
      constructor
      · rintro ⟨-, -, hl⟩
        rw [hc.at_] at hl
        exact .inr ⟨rfl, hl.symm⟩
      · rintro (hl | ⟨-, rfl⟩)
        · exact absurd hl (hdead l)
        · refine ⟨hc.lt, ?_, ?_⟩
          · rw [hc.at_]
            exact hnr
          · rw [hc.at_]
    · rw [hc.named hji]
      exact ⟨.inl, fun hor => hor.resolve_right fun ⟨heq, _⟩ => hji heq⟩
  refine ⟨hdir, fun l hl j j' hj hj' => ?_, fun l hl nr' => ?_⟩
  · rcases (hnamed l j).mp hj with hj | ⟨rfl, rfl⟩
    · rcases (hnamed l j').mp hj' with hj' | ⟨rfl, rfl⟩
      · exact h.unique l hl j j' hj hj'
      · exact absurd hj (hnone j)
    · rcases (hnamed _ j').mp hj' with hj' | ⟨rfl, -⟩
      · exact absurd hj' (hnone j')
      · rfl
  · by_cases hkey : key l = key name
    · rw [hkey, update_self]
      constructor
      · intro heq
        refine ⟨i, (hnamed _ _).mpr (.inr ⟨rfl, rfl⟩), ?_⟩
        rw [hc.at_]
        exact Option.some.inj heq
      · rintro ⟨j, hj, rfl⟩
        rcases (hnamed _ j).mp hj with hj | ⟨rfl, -⟩
        · exact absurd hj (hnone j)
        · rw [hc.at_]
    · rw [update_of_ne hkey, h.entries l hl nr']
      refine exists_congr fun j => ?_
      rw [hnamed (key l) j]
      constructor
      · rintro ⟨hj, hval⟩
        have hji : j ≠ i := fun heq => hdead _ (heq ▸ hj)
        obtain ⟨-, heq⟩ := hc.others j (Nat.lt_of_lt_of_le hj.1 hc.le) hji
        exact ⟨.inl hj, heq ▸ hval⟩
      · rintro ⟨hj | ⟨-, heq⟩, hval⟩
        · have hji : j ≠ i := fun heq => hdead _ (heq ▸ hj)
          obtain ⟨-, heq⟩ := hc.others j (Nat.lt_of_lt_of_le hj.1 hc.le) hji
          exact ⟨hj, heq ▸ hval⟩
        · exact absurd heq hkey

theorem Represents.delete {m : DirMap} (h : Represents d inode s n m)
    (hdir : Directory d inode' s' n) (hi : Named (ent inode s) n (key name) i)
    (hname : Plain name) {l : List UInt8}
    (hc : Changes (ent inode s) n (ent inode' s') n i ⟨0, l⟩) :
    Represents d inode' s' n (update m (key name) none) := by
  have hdead : ∀ l, ¬ Named (ent inode' s') n l i := by
    rintro l ⟨-, hne, -⟩
    rw [hc.at_] at hne
    exact hne rfl
  refine ⟨hdir, fun l hl j j' hj hj' => ?_, fun l hl nr => ?_⟩
  · have hji : j ≠ i := fun heq => hdead l (heq ▸ hj)
    have hji' : j' ≠ i := fun heq => hdead l (heq ▸ hj')
    exact h.unique l hl j j' ((hc.named hji).mp hj) ((hc.named hji').mp hj')
  · by_cases hkey : key l = key name
    · rw [hkey, update_self]
      constructor
      · intro heq
        cases heq
      · rintro ⟨j, hj, -⟩
        have hji : j ≠ i := fun heq => hdead _ (heq ▸ hj)
        exact absurd (h.unique _ hname.key.1.1 _ _ ((hc.named hji).mp hj) hi) hji
    · rw [update_of_ne hkey, h.entries l hl nr]
      refine exists_congr fun j => ?_
      constructor
      · rintro ⟨hj, hval⟩
        have hji : j ≠ i := by
          rintro rfl
          exact hkey (hj.2.2.symm.trans hi.2.2)
        obtain ⟨-, heq⟩ := hc.others j hj.1 hji
        exact ⟨(hc.named hji).mpr hj, heq ▸ hval⟩
      · rintro ⟨hj, hval⟩
        have hji : j ≠ i := fun heq => hdead _ (heq ▸ hj)
        obtain ⟨-, heq⟩ := hc.others j hj.1 hji
        exact ⟨(hc.named hji).mp hj, heq ▸ hval⟩

theorem assign_spec (h : Directory d inode s n) (hi : i < n) {nr : Nat} (hnr : nr < 0x10000) :
    Directory d inode (assign s (place inode s i) nr) n ∧
      ∀ j < n, ent inode (assign s (place inode s i) nr) j =
        if j = i then ⟨nr, (ent inode s i).label⟩ else ent inode s j := by
  refine ⟨h.store (h.block_lt hi) (h.blocks i hi) _, fun j hj => ?_⟩
  exact ent_store h.tree (h.block_lt hi) (h.blocks i hi)
    (fun de' hde' => entryAt_setInode _ hnr (offset_mod i) hde') (h.block_lt hj)

/-- The entry that `add_entry` has given gets its number. -/
theorem Added.assigned (h : Added d inode s n name inode' s' i n') (hnr : nr < 0x10000) :
    Directory d inode' (assign s' (place inode' s' i) nr) n' ∧
      Changes (ent inode s) n (ent inode' (assign s' (place inode' s' i) nr)) n' i ⟨nr, name⟩ := by
  have hle : n ≤ n' ∧ i < n' ∧ ∀ j, j < n' → j ≠ i → j < n := by
    have hsize := h.size
    have hile := h.le
    split at hsize <;> exact ⟨by omega, by omega, fun j _ _ => by omega⟩
  obtain ⟨hdir, hent⟩ := assign_spec h.directory hle.2.1 hnr
  refine ⟨hdir, {
    lt := hle.2.1
    le := hle.1
    at_ := ?_
    others := fun j hj hne => ⟨hle.2.2 j hj hne, ?_⟩ }⟩
  · rw [hent i hle.2.1, if_pos rfl, h.named]
  · rw [hent j hj, if_neg hne]
    exact h.others j (hle.2.2 j hj hne) hne

/-- One operation: the directory goes on representing the map. -/
theorem step_represents {root : Bool} {m : DirMap} {op : Op} (h : Represents d inode s n m)
    (hop : op.Valid) (hs : step root (inode, s) op = some (inode', s')) :
    ∃ n', Represents d inode' s' n' (m.apply op) := by
  cases op with
  | find name =>
      obtain ⟨r, hfind, -⟩ := findEntry_spec h.directory root hop
      dsimp only [step] at hs
      rw [hfind] at hs
      obtain ⟨rfl, rfl⟩ := Prod.mk.inj (Option.some.inj hs)
      exact ⟨n, h⟩
  | delete name =>
      obtain ⟨r, hfind, hspec⟩ := findEntry_spec h.directory root hop
      dsimp only [step] at hs
      rw [hfind] at hs
      cases r with
      | none => cases hs
      | some r =>
          obtain ⟨i, hi, rfl⟩ := hspec
          obtain ⟨rfl, rfl⟩ := Prod.mk.inj (Option.some.inj hs)
          have hzero : 0 < 0x10000 := by decide
          obtain ⟨hdir, hent⟩ := assign_spec h.directory hi.1 hzero
          exact ⟨n, h.delete hdir hi hop {
            lt := hi.1
            le := Nat.le_refl n
            at_ := (hent i hi.1).trans (if_pos rfl)
            others := fun j hj hne => ⟨hj, (hent j hj).trans (if_neg hne)⟩ }⟩
  | add name nr =>
      obtain ⟨hname, hnr, hsmall⟩ := hop
      obtain ⟨r, hfind, hspec⟩ := findEntry_spec h.directory root hname
      dsimp only [step] at hs
      rw [hfind] at hs
      cases r with
      | some r => cases hs
      | none =>
          dsimp only at hs
          split at hs
          · rename_i inode₁ s₁ r₁ hadd
            obtain ⟨i, n', hadded, rfl⟩ := addEntry_spec h.directory hname.1 hadd
            obtain ⟨rfl, rfl⟩ := Prod.mk.inj (Option.some.inj hs)
            obtain ⟨hdir, hchanges⟩ := hadded.assigned hsmall
            exact ⟨n', h.add hdir hnr hspec hadded.free hchanges⟩
          · cases hs

/-! ## When an operation applies -/

/-- `add_entry` finds no place for another entry. -/
def Filled (inode : MInode) (s : Disk) (n : Nat) : Prop :=
  (∀ j < n, InUse inode s j) ∧ Ends inode s n

/-- When an operation applies to the map and to the directory that represents it. -/
def Applies (m : DirMap) (inode : MInode) (s : Disk) (n : Nat) : Op → Prop
  | .add name _ => m (key name) = none ∧ ¬Filled inode s n
  | .delete name => m (key name) ≠ none
  | .find _ => True

/-- `add_entry` comes to its end; without a place it returns no entry. -/
theorem Directory.addEntry_filled (h : Directory d inode s n) (hname : Name name) :
    ∃ inode' s' o, addEntry inode s name = .ok (inode', s', o) ∧
      (o = none ↔ Filled inode s n) := by
  obtain ⟨inode', v', o, -, hadd, -⟩ := DirScan.addEntry_grown
    (v := ⟨s, fun _ => false, fun _ => 0⟩) ⟨fun _ => rfl, fun _ _ _ => rfl⟩ h name
  refine ⟨inode', v'.toDisk, o, hadd, ?_⟩
  have hloop := hadd
  rw [show (⟨s, fun _ => false, fun _ => 0⟩ : Vol).toDisk = s from rfl,
    h.addEntry_eq hname.key.1] at hloop
  rw [addLoop_room h n (Nat.zero_add n) (Place.first inode s) hloop]
  exact and_congr_left fun _ => ⟨fun hall j => hall j (Nat.zero_le j), fun hall j _ => hall j⟩

theorem Represents.applies {m : DirMap} {op : Op} (h : Represents d inode s n m)
    (hop : op.Valid) (root : Bool) :
    (step root (inode, s) op).isSome = true ↔ Applies m inode s n op := by
  -- what `find_entry` gives is what the map has
  have hfinds : ∀ {name}, Plain name → ∃ r, findEntry root inode s name = .ok r ∧
      (r = none ↔ m (key name) = none) := by
    intro name hname
    obtain ⟨r, hfind, -⟩ := findEntry_spec h.directory root hname
    refine ⟨r, hfind, ?_⟩
    have hlookup := h.lookup root hname
    rw [Dir.lookup, hfind] at hlookup
    rw [← hlookup]
    cases r with
    | none => exact iff_of_true rfl rfl
    | some r => exact iff_of_false (Option.some_ne_none _) (Option.some_ne_none _)
  cases op with
  | find name =>
      obtain ⟨r, hfind, -⟩ := hfinds hop
      dsimp only [step]
      rw [hfind]
      exact iff_of_true rfl trivial
  | delete name =>
      obtain ⟨r, hfind, hnone⟩ := hfinds hop
      dsimp only [step, Applies]
      rw [hfind, ne_eq, ← hnone]
      cases r with
      | none => exact iff_of_false Bool.false_ne_true fun hne => hne rfl
      | some r => exact iff_of_true rfl (Option.some_ne_none r)
  | add name nr =>
      obtain ⟨r, hfind, hnone⟩ := hfinds hop.1
      obtain ⟨inode', s', o, hadd, hfilled⟩ := h.directory.addEntry_filled hop.1.1
      dsimp only [step, Applies]
      rw [hfind, ← hnone, ← hfilled]
      cases r with
      | some r => exact iff_of_false Bool.false_ne_true fun h => Option.some_ne_none r h.1
      | none =>
          rw [and_iff_right rfl]
          dsimp only
          rw [hadd]
          cases o with
          | none => exact iff_of_false Bool.false_ne_true fun hne => hne rfl
          | some o => exact iff_of_true rfl (Option.some_ne_none o)

/-! ## Histories -/

theorem Represents.exec {root : Bool} (ops : List Op) : ∀ {inode s n m}, Represents d inode s n m →
    (∀ op ∈ ops, op.Valid) → exec (step root) (inode, s) ops = some (inode', s') →
    ∃ n', Represents d inode' s' n' (ops.foldl DirMap.apply m) := by
  induction ops with
  | nil =>
      intro inode s n m h _ hrun
      obtain ⟨rfl, rfl⟩ := Prod.mk.inj (Option.some.inj hrun)
      exact ⟨n, h⟩
  | cons op ops ih =>
      intro inode s n m h hops hrun
      obtain ⟨⟨inode₁, s₁⟩, hs, hrun⟩ := Option.bind_eq_some_iff.mp hrun
      obtain ⟨n₁, h₁⟩ := step_represents h (hops op List.mem_cons_self) hs
      exact ih h₁ (fun op' hop' => hops op' (List.mem_cons_of_mem op hop')) hrun

/-- For every history of additions, deletions and lookups by one process, from a directory
without duplicate names: `find_entry` finds a name exactly when the map of the history has
it, and the entry has the number of the map. Behind the history an operation applies when the
map says so, but that a name is not added to a directory that is full while the disk is. -/
theorem directory_map {root : Bool} {ops : List Op} (h : Directory d inode s n)
    (hu : Unique (ent inode s) n) (hops : ∀ op ∈ ops, op.Valid)
    (hrun : exec (step root) (inode, s) ops = some (inode', s')) (hname : Plain name) :
    (∃ r, findEntry root inode' s' name = .ok r ∧
      r.map (fun r => getInode (s'.b_data r.1) r.2) =
        ops.foldl DirMap.apply (lookup root inode s) (key name)) ∧
      ∃ n', Directory d inode' s' n' ∧ ∀ op, op.Valid →
        ((step root (inode', s') op).isSome = true ↔
          Applies (ops.foldl DirMap.apply (lookup root inode s)) inode' s' n' op) := by
  obtain ⟨n', hrep⟩ := Represents.exec ops (represents_lookup h hu root) hops hrun
  refine ⟨?_, n', hrep.directory, fun op hop => hrep.applies hop root⟩
  obtain ⟨r, hfind, -⟩ := findEntry_spec hrep.directory root hname
  have hlookup := hrep.lookup root hname
  rw [lookup, hfind] at hlookup
  refine ⟨r, hfind, hlookup ▸ ?_⟩
  cases r <;> rfl

section Floppy

/-- A name is added to an empty directory, found there, and not added again. -/
theorem directory_map_floppy : ∃ (inode : MInode) (s : Disk) (r : Option (Nat × Nat)),
    exec (step false) (emptyDir, emptyDisk) [.add [97] 3] = some (inode, s) ∧
      findEntry false inode s [97] = .ok r ∧
      r.map (fun r => getInode (s.b_data r.1) r.2) = some 3 ∧
      step false (inode, s) (.add [97] 4) = none := by
  have hrun : ((exec (step false) (emptyDir, emptyDisk) [.add [97] 3]).isSome) = true := by
    decide
  obtain ⟨⟨inode, s⟩, hs⟩ := Option.isSome_iff_exists.mp hrun
  have hname : Plain [97] := by
    refine ⟨⟨?_, ?_⟩, ?_⟩ <;> decide
  have hvalid : ∀ nr, nr ≠ 0 → nr < 0x10000 → (Op.add [97] nr).Valid := fun nr hne hlt =>
    ⟨hname, hne, hlt⟩
  obtain ⟨⟨r, hfind, hr⟩, n', -, happlies⟩ := directory_map emptyDir_directory
    (fun _ _ i _ hi => absurd hi.1 (Nat.not_lt_zero i))
    (fun op hop => List.mem_singleton.mp hop ▸ hvalid 3 (by decide) (by decide)) hs hname
  have hthere : [Op.add [97] 3].foldl DirMap.apply (lookup false emptyDir emptyDisk) (key [97]) =
      some 3 := by
    show update (lookup false emptyDir emptyDisk) (key [97]) (some 3) (key [97]) = some 3
    rw [update_self]
  refine ⟨inode, s, r, hs, hfind, hr.trans hthere, ?_⟩
  refine Option.not_isSome_iff_eq_none.mp fun hsome => ?_
  have hnone := ((happlies _ (hvalid 4 (by decide) (by decide))).mp hsome).1
  exact Option.some_ne_none 3 (hthere.symm.trans hnone)

end Floppy

end Dir

end Linux011
