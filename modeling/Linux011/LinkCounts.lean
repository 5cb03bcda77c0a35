import Linux011.Runs
import Linux011.Tally
import Mathlib.Algebra.BigOperators.Fin

/-!
# Link counts

The calls of `fs/namei.c` that make and remove names, one after the other, on one device. A
directory is the list of its entries, as `find_entry` and `add_entry` see them (`Dir` has the
blocks below). `dir_namei` is an argument: the directory that it gives. So are the answers of
`permission`, `suser` and the other tests of a call, and whether a block can be had.

`i_nlinks` has 8 bits. As long as none of the counts has to go beyond 255, it is the number of
the entries that name the inode.

The count of an inode is compared with a sum over all directories (`refs`), and `Consistent` adds
that nothing names an inode that is not allocated and that the directories are a tree. The tree
is needed for `sys_rmdir`, which frees an inode with a count of 2 because the only names it can
have are its entry and its own `.`, and for `..`, whose count is the directory above. One entry
of one directory changes at a time: `Edit` says what this does to the tree, and `Added` and
`Cleared` what it does to the sum. Each call is then two or three such changes with the counts
that go along, and one lemma for each kind (`Consistent.create`, `link`, `mkdir`, `unlink` and
`rmdir`). The arithmetic of the counts is that of 8 bits, and `Room` keeps it away from its end:
`sys_link` and `sys_mkdir` do not look at the count that they raise.
-/

namespace Linux011

open Function Runs Tally

namespace LinkCounts

variable {M : Nat}

/-- `inode` is `none` where the entry is free. -/
structure Entry (M : Nat) where
  inode : Option (Fin M)
  label : List UInt8

structure Inode (M : Nat) where
  /-- the bit of the inode map -/
  allocated : Bool
  /-- `S_ISDIR(i_mode)` -/
  dir : Bool
  i_nlinks : UInt8
  i_count : Nat
  entries : List (Entry M)

/-- The inodes of the device; `i` has the number `i + 1`. -/
abbrev Fs (M : Nat) : Type := Fin M → Inode M

def dot : List UInt8 := [46]
def dotdot : List UInt8 := [46, 46]

def Inode.free : Inode M := ⟨false, false, 0, 0, []⟩

/-! ## Inodes -/

/-- `iget`; without its count the inode is the same in the table and on the device. -/
def iget (s : Fs M) (n : Fin M) : Fs M :=
  update s n { s n with i_count := (s n).i_count + 1 }

def iput (s : Fs M) (n : Fin M) : Fs M :=
  if (s n).i_count > 1 then update s n { s n with i_count := (s n).i_count - 1 }
  else if (s n).i_nlinks = 0 then update s n .free
  else update s n { s n with i_count := (s n).i_count - 1 }

/-- The inode that `new_inode` makes. -/
def Inode.new : Inode M := ⟨true, false, 1, 1, []⟩

def newInode (s : Fs M) : Option (Fin M × Fs M) :=
  match (List.finRange M).find? fun n => (s n).allocated = false with
  | some n => some (n, update s n .new)
  | none => none

def setLinks (s : Fs M) (n : Fin M) (i_nlinks : UInt8) : Fs M :=
  update s n { s n with i_nlinks := i_nlinks }

/-! ## Directories -/

/-- `find_entry`: the place of the entry and its inode. -/
def findEntry (x : Inode M) (name : List UInt8) : Option (Nat × Fin M) :=
  match x.entries.findIdx? fun e => e.inode.isSome && e.label == name with
  | some k =>
      match x.entries[k]? with
      | some ⟨some n, _⟩ => some (k, n)
      | _ => none
  | none => none

/-- In the root of the process `..` is `.`. -/
def special (root : Bool) (name : List UInt8) : List UInt8 :=
  if name = dotdot ∧ root then dot else name

/-- `add_entry` and `de->inode = n`; a directory without entries has no block. -/
def addEntry (x : Inode M) (name : List UInt8) (n : Fin M) : Option (Inode M) :=
  if x.entries = [] then none
  else
    match x.entries.findIdx? fun e => e.inode.isNone with
    | some k => some { x with entries := x.entries.set k ⟨some n, name⟩ }
    | none => some { x with entries := x.entries ++ [⟨some n, name⟩] }

/-- `de->inode = 0`. -/
def clearEntry (x : Inode M) (k : Nat) : Inode M :=
  { x with entries := x.entries.modify k fun e => ⟨none, e.label⟩ }

def emptyDir (x : Inode M) (n : Fin M) : Bool :=
  match x.entries with
  | e :: e' :: rest =>
      decide (e.inode = some n ∧ e'.inode.isSome ∧ e.label = dot ∧ e'.label = dotdot) &&
        rest.all fun e => e.inode.isNone
  | _ => false

/-! ## The calls -/

/-- `add_entry` for a new inode; when there is no place, the link count is set to 0 and the
inode is freed by `iput`. -/
def enter (s : Fs M) (d n : Fin M) (name : List UInt8) (space : Bool) : Option (Fs M) :=
  match if space then addEntry (s d) name n else none with
  | some x => some (update s d x)
  | none => none

/-- `open_namei` with `O_CREAT`, for an existing file up to its `iget`. -/
def openNamei (s : Fs M) (d : Fin M) (name : List UInt8) (root perm space excl : Bool) : Fs M :=
  let s := iget s d
  match findEntry (s d) (special root name) with
  | none =>
      if perm = false then iput s d
      else
        match newInode s with
        | none => iput s d
        | some (n, s) =>
            match enter s d n name space with
            | none => iput (iput (setLinks s n ((s n).i_nlinks - 1)) n) d
            | some s => iput s d
  | some (_, n) =>
      let s := iput s d
      if excl then s else iget s n

def sysMknod (s : Fs M) (d : Fin M) (name : List UInt8) (root perm space isdir : Bool) : Fs M :=
  let s := iget s d
  if perm = false then iput s d
  else
    match findEntry (s d) (special root name) with
    | some _ => iput s d
    | none =>
        match newInode s with
        | none => iput s d
        | some (n, s) =>
            let s := update s n { s n with dir := isdir }
            match enter s d n name space with
            | none => iput (setLinks (iput s d) n 0) n
            | some s => iput (iput s d) n

/-- `sys_mkdir`; `none` where `free_block` panics, for the second time for one block. -/
def sysMkdir (s : Fs M) (d : Fin M) (name : List UInt8) (root perm block space : Bool) :
    Option (Fs M) :=
  let s := iget s d
  if perm = false then some (iput s d)
  else
    match findEntry (s d) (special root name) with
    | some _ => some (iput s d)
    | none =>
        match newInode s with
        | none => some (iput s d)
        | some (n, s) =>
            if block = false then
              let s := iput s d
              some (iput (setLinks s n ((s n).i_nlinks - 1)) n)
            else
              let s := update s n { s n with
                dir := true, i_nlinks := 2, entries := [⟨some n, dot⟩, ⟨some d, dotdot⟩] }
              match enter s d n name space with
              | none => none
              | some s => some (iput (iput (setLinks s d ((s d).i_nlinks + 1)) d) n)

/-- `sys_link`; `old` is the inode that `namei` gives. -/
def sysLink (s : Fs M) (old d : Fin M) (name : List UInt8) (root perm space : Bool) : Fs M :=
  let s := iget s old
  if (s old).dir then iput s old
  else
    let s := iget s d
    if perm = false then iput (iput s d) old
    else
      match findEntry (s d) (special root name) with
      | some _ => iput (iput s d) old
      | none =>
          match enter s d old name space with
          | none => iput (iput s d) old
          | some s =>
              let s := iput s d
              iput (setLinks s old ((s old).i_nlinks + 1)) old

def sysUnlink (s : Fs M) (d : Fin M) (name : List UInt8) (root perm sticky : Bool) : Fs M :=
  let s := iget s d
  if perm = false then iput s d
  else
    match findEntry (s d) (special root name) with
    | none => iput s d
    | some (k, n) =>
        let s := iget s n
        if sticky then iput (iput s d) n
        else if (s n).dir then iput (iput s n) d
        else
          let s := if (s n).i_nlinks = 0 then setLinks s n 1 else s
          let s := update s d (clearEntry (s d) k)
          iput (iput (setLinks s n ((s n).i_nlinks - 1)) n) d

/-- The test `inode == dir` of the code comes to nothing: the count of `dir` is 2 then. -/
def sysRmdir (s : Fs M) (d : Fin M) (name : List UInt8) (root perm sticky : Bool) : Fs M :=
  let s := iget s d
  if perm = false then iput s d
  else
    match findEntry (s d) (special root name) with
    | none => iput s d
    | some (k, n) =>
        let s := iget s n
        if sticky = true ∨ (s n).i_count > 1 then iput (iput s d) n
        else if (s n).dir = false ∨ emptyDir (s n) n = false then iput (iput s n) d
        else
          let s := setLinks (update s d (clearEntry (s d) k)) n 0
          iput (iput (setLinks s d ((s d).i_nlinks - 1)) d) n

inductive Call (M : Nat) where
  | openNamei (d : Fin M) (name : List UInt8) (root perm space excl : Bool)
  | sysMknod (d : Fin M) (name : List UInt8) (root perm space isdir : Bool)
  | sysMkdir (d : Fin M) (name : List UInt8) (root perm block space : Bool)
  | sysLink (old d : Fin M) (name : List UInt8) (root perm space : Bool)
  | sysUnlink (d : Fin M) (name : List UInt8) (root perm sticky : Bool)
  | sysRmdir (d : Fin M) (name : List UInt8) (root perm sticky : Bool)
  /-- a process gives up an inode -/
  | iput (n : Fin M)

/-- What `dir_namei` and `namei` give is allocated, and the first is a directory. -/
def IsDir (x : Inode M) : Prop := x.allocated = true ∧ x.dir = true

instance (x : Inode M) : Decidable (IsDir x) := inferInstanceAs (Decidable (_ ∧ _))

def step (s : Fs M) : Call M → Option (Fs M)
  | .openNamei d name root perm space excl =>
      if IsDir (s d) then some (openNamei s d name root perm space excl) else none
  | .sysMknod d name root perm space isdir =>
      if IsDir (s d) then some (sysMknod s d name root perm space isdir) else none
  | .sysMkdir d name root perm block space =>
      if IsDir (s d) then sysMkdir s d name root perm block space else none
  | .sysLink old d name root perm space =>
      if (s old).allocated ∧ IsDir (s d) then some (sysLink s old d name root perm space)
      else none
  | .sysUnlink d name root perm sticky =>
      if IsDir (s d) then some (sysUnlink s d name root perm sticky) else none
  | .sysRmdir d name root perm sticky =>
      if IsDir (s d) then some (sysRmdir s d name root perm sticky) else none
  | .iput n => if (s n).i_count = 0 then none else some (iput s n)

/-! ## Consistent file systems -/

/-- How many entries of `x` name inode `n`. -/
def names (n : Fin M) (x : Inode M) : Nat :=
  if IsDir x then x.entries.countP fun e => e.inode = some n else 0

/-- How many entries name inode `n`, `.` and `..` included. -/
def refs (s : Fs M) (n : Fin M) : Nat := tally (names n) s

/-- Entry `k` names inode `n`. -/
def Names (x : Inode M) (k : Nat) (n : Fin M) : Prop :=
  ∃ label, x.entries[k]? = some ⟨some n, label⟩

/-- `.` and `..` of directory `d`; one that `mknod` has made has no entries at all. -/
structure Dots (s : Fs M) (d u : Fin M) : Prop where
  dot : (s d).entries[0]? = some ⟨some d, dot⟩
  dotdot : (s d).entries[1]? = some ⟨some u, dotdot⟩

/-- The directories are a tree: each has one entry in the directory that its `..` names. -/
structure Tree (s : Fs M) : Prop where
  dots : ∀ d, IsDir (s d) → (s d).entries = [] ∨ ∃ u, Dots s d u
  parent : ∀ d u, IsDir (s d) → Dots s d u → IsDir (s u) ∧
    (u ≠ d → ∃ k, 2 ≤ k ∧ Names (s u) k d)
  child : ∀ d c k u, IsDir (s d) → 2 ≤ k → Names (s d) k c → IsDir (s c) → Dots s c u → u = d
  once : ∀ d c k k', IsDir (s d) → 2 ≤ k → 2 ≤ k' → IsDir (s c) → Names (s d) k c →
    Names (s d) k' c → k = k'

structure Consistent (s : Fs M) : Prop where
  links : ∀ n, (s n).allocated = true → (s n).i_nlinks.toNat = refs s n
  named : ∀ n, (s n).allocated = false → refs s n = 0
  tree : Tree s

/-- Equal but for the count. -/
structure Same (x y : Inode M) : Prop where
  allocated : x.allocated = y.allocated
  dir : x.dir = y.dir
  i_nlinks : x.i_nlinks = y.i_nlinks
  entries : x.entries = y.entries

variable {s s' : Fs M} {d n : Fin M}

theorem Same.isDir {x y : Inode M} (h : Same x y) : IsDir x ↔ IsDir y := by
  unfold IsDir
  rw [h.allocated, h.dir]

theorem Same.names {x y : Inode M} (h : Same x y) (n : Fin M) : names n x = names n y := by
  unfold LinkCounts.names
  by_cases hx : IsDir x
  · rw [if_pos hx, if_pos (h.isDir.mp hx), h.entries]
  · rw [if_neg hx, if_neg fun hy => hx (h.isDir.mpr hy)]

theorem Same.namesAt {x y : Inode M} (h : Same x y) {k : Nat} : Names x k n ↔ Names y k n := by
  unfold Names
  rw [h.entries]

theorem Dots.congr {u : Fin M} (hs : ∀ n, Same (s' n) (s n)) : Dots s' d u ↔ Dots s d u :=
  ⟨fun h => ⟨(hs d).entries ▸ h.dot, (hs d).entries ▸ h.dotdot⟩,
    fun h => ⟨(hs d).entries.symm ▸ h.dot, (hs d).entries.symm ▸ h.dotdot⟩⟩

theorem Consistent.congr (h : Consistent s) (hs : ∀ n, Same (s' n) (s n)) : Consistent s' := by
  have hrefs : ∀ n, refs s' n = refs s n := fun n => tally_congr fun m => (hs m).names n
  constructor
  · intro n hn
    rw [hrefs, (hs n).i_nlinks]
    exact h.links n ((hs n).allocated ▸ hn)
  · intro n hn
    rw [hrefs]
    exact h.named n ((hs n).allocated ▸ hn)
  · constructor
    · intro d hd
      rcases h.tree.dots d ((hs d).isDir.mp hd) with hnone | ⟨u, hu⟩
      · exact .inl ((hs d).entries.trans hnone)
      · exact .inr ⟨u, (Dots.congr hs).mpr hu⟩
    · intro d u hd hu
      obtain ⟨hdir, hentry⟩ := h.tree.parent d u ((hs d).isDir.mp hd) ((Dots.congr hs).mp hu)
      refine ⟨(hs u).isDir.mpr hdir, fun hne => ?_⟩
      obtain ⟨k, hk, hnames⟩ := hentry hne
      exact ⟨k, hk, (hs u).namesAt.mpr hnames⟩
    · intro d c k u hd hk hnames hc hu
      exact h.tree.child d c k u ((hs d).isDir.mp hd) hk ((hs d).namesAt.mp hnames)
        ((hs c).isDir.mp hc) ((Dots.congr hs).mp hu)
    · intro d c k k' hd hk hk' hc hn hn'
      exact h.tree.once d c k k' ((hs d).isDir.mp hd) hk hk' ((hs c).isDir.mp hc)
        ((hs d).namesAt.mp hn) ((hs d).namesAt.mp hn')

theorem Same.refl (x : Inode M) : Same x x := ⟨rfl, rfl, rfl, rfl⟩

theorem Same.trans {x y z : Inode M} (h : Same x y) (h' : Same y z) : Same x z :=
  ⟨h.allocated.trans h'.allocated, h.dir.trans h'.dir, h.i_nlinks.trans h'.i_nlinks,
    h.entries.trans h'.entries⟩

theorem same_count (s : Fs M) (n : Fin M) (c : Nat) (m : Fin M) :
    Same (update s n { s n with i_count := c } m) (s m) := by
  rcases eq_or_ne m n with rfl | hne
  · rw [update_self]
    exact ⟨rfl, rfl, rfl, rfl⟩
  · rw [update_of_ne hne]
    exact .refl _

theorem same_iget (s : Fs M) (n m : Fin M) : Same (iget s n m) (s m) := same_count s n _ m

theorem Consistent.iget (h : Consistent s) (n : Fin M) : Consistent (iget s n) :=
  h.congr (same_iget s n)

theorem Names.refs_pos {k : Nat} (h : Names (s d) k n) (hd : IsDir (s d)) : 0 < refs s n := by
  obtain ⟨label, hk⟩ := h
  have hmem := List.mem_of_getElem? hk
  have hpos : 0 < names n (s d) := by
    rw [names, if_pos hd]
    exact List.countP_pos_iff.mpr ⟨_, hmem, decide_eq_true rfl⟩
  exact Nat.lt_of_lt_of_le hpos (le_tally (names n) s d)

theorem Dots.self {u : Fin M} (h : Dots s d u) : Names (s d) 0 d := ⟨_, h.dot⟩

theorem Dots.up {u : Fin M} (h : Dots s d u) : Names (s d) 1 u := ⟨_, h.dotdot⟩

theorem names_nil {x : Inode M} (h : x.entries = []) (n : Fin M) : names n x = 0 := by
  rw [names, h]
  split <;> rfl

theorem names_not_dir {x : Inode M} (h : ¬ IsDir x) (n : Fin M) : names n x = 0 := if_neg h

theorem names_eq_zero {x : Inode M} (h : ∀ k, ¬ Names x k n) : names n x = 0 := by
  unfold names
  split
  · refine List.countP_eq_zero.mpr fun e he => ?_
    rw [decide_eq_true_eq]
    intro hn
    obtain ⟨k, hk, rfl⟩ := List.mem_iff_getElem.mp he
    exact h k ⟨x.entries[k].label, by rw [List.getElem?_eq_getElem hk, ← hn]⟩
  · rfl

theorem free_not_dir : ¬ IsDir (Inode.free : Inode M) := fun h => Bool.false_ne_true h.1

theorem Names.ne_nil {x : Inode M} {k : Nat} (h : Names x k n) : x.entries ≠ [] := by
  obtain ⟨label, hk⟩ := h
  intro hnil
  rw [hnil] at hk
  cases hk

/-- An inode that no entry names, and that names none. -/
theorem Consistent.bare (h : Consistent s) (hrefs : refs s n = 0) {y : Inode M}
    (hlinks : y.i_nlinks = 0) (hentries : y.entries = []) : Consistent (update s n y) := by
  have hzero : ∀ {k d}, IsDir (s d) → ¬ Names (s d) k n := fun hd hk =>
    absurd hrefs (Nat.ne_of_gt (hk.refs_pos hd))
  have hbare : IsDir (s n) → (s n).entries = [] := by
    intro hn
    rcases h.tree.dots n hn with hnil | ⟨u, hu⟩
    · exact hnil
    · exact absurd hu.self (hzero hn)
  have hnames : ∀ m, names m (s n) = 0 := by
    intro m
    by_cases hn : IsDir (s n)
    · exact names_nil (hbare hn) m
    · exact names_not_dir hn m
  have hsame : ∀ m, refs (update s n y) m = refs s m := by
    intro m
    have hmove := tally_update (names m) s n y
    rw [hnames, names_nil hentries] at hmove
    exact hmove
  have hother : ∀ {m}, m ≠ n → IsDir (update s n y m) → IsDir (s m) := by
    intro m hne hm
    rwa [update_of_ne hne] at hm
  -- what has entries is not `n`
  have hentry : ∀ {m k c}, Names (update s n y m) k c → m ≠ n ∧ Names (s m) k c := by
    intro m k c hk
    rcases eq_or_ne m n with rfl | hne
    · rw [update_self] at hk
      exact absurd hentries hk.ne_nil
    · rw [update_of_ne hne] at hk
      exact ⟨hne, hk⟩
  have hdots : ∀ {m u}, Dots (update s n y) m u → m ≠ n ∧ Dots s m u := by
    intro m u hu
    obtain ⟨hne, -⟩ := hentry hu.self
    have hdot := hu.dot
    have hdotdot := hu.dotdot
    rw [update_of_ne hne] at hdot hdotdot
    exact ⟨hne, hdot, hdotdot⟩
  constructor
  · intro m hm
    rw [hsame]
    rcases eq_or_ne m n with rfl | hne
    · rw [update_self, hlinks, hrefs]
      rfl
    · rw [update_of_ne hne] at hm ⊢
      exact h.links m hm
  · intro m hm
    rw [hsame]
    rcases eq_or_ne m n with rfl | hne
    · exact hrefs
    · rw [update_of_ne hne] at hm
      exact h.named m hm
  · constructor
    · intro d hd
      rcases eq_or_ne d n with rfl | hne
      · rw [update_self]
        exact .inl hentries
      · rcases h.tree.dots d (hother hne hd) with hnil | ⟨u, hu⟩
        · rw [update_of_ne hne]
          exact .inl hnil
        · exact .inr ⟨u, by rw [update_of_ne hne]; exact hu.dot,
            by rw [update_of_ne hne]; exact hu.dotdot⟩
    · intro d u hd hu
      obtain ⟨hne, hup⟩ := hdots hu
      have hold := hother hne hd
      have hun : u ≠ n := by
        rintro rfl
        exact hzero hold hup.up
      rw [update_of_ne hun]
      exact h.tree.parent d u hold hup
    · intro d c k u hd hk hk' hc hu
      obtain ⟨hne, hk'⟩ := hentry hk'
      obtain ⟨hcn, hu⟩ := hdots hu
      exact h.tree.child d c k u (hother hne hd) hk hk' (hother hcn hc) hu
    · intro d c k k' hd hk hk' hc hkn hkn'
      obtain ⟨hne, hold⟩ := hentry hkn
      have hcn : c ≠ n := by
        rintro rfl
        exact hzero (hother hne hd) hold
      exact h.tree.once d c k k' (hother hne hd) hk hk' (hother hcn hc) hold (hentry hkn').2

theorem Consistent.iput (h : Consistent s) (n : Fin M) : Consistent (iput s n) := by
  unfold LinkCounts.iput
  split
  · exact h.congr (same_count s n _)
  · split
    · rename_i hzero
      refine h.bare ?_ rfl rfl
      by_cases hn : (s n).allocated = true
      · rw [← h.links n hn, hzero]
        rfl
      · exact h.named n (Bool.not_eq_true _ ▸ hn)
    · exact h.congr (same_count s n _)

/-! ## One entry changes -/

/-- `x'` differs from `x` in entry `j`, behind `.` and `..`; there may be `n` before or after. -/
structure Edit (x x' : Inode M) (j : Nat) (n : Fin M) : Prop where
  le : 2 ≤ j
  isDir : IsDir x' ↔ IsDir x
  others : ∀ k, k ≠ j → x'.entries[k]? = x.entries[k]?
  old : ∀ m, Names x j m → m = n
  new : ∀ m, Names x' j m → m = n

theorem Edit.names_iff {x x' : Inode M} {j k : Nat} {m : Fin M} (h : Edit x x' j n)
    (hm : m ≠ n) : Names x' k m ↔ Names x k m := by
  rcases eq_or_ne k j with rfl | hk
  · exact ⟨fun hn => absurd (h.new m hn) hm, fun hn => absurd (h.old m hn) hm⟩
  · unfold Names
    rw [h.others k hk]

/-- Entry `j` is the only one that changes; `n` is the inode that it names, and becomes `y`: no
directory, or one that is in its place. -/
theorem Tree.edit {x' y : Inode M} {j : Nat} (h : Tree s) (hd : IsDir (s d))
    (he : Edit (s d) x' j n) (hne : n ≠ d)
    (hy : IsDir y → y.entries = [] ∨
      y.entries = [⟨some n, dot⟩, ⟨some d, dotdot⟩] ∧ Names x' j n)
    (hup : ∀ b, b ≠ n → IsDir (s b) → ¬ Dots s b n)
    (hnone : IsDir y → ∀ b k, IsDir (s b) → 2 ≤ k → ¬ Names (s b) k n) :
    Tree (update (update s d x') n y) := by
  generalize hs' : update (update s d x') n y = s'
  have hn : s' n = y := by rw [← hs', update_self]
  have hsd : s' d = x' := by rw [← hs', update_of_ne hne.symm, update_self]
  have hother : ∀ m, m ≠ n → m ≠ d → s' m = s m := by
    intro m hmn hmd
    rw [← hs', update_of_ne hmn, update_of_ne hmd]
  have hdir : ∀ {m}, m ≠ n → (IsDir (s' m) ↔ IsDir (s m)) := by
    intro m hmn
    rcases eq_or_ne m d with rfl | hmd
    · rw [hsd]
      exact he.isDir
    · rw [hother m hmn hmd]
  have hdots : ∀ {m u}, m ≠ n → (Dots s' m u ↔ Dots s m u) := by
    intro m u hmn
    rcases eq_or_ne m d with rfl | hmd
    · have hzero := he.others 0 (by have := he.le; omega)
      have hone := he.others 1 (by have := he.le; omega)
      rw [← hsd] at hzero hone
      exact ⟨fun hu => ⟨hzero.symm.trans hu.dot, hone.symm.trans hu.dotdot⟩,
        fun hu => ⟨hzero.trans hu.dot, hone.trans hu.dotdot⟩⟩
    · have hsame := hother m hmn hmd
      exact ⟨fun hu => ⟨hsame ▸ hu.dot, hsame ▸ hu.dotdot⟩,
        fun hu => ⟨hsame.symm ▸ hu.dot, hsame.symm ▸ hu.dotdot⟩⟩
  have hnames : ∀ {b k c}, b ≠ n → c ≠ n → (Names (s' b) k c ↔ Names (s b) k c) := by
    intro b k c hbn hcn
    rcases eq_or_ne b d with rfl | hbd
    · rw [hsd]
      exact he.names_iff hcn
    · rw [hother b hbn hbd]
  -- what `n` has in its place
  have hdotsn : ∀ {u}, IsDir (s' n) → Dots s' n u → u = d ∧ Names x' j n := by
    intro u hdirn hu
    rw [hn] at hdirn
    have hdotdot := hu.dotdot
    rw [hn] at hdotdot
    rcases hy hdirn with hnil | ⟨hentries, hj⟩
    · rw [hnil] at hdotdot
      cases hdotdot
    · rw [hentries] at hdotdot
      cases hdotdot
      exact ⟨rfl, hj⟩
  have hempty : ∀ {k c}, IsDir (s' n) → 2 ≤ k → ¬ Names (s' n) k c := by
    rintro k c hdirn hk ⟨label, hget⟩
    rw [hn] at hdirn hget
    rcases hy hdirn with hnil | ⟨hentries, -⟩
    · rw [hnil] at hget
      cases hget
    · rw [hentries, List.getElem?_eq_none (by exact hk)] at hget
      cases hget
  -- only entry `j` of `d` names `n` where `n` is a directory
  have honly : ∀ {b k}, IsDir (s' n) → IsDir (s' b) → 2 ≤ k → Names (s' b) k n →
      b = d ∧ k = j := by
    intro b k hdirn hb hk hbk
    have hbn : b ≠ n := by
      rintro rfl
      exact hempty hdirn hk hbk
    have hnot := hnone (hn ▸ hdirn) b k ((hdir hbn).mp hb) hk
    rcases eq_or_ne b d with rfl | hbd
    · refine ⟨rfl, ?_⟩
      by_contra hkj
      rw [hsd] at hbk
      obtain ⟨label, hget⟩ := hbk
      exact hnot ⟨label, (he.others k hkj).symm.trans hget⟩
    · rw [hother b hbn hbd] at hbk
      exact absurd hbk hnot
  constructor
  · intro m hm
    rcases eq_or_ne m n with rfl | hmn
    · rw [hn] at hm ⊢
      rcases hy hm with hnil | ⟨hentries, -⟩
      · exact .inl hnil
      · refine .inr ⟨d, ?_, ?_⟩
        · rw [hn, hentries]
          rfl
        · rw [hn, hentries]
          rfl
    · rcases h.dots m ((hdir hmn).mp hm) with hnil | ⟨u, hu⟩
      · refine .inl ?_
        rcases eq_or_ne m d with rfl | hmd
        · rw [hsd]
          refine List.eq_nil_of_length_eq_zero (Nat.eq_zero_of_not_pos fun hpos => ?_)
          have hzero := he.others 0 (by have := he.le; omega)
          rw [hnil, List.getElem?_eq_getElem hpos] at hzero
          cases hzero
        · rw [hother m hmn hmd]
          exact hnil
      · exact .inr ⟨u, (hdots hmn).mpr hu⟩
  · intro m u hm hu
    rcases eq_or_ne m n with rfl | hmn
    · obtain ⟨rfl, hj⟩ := hdotsn hm hu
      refine ⟨(hdir hne.symm).mpr hd, fun _ => ⟨j, he.le, ?_⟩⟩
      rw [hsd]
      exact hj
    · have hold := (hdir hmn).mp hm
      have hup' := (hdots hmn).mp hu
      have hun : u ≠ n := by
        rintro rfl
        exact hup m hmn hold hup'
      obtain ⟨hdiru, hentry⟩ := h.parent m u hold hup'
      refine ⟨(hdir hun).mpr hdiru, fun hneu => ?_⟩
      obtain ⟨k, hk, hkn⟩ := hentry hneu
      exact ⟨k, hk, (hnames hun hmn).mpr hkn⟩
  · intro b c k u hb hk hbk hc hu
    rcases eq_or_ne c n with rfl | hcn
    · obtain ⟨rfl, -⟩ := honly hc hb hk hbk
      exact (hdotsn hc hu).1
    · have hbn : b ≠ n := by
        rintro rfl
        exact hempty hb hk hbk
      exact h.child b c k u ((hdir hbn).mp hb) hk ((hnames hbn hcn).mp hbk)
        ((hdir hcn).mp hc) ((hdots hcn).mp hu)
  · intro b c k k' hb hk hk' hc hbk hbk'
    rcases eq_or_ne c n with rfl | hcn
    · rw [(honly hc hb hk hbk).2, (honly hc hb hk' hbk').2]
    · have hbn : b ≠ n := by
        rintro rfl
        exact hempty hb hk hbk
      exact h.once b c k k' ((hdir hbn).mp hb) hk hk' ((hdir hcn).mp hc)
        ((hnames hbn hcn).mp hbk) ((hnames hbn hcn).mp hbk')

/-- One name of `n`, among those of inode `m`. -/
def one (m n : Fin M) : Nat := if m = n then 1 else 0

theorem one_self (n : Fin M) : one n n = 1 := if_pos rfl

theorem one_ne {m n : Fin M} (h : m ≠ n) : one m n = 0 := if_neg h

theorem count_one (m c : Fin M) :
    (if decide ((some c : Option (Fin M)) = some m) = true then 1 else 0) = one m c := by
  by_cases hmc : m = c
  · subst hmc
    rw [if_pos (decide_eq_true rfl), one_self]
  · rw [if_neg fun heq => hmc (Option.some.inj (of_decide_eq_true heq)).symm, one_ne hmc]

theorem count_none (m : Fin M) :
    (if decide ((none : Option (Fin M)) = some m) = true then 1 else 0) = 0 :=
  if_neg fun heq => nomatch of_decide_eq_true heq

/-- `add_entry` with a directory that has `.` and `..`. -/
structure Added (x x' : Inode M) (j : Nat) (n : Fin M) : Prop extends Edit x x' j n where
  at_ : Names x' j n
  names : ∀ m, names m x' = LinkCounts.names m x + one m n
  i_nlinks : x'.i_nlinks = x.i_nlinks

theorem addEntry_spec {x : Inode M} {name : List UInt8} {d u : Fin M} {x' : Inode M}
    (hx : IsDir x) (hdot : x.entries[0]? = some ⟨some d, dot⟩)
    (hdotdot : x.entries[1]? = some ⟨some u, dotdot⟩) (h : addEntry x name n = some x') :
    ∃ j, Added x x' j n := by
  obtain ⟨hlen, -⟩ := List.getElem?_eq_some_iff.mp hdotdot
  unfold addEntry at h
  split at h
  · cases h
  · split at h
    · rename_i k hfind
      obtain rfl := Option.some.inj h
      obtain ⟨hk, hfree, -⟩ := List.findIdx?_eq_some_iff_getElem.mp hfind
      have hkx : x.entries[k]? = some x.entries[k] := List.getElem?_eq_getElem hk
      have hnone : x.entries[k].inode = none := Option.isNone_iff_eq_none.mp hfree
      have hle : 2 ≤ k := by
        by_contra hlt
        have hcases : k = 0 ∨ k = 1 := by omega
        rcases hcases with rfl | rfl
        · rw [hkx] at hdot
          rw [Option.some.inj hdot] at hnone
          cases hnone
        · rw [hkx] at hdotdot
          rw [Option.some.inj hdotdot] at hnone
          cases hnone
      have hset : (x.entries.set k ⟨some n, name⟩)[k]? = some ⟨some n, name⟩ :=
        List.getElem?_set_self hk
      refine ⟨k, {
        le := hle
        isDir := Iff.rfl
        others := fun k' hne => List.getElem?_set_ne hne.symm
        old := ?_
        new := ?_
        at_ := ⟨name, hset⟩
        names := fun m => ?_
        i_nlinks := rfl }⟩
      · rintro m ⟨label, hm⟩
        rw [hkx] at hm
        rw [Option.some.inj hm] at hnone
        cases hnone
      · rintro m ⟨label, hm⟩
        dsimp only at hm
        rw [hset] at hm
        cases hm
        rfl
      · have hx' : IsDir { x with entries := x.entries.set k ⟨some n, name⟩ } := hx
        rw [LinkCounts.names, LinkCounts.names, if_pos hx, if_pos hx', List.countP_set hk, hnone]
        dsimp only
        rw [count_none, Nat.sub_zero, count_one]
    · obtain rfl := Option.some.inj h
      refine ⟨x.entries.length, {
        le := hlen
        isDir := Iff.rfl
        others := fun k' hne => ?_
        old := ?_
        new := ?_
        at_ := ⟨name, List.getElem?_concat_length⟩
        names := fun m => ?_
        i_nlinks := rfl }⟩
      · dsimp only
        rcases Nat.lt_or_ge k' x.entries.length with hlt | hge
        · exact List.getElem?_append_left hlt
        · rw [List.getElem?_eq_none hge, List.getElem?_eq_none]
          rw [List.length_append]
          exact Nat.lt_of_le_of_ne hge (Ne.symm hne)
      · rintro m ⟨label, hm⟩
        rw [List.getElem?_eq_none (Nat.le_refl _)] at hm
        cases hm
      · rintro m ⟨label, hm⟩
        dsimp only at hm
        rw [List.getElem?_concat_length] at hm
        cases hm
        rfl
      · have hx' : IsDir { x with entries := x.entries ++ [⟨some n, name⟩] } := hx
        rw [LinkCounts.names, LinkCounts.names, if_pos hx, if_pos hx', List.countP_append,
          List.countP_singleton, count_one]

/-- `de->inode = 0`. -/
structure Cleared (x x' : Inode M) (j : Nat) (n : Fin M) : Prop extends Edit x x' j n where
  was : Names x j n
  gone : ∀ m, ¬ Names x' j m
  names : ∀ m, names m x' + one m n = LinkCounts.names m x
  i_nlinks : x'.i_nlinks = x.i_nlinks

theorem clearEntry_spec {x : Inode M} {k : Nat} (hx : IsDir x) (hk : 2 ≤ k) (h : Names x k n) :
    Cleared x (clearEntry x k) k n := by
  obtain ⟨label, hget⟩ := h
  obtain ⟨hlt, hat⟩ := List.getElem?_eq_some_iff.mp hget
  have hmod : (clearEntry x k).entries[k]? = some ⟨none, label⟩ := by
    dsimp only [clearEntry]
    rw [List.getElem?_modify_eq, hget]
    rfl
  have hset : x.entries.modify k (fun e => ⟨none, e.label⟩) = x.entries.set k ⟨none, label⟩ := by
    rw [List.modify_eq_set_getElem?, hget]
    rfl
  exact {
    le := hk
    isDir := Iff.rfl
    others := fun k' hne => List.getElem?_modify_ne _ _ (Ne.symm hne)
    old := by
      rintro m ⟨label', hm⟩
      rw [hget] at hm
      cases hm
      rfl
    new := by
      rintro m ⟨label', hm⟩
      rw [hmod] at hm
      cases hm
    was := ⟨label, hget⟩
    gone := by
      rintro m ⟨label', hm⟩
      rw [hmod] at hm
      cases hm
    names := by
      intro m
      have hx' : IsDir (clearEntry x k) := hx
      have hpos : one m n ≤ x.entries.countP fun e => e.inode = some m := by
        by_cases hmn : m = n
        · subst hmn
          rw [one_self]
          exact List.countP_pos_iff.mpr ⟨_, List.mem_of_getElem? hget, decide_eq_true rfl⟩
        · rw [one_ne hmn]
          exact Nat.zero_le _
      rw [LinkCounts.names, LinkCounts.names, if_pos hx, if_pos hx']
      dsimp only [clearEntry]
      rw [hset, List.countP_set hlt, hat]
      dsimp only
      rw [count_none, Nat.add_zero, count_one, Nat.sub_add_cancel hpos]
    i_nlinks := rfl }

theorem findEntry_spec {x : Inode M} {name : List UInt8} {k : Nat}
    (h : findEntry x name = some (k, n)) : Names x k n := by
  unfold findEntry at h
  split at h
  · split at h
    · rename_i label hget
      obtain ⟨rfl, rfl⟩ := Prod.mk.inj (Option.some.inj h)
      exact ⟨label, hget⟩
    · cases h
  · cases h

/-! ## What the calls do to the names -/

theorem refs_update (s : Fs M) (x' y : Inode M) (hne : n ≠ d) (m : Fin M) :
    refs (update (update s d x') n y) m + names m (s d) + names m (s n) =
      refs s m + names m x' + names m y := by
  have hd := tally_update (names m) s d x'
  have hn := tally_update (names m) (update s d x') n y
  rw [update_of_ne hne] at hn
  unfold refs
  omega

/-- An inode that is not allocated has no name. -/
theorem Consistent.unnamed (h : Consistent s) (hn : (s n).allocated = false) {b : Fin M} {k : Nat}
    (hb : IsDir (s b)) : ¬ Names (s b) k n := fun hk =>
  absurd (h.named n hn) (Nat.ne_of_gt (hk.refs_pos hb))

theorem Consistent.no_dots (h : Consistent s) (hn : ¬ IsDir (s n)) {b : Fin M}
    (hb : IsDir (s b)) : ¬ Dots s b n := fun hu => hn (h.tree.parent b n hb hu).1

theorem not_dir_of_free {x : Inode M} (h : x.allocated = false) : ¬ IsDir x := fun hd =>
  Bool.false_ne_true (h.symm.trans hd.1)

/-- The link counts after entry and inode have changed. -/
theorem Consistent.rebuild (h : Consistent s) {x' y : Inode M}
    (htree : Tree (update (update s d x') n y)) (hx' : IsDir x')
    (hown : y.allocated = true → y.i_nlinks.toNat = refs (update (update s d x') n y) n)
    (hfreed : y.allocated = false → refs (update (update s d x') n y) n = 0)
    (hdir : x'.i_nlinks.toNat = refs (update (update s d x') n y) d)
    (hothers : ∀ m, m ≠ n → m ≠ d → refs (update (update s d x') n y) m = refs s m) :
    Consistent (update (update s d x') n y) := by
  refine ⟨fun m hm => ?_, fun m hm => ?_, htree⟩
  · rcases eq_or_ne m n with rfl | hmn
    · rw [update_self] at hm ⊢
      exact hown hm
    · rw [update_of_ne hmn] at hm ⊢
      rcases eq_or_ne m d with rfl | hmd
      · rw [update_self]
        exact hdir
      · rw [update_of_ne hmd] at hm ⊢
        rw [hothers m hmn hmd]
        exact h.links m hm
  · rcases eq_or_ne m n with rfl | hmn
    · rw [update_self] at hm
      exact hfreed hm
    · rw [update_of_ne hmn] at hm
      rcases eq_or_ne m d with rfl | hmd
      · rw [update_self, hx'.1] at hm
        cases hm
      · rw [update_of_ne hmd] at hm
        rw [hothers m hmn hmd]
        exact h.named m hm

theorem toNat_up {c : UInt8} (h : c ≠ 255) : (c + 1).toNat = c.toNat + 1 := by
  have hlt := c.toNat_lt
  have hne : c.toNat ≠ 255 := fun heq => h (UInt8.toNat_inj.mp heq)
  have hadd := UInt8.toNat_add c 1
  have hone : (1 : UInt8).toNat = 1 := rfl
  omega

theorem toNat_down {c : UInt8} (h : c ≠ 0) : (c - 1).toNat + 1 = c.toNat := by
  have hpos : c.toNat ≠ 0 := fun heq => h (UInt8.toNat_inj.mp heq)
  have hone : (1 : UInt8).toNat = 1 := rfl
  have hle : (1 : UInt8) ≤ c := UInt8.le_iff_toNat_le.mpr (by omega)
  have hsub := UInt8.toNat_sub_of_le c 1 hle
  omega

theorem Consistent.create (h : Consistent s) {x' y : Inode M} {j : Nat}
    (hn : (s n).allocated = false) (hd : IsDir (s d)) (hadd : Added (s d) x' j n)
    (hy : y.allocated = true) (hlinks : y.i_nlinks = 1) (hentries : y.entries = []) :
    Consistent (update (update s d x') n y) := by
  have hne : n ≠ d := by
    rintro rfl
    exact not_dir_of_free hn hd
  have hrefs : ∀ m, refs (update (update s d x') n y) m = refs s m + one m n := by
    intro m
    have hsum := refs_update s x' y hne m
    rw [hadd.names, names_not_dir (not_dir_of_free hn), names_nil hentries] at hsum
    omega
  have htree := h.tree.edit (y := y) hd hadd.toEdit hne (fun _ => .inl hentries)
    (fun b _ hb => h.no_dots (not_dir_of_free hn) hb) fun _ b k hb _ => h.unnamed hn hb
  refine h.rebuild htree (hadd.isDir.mpr hd) (fun _ => ?_) (fun hno => ?_) ?_ fun m hmn _ => ?_
  · rw [hrefs, h.named n hn, hlinks, one_self]
    rfl
  · exact absurd (hno.symm.trans hy) Bool.false_ne_true
  · rw [hrefs, hadd.i_nlinks, one_ne hne.symm, h.links d hd.1]
    rfl
  · rw [hrefs, one_ne hmn]
    rfl

/-- An inode that is no directory gets one more name. -/
theorem Consistent.link (h : Consistent s) {x' : Inode M} {j : Nat}
    (hn : (s n).allocated = true) (hfile : ¬ IsDir (s n)) (hd : IsDir (s d))
    (hadd : Added (s d) x' j n) (hroom : (s n).i_nlinks ≠ 255) :
    Consistent (update (update s d x') n { s n with i_nlinks := (s n).i_nlinks + 1 }) := by
  have hne : n ≠ d := by
    rintro rfl
    exact hfile hd
  have hy : ¬ IsDir { s n with i_nlinks := (s n).i_nlinks + 1 } := hfile
  have hrefs : ∀ m, refs (update (update s d x') n
      { s n with i_nlinks := (s n).i_nlinks + 1 }) m = refs s m + one m n := by
    intro m
    have hsum := refs_update s x' { s n with i_nlinks := (s n).i_nlinks + 1 } hne m
    rw [hadd.names, names_not_dir hfile, names_not_dir hy] at hsum
    omega
  have htree := h.tree.edit (y := { s n with i_nlinks := (s n).i_nlinks + 1 }) hd hadd.toEdit hne
    (fun hdir => absurd hdir hy) (fun b _ hb => h.no_dots hfile hb) fun hdir => absurd hdir hy
  refine h.rebuild htree (hadd.isDir.mpr hd) (fun _ => ?_) (fun hno => ?_) ?_ fun m hmn _ => ?_
  · rw [hrefs, ← h.links n hn, one_self]
    exact toNat_up hroom
  · exact absurd (hno.symm.trans hn) Bool.false_ne_true
  · rw [hrefs, hadd.i_nlinks, one_ne hne.symm, h.links d hd.1]
    rfl
  · rw [hrefs, one_ne hmn]
    rfl

/-- A new directory gets its name, and `..` names the old one. -/
theorem Consistent.mkdir (h : Consistent s) {x' y : Inode M} {j : Nat}
    (hn : (s n).allocated = false) (hd : IsDir (s d)) (hadd : Added (s d) x' j n)
    (hy : IsDir y) (hlinks : y.i_nlinks = 2)
    (hentries : y.entries = [⟨some n, dot⟩, ⟨some d, dotdot⟩])
    (hroom : (s d).i_nlinks ≠ 255) :
    Consistent (update (update s d { x' with i_nlinks := x'.i_nlinks + 1 }) n y) := by
  have hne : n ≠ d := by
    rintro rfl
    exact not_dir_of_free hn hd
  have hedit : Edit (s d) { x' with i_nlinks := x'.i_nlinks + 1 } j n :=
    ⟨hadd.le, hadd.isDir, hadd.others, hadd.old, hadd.new⟩
  have hnames : ∀ m, names m { x' with i_nlinks := x'.i_nlinks + 1 } = names m x' := fun _ => rfl
  have hdots : ∀ m, names m y = one m n + one m d := by
    intro m
    rw [names, if_pos hy, hentries, List.countP_cons, List.countP_singleton, count_one,
      count_one, Nat.add_comm]
  have hrefs : ∀ m, refs (update (update s d { x' with i_nlinks := x'.i_nlinks + 1 }) n y) m =
      refs s m + one m n + (one m n + one m d) := by
    intro m
    have hsum := refs_update s { x' with i_nlinks := x'.i_nlinks + 1 } y hne m
    rw [hnames, hadd.names, names_not_dir (not_dir_of_free hn), hdots] at hsum
    omega
  have htree := h.tree.edit (y := y) hd hedit hne (fun _ => .inr ⟨hentries, hadd.at_⟩)
    (fun b _ hb => h.no_dots (not_dir_of_free hn) hb) fun _ b k hb _ => h.unnamed hn hb
  refine h.rebuild htree (hadd.isDir.mpr hd) (fun _ => ?_) (fun hno => ?_) ?_ fun m hmn hmd => ?_
  · rw [hrefs, h.named n hn, hlinks, one_self, one_ne hne]
    rfl
  · exact absurd (hno.symm.trans hy.1) Bool.false_ne_true
  · rw [hrefs, one_ne hne.symm, one_self]
    dsimp only
    rw [hadd.i_nlinks, toNat_up hroom, h.links d hd.1]
  · rw [hrefs, one_ne hmn, one_ne hmd]
    rfl

/-- An inode that is no directory loses a name. -/
theorem Consistent.unlink (h : Consistent s) {x' : Inode M} {j : Nat}
    (hn : (s n).allocated = true) (hfile : ¬ IsDir (s n)) (hd : IsDir (s d))
    (hclear : Cleared (s d) x' j n) :
    Consistent (update (update s d x') n { s n with i_nlinks := (s n).i_nlinks - 1 }) := by
  have hne : n ≠ d := by
    rintro rfl
    exact hfile hd
  have hy : ¬ IsDir { s n with i_nlinks := (s n).i_nlinks - 1 } := hfile
  have hrefs : ∀ m, refs (update (update s d x') n
      { s n with i_nlinks := (s n).i_nlinks - 1 }) m + one m n = refs s m := by
    intro m
    have hsum := refs_update s x' { s n with i_nlinks := (s n).i_nlinks - 1 } hne m
    rw [← hclear.names, names_not_dir hfile, names_not_dir hy] at hsum
    omega
  have hpos : (s n).i_nlinks ≠ 0 := by
    intro hzero
    have hlinks := h.links n hn
    rw [hzero] at hlinks
    exact absurd hlinks (Nat.ne_of_lt (hclear.was.refs_pos hd))
  have htree := h.tree.edit (y := { s n with i_nlinks := (s n).i_nlinks - 1 }) hd hclear.toEdit
    hne (fun hdir => absurd hdir hy) (fun b _ hb => h.no_dots hfile hb) fun hdir =>
    absurd hdir hy
  refine h.rebuild htree (hclear.isDir.mpr hd) (fun _ => ?_) (fun hno => ?_) ?_ fun m hmn _ => ?_
  · have hself := hrefs n
    rw [one_self, ← h.links n hn, ← toNat_down hpos] at hself
    exact (Nat.succ.inj hself).symm
  · exact absurd (hno.symm.trans hn) Bool.false_ne_true
  · rw [hclear.i_nlinks, h.links d hd.1, ← hrefs d, one_ne hne.symm]
    rfl
  · rw [← hrefs m, one_ne hmn]
    rfl

theorem emptyDir_spec {x : Inode M} (h : emptyDir x n = true) :
    (∃ u, x.entries[0]? = some ⟨some n, dot⟩ ∧ x.entries[1]? = some ⟨some u, dotdot⟩) ∧
      ∀ k m, 2 ≤ k → ¬ Names x k m := by
  unfold emptyDir at h
  split at h
  · rename_i e e' rest hentries
    obtain ⟨hdots, hrest⟩ := (Bool.and_eq_true _ _).mp h
    obtain ⟨hn, hu, hdot, hdotdot⟩ := of_decide_eq_true hdots
    obtain ⟨u, hu⟩ := Option.isSome_iff_exists.mp hu
    refine ⟨⟨u, ?_, ?_⟩, ?_⟩
    · rw [hentries, ← hn, ← hdot]
      rfl
    · rw [hentries, ← hu, ← hdotdot]
      rfl
    · rintro k m hk ⟨label, hget⟩
      obtain ⟨i, rfl⟩ : ∃ i, k = i + 2 := ⟨k - 2, by omega⟩
      rw [hentries, List.getElem?_cons_succ, List.getElem?_cons_succ] at hget
      have hnone := List.all_eq_true.mp hrest _ (List.mem_of_getElem? hget)
      cases hnone
  · cases h

/-- An empty directory is removed from the one where it has its name, and freed. -/
theorem Consistent.rmdir (h : Consistent s) {x' : Inode M} {j : Nat} (hn : IsDir (s n))
    (hempty : emptyDir (s n) n = true) (hd : IsDir (s d)) (hne : n ≠ d)
    (hclear : Cleared (s d) x' j n) :
    Consistent (update (update s d { x' with i_nlinks := x'.i_nlinks - 1 }) n .free) := by
  obtain ⟨⟨u, hdot, hdotdot⟩, hrest⟩ := emptyDir_spec hempty
  have hdots : Dots s n u := ⟨hdot, hdotdot⟩
  obtain rfl : u = d := h.tree.child d n j u hd hclear.le hclear.was hn hdots
  have hup : ∀ b, b ≠ n → IsDir (s b) → ¬ Dots s b n := by
    intro b hbn hb hu
    obtain ⟨k, hk, hkb⟩ := (h.tree.parent b n hb hu).2 (Ne.symm hbn)
    exact hrest k b hk hkb
  have hedit : Edit (s u) { x' with i_nlinks := x'.i_nlinks - 1 } j n :=
    ⟨hclear.le, hclear.isDir, hclear.others, hclear.old, hclear.new⟩
  have htree := h.tree.edit (y := .free) hd hedit hne (fun hdir => absurd hdir free_not_dir) hup
    fun hdir => absurd hdir free_not_dir
  have hnames : ∀ m, names m { x' with i_nlinks := x'.i_nlinks - 1 } = names m x' := fun _ => rfl
  -- `.` and `..` go with the directory
  have hown : ∀ m, names m (s n) = one m n + one m u := by
    intro m
    have hentries : ∃ rest, (s n).entries = ⟨some n, dot⟩ :: ⟨some u, dotdot⟩ :: rest ∧
        ∀ e ∈ rest, e.inode = none := by
      cases hcase : (s n).entries with
      | nil =>
          rw [hcase] at hdot
          cases hdot
      | cons e rest =>
          cases rest with
          | nil =>
              rw [hcase] at hdotdot
              cases hdotdot
          | cons e' rest =>
              rw [hcase] at hdot hdotdot
              obtain rfl := Option.some.inj hdot
              obtain rfl : e' = ⟨some u, dotdot⟩ := Option.some.inj hdotdot
              refine ⟨rest, rfl, fun e he => ?_⟩
              obtain ⟨i, hi, rfl⟩ := List.mem_iff_getElem.mp he
              by_contra hsome
              obtain ⟨m, hm⟩ := Option.ne_none_iff_exists'.mp hsome
              refine hrest (i + 2) m (by omega) ⟨rest[i].label, ?_⟩
              rw [hcase, List.getElem?_cons_succ, List.getElem?_cons_succ,
                List.getElem?_eq_getElem hi, ← hm]
    obtain ⟨rest, heq, hnone⟩ := hentries
    have hzero : rest.countP (fun e => e.inode = some m) = 0 := by
      refine List.countP_eq_zero.mpr fun e he => ?_
      rw [hnone e he, decide_eq_true_eq]
      exact fun hno => nomatch hno
    rw [names, if_pos hn, heq, List.countP_cons, List.countP_cons, hzero, count_one, count_one]
    omega
  have hrefs : ∀ m, refs (update (update s u { x' with i_nlinks := x'.i_nlinks - 1 }) n .free) m +
      one m n + (one m n + one m u) = refs s m := by
    intro m
    have hsum := refs_update s { x' with i_nlinks := x'.i_nlinks - 1 } .free hne m
    rw [hnames, ← hclear.names, names_not_dir free_not_dir, hown] at hsum
    omega
  have hlinks := h.links u hd.1
  have hpos : (s u).i_nlinks ≠ 0 := by
    intro hzero
    have hself := hrefs u
    rw [one_self, ← hlinks, hzero] at hself
    have hzero' : (0 : UInt8).toNat = 0 := rfl
    omega
  -- no other entry has named the directory
  have hgone : ∀ b k, IsDir (s b) → Names (s b) k n → b = n ∧ k = 0 ∨ b = u ∧ k = j := by
    intro b k hb hk
    rcases h.tree.dots b hb with hnil | ⟨v, hv⟩
    · exact absurd hnil hk.ne_nil
    · have hcases : k = 0 ∨ k = 1 ∨ 2 ≤ k := by omega
      rcases hcases with rfl | rfl | hle
      · obtain ⟨label, hget⟩ := hk
        rw [hv.dot] at hget
        cases hget
        exact .inl ⟨rfl, rfl⟩
      · obtain ⟨label, hget⟩ := hk
        rw [hv.dotdot] at hget
        cases hget
        rcases eq_or_ne b n with rfl | hbn
        · have hsame := hv.dotdot.symm.trans hdots.dotdot
          cases hsame
          exact absurd rfl hne
        · exact absurd hv (hup b hbn hb)
      · obtain rfl := h.tree.child b n k u hb hle hk hn hdots
        exact .inr ⟨rfl, h.tree.once u n k j hb hle hclear.le hn hk hclear.was⟩
  have hunnamed : refs (update (update s u { x' with i_nlinks := x'.i_nlinks - 1 }) n .free) n =
      0 := by
    refine tally_eq_zero fun b => ?_
    rcases eq_or_ne b n with rfl | hbn
    · rw [update_self]
      exact names_not_dir free_not_dir b
    · rw [update_of_ne hbn]
      rcases eq_or_ne b u with rfl | hbu
      · rw [update_self, hnames]
        refine names_eq_zero fun k hk => ?_
        rcases eq_or_ne k j with rfl | hkj
        · exact hclear.gone n hk
        · obtain ⟨label, hget⟩ := hk
          rw [hclear.others k hkj] at hget
          rcases hgone b k hd ⟨label, hget⟩ with ⟨hbn', -⟩ | ⟨-, hkj'⟩
          · exact hbn hbn'
          · exact hkj hkj'
      · rw [update_of_ne hbu]
        by_cases hb : IsDir (s b)
        · refine names_eq_zero fun k hk => ?_
          rcases hgone b k hb hk with ⟨hbn', -⟩ | ⟨hbu', -⟩
          · exact hbn hbn'
          · exact hbu hbu'
        · exact names_not_dir hb n
  refine h.rebuild htree (hclear.isDir.mpr hd) (fun hno => nomatch hno) (fun _ => hunnamed) ?_
    fun m hmn hmu => ?_
  · have hself := hrefs u
    rw [one_ne hne.symm, one_self, ← hlinks, ← toNat_down hpos] at hself
    have hcount : (x'.i_nlinks - 1).toNat = ((s u).i_nlinks - 1).toNat :=
      congrArg (fun c => (c - 1).toNat) hclear.i_nlinks
    refine hcount.trans ?_
    omega
  · rw [← hrefs m, one_ne hmn, one_ne hmu]
    rfl

/-! ## The calls keep the file system consistent -/

theorem Consistent.named_by (h : Consistent s) {k : Nat} (hk : Names (s d) k n)
    (hd : IsDir (s d)) : (s n).allocated = true := by
  by_contra hno
  exact h.unnamed (Bool.not_eq_true _ ▸ hno) hd hk

theorem newInode_spec (h : newInode s = some (n, s')) :
    (s n).allocated = false ∧ s' = update s n .new := by
  unfold newInode at h
  split at h
  · rename_i m hfind
    obtain ⟨rfl, rfl⟩ := Prod.mk.inj (Option.some.inj h)
    have hfree := List.find?_some hfind
    exact ⟨of_decide_eq_true hfree, rfl⟩
  · cases h

/-- `iput` changes no more than the count of an inode with links. -/
theorem same_iput (h : (s n).i_nlinks ≠ 0) (m : Fin M) : Same (iput s n m) (s m) := by
  unfold iput
  split
  · exact same_count s n _ m
  · exact same_count s n _ m

theorem addEntry_ne_nil {x x' : Inode M} {name : List UInt8} (h : addEntry x name n = some x') :
    x.entries ≠ [] := by
  intro hnil
  rw [addEntry, if_pos hnil] at h
  cases h

/-- A directory that takes an entry has `.` and `..`. -/
theorem Consistent.add (h : Consistent s) (hd : IsDir (s d)) {name : List UInt8} {x' : Inode M}
    (hadd : addEntry (s d) name n = some x') : ∃ j, Added (s d) x' j n := by
  rcases h.tree.dots d hd with hnil | ⟨u, hu⟩
  · exact absurd hnil (addEntry_ne_nil hadd)
  · exact addEntry_spec hd hu.dot hu.dotdot hadd

theorem enter_spec {name : List UInt8} {space : Bool} (h : enter s d n name space = some s') :
    space = true ∧ ∃ x', addEntry (s d) name n = some x' ∧ s' = update s d x' := by
  unfold enter at h
  split at h
  · rename_i x hx
    obtain rfl := Option.some.inj h
    obtain ⟨hspace, hadd⟩ := Option.ite_none_right_eq_some.mp hx
    exact ⟨hspace, x, hadd, rfl⟩
  · cases h

theorem Consistent.enter (h : Consistent s) (hd : IsDir (s d)) (hn : (s n).allocated = false)
    {y : Inode M} {name : List UInt8} {space : Bool}
    (he : enter (update s n y) d n name space = some s') :
    space = true ∧ (s d).entries ≠ [] ∧ n ≠ d ∧
      ∃ x' j, Added (s d) x' j n ∧ s' = update (update s d x') n y := by
  have hne : n ≠ d := by
    rintro rfl
    exact not_dir_of_free hn hd
  obtain ⟨hspace, x', hadd, rfl⟩ := enter_spec he
  rw [update_of_ne hne.symm] at hadd
  obtain ⟨j, hadded⟩ := h.add hd hadd
  exact ⟨hspace, addEntry_ne_nil hadd, hne, x', j, hadded, update_comm hne _ _ _⟩

/-- A new inode that did not get a name. -/
theorem Consistent.unlinked (h : Consistent s) (hn : (s n).allocated = false) {y : Inode M}
    (hentries : y.entries = []) {i_nlinks : UInt8} (hzero : i_nlinks = 0) :
    Consistent (setLinks (update s n y) n i_nlinks) := by
  unfold setLinks
  rw [update_idem, update_self]
  exact h.bare (h.named n hn) hzero hentries

theorem isDir_iget (s : Fs M) (n : Fin M) (h : IsDir (s d)) : IsDir (iget s n d) :=
  (same_iget s n d).isDir.mpr h

theorem Consistent.openNamei (h : Consistent s) (hd : IsDir (s d)) (name : List UInt8)
    (root perm space excl : Bool) : Consistent (openNamei s d name root perm space excl) := by
  have h₁ := h.iget d
  have hd₁ := isDir_iget s d hd
  unfold LinkCounts.openNamei
  dsimp only
  split
  · split
    · exact h₁.iput d
    · split
      · exact h₁.iput d
      · rename_i n s₂ hnew
        obtain ⟨hn, rfl⟩ := newInode_spec hnew
        split
        · refine ((h₁.unlinked hn rfl ?_).iput n).iput d
          rw [update_self]
          exact UInt8.sub_self 1
        · rename_i s₃ henter
          obtain ⟨-, -, -, x', j, hadd, rfl⟩ := h₁.enter hd₁ hn henter
          exact (h₁.create hn hd₁ hadd rfl rfl rfl).iput d
  · rename_i k n hfind
    cases excl
    · exact (h₁.iput d).iget n
    · exact h₁.iput d

theorem iput_unlinked (hcount : ¬ (s n).i_count > 1) (hlinks : (s n).i_nlinks = 0) :
    iput s n = update s n .free := by
  rw [iput, if_neg hcount, if_pos hlinks]

theorem iput_of_ne (s : Fs M) {m : Fin M} (hne : m ≠ d) : iput s d m = s m := by
  unfold iput
  split
  · exact update_of_ne hne _ _
  · split
    · exact update_of_ne hne _ _
    · exact update_of_ne hne _ _

theorem iput_update {y : Inode M} (hne : n ≠ d) :
    iput (update s n y) d = update (iput s d) n y := by
  unfold iput
  rw [update_of_ne hne.symm]
  split
  · exact update_comm hne _ _ _
  · split
    · exact update_comm hne _ _ _
    · exact update_comm hne _ _ _

/-- A new inode that did not get a name, when `iput` has given up the directory. -/
theorem Consistent.unlinked_iput (h : Consistent s) (hd : IsDir (s d))
    (hn : (s n).allocated = false) {y : Inode M} (hentries : y.entries = []) {i_nlinks : UInt8}
    (hzero : i_nlinks = 0) :
    Consistent (setLinks (LinkCounts.iput (update s n y) d) n i_nlinks) := by
  have hne : n ≠ d := by
    rintro rfl
    exact not_dir_of_free hn hd
  rw [iput_update hne]
  refine (h.iput d).unlinked ?_ hentries hzero
  rw [iput_of_ne s hne]
  exact hn

theorem Consistent.sysMknod (h : Consistent s) (hd : IsDir (s d)) (name : List UInt8)
    (root perm space isdir : Bool) : Consistent (sysMknod s d name root perm space isdir) := by
  have h₁ := h.iget d
  have hd₁ := isDir_iget s d hd
  unfold LinkCounts.sysMknod
  dsimp only
  split
  · exact h₁.iput d
  · split
    · exact h₁.iput d
    · split
      · exact h₁.iput d
      · rename_i n s₂ hnew
        obtain ⟨hn, rfl⟩ := newInode_spec hnew
        rw [update_idem, update_self]
        split
        · refine Consistent.iput ?_ n
          exact h₁.unlinked_iput hd₁ hn rfl rfl
        · rename_i s₃ henter
          obtain ⟨-, -, -, x', j, hadd, rfl⟩ := h₁.enter hd₁ hn henter
          exact ((h₁.create hn hd₁ hadd rfl rfl rfl).iput d).iput n

/-- What a call finds: it is not made where a count would have to go beyond 255. -/
def Room (s : Fs M) : Call M → Prop
  | .sysMkdir d name root perm block space =>
      perm = true → findEntry (s d) (special root name) = none →
        (∃ n, (s n).allocated = false) → block = true → space = true → (s d).entries ≠ [] →
        (s d).i_nlinks ≠ 255
  | .sysLink old d name root perm space =>
      (s old).dir = false → perm = true → findEntry (s d) (special root name) = none →
        space = true → (s d).entries ≠ [] → (s old).i_nlinks ≠ 255
  | _ => True

theorem findEntry_iget (s : Fs M) (name : List UInt8) :
    findEntry (iget s n d) name = findEntry (s d) name := by
  unfold findEntry
  rw [(same_iget s n d).entries]

theorem i_nlinks_iget (s : Fs M) (m : Fin M) : (iget s n m).i_nlinks = (s m).i_nlinks :=
  (same_iget s n m).i_nlinks

theorem Consistent.sysMkdir (h : Consistent s) (hd : IsDir (s d)) {name : List UInt8}
    {root perm block space : Bool} (hroom : Room s (.sysMkdir d name root perm block space))
    (hs : sysMkdir s d name root perm block space = some s') : Consistent s' := by
  have h₁ := h.iget d
  have hd₁ := isDir_iget s d hd
  unfold LinkCounts.sysMkdir at hs
  dsimp only at hs
  split at hs
  · obtain rfl := Option.some.inj hs
    exact h₁.iput d
  · rename_i hperm
    split at hs
    · obtain rfl := Option.some.inj hs
      exact h₁.iput d
    · rename_i hfind
      split at hs
      · obtain rfl := Option.some.inj hs
        exact h₁.iput d
      · rename_i n s₂ hnew
        obtain ⟨hn, rfl⟩ := newInode_spec hnew
        split at hs
        · obtain rfl := Option.some.inj hs
          refine Consistent.iput (h₁.unlinked_iput hd₁ hn rfl ?_) n
          rw [iput_update (by rintro rfl; exact not_dir_of_free hn hd₁), update_self]
          exact UInt8.sub_self 1
        · rename_i hblock
          rw [update_idem, update_self] at hs
          split at hs
          · cases hs
          · rename_i s₃ henter
            obtain rfl := Option.some.inj hs
            obtain ⟨hspace, hnil, hne, x', j, hadd, rfl⟩ := h₁.enter hd₁ hn henter
            have hfull : (LinkCounts.iget s d d).i_nlinks ≠ 255 := by
              rw [i_nlinks_iget]
              rw [findEntry_iget] at hfind
              refine hroom (Bool.eq_true_of_not_eq_false hperm) hfind ⟨n, ?_⟩
                (Bool.eq_true_of_not_eq_false hblock) hspace ?_
              · exact (same_iget s d n).allocated ▸ hn
              · exact (same_iget s d d).entries ▸ hnil
            refine Consistent.iput (Consistent.iput ?_ d) n
            unfold setLinks
            rw [update_of_ne hne.symm, update_self, update_comm hne, update_idem]
            exact h₁.mkdir hn hd₁ hadd ⟨rfl, rfl⟩ rfl rfl hfull

theorem same_setLinks (hs : ∀ m, Same (s' m) (s m)) (n : Fin M) (i_nlinks : UInt8) (m : Fin M) :
    Same (setLinks s' n i_nlinks m) (setLinks s n i_nlinks m) := by
  unfold setLinks
  rcases eq_or_ne m n with rfl | hne
  · rw [update_self, update_self]
    exact ⟨(hs m).allocated, (hs m).dir, rfl, (hs m).entries⟩
  · rw [update_of_ne hne, update_of_ne hne]
    exact hs m

/-- A directory with entries has a link: `.` names it. -/
theorem Consistent.dir_links (h : Consistent s) (hd : IsDir (s d)) (hnil : (s d).entries ≠ []) :
    (s d).i_nlinks ≠ 0 := by
  intro hzero
  rcases h.tree.dots d hd with hno | ⟨u, hu⟩
  · exact hnil hno
  · have hlinks := h.links d hd.1
    rw [hzero] at hlinks
    exact absurd hlinks (Nat.ne_of_lt (hu.self.refs_pos hd))

theorem Consistent.sysLink (h : Consistent s) {old : Fin M} (ho : (s old).allocated = true)
    (hd : IsDir (s d)) {name : List UInt8} {root perm space : Bool}
    (hroom : Room s (.sysLink old d name root perm space)) :
    Consistent (sysLink s old d name root perm space) := by
  have h₁ := h.iget old
  have h₂ := h₁.iget d
  have hd₂ := isDir_iget _ d (isDir_iget s old hd)
  unfold LinkCounts.sysLink
  dsimp only
  split
  · exact h₁.iput old
  · rename_i hfile
    split
    · exact (h₂.iput d).iput old
    · rename_i hperm
      split
      · exact (h₂.iput d).iput old
      · rename_i hfind
        split
        · exact (h₂.iput d).iput old
        · rename_i s₃ henter
          obtain ⟨hspace, x', hadd, rfl⟩ := enter_spec henter
          have hnil := addEntry_ne_nil hadd
          have hlinks := h₂.dir_links hd₂ hnil
          obtain ⟨j, hadded⟩ := h₂.add hd₂ hadd
          have hsame : ∀ m, Same (LinkCounts.iget (LinkCounts.iget s old) d m) (s m) := fun m =>
            (same_iget _ d m).trans (same_iget s old m)
          have hnot : (s old).dir = false :=
            Bool.eq_false_of_not_eq_true fun htrue => hfile ((same_iget s old old).dir ▸ htrue)
          have hfile₂ : ¬ IsDir (LinkCounts.iget (LinkCounts.iget s old) d old) := fun hdir =>
            Bool.false_ne_true (hnot.symm.trans ((hsame old).isDir.mp hdir).2)
          have hne : old ≠ d := by
            rintro rfl
            exact hfile₂ hd₂
          have hfull : (LinkCounts.iget (LinkCounts.iget s old) d old).i_nlinks ≠ 255 := by
            rw [i_nlinks_iget, i_nlinks_iget]
            rw [findEntry_iget, findEntry_iget] at hfind
            rw [(hsame d).entries] at hnil
            exact hroom hnot (Bool.eq_true_of_not_eq_false hperm) hfind hspace hnil
          have hlink := h₂.link ((hsame old).allocated.trans ho) hfile₂ hd₂ hadded hfull
          refine Consistent.iput (hlink.congr fun m => ?_) old
          rw [iput_of_ne _ hne, update_of_ne hne]
          have hkeep := same_iput (s := update (LinkCounts.iget (LinkCounts.iget s old) d) d x')
            (n := d) (by rw [update_self, hadded.i_nlinks]; exact hlinks)
          have hset := same_setLinks hkeep old
            ((LinkCounts.iget (LinkCounts.iget s old) d old).i_nlinks + 1) m
          unfold setLinks at hset ⊢
          rwa [update_of_ne hne] at hset

theorem Consistent.behind (h : Consistent s) (hd : IsDir (s d)) {k : Nat} (hk : Names (s d) k n)
    (hfile : ¬ IsDir (s n)) : 2 ≤ k := by
  rcases h.tree.dots d hd with hnil | ⟨u, hu⟩
  · exact absurd hnil hk.ne_nil
  · by_contra hlt
    have hcases : k = 0 ∨ k = 1 := by omega
    obtain ⟨label, hget⟩ := hk
    rcases hcases with rfl | rfl
    · rw [hu.dot] at hget
      cases hget
      exact hfile hd
    · rw [hu.dotdot] at hget
      cases hget
      exact hfile (h.tree.parent d n hd hu).1

theorem Consistent.sysUnlink (h : Consistent s) (hd : IsDir (s d)) (name : List UInt8)
    (root perm sticky : Bool) : Consistent (sysUnlink s d name root perm sticky) := by
  have h₁ := h.iget d
  have hd₁ := isDir_iget s d hd
  unfold LinkCounts.sysUnlink
  dsimp only
  split
  · exact h₁.iput d
  · split
    · exact h₁.iput d
    · rename_i k n hfind
      have h₂ := h₁.iget n
      have hd₂ := isDir_iget _ n hd₁
      split
      · exact (h₂.iput d).iput n
      · split
        · exact (h₂.iput n).iput d
        · rename_i hfile
          generalize hs₂ : LinkCounts.iget (LinkCounts.iget s d) n = s₂ at *
          have hk : Names (s₂ d) k n := by
            rw [← hs₂]
            exact (same_iget _ n d).namesAt.mpr (findEntry_spec hfind)
          have hn := h₂.named_by hk hd₂
          have hfile₂ : ¬ IsDir (s₂ n) := fun hdir => hfile hdir.2
          have hne : n ≠ d := by
            rintro rfl
            exact hfile₂ hd₂
          have hlinks : (s₂ n).i_nlinks ≠ 0 := by
            intro hzero
            have heq := h₂.links n hn
            rw [hzero] at heq
            exact absurd heq (Nat.ne_of_lt (hk.refs_pos hd₂))
          have hclear := clearEntry_spec hd₂ (h₂.behind hd₂ hk hfile₂) hk
          rw [if_neg hlinks, setLinks, update_of_ne hne]
          exact ((h₂.unlink hn hfile₂ hd₂ hclear).iput n).iput d

/-- An empty directory has its name in the one above. -/
theorem Consistent.behind_empty (h : Consistent s) (hd : IsDir (s d)) {k : Nat}
    (hk : Names (s d) k n) (hne : n ≠ d) (hempty : emptyDir (s n) n = true) : 2 ≤ k := by
  rcases h.tree.dots d hd with hnil | ⟨u, hu⟩
  · exact absurd hnil hk.ne_nil
  · by_contra hlt
    have hcases : k = 0 ∨ k = 1 := by omega
    obtain ⟨label, hget⟩ := hk
    rcases hcases with rfl | rfl
    · rw [hu.dot] at hget
      cases hget
      exact hne rfl
    · rw [hu.dotdot] at hget
      cases hget
      obtain ⟨i, hi, hname⟩ := (h.tree.parent d n hd hu).2 hne
      exact (emptyDir_spec hempty).2 i d hi hname

theorem Consistent.sysRmdir (h : Consistent s) (hd : IsDir (s d)) (name : List UInt8)
    (root perm sticky : Bool) : Consistent (sysRmdir s d name root perm sticky) := by
  have h₁ := h.iget d
  have hd₁ := isDir_iget s d hd
  unfold LinkCounts.sysRmdir
  dsimp only
  split
  · exact h₁.iput d
  · split
    · exact h₁.iput d
    · rename_i k n hfind
      have h₂ := h₁.iget n
      have hd₂ := isDir_iget _ n hd₁
      split
      · exact (h₂.iput d).iput n
      · rename_i htest
        have hone := Nat.le_of_not_lt (not_or.mp htest).2
        have hne : n ≠ d := by
          rintro rfl
          simp only [LinkCounts.iget, update_self] at hone
          omega
        split
        · exact (h₂.iput n).iput d
        · rename_i hdir
          generalize hs₂ : LinkCounts.iget (LinkCounts.iget s d) n = s₂ at *
          have hk : Names (s₂ d) k n := by
            rw [← hs₂]
            exact (same_iget _ n d).namesAt.mpr (findEntry_spec hfind)
          have hn : IsDir (s₂ n) := ⟨h₂.named_by hk hd₂, Bool.eq_true_of_not_eq_false
            (not_or.mp hdir).1⟩
          have hempty := Bool.eq_true_of_not_eq_false (not_or.mp hdir).2
          have hclear := clearEntry_spec hd₂ (h₂.behind_empty hd₂ hk hne hempty) hk
          have hrmdir := h₂.rmdir hn hempty hd₂ hne hclear
          generalize hx : clearEntry (s₂ d) k = x' at hrmdir hclear ⊢
          have hlinks : x'.i_nlinks - 1 ≠ 0 := by
            have hdir' := (hclear.isDir.mpr hd₂ : IsDir { x' with i_nlinks := x'.i_nlinks - 1 })
            have hnil : x'.entries ≠ [] := by
              rcases h₂.tree.dots d hd₂ with hno | ⟨u, hu⟩
              · exact absurd hno hk.ne_nil
              · exact Names.ne_nil (k := 0) (n := d) ⟨_, (hclear.others 0 (by
                  have := hclear.le
                  omega)).trans hu.dot⟩
            have hd₃ := update_of_ne hne.symm Inode.free
              (update s₂ d { x' with i_nlinks := x'.i_nlinks - 1 })
            rw [update_self] at hd₃
            have hpos := hrmdir.dir_links (d := d)
            rw [hd₃] at hpos
            exact hpos hdir' hnil
          unfold setLinks
          rw [update_of_ne hne, update_of_ne hne.symm, update_self, update_comm hne,
            update_idem]
          rw [iput_unlinked (n := n)]
          · refine hrmdir.congr fun m => ?_
            rcases eq_or_ne m n with rfl | hmn
            · rw [update_self, update_self]
              exact .refl _
            · rw [update_of_ne hmn, update_of_ne hmn]
              refine (same_iput ?_ m).trans ?_
              · rw [update_of_ne hne.symm, update_self]
                exact hlinks
              · rw [update_of_ne hmn]
                exact .refl _
          · rw [iput_of_ne _ hne, update_self]
            exact Nat.not_lt.mpr hone
          · rw [iput_of_ne _ hne, update_self]

theorem Consistent.step (h : Consistent s) {c : Call M} (hroom : Room s c)
    (hs : step s c = some s') : Consistent s' := by
  cases c with
  | openNamei d name root perm space excl =>
      obtain ⟨hd, hs⟩ := Option.ite_none_right_eq_some.mp hs
      obtain rfl := Option.some.inj hs
      exact h.openNamei hd name root perm space excl
  | sysMknod d name root perm space isdir =>
      obtain ⟨hd, hs⟩ := Option.ite_none_right_eq_some.mp hs
      obtain rfl := Option.some.inj hs
      exact h.sysMknod hd name root perm space isdir
  | sysMkdir d name root perm block space =>
      obtain ⟨hd, hs⟩ := Option.ite_none_right_eq_some.mp hs
      exact h.sysMkdir hd hroom hs
  | sysLink old d name root perm space =>
      obtain ⟨⟨ho, hd⟩, hs⟩ := Option.ite_none_right_eq_some.mp hs
      obtain rfl := Option.some.inj hs
      exact h.sysLink ho hd hroom
  | sysUnlink d name root perm sticky =>
      obtain ⟨hd, hs⟩ := Option.ite_none_right_eq_some.mp hs
      obtain rfl := Option.some.inj hs
      exact h.sysUnlink hd name root perm sticky
  | sysRmdir d name root perm sticky =>
      obtain ⟨hd, hs⟩ := Option.ite_none_right_eq_some.mp hs
      obtain rfl := Option.some.inj hs
      exact h.sysRmdir hd name root perm sticky
  | iput n =>
      obtain ⟨-, hs⟩ := Option.ite_none_left_eq_some.mp hs
      obtain rfl := Option.some.inj hs
      exact h.iput n

/-- The calls one after the other, in any order and with any answers of the tests: as
long as no link count has to go beyond 255, the count of each inode that is allocated is
the number of the entries that name it, `.` and `..` included, and no entry names a free
one. An unsigned char is all there is for a count, and the calls that raise it do not
test it. -/
theorem link_counts {s₀ : Fs M} (h0 : Consistent s₀) (h : Reach step Room s₀ s) :
    (∀ n, (s n).allocated = true → (s n).i_nlinks.toNat = refs s n) ∧
      ∀ n, (s n).allocated = false → refs s n = 0 := by
  have hs : Consistent s := h.invariant h0 fun _ _ _ hi hok hs => hi.step hok hs
  exact ⟨hs.links, hs.named⟩

/-! ## A root directory with a file -/

def label (i : Nat) : List UInt8 := [97 + UInt8.ofNat (i / 16), 97 + UInt8.ofNat (i % 16)]

/-- The root with `links` names of inode 1, which is there if there is a name. -/
def rooted (links : Nat) : Fs 2
  | ⟨0, _⟩ => ⟨true, true, 2, 1,
      ⟨some ⟨0, Nat.two_pos⟩, dot⟩ :: ⟨some ⟨0, Nat.two_pos⟩, dotdot⟩ ::
        (List.range links).map fun i => ⟨some ⟨1, Nat.one_lt_two⟩, label i⟩⟩
  | ⟨_ + 1, _⟩ => if links = 0 then .free else ⟨true, false, UInt8.ofNat links, 0, []⟩

theorem rooted_dots (links : Nat) : Dots (rooted links) 0 0 := ⟨rfl, rfl⟩

theorem rooted_dir {links : Nat} {d : Fin 2} (hd : IsDir (rooted links d)) : d = 0 := by
  match d with
  | ⟨0, _⟩ => rfl
  | ⟨1, _⟩ =>
      obtain ⟨-, hdir⟩ := hd
      by_cases hnone : links = 0
      · rw [rooted, if_pos hnone] at hdir
        cases hdir
      · rw [rooted, if_neg hnone] at hdir
        cases hdir

theorem rooted_names {links k : Nat} {n : Fin 2} (hk : 2 ≤ k) (h : Names (rooted links 0) k n) :
    n = 1 := by
  obtain ⟨label, hget⟩ := h
  obtain ⟨i, rfl⟩ : ∃ i, k = i + 2 := ⟨k - 2, by omega⟩
  obtain ⟨j, -, hj⟩ := List.mem_map.mp (List.mem_of_getElem? hget)
  cases hj
  rfl

theorem rooted_tree (links : Nat) : Tree (rooted links) where
  dots := fun d hd => by
    obtain rfl := rooted_dir hd
    exact .inr ⟨0, rooted_dots links⟩
  parent := fun d u hd hu => by
    obtain rfl := rooted_dir hd
    have hsame := hu.dotdot.symm.trans (rooted_dots links).dotdot
    cases hsame
    exact ⟨hd, fun hne => absurd rfl hne⟩
  child := fun d c k u hd hk hc hdir hu => by
    obtain rfl := rooted_dir hd
    obtain rfl := rooted_names hk hc
    exact absurd (rooted_dir hdir) (by decide)
  once := fun d c k k' hd hk _ hdir hc _ => by
    obtain rfl := rooted_dir hd
    obtain rfl := rooted_names hk hc
    exact absurd (rooted_dir hdir) (by decide)

theorem rooted_refs (links : Nat) : refs (rooted links) 0 = 2 ∧ refs (rooted links) 1 = links := by
  have hfile : ∀ n, names n (rooted links 1) = 0 := by
    refine names_not_dir fun hdir => ?_
    exact absurd (rooted_dir hdir) (by decide)
  have hroot : IsDir (rooted links 0) := ⟨rfl, rfl⟩
  have hsum : ∀ n, refs (rooted links) n = names n (rooted links 0) := by
    intro n
    rw [refs, tally, Fin.sum_univ_two, hfile, Nat.add_zero]
  have hcount : ∀ n, names n (rooted links 0) = 2 * one n 0 + links * one n 1 := by
    intro n
    have hlist : ∀ l : List Nat,
        (l.map fun i => (⟨some ⟨1, Nat.one_lt_two⟩, label i⟩ : Entry 2)).countP
          (fun e => e.inode = some n) = l.length * one n ⟨1, Nat.one_lt_two⟩ := by
      intro l
      induction l with
      | nil => exact (Nat.zero_mul _).symm
      | cons i l ih =>
          rw [List.map_cons, List.countP_cons, count_one, ih, List.length_cons, Nat.succ_mul]
    rw [names, if_pos hroot]
    dsimp only [rooted]
    rw [List.countP_cons, List.countP_cons, count_one, hlist, List.length_range, two_mul,
      Nat.add_comm (_ + _) (_ * _), Nat.add_assoc]
    rfl
  rw [hsum, hsum, hcount, hcount, one_self, one_self, one_ne Fin.zero_ne_one,
    one_ne Fin.zero_ne_one.symm]
  omega

theorem rooted_consistent {links : Nat} (h : links < 256) : Consistent (rooted links) where
  links := fun n hn => by
    match n with
    | ⟨0, _⟩ => exact (rooted_refs links).1.symm
    | ⟨1, _⟩ =>
        refine Eq.trans ?_ (rooted_refs links).2.symm
        by_cases hnone : links = 0
        · rw [rooted, if_pos hnone] at hn
          cases hn
        · rw [rooted, if_neg hnone]
          exact UInt8.toNat_ofNat_of_lt h
  named := fun n hn => by
    match n with
    | ⟨0, _⟩ => cases hn
    | ⟨1, _⟩ =>
        refine (rooted_refs links).2.trans ?_
        by_contra hnone
        rw [rooted, if_neg hnone] at hn
        cases hn
  tree := rooted_tree links

theorem link_counts_two : ∃ s : Fs 2,
    exec step (rooted 0) [.openNamei 0 [97] true true true false,
      .sysLink 1 0 [98] true true true] = some s ∧ (s 1).allocated = true ∧ (s 1).i_nlinks = 2 ∧
    (s 1).i_nlinks.toNat = refs s 1 := by
  have h₁ : Reach step Room (rooted 0) (rooted 0) := .start
  have h₂ := h₁.next (a := Call.openNamei 0 [97] true true true false) trivial rfl
  have h₃ := h₂.next (a := Call.sysLink 1 0 [98] true true true)
    (fun _ _ _ _ _ => by decide) rfl
  exact ⟨_, rfl, rfl, rfl, (link_counts (rooted_consistent (by decide)) h₃).1 1 rfl⟩

/-- The last of 256 links is lost: `sys_link` counts to 0, and its `iput` frees the inode. -/
theorem not_link_counts :
    ¬ ∀ {M : Nat} {s₀ s : Fs M}, Consistent s₀ → Reach step Free s₀ s →
      (∀ n, (s n).allocated = true → (s n).i_nlinks.toNat = refs s n) ∧
        ∀ n, (s n).allocated = false → refs s n = 0 := by
  intro h
  have hrun : ((exec step (rooted 255) [.sysLink 1 0 [98] true true true]).any fun s =>
      decide ((s 1).allocated = false ∧ refs s 1 = 256)) = true := by
    decide +kernel
  obtain ⟨s, hexec, hfree, hrefs⟩ := exec_any hrun
  have hzero := (h (rooted_consistent (by decide)) (exec_reach hexec)).2 1 hfree
  rw [hrefs] at hzero
  cases hzero

end LinkCounts

end Linux011
