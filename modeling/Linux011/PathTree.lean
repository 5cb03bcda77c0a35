import Linux011.InodeLedger
import Linux011.Namei

/-!
# The tree that paths are walked in

What a path means in a state in which nothing changes: entries are looked up in the directories,
`..` leads out of a mounted device, and an inode on which a device is mounted is its root.
`Tidy` says what such a tree looks like when the kernel has made it.

The first part is about a scan alone. `find_entry` stops at the first entry that matches, and
`findEntry_first` says so of the loop of `DirScan` on a directory without holes; what comes
before that entry or behind it does not matter. The second part has no code in it: `walkTo` and
`dirTo` are functions of a path and a state in which nothing is held, written over `lookup` and
`enterTo`, and end in a device and a number, or in `lost`, or in `full` where the table has no
place for an inode that is needed on the way. `Tidy` collects what the kernel keeps between
calls: the tables agree with the devices, mounts are as `sys_mount` makes them, and whatever a
directory that can be come to names is in use and has a link.
-/

namespace Linux011

open Function Super SuperBlock Zones Bmap

namespace DirScan

open Dir

/-! ## What find_entry finds -/

variable {inode : MInode} {v : Vol} {name : List UInt8} {entries i b de m : Nat}

/-- The entry at which `find_entry` stops. -/
def hit (inode : MInode) (v : Vol) (name : List UInt8) (i : Nat) : Bool :=
  matchEntry name (dataOf inode v i) (offset i)

/-- The buffer and the entry with number `m`, if there is one. -/
def foundAt (inode : MInode) (v : Vol) (entries m : Nat) : Vol × Option (Nat × Nat) :=
  if m < entries then
    (v.hold (Vol.blockOf inode v (m / DIR_ENTRIES_PER_BLOCK)),
      some (Vol.blockOf inode v (m / DIR_ENTRIES_PER_BLOCK), offset m))
  else (v, none)

/-- `m` is the first entry that matches, or behind the last one. -/
structure First (inode : MInode) (v : Vol) (name : List UInt8) (entries m : Nat) : Prop where
  le : m ≤ entries
  before : ∀ j < m, hit inode v name j = false
  here : m < entries → hit inode v name m = true
  /-- the blocks up to there are no holes -/
  dense : ∀ k, k * DIR_ENTRIES_PER_BLOCK ≤ m → k * DIR_ENTRIES_PER_BLOCK < entries →
    ¬Gone inode v k ∧ k < MAXBLOCK

theorem notFound_hold (v : Vol) (b : Nat) : notFound (v.hold b) (some b) = .ok (v, none) := by
  show (release (v.hold b) b).map (fun v => (v, none)) = _
  rw [release_hold]
  rfl

theorem findLoop_first (h : First inode v name entries m) (n : Nat) :
    ∀ {i b de : Nat}, entries ≤ i + n → i ≤ m → Place inode v i b de →
      findLoop inode name entries n (v.hold b) i (some b) de = .ok (foundAt inode v entries m) := by
  have hend : ∀ b, entries ≤ m →
      notFound (v.hold b) (some b) = .ok (foundAt inode v entries m) := by
    intro b hle
    rw [notFound_hold, foundAt, if_neg (Nat.not_lt_of_le hle)]
  induction n with
  | zero =>
      intro i b de hn him _
      exact hend b (by omega)
  | succ n ih =>
      intro i b de hn him hplace
      unfold findLoop
      by_cases hi : i < entries
      swap
      · rw [if_neg hi]
        exact hend b (by omega)
      rw [if_pos hi]
      -- the test of entry `i`, whose block is in hand
      have hbody : ∀ b, b = Vol.blockOf inode v (i / DIR_ENTRIES_PER_BLOCK) →
          ¬Gone inode v (i / DIR_ENTRIES_PER_BLOCK) →
          (if matchEntry name ((v.hold b).b_data b) (offset i) then
              .ok (v.hold b, some (b, offset i))
            else findLoop inode name entries n (v.hold b) (i + 1) (some b) (offset i + ENTRY)) =
            Except.ok (foundAt inode v entries m) := by
        rintro b rfl hgone
        cases hmatch : hit inode v name i with
        | true =>
            have hm : m = i := by
              by_contra hne
              have hbefore := h.before i (by omega)
              rw [hmatch] at hbefore
              cases hbefore
            subst hm
            rw [if_pos (show matchEntry name ((v.hold _).b_data _) _ = true from hmatch), foundAt,
              if_pos hi]
        | false =>
            have hlt : i < m := by
              by_contra hle
              obtain rfl : i = m := by omega
              rw [h.here hi] at hmatch
              cases hmatch
            rw [if_neg (show ¬matchEntry name ((v.hold _).b_data _) _ = true from
              fun hyes => Bool.false_ne_true (hmatch.symm.trans hyes))]
            exact ih (by omega) hlt (Place.next hgone)
      rcases hplace with ⟨hb, rfl, -, hgone⟩ | ⟨rfl, k, hk, rfl⟩
      · rw [nextBlock_inside _ _ _ _ _ (offset_lt i)]
        exact hbody b hb hgone
      · have hdiv : k * DIR_ENTRIES_PER_BLOCK / DIR_ENTRIES_PER_BLOCK = k :=
          Nat.mul_div_cancel k (by decide)
        obtain ⟨hgone, hmax⟩ := h.dense k him hi
        obtain ⟨hzero, hbad⟩ := not_or.mp hgone
        have hthis := hbody (Vol.blockOf inode v k) (by rw [hdiv]) (hdiv.symm ▸ hgone)
        rw [offset_end] at hthis
        rw [nextBlock_end, Vol.bmap_read _ _ hmax]
        dsimp only
        rw [if_neg hzero, if_neg hbad]
        exact hthis

theorem findEntry_first (hname : name ≠ []) (hlen : name.length ≤ NAME_LEN)
    (hgone : ¬Gone inode v 0) (h : First inode v name entries m) :
    findEntry false entries inode v name = .ok (foundAt inode v entries m) := by
  have htake : name.take NAME_LEN = name := List.take_of_length_le hlen
  obtain ⟨hzero, hbad⟩ := not_or.mp hgone
  have hzone : ¬inode.i_zone 0 = 0 := hzero
  have hgood : v.bad (inode.i_zone 0) = false := Bool.not_eq_true _ ▸ hbad
  unfold findEntry
  dsimp only
  rw [htake, if_neg fun h => hname (List.length_eq_zero_iff.mp h), if_neg hzone,
    Vol.bread_of_good hgood, if_neg fun h => Bool.false_ne_true h.2]
  exact findLoop_first h entries (by omega) (Nat.zero_le m) (.inl ⟨rfl, rfl, .inl rfl, hgone⟩)

end DirScan

namespace Namei

open Inodes (Entry NR_INODE ROOT_INO)
open Dir (getInode NAME_LEN ENTRY DIR_ENTRIES_PER_BLOCK)
open Truncate (S_ISDIR)

/-! ## What a path means -/

def DInode.file (d : DInode) : MInode := ⟨d.i_size, d.i_zone, false⟩

/-- The inode with number `nr` as `permission` sees it. -/
def inodeAt (s : State) (dev nr : Nat) : Inode :=
  { Inode.zero with toDInode := node s dev nr, i_dev := dev, i_num := nr }

/-- The number of entries of a directory. -/
def entries (s : State) (dev nr : Nat) : Nat := (node s dev nr).i_size / ENTRY

/-- The number in entry `m` of a directory. -/
def entryInode (s : State) (dev nr m : Nat) : Nat :=
  getInode (DirScan.dataOf (node s dev nr).file (s.vol dev) m) (DirScan.offset m)

/-- Where a name is looked for, and the name: `..` in the root of the task is `.`, and in the root
of a mounted device it is that of the directory below. -/
def exchanged (c : Current) (s : State) (dev nr : Nat) (name : List UInt8) :
    (Nat × Nat) × List UInt8 :=
  if name = [46, 46] then
    if (dev, nr) = (s.inode_table c.root).key then ((dev, nr), [46])
    else if nr = ROOT_INO then
      match (getSuper s dev).bind fun k => (s.super_block k).s_imount with
      | none => ((dev, nr), name)
      | some m => ((s.inode_table m).key, name)
    else ((dev, nr), name)
  else ((dev, nr), name)

/-- The first of `n` entries of a directory that has the name. -/
def firstEntry (s : State) (dev nr : Nat) (name : List UInt8) (n : Nat) : Option Nat :=
  (List.range n).find? fun m => DirScan.hit (node s dev nr).file (s.vol dev) name m

/-- The device and the number that a name of a directory stands for. -/
def lookup (c : Current) (s : State) (dev nr : Nat) (name : List UInt8) : Option (Nat × Nat) :=
  let name := name.take NAME_LEN
  if name = [] then none
  else
    let (dir, name) := exchanged c s dev nr name
    (firstEntry s dir.1 dir.2 name (entries s dev nr)).map fun m =>
      (dir.1, entryInode s dir.1 dir.2 m)

/-- Where a path comes to. -/
inductive Way where
  | lost
  | leads (dev nr : Nat)
  /-- an inode has to be got, and the table is full -/
  | crowded
deriving DecidableEq

def Way.bind (w : Way) (f : Nat → Nat → Way) : Way :=
  match w with
  | .lost => .lost
  | .leads dev nr => f dev nr
  | .crowded => .crowded

instance (s : State) (es : List Entry) : Decidable (Spared s es) :=
  inferInstanceAs (Decidable (∃ i, (s.inode_table i).i_count + es.count i = 0))

/-- The inode with number `nr`, or the root of the device that is mounted there, while the entries
`es` are in hand. -/
def enterTo (s : State) (es : List Entry) (dev nr : Nat) : Way :=
  if Spared s es then .leads (cross s dev nr).1 (cross s dev nr).2 else .crowded

/-- The inode that a name of a directory stands for. -/
def lookTo (c : Current) (s : State) (es : List Entry) (dev nr : Nat) (name : List UInt8) : Way :=
  match lookup c s dev nr name with
  | none => .lost
  | some (dev, nr) => enterTo s es dev nr

/-- The directory that a path goes through may be searched. -/
def Searchable (c : Current) (s : State) (dev nr : Nat) : Prop :=
  S_ISDIR (node s dev nr).i_mode ∧ permission c (inodeAt s dev nr) MAY_EXEC = true

instance (c : Current) (s : State) (dev nr : Nat) : Decidable (Searchable c s dev nr) :=
  inferInstanceAs (Decidable (_ ∧ _))

def walkTo (c : Current) (s : State) (es : List Entry) : List (List UInt8) → Nat → Nat → Way
  | [], dev, nr => if Searchable c s dev nr then .leads dev nr else .lost
  | name :: names, dev, nr =>
      if Searchable c s dev nr then (lookTo c s es dev nr name).bind (walkTo c s es names)
      else .lost

/-- The directory of a path. -/
def dirTo (c : Current) (s : State) (es : List Entry) (path : List UInt8) : Way :=
  match start c path with
  | none => .lost
  | some (i, path) =>
      walkTo c s es (names path).dropLast (s.inode_table i).i_dev (s.inode_table i).i_num

/-- The inode that is opened to be read. -/
def readTo (c : Current) (s : State) (path : List UInt8) : Way :=
  (dirTo c s [] path).bind fun dev nr =>
    if basename path = [] then .leads dev nr
    else (lookTo c s [] dev nr (basename path)).bind fun dev nr =>
      if permission c (inodeAt s dev nr) (ACC_MODE O_RDONLY) = true then .leads dev nr else .lost

/-! ## A tree that is whole -/

/-- The inode is in use and has a link. -/
structure Linked (s : State) (dev nr : Nat) : Prop extends Live s dev nr where
  nlinks : (node s dev nr).i_nlinks ≠ 0

/-- A directory as the kernel makes it. -/
structure Directory (s : State) (dev nr : Nat) : Prop where
  two : 2 ≤ entries s dev nr
  /-- there are no holes -/
  dense : ∀ k, k * DIR_ENTRIES_PER_BLOCK < entries s dev nr →
    Vol.blockOf (node s dev nr).file (s.vol dev) k ≠ 0 ∧ k < MAXBLOCK
  dots : DirScan.Dots nr (DirScan.dataOf (node s dev nr).file (s.vol dev) 0)
  linked : ∀ m < entries s dev nr, entryInode s dev nr m ≠ 0 →
    Linked s dev (entryInode s dev nr m)

/-- The tables and the devices as they are between calls: whatever a directory that can be come to
names is in use and has a link. -/
structure Tidy (c : Current) (s : State) : Prop where
  sound : Sound s
  table : Table s
  mounts : Mounts s
  room : Room s []
  live : ∀ i, (s.inode_table i).i_dev ≠ 0 →
    Live s (s.inode_table i).i_dev (s.inode_table i).i_num
  root : 0 < (s.inode_table c.root).i_count ∧ (s.inode_table c.root).i_dev ≠ 0
  pwd : 0 < (s.inode_table c.pwd).i_count ∧ (s.inode_table c.pwd).i_dev ≠ 0
  directory : ∀ dev nr, Linked s dev nr → S_ISDIR (node s dev nr).i_mode → Directory s dev nr
  /-- a device is mounted on a directory -/
  point : ∀ k m, (s.super_block k).s_imount = some m →
    (s.inode_table m).i_nlinks ≠ 0 ∧ S_ISDIR (s.inode_table m).i_mode
  top : ∀ k m, (s.super_block k).s_imount = some m → Linked s (s.super_block k).s_dev ROOT_INO

end Namei

end Linux011
