import Linux011.NewName
import Linux011.PathCalls
import Linux011.ZoneRoom

/-!
# sys_mkdir

`sys_mkdir` of `fs/namei.c`, called by one task while no other runs. When it returns 0, the name
is found in its directory with an inode whose bit was clear, and that is a directory in which there
are `.` and `..` (`Makes`); when it returns an error, everything is as before (`Undone`).

The call gets the directory, an inode, a block and an entry, one after the other, and each of its
exits gives up what has been got so far. `Begun` is the state behind `new_inode` and `Furnished`
the one behind the first two entries; both say that the directory in hand is intact, so that the
next step goes through. Up to the block, the devices differ from those before only in the new inode
(`Created`), and the `iput` of an inode without a mode and without a link leaves nothing of it
(`Vanished`). Behind `add_entry` the name has come to be there, which is `Intact.gives`, and the
block of the new directory is none of the directory above, so that `.` and `..` stay in it
(`Furnished.makes`).

One exit goes wrong. When `add_entry` finds no place, the block of the new directory is freed by
`free_block` and then, because the inode has the mode of a directory by now, by the `truncate` of
`iput` again. `Scarce` says how few zones the device has left there.
-/

namespace Linux011

open Function Super SuperBlock Zones Bmap
open Outcome (Ends)

namespace Namei

open Inodes (Entry NR_INODE ROOT_INO)
open Dir (NAME_LEN ENTRY DIR_ENTRIES_PER_BLOCK Name)
open Truncate (S_ISREG S_ISDIR)
open FileDev (Leaves Elsewhere)

def ERROR : Int := 99

def I_DIRECTORY : Nat := 0o040000

/-- `new_block` -/
def newBlock (s : State) (dev : Nat) : Except Stop (State × Nat) :=
  match getSuper s dev with
  | none => .error (.panic "trying to get new block from nonexistant device")
  | some _ =>
      ((s.vol dev).newBlock.mapError Stop.panic).map fun (v, z) => (s.setVol dev v, z)

/-- `free_block` -/
def freeBlock (s : State) (dev block : Nat) : Except Stop State :=
  match getSuper s dev with
  | none => .error (.panic "trying to free block on nonexistent device")
  | some _ => (((s.vol dev).freeBlock block).mapError Stop.panic).map fun v => s.setVol dev v

/-- `.` and `..` in the block of a directory; `strcpy` writes a name and a 0. -/
def dotEntries (b_data : Zones.Bytes) (inode dir : Nat) : Zones.Bytes :=
  let b_data := FileDev.storeBytes (Dir.setInode b_data 0 inode) 2 [46, 0]
  FileDev.storeBytes (Dir.setInode b_data ENTRY dir) (ENTRY + 2) [46, 46, 0]

def State.setLinks (s : State) (i : Entry) (n : UInt8) : State :=
  s.set i { s.inode_table i with i_nlinks := n }

def State.setZone (s : State) (i : Entry) (z : Nat) : State :=
  s.set i { s.inode_table i with i_zone := update (s.inode_table i).i_zone 0 z }

/-- `sys_mkdir` from `add_entry` on, with the inode and its block. -/
def enterDir (s : State) (dir inode : Entry) (name : List UInt8) :
    Except Stop (State × Int) := do
  let (s, r) ← addEntry s dir name
  match r with
  | none => do
      let s ← iput s dir
      let s ← freeBlock s (s.inode_table inode).i_dev ((s.inode_table inode).i_zone 0)
      let s ← iput (s.setLinks inode 0) inode
      .ok (s, -ENOSPC)
  | some f =>
      let s := s.setInode f (s.inode_table inode).i_num
      let s := s.set dir { s.inode_table dir with
        i_nlinks := (s.inode_table dir).i_nlinks + 1, i_dirt := true }
      leaveEntry s [dir, inode] f 0

/-- `sys_mkdir` from `bread` on, with the block `z` in the inode. -/
def writeDots (c : Current) (s : State) (dir inode : Entry) (dev z : Nat) (name : List UInt8)
    (mode : Nat) : Except Stop (State × Int) :=
  match (s.vol dev).bread z with
  | none => do
      let s ← iput s dir
      let s ← freeBlock s dev z
      let s ← iput (s.setLinks inode ((s.inode_table inode).i_nlinks - 1)) inode
      .ok (s, -ERROR)
  | some v => do
      let v := v.store z (dotEntries (v.b_data z) (s.inode_table inode).i_num
        (s.inode_table dir).i_num)
      let s := (s.setVol dev v).setLinks inode 2
      let s ← brelse s ⟨dev, z, 0⟩
      let s := s.set inode { s.inode_table inode with
        i_mode := I_DIRECTORY ||| masked c mode, i_dirt := true }
      enterDir s dir inode name

/-- `sys_mkdir` from `new_block` on, with a new inode. -/
def fillDir (c : Current) (s : State) (dir inode : Entry) (name : List UInt8) (mode : Nat) :
    Except Stop (State × Int) := do
  let s := s.set inode { s.inode_table inode with i_size := 32, i_dirt := true }
  let dev := (s.inode_table inode).i_dev
  let (s, z) ← newBlock s dev
  let z := z % 0x10000
  let s := s.setZone inode z
  if z = 0 then do
    let s ← iput s dir
    let s ← iput (s.setLinks inode ((s.inode_table inode).i_nlinks - 1)) inode
    .ok (s, -ENOSPC)
  else
    writeDots c (s.set inode { s.inode_table inode with i_dirt := true }) dir inode dev z name mode

def sysMkdir (c : Current) (s : State) (path : List UInt8) (mode : Nat) :
    Except Stop (State × Int) :=
  if c.euid ≠ 0 then .ok (s, -EPERM)
  else do
    let (s, r) ← dirNamei c s path
    match r with
    | none => .ok (s, -ENOENT)
    | some dir =>
        if basename path = [] then leave s [dir] (-ENOENT)
        else if permission c (s.inode_table dir) MAY_WRITE = false then leave s [dir] (-EPERM)
        else do
          let (s, dir, r) ← findEntry c s dir (basename path)
          match r with
          | some f => do
              let s ← brelse s f
              leave s [dir] (-EEXIST)
          | none => do
              let (s, r) ← newInode s c.euid c.egid (s.inode_table dir).i_dev
              match r with
              | none => leave s [dir] (-ENOSPC)
              | some inode => fillDir c s dir inode (basename path) mode

/-! ## What is undone -/

/-- The maps, the inodes that are in use and the blocks that are allocated are as before, and no
reference is left. -/
structure Undone (s s' : State) : Prop extends Balanced s none s' where
  imap : ∀ dev nr, Mounted s dev → nr ≤ (s.vol dev).sb.s_ninodes →
    used (s'.vol dev).sb.s_imap nr = used (s.vol dev).sb.s_imap nr
  zmap : ∀ dev z, Mounted s dev → (s.vol dev).sb.InRange z →
    (s'.vol dev).sb.allocated z = (s.vol dev).sb.allocated z
  inode : ∀ dev nr, Live s dev nr → Namei.node s' dev nr = Namei.node s dev nr
  blocks : ∀ dev z, Mounted s dev → (s.vol dev).sb.InRange z →
    (s.vol dev).sb.allocated z = true → (s'.vol dev).b_data z = (s.vol dev).b_data z

/-! ## What is made -/

/-- The inode of a directory `m` in which there are only `.` and `..`, of the directory `nr`. -/
structure Fresh (nr m i_mode : Nat) (d : DInode) (disk : Disk) : Prop where
  i_mode : d.i_mode = i_mode
  i_size : d.i_size = 32
  i_nlinks : d.i_nlinks = 2
  dot : Dir.ent d.file disk 0 = ⟨m, [46]⟩
  dots : Dir.ent d.file disk 1 = ⟨nr, [46, 46]⟩

/-- The path leads to the directory `nr`, in which its last name is not found. -/
structure Missing (c : Current) (s : State) (path : List UInt8) (dev nr : Nat) : Prop where
  way : dirTo c s [] path = .leads dev nr
  absent : lookup c s dev nr (basename path) = none
  ne : basename path ≠ []

/-- The last name of the path has been given to a new directory, which has the number `m`. -/
structure Makes (c : Current) (s : State) (path : List UInt8) (i_mode dev nr m : Nat)
    (s' : State) : Prop extends Missing c s path dev nr where
  clear : used (s.vol dev).sb.s_imap m = false
  taken : used (s'.vol dev).sb.s_imap m = true
  fresh : Fresh nr m i_mode (Namei.node s' dev m) (s'.vol dev).toDisk
  /-- `..` is a link to the directory above -/
  i_nlinks : (Namei.node s' dev nr).i_nlinks = (Namei.node s dev nr).i_nlinks + 1
  named : (0 : UInt8) ∉ basename path → lookup c s' dev nr (basename path) = some (dev, m)
  /-- the entries that were in use are as before -/
  others : (0 : UInt8) ∉ basename path → ∀ j < entries s dev nr,
    (Dir.ent (Namei.node s dev nr).file (s.vol dev).toDisk j).inode ≠ 0 →
    Dir.ent (Namei.node s' dev nr).file (s'.vol dev).toDisk j =
      Dir.ent (Namei.node s dev nr).file (s.vol dev).toDisk j

variable {c : Current} {s s' s₀ : State} {i j dir : Entry} {dev nr m n z i_mode : Nat}
  {name path : List UInt8} {h : Handle} {hs hs' : List Handle} {bs bs' : List (Nat × Nat)}
  {f : Found}

/-- `.` and `..` are in the first block. -/
theorem ent_first {d : MInode} {disk : Disk} {j : Nat} (hj : j < DIR_ENTRIES_PER_BLOCK) :
    Dir.ent d disk j = Dir.entryAt (disk.b_data (d.i_zone 0)) (j * ENTRY) := by
  unfold Dir.ent
  rw [Nat.div_eq_of_lt hj, Nat.mod_eq_of_lt hj]
  rfl

theorem Fresh.congr {d : DInode} {disk disk' : Disk} (h : Fresh nr m i_mode d disk)
    (hdata : disk'.b_data (d.i_zone 0) = disk.b_data (d.i_zone 0)) :
    Fresh nr m i_mode d disk' where
  i_mode := h.i_mode
  i_size := h.i_size
  i_nlinks := h.i_nlinks
  dot := by
    rw [← h.dot, ent_first (by decide), ent_first (by decide)]
    exact congrArg (Dir.entryAt · _) hdata
  dots := by
    rw [← h.dots, ent_first (by decide), ent_first (by decide)]
    exact congrArg (Dir.entryAt · _) hdata

theorem Walks.undone (hw : Walks s₀ [] [] s) : Undone s₀ s where
  toBalanced := hw.toLedger.balanced
  imap := fun dev nr _ _ => by rw [hw.disk dev]
  zmap := fun dev z _ _ => by rw [hw.disk dev]
  inode := fun dev nr hlive => hw.node dev nr hlive.mounted.ne_zero
  blocks := fun dev z _ _ _ => by rw [hw.disk dev]

theorem setLinks_self (s : State) (i : Entry) (n : UInt8) :
    (s.setLinks i n).inode_table i = { s.inode_table i with i_nlinks := n } := set_self ..

theorem setLinks_ne (s : State) (n : UInt8) (h : j ≠ i) :
    (s.setLinks i n).inode_table j = s.inode_table j := set_ne s _ h

@[simp] theorem setLinks_vol (s : State) (i : Entry) (n : UInt8) :
    (s.setLinks i n).vol = s.vol := rfl

/-! ## A new inode beside the others -/

theorem set_get (s : State) (i : Entry) : s.set i (s.inode_table i) = s := by
  unfold State.set
  rw [update_eq_self]

/-- An entry that is of another inode before and behind does not matter to the inode `nr`. -/
theorem node_set {inode : Inode} (h : (s.inode_table i).key ≠ (dev, nr))
    (h' : inode.key ≠ (dev, nr)) : node (s.set i inode) dev nr = node s dev nr := by
  have hfind : findInode (s.set i inode).inode_table dev nr = findInode s.inode_table dev nr := by
    unfold findInode
    refine congrArg (List.find? · _) (funext fun j => decide_eq_decide.mpr ?_)
    by_cases hj : j = i
    · rw [hj, set_self]
      exact iff_of_false (fun hk => h' (Prod.ext hk.1 hk.2)) fun hk => h (Prod.ext hk.1 hk.2)
    · rw [set_ne s inode hj]
  unfold node
  rw [hfind]
  cases hj : findInode s.inode_table dev nr with
  | none => rfl
  | some j =>
      have hne : j ≠ i := by
        rintro rfl
        exact h (findInode_some hj)
      exact congrArg Inode.toDInode (set_ne s inode hne)

/-- But for the inode `nr` the devices are as in `s₀`. -/
structure Beside (s₀ : State) (dev nr : Nat) (s : State) : Prop where
  imap : ∀ dev' nr', (dev', nr') ≠ (dev, nr) →
    used (s.vol dev').sb.s_imap nr' = used (s₀.vol dev').sb.s_imap nr'
  zmap : ∀ dev' z, Mounted s₀ dev' → (s₀.vol dev').sb.InRange z →
    (s.vol dev').sb.allocated z = (s₀.vol dev').sb.allocated z
  data : ∀ dev' z, (s.vol dev').b_data z = (s₀.vol dev').b_data z
  node : ∀ dev' nr', dev' ≠ 0 → (dev', nr') ≠ (dev, nr) →
    Namei.node s dev' nr' = Namei.node s₀ dev' nr'

theorem Beside.calm (h : Beside s₀ dev nr s) (hc : Calm s s') : Beside s₀ dev nr s' where
  imap := by
    rw [hc.vol]
    exact h.imap
  zmap := by
    rw [hc.vol]
    exact h.zmap
  data := by
    rw [hc.vol]
    exact h.data
  node := fun dev' nr' hdev hne => (hc.node dev' nr').trans (h.node dev' nr' hdev hne)

theorem Beside.set (h : Beside s₀ dev nr s) (inode : Inode)
    (hkey : (s.inode_table i).key = (dev, nr) ∨ (s.inode_table i).key = (0, 0))
    (hkey' : inode.key = (dev, nr) ∨ inode.key = (0, 0)) : Beside s₀ dev nr (s.set i inode) where
  imap := h.imap
  zmap := h.zmap
  data := h.data
  node := fun dev' nr' hdev hne => by
    have hother : ∀ {key : Nat × Nat}, key = (dev, nr) ∨ key = (0, 0) → key ≠ (dev', nr') := by
      rintro key (rfl | rfl) heq
      · exact hne heq.symm
      · exact hdev (congrArg Prod.fst heq).symm
    exact (node_set (hother hkey) (hother hkey')).trans (h.node dev' nr' hdev hne)

/-- What `new_inode` has made: an inode without a mode and without blocks, whose bit was clear. -/
structure Created (s₀ : State) (i : Entry) (dev nr : Nat) (s : State) : Prop extends
    Beside s₀ dev nr s where
  key : (s.inode_table i).key = (dev, nr)
  i_mode : (s.inode_table i).i_mode = 0
  i_nlinks : (s.inode_table i).i_nlinks = 1
  clear : used (s₀.vol dev).sb.s_imap nr = false
  taken : used (s.vol dev).sb.s_imap nr = true
  lt : nr < 0x10000
  distinct : Distinct s

theorem Created.edit (h : Created s₀ i dev nr s) (inode : Inode)
    (hkey : inode.key = (s.inode_table i).key)
    (hmode : inode.i_mode = (s.inode_table i).i_mode)
    (hnlinks : inode.i_nlinks = (s.inode_table i).i_nlinks) :
    Created s₀ i dev nr (s.set i inode) where
  toBeside := h.toBeside.set inode (.inl h.key) (.inl (hkey.trans h.key))
  key := by
    rw [set_self]
    exact hkey.trans h.key
  i_mode := by
    rw [set_self]
    exact hmode.trans h.i_mode
  i_nlinks := by
    rw [set_self]
    exact hnlinks.trans h.i_nlinks
  clear := h.clear
  taken := h.taken
  lt := h.lt
  distinct := h.distinct.congr (set_key s hkey)

/-- The entry, the number and the clear bit of a new inode. -/
theorem newInode_some {uid gid : Nat} (hnew : newInode s uid gid dev = .ok (s', some i)) :
    ∃ s₁ nr bh, getEmptyInode s = .ok (s₁, i) ∧ Mounted s₁ dev ∧ nr < 0x10000 ∧
      (s₁.vol dev).sb.s_imap (nr / 8192) = some bh ∧ Bitmap.bit bh.b_data (nr % 8192) = false ∧
      s' = (s₁.setVol dev { s₁.vol dev with
          sb := { (s₁.vol dev).sb with
            s_imap := setMap (s₁.vol dev).sb.s_imap (nr / 8192)
              (Bitmap.setBit bh.b_data (nr % 8192)) } }).set i { s₁.inode_table i with
        i_count := 1
        i_nlinks := 1
        i_dev := dev
        i_uid := uid
        i_gid := gid
        i_dirt := true
        i_num := nr } := by
  unfold newInode at hnew
  cases hempty : getEmptyInode s with
  | error e =>
      rw [hempty] at hnew
      cases hnew
  | ok r =>
      obtain ⟨s₁, e⟩ := r
      rw [hempty] at hnew
      dsimp only [bind, Except.bind] at hnew
      cases hget : getSuper s₁ dev with
      | none =>
          rw [hget] at hnew
          cases hnew
      | some m =>
          rw [hget] at hnew
          dsimp only at hnew
          have hfound := search_found (s₁.vol dev).sb.s_imap 8 0 8192
          have hend := search_end (s₁.vol dev).sb.s_imap 8 (i := 0) (Nat.le_refl 8192)
          generalize search (s₁.vol dev).sb.s_imap 8 0 8192 = kj at hnew hfound hend
          obtain ⟨k, j⟩ := kj
          dsimp only at hnew
          cases hk : (s₁.vol dev).sb.s_imap k with
          | none =>
              rw [hk] at hnew
              obtain ⟨_, -, h⟩ := Loops.map_eq_ok hnew
              cases h
          | some bh =>
              rw [hk] at hnew
              dsimp only at hnew
              by_cases hfull : j ≥ 8192 ∨ j + k * 8192 > (s₁.vol dev).sb.s_ninodes
              · rw [if_pos hfull] at hnew
                obtain ⟨_, -, h⟩ := Loops.map_eq_ok hnew
                cases h
              rw [if_neg hfull] at hnew
              by_cases hbit : Bitmap.bit bh.b_data j = true
              · rw [if_pos hbit] at hnew
                cases hnew
              rw [if_neg hbit] at hnew
              obtain ⟨rfl, he⟩ := Prod.mk.inj (Except.ok.inj hnew)
              obtain rfl := Option.some.inj he
              obtain ⟨hj, -⟩ := not_or.mp hfull
              have hlt : k < 8 := by
                cases hfound with
                | free _ _ _ hlt => exact hlt
                | full _ _ hlast _ => exact absurd (hend hlast) hj
              have hdiv : (j + k * 8192) / 8192 = k := by omega
              have hmod : (j + k * 8192) % 8192 = j := by omega
              refine ⟨s₁, j + k * 8192, bh, rfl, Option.isSome_iff_exists.mpr ⟨m, hget⟩, by omega,
                ?_, ?_, ?_⟩
              · rw [hdiv, hk]
              · rw [hmod]
                exact Bool.eq_false_iff.mpr hbit
              · rw [hdiv, hmod]

theorem newInode_created (hm : Mounts s₀) (hw : Walks s₀ hs bs s) {uid gid : Nat}
    (hnew : newInode s uid gid dev = .ok (s', some i)) : ∃ nr, Created s₀ i dev nr s' := by
  obtain ⟨s₁, nr, bh, hempty, hmounted, hlt, hmap, hbit, rfl⟩ := newInode_some hnew
  have hspared : Spared s₀ (hs.map Handle.slot) := by
    by_contra hfull
    rw [getEmptyInode_crowded hw.toLedger hfull] at hempty
    cases hempty
  obtain ⟨s₂, e, hs₂, htaken, hw₁, -⟩ := getEmptyInode_ok hw hm hspared
  obtain ⟨rfl, rfl⟩ := Prod.mk.inj (Except.ok.inj (hs₂.symm.trans hempty))
  have hsb : ∀ dev', (s₂.vol dev').sb = (s₀.vol dev').sb := fun dev' =>
    congrArg Disk.sb (hw₁.disk dev')
  have hclear : used (s₀.vol dev).sb.s_imap nr = false := by
    rw [← hsb]
    unfold used
    rw [hmap]
    exact hbit
  have hset := used_setBit hmap
  refine ⟨nr, {
    imap := fun dev' nr' hne => ?_
    zmap := fun dev' z _ _ => ?_
    data := fun dev' z => ?_
    node := fun dev' nr' hdev hne => ?_
    key := ?_
    i_mode := ?_
    i_nlinks := ?_
    clear := hclear
    taken := ?_
    lt := hlt
    distinct := ?_ }⟩
  · rw [set_vol, setVol_vol]
    split
    · rename_i hd
      subst hd
      rw [hset nr', if_neg fun hnr => hne (by rw [hnr]), hsb]
    · rw [hsb]
  · rw [set_vol, setVol_vol]
    split
    · rename_i hd
      subst hd
      show SuperBlock.allocated { (s₂.vol dev').sb with s_imap := _ } z = _
      rw [← hsb]
      rfl
    · rw [hsb]
  · rw [set_vol, setVol_vol, ← hw₁.disk dev']
    split
    · rename_i hd
      rw [hd]
    · rfl
  · have hkey : (s₂.inode_table e).key ≠ (dev', nr') := by
      rw [htaken]
      exact fun heq => hdev (congrArg Prod.fst heq).symm
    refine Eq.trans (node_set hkey ?_) (hw₁.node dev' nr' hdev)
    exact fun heq => hne heq.symm
  · rw [set_self]
    rfl
  · rw [set_self, htaken]
    rfl
  · rw [set_self]
  · rw [set_vol, setVol_vol, if_pos rfl]
    exact (hset nr).trans (if_pos rfl)
  · refine Distinct.set (s := s₂.setVol dev _) hw₁.table.distinct (fun l hl => ?_) e
    -- the bit of an inode in the table is set
    have hlive := hw₁.live l ((congrArg Prod.fst hl).trans_ne hmounted.ne_zero)
    obtain ⟨hd, hn⟩ := Prod.mk.inj hl
    rw [show (s₂.inode_table l).i_dev = dev from hd,
      show (s₂.inode_table l).i_num = nr from hn] at hlive
    exact Bool.false_ne_true (hclear.symm.trans hlive.used)

/-! ## The new inode is freed -/

/-- Nothing is left of the inode on the devices. -/
structure Vanished (s₀ s : State) : Prop where
  imap : ∀ dev nr, used (s.vol dev).sb.s_imap nr = used (s₀.vol dev).sb.s_imap nr
  zmap : ∀ dev z, Mounted s₀ dev → (s₀.vol dev).sb.InRange z →
    (s.vol dev).sb.allocated z = (s₀.vol dev).sb.allocated z
  data : ∀ dev z, (s.vol dev).b_data z = (s₀.vol dev).b_data z
  node : ∀ dev nr, Live s₀ dev nr → Namei.node s dev nr = Namei.node s₀ dev nr

theorem Vanished.undone (h : Vanished s₀ s) (hl : Ledger s₀ [] [] s) : Undone s₀ s where
  toBalanced := hl.balanced
  imap := fun dev nr _ _ => h.imap dev nr
  zmap := h.zmap
  inode := h.node
  blocks := fun dev z _ _ _ => h.data dev z

theorem freeInode_vanished (hb : Beside s₀ dev nr s) (hdev : dev ≠ 0)
    (hkey : (s.inode_table i).key = (dev, nr)) (hclear : used (s₀.vol dev).sb.s_imap nr = false)
    (h : freeInode s i = .ok s') : Vanished s₀ s' := by
  obtain ⟨rfl, rfl⟩ := Prod.mk.inj hkey
  unfold freeInode at h
  dsimp only at h
  rw [if_neg hdev] at h
  split at h
  · cases h
  split at h
  · cases h
  split at h
  · cases h
  split at h
  · cases h
  split at h
  · cases h
  rename_i bh hmap
  obtain rfl := Except.ok.inj h
  have hzero : Beside s₀ (s.inode_table i).i_dev (s.inode_table i).i_num (s.set i .zero) :=
    hb.set .zero (.inl rfl) (.inr rfl)
  refine {
    imap := fun dev' nr' => ?_
    zmap := fun dev' z hm hz => ?_
    data := fun dev' z => ?_
    node := fun dev' nr' hlive => ?_ }
  · rw [set_vol, setVol_vol]
    split
    · rename_i hd
      subst hd
      dsimp only
      rw [used_clearBit hmap]
      split
      · rename_i hnr
        rw [hnr, hclear]
      · rename_i hnr
        exact hb.imap _ _ fun heq => hnr (congrArg Prod.snd heq)
    · rename_i hd
      exact hb.imap _ _ fun heq => hd (congrArg Prod.fst heq)
  · rw [set_vol, setVol_vol, ← hb.zmap dev' z hm hz]
    split
    · rename_i hd
      rw [hd]
      rfl
    · rfl
  · rw [set_vol, setVol_vol, ← hb.data dev' z]
    split
    · rename_i hd
      rw [hd]
    · rfl
  · refine hzero.node dev' nr' hlive.mounted.ne_zero fun heq => ?_
    obtain ⟨rfl, rfl⟩ := Prod.mk.inj heq
    exact Bool.false_ne_true (hclear.symm.trans hlive.used)

/-- `iput` of the new inode, which has no mode yet and no link any more. -/
theorem iput_vanished (hb : Beside s₀ dev nr s) (hl : Ledger s₀ [⟨i, dev, nr⟩] [] s)
    (hm : Mounts s₀) (hdev : dev ≠ 0) (hclear : used (s₀.vol dev).sb.s_imap nr = false)
    (hspare : (s₀.inode_table i).i_count = 0) (hmode : (s.inode_table i).i_mode = 0)
    (hlinks : (s.inode_table i).i_nlinks = 0) :
    ∃ s', iput s i = .ok s' ∧ Undone s₀ s' := by
  obtain ⟨hkey, hpipe⟩ := hl.hand _ (List.mem_cons_self ..)
  have hone : (s.inode_table i).i_count = 1 := by
    rw [hl.count, hspare, Nat.zero_add]
    exact List.count_singleton_self (a := i)
  have hd : (s.inode_table i).i_dev ≠ 0 := (congrArg Prod.fst hkey).trans_ne hdev
  have hnone : ¬(S_ISREG (s.inode_table i).i_mode ∨ S_ISDIR (s.inode_table i).i_mode) := by
    rw [hmode]
    decide
  obtain ⟨s', hs', -, hl'⟩ := hl.free hm hdev hone hlinks fun h => absurd h hnone
  refine ⟨s', hs', (freeInode_vanished hb hdev hkey hclear ?_).undone hl'⟩
  -- an inode without a mode is not truncated
  have htrunc : truncate s i = .ok s := by
    unfold truncate Truncate.BlockOps.truncate
    dsimp only
    rw [if_pos hnone]
    show Except.ok (((s.setVol _ (s.vol _)).set i (s.inode_table i))) = Except.ok s
    rw [setVol_self, set_get]
  have hblk : ¬S_ISBLK (s.inode_table i).i_mode := by
    rw [hmode]
    decide
  unfold iput at hs'
  dsimp only at hs'
  rw [hone, if_neg Nat.one_ne_zero, hpipe, if_neg Bool.false_ne_true, if_neg hd, if_neg hblk] at hs'
  unfold putLast at hs'
  dsimp only at hs'
  rwa [hone, if_neg (Nat.lt_irrefl 1), if_pos hlinks, htrunc] at hs'

/-! ## new_block -/

/-- `new_block` takes a zone, or there is none. -/
theorem newBlock_spec {d : DSuperBlock} (hmounted : Mounted s dev) (hq : (s.vol dev).Quiet)
    (hc : Covers (s.vol dev).sb d) :
    ∃ disk z, newBlock s dev = .ok (s.setVol dev ((s.vol dev).withDisk disk), z) ∧
      (s.vol dev).toDisk.newBlock = .ok (disk, z) ∧ Covers disk.sb d ∧
      disk.sb.s_imap = (s.vol dev).sb.s_imap ∧ Disk.NewBlock (s.vol dev).toDisk z disk := by
  obtain ⟨disk, z, hnew, hcovers, hspec⟩ := Disk.newBlock_spec (s := (s.vol dev).toDisk) hc
  obtain ⟨k, hk⟩ := hmounted.get
  refine ⟨disk, z, ?_, hnew, hcovers, Disk.newBlock_imap hnew, hspec⟩
  unfold newBlock
  rw [hk, Vol.newBlock_quiet hq hc, hnew]
  rfl

theorem Beside.full {sb : SuperBlock} (h : Beside s₀ dev nr s) (hfull : Full (s.vol dev).sb sb)
    (himap : sb.s_imap = (s.vol dev).sb.s_imap)
    (hrange : ∀ z, (s₀.vol dev).sb.InRange z → (s.vol dev).sb.InRange z) :
    Beside s₀ dev nr
      (s.setVol dev ((s.vol dev).withDisk ⟨sb, (s.vol dev).b_data⟩)) where
  imap := fun dev' nr' hne => by
    rw [← h.imap dev' nr' hne, setVol_vol]
    split
    · rename_i hd
      rw [hd, ← himap]
      rfl
    · rfl
  zmap := fun dev' z hm hz => by
    rw [← h.zmap dev' z hm hz, setVol_vol]
    split
    · rename_i hd
      subst hd
      exact hfull.same z (hrange z hz)
    · rfl
  data := fun dev' z => by
    rw [← h.data dev' z, setVol_vol]
    split
    · rename_i hd
      rw [hd]
      rfl
    · rfl
  node := h.node

/-! ## A file gets its first block -/

theorem value_empty {d : MInode} (hz : d.i_zone = fun _ => 0) (disk : Disk) (x : Bmap.Slot) :
    value d disk x = 0 := by
  cases x <;> simp [value, below, hz]

theorem tree_empty {sb : DSuperBlock} {d : MInode} {disk : Disk} (hc : Covers disk.sb sb)
    (hshort : sb.s_nzones < 0x10000) (hz : d.i_zone = fun _ => 0) : Tree sb d disk where
  covers := hc
  short := hshort
  inj := fun x _ _ _ _ hne => absurd (value_empty hz disk x) hne
  used := fun x _ hne => absurd (value_empty hz disk x) hne

/-- Every block that is in use is one of another file. -/
theorem foreign_empty {sb : DSuperBlock} {d : MInode} {disk : Disk} {b : Nat}
    (hc : Covers disk.sb sb) (hz : d.i_zone = fun _ => 0) (hrange : disk.sb.InRange b)
    (halloc : disk.sb.allocated b = true) : Foreign d disk b where
  inRange := hrange
  allocated := halloc
  slots := fun x _ heq => by
    have hlow := hrange.1
    have hboot := hc.boot
    rw [hc.fdz] at hlow
    rw [value_empty hz] at heq
    omega

theorem first_block {sb : DSuperBlock} {d : MInode} {disk disk' : Disk} (hc : Covers disk.sb sb)
    (hshort : sb.s_nzones < 0x10000) (hz : d.i_zone = fun _ => 0)
    (hnew : disk.newBlock = .ok (disk', z)) (hpos : z ≠ 0) (data : Zones.Bytes) :
    z < 0x10000 ∧ ∃ d', d'.i_zone = update (fun _ => 0) 0 z ∧ Tree sb d' (disk'.store z data) ∧
      Leaves d disk d' (disk'.store z data) := by
  obtain ⟨d', s', r, hbmap, hcreate⟩ :=
    createBlock_spec (tree_empty hc hshort hz) (show 0 < MAXBLOCK by decide)
  have hlt : z < 0x10000 := by
    obtain ⟨s₁, z₁, hnew₁, -, hspec⟩ := Disk.newBlock_spec hc
    obtain ⟨rfl, rfl⟩ := Prod.mk.inj (Except.ok.inj (hnew₁.symm.trans hnew))
    cases hspec with
    | zone _ _ _ htakes => exact (tree_empty hc hshort hz).zone_lt htakes
    | full _ _ => decide
  unfold bmap at hbmap
  rw [if_neg (by decide), if_pos (by decide)] at hbmap
  unfold Bmap.zone at hbmap
  rw [if_pos ⟨rfl, congrFun hz 0⟩, hnew] at hbmap
  dsimp only at hbmap
  rw [if_neg hpos, Nat.mod_eq_of_lt hlt, hz] at hbmap
  obtain ⟨rfl, h⟩ := Prod.mk.inj (Except.ok.inj hbmap)
  obtain ⟨rfl, rfl⟩ := Prod.mk.inj h
  have hne := hcreate.result.trans_ne hpos
  have htree := hcreate.tree.store (by decide) hne data
  have hleaves := FileDev.leaves_store hcreate.tree (by decide) hne data d.i_size true
  rw [hcreate.result] at htree hleaves
  exact ⟨hlt, _, rfl, htree, Leaves.trans hcreate.foreign hleaves⟩

/-- No block of the directory in hand is one of a file without blocks. -/
theorem Intact.elsewhere {d : MInode} (h : Intact s₀ hs bs dir dev nr s)
    (hz : d.i_zone = fun _ => 0) :
    Elsewhere d (s.vol dev).toDisk (s.inode_table dir).file := by
  intro x hx hne
  obtain ⟨hrange, halloc⟩ := h.tree.used x hx hne
  exact foreign_empty h.tree.covers hz hrange halloc

/-- The directory in hand when another file, which has had no blocks, has been given some. -/
theorem Intact.beside {d d' : MInode} (h : Intact s₀ hs bs dir dev nr s)
    (hl : Ledger s₀ (⟨dir, dev, nr⟩ :: hs) bs s')
    (hslot : s'.inode_table dir = s.inode_table dir) (hz : d.i_zone = fun _ => 0)
    (hleaves : Leaves d (s.vol dev).toDisk d' (s'.vol dev).toDisk)
    (htree : Tree (s₀.vol dev).sb.toDSuperBlock d' (s'.vol dev).toDisk) :
    Intact s₀ hs bs dir dev nr s' := by
  have helse := h.elsewhere hz
  have hvalue : ∀ x, x.Valid → value (s.inode_table dir).file (s'.vol dev).toDisk x =
      value (s.inode_table dir).file (s.vol dev).toDisk x := fun x hx => hleaves.value helse hx
  obtain ⟨n, hdir⟩ := h.directory
  have htree' := leaves_tree hleaves htree helse h.tree
  have hnr : ∀ {k}, k < MAXBLOCK → blockNr (s.inode_table dir).file (s'.vol dev).toDisk k =
      blockNr (s.inode_table dir).file (s.vol dev).toDisk k := fun hk =>
    hvalue _ (slotOf_valid hk).1
  refine ⟨⟨hl, ?_, ?_, ?_⟩, n, ?_⟩
  · rw [hslot]
    exact h.nlinks
  · rw [hslot]
    exact htree'
  · rw [hslot]
    refine h.leaves.trans fun b hb => ?_
    obtain ⟨hforeign, hdata⟩ := hleaves b
      (foreign_empty h.tree.covers hz hb.inRange hb.allocated)
    refine ⟨⟨hforeign.inRange, hforeign.allocated, fun x hx => ?_⟩, hdata⟩
    rw [hvalue x hx]
    exact hb.slots x hx
  · rw [hslot]
    exact {
      tree := htree'
      size := hdir.size
      first := by
        rw [hnr (by decide)]
        exact hdir.first
      blocks := fun j hj => by
        rw [hnr (hdir.block_lt hj)]
        exact hdir.blocks j hj
      max := hdir.max }

/-! ## The exits behind new_inode -/

/-- A device has few free zones. -/
def Scarce (s : State) : Prop :=
  ∃ dev, Mounted s dev ∧ 1 ≤ (s.vol dev).sb.room ∧ (s.vol dev).sb.room ≤ 3

/-- The table is full, or the block of the new directory is freed twice. -/
def Stops (s : State) (stop : Stop) : Prop :=
  Crowded s stop ∨ stop = .panic "free_block: bit already cleared" ∧ Scarce s

theorem ends_stops {α : Type} {P : α → Prop} {x : Except Stop α} (h : Ends (Crowded s) P x) :
    Ends (Stops s) P x := by
  cases x with
  | ok a => exact h
  | error e => exact .inl h

/-- The directory has been made, or everything is as before. -/
def Leads (c : Current) (s : State) (path : List UInt8) (mode : Nat) (r : State × Int) : Prop :=
  r.2 = 0 ∧ Balanced s none r.1 ∧
      (∃ dev nr m, Makes c s path (I_DIRECTORY ||| masked c mode) dev nr m r.1) ∨
    r.2 < 0 ∧ Undone s r.1

/-- A new inode in hand beside its directory. -/
structure Begun (s₀ : State) (dir i : Entry) (dev nr m : Nat) (s : State) : Prop extends
    Intact s₀ [⟨i, dev, m⟩] [] dir dev nr s where
  linked : Linked s₀ dev nr
  created : Created s₀ i dev m s
  ne : dir ≠ i
  spare : (s₀.inode_table i).i_count = 0
  zone : (s.inode_table i).i_zone = fun _ => 0
  /-- the zones are as before -/
  zmap : (s.vol dev).sb.s_zmap = (s₀.vol dev).sb.s_zmap
  unaltered : Unaltered s₀ dir dev nr s

/-- The fields that do not say which inode it is are set. -/
theorem Begun.edit (h : Begun s₀ dir i dev nr m s) (inode : Inode)
    (hkey : inode.key = (s.inode_table i).key)
    (hcount : inode.i_count = (s.inode_table i).i_count)
    (hmount : inode.i_mount = (s.inode_table i).i_mount)
    (hpipe : inode.i_pipe = (s.inode_table i).i_pipe)
    (hmode : inode.i_mode = (s.inode_table i).i_mode)
    (hnlinks : inode.i_nlinks = (s.inode_table i).i_nlinks)
    (hzone : inode.i_zone = (s.inode_table i).i_zone) :
    Begun s₀ dir i dev nr m (s.set i inode) where
  toIntact := by
    have hdev : inode.i_dev ≠ 0 :=
      (congrArg Prod.fst (hkey.trans h.created.key)).trans_ne h.linked.mounted.ne_zero
    exact h.toIntact.edit h.ne (h.toLedger.edit i hkey hcount hmount hpipe fun _ => hdev)
  linked := h.linked
  created := h.created.edit inode hkey hmode hnlinks
  ne := h.ne
  spare := h.spare
  zone := by
    rw [set_self]
    exact hzone.trans h.zone
  zmap := h.zmap
  unaltered := h.unaltered.congr (set_ne s inode h.ne) rfl

theorem Begun.quiet (ht : Whole c s₀) (h : Begun s₀ dir i dev nr m s) : (s.vol dev).Quiet :=
  ⟨h.sound.good dev, fun _ hz _ => h.toEdits.unheld ht h.linked.mounted hz⟩

theorem Begun.inRange (h : Begun s₀ dir i dev nr m s) (z : Nat) :
    (s.vol dev).sb.InRange z ↔ (s₀.vol dev).sb.InRange z := by
  unfold SuperBlock.InRange
  rw [h.toEdits.fields]

/-- `sys_mkdir` without a block for the new directory. -/
theorem noBlock_undone (ht : Whole c s₀) (hlinked : Linked s₀ dev nr)
    (hl : Ledger s₀ [⟨dir, dev, nr⟩, ⟨i, dev, m⟩] [] s)
    (hnlinks : (s.inode_table dir).i_nlinks = (Namei.node s₀ dev nr).i_nlinks)
    (hc : Created s₀ i dev m s) (hspare : (s₀.inode_table i).i_count = 0) :
    ∃ s₁ s₂, iput s dir = .ok s₁ ∧
      iput (s₁.setLinks i ((s₁.inode_table i).i_nlinks - 1)) i = .ok s₂ ∧ Undone s₀ s₂ := by
  have hdev := hlinked.mounted.ne_zero
  obtain ⟨s₁, hs₁, hputs, hl₁⟩ := hl.iput fun _ _ => by
    rw [hnlinks]
    exact hlinked.nlinks
  have hkey₁ : (s₁.inode_table i).key = (dev, m) := (hputs.calm.key i).trans hc.key
  have hd₁ : (s₁.inode_table i).i_dev ≠ 0 := (congrArg Prod.fst hkey₁).trans_ne hdev
  have hnode₁ := hputs.calm.toDInode i
  have hl₂ : Ledger s₀ [⟨i, dev, m⟩] []
      (s₁.setLinks i ((s₁.inode_table i).i_nlinks - 1)) :=
    hl₁.edit i rfl rfl rfl rfl fun _ => hd₁
  have hb₂ := (hc.toBeside.calm hputs.calm).set { s₁.inode_table i with
    i_nlinks := (s₁.inode_table i).i_nlinks - 1 } (.inl hkey₁) (.inl hkey₁)
  obtain ⟨s₂, hs₂, hundone⟩ := iput_vanished hb₂ hl₂ ht.mounts hdev hc.clear hspare
    (by
      rw [set_self]
      exact (congrArg DInode.i_mode hnode₁).trans hc.i_mode)
    (by
      rw [set_self]
      show (s₁.inode_table i).i_nlinks - 1 = 0
      rw [(congrArg DInode.i_nlinks hnode₁).trans hc.i_nlinks]
      rfl)
  exact ⟨s₁, s₂, hs₁, hs₂, hundone⟩

/-- The new directory has its block, and still no name. -/
structure Furnished (s₀ : State) (dir i : Entry) (dev nr m z i_mode : Nat) (s : State) :
    Prop extends Intact s₀ [⟨i, dev, m⟩] [] dir dev nr s where
  linked : Linked s₀ dev nr
  ne : dir ≠ i
  spare : (s₀.inode_table i).i_count = 0
  zone : (s.inode_table i).i_zone 0 = z
  pos : z ≠ 0
  mode : S_ISDIR i_mode
  fresh : Fresh nr m i_mode (s.inode_table i).toDInode (s.vol dev).toDisk
  /-- the block is not one of the directory above -/
  foreign : Foreign (s.inode_table dir).file (s.vol dev).toDisk z
  room : (s.vol dev).sb.room + 1 = (s₀.vol dev).sb.room
  unaltered : Unaltered s₀ dir dev nr s
  clear : used (s₀.vol dev).sb.s_imap m = false
  taken : used (s.vol dev).sb.s_imap m = true
  lt : m < 0x10000
  distinct : Distinct s

/-- The first block of a file is not one of another file that was there before. -/
theorem foreign_first {sb : DSuperBlock} {d d' file : MInode} {disk disk' : Disk}
    (htree : Tree sb d' disk') (hzone : d'.i_zone 0 = z) (hpos : z ≠ 0)
    (hleaves : Leaves d disk d' disk') (helse : Elsewhere d disk file) :
    Foreign file disk' z := by
  have hfirst : (Bmap.Slot.direct 0).Valid := show 0 < 9 by decide
  have hslot : value d' disk' (.direct 0) = z := hzone
  obtain ⟨hrange, halloc⟩ := htree.used (.direct 0) hfirst (hslot.trans_ne hpos)
  rw [hslot] at hrange halloc
  refine ⟨hrange, halloc, fun x hx heq => ?_⟩
  rw [hleaves.value helse hx] at heq
  have hother := (hleaves _ (helse x hx (heq.trans_ne hpos))).1
  exact hother.slots (.direct 0) hfirst (hslot.trans heq.symm)

/-- The buffer of the block is held while it is written; then the inode gets its mode. -/
theorem dots_released (hl : Ledger s₀ [⟨dir, dev, nr⟩, ⟨i, dev, m⟩] [] s) (hdev : dev ≠ 0)
    (z : Nat) (data : Zones.Bytes) (i_mode : Nat) :
    ∃ s₁, brelse ((s.setVol dev (((s.vol dev).hold z).store z data)).setLinks i 2) ⟨dev, z, 0⟩ =
        .ok s₁ ∧
      Ledger s₀ [⟨dir, dev, nr⟩, ⟨i, dev, m⟩] []
        (s₁.set i { s₁.inode_table i with i_mode := i_mode, i_dirt := true }) ∧
      (s₁.set i { s₁.inode_table i with i_mode := i_mode, i_dirt := true }).inode_table i =
        { s.inode_table i with i_nlinks := 2, i_mode := i_mode, i_dirt := true } ∧
      (∀ j, j ≠ i → (s₁.set i { s₁.inode_table i with
        i_mode := i_mode, i_dirt := true }).inode_table j = s.inode_table j) ∧
      ((s₁.set i { s₁.inode_table i with i_mode := i_mode, i_dirt := true }).vol dev).toDisk =
        (s.vol dev).toDisk.store z data := by
  have hkey : (s.inode_table i).i_dev ≠ 0 :=
    (congrArg Prod.fst (hl.hand ⟨i, dev, m⟩
      (List.mem_cons_of_mem _ (List.mem_cons_self ..))).1).trans_ne hdev
  have hl₁ : Ledger s₀ [⟨dir, dev, nr⟩, ⟨i, dev, m⟩] [(dev, z)]
      (s.setVol dev (((s.vol dev).hold z).store z data)) :=
    hl.setVol rfl (fun hm => hl.sound.imap dev hm) (hl.sound.good dev) (hl.held rfl)
  have hl₂ : Ledger s₀ [⟨dir, dev, nr⟩, ⟨i, dev, m⟩] [(dev, z)]
      ((s.setVol dev (((s.vol dev).hold z).store z data)).setLinks i 2) :=
    hl₁.edit i rfl rfl rfl rfl fun _ => hkey
  obtain ⟨s₁, hs₁, hl₃, htable, hdisks⟩ := Ledger.brelse (f := ⟨dev, z, 0⟩) hl₂
  have hslot : s₁.inode_table i = { s.inode_table i with i_nlinks := 2 } := by
    rw [htable, setLinks_self]
    rfl
  refine ⟨s₁, hs₁, hl₃.edit i rfl rfl rfl rfl fun _ => ?_, ?_, fun j hj => ?_, ?_⟩
  · rw [hslot]
    exact hkey
  · rw [set_self, hslot]
  · rw [set_ne _ _ hj, htable, setLinks_ne _ _ hj]
    rfl
  · show (s₁.vol dev).toDisk = _
    rw [hdisks dev, setLinks_vol, setVol_vol, if_pos rfl]
    rfl

/-- `.` and `..` are written to the block of the new directory. -/
theorem Begun.furnish (h : Begun s₀ dir i dev nr m s) {disk : Disk}
    (hnew : (s.vol dev).toDisk.newBlock = .ok (disk, z)) (hpos : z ≠ 0) {s₁ : State}
    (hl : Ledger s₀ [⟨dir, dev, nr⟩, ⟨i, dev, m⟩] [] s₁) (hdisk : (s₁.vol dev).toDisk = disk)
    (hkeys : ∀ j, (s₁.inode_table j).key = (s.inode_table j).key)
    (hdir : s₁.inode_table dir = s.inode_table dir) (hsize : (s₁.inode_table i).i_size = 32)
    (hzone : (s₁.inode_table i).i_zone 0 = z) {data : Zones.Bytes}
    (hdot : Dir.entryAt data 0 = ⟨m, [46]⟩) (hdots : Dir.entryAt data ENTRY = ⟨nr, [46, 46]⟩)
    (hmode : S_ISDIR i_mode) :
    ∃ s₂, brelse ((s₁.setVol dev (((s₁.vol dev).hold z).store z data)).setLinks i 2) ⟨dev, z, 0⟩ =
      .ok s₂ ∧ Furnished s₀ dir i dev nr m z i_mode
        (s₂.set i { s₂.inode_table i with i_mode := i_mode, i_dirt := true }) := by
  have hc := h.tree.covers
  have hdev := h.linked.mounted.ne_zero
  obtain ⟨hlt, d', hd', htree, hleaves⟩ :=
    first_block (d := ⟨0, fun _ => 0, false⟩) hc h.tree.short rfl hnew hpos data
  have hsb : (s₁.vol dev).sb = disk.sb := congrArg Disk.sb hdisk
  obtain ⟨s₂, hs₂, hl₃, hi, hother, hdisk₃⟩ := dots_released hl hdev z data i_mode
  refine ⟨s₂, hs₂, ?_⟩
  generalize s₂.set i { s₂.inode_table i with i_mode := i_mode, i_dirt := true } = s₃
    at hl₃ hi hother hdisk₃ ⊢
  rw [hdisk] at hdisk₃
  have hdir₃ : s₃.inode_table dir = s.inode_table dir := (hother dir h.ne).trans hdir
  have hzone₃ : (s₃.inode_table i).i_zone 0 = z := by
    rw [hi]
    exact hzone
  have hkeys₃ : ∀ j, (s₃.inode_table j).key = (s.inode_table j).key := by
    intro j
    rw [← hkeys j]
    rcases eq_or_ne j i with rfl | hne
    · rw [hi]
      rfl
    · rw [hother j hne]
  have hdata₃ : (s₃.vol dev).b_data z = data := by
    rw [hdisk₃]
    exact Disk.store_data ..
  have himap₃ : (s₃.vol dev).sb.s_imap = (s.vol dev).sb.s_imap := by
    rw [hdisk₃]
    exact (Disk.newBlock_imap hnew : disk.sb.s_imap = _)
  rw [← hdisk₃] at htree hleaves
  have helse : Elsewhere ⟨0, fun _ => 0, false⟩ (s.vol dev).toDisk (s.inode_table dir).file :=
    h.toIntact.elsewhere rfl
  have hforeign : Foreign (s₃.inode_table dir).file (s₃.vol dev).toDisk z := by
    rw [hdir₃]
    exact foreign_first htree (by rw [hd', update_self]) hpos hleaves helse
  have hfile : (s₃.inode_table i).toDInode.file.i_zone 0 = z := hzone₃
  have hroom : (s₃.vol dev).sb.room + 1 = (s₀.vol dev).sb.room := by
    obtain ⟨hsome, hleft⟩ := newBlock_room hc hnew
    have hfree : 1 ≤ (s.vol dev).sb.room := hsome.mp hpos
    have hsame : (s.vol dev).sb.room = (s₀.vol dev).sb.room :=
      room_congr h.inRange fun z hz => by
        unfold SuperBlock.allocated
        rw [h.zmap, congrArg DSuperBlock.s_firstdatazone h.toEdits.fields]
    rw [hdisk₃, Disk.store_sb, hleft, ← hsame]
    exact Nat.sub_add_cancel hfree
  exact {
    toIntact := h.toIntact.beside hl₃ hdir₃ rfl hleaves htree
    linked := h.linked
    ne := h.ne
    spare := h.spare
    zone := hzone₃
    pos := hpos
    mode := hmode
    fresh := {
      i_mode := by rw [hi]
      i_size := by
        rw [hi]
        exact hsize
      i_nlinks := by rw [hi]
      dot := by
        rw [ent_first (by decide), hfile, hdata₃]
        exact hdot
      dots := by
        rw [ent_first (by decide), hfile, hdata₃]
        exact hdots }
    foreign := hforeign
    room := hroom
    unaltered := h.unaltered.beside (h.toIntact.counted h.unaltered) hdir₃ hleaves helse
    clear := h.created.clear
    taken := by
      rw [himap₃]
      exact h.created.taken
    lt := h.created.lt
    distinct := h.created.distinct.congr hkeys₃ }

/-- The bit of a zone can be cleared once. -/
theorem freeZone_twice {sb : SuperBlock} {d : DSuperBlock} (hc : Covers sb d)
    (hz : sb.InRange z) : freeZone sb z = .error "free_block: bit already cleared" ∨
      ∃ sb', freeZone sb z = .ok sb' ∧ sb'.toDSuperBlock = sb.toDSuperBlock ∧
        freeZone sb' z = .error "free_block: bit already cleared" := by
  obtain ⟨bh, hbh⟩ := hc.slot hz
  unfold freeZone
  dsimp only
  rw [hbh]
  dsimp only
  split
  · exact .inl rfl
  · refine .inr ⟨_, rfl, rfl, ?_⟩
    unfold setMap
    dsimp only
    rw [update_self]
    dsimp only
    rw [Bitmap.bit_clearBit _ (by decide), if_pos rfl, if_pos rfl]

theorem freeBlock_twice {d : DSuperBlock} {v : Vol} (hc : Covers v.sb d) (hz : v.sb.InRange z)
    (hcount : v.b_count z = 0) : v.freeBlock z = .error "free_block: bit already cleared" ∨
      ∃ v', v.freeBlock z = .ok v' ∧ v'.freeBlock z = .error "free_block: bit already cleared" := by
  have hrange : ¬(z < v.sb.s_firstdatazone ∨ z ≥ v.sb.s_nzones) :=
    not_or.mpr ⟨Nat.not_lt_of_le hz.1, Nat.not_le_of_lt hz.2⟩
  have hfree : ∀ v' : Vol, v'.sb.toDSuperBlock = v.sb.toDSuperBlock → v'.b_count = v.b_count →
      v'.freeBlock z = (freeZone v'.sb z).map fun sb => { v' with sb := sb } := by
    intro v' hsb hb
    unfold Vol.freeBlock
    rw [congrArg DSuperBlock.s_firstdatazone hsb, congrArg DSuperBlock.s_nzones hsb, hb,
      if_neg hrange, if_neg (not_not.mpr hcount)]
  rw [hfree v rfl rfl]
  rcases freeZone_twice hc hz with h | ⟨sb', h, hsb, h'⟩
  · rw [h]
    exact .inl rfl
  · rw [h]
    refine .inr ⟨{ v with sb := sb' }, rfl, ?_⟩
    rw [hfree { v with sb := sb' } hsb rfl, h']
    rfl

/-- `iput` of a directory without a link whose first block is free already. -/
theorem iput_freed (hcount : (s.inode_table i).i_count = 1)
    (hpipe : (s.inode_table i).i_pipe = false) (hdev : (s.inode_table i).i_dev ≠ 0)
    (hmode : S_ISDIR (s.inode_table i).i_mode) (hlinks : (s.inode_table i).i_nlinks = 0)
    (hzone : (s.inode_table i).i_zone 0 = z) (hpos : z ≠ 0)
    (hfree : (s.vol (s.inode_table i).i_dev).freeBlock z =
      .error "free_block: bit already cleared") :
    iput s i = .error (.panic "free_block: bit already cleared") := by
  have hblk : ¬S_ISBLK (s.inode_table i).i_mode := by
    unfold S_ISBLK
    rw [show (s.inode_table i).i_mode &&& Truncate.S_IFMT = _ from hmode]
    decide
  have htrunc : Vol.ops.truncate (s.inode_table i).i_mode (s.inode_table i).file
      (s.vol (s.inode_table i).i_dev) = .error "free_block: bit already cleared" := by
    have hdirect : Vol.ops.freeDirect ((s.inode_table i).file, s.vol (s.inode_table i).i_dev) 0 =
        .error "free_block: bit already cleared" := by
      have hz : (s.inode_table i).file.i_zone 0 = z := hzone
      refine (if_neg (hz.trans_ne hpos)).trans ?_
      dsimp only [Vol.ops]
      rw [hz, hfree]
      rfl
    unfold Truncate.BlockOps.truncate
    rw [if_neg (not_not.mpr (.inr hmode)), List.range_succ_eq_map, List.foldlM_cons, hdirect]
    rfl
  unfold iput putLast truncate
  dsimp only
  rw [hcount, if_neg Nat.one_ne_zero, hpipe, if_neg Bool.false_ne_true, if_neg hdev, if_neg hblk,
    if_neg (Nat.lt_irrefl 1), if_pos hlinks, htrunc]
  rfl

theorem missing_le (d : MInode) (disk : Disk) (x : Bmap.Slot) : missing d disk x ≤ 3 := by
  have habsent : ∀ y, absent d disk y ≤ 1 := by
    intro y
    unfold absent
    split <;> decide
  cases x with
  | direct k => exact (habsent _).trans (by decide)
  | single k => exact (Nat.add_le_add (habsent _) (habsent _)).trans (by decide)
  | double k => exact (Nat.add_le_add (habsent _) (habsent _)).trans (by decide)
  | leaf k l => exact Nat.add_le_add (Nat.add_le_add (habsent _) (habsent _)) (habsent _)

/-- `add_entry` finds no place: there are not enough zones for a block of the directory. -/
theorem Intact.noPlace (ht : Whole c s₀) (hmounted : Mounted s₀ dev)
    (h : Intact s₀ hs [] dir dev nr s) (hname : name.take NAME_LEN ≠ [])
    (hadd : Namei.addEntry s dir name = .ok (s', none)) : (s.vol dev).sb.room < 3 := by
  obtain ⟨n, hdir⟩ := h.directory
  have hq : (s.vol dev).Quiet := ⟨h.sound.good dev, fun z hz _ => h.unheld ht hmounted hz⟩
  obtain ⟨file', v', r, hscan, hplain, -⟩ := DirScan.addEntry_grown hq hdir name
  unfold Namei.addEntry at hadd
  dsimp only at hadd
  rw [h.i_dev, hscan] at hadd
  have hr : r = none := Option.map_eq_none_iff.mp (congrArg Prod.snd (Except.ok.inj hadd))
  rw [hdir.addEntry_eq hname] at hplain
  obtain ⟨-, -, -, hroom⟩ := (Dir.addLoop_room hdir n (Nat.zero_add n)
    (Dir.Place.first _ _) hplain).mp hr
  exact hroom.trans_le (missing_le _ _ _)

theorem succ_ne_zero {n : UInt8} (h : n ≠ 255) : n + 1 ≠ 0 := by
  intro hzero
  have hn : n.toNat ≠ 255 := fun heq => h (UInt8.toNat_inj.mp heq)
  have hlt := n.toNat_lt
  have hsum := congrArg UInt8.toNat hzero
  rw [UInt8.toNat_add] at hsum
  have h0 : (0 : UInt8).toNat = 0 := rfl
  have h1 : (1 : UInt8).toNat = 1 := rfl
  omega

/-- The name has been given to the new directory, and the directory above has a link more. -/
theorem Furnished.makes (ht : Whole c s₀) (h : Furnished s₀ dir i dev nr m z i_mode s)
    (hmissing : Missing c s₀ path dev nr) {s₁ : State}
    (hadd : Namei.addEntry s dir (basename path) = .ok (s₁, some f))
    (hnlinks : (s₁.inode_table dir).i_nlinks = (Namei.node s₀ dev nr).i_nlinks)
    (hkeys : ∀ j, (s'.inode_table j).key = (s.inode_table j).key)
    (hdir : (s'.inode_table dir).toDInode = { (s₁.inode_table dir).toDInode with
      i_nlinks := (s₁.inode_table dir).i_nlinks + 1 })
    (hi : (s'.inode_table i).toDInode = (s.inode_table i).toDInode)
    (hdisk : (s'.vol dev).toDisk = ((s₁.setInode f m).vol dev).toDisk)
    (hgood : ∀ b, (s'.vol dev).bad b = false) : Makes c s₀ path i_mode dev nr m s' := by
  have hlinked := h.linked
  have hdev := hlinked.mounted.ne_zero
  have hmode := (dirTo_leads hmissing.way).1
  obtain ⟨rfl, -, hgrown, -⟩ := h.toIntact.adds ht hlinked.mounted hadd
  have hdistinct := h.distinct.congr hkeys
  have hnode : Namei.node s' f.dev nr = (s'.inode_table dir).toDInode :=
    hdistinct.node_eq hdev ((hkeys dir).trans (h.hand _ (List.mem_cons_self ..)).1)
  have hnew : Namei.node s' f.dev m = (s'.inode_table i).toDInode :=
    hdistinct.node_eq hdev ((hkeys i).trans
      (h.hand ⟨i, f.dev, m⟩ (List.mem_cons_of_mem _ (List.mem_cons_self ..))).1)
  have hstored : (s₁.setInode f m).vol f.dev = (s₁.vol f.dev).store f.bh
      (Dir.setInode ((s₁.vol f.dev).b_data f.bh) f.de m) := by
    unfold State.setInode
    rw [setVol_vol, if_pos rfl]
  have hent : Dir.ent (Namei.node s' f.dev nr).file (s'.vol f.dev).toDisk =
      Dir.ent ((s₁.setInode f m).inode_table dir).file ((s₁.setInode f m).vol f.dev).toDisk := by
    rw [hnode, hdir, hdisk]
    exact funext (ent_congr rfl rfl)
  have hgives : (0 : UInt8) ∉ basename path → ∃ k,
      (k < entries s₀ f.dev nr →
        (Dir.ent (Namei.node s₀ f.dev nr).file (s₀.vol f.dev).toDisk k).inode = 0) ∧
      Dir.Changes (Dir.ent (Namei.node s₀ f.dev nr).file (s₀.vol f.dev).toDisk)
        (entries s₀ f.dev nr) (Dir.ent (Namei.node s' f.dev nr).file (s'.vol f.dev).toDisk)
        (entries s' f.dev nr) k ⟨m, Dir.key (basename path)⟩ := by
    intro hzero
    obtain ⟨n', k, hsize, hfree, hchanges⟩ :=
      h.toIntact.gives ht hlinked.mounted h.unaltered ⟨hmissing.ne, hzero⟩ hadd h.lt
    have hcount : entries s' f.dev nr = n' := by
      unfold entries
      rw [hnode, hdir]
      exact (congrArg (· / ENTRY) hsize).trans (Nat.mul_div_cancel n' (by decide))
    rw [hent, hcount]
    exact ⟨k, hfree, hchanges⟩
  refine {
    toMissing := hmissing
    clear := h.clear
    taken := ?_
    fresh := ?_
    i_nlinks := ?_
    named := fun hzero => ?_
    others := fun hzero j hj hne => ?_ }
  · rw [hdisk, hstored]
    show used (s₁.vol f.dev).sb.s_imap m = true
    rw [hgrown.imap]
    exact h.taken
  · rw [hnew, hi]
    refine h.fresh.congr ?_
    have hzone : (s.inode_table i).toDInode.i_zone 0 = z := h.zone
    obtain ⟨hforeign, hdata⟩ := hgrown.leaves z h.foreign
    obtain ⟨-, k, hk, hbh⟩ := hgrown.own f.bh f.de rfl
    rw [hzone, ← hdata, hdisk, hstored]
    refine Disk.store_data_ne _ _ fun heq => ?_
    exact hforeign.slots _ (slotOf_valid hk).1 (hbh.trans heq.symm)
  · rw [hnode, hdir]
    exact congrArg (· + 1) hnlinks
  · obtain ⟨k, -, hchanges⟩ := hgives hzero
    have hm : m ≠ 0 := by
      rintro rfl
      exact Bool.false_ne_true (h.clear.symm.trans (ht.sound.imap f.dev hlinked.mounted).bit0)
    exact lookup_changes ht.toTidy hlinked hmode hgood ⟨hmissing.ne, hzero⟩ hmissing.absent hm
      hchanges
  · obtain ⟨k, hfree, hchanges⟩ := hgives hzero
    have hjk : j ≠ k := by
      rintro rfl
      exact hne (hfree hj)
    exact (hchanges.others j (Nat.lt_of_lt_of_le hj hchanges.le) hjk).2

/-- Without a place for the name, the block of the new directory is freed twice. -/
theorem Furnished.freed_twice (ht : Whole c s₀) (h : Furnished s₀ dir i dev nr m z i_mode s)
    (hname : name.take NAME_LEN ≠ []) (hadd : Namei.addEntry s dir name = .ok (s₁, none)) :
    enterDir s dir i name = .error (.panic "free_block: bit already cleared") ∧ Scarce s₀ := by
  have hmounted := h.linked.mounted
  have hdev := hmounted.ne_zero
  have hroom := h.toIntact.noPlace ht hmounted hname hadd
  have hscarce : Scarce s₀ := by
    have := h.room
    exact ⟨dev, hmounted, by omega, by omega⟩
  obtain ⟨s₁', r, hs₁, hslot, -, h₁⟩ := h.toIntact.addEntry ht hmounted name
  obtain ⟨rfl, rfl⟩ := Prod.mk.inj (Except.ok.inj (hs₁.symm.trans hadd))
  have hkey₁ : (s₁'.inode_table i).key = (dev, m) :=
    (h₁.hand ⟨i, dev, m⟩ (List.mem_cons_of_mem _ (List.mem_cons_self ..))).1
  have hz₁ : (s₁'.vol dev).sb.InRange z := by
    have hz := h.foreign.inRange
    unfold SuperBlock.InRange at hz ⊢
    rw [h.toEdits.fields] at hz
    rwa [h₁.fields]
  have hcount₁ := h₁.unheld ht hmounted hz₁
  obtain ⟨s₂, hs₂, hl₂, hputs⟩ := h₁.put h.linked
  have hnode₂ : (s₂.inode_table i).toDInode = (s.inode_table i).toDInode :=
    (hputs.calm.toDInode i).trans (congrArg Inode.toDInode (hslot i h.ne.symm))
  have hd₂ : (s₂.inode_table i).i_dev = dev :=
    congrArg Prod.fst ((hputs.calm.key i).trans hkey₁)
  have hzone₂ : (s₂.inode_table i).i_zone 0 = z :=
    (congrFun (congrArg DInode.i_zone hnode₂) 0).trans h.zone
  have hone : (s₂.inode_table i).i_count = 1 := by
    rw [hl₂.count, h.spare, Nat.zero_add]
    exact List.count_singleton_self (a := i)
  have hpipe₂ := (hl₂.hand ⟨i, dev, m⟩ (List.mem_cons_self ..)).2
  obtain ⟨k, hk⟩ := (hmounted.congr hl₂.super_block).get
  refine ⟨?_, hscarce⟩
  unfold enterDir
  rw [hadd]
  dsimp only [bind, Except.bind]
  rw [hs₂]
  dsimp only
  rw [hd₂, hzone₂]
  unfold freeBlock
  rw [hk, hputs.calm.vol]
  dsimp only
  rcases freeBlock_twice h₁.tree.covers hz₁ hcount₁ with hfree | ⟨v, hfree, hagain⟩
  · rw [hfree]
    rfl
  · rw [hfree]
    dsimp only [Except.mapError, Except.map]
    have ht : ((s₂.setVol dev v).setLinks i 0).inode_table i =
        { s₂.inode_table i with i_nlinks := 0 } := setLinks_self ..
    have hfreed : iput ((s₂.setVol dev v).setLinks i 0) i =
        .error (.panic "free_block: bit already cleared") := by
      refine iput_freed (z := z) ?_ ?_ ?_ ?_ ?_ ?_ h.pos ?_
      · rw [ht]
        exact hone
      · rw [ht]
        exact hpipe₂
      · rw [ht]
        exact hd₂.trans_ne hdev
      · rw [ht]
        show S_ISDIR (s₂.inode_table i).i_mode
        rw [congrArg DInode.i_mode hnode₂]
        exact h.fresh.i_mode ▸ h.mode
      · rw [ht]
      · rw [ht]
        exact hzone₂
      · rw [ht]
        show (((s₂.setVol dev v).vol (s₂.inode_table i).i_dev).freeBlock z) = _
        rw [hd₂, setVol_vol, if_pos rfl]
        exact hagain
    rw [hfreed]

/-- With a place for the name, the directory is made. -/
theorem Furnished.entered (ht : Whole c s₀) (h : Furnished s₀ dir i dev nr m z i_mode s)
    (hmissing : Missing c s₀ path dev nr) (hwide : (Namei.node s₀ dev nr).i_nlinks ≠ 255)
    (hadd : Namei.addEntry s dir (basename path) = .ok (s₁, some f)) :
    ∃ s₂, enterDir s dir i (basename path) = .ok (s₂, 0) ∧ Balanced s₀ none s₂ ∧
      Makes c s₀ path i_mode dev nr m s₂ := by
  have hmounted := h.linked.mounted
  have hdev := hmounted.ne_zero
  obtain ⟨s₁', r, hs₁, hslot, hf, h₁⟩ := h.toIntact.addEntry ht hmounted (basename path)
  obtain ⟨rfl, rfl⟩ := Prod.mk.inj (Except.ok.inj (hs₁.symm.trans hadd))
  obtain ⟨rfl, hwithin⟩ := hf f rfl
  have hkey₁ : (s₁'.inode_table i).key = (f.dev, m) :=
    (h₁.hand ⟨i, f.dev, m⟩ (List.mem_cons_of_mem _ (List.mem_cons_self ..))).1
  have hnum : (s₁'.inode_table i).i_num = m := congrArg Prod.snd hkey₁
  have h₂ := h₁.setInode hwithin m
  have hkeys₂ : ∀ j, ((s₁'.setInode f m).inode_table j).key = (s.inode_table j).key :=
    (h.toIntact.adds ht hmounted hs₁).2.2.2
  have hi₂ : (s₁'.setInode f m).inode_table i = s.inode_table i := hslot i h.ne.symm
  have hdir₂ : (s₁'.setInode f m).inode_table dir = s₁'.inode_table dir := rfl
  unfold enterDir
  rw [hs₁]
  dsimp only [bind, Except.bind]
  rw [hnum]
  generalize hs₂ : s₁'.setInode f m = s₂ at h₂ hkeys₂ hi₂ hdir₂ ⊢
  have hl₃ : Ledger s₀ [⟨dir, f.dev, nr⟩, ⟨i, f.dev, m⟩] [(f.dev, f.bh)]
      (s₂.set dir { s₂.inode_table dir with
        i_nlinks := (s₂.inode_table dir).i_nlinks + 1, i_dirt := true }) :=
    h₂.toLedger.edit dir rfl rfl rfl rfl fun _ => h₂.i_dev.trans_ne hdev
  have hi₃ := set_ne s₂ { s₂.inode_table dir with
    i_nlinks := (s₂.inode_table dir).i_nlinks + 1, i_dirt := true } h.ne.symm
  -- neither count of links is 0
  obtain ⟨s₄, hs₄, hputs₄, hl₄⟩ := hl₃.iput fun _ _ => by
    rw [set_self]
    show (s₂.inode_table dir).i_nlinks + 1 ≠ 0
    rw [h₂.nlinks]
    exact succ_ne_zero hwide
  obtain ⟨s₅, hs₅, hputs₅, hl₅⟩ := hl₄.iput fun _ _ => by
    rw [show (s₄.inode_table i).i_nlinks = _ from
      congrArg DInode.i_nlinks (hputs₄.calm.toDInode i), hi₃, hi₂,
      show (s.inode_table i).i_nlinks = 2 from h.fresh.i_nlinks]
    decide
  obtain ⟨s₆, hs₆, hl₆, htable, hdisk⟩ := hl₅.brelse
  have hcalm := hputs₄.calm.trans hputs₅.calm
  have hmakes : Makes c s₀ path i_mode f.dev nr m s₆ := by
    refine h.makes ht hmissing hs₁ h₁.nlinks (fun j => ?_) ?_ ?_ ?_ (hl₆.sound.good f.dev)
    · rw [htable, hcalm.key, set_key s₂ (by rfl), hkeys₂]
    · rw [htable, hcalm.toDInode, set_self, hdir₂]
    · rw [htable, hcalm.toDInode, hi₃, hi₂]
    · rw [hdisk, hcalm.vol, set_vol, hs₂]
  refine ⟨s₆, ?_, hl₆.balanced, hmakes⟩
  unfold leaveEntry
  rw [List.foldlM_cons, hs₄]
  show ([i].foldlM iput s₄ >>= fun s => (brelse s f).map fun s => (s, (0 : Int))) = _
  rw [List.foldlM_cons, hs₅]
  show (brelse s₅ f).map (fun s => (s, (0 : Int))) = _
  rw [hs₆]
  rfl

theorem Furnished.enter_ends {mode : Nat} (ht : Whole c s₀)
    (h : Furnished s₀ dir i dev nr m z (I_DIRECTORY ||| masked c mode) s)
    (hmissing : Missing c s₀ path dev nr) (hwide : (Namei.node s₀ dev nr).i_nlinks ≠ 255) :
    Ends (Stops s₀) (Leads c s₀ path mode) (enterDir s dir i (basename path)) := by
  have hname : (basename path).take NAME_LEN ≠ [] := fun h =>
    (List.take_eq_nil_iff.mp h).elim (by decide) hmissing.ne
  obtain ⟨s₁, r, hs₁, -, -, -⟩ := h.toIntact.addEntry ht h.linked.mounted (basename path)
  cases r with
  | none =>
      obtain ⟨hstops, hscarce⟩ := h.freed_twice ht hname hs₁
      rw [hstops]
      exact .inr ⟨rfl, hscarce⟩
  | some f =>
      obtain ⟨s₂, hs₂, hbalanced, hmakes⟩ := h.entered ht hmissing hwide hs₁
      rw [hs₂]
      exact .inl ⟨rfl, hbalanced, dev, nr, m, hmakes⟩

theorem S_ISDIR_masked (c : Current) (mode : Nat) : S_ISDIR (I_DIRECTORY ||| masked c mode) := by
  unfold S_ISDIR masked
  have hlow : mode &&& 0o777 &&& (0o777 ^^^ (c.umask &&& 0o777)) &&& Truncate.S_IFMT = 0 := by
    generalize 0o777 ^^^ (c.umask &&& 0o777) = x
    calc mode &&& 0o777 &&& x &&& Truncate.S_IFMT
        = mode &&& (0o777 &&& Truncate.S_IFMT &&& x) := by
          rw [Nat.and_assoc, Nat.and_assoc, Nat.and_comm x, Nat.and_assoc]
      _ = 0 := by
          rw [show 0o777 &&& Truncate.S_IFMT = 0 by decide, Nat.zero_and, Nat.and_zero]
  rw [Nat.and_or_distrib_right, hlow]
  decide

theorem dotEntries_ent (b_data : Zones.Bytes) (hm : m < 0x10000) (hnr : nr < 0x10000) :
    Dir.entryAt (dotEntries b_data m nr) 0 = ⟨m, [46]⟩ ∧
      Dir.entryAt (dotEntries b_data m nr) ENTRY = ⟨nr, [46, 46]⟩ := by
  have he : ENTRY = 16 := rfl
  have hdot : ([46] : List UInt8).length < NAME_LEN ∧ 0 ∉ ([46] : List UInt8) := by decide
  have hdots : ([46, 46] : List UInt8).length < NAME_LEN ∧ 0 ∉ ([46, 46] : List UInt8) := by decide
  refine ⟨?_, Dir.entryAt_strcpy _ ENTRY hnr hdots.1 hdots.2⟩
  refine (Dir.entryAt_congr fun p _ hp => ?_).trans (Dir.entryAt_strcpy b_data 0 hm hdot.1 hdot.2)
  -- the second entry is behind the first
  rw [he] at hp
  unfold dotEntries
  rw [FileDev.storeBytes, if_neg (by omega), Dir.setInode_apply (by omega) (by omega)]
  rfl

/-- A number that `.` of a directory has is a short. -/
theorem Missing.nr_lt (ht : Tidy c s) (h : Missing c s path dev nr) (hlinked : Linked s dev nr) :
    nr < 0x10000 := by
  have hdot := (ht.directory dev nr hlinked (dirTo_leads h.way).1).dots.1
  generalize DirScan.dataOf (Namei.node s dev nr).file (s.vol dev) 0 = b_data at hdot
  have hlow := (b_data 0).toNat_lt
  have hhigh := (b_data (0 + 1)).toNat_lt
  unfold Dir.getInode at hdot
  omega

theorem Begun.dots_ends (ht : Whole c s₀) (h : Begun s₀ dir i dev nr m s) {disk : Disk}
    (hnew : (s.vol dev).toDisk.newBlock = .ok (disk, z)) (hpos : z ≠ 0) {s₁ : State}
    (hl : Ledger s₀ [⟨dir, dev, nr⟩, ⟨i, dev, m⟩] [] s₁) (hdisk : (s₁.vol dev).toDisk = disk)
    (hkeys : ∀ j, (s₁.inode_table j).key = (s.inode_table j).key)
    (hdir : s₁.inode_table dir = s.inode_table dir) (hsize : (s₁.inode_table i).i_size = 32)
    (hzone : (s₁.inode_table i).i_zone 0 = z) (hmissing : Missing c s₀ path dev nr)
    (hwide : (Namei.node s₀ dev nr).i_nlinks ≠ 255) (mode : Nat) :
    Ends (Stops s₀) (Leads c s₀ path mode)
      (writeDots c s₁ dir i dev z (basename path) mode) := by
  have hdots := dotEntries_ent (((s₁.vol dev).hold z).b_data z) h.created.lt
    (hmissing.nr_lt ht.toTidy h.linked)
  obtain ⟨s₂, hs₂, hf⟩ := h.furnish hnew hpos hl hdisk hkeys hdir hsize hzone hdots.1 hdots.2
    (S_ISDIR_masked c mode)
  have hnum : (s₁.inode_table dir).i_num = nr :=
    congrArg Prod.snd (hl.hand _ (List.mem_cons_self ..)).1
  have hnew : (s₁.inode_table i).i_num = m :=
    congrArg Prod.snd (hl.hand ⟨i, dev, m⟩ (List.mem_cons_of_mem _ (List.mem_cons_self ..))).1
  unfold writeDots
  rw [Vol.bread_of_good (hl.sound.good dev z)]
  dsimp only [bind, Except.bind]
  rw [hnum, hnew, hs₂]
  exact hf.enter_ends ht hmissing hwide

theorem Begun.fill_ends (ht : Whole c s₀) (h : Begun s₀ dir i dev nr m s)
    (hmissing : Missing c s₀ path dev nr) (hwide : (Namei.node s₀ dev nr).i_nlinks ≠ 255)
    (mode : Nat) : Ends (Stops s₀) (Leads c s₀ path mode)
      (fillDir c s dir i (basename path) mode) := by
  have hmounted := h.linked.mounted
  have hdev := hmounted.ne_zero
  have h₁ := h.edit { s.inode_table i with i_size := 32, i_dirt := true }
    rfl rfl rfl rfl rfl rfl rfl
  have hsize₁ : ((s.set i { s.inode_table i with i_size := 32, i_dirt := true }).inode_table
      i).i_size = 32 := by rw [set_self]
  unfold fillDir
  dsimp only
  generalize s.set i { s.inode_table i with i_size := 32, i_dirt := true } = s₁ at h₁ hsize₁ ⊢
  have hd₁ : (s₁.inode_table i).i_dev = dev := congrArg Prod.fst h₁.created.key
  obtain ⟨disk, z, hs₂, hnew, hcovers, himap, hspec⟩ :=
    newBlock_spec (hmounted.congr h₁.super_block) (h₁.quiet ht) h₁.tree.covers
  have hl₂ : Ledger s₀ [⟨dir, dev, nr⟩, ⟨i, dev, m⟩] []
      (s₁.setVol dev ((s₁.vol dev).withDisk disk)) :=
    h₁.toLedger.setVol (hcovers.fields.trans h₁.toEdits.fields.symm)
      (fun hm => (h₁.sound.imap dev hm).congr (hcovers.fields.trans h₁.toEdits.fields.symm) himap)
      (h₁.sound.good dev) (h₁.toLedger.kept rfl)
  have hl₃ : Ledger s₀ [⟨dir, dev, nr⟩, ⟨i, dev, m⟩] []
      ((s₁.setVol dev ((s₁.vol dev).withDisk disk)).setZone i z) :=
    hl₂.edit i rfl rfl rfl rfl fun _ => hd₁.trans_ne hdev
  have hdir₃ : ((s₁.setVol dev ((s₁.vol dev).withDisk disk)).setZone i z).inode_table dir =
      s₁.inode_table dir := set_ne (s₁.setVol dev ((s₁.vol dev).withDisk disk)) _ h.ne
  have hi₃ : ((s₁.setVol dev ((s₁.vol dev).withDisk disk)).setZone i z).inode_table i =
      { s₁.inode_table i with i_zone := update (s₁.inode_table i).i_zone 0 z } := set_self ..
  have hkeys₃ : ∀ j, (((s₁.setVol dev ((s₁.vol dev).withDisk disk)).setZone i z).inode_table
      j).key = (s₁.inode_table j).key := set_key (s₁.setVol dev ((s₁.vol dev).withDisk disk)) rfl
  have hdisk₃ : (((s₁.setVol dev ((s₁.vol dev).withDisk disk)).setZone i z).vol dev).toDisk =
      disk := by
    show ((s₁.setVol dev ((s₁.vol dev).withDisk disk)).vol dev).toDisk = disk
    rw [setVol_vol, if_pos rfl]
    rfl
  rw [hd₁, hs₂]
  dsimp only [bind, Except.bind]
  cases hspec with
  | full sb hfull =>
      have hcreated : Created s₀ i dev m
          (s₁.setVol dev ((s₁.vol dev).withDisk ⟨sb, (s₁.vol dev).b_data⟩)) := {
        toBeside := h₁.created.toBeside.full hfull himap fun z => (h₁.inRange z).mpr
        key := h₁.created.key
        i_mode := h₁.created.i_mode
        i_nlinks := h₁.created.i_nlinks
        clear := h₁.created.clear
        taken := by
          rw [setVol_vol, if_pos rfl]
          exact (congrArg (used · m) himap).trans h₁.created.taken
        lt := h₁.created.lt
        distinct := h₁.created.distinct }
      have hcreated₃ := hcreated.edit { s₁.inode_table i with
        i_zone := update (s₁.inode_table i).i_zone 0 0 } rfl rfl rfl
      obtain ⟨s₄, s₅, hs₄, hs₅, hundone⟩ := noBlock_undone ht h.linked hl₃ (by
          rw [hdir₃]
          exact h₁.nlinks) hcreated₃ h.spare
      rw [if_pos rfl, hs₄]
      dsimp only
      rw [hs₅]
      exact .inr ⟨show (-ENOSPC : Int) < 0 by decide, hundone⟩
  | zone _ sb hpos htakes =>
      have hlt := (first_block h₁.tree.covers h₁.tree.short (d := ⟨0, fun _ => 0, false⟩) rfl hnew
        hpos zeroes).1
      rw [Nat.mod_eq_of_lt hlt, if_neg hpos]
      clear hs₂
      generalize (s₁.setVol dev ((s₁.vol dev).withDisk ⟨sb, _⟩)).setZone i z = s₃
        at hl₃ hdir₃ hi₃ hdisk₃ hkeys₃ ⊢
      have hl₄ : Ledger s₀ [⟨dir, dev, nr⟩, ⟨i, dev, m⟩] []
          (s₃.set i { s₃.inode_table i with i_dirt := true }) :=
        hl₃.edit i rfl rfl rfl rfl fun _ => by
          rw [hi₃]
          exact hd₁.trans_ne hdev
      have hkeys₄ : ∀ j, ((s₃.set i { s₃.inode_table i with i_dirt := true }).inode_table j).key =
          (s₁.inode_table j).key := fun j => (set_key s₃ (by rfl) j).trans (hkeys₃ j)
      refine h₁.dots_ends ht hnew hpos hl₄ hdisk₃ hkeys₄ ((set_ne s₃ _ h.ne).trans hdir₃) ?_ ?_
        hmissing hwide mode
      · rw [set_self, hi₃]
        exact hsize₁
      · rw [set_self, hi₃]
        exact update_self 0 z (s₁.inode_table i).i_zone

/-- What `new_inode` has made beside the directory in hand. -/
theorem Looked.begin (ht : Whole c s₀) (hl : Looked s₀ [] [] dir dev nr s) {uid gid : Nat}
    (hnew : newInode s uid gid dev = .ok (s', some i))
    (hmade : Made s₀ [⟨dir, dev, nr⟩] [] i dev m s') :
    Begun s₀ dir i dev nr m s' := by
  obtain ⟨m', hcreated⟩ := newInode_created ht.mounts hl.toWalks hnew
  have hm : m' = m := congrArg Prod.snd (hcreated.key.symm.trans
    (hmade.hand _ (List.mem_cons_self ..)).1)
  obtain ⟨s_imap, hdisk⟩ := hmade.disk
  exact {
    toIntact := hmade.intact ht hl.linked hl.mode
    linked := hl.linked
    created := hm ▸ hcreated
    ne := hmade.spare.slots _ (List.mem_cons_self ..)
    spare := hmade.spare.count
    zone := hmade.zone
    zmap := congrArg (fun disk => disk.sb.s_zmap) hdisk
    unaltered := .of_node (hmade.hands _ (List.mem_cons_self ..) hl.linked.mounted.ne_zero)
      ((congrArg Disk.b_data hdisk :) : (s'.vol dev).b_data = _) }

theorem leads_error {mode : Nat} {e : Int} (he : e < 0) {r : State × Int}
    (h : r.2 = e ∧ Walks s [] [] r.1) : Leads c s path mode r :=
  .inr ⟨h.1.trans_lt he, h.2.undone⟩

/-- `sys_mkdir` makes the directory, whose name is then found with a new inode that has `.`, `..`
and two links, or leaves everything as it was. Only when it finds no place for the name, with the
last zones of the device in the new directory, it stops: the block is freed twice. -/
theorem mkdir_undone (ht : Whole c s)
    (hwide : ∀ dev nr, Linked s dev nr → (node s dev nr).i_nlinks ≠ 255) (path : List UInt8)
    (mode : Nat) : Ends (Stops s) (Leads c s path mode) (sysMkdir c s path mode) := by
  have hlen : ([] : List Handle).length ≤ 1 := Nat.zero_le 1
  have hroom : Room s (([] : List Handle).map Handle.slot) := ht.room
  unfold sysMkdir
  by_cases hsuper : c.euid ≠ 0
  · rw [if_pos hsuper]
    exact leads_error (show (-EPERM : Int) < 0 by decide) ⟨rfl, ht.start⟩
  rw [if_neg hsuper]
  refine (ends_stops (dirNamei_ends ht hlen ht.start path)).bind ?_
  rintro ⟨s₁, r₁⟩ h₁
  dsimp only at h₁
  rcases h₁ with ⟨rfl, hw₁⟩ | ⟨dir, dev, nr, rfl, hl, hway⟩
  · exact leads_error (show (-ENOENT : Int) < 0 by decide) ⟨rfl, hw₁⟩
  dsimp only
  have ha := hl.linked.anchored dir
  by_cases hbase : basename path = []
  · rw [if_pos hbase]
    exact (leave_one hl.toWalks ha _).mono fun _ => leads_error (show (-ENOENT : Int) < 0 by decide)
  rw [if_neg hbase]
  by_cases hperm : permission c (s₁.inode_table dir) MAY_WRITE = false
  · rw [if_pos hperm]
    exact (leave_one hl.toWalks ha _).mono fun _ => leads_error (show (-EPERM : Int) < 0 by decide)
  rw [if_neg hperm]
  rcases findEntry_spec ht.toTidy hroom hl (basename path) with
    ⟨habsent, s₂, dir₂, hs₂, hl₂⟩ | ⟨s₂, dir₂, nr₂, k, f, -, hs₂, hsees⟩
  · have hd : (s₂.inode_table dir₂).i_dev = dev :=
      congrArg Prod.fst (hl₂.hand _ (List.mem_cons_self ..)).1
    have hone : [(⟨dir₂, dev, nr⟩ : Handle)].length ≤ 1 := Nat.le_refl 1
    have hends := newInode_ends ht hone hl₂.toWalks hl₂.linked.mounted c.euid c.egid
    rw [hs₂]
    dsimp only [bind, Except.bind]
    rw [hd]
    cases hnew : newInode s₂ c.euid c.egid dev with
    | error e =>
        rw [hnew] at hends
        exact .inl hends
    | ok r =>
        obtain ⟨s₃, r⟩ := r
        rw [hnew] at hends
        dsimp only
        rcases hends with ⟨h, hw₃⟩ | ⟨i, m, h, hmade⟩
        · obtain rfl : r = none := h
          exact (leave_one hw₃ (hl₂.linked.anchored dir₂) _).mono fun _ =>
            leads_error (show (-ENOSPC : Int) < 0 by decide)
        · obtain rfl : r = some i := h
          exact (hl₂.begin ht hnew hmade).fill_ends ht ⟨hway, habsent, hbase⟩
            (hwide dev nr hl₂.linked) mode
  · obtain ⟨s₃, hs₃, hw₃, -⟩ := hsees.toWalks.brelse
    rw [hs₂]
    dsimp only [bind, Except.bind]
    rw [hs₃]
    exact (leave_one hw₃ (hsees.linked.anchored dir₂) _).mono fun _ =>
      leads_error (show (-EEXIST : Int) < 0 by decide)

/-- A directory is made in the root. -/
theorem mkdir_undone_root : ∃ s' m, sysMkdir rootTask rootState [47, 120] 0o755 = .ok (s', 0) ∧
    Balanced rootState none s' ∧ Makes rootTask rootState [47, 120] 0o040755 1 1 m s' := by
  have hends := mkdir_undone rootState_whole (fun dev nr h => by
    obtain ⟨rfl, rfl⟩ := rootWith_linked ⟨rfl, rfl, rfl, by decide⟩ h
    rw [show node rootState 1 1 = _ from rootWith_node .zero]
    decide) [47, 120] 0o755
  have hmap : (sysMkdir rootTask rootState [47, 120] 0o755).map (fun r => r.2) = .ok 0 := by
    decide +kernel
  obtain ⟨⟨s', r⟩, hs', hr⟩ := Loops.map_eq_ok hmap
  obtain rfl : r = 0 := hr
  rw [hs'] at hends
  rcases hends with ⟨-, hbalanced, dev, nr, m, hmakes⟩ | ⟨hneg, -⟩
  · have hway : dirTo rootTask rootState [] [47, 120] = .leads 1 1 := by decide +kernel
    obtain ⟨rfl, rfl⟩ := Way.leads.inj (hmakes.way.symm.trans hway)
    exact ⟨s', m, hs', hbalanced, hmakes⟩
  · exact absurd hneg (Int.lt_irrefl 0)

end Namei

end Linux011
