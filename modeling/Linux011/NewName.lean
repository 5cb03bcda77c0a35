import Linux011.DirMap
import Linux011.TreeChanges

/-!
# A new name is found

What a lookup sees of a directory to which one name has been added. `lookup` goes over the entries
as `find_entry` tests them, through the buffers; `Dir` has them as a map (`Changes`), on the disk.
`hit_iff` says that the tests are the same, so that a name which was not there is found behind a
change that gives it to an entry: no entry before that one has it (`lookup_changes`).

A call that makes a file comes to such a change by way of the table of inodes. What `lookup` reads
is the inode that a number stands for, and that is the one in the table as long as no number is
there twice (`Distinct`): entries of the table are only ever written under the key that they have,
and `new_inode` gives a number whose bit was clear. In between, the directory in hand keeps its
entries (`Unaltered`) while blocks of the new file are written, since they are none of its own.

`Intact.gives` puts this together for `add_entry` and `de->inode = nr`.
-/

namespace Linux011

open Function Super SuperBlock Zones Bmap

namespace DirScan

open Dir

variable {inode : MInode} {v : Vol} {name : List UInt8} {i : Nat}

/-- `find_entry` stops at an entry that is in use and has the name. -/
theorem hit_iff (hgood : ∀ b, v.bad b = false) (hlen : name.length ≤ NAME_LEN)
    (hname : Name name) (i : Nat) : hit inode v name i = true ↔
      (ent inode v.toDisk i).inode ≠ 0 ∧ (ent inode v.toDisk i).label = name := by
  unfold hit dataOf
  rw [Vol.blockOf_good hgood]
  exact matchEntry_iff hlen hname _ _

end DirScan

namespace Dir

variable {d : DSuperBlock} {inode inode' : MInode} {s s' : Disk} {n n' i nr : Nat}
  {name : List UInt8}

/-- A string that ends within the name of an entry. -/
theorem label_eq {b_data : Bytes} {de : Nat} (hlen : name.length < NAME_LEN)
    (hname : (0 : UInt8) ∉ name) (hbytes : ∀ k < name.length, name[k]? = some (b_data (de + 2 + k)))
    (hend : b_data (de + 2 + name.length) = 0) : label b_data de = name := by
  rw [label, takeWhile_eq_iff]
  refine ⟨fun y hy => decide_eq_true fun h0 => hname (h0 ▸ hy),
    (getName b_data de).drop name.length, ?_, fun y hy => ?_⟩
  · have htake : (getName b_data de).take name.length = name := by
      refine List.ext_getElem? fun k => ?_
      rw [List.getElem?_take]
      split
      · rename_i hk
        rw [getName_get _ _ (Nat.lt_trans hk hlen), hbytes k hk]
      · rename_i hk
        rw [List.getElem?_eq_none (Nat.le_of_not_lt hk)]
    conv_lhs => rw [← List.take_append_drop name.length (getName b_data de), htake]
  · rw [List.head?_drop, getName_get _ _ hlen, hend] at hy
    obtain rfl := Option.some.inj hy
    rfl

theorem entryAt_strcpy (b_data : Bytes) (de : Nat) (hnr : nr < 0x10000)
    (hlen : name.length < NAME_LEN) (hname : (0 : UInt8) ∉ name) :
    entryAt (FileDev.storeBytes (setInode b_data de nr) (de + 2) (name ++ [0])) de =
      ⟨nr, name⟩ := by
  have hino : getInode (FileDev.storeBytes (setInode b_data de nr) (de + 2) (name ++ [0])) de =
      nr := by
    refine Eq.trans ?_ (getInode_setInode b_data de hnr)
    unfold getInode FileDev.storeBytes
    rw [if_neg (by omega), if_neg (by omega)]
  rw [entryAt, hino]
  refine congrArg (Entry.mk nr) (label_eq hlen hname (fun k hk => ?_) ?_)
  · unfold FileDev.storeBytes
    rw [if_pos (by omega), Nat.add_sub_cancel_left, List.getD_eq_getElem?_getD,
      List.getElem?_append_left hk, List.getElem?_eq_getElem hk]
    rfl
  · unfold FileDev.storeBytes
    rw [if_pos (by omega), Nat.add_sub_cancel_left, List.getD_eq_getElem?_getD,
      List.getElem?_append_right (Nat.le_refl _), Nat.sub_self]
    rfl

end Dir

namespace Namei

open Inodes (Entry NR_INODE ROOT_INO)
open Dir (NAME_LEN ENTRY DIR_ENTRIES_PER_BLOCK Name key)
open Truncate (S_ISDIR)
open FileDev (Leaves Elsewhere)

variable {c : Current} {s s' s₀ : State} {i j dir : Entry} {dev nr m n : Nat} {name : List UInt8}
  {hs : List Handle} {bs : List (Nat × Nat)} {f : Found}

/-- An inode comes in that is in no entry. -/
theorem Distinct.set (h : Distinct s) {inode : Inode}
    (hnew : ∀ j, (s.inode_table j).key ≠ inode.key) (i : Entry) : Distinct (s.set i inode) := by
  intro j k hj hjk
  by_cases hji : j = i <;> by_cases hki : k = i
  · rw [hji, hki]
  · rw [hji, set_self, set_ne s inode hki] at hjk
    exact absurd hjk.symm (hnew k)
  · rw [hki, set_self, set_ne s inode hji] at hjk
    exact absurd hjk (hnew j)
  · rw [set_ne s inode hji] at hj hjk
    rw [set_ne s inode hki] at hjk
    exact h j k hj hjk

theorem set_key (s : State) {inode : Inode} (h : inode.key = (s.inode_table i).key) (j : Entry) :
    ((s.set i inode).inode_table j).key = (s.inode_table j).key := by
  by_cases hj : j = i
  · rw [hj, set_self, h]
  · rw [set_ne s inode hj]

/-! ## Looking up -/

/-- `.` and `..` are found in every directory, whatever they are exchanged for. -/
theorem Tidy.dots_there (ht : Tidy c s) (hlinked : Linked s dev nr)
    (hmode : S_ISDIR (node s dev nr).i_mode) : lookup c s dev nr [46, 46] ≠ none := by
  obtain ⟨dev', nr', name', hexch, hlinked', hmode', hname', hsame⟩ :=
    ht.exchanged hlinked hmode [46, 46]
  have hdir := ht.directory dev' nr' hlinked' hmode'
  have htwo := (ht.directory dev nr hlinked hmode).two
  unfold lookup
  dsimp only
  rw [show List.take NAME_LEN [46, 46] = ([46, 46] : List UInt8) from rfl,
    if_neg (List.cons_ne_nil _ _), hexch]
  refine fun hnone => ?_
  have hfirst := Option.map_eq_none_iff.mp hnone
  rcases hname' with rfl | rfl
  · exact hdir.dots_found htwo hfirst
  · -- `.` is the first entry
    obtain ⟨hino, -, hdot, -⟩ := hdir.dots
    have hhit : DirScan.hit (node s dev' nr').file (s.vol dev') [46] 0 = true :=
      (Dir.matchEntry_iff (by decide) ⟨List.cons_ne_nil _ _, by decide⟩ _ _).mpr
        ⟨hino.trans_ne (Nat.one_le_iff_ne_zero.mp hlinked'.pos), hdot⟩
    have hmiss := List.find?_range_eq_none.mp hfirst 0 (by omega)
    rw [hhit] at hmiss
    cases hmiss

/-- A name other than `..` is looked for where the call says. -/
theorem lookup_eq (hne : name.take NAME_LEN ≠ []) (hdots : name.take NAME_LEN ≠ [46, 46]) :
    lookup c s dev nr name = (firstEntry s dev nr (name.take NAME_LEN) (entries s dev nr)).map
      fun k => (dev, entryInode s dev nr k) := by
  unfold lookup exchanged
  dsimp only
  rw [if_neg hne, if_neg hdots]

/-- A name that was not there is found when one entry has got it, and a number. -/
theorem lookup_changes (ht : Tidy c s₀) (hlinked : Linked s₀ dev nr)
    (hmode : S_ISDIR (Namei.node s₀ dev nr).i_mode) (hgood : ∀ b, (s.vol dev).bad b = false)
    (hname : Name name) (habsent : lookup c s₀ dev nr name = none) (hm : m ≠ 0)
    (hc : Dir.Changes (Dir.ent (Namei.node s₀ dev nr).file (s₀.vol dev).toDisk)
      (entries s₀ dev nr) (Dir.ent (Namei.node s dev nr).file (s.vol dev).toDisk)
      (entries s dev nr) n ⟨m, key name⟩) : lookup c s dev nr name = some (dev, m) := by
  have hkey := hname.key
  have hne : name.take NAME_LEN ≠ [] := hkey.1
  have hdots : name.take NAME_LEN ≠ [46, 46] := by
    intro heq
    refine ht.dots_there hlinked hmode ?_
    unfold lookup at habsent ⊢
    rwa [heq] at habsent
  have hlen := Dir.length_key name
  rw [lookup_eq hne hdots] at habsent ⊢
  have hnone := List.find?_range_eq_none.mp (Option.map_eq_none_iff.mp habsent)
  have hhere : DirScan.hit (Namei.node s dev nr).file (s.vol dev) (key name) n = true := by
    rw [DirScan.hit_iff hgood hlen hkey, hc.at_]
    exact ⟨hm, rfl⟩
  have hfirst : firstEntry s dev nr (key name) (entries s dev nr) = some n := by
    refine List.find?_range_eq_some.mpr ⟨hhere, List.mem_range.mpr hc.lt, fun j hj => ?_⟩
    obtain ⟨hjn, hsame⟩ := hc.others j (Nat.lt_trans hj hc.lt) (Nat.ne_of_lt hj)
    have hold := hnone j hjn
    refine Bool.not_eq_true' _ ▸ Bool.eq_false_iff.mpr fun hhit => ?_
    have hhit' : DirScan.hit (Namei.node s₀ dev nr).file (s₀.vol dev) (key name) j = true := by
      rw [DirScan.hit_iff (ht.sound.good dev) hlen hkey]
      rw [DirScan.hit_iff hgood hlen hkey, hsame] at hhit
      exact hhit
    rw [show DirScan.hit (Namei.node s₀ dev nr).file (s₀.vol dev) (name.take NAME_LEN) j = true
      from hhit'] at hold
    cases hold
  have hino : entryInode s dev nr n = m := by
    unfold entryInode DirScan.dataOf
    rw [Vol.blockOf_good hgood]
    exact congrArg Dir.Entry.inode hc.at_
  rw [show firstEntry s dev nr (name.take NAME_LEN) (entries s dev nr) = some n from hfirst,
    Option.map_some, hino]

/-! ## The entries of a directory in hand -/

/-- The directory in hand has the entries that it has had. -/
structure Unaltered (s₀ : State) (dir : Entry) (dev nr : Nat) (s : State) : Prop where
  i_size : (s.inode_table dir).i_size = (Namei.node s₀ dev nr).i_size
  ent : ∀ j < entries s₀ dev nr, Dir.ent (s.inode_table dir).file (s.vol dev).toDisk j =
    Dir.ent (Namei.node s₀ dev nr).file (s₀.vol dev).toDisk j

theorem ent_congr {inode inode' : MInode} {disk disk' : Disk}
    (hz : inode'.i_zone = inode.i_zone) (hdata : disk'.b_data = disk.b_data) (j : Nat) :
    Dir.ent inode' disk' j = Dir.ent inode disk j := by
  unfold Dir.ent fileBlock blockNr value below
  rw [hz, hdata]

theorem Unaltered.of_node (hnode : (s.inode_table dir).toDInode = Namei.node s₀ dev nr)
    (hdata : (s.vol dev).b_data = (s₀.vol dev).b_data) : Unaltered s₀ dir dev nr s where
  i_size := congrArg DInode.i_size hnode
  ent := fun j _ => ent_congr (congrArg DInode.i_zone hnode) hdata j

theorem Unaltered.congr (h : Unaltered s₀ dir dev nr s)
    (hslot : s'.inode_table dir = s.inode_table dir)
    (hdisk : (s'.vol dev).b_data = (s.vol dev).b_data) : Unaltered s₀ dir dev nr s' where
  i_size := by
    rw [hslot]
    exact h.i_size
  ent := fun j hj => by
    rw [← h.ent j hj, hslot]
    exact ent_congr rfl hdisk j

theorem Unaltered.beside {inode inode' : MInode} (h : Unaltered s₀ dir dev nr s)
    (hdir : Dir.Directory (s₀.vol dev).sb.toDSuperBlock (s.inode_table dir).file
      (s.vol dev).toDisk (entries s₀ dev nr))
    (hslot : s'.inode_table dir = s.inode_table dir)
    (hleaves : Leaves inode (s.vol dev).toDisk inode' (s'.vol dev).toDisk)
    (helse : Elsewhere inode (s.vol dev).toDisk (s.inode_table dir).file) :
    Unaltered s₀ dir dev nr s' where
  i_size := by
    rw [hslot]
    exact h.i_size
  ent := fun j hj => by
    have hvalid := (slotOf_valid (hdir.block_lt hj)).1
    have hnr : blockNr (s.inode_table dir).file (s'.vol dev).toDisk (j / DIR_ENTRIES_PER_BLOCK) =
        blockNr (s.inode_table dir).file (s.vol dev).toDisk (j / DIR_ENTRIES_PER_BLOCK) :=
      hleaves.value helse hvalid
    rw [← h.ent j hj, hslot]
    unfold Dir.ent fileBlock
    rw [hnr]
    exact congrArg (Dir.entryAt · _) (hleaves _ (helse _ hvalid (hdir.blocks j hj))).2

theorem Intact.counted (h : Intact s₀ hs bs dir dev nr s) (hu : Unaltered s₀ dir dev nr s) :
    Dir.Directory (s₀.vol dev).sb.toDSuperBlock (s.inode_table dir).file (s.vol dev).toDisk
      (entries s₀ dev nr) := by
  obtain ⟨n, hdir⟩ := h.directory
  have hsize : n * ENTRY = (Namei.node s₀ dev nr).i_size := hdir.size.symm.trans hu.i_size
  unfold entries
  rwa [← hsize, Nat.mul_div_cancel n (by decide)]

/-- `add_entry` of the directory in hand, as `Dir` has it. -/
theorem Intact.adds (ht : Whole c s₀) (hmounted : Mounted s₀ dev)
    (h : Intact s₀ hs [] dir dev nr s) (hadd : Namei.addEntry s dir name = .ok (s', some f)) :
    f.dev = dev ∧
      Dir.addEntry (s.inode_table dir).file (s.vol dev).toDisk name =
        .ok ((s'.inode_table dir).file, (s'.vol dev).toDisk, some (f.bh, f.de)) ∧
      DirScan.Grown (s₀.vol dev).sb.toDSuperBlock (s.inode_table dir).file (s.vol dev)
        (s'.inode_table dir).file (s'.vol dev) (some (f.bh, f.de)) ∧
      ∀ j, (s'.inode_table j).key = (s.inode_table j).key := by
  obtain ⟨n, hdir⟩ := h.directory
  have hq : (s.vol dev).Quiet := ⟨h.sound.good dev, fun z hz _ => h.unheld ht hmounted hz⟩
  obtain ⟨file', v', r, hscan, hplain, hgrown⟩ := DirScan.addEntry_grown hq hdir name
  unfold Namei.addEntry at hadd
  dsimp only at hadd
  rw [h.i_dev, hscan] at hadd
  obtain ⟨rfl, hr⟩ := Prod.mk.inj (Except.ok.inj hadd)
  obtain ⟨⟨b, de⟩, rfl, rfl⟩ := Option.map_eq_some_iff.mp hr
  have hvol : ((s.setVol dev v').vol dev) = v' := by rw [setVol_vol, if_pos rfl]
  rw [set_self, set_vol, hvol]
  exact ⟨rfl, hplain, hgrown, set_key (s.setVol dev v') rfl⟩

/-- A name has been given to the inode `m` in the directory in hand. -/
theorem Intact.gives (ht : Whole c s₀) (hmounted : Mounted s₀ dev)
    (h : Intact s₀ hs [] dir dev nr s) (hu : Unaltered s₀ dir dev nr s) (hname : Name name)
    (hadd : Namei.addEntry s dir name = .ok (s', some f)) (hm : m < 0x10000) :
    ∃ n' k, ((s'.setInode f m).inode_table dir).i_size = n' * ENTRY ∧
      (k < entries s₀ dev nr →
        (Dir.ent (Namei.node s₀ dev nr).file (s₀.vol dev).toDisk k).inode = 0) ∧
      Dir.Changes (Dir.ent (Namei.node s₀ dev nr).file (s₀.vol dev).toDisk)
        (entries s₀ dev nr) (Dir.ent ((s'.setInode f m).inode_table dir).file
          ((s'.setInode f m).vol dev).toDisk) n' k ⟨m, key name⟩ := by
  obtain ⟨rfl, hplain, -, -⟩ := h.adds ht hmounted hadd
  obtain ⟨k, n', hadded, hplace⟩ := Dir.addEntry_spec (h.counted hu) hname hplain
  obtain ⟨hdir', hchanges⟩ := hadded.assigned hm
  rw [← hplace] at hchanges
  have hdisk : ((s'.setInode f m).vol f.dev).toDisk =
      Dir.assign (s'.vol f.dev).toDisk (f.bh, f.de) m := by
    unfold State.setInode
    rw [setVol_vol, if_pos rfl]
    rfl
  refine ⟨n', k, hdir'.size, fun hk => ?_, ?_⟩
  · rw [← hu.ent k hk]
    exact hadded.free hk
  rw [hdisk]
  exact {
    lt := hchanges.lt
    le := hchanges.le
    at_ := hchanges.at_
    others := fun j hj hne => by
      obtain ⟨hjn, hsame⟩ := hchanges.others j hj hne
      exact ⟨hjn, hsame.trans (hu.ent j hjn)⟩ }

end Namei

end Linux011
