import Linux011.PathTree

/-!
# Walking a path

The walk of a path in a whole tree comes to where the path leads, changes no file, and has no
reference in hand behind it but that to what it has found. `Arrives` says so of each call.

A call is followed with three things at once, the place it has come to, the references that it
has in hand and the state it left the files in, and all three are in the statement of `Arrives`:
either the path leads nowhere, and the call returns what it returns then with nothing in hand, or
it leads to an inode and the call has one reference to it. The rule of sequencing
(`Arrives.bind`) follows `Way.bind`, so that the proof of a call has the shape of the source. The
pieces are the scan of a directory with its buffer (`Looked`, `Sees`), the exchange of `..` in a
pseudo-root and over a mount point, `permission`, and `iget` with the root of a mounted device.
That an inode in hand is still in use when it is needed, although it may have no link any more,
is `Anchored`.
-/

namespace Linux011

open Function Super SuperBlock Zones Bmap

namespace DirScan

open Dir

variable {inode inode' : MInode} {v v' : Vol} {name : List UInt8} {entries m : Nat}

/-! ## What a scan sees -/

theorem blockOf_congr (hz : inode'.i_zone = inode.i_zone) (hd : v'.toDisk = v.toDisk)
    (hb : v'.bad = v.bad) (k : Nat) : Vol.blockOf inode' v' k = Vol.blockOf inode v k := by
  unfold Vol.blockOf Vol.index
  rw [hz, hd, hb]

theorem dataOf_congr (hz : inode'.i_zone = inode.i_zone) (hd : v'.toDisk = v.toDisk)
    (hb : v'.bad = v.bad) (i : Nat) : dataOf inode' v' i = dataOf inode v i := by
  unfold dataOf
  rw [blockOf_congr hz hd hb, hd]

theorem First.congr (h : First inode v name entries m) (hz : inode'.i_zone = inode.i_zone)
    (hd : v'.toDisk = v.toDisk) (hb : v'.bad = v.bad) : First inode' v' name entries m where
  le := h.le
  before := fun j hj => by
    unfold hit
    rw [dataOf_congr hz hd hb]
    exact h.before j hj
  here := fun hm => by
    unfold hit
    rw [dataOf_congr hz hd hb]
    exact h.here hm
  dense := fun k hk hlt => by
    unfold Gone
    rw [blockOf_congr hz hd hb, hb]
    exact h.dense k hk hlt

end DirScan

namespace Namei

open Inodes (Entry NR_INODE ROOT_INO)
open Dir (getInode label matchEntry matchEntry_iff Name NAME_LEN ENTRY DIR_ENTRIES_PER_BLOCK)
open Truncate (S_ISDIR)

variable {c : Current} {s s' s₀ : State} {i dir : Entry} {dev nr m n : Nat} {name : List UInt8}
  {hs : List Handle} {bs : List (Nat × Nat)}

/-- `..` is entry 1, and no other is before it. -/
theorem Directory.dots_first (hdir : Directory s dev nr) :
    DirScan.hit (node s dev nr).file (s.vol dev) [46, 46] 0 = false ∧
      DirScan.hit (node s dev nr).file (s.vol dev) [46, 46] 1 = true := by
  obtain ⟨-, hino, hdot, hdots⟩ := hdir.dots
  have hname : Name [46, 46] := ⟨List.cons_ne_nil _ _, by decide⟩
  have hlen : [46, 46].length ≤ NAME_LEN := by decide
  constructor
  · refine Bool.eq_false_iff.mpr fun hhit => ?_
    have hlabel := ((matchEntry_iff hlen hname _ _).mp hhit).2
    exact absurd (hdot.symm.trans hlabel) (by decide)
  · exact (matchEntry_iff hlen hname _ _).mpr ⟨hino, hdots⟩

theorem Directory.dots_found (hdir : Directory s dev nr) (hn : 2 ≤ n) :
    firstEntry s dev nr [46, 46] n ≠ none := by
  intro hnone
  have hmiss := List.find?_range_eq_none.mp hnone 1 hn
  rw [hdir.dots_first.2] at hmiss
  cases hmiss

/-- What `find_entry` comes to in a directory without holes; behind `..` of a mounted device it
has the size of another directory. -/
theorem Directory.first (hdir : Directory s dev nr) (hgood : ∀ b, (s.vol dev).bad b = false)
    (hn : n = entries s dev nr ∨ name = [46, 46] ∧ 2 ≤ n) :
    ∃ m, DirScan.First (node s dev nr).file (s.vol dev) name n m ∧
      (m < n → m < entries s dev nr) ∧
      firstEntry s dev nr name n = if m < n then some m else none := by
  have hthere : ∀ k, k * DIR_ENTRIES_PER_BLOCK < entries s dev nr →
      ¬DirScan.Gone (node s dev nr).file (s.vol dev) k ∧ k < MAXBLOCK := by
    intro k hk
    obtain ⟨hne, hmax⟩ := hdir.dense k hk
    refine ⟨not_or.mpr ⟨hne, ?_⟩, hmax⟩
    rw [hgood]
    exact Bool.false_ne_true
  unfold firstEntry
  rcases hn with rfl | ⟨rfl, hn⟩
  · cases hfind : (List.range (entries s dev nr)).find? fun m =>
        DirScan.hit (node s dev nr).file (s.vol dev) name m with
    | none =>
        refine ⟨entries s dev nr, ⟨Nat.le_refl _, fun j hj => ?_,
          fun h => absurd h (Nat.lt_irrefl _), fun k _ hk => hthere k hk⟩, id,
          (if_neg (Nat.lt_irrefl _)).symm⟩
        exact Bool.not_eq_true' _ ▸ List.find?_range_eq_none.mp hfind j hj
    | some m =>
        obtain ⟨hhit, hmem, hbefore⟩ := List.find?_range_eq_some.mp hfind
        have hm := List.mem_range.mp hmem
        refine ⟨m, ⟨Nat.le_of_lt hm, fun j hj => ?_, fun _ => hhit, fun k _ hk => hthere k hk⟩, id,
          (if_pos hm).symm⟩
        exact Bool.not_eq_true' _ ▸ hbefore j hj
  · obtain ⟨hzero, hone⟩ := hdir.dots_first
    have hbefore : ∀ j < 1, DirScan.hit (node s dev nr).file (s.vol dev) [46, 46] j = false := by
      intro j hj
      rw [Nat.lt_one_iff.mp hj]
      exact hzero
    have htwo := hdir.two
    refine ⟨1, ⟨Nat.le_of_succ_le hn, hbefore, fun _ => hone, fun k hk _ => hthere k ?_⟩,
      fun _ => htwo, ?_⟩
    · omega
    · rw [if_pos (show 1 < n from hn)]
      refine List.find?_range_eq_some.mpr ⟨hone, List.mem_range.mpr hn, fun j hj => ?_⟩
      rw [hbefore j hj]
      rfl

/-! ## The exchange of a directory -/

theorem Walks.bad (hw : Walks s₀ hs bs s) (ht : Tidy c s₀) (dev : Nat) :
    (s.vol dev).bad = (s₀.vol dev).bad := by
  funext b
  rw [hw.sound.good, ht.sound.good]

/-- A directory that can be searched has a link. -/
theorem Searchable.linked (h : Searchable c s dev nr) (hlive : Live s dev nr) :
    Linked s dev nr where
  toLive := hlive
  nlinks := fun hzero => by
    have hperm := h.2
    unfold permission at hperm
    rw [if_pos ⟨hlive.mounted.ne_zero, hzero⟩] at hperm
    cases hperm

theorem Tidy.mounted_on (ht : Tidy c s) {k : Fin NR_SUPER} {m : Entry}
    (hk : (s.super_block k).s_imount = some m) :
    Linked s (s.inode_table m).i_dev (s.inode_table m).i_num ∧
      S_ISDIR (node s (s.inode_table m).i_dev (s.inode_table m).i_num).i_mode := by
  have hdev := (ht.mounts.held k m hk).2
  have hnode : node s (s.inode_table m).i_dev (s.inode_table m).i_num =
      (s.inode_table m).toDInode := ht.table.node_eq hdev rfl
  obtain ⟨hlinks, hmode⟩ := ht.point k m hk
  exact ⟨⟨ht.live m hdev, by rwa [hnode]⟩, by rwa [hnode]⟩

theorem Tidy.exchanged (ht : Tidy c s) (hlinked : Linked s dev nr)
    (hmode : S_ISDIR (node s dev nr).i_mode) (name : List UInt8) :
    ∃ dev' nr' name', exchanged c s dev nr name = ((dev', nr'), name') ∧ Linked s dev' nr' ∧
      S_ISDIR (node s dev' nr').i_mode ∧ (name' = name ∨ name' = [46]) ∧
      (dev' = dev ∧ nr' = nr ∨ name' = [46, 46]) := by
  unfold Namei.exchanged
  split
  · rename_i hname
    split
    · exact ⟨dev, nr, [46], rfl, hlinked, hmode, .inr rfl, .inl ⟨rfl, rfl⟩⟩
    · split
      · split
        · exact ⟨dev, nr, name, rfl, hlinked, hmode, .inl rfl, .inl ⟨rfl, rfl⟩⟩
        · rename_i m hm
          obtain ⟨k, -, hk⟩ := Option.bind_eq_some_iff.mp hm
          obtain ⟨hlink, hdir⟩ := ht.mounted_on hk
          exact ⟨_, _, name, rfl, hlink, hdir, .inl rfl, .inr hname⟩
      · exact ⟨dev, nr, name, rfl, hlinked, hmode, .inl rfl, .inl ⟨rfl, rfl⟩⟩
  · exact ⟨dev, nr, name, rfl, hlinked, hmode, .inl rfl, .inl ⟨rfl, rfl⟩⟩

/-- The reference to the directory is given up for one to the directory below. -/
theorem exchange_spec (ht : Tidy c s₀) (hroom : Room s₀ (hs.map Handle.slot))
    (hw : Walks s₀ (⟨dir, dev, nr⟩ :: hs) bs s) (hlinked : Linked s₀ dev nr) (name : List UInt8) :
    ∃ s' dir', exchange c s dir name = .ok (s', dir', (exchanged c s₀ dev nr name).2) ∧
      Walks s₀ (⟨dir', (exchanged c s₀ dev nr name).1.1, (exchanged c s₀ dev nr name).1.2⟩ :: hs)
        bs s' := by
  have hdev := hlinked.mounted.ne_zero
  have hkey : (s.inode_table dir).key = (dev, nr) := (hw.hand _ (List.mem_cons_self ..)).1
  obtain ⟨hd, hn⟩ := Prod.mk.inj hkey
  have hroot : dir = c.root ↔ (dev, nr) = (s₀.inode_table c.root).key := by
    rw [← hw.ident c.root ht.root.1, ← hkey]
    constructor
    · intro h
      rw [h]
    · intro h
      exact hw.table.unique dir c.root (hd.trans_ne hdev) h
  unfold exchange exchanged
  by_cases hname : name = [46, 46]
  swap
  · rw [if_neg hname, if_neg hname]
    exact ⟨s, dir, rfl, hw⟩
  rw [if_pos hname, if_pos hname]
  by_cases hr : dir = c.root
  · rw [if_pos hr, if_pos (hroot.mp hr)]
    exact ⟨s, dir, rfl, hw⟩
  rw [if_neg hr, if_neg fun h => hr (hroot.mpr h), hn]
  by_cases htop : nr = ROOT_INO
  swap
  · rw [if_neg htop, if_neg htop]
    exact ⟨s, dir, rfl, hw⟩
  obtain ⟨k, hk⟩ := hlinked.mounted.get
  rw [if_pos htop, if_pos htop, hd, getSuper_congr hw.super_block, hk, Option.bind_some]
  dsimp only
  rw [hw.super_block]
  cases hmount : (s₀.super_block k).s_imount with
  | none => exact ⟨s, dir, rfl, hw⟩
  | some m =>
      obtain ⟨hpos, hne⟩ := ht.mounts.held k m hmount
      obtain ⟨s₁, hs₁, -, hw₁⟩ := hw.iput fun _ _ => hlinked.nlinks
      have hkey₁ := hw₁.ident m hpos
      have hpipe : (s₁.inode_table m).i_pipe = false := Bool.eq_false_iff.mpr fun hp =>
        hne ((congrArg Prod.fst hkey₁).symm.trans (hw₁.sound.pipe m hp))
      dsimp only
      rw [hs₁]
      exact ⟨_, m, rfl, hw₁.take m hkey₁ hpipe (hroom.lt hw₁.toLedger m)⟩

/-! ## Buffers in hand -/

/-- Only the holders of the buffers of one device change. -/
theorem Walks.setVol {bs' : List (Nat × Nat)} {v : Vol} (hw : Walks s₀ hs bs s)
    (hd : v.toDisk = (s.vol dev).toDisk) (hb : v.bad = (s.vol dev).bad)
    (hcount : ∀ dev' b, ((s.setVol dev v).vol dev').b_count b =
      (s₀.vol dev').b_count b + bs'.count (dev', b)) : Walks s₀ hs bs' (s.setVol dev v) := by
  have hdisk : ∀ dev', ((s.setVol dev v).vol dev').toDisk = (s.vol dev').toDisk := by
    intro dev'
    rw [setVol_vol]
    split
    · rename_i h
      rw [hd, h]
    · rfl
  have hsb : ∀ dev', ((s.setVol dev v).vol dev').sb = (s.vol dev').sb := fun dev' =>
    congrArg Disk.sb (hdisk dev')
  exact {
    sound := {
      mounted := hw.sound.mounted
      range := fun i hi => by
        rw [hsb]
        exact hw.sound.range i hi
      imap := fun dev' hm => by
        rw [hsb]
        exact hw.sound.imap dev' hm
      dirty := hw.sound.dirty
      pipe := hw.sound.pipe
      good := fun dev' b => by
        rw [setVol_vol]
        split
        · rw [hb]
          exact hw.sound.good dev b
        · exact hw.sound.good dev' b }
    super_block := hw.super_block
    count := hw.count
    hand := hw.hand
    ident := hw.ident
    mount := hw.mount
    buffers := hcount
    table := ⟨hw.table.unique, hw.table.clean⟩
    disk := fun dev' => (hdisk dev').trans (hw.disk dev')
    node := hw.node
    live := hw.live }

theorem Ledger.held {b : Nat} {v : Vol} (hl : Ledger s₀ hs bs s)
    (hv : v.b_count = ((s.vol dev).hold b).b_count) (dev' b' : Nat) :
    ((s.setVol dev v).vol dev').b_count b' =
      (s₀.vol dev').b_count b' + ((dev, b) :: bs).count (dev', b') := by
  have hold := hl.buffers dev' b'
  rw [List.count_cons, setVol_vol]
  by_cases hdev : dev' = dev
  · subst hdev
    rw [if_pos rfl, hv]
    show update (s.vol dev').b_count b ((s.vol dev').b_count b + 1) b' = _
    by_cases hb : b' = b
    · subst hb
      rw [update_self, hold, beq_self_eq_true, if_pos rfl, Nat.add_assoc]
    · rw [update_of_ne hb, if_neg fun heq => hb (Prod.mk.inj (beq_iff_eq.mp heq)).2.symm]
      exact hold
  · rw [if_neg hdev, if_neg fun heq => hdev (Prod.mk.inj (beq_iff_eq.mp heq)).1.symm]
    exact hold

theorem Walks.hold (hw : Walks s₀ hs bs s) (dev b : Nat) :
    Walks s₀ hs ((dev, b) :: bs) (s.setVol dev ((s.vol dev).hold b)) :=
  hw.setVol rfl rfl (hw.toLedger.held rfl)

theorem Ledger.released {b : Nat} (hl : Ledger s₀ hs ((dev, b) :: bs) s) :
    ∃ v, (s.vol dev).brelse b = .ok v ∧ v.toDisk = (s.vol dev).toDisk ∧ v.bad = (s.vol dev).bad ∧
      ∀ dev' b', ((s.setVol dev v).vol dev').b_count b' =
        (s₀.vol dev').b_count b' + bs.count (dev', b') := by
  have hheld := hl.buffers dev b
  rw [List.count_cons_self] at hheld
  unfold Vol.brelse
  rw [if_neg (by omega)]
  refine ⟨_, rfl, rfl, rfl, fun dev' b' => ?_⟩
  have hb := hl.buffers dev' b'
  rw [List.count_cons] at hb
  rw [setVol_vol]
  by_cases hdev : dev' = dev
  · subst hdev
    rw [if_pos rfl]
    show update (s.vol dev').b_count b ((s.vol dev').b_count b - 1) b' = _
    by_cases hbb : b' = b
    · subst hbb
      rw [update_self, hheld]
      rfl
    · rw [update_of_ne hbb, hb, if_neg fun heq => hbb (Prod.mk.inj (beq_iff_eq.mp heq)).2.symm,
        Nat.add_zero]
  · rw [if_neg hdev, hb, if_neg fun heq => hdev (Prod.mk.inj (beq_iff_eq.mp heq)).1.symm,
      Nat.add_zero]

theorem Walks.brelse {f : Found} (hw : Walks s₀ hs ((f.dev, f.bh) :: bs) s) :
    ∃ s', brelse s f = .ok s' ∧ Walks s₀ hs bs s' ∧ s'.inode_table = s.inode_table := by
  obtain ⟨v, hv, hdisk, hbad, hcount⟩ := hw.toLedger.released
  refine ⟨s.setVol f.dev v, ?_, hw.setVol hdisk hbad hcount, rfl⟩
  unfold Namei.brelse
  rw [hv]
  rfl

/-! ## find_entry -/

/-- What `find_entry` leaves behind: the directory that it has looked in, which may be another
than that it was called with. -/
structure Looked (s₀ : State) (hs : List Handle) (bs : List (Nat × Nat)) (dir : Entry)
    (dev nr : Nat) (s : State) : Prop extends Walks s₀ (⟨dir, dev, nr⟩ :: hs) bs s where
  linked : Linked s₀ dev nr
  mode : S_ISDIR (Namei.node s₀ dev nr).i_mode

/-- The entry `m` of the directory in hand has been found, and its buffer is in hand. -/
structure Sees (s₀ : State) (hs : List Handle) (bs : List (Nat × Nat)) (dir : Entry) (nr m : Nat)
    (f : Found) (s : State) : Prop extends
    Looked s₀ hs ((f.dev, f.bh) :: bs) dir f.dev nr s where
  lt : m < entries s₀ f.dev nr
  bh : f.bh = Vol.blockOf (Namei.node s₀ f.dev nr).file (s₀.vol f.dev) (m / DIR_ENTRIES_PER_BLOCK)
  de : f.de = DirScan.offset m
  inode : s.deInode f = entryInode s₀ f.dev nr m
  target : Linked s₀ f.dev (entryInode s₀ f.dev nr m)

theorem Looked.directory (h : Looked s₀ hs bs dir dev nr s) (ht : Tidy c s₀) :
    Directory s₀ dev nr := ht.directory dev nr h.linked h.mode

theorem Looked.toDInode (h : Looked s₀ hs bs dir dev nr s) :
    (s.inode_table dir).toDInode = Namei.node s₀ dev nr :=
  h.slot (List.mem_cons_self ..) h.linked.mounted.ne_zero

theorem hit_inode (h : DirScan.hit (node s dev nr).file (s.vol dev) name m = true) :
    entryInode s dev nr m ≠ 0 := by
  intro hzero
  unfold DirScan.hit matchEntry at h
  rw [if_pos (.inl hzero)] at h
  cases h

theorem scan_spec (ht : Tidy c s₀) (hl : Looked s₀ hs bs dir dev nr s) (hname : name ≠ [])
    (hlen : name.length ≤ NAME_LEN)
    (hn : n = entries s₀ dev nr ∨ name = [46, 46] ∧ 2 ≤ n) :
    ∃ m, (m < n → m < entries s₀ dev nr ∧ entryInode s₀ dev nr m ≠ 0) ∧
      firstEntry s₀ dev nr name n = (if m < n then some m else none) ∧
      DirScan.findEntry false n (s.inode_table dir).file (s.vol dev) name =
        .ok (DirScan.foundAt (Namei.node s₀ dev nr).file (s.vol dev) n m) := by
  have hdir := hl.directory ht
  obtain ⟨m, hfirst, hm, heq⟩ := hdir.first (ht.sound.good dev) hn
  have hz : (s.inode_table dir).file.i_zone = (Namei.node s₀ dev nr).file.i_zone :=
    congrArg DInode.i_zone hl.toDInode
  have hd := hl.disk dev
  have hb := hl.bad ht dev
  have hgone : ¬DirScan.Gone (s.inode_table dir).file (s.vol dev) 0 := by
    unfold DirScan.Gone
    rw [DirScan.blockOf_congr hz hd hb, hl.sound.good]
    have htwo := hdir.two
    exact not_or.mpr ⟨(hdir.dense 0 (by omega)).1, Bool.false_ne_true⟩
  refine ⟨m, fun hlt => ⟨hm hlt, hit_inode (hfirst.here hlt)⟩, heq, ?_⟩
  rw [DirScan.findEntry_first hname hlen hgone (hfirst.congr hz hd hb)]
  unfold DirScan.foundAt
  rw [DirScan.blockOf_congr hz rfl rfl]

theorem findEntry_spec (ht : Tidy c s₀) (hroom : Room s₀ (hs.map Handle.slot))
    (hl : Looked s₀ hs bs dir dev nr s) (name : List UInt8) :
    (lookup c s₀ dev nr name = none ∧ ∃ s' dir',
        findEntry c s dir name = .ok (s', dir', none) ∧ Looked s₀ hs bs dir' dev nr s') ∨
      ∃ s' dir' nr' m f, lookup c s₀ dev nr name = some (f.dev, entryInode s₀ f.dev nr' m) ∧
        findEntry c s dir name = .ok (s', dir', some f) ∧ Sees s₀ hs bs dir' nr' m f s' := by
  have hsize : (s.inode_table dir).i_size / ENTRY = entries s₀ dev nr :=
    congrArg (· / ENTRY) (congrArg DInode.i_size hl.toDInode)
  have hlen : (name.take NAME_LEN).length ≤ NAME_LEN := List.length_take_le ..
  unfold findEntry lookup
  dsimp only
  rw [hsize]
  generalize name.take NAME_LEN = name at hlen
  by_cases hname : name = []
  · rw [if_pos hname, if_pos (List.length_eq_zero_iff.mpr hname)]
    exact .inl ⟨rfl, s, dir, rfl, hl⟩
  rw [if_neg hname, if_neg fun h => hname (List.length_eq_zero_iff.mp h)]
  obtain ⟨dev', nr', name', hexch, hlinked, hmode, hname', hsame⟩ :=
    ht.exchanged hl.linked hl.mode name
  obtain ⟨s₁, dir', hs₁, hw₁⟩ := exchange_spec ht hroom hl.toWalks hl.linked name
  rw [hexch] at hs₁ hw₁ ⊢
  have hl₁ : Looked s₀ hs bs dir' dev' nr' s₁ := ⟨hw₁, hlinked, hmode⟩
  have hd₁ : (s₁.inode_table dir').i_dev = dev' :=
    congrArg Prod.fst (hw₁.hand _ (List.mem_cons_self ..)).1
  have hne' : name' ≠ [] ∧ name'.length ≤ NAME_LEN := by
    rcases hname' with rfl | rfl
    · exact ⟨hname, hlen⟩
    · exact ⟨List.cons_ne_nil _ _, by decide⟩
  have hn : entries s₀ dev nr = entries s₀ dev' nr' ∨ name' = [46, 46] ∧ 2 ≤ entries s₀ dev nr := by
    rcases hsame with ⟨rfl, rfl⟩ | hdots
    · exact .inl rfl
    · exact .inr ⟨hdots, (hl.directory ht).two⟩
  obtain ⟨m, hm, hfirst, hscan⟩ := scan_spec ht hl₁ hne'.1 hne'.2 hn
  rw [hs₁]
  dsimp only [bind, Except.bind]
  rw [hd₁, hfirst, hscan]
  unfold DirScan.foundAt
  by_cases hlt : m < entries s₀ dev nr
  swap
  · rw [if_neg hlt] at hfirst ⊢
    rw [if_neg hlt]
    -- `..` would have been found
    obtain ⟨rfl, rfl⟩ : dev' = dev ∧ nr' = nr := hsame.resolve_right fun hdots =>
      (hl₁.directory ht).dots_found (hl.directory ht).two (hdots ▸ hfirst)
    refine .inl ⟨rfl, s₁, dir', ?_, hl₁⟩
    show Except.ok (s₁.setVol dev' (s₁.vol dev'), dir', none) = _
    rw [setVol_self]
  · rw [if_pos hlt, if_pos hlt]
    have hb₁ := hw₁.bad ht dev'
    generalize hbh : Vol.blockOf (Namei.node s₀ dev' nr').file (s₁.vol dev')
      (m / DIR_ENTRIES_PER_BLOCK) = bh
    have hblock : bh = Vol.blockOf (Namei.node s₀ dev' nr').file (s₀.vol dev')
        (m / DIR_ENTRIES_PER_BLOCK) := by
      rw [← hbh, DirScan.blockOf_congr rfl (hw₁.disk dev') hb₁]
    obtain ⟨hentry, hino⟩ := hm hlt
    refine .inr ⟨s₁.setVol dev' ((s₁.vol dev').hold bh), dir', nr', m,
      ⟨dev', bh, DirScan.offset m⟩, rfl, rfl, ⟨hw₁.hold dev' bh, hlinked, hmode⟩, hentry, hblock,
      rfl, ?_, (hl₁.directory ht).linked m hentry hino⟩
    unfold State.deInode entryInode DirScan.dataOf
    rw [setVol_vol, if_pos rfl, ← hblock, ← hw₁.disk dev']
    rfl

/-! ## Where calls arrive -/

/-- The inode that a reference in hand refers to is in use, and has a link unless it has been
referred to all the time. -/
structure Anchored (s₀ : State) (h : Handle) : Prop where
  live : Live s₀ h.dev h.nr
  linked : (s₀.inode_table h.slot).i_count = 0 → Linked s₀ h.dev h.nr

theorem Linked.anchored (h : Linked s₀ dev nr) (i : Entry) : Anchored s₀ ⟨i, dev, nr⟩ :=
  ⟨h.toLive, fun _ => h⟩

/-- A call comes to where a path leads: `no` says what it returns when that is nowhere, `yes` when
it is an inode. -/
def Arrives {α : Type} (s₀ : State) (hs : List Handle) (bs : List (Nat × Nat)) (no : α → Prop)
    (yes : Entry → α) (w : Way) (x : Except Stop (State × α)) : Prop :=
  match w with
  | .lost => ∃ s r, x = .ok (s, r) ∧ no r ∧ Walks s₀ hs bs s
  | .leads dev nr => ∃ s i, x = .ok (s, yes i) ∧ Walks s₀ (⟨i, dev, nr⟩ :: hs) bs s ∧
      Anchored s₀ ⟨i, dev, nr⟩
  | .crowded => x = .error (.panic "No free inodes in mem")

theorem Arrives.bind {α β : Type} {no : α → Prop} {yes : Entry → α} {no' : β → Prop}
    {yes' : Entry → β} {w : Way} {g : Nat → Nat → Way} {x : Except Stop (State × α)}
    {f : State × α → Except Stop (State × β)} (h : Arrives s₀ hs bs no yes w x)
    (hlost : ∀ s r, no r → Walks s₀ hs bs s →
      Arrives s₀ hs bs no' yes' .lost (f (s, r)))
    (hleads : ∀ dev nr s i, w = .leads dev nr → Walks s₀ (⟨i, dev, nr⟩ :: hs) bs s →
      Anchored s₀ ⟨i, dev, nr⟩ → Arrives s₀ hs bs no' yes' (g dev nr) (f (s, yes i))) :
    Arrives s₀ hs bs no' yes' (w.bind g) (x >>= f) := by
  cases w with
  | lost =>
      obtain ⟨s, r, rfl, hr, hw⟩ := h
      exact hlost s r hr hw
  | leads dev nr =>
      obtain ⟨s, i, rfl, hw, ha⟩ := h
      exact hleads dev nr s i rfl hw ha
  | crowded =>
      rw [show x = _ from h]
      exact rfl

theorem Tidy.cross (ht : Tidy c s) (h : Linked s dev nr) :
    Linked s (cross s dev nr).1 (cross s dev nr).2 := by
  unfold Namei.cross
  cases hat : mountAt s dev nr with
  | none => exact h
  | some k =>
      obtain ⟨m, hk, -⟩ := mountAt_some hat
      exact ht.top k m hk

theorem iget_arrives (ht : Tidy c s₀) (hroom : Room s₀ (hs.map Handle.slot))
    (hw : Walks s₀ hs bs s) (h : Linked s₀ dev nr) :
    Arrives s₀ hs bs (fun _ => False) id (enterTo s₀ (hs.map Handle.slot) dev nr)
      (iget s dev nr) := by
  unfold enterTo
  by_cases hspared : Spared s₀ (hs.map Handle.slot)
  · obtain ⟨s', i, hs', hw'⟩ := iget_ok hw ht.mounts hroom h.toLive hspared
    rw [if_pos hspared]
    exact ⟨s', i, hs', hw', (ht.cross h).anchored i⟩
  · rw [if_neg hspared]
    exact iget_crowded hw.toLedger h.mounted.ne_zero hspared

/-- References in hand are given up, one after the other. -/
theorem Walks.iputs (hs' : List Handle) : ∀ {s : State}, Walks s₀ (hs' ++ hs) bs s →
    (∀ h ∈ hs', Anchored s₀ h) →
    ∃ s', (hs'.map Handle.slot).foldlM Namei.iput s = .ok s' ∧ Walks s₀ hs bs s' := by
  induction hs' with
  | nil => exact fun hw _ => ⟨_, rfl, hw⟩
  | cons h hs' ih =>
      intro s hw ha
      obtain ⟨hfirst, hrest⟩ := List.forall_mem_cons.mp ha
      obtain ⟨s₁, hs₁, -, hw₁⟩ := hw.iput fun hzero _ => (hfirst.linked hzero).nlinks
      obtain ⟨s', hs', hw'⟩ := ih hw₁ hrest
      refine ⟨s', ?_, hw'⟩
      rw [List.map_cons, List.foldlM_cons, hs₁]
      exact hs'

theorem Walks.leave {α : Type} (hw : Walks s₀ (⟨i, dev, nr⟩ :: hs) bs s)
    (ha : Anchored s₀ ⟨i, dev, nr⟩) (r : α) :
    ∃ s', leave s [i] r = .ok (s', r) ∧ Walks s₀ hs bs s' := by
  obtain ⟨s', hs', hw'⟩ := Walks.iputs [⟨i, dev, nr⟩] hw fun h hh =>
    List.mem_singleton.mp hh ▸ ha
  refine ⟨s', ?_, hw'⟩
  unfold Namei.leave
  rw [show [i].foldlM Namei.iput s = _ from hs']
  rfl

theorem Sees.drop {f : Found} (h : Sees s₀ hs bs dir nr m f s) :
    (s.inode_table dir).i_dev = f.dev ∧
      ∃ s₁ s₂, brelse s f = .ok s₁ ∧ iput s₁ dir = .ok s₂ ∧ Walks s₀ hs bs s₂ := by
  have hkey := (h.hand _ (List.mem_cons_self ..)).1
  obtain ⟨s₁, hs₁, hw₁, -⟩ := h.toWalks.brelse
  obtain ⟨s₂, hs₂, -, hw₂⟩ := hw₁.iput fun _ _ => h.linked.nlinks
  exact ⟨congrArg Prod.fst hkey, s₁, s₂, hs₁, hs₂, hw₂⟩

theorem Walks.permission (hw : Walks s₀ (⟨i, dev, nr⟩ :: hs) bs s) (hlive : Live s₀ dev nr)
    (c : Current) (mask : Nat) :
    Namei.permission c (s.inode_table i) mask = Namei.permission c (inodeAt s₀ dev nr) mask := by
  have hnode : (s.inode_table i).toDInode = Namei.node s₀ dev nr :=
    hw.slot (List.mem_cons_self ..) hlive.mounted.ne_zero
  have hd : (s.inode_table i).i_dev = dev :=
    congrArg Prod.fst (hw.hand _ (List.mem_cons_self ..)).1
  unfold Namei.permission
  rw [hnode, hd]
  rfl

theorem Walks.searchable (hw : Walks s₀ (⟨i, dev, nr⟩ :: hs) bs s) (hlive : Live s₀ dev nr) :
    (¬S_ISDIR (s.inode_table i).i_mode ∨
      Namei.permission c (s.inode_table i) MAY_EXEC = false) ↔ ¬Searchable c s₀ dev nr := by
  have hnode : (s.inode_table i).toDInode = Namei.node s₀ dev nr :=
    hw.slot (List.mem_cons_self ..) hlive.mounted.ne_zero
  unfold Searchable
  rw [hw.permission hlive, hnode, not_and_or, Bool.not_eq_true]

theorem walk_arrives (ht : Tidy c s₀) (hroom : Room s₀ (hs.map Handle.slot))
    (names : List (List UInt8)) :
    ∀ {s : State} {i : Entry} {dev nr : Nat}, Walks s₀ (⟨i, dev, nr⟩ :: hs) bs s →
      Anchored s₀ ⟨i, dev, nr⟩ →
      Arrives s₀ hs bs (· = none) some (walkTo c s₀ (hs.map Handle.slot) names dev nr)
        (walk c names s i) := by
  induction names with
  | nil =>
      intro s i dev nr hw ha
      unfold walk walkTo
      by_cases hsearch : Searchable c s₀ dev nr
      · rw [if_pos hsearch, if_neg fun h => (hw.searchable ha.live).mp h hsearch]
        exact ⟨s, i, rfl, hw, ha⟩
      · rw [if_neg hsearch, if_pos ((hw.searchable ha.live).mpr hsearch)]
        obtain ⟨s', hs', hw'⟩ := hw.leave ha none
        exact ⟨s', none, hs', rfl, hw'⟩
  | cons name names ih =>
      intro s i dev nr hw ha
      unfold walk walkTo
      by_cases hsearch : Searchable c s₀ dev nr
      swap
      · rw [if_neg hsearch, if_pos ((hw.searchable ha.live).mpr hsearch)]
        obtain ⟨s', hs', hw'⟩ := hw.leave ha none
        exact ⟨s', none, hs', rfl, hw'⟩
      rw [if_pos hsearch, if_neg fun h => (hw.searchable ha.live).mp h hsearch]
      have hl : Looked s₀ hs bs i dev nr s := ⟨hw, hsearch.linked ha.live, hsearch.1⟩
      unfold lookTo
      dsimp only
      rcases findEntry_spec ht hroom hl name with ⟨hlook, s₁, dir, hs₁, hl₁⟩ |
        ⟨s₁, dir, nr₁, m, f, hlook, hs₁, hsees⟩
      · obtain ⟨s', hs', hw'⟩ := hl₁.toWalks.leave (hl₁.linked.anchored dir) none
        rw [hlook, hs₁]
        exact ⟨s', none, hs', rfl, hw'⟩
      · obtain ⟨hd, s₂, s₃, hs₂, hs₃, hw₃⟩ := hsees.drop
        rw [hlook, hs₁]
        dsimp only [bind, Except.bind]
        rw [hs₂, hd, hsees.inode]
        dsimp only
        rw [hs₃]
        exact (iget_arrives ht hroom hw₃ hsees.target).bind (fun _ _ hr => hr.elim)
          fun dev' nr' s' i' _ hw' ha' => ih hw' ha'

/-- A walk that begins in an inode that has been referred to before the call. -/
theorem start_arrives (ht : Tidy c s₀) (hroom : Room s₀ (hs.map Handle.slot))
    (hw : Walks s₀ hs bs s) (names : List (List UInt8))
    (hi : 0 < (s₀.inode_table i).i_count ∧ (s₀.inode_table i).i_dev ≠ 0) :
    Arrives s₀ hs bs (· = none) some
      (walkTo c s₀ (hs.map Handle.slot) names (s₀.inode_table i).i_dev (s₀.inode_table i).i_num)
      (walk c names (s.refer i) i) := by
  obtain ⟨hpos, hdev⟩ := hi
  have hkey := hw.ident i hpos
  have hpipe : (s.inode_table i).i_pipe = false := Bool.eq_false_iff.mpr fun hp =>
    hdev ((congrArg Prod.fst hkey).symm.trans (hw.sound.pipe i hp))
  exact walk_arrives ht hroom names (hw.take i hkey hpipe (hroom.lt hw.toLedger i))
    ⟨ht.live i hdev, fun hzero => absurd hzero (Nat.ne_of_gt hpos)⟩

theorem start_held {path rest : List UInt8} (h : start c path = some (i, rest)) :
    i = c.root ∨ i = c.pwd := by
  unfold start at h
  split at h
  · cases h
  · exact .inl (Prod.mk.inj (Option.some.inj h)).1.symm
  · exact .inr (Prod.mk.inj (Option.some.inj h)).1.symm

theorem getDir_arrives (ht : Tidy c s₀) (hroom : Room s₀ (hs.map Handle.slot))
    (hw : Walks s₀ hs bs s) (path : List UInt8) :
    Arrives s₀ hs bs (· = none) some (dirTo c s₀ (hs.map Handle.slot) path) (getDir c s path) := by
  have hheld : ∀ i, 0 < (s₀.inode_table i).i_count → (s.inode_table i).i_count ≠ 0 := by
    intro i hi
    rw [hw.count]
    omega
  unfold getDir dirTo
  rw [if_neg (hheld _ ht.root.1), if_neg (hheld _ ht.pwd.1)]
  cases hstart : start c path with
  | none => exact ⟨s, none, rfl, rfl, hw⟩
  | some r =>
      obtain ⟨i, rest⟩ := r
      refine start_arrives ht hroom hw _ ?_
      rcases start_held hstart with rfl | rfl
      · exact ht.root
      · exact ht.pwd

/-- A directory that a path goes through may be searched. -/
theorem walkTo_leads {es : List Entry} (names : List (List UInt8)) :
    ∀ {dev₀ nr₀ : Nat}, walkTo c s es names dev₀ nr₀ = .leads dev nr → Searchable c s dev nr := by
  induction names with
  | nil =>
      intro dev₀ nr₀ h
      unfold walkTo at h
      split at h
      · cases h
        assumption
      · cases h
  | cons name names ih =>
      intro dev₀ nr₀ h
      unfold walkTo at h
      split at h
      · cases hlook : lookTo c s es dev₀ nr₀ name with
        | lost =>
            rw [hlook] at h
            cases h
        | leads dev₁ nr₁ =>
            rw [hlook] at h
            exact ih h
        | crowded =>
            rw [hlook] at h
            cases h
      · cases h

theorem dirTo_leads {es : List Entry} {path : List UInt8}
    (h : dirTo c s es path = .leads dev nr) : Searchable c s dev nr := by
  unfold dirTo at h
  cases hstart : start c path with
  | none =>
      rw [hstart] at h
      cases h
  | some r =>
      rw [hstart] at h
      exact walkTo_leads _ h

theorem Tidy.start (ht : Tidy c s) : Walks s [] [] s where
  sound := ht.sound
  super_block := rfl
  count := fun _ => rfl
  hand := fun _ hh => absurd hh List.not_mem_nil
  ident := fun _ _ => rfl
  mount := fun _ => rfl
  buffers := fun _ _ => rfl
  table := ht.table
  disk := fun _ => rfl
  node := fun _ _ _ => rfl
  live := ht.live

end Namei

end Linux011
