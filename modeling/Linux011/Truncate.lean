import Linux011.Bmap
import Linux011.Bread
import Linux011.Loops
import Linux011.Volume

/-!
# Truncating a file

`free_ind`, `free_dind` and `truncate` of `fs/truncate.c`. An index block is held while its words
are freed, and is freed behind them. They are written over the three functions on blocks that
they call, and `BlockView` is what these are to do; `Cut` says how far a run has come: which slots
of the file are done, and which blocks it holds.

The bits of the blocks of the file are cleared, and no others (`truncate_exact`).

`free_ind` and `free_dind` are one loop over the words of an index block with a different
function for each word, and `Frees` is what such a function is to do: free the block of a slot
with all that lies below it. `frees_indirect` takes one level to the next, and is used twice for
the double indirect block. The slots are those of `Bmap`; that the blocks of different slots are
different is what makes the rounds of a loop independent of one another, since a block that has
been freed is no block of any slot that is still to come. `Cut` counts the index blocks that are
held on the way down. The functions on blocks are a parameter because the result is needed twice:
over the buffers of `Zones`, where it is stated, and over a volume for the calls on paths.
-/

namespace Linux011

open Function Super SuperBlock Zones Bmap

namespace Truncate

/-- The functions on the blocks of one device. -/
structure BlockOps (σ : Type) where
  /-- the bytes of the block, which is held then -/
  bread : σ → Nat → Option (σ × Bytes)
  brelse : σ → Nat → Except String σ
  freeBlock : σ → Nat → Except String σ

variable {σ : Type}

/-- `free_ind` and `free_dind`: `free` is called for each word that is not 0. The words of a
buffer that is held do not change. -/
def BlockOps.freeIndirect (ops : BlockOps σ) (free : σ → Nat → Except String σ) (s : σ)
    (block : Nat) : Except String σ :=
  if block = 0 then .ok s
  else match ops.bread s block with
    | none => ops.freeBlock s block
    | some (s, b_data) => do
        let s ← (List.range 512).foldlM (fun s i =>
          if word b_data i = 0 then .ok s else free s (word b_data i)) s
        let s ← ops.brelse s block
        ops.freeBlock s block

def BlockOps.freeInd (ops : BlockOps σ) : σ → Nat → Except String σ :=
  ops.freeIndirect ops.freeBlock

def BlockOps.freeDind (ops : BlockOps σ) : σ → Nat → Except String σ :=
  ops.freeIndirect ops.freeInd

def S_IFMT : Nat := 0o170000

def S_ISREG (m : Nat) : Prop := m &&& S_IFMT = 0o100000

def S_ISDIR (m : Nat) : Prop := m &&& S_IFMT = 0o040000

instance (m : Nat) : Decidable (S_ISREG m) := inferInstanceAs (Decidable (_ = _))

instance (m : Nat) : Decidable (S_ISDIR m) := inferInstanceAs (Decidable (_ = _))

/-- `if (inode->i_zone[i])` with its body. -/
def BlockOps.freeDirect (ops : BlockOps σ) (is : MInode × σ) (i : Nat) :
    Except String (MInode × σ) :=
  if is.1.i_zone i = 0 then .ok is
  else (ops.freeBlock is.2 (is.1.i_zone i)).map fun s =>
    ({ is.1 with i_zone := update is.1.i_zone i 0 }, s)

def BlockOps.truncate (ops : BlockOps σ) (i_mode : Nat) (inode : MInode) (s : σ) :
    Except String (MInode × σ) :=
  if ¬(S_ISREG i_mode ∨ S_ISDIR i_mode) then .ok (inode, s)
  else do
    let (inode, s) ← (List.range 7).foldlM ops.freeDirect (inode, s)
    let s ← ops.freeInd s (inode.i_zone 7)
    let s ← ops.freeDind s (inode.i_zone 8)
    .ok ({ inode with
      i_zone := update (update inode.i_zone 7 0) 8 0
      i_size := 0
      i_dirt := true }, s)

/-- What the functions do to the zone map, the bytes of the blocks and their holders. -/
structure BlockView (ops : BlockOps σ) where
  sb : σ → SuperBlock
  content : σ → Nat → Bytes
  count : σ → Nat → Nat
  Good : σ → Prop
  bread : ∀ {s} b, Good s → ∃ s', ops.bread s b = some (s', content s b) ∧ Good s' ∧
    sb s' = sb s ∧ content s' = content s ∧ count s' = update (count s) b (count s b + 1)
  brelse : ∀ {s b}, Good s → 0 < count s b → ∃ s', ops.brelse s b = .ok s' ∧ Good s' ∧
    sb s' = sb s ∧ content s' = content s ∧ count s' = update (count s) b (count s b - 1)
  freeBlock : ∀ {s z sb'}, Good s → (sb s).InRange z → count s z = 0 →
    freeZone (sb s) z = .ok sb' → ∃ s', ops.freeBlock s z = .ok s' ∧ Good s' ∧ sb s' = sb' ∧
      count s' = count s ∧ ∀ b, b ≠ z → content s' b = content s b

def BlockView.disk {ops : BlockOps σ} (V : BlockView ops) (s : σ) : Disk := ⟨V.sb s, V.content s⟩

theorem freeIndirect_zero (ops : BlockOps σ) (free : σ → Nat → Except String σ) (s : σ) :
    ops.freeIndirect free s 0 = .ok s := if_pos rfl

/-! ## How far a run has come -/

variable {ops : BlockOps σ} {V : BlockView ops} {d : DSuperBlock} {inode : MInode} {s₀ s : σ}
  {x y : Bmap.Slot} {hold : List Nat} {Done Done' : Bmap.Slot → Prop}

/-- The slots in `Done` are freed, and the blocks in `hold` are held. -/
structure Cut (V : BlockView ops) (d : DSuperBlock) (inode : MInode) (s₀ : σ)
    (Done : Bmap.Slot → Prop) (hold : List Nat) (s : σ) : Prop where
  covers : Covers (V.sb s) d
  good : V.Good s
  imap : (V.sb s).s_imap = (V.sb s₀).s_imap
  bits : ∀ g, used (V.sb s).s_zmap g = true ↔ used (V.sb s₀).s_zmap g = true ∧
    ∀ y, y.Valid → Done y → value inode (V.disk s₀) y ≠ 0 →
      g ≠ value inode (V.disk s₀) y + 1 - d.s_firstdatazone
  content : ∀ y, y.Valid → ¬Done y → value inode (V.disk s₀) y ≠ 0 →
    V.content s (value inode (V.disk s₀) y) = V.content s₀ (value inode (V.disk s₀) y)
  count : ∀ b, V.count s b = V.count s₀ b + hold.count b

theorem Cut.congr (h : Cut V d inode s₀ Done hold s)
    (hdone : ∀ y, y.Valid → value inode (V.disk s₀) y ≠ 0 → (Done' y ↔ Done y)) :
    Cut V d inode s₀ Done' hold s where
  covers := h.covers
  good := h.good
  imap := h.imap
  bits := fun g => by
    rw [h.bits]
    refine and_congr_right fun _ => forall_congr' fun y => forall_congr' fun hy => ?_
    exact ⟨fun hg hd hne => hg ((hdone y hy hne).mp hd) hne,
      fun hg hd hne => hg ((hdone y hy hne).mpr hd) hne⟩
  content := fun y hy hd hne => h.content y hy (fun hd' => hd ((hdone y hy hne).mpr hd')) hne
  count := h.count

/-- `bread` of a block of the file that has not been freed. -/
theorem Cut.read (h : Cut V d inode s₀ Done hold s) (hx : x.Valid) (hdone : ¬Done x)
    (hne : value inode (V.disk s₀) x ≠ 0) :
    ∃ s', ops.bread s (value inode (V.disk s₀) x)
        = some (s', V.content s₀ (value inode (V.disk s₀) x)) ∧
      Cut V d inode s₀ Done (value inode (V.disk s₀) x :: hold) s' := by
  obtain ⟨s', hread, hgood, hsb, hcontent, hcount⟩ := V.bread (value inode (V.disk s₀) x) h.good
  rw [h.content x hx hdone hne] at hread
  refine ⟨s', hread, hsb ▸ h.covers, hgood, hsb ▸ h.imap, hsb ▸ h.bits, ?_, fun b => ?_⟩
  · rw [hcontent]
    exact h.content
  · rw [hcount, List.count_cons]
    rcases eq_or_ne b (value inode (V.disk s₀) x) with rfl | hb
    · rw [update_self, h.count, beq_self_eq_true, if_pos rfl, Nat.add_assoc]
    · rw [update_of_ne hb, h.count, if_neg fun heq => hb (beq_iff_eq.mp heq).symm, Nat.add_zero]

theorem Cut.release {b : Nat} (h : Cut V d inode s₀ Done (b :: hold) s) :
    ∃ s', ops.brelse s b = .ok s' ∧ Cut V d inode s₀ Done hold s' := by
  have hb := h.count b
  rw [List.count_cons_self] at hb
  obtain ⟨s', hrel, hgood, hsb, hcontent, hcount⟩ := V.brelse (b := b) h.good (by omega)
  refine ⟨s', hrel, hsb ▸ h.covers, hgood, hsb ▸ h.imap, hsb ▸ h.bits, ?_, fun b' => ?_⟩
  · rw [hcontent]
    exact h.content
  · rw [hcount]
    rcases eq_or_ne b' b with rfl | hne
    · rw [update_self, hb]
      rfl
    · rw [update_of_ne hne, h.count, List.count_cons_of_ne hne.symm]

variable (htree : Tree d inode (V.disk s₀))
  (hunheld : ∀ x, x.Valid → value inode (V.disk s₀) x ≠ 0 → V.count s₀ (value inode (V.disk s₀) x) = 0)

include htree in
/-- A slot that is not done has its bit set still: no other slot has the block. -/
theorem Cut.allocated (h : Cut V d inode s₀ Done hold s) (hx : x.Valid) (hdone : ¬Done x)
    (hne : value inode (V.disk s₀) x ≠ 0) :
    (V.sb s).InRange (value inode (V.disk s₀) x) ∧ (V.sb s).allocated (value inode (V.disk s₀) x) = true := by
  obtain ⟨hrange, halloc⟩ := htree.used x hx hne
  refine ⟨(Covers.inRange_iff htree.covers h.covers _).mpr hrange, ?_⟩
  unfold SuperBlock.allocated at halloc ⊢
  rw [htree.covers.fdz] at halloc
  rw [h.covers.fdz, h.bits]
  refine ⟨halloc, fun y hy hd hy0 hbit => hdone ?_⟩
  rw [← htree.covers.fdz] at hbit
  obtain rfl := htree.inj x y hx hy (bit_inj hrange (htree.used y hy hy0).1 hbit) hne
  exact hd

include htree hunheld in
/-- `free_block` of the block of a slot that is not done. -/
theorem Cut.free (h : Cut V d inode s₀ Done hold s) (hx : x.Valid) (hdone : ¬Done x)
    (hne : value inode (V.disk s₀) x ≠ 0) (hhold : value inode (V.disk s₀) x ∉ hold) :
    ∃ s', ops.freeBlock s (value inode (V.disk s₀) x) = .ok s' ∧
      Cut V d inode s₀ (fun y => Done y ∨ y = x) hold s' := by
  obtain ⟨hrange, halloc⟩ := h.allocated htree hx hdone hne
  obtain ⟨sb, hfree, hcovers, -⟩ := freeZone_spec h.covers hrange halloc
  have hused := freeZone_used hfree
  have hcount := h.count (value inode (V.disk s₀) x)
  rw [hunheld x hx hne, List.count_eq_zero_of_not_mem hhold] at hcount
  obtain ⟨s', hblock, hgood, rfl, hcounts, hcontent⟩ := V.freeBlock h.good hrange hcount hfree
  refine ⟨s', hblock, hcovers, hgood, ?_, fun g => ?_, fun y hy hd hy0 => ?_, fun b => ?_⟩
  · rw [freeZone_imap hfree, h.imap]
  · rw [hused, h.covers.fdz]
    by_cases hg : g = value inode (V.disk s₀) x + 1 - d.s_firstdatazone
    · rw [if_pos hg]
      exact ⟨nofun, fun ⟨_, hall⟩ => absurd hg (hall x hx (.inr rfl) hne)⟩
    · rw [if_neg hg, h.bits]
      refine and_congr_right fun _ => ⟨fun hall y hy hd hy0 => ?_, fun hall y hy hd hy0 =>
        hall y hy (.inl hd) hy0⟩
      rcases hd with hd | rfl
      · exact hall y hy hd hy0
      · exact hg
  · have hyx : value inode (V.disk s₀) y ≠ value inode (V.disk s₀) x := fun heq =>
      hd (.inr (htree.inj y x hy hx heq hy0))
    rw [hcontent _ hyx]
    exact h.content y hy (fun hd' => hd (.inl hd')) hy0
  · rw [hcounts]
    exact h.count b

/-! ## Indirect blocks -/

/-- `y` is `x` or lies below it. -/
def Under (x y : Bmap.Slot) : Prop :=
  y = x ∨ y.parent = some x ∨ ∃ p, y.parent = some p ∧ p.parent = some x

/-- `f` frees the block of the slot `x` with all below it. -/
def Frees (V : BlockView ops) (d : DSuperBlock) (inode : MInode) (s₀ : σ) (f : σ → Nat → Except String σ)
    (x : Bmap.Slot) : Prop :=
  ∀ Done hold s, Cut V d inode s₀ Done hold s → value inode (V.disk s₀) x ≠ 0 →
    (∀ y, y.Valid → Under x y → value inode (V.disk s₀) y ≠ 0 →
      ¬Done y ∧ value inode (V.disk s₀) y ∉ hold) →
    ∃ s', f s (value inode (V.disk s₀) x) = .ok s' ∧
      Cut V d inode s₀ (fun y => Done y ∨ Under x y) hold s'

theorem value_under (hxy : Under x y) (hx : value inode (V.disk s) x = 0) :
    value inode (V.disk s) y = 0 := by
  rcases hxy with rfl | hp | ⟨p, hp, hpx⟩
  · exact hx
  · exact value_parent_zero hp hx
  · exact value_parent_zero hp (value_parent_zero hpx hx)

include htree hunheld in
/-- `free_block` frees a slot that no slot lies below. -/
theorem frees_leaf (hx : x.Valid) (hleaf : ∀ y : Bmap.Slot, y.parent ≠ some x) :
    Frees V d inode s₀ ops.freeBlock x := by
  intro Done hold s h hne hfresh
  obtain ⟨hdone, hhold⟩ := hfresh x hx (.inl rfl) hne
  obtain ⟨s', hfree, h'⟩ := h.free htree hunheld hx hdone hne hhold
  refine ⟨s', hfree, h'.congr fun y _ _ => or_congr_right ⟨fun hy => ?_, .inl⟩⟩
  rcases hy with rfl | hp | ⟨p, hp, hpx⟩
  · rfl
  · exact absurd hp (hleaf y)
  · exact absurd hpx (hleaf p)

/-- The words of the block of `x` are the slots `c i`. -/
structure Children (x : Bmap.Slot) (c : Nat → Bmap.Slot) : Prop where
  valid : ∀ i < 512, (c i).Valid
  parent : ∀ i < 512, (c i).parent = some x
  idx : ∀ i < 512, (c i).idx = i
  under : ∀ y, y.Valid → (Under x y ↔ (∃ i < 512, Under (c i) y) ∨ y = x)
  apart : ∀ i j y, Under (c i) y → Under (c j) y → i = j
  irrefl : ∀ i, ¬Under (c i) x

variable {c : Nat → Bmap.Slot} {free : σ → Nat → Except String σ}

include htree in
/-- A round of the loop over the words of an index block that is held. -/
theorem Cut.round (hc : Children x c) (hx : x.Valid) {p : List Nat} {i : Nat} (hi : i < 512)
    (hnew : i ∉ p) (hfree : Frees V d inode s₀ free (c i))
    (hfresh : ∀ y, y.Valid → Under x y → value inode (V.disk s₀) y ≠ 0 →
      ¬Done y ∧ value inode (V.disk s₀) y ∉ hold)
    (h : Cut V d inode s₀ (fun y => Done y ∨ ∃ j ∈ p, Under (c j) y)
      (value inode (V.disk s₀) x :: hold) s) :
    ∃ s', (if value inode (V.disk s₀) (c i) = 0 then .ok s else free s (value inode (V.disk s₀) (c i)))
        = .ok s' ∧ Cut V d inode s₀ (fun y => Done y ∨ ∃ j ∈ p ++ [i], Under (c j) y)
          (value inode (V.disk s₀) x :: hold) s' := by
  have hsplit : ∀ y, (Done y ∨ ∃ j ∈ p ++ [i], Under (c j) y) ↔
      (Done y ∨ ∃ j ∈ p, Under (c j) y) ∨ Under (c i) y := by
    intro y
    simp only [List.mem_append, List.mem_singleton, or_and_right, exists_or, exists_eq_left,
      or_assoc]
  by_cases hci : value inode (V.disk s₀) (c i) = 0
  · rw [if_pos hci]
    refine ⟨s, rfl, h.congr fun y _ hy0 => (hsplit y).trans (or_iff_left fun hy => ?_)⟩
    exact hy0 (value_under hy hci)
  · rw [if_neg hci]
    have hbelow : ∀ y, y.Valid → Under (c i) y → value inode (V.disk s₀) y ≠ 0 →
        ¬(Done y ∨ ∃ j ∈ p, Under (c j) y) ∧
          value inode (V.disk s₀) y ∉ value inode (V.disk s₀) x :: hold := by
      intro y hy hyi hy0
      obtain ⟨hdy, hhy⟩ := hfresh y hy ((hc.under y hy).mpr (.inl ⟨i, hi, hyi⟩)) hy0
      refine ⟨?_, List.not_mem_cons_of_ne_of_not_mem (fun heq => ?_) hhy⟩
      · rintro (hd | ⟨j, hj, hyj⟩)
        · exact hdy hd
        · exact hnew (hc.apart i j y hyi hyj ▸ hj)
      · obtain rfl := htree.inj y x hy hx heq hy0
        exact hc.irrefl i hyi
    obtain ⟨s', hs', h'⟩ := hfree _ _ s h hci hbelow
    exact ⟨s', hs', h'.congr fun y _ _ => hsplit y⟩

include htree hunheld in
/-- The blocks below are freed while the index block is held, then the index block. -/
theorem frees_indirect (hc : Children x c) (hx : x.Valid)
    (hfree : ∀ i < 512, Frees V d inode s₀ free (c i)) :
    Frees V d inode s₀ (ops.freeIndirect free) x := by
  intro Done hold s h hne hfresh
  obtain ⟨hdone, hhold⟩ := hfresh x hx (.inl rfl) hne
  obtain ⟨s₁, hread, h₁⟩ := h.read hx hdone hne
  have hword : ∀ i < 512,
      word (V.content s₀ (value inode (V.disk s₀) x)) i = value inode (V.disk s₀) (c i) := by
    intro i hi
    rw [value_child inode (V.disk s₀) (hc.parent i hi), below, if_neg hne, hc.idx i hi]
    rfl
  generalize V.content s₀ (value inode (V.disk s₀) x) = b_data at hread hword
  obtain ⟨s₂, hloop, h₂⟩ := Loops.foldlM_ok (l := List.range 512) (p := [])
    (f := fun s i => if word b_data i = 0 then .ok s else free s (word b_data i))
    (fun p s => Cut V d inode s₀ (fun y => Done y ∨ ∃ i ∈ p, Under (c i) y)
      (value inode (V.disk s₀) x :: hold) s)
    (h₁.congr fun y _ _ => or_iff_left (by rintro ⟨i, hi, -⟩; cases hi))
    fun p i rest s hl hs => by
      obtain ⟨hi, hnew⟩ := Loops.range_round hl
      rw [hword i hi]
      exact hs.round htree hc hx hi hnew (hfree i hi) hfresh
  have hbelow : ∀ y, y.Valid → ((Done y ∨ ∃ i ∈ [] ++ List.range 512, Under (c i) y) ∨ y = x ↔
      Done y ∨ Under x y) := by
    intro y hy
    simp only [List.nil_append, List.mem_range]
    rw [hc.under y hy, or_assoc]
  have hundone : ¬(Done x ∨ ∃ i ∈ [] ++ List.range 512, Under (c i) x) := by
    rintro (hd | ⟨i, -, hi⟩)
    · exact hdone hd
    · exact hc.irrefl i hi
  obtain ⟨s₃, hrel, h₃⟩ := h₂.release
  obtain ⟨s', hblock, h'⟩ := h₃.free htree hunheld hx hundone hne hhold
  refine ⟨s', ?_, h'.congr fun y hy _ => (hbelow y hy).symm⟩
  unfold BlockOps.freeIndirect
  rw [if_neg hne, hread]
  dsimp only
  simp only [hloop, hrel, bind, Except.bind]
  exact hblock

theorem children_single : Children (.direct 7) .single where
  valid := fun _ hi => hi
  parent := fun _ _ => rfl
  idx := fun _ _ => rfl
  under := fun y hy => by
    cases y <;> simp_all [Under, Bmap.Slot.parent, Bmap.Slot.Valid]
  apart := fun i j y => by
    cases y <;> simp_all [Under, Bmap.Slot.parent]
  irrefl := fun i => by
    simp [Under, Bmap.Slot.parent]

theorem children_leaf {a : Nat} (ha : a < 512) : Children (.double a) (.leaf a) where
  valid := fun _ hi => ⟨ha, hi⟩
  parent := fun _ _ => rfl
  idx := fun _ _ => rfl
  under := fun y hy => by
    cases y <;> simp_all [Under, Bmap.Slot.parent, Bmap.Slot.Valid]
  apart := fun i j y => by
    cases y <;> simp_all [Under, Bmap.Slot.parent]
  irrefl := fun i => by
    simp [Under, Bmap.Slot.parent]

theorem children_double : Children (.direct 8) .double where
  valid := fun _ hi => hi
  parent := fun _ _ => rfl
  idx := fun _ _ => rfl
  under := fun y hy => by
    cases y <;> simp_all [Under, Bmap.Slot.parent, Bmap.Slot.Valid]
  apart := fun i j y => by
    cases y <;> simp_all [Under, Bmap.Slot.parent]
  irrefl := fun i => by
    simp [Under, Bmap.Slot.parent]

/-! ## The whole inode -/

include htree hunheld

theorem frees_freeInd_single : Frees V d inode s₀ ops.freeInd (.direct 7) :=
  frees_indirect htree hunheld children_single (by decide : 7 < 9) fun _ hi =>
    frees_leaf htree hunheld hi fun _ hp => Bmap.Slot.parent_index hp

theorem frees_freeInd_double {a : Nat} (ha : a < 512) :
    Frees V d inode s₀ ops.freeInd (.double a) :=
  frees_indirect htree hunheld (children_leaf ha) ha fun _ hi =>
    frees_leaf htree hunheld ⟨ha, hi⟩ fun _ hp => Bmap.Slot.parent_index hp

theorem frees_freeDind : Frees V d inode s₀ ops.freeDind (.direct 8) :=
  frees_indirect htree hunheld children_double (by decide : 8 < 9) fun _ hi =>
    frees_freeInd_double htree hunheld hi

omit htree hunheld in
theorem Cut.start (htree : Tree d inode (V.disk s₀)) (hgood : V.Good s₀) :
    Cut V d inode s₀ (fun _ => False) [] s₀ where
  covers := htree.covers
  good := hgood
  imap := rfl
  bits := fun _ => (and_iff_left fun _ _ hd => hd.elim).symm
  content := fun _ _ _ _ => rfl
  count := fun _ => rfl

omit htree hunheld in
/-- The call for a slot that may have no block. -/
theorem Frees.call {f : σ → Nat → Except String σ} (hf : Frees V d inode s₀ f x)
    (hzero : ∀ s, f s 0 = .ok s) (h : Cut V d inode s₀ Done [] s)
    (hfresh : ∀ y, y.Valid → Under x y → ¬Done y) :
    ∃ s', f s (value inode (V.disk s₀) x) = .ok s' ∧
      Cut V d inode s₀ (fun y => Done y ∨ Under x y) [] s' := by
  by_cases hx : value inode (V.disk s₀) x = 0
  · rw [hx, hzero]
    exact ⟨s, rfl, h.congr fun y _ hy0 => or_iff_left fun hy => hy0 (value_under hy hx)⟩
  · exact hf Done [] s h hx fun y hy hxy _ => ⟨hfresh y hy hxy, List.not_mem_nil⟩

theorem freeDirect_loop (hgood : V.Good s₀) :
    ∃ inode' s', (List.range 7).foldlM ops.freeDirect (inode, s₀) = .ok (inode', s') ∧
      (∀ i, inode'.i_zone i = if i < 7 then 0 else inode.i_zone i) ∧
      Cut V d inode s₀ (fun y => ∃ i < 7, y = .direct i) [] s' := by
  obtain ⟨⟨inode', s'⟩, hloop, hzone, h'⟩ := Loops.foldlM_ok (l := List.range 7) (p := [])
    (f := ops.freeDirect)
    (fun p is => (∀ i, is.1.i_zone i = if i ∈ p then 0 else inode.i_zone i) ∧
      Cut V d inode s₀ (fun y => ∃ i ∈ p, y = .direct i) [] is.2)
    (s := (inode, s₀))
    ⟨fun i => (if_neg List.not_mem_nil).symm, (Cut.start htree hgood).congr fun y _ _ =>
      ⟨fun ⟨i, hi, _⟩ => List.not_mem_nil hi, False.elim⟩⟩
    fun p i rest ⟨inode', s'⟩ hl ⟨hzone, h'⟩ => by
      obtain ⟨hi, hnew⟩ := Loops.range_round hl
      have hvalid : (Bmap.Slot.direct i).Valid := Nat.lt_trans hi (by decide)
      have hsplit : ∀ y, (∃ j ∈ p ++ [i], y = Bmap.Slot.direct j) ↔
          (∃ j ∈ p, y = .direct j) ∨ y = .direct i := by
        intro y
        simp only [List.mem_append, List.mem_singleton, or_and_right, exists_or, exists_eq_left]
      have hmem : ∀ j, j ∈ p ++ [i] ↔ j ∈ p ∨ j = i := fun j => by
        rw [List.mem_append, List.mem_singleton]
      have hi' : inode'.i_zone i = value inode (V.disk s₀) (.direct i) := by
        rw [hzone, if_neg hnew]
        rfl
      unfold BlockOps.freeDirect
      dsimp only at hzone h' ⊢
      rw [hi']
      by_cases hzero : value inode (V.disk s₀) (.direct i) = 0
      · rw [if_pos hzero]
        refine ⟨_, rfl, fun j => ?_, h'.congr fun y _ hy0 => (hsplit y).trans
          (or_iff_left fun hy => hy0 (hy ▸ hzero))⟩
        rw [hzone]
        rcases eq_or_ne j i with rfl | hne
        · rw [if_neg hnew, if_pos ((hmem j).mpr (.inr rfl))]
          exact hzero
        · exact if_congr ((hmem j).trans (or_iff_left hne)).symm rfl rfl
      · rw [if_neg hzero]
        obtain ⟨s'', hfree, h''⟩ := h'.free htree hunheld hvalid
          (fun ⟨j, hj, heq⟩ => hnew (Bmap.Slot.direct.inj heq ▸ hj)) hzero List.not_mem_nil
        rw [hfree]
        refine ⟨_, rfl, fun j => ?_, h''.congr fun y _ _ => hsplit y⟩
        dsimp only
        rcases eq_or_ne j i with rfl | hne
        · rw [update_self, if_pos ((hmem j).mpr (.inr rfl))]
        · rw [update_of_ne hne, hzone]
          exact if_congr ((hmem j).trans (or_iff_left hne)).symm rfl rfl
  refine ⟨inode', s', hloop, ?_, ?_⟩
  · simpa using hzone
  · simpa using h'

/-- A block of the file, of its data or of an index. -/
def IsBlock (inode : MInode) (s : Disk) (z : Nat) : Prop :=
  z ≠ 0 ∧ ∃ x : Bmap.Slot, x.Valid ∧ value inode s x = z

/-- The bits of the blocks of the file are cleared and the others are as before, the inode has no
block, and every block is held as often as before. -/
structure Truncated (V : BlockView ops) (inode : MInode) (s : σ) (inode' : MInode) (s' : σ) :
    Prop where
  bits : ∀ g, used (V.sb s').s_zmap g = true ↔ used (V.sb s).s_zmap g = true ∧
    ¬∃ z, IsBlock inode (V.disk s) z ∧ g = z + 1 - (V.sb s).s_firstdatazone
  i_zone : ∀ i < 9, inode'.i_zone i = 0
  i_size : inode'.i_size = 0
  count : V.count s' = V.count s
  fields : (V.sb s').toDSuperBlock = (V.sb s).toDSuperBlock
  imap : (V.sb s').s_imap = (V.sb s).s_imap
  good : V.Good s'

/-- `truncate` of a regular file or a directory whose blocks nobody holds. -/
theorem truncate_spec {i_mode : Nat} (hmode : S_ISREG i_mode ∨ S_ISDIR i_mode)
    (hgood : V.Good s₀) :
    ∃ inode' s', ops.truncate i_mode inode s₀ = .ok (inode', s') ∧
      Truncated V inode s₀ inode' s' := by
  obtain ⟨inode₁, s₁, hloop, hzone, h₁⟩ := freeDirect_loop htree hunheld hgood
  obtain ⟨s₂, hind, h₂⟩ := (frees_freeInd_single htree hunheld).call
    (freeIndirect_zero _ _) h₁ fun y _ hy ⟨i, hi, heq⟩ => by
      subst heq
      simp only [Under, Bmap.Slot.parent, Bmap.Slot.direct.injEq, reduceCtorEq, false_and,
        exists_false, or_false] at hy
      omega
  obtain ⟨s₃, hdind, h₃⟩ := (frees_freeDind htree hunheld).call
    (freeIndirect_zero _ _) h₂ fun y _ hy hd => by
      cases y <;> simp_all [Under, Bmap.Slot.parent]
  have hall : ∀ y, y.Valid → (((∃ i < 7, y = .direct i) ∨ Under (.direct 7) y) ∨
      Under (.direct 8) y) := by
    intro y hy
    cases y with
    | direct i =>
        rcases Nat.lt_or_ge i 7 with hi | hi
        · exact .inl (.inl ⟨i, hi, rfl⟩)
        · have hi9 : i < 9 := hy
          obtain rfl | rfl : i = 7 ∨ i = 8 := by omega
          · exact .inl (.inr (.inl rfl))
          · exact .inr (.inl rfl)
    | single k => exact .inl (.inr (.inr (.inl rfl)))
    | double a => exact .inr (.inr (.inl rfl))
    | leaf a b => exact .inr (.inr (.inr ⟨_, rfl, rfl⟩))
  have h7 : inode₁.i_zone 7 = value inode (V.disk s₀) (.direct 7) := hzone 7
  have h8 : inode₁.i_zone 8 = value inode (V.disk s₀) (.direct 8) := hzone 8
  unfold BlockOps.truncate
  rw [if_neg (not_not.mpr hmode), hloop]
  simp only [bind, Except.bind, h7, hind, h8, hdind]
  refine ⟨_, _, rfl, fun g => ?_, fun i hi => ?_, rfl, funext h₃.count,
    h₃.covers.fields.trans htree.covers.fields.symm, h₃.imap, h₃.good⟩
  · have hfdz : (V.sb s₀).s_firstdatazone = d.s_firstdatazone := htree.covers.fdz
    rw [h₃.bits, hfdz]
    refine and_congr_right fun _ => ⟨?_, fun hg y hy _ hy0 hbit => ?_⟩
    · rintro hg ⟨_, ⟨hy0, y, hy, rfl⟩, hbit⟩
      exact hg y hy (hall y hy) hy0 hbit
    · exact hg ⟨_, ⟨hy0, y, hy, rfl⟩, hbit⟩
  · dsimp only
    rcases eq_or_ne i 8 with rfl | hi8
    · exact update_self _ _ _
    · rw [update_of_ne hi8]
      rcases eq_or_ne i 7 with rfl | hi7
      · exact update_self _ _ _
      · rw [update_of_ne hi7, hzone, if_pos (by omega)]

omit htree hunheld

/-! ## Over the buffers -/

/-- The functions of `fs/buffer.c` and `fs/bitmap.c`; `r` is what `getblk` meets for each block. -/
def bufferOps (r : Nat → Recycle) : BlockOps Fs where
  bread s b :=
    let (dev, bh) := Zones.bread s.dev (r b) b
    some ({ s with dev := dev }, bh.b_data)
  brelse s b := .ok { s with dev := release s.dev b }
  freeBlock := Zones.freeBlock

def bufferView (r : Nat → Recycle) : BlockView (bufferOps r) where
  sb := Fs.sb
  content s := s.dev.content
  count s := s.dev.count
  Good s := s.dev.Settled
  bread b h := by
    obtain ⟨dev, bh, hread, hsettled, hcontent, hdata, hcount⟩ := bread_spec h (r b) b
    refine ⟨⟨_, dev⟩, ?_, hsettled, rfl, hcontent, hcount⟩
    dsimp only [bufferOps]
    rw [hread, hdata]
  brelse h _ := by
    obtain ⟨hsettled, hcontent, hcount⟩ := release_spec h _
    exact ⟨_, rfl, hsettled, rfl, hcontent, hcount⟩
  freeBlock h hrange hcount hfree := by
    obtain ⟨dev, hblock, hsettled, hcounts, hcontent⟩ := freeBlock_dev h hrange hcount hfree
    exact ⟨_, hblock, hsettled, rfl, hcounts, hcontent⟩

def truncate (r : Nat → Recycle) : Nat → MInode → Fs → Except String (MInode × Fs) :=
  (bufferOps r).truncate

/-- `truncate` of a regular file or a directory whose blocks nobody holds comes to its
end, for every tree of direct, single and double indirect blocks: the bits of its
blocks, data and index, are cleared and no other, the inode has no block and no size,
and every buffer is held as often as before. -/
theorem truncate_exact (r : Nat → Recycle) {i_mode : Nat} {s : Fs}
    (hmode : S_ISREG i_mode ∨ S_ISDIR i_mode) (htree : Tree d inode s.disk)
    (hsettled : s.dev.Settled) (hunheld : ∀ z, IsBlock inode s.disk z → s.dev.count z = 0) :
    ∃ inode' s', truncate r i_mode inode s = .ok (inode', s') ∧
      (∀ g, used s'.sb.s_zmap g = true ↔ used s.sb.s_zmap g = true ∧
        ¬∃ z, IsBlock inode s.disk z ∧ g = z + 1 - s.sb.s_firstdatazone) ∧
      (∀ i < 9, inode'.i_zone i = 0) ∧ inode'.i_size = 0 ∧ s'.dev.count = s.dev.count := by
  obtain ⟨inode', s', htrunc, h⟩ := truncate_spec (V := bufferView r) htree
    (fun x hx hne => hunheld _ ⟨hne, x, hx, rfl⟩) hmode hsettled
  exact ⟨inode', s', htrunc, h.bits, h.i_zone, h.i_size, h.count⟩

/-! ## A small file -/

/-- Zone 5 holds data, and zone 6 has the number of zone 7 as its first word. -/
def smallFile : MInode := ⟨8000, fun i => if i = 0 then 5 else if i = 7 then 6 else 0, false⟩

def smallDisk : Fs :=
  ⟨{ oneZone with s_zmap := fun i => if i = 0 then some ⟨fun _ => 15, false⟩ else none },
    { blank with disk := update blank.disk 6 (setWord zeroes 0 7) }⟩

theorem smallFile_value (x : Bmap.Slot) (hx : value smallFile smallDisk.disk x ≠ 0) :
    x = .direct 0 ∨ x = .direct 7 ∨ x = .single 0 := by
  cases x with
  | direct i =>
      by_cases h0 : i = 0
      · exact .inl (congrArg Bmap.Slot.direct h0)
      · by_cases h7 : i = 7
        · exact .inr (.inl (congrArg Bmap.Slot.direct h7))
        · exact absurd ((if_neg h0).trans (if_neg h7)) hx
  | single k =>
      have hword := word_setWord zeroes (k := 0) (v := 7) (by decide) k
      by_cases hk : k = 0
      · exact .inr (.inr (congrArg Bmap.Slot.single hk))
      · exact absurd (hword.trans (if_neg hk)) hx
  | double a => exact absurd rfl hx
  | leaf a b => exact absurd rfl hx

theorem smallFile_tree : Tree floppy smallFile smallDisk.disk where
  covers := { oneZone_covers with
    fields := rfl
    bit0 := by decide
    slots := fun i => by
      rw [← oneZone_covers.slots i]
      dsimp only [Fs.disk, smallDisk, oneZone]
      split <;> rfl }
  short := by decide
  inj := fun x y _ _ heq hne => by
    rcases smallFile_value x hne with rfl | rfl | rfl <;>
      rcases smallFile_value y (heq ▸ hne) with rfl | rfl | rfl <;>
      first | rfl | exact absurd heq (by decide)
  used := fun x _ hne => by
    rcases smallFile_value x hne with rfl | rfl | rfl <;>
      exact ⟨⟨by decide, by decide⟩, by decide⟩

theorem truncate_exact_small : ∃ inode' s',
    truncate (fun _ => ⟨false, 0, zeroes⟩) 0o100644 smallFile smallDisk = .ok (inode', s') ∧
      ∀ i < 9, inode'.i_zone i = 0 := by
  have hreg : S_ISREG 0o100644 := by decide
  obtain ⟨inode', s', htrunc, -, hzone, -⟩ := truncate_exact (fun _ => ⟨false, 0, zeroes⟩)
    (.inl hreg) smallFile_tree ⟨nofun, nofun⟩ fun _ _ => rfl
  exact ⟨inode', s', htrunc, hzone⟩

end Truncate

/-! ## Over a volume -/

namespace Vol

open Truncate

/-- `free_block`; the buffer of a zone that is held keeps the reference that it has got. -/
def freeBlock (v : Vol) (block : Nat) : Except String Vol :=
  if block < v.sb.s_firstdatazone ∨ block ≥ v.sb.s_nzones then
    .error "trying to free block not in datazone"
  else if v.b_count block ≠ 0 then .ok (v.hold block)
  else (freeZone v.sb block).map fun sb => { v with sb := sb }

def ops : BlockOps Vol where
  bread v b := (v.bread b).map fun v => (v, v.b_data b)
  brelse := brelse
  freeBlock := freeBlock

/-- A volume all of whose blocks can be read. -/
def view : BlockView ops where
  sb v := v.sb
  content v := v.b_data
  count v := v.b_count
  Good v := ∀ b, v.bad b = false
  bread {v} b h := by
    refine ⟨v.hold b, ?_, h, rfl, rfl, rfl⟩
    dsimp only [ops]
    rw [bread_of_good (h b)]
    rfl
  brelse {v b} h hpos := by
    refine ⟨{ v with b_count := update v.b_count b (v.b_count b - 1) }, ?_, h, rfl, rfl, rfl⟩
    exact if_neg (Nat.ne_of_gt hpos)
  freeBlock {v z sb'} h hrange hcount hfree := by
    have hzone : ¬(z < v.sb.s_firstdatazone ∨ z ≥ v.sb.s_nzones) :=
      not_or.mpr ⟨Nat.not_lt_of_le hrange.1, Nat.not_le_of_lt hrange.2⟩
    refine ⟨{ v with sb := sb' }, ?_, h, rfl, rfl, fun _ _ => rfl⟩
    dsimp only [ops, freeBlock]
    rw [if_neg hzone, if_neg (not_not.mpr hcount), hfree]
    rfl

end Vol

end Linux011
