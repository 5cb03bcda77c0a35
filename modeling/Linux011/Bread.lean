import Linux011.Disk

/-!
# Reading blocks through the buffers

`bread` of `fs/buffer.c` on a device without errors, and what it and `free_block` do to the
buffers: how many hold each of them, and what `bread` gives for the other blocks afterwards.

A buffer may be written to the device, taken for another block or read again at any call of
`getblk`, and `content` is what does not notice this: the bytes that `bread` would give for a
block. `Settled` is what makes it so, that a clean buffer agrees with the device and a dirty one
is up to date. The lemmas on `sync`, on dropping a buffer and on `getblk` say that they keep the
contents and the counts of all blocks, and `bread_spec` and `release_spec` that a read and its
release are a reference more and one less.
-/

namespace Linux011

open Function Super SuperBlock

namespace Zones

/-- `bread`, when the block can be read; `r` is what `getblk` meets. -/
def bread (d : Device) (r : Recycle) (b : Nat) : Device × BufferHead :=
  let (d, bh) := getblk d r b
  if bh.b_uptodate then (d, bh)
  else
    let bh := { bh with b_data := d.disk b, b_uptodate := true, b_dirt := false }
    (d.setBh b bh, bh)

/-- `brelse` of the buffer of a block. -/
def release (d : Device) (b : Nat) : Device :=
  match d.bh b with
  | some bh => brelse d b bh
  | none => d

/-- `b_count` of the buffer of a block, 0 when it has none. -/
def Device.count (d : Device) (b : Nat) : Nat := ((d.bh b).map BufferHead.b_count).getD 0

/-- A clean buffer that is up to date has the bytes of the device, and a dirty one is up to
date. -/
structure Device.Settled (d : Device) : Prop where
  coherent : d.Coherent
  clean : ∀ b, ∀ bh ∈ d.bh b, bh.b_dirt = true → bh.b_uptodate = true

variable {d : Device} {b b' : Nat} {bh : BufferHead}

theorem content_some (h : d.bh b = some bh) :
    d.content b = if bh.b_uptodate ∨ bh.b_dirt then bh.b_data else d.disk b := by
  rw [Device.content, h]

theorem content_none (h : d.bh b = none) : d.content b = d.disk b := by
  rw [Device.content, h]

theorem count_some (h : d.bh b = some bh) : d.count b = bh.b_count := by
  rw [Device.count, h]
  rfl

theorem count_none (h : d.bh b = none) : d.count b = 0 := by
  rw [Device.count, h]
  rfl

theorem setBh_self (d : Device) (b : Nat) (bh : BufferHead) : (d.setBh b bh).bh b = some bh :=
  update_self _ _ _

theorem setBh_ne (d : Device) (bh : BufferHead) (h : b' ≠ b) : (d.setBh b bh).bh b' = d.bh b' :=
  update_of_ne h _ _

theorem count_setBh (d : Device) (b : Nat) (bh : BufferHead) :
    (d.setBh b bh).count = update d.count b bh.b_count := by
  funext b'
  rcases eq_or_ne b' b with rfl | hne
  · rw [update_self, count_some (setBh_self d b' bh)]
  · rw [update_of_ne hne, Device.count, setBh_ne d bh hne, Device.count]

theorem Device.Settled.setBh (h : d.Settled) (b : Nat) (bh : BufferHead)
    (hdata : bh.b_uptodate = true → bh.b_dirt = false → bh.b_data = d.disk b)
    (hclean : bh.b_dirt = true → bh.b_uptodate = true) :
    (d.setBh b bh).Settled ∧ (d.setBh b bh).content =
      update d.content b (if bh.b_uptodate ∨ bh.b_dirt then bh.b_data else d.disk b) := by
  refine ⟨⟨fun b' bh' hbh' hup hdirt => ?_, fun b' bh' hbh' hdirt => ?_⟩, ?_⟩
  · rcases eq_or_ne b' b with rfl | hne
    · obtain rfl := Option.some.inj ((setBh_self d b' bh).symm.trans hbh')
      exact hdata hup hdirt
    · rw [setBh_ne d bh hne] at hbh'
      exact h.coherent b' bh' hbh' hup hdirt
  · rcases eq_or_ne b' b with rfl | hne
    · obtain rfl := Option.some.inj ((setBh_self d b' bh).symm.trans hbh')
      exact hclean hdirt
    · rw [setBh_ne d bh hne] at hbh'
      exact h.clean b' bh' hbh' hdirt
  · funext b'
    rcases eq_or_ne b' b with rfl | hne
    · rw [update_self, content_some (setBh_self d b' bh)]
      rfl
    · rw [update_of_ne hne, Device.content, setBh_ne d bh hne, Device.content]
      rfl

theorem Device.Settled.setCount (h : d.Settled) (hbh : d.bh b = some bh) (n : Nat) :
    (d.setBh b { bh with b_count := n }).Settled ∧
      (d.setBh b { bh with b_count := n }).content = d.content := by
  have hset := h.setBh b { bh with b_count := n } (h.coherent b bh hbh) (h.clean b bh hbh)
  rw [← content_some hbh, update_eq_self] at hset
  exact hset

/-! ## getblk -/

theorem sync_count (d : Device) : d.sync.count = d.count := by
  funext b
  unfold Device.count Device.sync
  dsimp only
  cases d.bh b <;> rfl

theorem Device.Settled.sync (h : d.Settled) : d.sync.Settled := by
  refine ⟨h.coherent.sync.1, fun b bh hbh hdirt => ?_⟩
  obtain ⟨bh₀, -, rfl⟩ := Option.map_eq_some_iff.mp hbh
  cases hdirt

theorem drop_count (d : Device) (victim : Nat) : (d.drop victim).count = d.count := by
  unfold Device.drop
  cases hv : d.bh victim with
  | none => rfl
  | some bh₀ =>
      dsimp only
      split
      · rename_i hfree
        funext b
        rcases eq_or_ne b victim with rfl | hne
        · rw [count_some hv, hfree.1]
          exact count_none (update_self _ _ _)
        · unfold Device.count
          dsimp only
          rw [update_of_ne hne]
      · rfl

theorem Device.Settled.drop (h : d.Settled) (victim : Nat) : (d.drop victim).Settled := by
  refine ⟨(h.coherent.drop victim).1, fun b bh hbh hdirt => ?_⟩
  unfold Device.drop at hbh
  split at hbh
  · split at hbh
    · rcases eq_or_ne b victim with rfl | hne
      · dsimp only at hbh
        rw [update_self] at hbh
        cases hbh
      · dsimp only at hbh
        rw [update_of_ne hne] at hbh
        exact h.clean b bh hbh hdirt
    · exact h.clean b bh hbh hdirt
  · exact h.clean b bh hbh hdirt

theorem drop_none (victim : Nat) (h : d.bh b = none) : (d.drop victim).bh b = none := by
  unfold Device.drop
  split
  · split
    · rcases eq_or_ne b victim with rfl | hne
      · exact update_self _ _ _
      · exact (update_of_ne hne _ _).trans h
    · exact h
  · exact h

/-- `getblk` holds the buffer once more; what `bread` would give is the same for every block. -/
theorem getblk_spec (h : d.Settled) (r : Recycle) (b : Nat) :
    ∃ d' bh, getblk d r b = (d', bh) ∧ d'.Settled ∧ d'.content = d.content ∧
      d'.bh b = some bh ∧ bh.b_count = d.count b + 1 ∧
      d'.count = update d.count b (d.count b + 1) := by
  unfold getblk getHashTable
  cases hbh : d.bh b with
  | some bh₀ =>
      dsimp only [Option.map_some]
      obtain ⟨hset, hcontent⟩ := h.setCount hbh (bh₀.b_count + 1)
      refine ⟨_, _, rfl, hset, hcontent, setBh_self _ _ _, ?_, ?_⟩
      · rw [count_some hbh]
      · rw [count_setBh, count_some hbh]
  | none =>
      dsimp only [Option.map_none]
      obtain ⟨d₁, hd₁, hset₁, hcontent₁, hcount₁, hnone₁⟩ : ∃ d₁,
          (if r.sync then d.sync else d).drop r.victim = d₁ ∧ d₁.Settled ∧
          d₁.content = d.content ∧ d₁.count = d.count ∧ d₁.bh b = none := by
        refine ⟨_, rfl, ?_⟩
        split
        · refine ⟨h.sync.drop _, ?_, ?_, drop_none _ ?_⟩
          · rw [(h.sync.coherent.drop _).2, h.coherent.sync.2]
          · rw [drop_count, sync_count]
          · show (d.bh b).map _ = none
            rw [hbh]
            rfl
        · exact ⟨h.drop _, (h.coherent.drop _).2, drop_count _ _, drop_none _ hbh⟩
      rw [hd₁]
      obtain ⟨hset, hcontent⟩ := hset₁.setBh b ⟨r.junk, false, false, 1⟩ nofun nofun
      refine ⟨_, _, rfl, hset, ?_, setBh_self _ _ _, ?_, ?_⟩
      · have hclear : ¬(false = true ∨ false = true) :=
          not_or.mpr ⟨Bool.false_ne_true, Bool.false_ne_true⟩
        rw [hcontent, if_neg hclear, ← content_none hnone₁, update_eq_self, hcontent₁]
      · rw [count_none hbh]
      · rw [count_setBh, hcount₁, count_none hbh]

/-- `bread` gives the bytes of the block, whose buffer it holds, and leaves the other blocks. -/
theorem bread_spec (h : d.Settled) (r : Recycle) (b : Nat) :
    ∃ d' bh, bread d r b = (d', bh) ∧ d'.Settled ∧ d'.content = d.content ∧
      bh.b_data = d.content b ∧ d'.count = update d.count b (d.count b + 1) := by
  obtain ⟨d₁, bh₁, hget, hset, hcontent, hbh, hcount, hcounts⟩ := getblk_spec h r b
  unfold bread
  rw [hget]
  dsimp only
  have hdata := content_some hbh
  rw [hcontent] at hdata
  by_cases hup : bh₁.b_uptodate = true
  · rw [if_pos hup]
    rw [if_pos (.inl hup)] at hdata
    exact ⟨_, _, rfl, hset, hcontent, hdata.symm, hcounts⟩
  · rw [if_neg hup]
    have hdirt : ¬bh₁.b_dirt = true := fun hd => hup (hset.clean b bh₁ hbh hd)
    rw [if_neg (not_or.mpr ⟨hup, hdirt⟩)] at hdata
    obtain ⟨hset', hcontent'⟩ := hset.setBh b
      { bh₁ with b_data := d₁.disk b, b_uptodate := true, b_dirt := false } (fun _ _ => rfl) (fun _ => rfl)
    refine ⟨_, _, rfl, hset', ?_, hdata.symm, ?_⟩
    · rw [hcontent', if_pos (.inl rfl)]
      show update d₁.content b (d₁.disk b) = _
      rw [← hdata, hcontent, update_eq_self]
    · rw [count_setBh, hcounts, update_idem, hcount]

theorem release_spec (h : d.Settled) (b : Nat) : (release d b).Settled ∧
    (release d b).content = d.content ∧
    (release d b).count = update d.count b (d.count b - 1) := by
  unfold release
  cases hbh : d.bh b with
  | none =>
      have hzero : d.count b - 1 = d.count b := by rw [count_none hbh]
      rw [hzero, update_eq_self]
      exact ⟨h, rfl, rfl⟩
  | some bh =>
      dsimp only [brelse]
      obtain ⟨hset, hcontent⟩ := h.setCount hbh (bh.b_count - 1)
      refine ⟨hset, hcontent, ?_⟩
      rw [count_setBh, count_some hbh]

/-! ## free_block -/

/-- Freeing a zone that nobody holds: its bit is cleared, and its buffer has no bytes. -/
theorem freeBlock_dev {s : Fs} {z : Nat} {sb : SuperBlock} (h : s.dev.Settled)
    (hrange : s.sb.InRange z) (hunheld : s.dev.count z = 0) (hfree : freeZone s.sb z = .ok sb) :
    ∃ dev, freeBlock s z = .ok ⟨sb, dev⟩ ∧ dev.Settled ∧ dev.count = s.dev.count ∧
      ∀ b, b ≠ z → dev.content b = s.dev.content b := by
  have hzone : ¬(z < s.sb.s_firstdatazone ∨ z ≥ s.sb.s_nzones) := by
    rintro (hlt | hge)
    · exact absurd hrange.1 (Nat.not_le_of_lt hlt)
    · exact absurd hrange.2 (Nat.not_lt_of_le hge)
  unfold freeBlock getHashTable
  rw [if_neg hzone]
  cases hbh : s.dev.bh z with
  | none =>
      dsimp only [Option.map_none]
      rw [hfree]
      exact ⟨_, rfl, h, rfl, fun _ _ => rfl⟩
  | some bh =>
      have hcount : bh.b_count = 0 := (count_some hbh).symm.trans hunheld
      dsimp only [Option.map_some]
      rw [hcount, if_neg (not_not.mpr (Nat.zero_add 1)), hfree]
      dsimp only [brelse, Except.map]
      rw [Device.setBh_setBh]
      obtain ⟨hset, hcontent⟩ := h.setBh z
        { bh with b_uptodate := false, b_dirt := false, b_count := 0 } nofun nofun
      refine ⟨_, rfl, hset, ?_, fun b hb => ?_⟩
      · rw [count_setBh]
        show update s.dev.count z 0 = s.dev.count
        rw [← hunheld, update_eq_self]
      · have hthis := congrFun hcontent b
        rw [update_of_ne hb] at hthis
        exact hthis

end Zones

end Linux011
