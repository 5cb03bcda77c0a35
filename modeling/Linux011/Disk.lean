import Linux011.Zones

/-!
# The blocks of a device, as `bread` gives them

Where nobody looks at the buffers themselves, a device is the contents of its blocks and its
zone map. `newBlock_disk` connects `new_block` on this view with the one on the buffers.

A block shows what `bread` would give: the contents of its buffer when they are up to date, and
otherwise what the device has. As long as every clean buffer has the bytes of the device
(`Coherent`), it does not matter for this which blocks are in memory, so that writing a buffer
back and dropping a clean one are not seen (`Coherent.sync`, `Coherent.drop`), and a buffer that
is written whole changes one block (`Coherent.setBh`). `getblk` is made of these steps, whatever
buffer it takes.

A call of `new_block` is described by its two cases (`NewBlock`): a free zone is taken and its
block is zeroed, or all zones are in use and no block has changed.
-/

namespace Linux011

open Function Super SuperBlock Zones

/-- The super block and the bytes that `bread` gives for each block. -/
structure Disk where
  sb : SuperBlock
  b_data : Nat → Bytes

namespace Disk

/-- `new_block`: the buffer of the block is zeroed. -/
def newBlock (s : Disk) : Except String (Disk × Nat) :=
  match takeZone s.sb with
  | .error e => .error e
  | .ok (sb, none) => .ok ({ s with sb := sb }, 0)
  | .ok (sb, some j) => .ok (⟨sb, update s.b_data j zeroes⟩, j)

/-- `bh->b_data` of block `b` is written. -/
def store (s : Disk) (b : Nat) (data : Bytes) : Disk :=
  { s with b_data := update s.b_data b data }

variable {s s' : Disk} {d : DSuperBlock}

@[simp] theorem store_sb (s : Disk) (b : Nat) (data : Bytes) : (s.store b data).sb = s.sb := rfl

theorem store_data (s : Disk) (b : Nat) (data : Bytes) : (s.store b data).b_data b = data :=
  update_self _ _ _

theorem store_data_ne (s : Disk) {b b' : Nat} (data : Bytes) (h : b' ≠ b) :
    (s.store b data).b_data b' = s.b_data b' :=
  update_of_ne h _ _

/-- What a call of `new_block` does: a free zone is taken and zeroed, or there is none. -/
inductive NewBlock (s : Disk) : Nat → Disk → Prop where
  | zone (z : Nat) (sb : SuperBlock) (pos : z ≠ 0) (takes : Takes s.sb z sb) :
      NewBlock s z ⟨sb, update s.b_data z zeroes⟩
  | full (sb : SuperBlock) (full : Full s.sb sb) : NewBlock s 0 ⟨sb, s.b_data⟩

theorem newBlock_spec (h : Covers s.sb d) :
    ∃ s' ret, s.newBlock = .ok (s', ret) ∧ Covers s'.sb d ∧ NewBlock s ret s' := by
  obtain ⟨sb', ret, htake, hcovers, hspec⟩ := takeZone_spec h
  unfold newBlock
  rw [htake]
  cases ret with
  | none => exact ⟨_, 0, rfl, hcovers, .full sb' hspec⟩
  | some z =>
      have hpos : z ≠ 0 := by
        have hlow := hspec.inRange.1
        have hboot := h.boot
        rw [h.fdz] at hlow
        omega
      exact ⟨_, z, rfl, hcovers, .zone z sb' hpos hspec⟩

end Disk

/-! ## The view of the buffers -/

namespace Zones

/-- What `bread` gives for block `b`. -/
def Device.content (dev : Device) (b : Nat) : Bytes :=
  match dev.bh b with
  | some bh => if bh.b_uptodate ∨ bh.b_dirt then bh.b_data else dev.disk b
  | none => dev.disk b

/-- A clean buffer that is up to date has the bytes of the device. -/
def Device.Coherent (dev : Device) : Prop :=
  ∀ b, ∀ bh ∈ dev.bh b, bh.b_uptodate = true → bh.b_dirt = false → bh.b_data = dev.disk b

def Fs.disk (s : Fs) : Disk := ⟨s.sb, s.dev.content⟩

variable {dev : Device}

theorem Device.Coherent.sync (h : dev.Coherent) :
    dev.sync.Coherent ∧ dev.sync.content = dev.content := by
  constructor
  · intro b bh hbh hup _
    dsimp only [Device.sync] at hbh ⊢
    cases hdev : dev.bh b with
    | none =>
        rw [hdev] at hbh
        cases hbh
    | some bh₀ =>
        rw [hdev] at hbh
        obtain rfl := Option.some.inj hbh
        dsimp only
        cases hd : bh₀.b_dirt with
        | true => rfl
        | false => exact h b bh₀ hdev hup hd
  · funext b
    dsimp only [Device.content, Device.sync]
    cases hdev : dev.bh b with
    | none => rfl
    | some bh₀ =>
        dsimp only [Option.map_some]
        cases bh₀.b_uptodate <;> cases bh₀.b_dirt <;> rfl

theorem Device.Coherent.drop (h : dev.Coherent) (victim : Nat) :
    (dev.drop victim).Coherent ∧ (dev.drop victim).content = dev.content := by
  unfold Device.drop
  cases hv : dev.bh victim with
  | none => exact ⟨h, rfl⟩
  | some bh₀ =>
      dsimp only
      split
      · rename_i hclean
        constructor
        · intro b bh hbh hup hdirt
          dsimp only at hbh ⊢
          rcases eq_or_ne b victim with rfl | hne
          · rw [update_self] at hbh
            cases hbh
          · rw [update_of_ne hne] at hbh
            exact h b bh hbh hup hdirt
        · funext b
          dsimp only [Device.content]
          rcases eq_or_ne b victim with rfl | hne
          · rw [update_self, hv]
            dsimp only
            split
            · rename_i hup
              rw [hclean.2] at hup
              exact (h b bh₀ hv (hup.resolve_right Bool.false_ne_true) hclean.2).symm
            · rfl
          · rw [update_of_ne hne]
      · exact ⟨h, rfl⟩

/-- A buffer that is up to date and dirty gives its bytes and leaves the other blocks. -/
theorem Device.Coherent.setBh (h : dev.Coherent) (b : Nat) {bh : BufferHead}
    (hup : bh.b_uptodate = true) (hdirt : bh.b_dirt = true) :
    (dev.setBh b bh).Coherent ∧ (dev.setBh b bh).content = update dev.content b bh.b_data := by
  constructor
  · intro b' bh' hbh' hup' hdirt'
    dsimp only [Device.setBh] at hbh' ⊢
    rcases eq_or_ne b' b with rfl | hne
    · rw [update_self] at hbh'
      obtain rfl := Option.some.inj hbh'
      rw [hdirt] at hdirt'
      cases hdirt'
    · rw [update_of_ne hne] at hbh'
      exact h b' bh' hbh' hup' hdirt'
  · funext b'
    dsimp only [Device.content, Device.setBh]
    rcases eq_or_ne b' b with rfl | hne
    · rw [update_self, update_self]
      dsimp only
      rw [if_pos (.inl hup)]
    · rw [update_of_ne hne, update_of_ne hne]
      rfl

theorem Device.setBh_setBh (dev : Device) (b : Nat) (bh bh' : BufferHead) :
    (dev.setBh b bh).setBh b bh' = dev.setBh b bh' := by
  dsimp only [Device.setBh]
  rw [update_idem]

/-- `getblk` and a buffer that is written whole: the buffer that was taken does not matter. -/
theorem getblk_setBh (h : dev.Coherent) (r : Recycle) (b : Nat) {bh : BufferHead}
    (hup : bh.b_uptodate = true) (hdirt : bh.b_dirt = true) :
    ((getblk dev r b).1.setBh b bh).Coherent ∧
      ((getblk dev r b).1.setBh b bh).content = update dev.content b bh.b_data := by
  unfold getblk getHashTable
  cases dev.bh b with
  | some bh₀ =>
      dsimp only [Option.map_some]
      rw [Device.setBh_setBh]
      exact h.setBh b hup hdirt
  | none =>
      dsimp only [Option.map_none]
      rw [Device.setBh_setBh]
      have hsync : (if r.sync then dev.sync else dev).Coherent ∧
          (if r.sync then dev.sync else dev).content = dev.content := by
        split
        · exact h.sync
        · exact ⟨h, rfl⟩
      obtain ⟨hdrop, hcontent⟩ := hsync.1.drop r.victim
      have hset := hdrop.setBh b hup hdirt
      rw [hcontent, hsync.2] at hset
      exact hset

/-- `new_block` on the buffers is `new_block` on the blocks that they stand for. -/
theorem newBlock_disk {s s' : Fs} {ret : Nat} {r : Recycle} (h : s.dev.Coherent)
    (hunheld : ∀ z, s.sb.InRange z → s.Unheld z) {d : DSuperBlock} (hcovers : Covers s.sb d)
    (hnew : Zones.newBlock s r = .ok (s', ret)) :
    s.disk.newBlock = .ok (s'.disk, ret) ∧ s'.dev.Coherent := by
  obtain ⟨sb', j, htake, -, hspec⟩ := takeZone_spec hcovers
  unfold Zones.newBlock at hnew
  unfold Disk.newBlock
  dsimp only [Fs.disk]
  rw [htake] at hnew ⊢
  cases j with
  | none =>
      obtain ⟨rfl, rfl⟩ := Prod.mk.inj (Except.ok.inj hnew)
      exact ⟨rfl, h⟩
  | some j =>
      have hz : Fs.Unheld { s with sb := sb' } j := hunheld j hspec.inRange
      dsimp only at hnew
      rw [zeroBlock_eq r hz] at hnew
      obtain ⟨rfl, rfl⟩ := Prod.mk.inj (Except.ok.inj hnew)
      have hzeroed : ∀ bh : BufferHead, bh = ⟨zeroes, true, true, 0⟩ →
          ((getblk s.dev r j).1.setBh j bh).Coherent ∧
            ((getblk s.dev r j).1.setBh j bh).content = update s.dev.content j bh.b_data := by
        rintro bh rfl
        exact getblk_setBh h r j rfl rfl
      obtain ⟨hcoherent, hcontent⟩ := hzeroed _ rfl
      refine ⟨?_, hcoherent⟩
      dsimp only
      rw [hcontent]

end Zones

/-! ## A small device -/

/-- A floppy on which only zone 5 is allocated. -/
def oneZone : SuperBlock where
  toDSuperBlock := floppy
  s_imap := fun _ => none
  s_zmap := fun i => if i = 0 then some ⟨fun _ => 3, false⟩ else none

def emptyDisk : Disk := ⟨oneZone, fun _ => zeroes⟩

theorem oneZone_covers : Covers oneZone floppy where
  fields := rfl
  bit0 := by decide
  slots := fun i => by
    dsimp only [oneZone]
    by_cases hi : i = 0
    · rw [if_pos hi, hi]
      rfl
    · rw [if_neg hi]
      exact (decide_eq_false fun hlt => hi (Nat.lt_one_iff.mp hlt)).symm
  boot := by decide
  maps := by decide
  zones := by decide

end Linux011
