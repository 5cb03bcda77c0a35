import Linux011.Dir
import Linux011.Volume

/-!
# Scanning a damaged directory

`find_entry`, `add_entry` and `empty_dir` of `fs/namei.c` on a directory with any size, any
blocks missing or unreadable and any entries. A scan has one buffer in hand. It stops where it
goes through a null pointer or releases a buffer that it has released before; that the kernel
has a page directory at address 0, and goes on, is left out.

Each of the three conditions is exact, so that both directions are proved together: one step of a
loop comes to its end and goes on, or the condition says that it does not. An induction over the
entries that are left, with the place of the buffer as its invariant (`Place`), turns this into a
condition on blocks. `Range` is what the three have in common: for each block that the scan comes
to, because the entries before it are passed, something has to hold. The loops differ in what
they do where a block is missing. `find_entry` and `add_entry` skip its entries and are left with
a null pointer, which the next block boundary releases or follows, and `empty_dir` goes on with
the buffer of the block before, which it has already released.
-/

namespace Linux011

open Function Bmap Dir

namespace DirScan

/-- Where a scan goes wrong. -/
inductive Stop where
  | panic (text : String)
  /-- `bh->b_data` of a null pointer -/
  | null
  /-- `brelse` of the buffer that has been released -/
  | unheld
deriving DecidableEq

def release (v : Vol) (b : Nat) : Except Stop Vol := (v.brelse b).mapError .panic

/-- What the head of a loop of `find_entry` or `add_entry` comes to. -/
inductive Next where
  | missing
  | unreadable
  | entry (bh de : Nat)

/-- The head of both loops: at the end of a block the block of entry `i` is taken. The scan holds
the block `bh`, `none` is the null pointer. -/
def nextBlock (create : Bool) (inode : MInode) (v : Vol) (i : Nat) (bh : Option Nat) (de : Nat) :
    Except Stop (MInode × Vol × Next) :=
  match bh with
  | none => .error .null
  | some b =>
      if de ≥ Dir.BLOCK_SIZE then
        match release v b with
        | .error e => .error e
        | .ok v =>
            match Vol.bmap create inode v (i / DIR_ENTRIES_PER_BLOCK) with
            | .error e => .error (.panic e)
            | .ok (inode, v, block) =>
                if block = 0 then .ok (inode, v, .missing)
                else match v.bread block with
                  | none => .ok (inode, v, .unreadable)
                  | some v => .ok (inode, v, .entry block 0)
      else .ok (inode, v, .entry b de)

/-! ## find_entry -/

/-- `brelse(bh); return NULL;` -/
def notFound (v : Vol) : Option Nat → Except Stop (Vol × Option (Nat × Nat))
  | none => .ok (v, none)
  | some b => (release v b).map fun v => (v, none)

/-- The loop of `find_entry`, which takes one step for each entry at most. -/
def findLoop (inode : MInode) (name : List UInt8) (entries : Nat) :
    Nat → Vol → Nat → Option Nat → Nat → Except Stop (Vol × Option (Nat × Nat))
  | 0, v, _, bh, _ => notFound v bh
  | n + 1, v, i, bh, de =>
      if i < entries then
        match nextBlock false inode v i bh de with
        | .error e => .error e
        | .ok (_, v, .entry b de) =>
            if matchEntry name (v.b_data b) de then .ok (v, some (b, de))
            else findLoop inode name entries n v (i + 1) (some b) (de + ENTRY)
        | .ok (_, v, _) =>
            findLoop inode name entries n v (i + DIR_ENTRIES_PER_BLOCK) none de
      else notFound v bh

/-- `find_entry`; in the root of the process `..` is `.`. `entries` is the number of entries of
the directory that the caller passes: `..` in the root of a mounted device exchanges this for
the directory below, but keeps the number. -/
def findEntry (root : Bool) (entries : Nat) (inode : MInode) (v : Vol) (name : List UInt8) :
    Except Stop (Vol × Option (Nat × Nat)) :=
  let name := name.take NAME_LEN
  if name.length = 0 then .ok (v, none)
  else
    let name := if name = [46, 46] ∧ root then name.take 1 else name
    if inode.i_zone 0 = 0 then .ok (v, none)
    else match v.bread (inode.i_zone 0) with
      | none => .ok (v, none)
      | some v => findLoop inode name entries entries v 0 (some (inode.i_zone 0)) 0

/-! ## add_entry -/

/-- The loop of `add_entry`, which ends behind the last entry, or one step later. -/
def addLoop (name : List UInt8) : Nat → MInode → Vol → Nat → Option Nat → Nat →
    Except Stop (MInode × Vol × Option (Nat × Nat))
  | 0, inode, v, _, _, _ => .ok (inode, v, none)
  | n + 1, inode, v, i, bh, de =>
      match nextBlock true inode v i bh de with
      | .error e => .error e
      | .ok (inode, v, .missing) => .ok (inode, v, none)
      | .ok (inode, v, .unreadable) => addLoop name n inode v (i + DIR_ENTRIES_PER_BLOCK) none de
      | .ok (inode, v, .entry b de) =>
          let (inode, disk) := extend inode v.toDisk i b de
          let v := { v with toDisk := disk }
          if getInode (v.b_data b) de = 0 then
            .ok (inode, v.store b (setName (v.b_data b) de name), some (b, de))
          else addLoop name n inode v (i + 1) (some b) (de + ENTRY)

def addEntry (inode : MInode) (v : Vol) (name : List UInt8) :
    Except Stop (MInode × Vol × Option (Nat × Nat)) :=
  let name := name.take NAME_LEN
  if name.length = 0 then .ok (inode, v, none)
  else if inode.i_zone 0 = 0 then .ok (inode, v, none)
  else match v.bread (inode.i_zone 0) with
    | none => .ok (inode, v, none)
    | some v => addLoop name (inode.i_size / ENTRY + 3) inode v 0 (some (inode.i_zone 0)) 0

/-! ## empty_dir -/

/-- `brelse(bh); return found;`, where `none` is the buffer that has been released. -/
def answer (v : Vol) (bh : Option Nat) (found : Bool) : Except Stop (Vol × Bool) :=
  match bh with
  | none => .error .unheld
  | some b => (release v b).map fun v => (v, found)

/-- The loop of `empty_dir`; behind a missing block `bh` is still the buffer of the block before,
and `de` its end. -/
def emptyLoop (inode : MInode) (len : Nat) :
    Nat → Vol → Nat → Option Nat → Nat → Except Stop (Vol × Bool)
  | 0, v, _, bh, _ => answer v bh true
  | n + 1, v, nr, bh, de =>
      if nr < len then
        match bh with
        | none => .error .unheld
        | some b =>
            if de ≥ Dir.BLOCK_SIZE then
              match release v b with
              | .error e => .error e
              | .ok v =>
                  match Vol.bmap false inode v (nr / DIR_ENTRIES_PER_BLOCK) with
                  | .error e => .error (.panic e)
                  | .ok (_, v, block) =>
                      if block = 0 then
                        emptyLoop inode len n v (nr + DIR_ENTRIES_PER_BLOCK) none de
                      else match v.bread block with
                        | none => .ok (v, false)
                        | some v =>
                            if getInode (v.b_data block) 0 ≠ 0 then answer v (some block) false
                            else emptyLoop inode len n v (nr + 1) (some block) ENTRY
            else if getInode (v.b_data b) de ≠ 0 then answer v (some b) false
            else emptyLoop inode len n v (nr + 1) (some b) (de + ENTRY)
      else answer v bh true

/-- The first entries are `.` and `..`. -/
def Dots (i_num : Nat) (b_data : Zones.Bytes) : Prop :=
  getInode b_data 0 = i_num ∧ getInode b_data ENTRY ≠ 0 ∧ label b_data 0 = [46] ∧
    label b_data ENTRY = [46, 46]

instance (i_num : Nat) (b_data : Zones.Bytes) : Decidable (Dots i_num b_data) :=
  inferInstanceAs (Decidable (_ ∧ _))

def emptyDir (i_num : Nat) (inode : MInode) (v : Vol) : Except Stop (Vol × Bool) :=
  let len := inode.i_size / ENTRY
  if len < 2 ∨ inode.i_zone 0 = 0 then .ok (v, false)
  else match v.bread (inode.i_zone 0) with
    | none => .ok (v, false)
    | some v =>
        if Dots i_num (v.b_data (inode.i_zone 0)) then
          emptyLoop inode len len v 2 (some (inode.i_zone 0)) (2 * ENTRY)
        else .ok (v, false)

/-! ## What a scan may do -/

/-- The scan comes to its end, and holds `bh` behind it. -/
def Safe {α : Type*} (v : Vol) (bh : α → Option Nat) (after : α → Vol) : Except Stop α → Prop
  | .error _ => False
  | .ok r => (after r).b_count = match bh r with
      | none => v.b_count
      | some b => (v.hold b).b_count

def FindSafe (v : Vol) : Except Stop (Vol × Option (Nat × Nat)) → Prop :=
  Safe v (fun r => r.2.map Prod.fst) Prod.fst

def AddSafe (v : Vol) : Except Stop (MInode × Vol × Option (Nat × Nat)) → Prop :=
  Safe v (fun r => r.2.2.map Prod.fst) fun r => r.2.1

def EmptySafe (v : Vol) : Except Stop (Vol × Bool) → Prop := Safe v (fun _ => none) Prod.fst

/-- Block `k` of the directory is missing or cannot be read. -/
def Gone (inode : MInode) (v : Vol) (k : Nat) : Prop :=
  Vol.blockOf inode v k = 0 ∨ v.bad (Vol.blockOf inode v k) = true

/-- The bytes of the block of entry `i`. -/
def dataOf (inode : MInode) (v : Vol) (i : Nat) : Zones.Bytes :=
  v.b_data (Vol.blockOf inode v (i / DIR_ENTRIES_PER_BLOCK))

/-- The offset of entry `i` in its block. -/
def offset (i : Nat) : Nat := i % DIR_ENTRIES_PER_BLOCK * ENTRY

/-- `find_entry` goes past entry `i`. -/
def Passes (inode : MInode) (v : Vol) (name : List UInt8) (i : Nat) : Prop :=
  Gone inode v (i / DIR_ENTRIES_PER_BLOCK) ∨
    matchEntry name (dataOf inode v i) (offset i) = false

/-- `add_entry` goes past entry `i`. -/
def Taken (inode : MInode) (v : Vol) (i : Nat) : Prop :=
  i * ENTRY < inode.i_size ∧ ¬Gone inode v (i / DIR_ENTRIES_PER_BLOCK) ∧
    getInode (dataOf inode v i) (offset i) ≠ 0

/-- `empty_dir` goes past entry `i`. -/
def Free (inode : MInode) (v : Vol) (i : Nat) : Prop :=
  ¬Gone inode v (i / DIR_ENTRIES_PER_BLOCK) ∧ getInode (dataOf inode v i) (offset i) = 0

/-- From entry `i` on, what `Q` says of each block that a scan comes to whose entries pass `P`;
`last` says that there is an entry of the block. -/
def Range (P last Q : Nat → Prop) (i : Nat) : Prop :=
  ∀ k, 0 < k → i ≤ k * DIR_ENTRIES_PER_BLOCK → last k →
    (∀ j, i ≤ j → j < k * DIR_ENTRIES_PER_BLOCK → P j) → Q k

/-- A block that `find_entry` comes to is within the file, and behind a missing or unreadable one
there is no other. -/
def FindRange (inode : MInode) (v : Vol) (name : List UInt8) (entries : Nat) : Nat → Prop :=
  Range (Passes inode v name) (fun k => k * DIR_ENTRIES_PER_BLOCK < entries) fun k =>
    k < MAXBLOCK ∧ (Gone inode v k → entries ≤ (k + 1) * DIR_ENTRIES_PER_BLOCK)

/-- A block that `add_entry` comes to is within the file, and it can be read, or it is missing and
`create_block` comes to its end. -/
def AddRange (inode : MInode) (v : Vol) : Nat → Prop :=
  Range (Taken inode v) (fun _ => True) fun k => k < MAXBLOCK ∧
    if Vol.blockOf inode v k = 0 then (Vol.bmap true inode v k).isOk = true
    else v.bad (Vol.blockOf inode v k) = false

/-- A block that `empty_dir` comes to is within the file, and not missing. -/
def EmptyRange (inode : MInode) (v : Vol) (len : Nat) : Nat → Prop :=
  Range (Free inode v) (fun k => k * DIR_ENTRIES_PER_BLOCK < len) fun k =>
    k < MAXBLOCK ∧ Vol.blockOf inode v k ≠ 0

/-! ## The steps of a scan -/

section Range

variable {P last Q : Nat → Prop} {i k : Nat}

theorem range_inside (hi : i = 0 ∨ i % DIR_ENTRIES_PER_BLOCK ≠ 0) :
    Range P last Q i ↔ (P i → Range P last Q (i + 1)) := by
  have hd : DIR_ENTRIES_PER_BLOCK = 64 := rfl
  unfold Range
  rw [hd] at hi ⊢
  constructor
  · intro h hp k hk hle hlast hall
    refine h k hk (by omega) hlast fun j hj hlt => ?_
    rcases Nat.eq_or_lt_of_le hj with rfl | hgt
    · exact hp
    · exact hall j hgt hlt
  · intro h k hk hle hlast hall
    have hlt : i < k * 64 := by omega
    exact h (hall i (Nat.le_refl i) hlt) k hk hlt hlast fun j hj => hall j (Nat.le_of_succ_le hj)

theorem range_end (hk : 0 < k) (hi : i = k * DIR_ENTRIES_PER_BLOCK) :
    Range P last Q i ↔ (last k → Q k) ∧ (P i → Range P last Q (i + 1)) := by
  have hd : DIR_ENTRIES_PER_BLOCK = 64 := rfl
  unfold Range
  rw [hd] at hi ⊢
  constructor
  · intro h
    refine ⟨fun hlast => h k hk (by omega) hlast fun j hj hlt => absurd hlt (by omega), ?_⟩
    intro hp k' hk' hle hlast hall
    refine h k' hk' (by omega) hlast fun j hj hlt => ?_
    rcases Nat.eq_or_lt_of_le hj with rfl | hgt
    · exact hp
    · exact hall j hgt hlt
  · rintro ⟨hend, hnext⟩ k' hk' hle hlast hall
    rcases Nat.eq_or_lt_of_le hle with heq | hlt
    · obtain rfl : k' = k := by omega
      exact hend hlast
    · exact hnext (hall i (Nat.le_refl i) hlt) k' hk' hlt hlast fun j hj =>
        hall j (Nat.le_of_succ_le hj)

end Range

variable {inode : MInode} {v : Vol} {name : List UInt8} {entries i k b de : Nat}

/-- `bh` and `de` at entry `i`. -/
def Place (inode : MInode) (v : Vol) (i b de : Nat) : Prop :=
  b = Vol.blockOf inode v (i / DIR_ENTRIES_PER_BLOCK) ∧ de = offset i ∧
      (i = 0 ∨ i % DIR_ENTRIES_PER_BLOCK ≠ 0) ∧ ¬Gone inode v (i / DIR_ENTRIES_PER_BLOCK) ∨
    de = Dir.BLOCK_SIZE ∧ ∃ k, 0 < k ∧ i = k * DIR_ENTRIES_PER_BLOCK

theorem offset_lt (i : Nat) : offset i < Dir.BLOCK_SIZE := Dir.offset_lt i

theorem Place.next (hgone : ¬Gone inode v (i / DIR_ENTRIES_PER_BLOCK)) :
    Place inode v (i + 1) (Vol.blockOf inode v (i / DIR_ENTRIES_PER_BLOCK)) (offset i + ENTRY) := by
  have hd : DIR_ENTRIES_PER_BLOCK = 64 := rfl
  have he : ENTRY = 16 := rfl
  have hb : Dir.BLOCK_SIZE = 1024 := rfl
  unfold Place offset
  rw [hd] at hgone
  rw [hd, he, hb]
  by_cases hend : (i + 1) % 64 = 0
  · exact .inr ⟨by omega, (i + 1) / 64, by omega, by omega⟩
  · rw [show (i + 1) / 64 = i / 64 by omega]
    exact .inl ⟨rfl, by omega, .inr hend, hgone⟩

theorem release_hold (v : Vol) (b : Nat) : release (v.hold b) b = .ok v := by
  rw [release, Vol.brelse_hold]
  rfl

theorem nextBlock_inside (create : Bool) (inode : MInode) (w : Vol) (i b : Nat)
    (h : de < Dir.BLOCK_SIZE) :
    nextBlock create inode w i (some b) de = .ok (inode, w, .entry b de) :=
  if_neg (Nat.not_le_of_lt h)

/-- The head of the loops at the end of a block. -/
theorem nextBlock_end (create : Bool) (inode : MInode) (v : Vol) (b k : Nat) :
    nextBlock create inode (v.hold b) (k * DIR_ENTRIES_PER_BLOCK) (some b) Dir.BLOCK_SIZE =
      match Vol.bmap create inode v k with
      | .error e => .error (.panic e)
      | .ok (inode, v, block) =>
          if block = 0 then .ok (inode, v, .missing)
          else if v.bad block then .ok (inode, v, .unreadable)
          else .ok (inode, v.hold block, .entry block 0) := by
  unfold nextBlock
  dsimp only
  rw [if_pos (Nat.le_refl _), release_hold, Nat.mul_div_cancel k (by decide)]
  dsimp only
  cases Vol.bmap create inode v k with
  | error e => rfl
  | ok r =>
      obtain ⟨inode', v', block⟩ := r
      dsimp only
      cases hbad : v'.bad block with
      | true => rw [Vol.bread_of_bad hbad]; rfl
      | false => rw [Vol.bread_of_good hbad]; rfl

theorem offset_end (k : Nat) : offset (k * DIR_ENTRIES_PER_BLOCK) = 0 := by
  rw [offset, Nat.mul_mod_left]
  rfl

/-! ## find_entry -/

/-- Behind a missing block there is no step, or a null pointer. -/
theorem findLoop_null (n : Nat) (h : entries ≤ i + n) (v : Vol) (de : Nat) :
    FindSafe v (findLoop inode name entries n v i none de) ↔ entries ≤ i := by
  cases n with
  | zero => exact iff_of_true rfl h
  | succ n =>
      unfold findLoop
      by_cases hi : i < entries
      · rw [if_pos hi]
        exact iff_of_false id (Nat.not_le_of_lt hi)
      · rw [if_neg hi]
        exact iff_of_true rfl (Nat.le_of_not_lt hi)

theorem findLoop_safe (inode : MInode) (v : Vol) (name : List UInt8) (entries n : Nat) :
    ∀ {i b de : Nat}, entries ≤ i + n → Place inode v i b de →
      (FindSafe v (findLoop inode name entries n (v.hold b) i (some b) de) ↔
        FindRange inode v name entries i) := by
  have hbehind : ∀ {i}, entries ≤ i → FindRange inode v name entries i := by
    intro i hi k _ hle hlast _
    exact absurd hlast (by omega)
  have hdone : ∀ b, FindSafe v (notFound (v.hold b) (some b)) := by
    intro b
    show FindSafe v ((release (v.hold b) b).map fun v => (v, none))
    rw [release_hold]
    rfl
  induction n with
  | zero =>
      intro i b de hn _
      exact iff_of_true (hdone b) (hbehind hn)
  | succ n ih =>
      intro i b de hn hplace
      unfold findLoop
      by_cases hi : i < entries
      swap
      · rw [if_neg hi]
        exact iff_of_true (hdone b) (hbehind (Nat.le_of_not_lt hi))
      rw [if_pos hi]
      -- the test of entry `i`, whose block is in hand
      have hbody : ∀ b, b = Vol.blockOf inode v (i / DIR_ENTRIES_PER_BLOCK) →
          ¬Gone inode v (i / DIR_ENTRIES_PER_BLOCK) →
          (FindSafe v (if matchEntry name ((v.hold b).b_data b) (offset i) then
              .ok (v.hold b, some (b, offset i))
            else findLoop inode name entries n (v.hold b) (i + 1) (some b) (offset i + ENTRY)) ↔
            (Passes inode v name i → FindRange inode v name entries (i + 1))) := by
        rintro b rfl hgone
        cases hmatch : matchEntry name (dataOf inode v i) (offset i) with
        | true =>
            rw [if_pos (show matchEntry name ((v.hold _).b_data _) _ = true from hmatch)]
            refine iff_of_true rfl fun hp => ?_
            exact absurd (hmatch.symm.trans (hp.resolve_left hgone)) Bool.true_eq_false.mp
        | false =>
            rw [if_neg (show ¬matchEntry name ((v.hold _).b_data _) _ = true from
              hmatch ▸ Bool.false_ne_true), ih (by omega) (Place.next hgone)]
            exact ⟨fun h _ => h, fun h => h (.inr hmatch)⟩
      rcases hplace with ⟨hb, rfl, hinside, hgone⟩ | ⟨rfl, k, hk, rfl⟩
      · rw [nextBlock_inside _ _ _ _ _ (offset_lt i)]
        dsimp only
        rw [hbody b hb hgone, FindRange, range_inside hinside]
      · rw [nextBlock_end, FindRange, range_end hk rfl]
        by_cases hmax : k < MAXBLOCK
        swap
        · rw [Vol.bmap_big _ _ _ hmax]
          exact iff_of_false id fun h => hmax (h.1 hi).1
        rw [Vol.bmap_read _ _ hmax]
        dsimp only
        have hdiv : k * DIR_ENTRIES_PER_BLOCK / DIR_ENTRIES_PER_BLOCK = k :=
          Nat.mul_div_cancel k (by decide)
        have hsucc : k * DIR_ENTRIES_PER_BLOCK + DIR_ENTRIES_PER_BLOCK =
            (k + 1) * DIR_ENTRIES_PER_BLOCK := (Nat.succ_mul _ _).symm
        -- without its block the next step goes through a null pointer
        have hskip : Gone inode v k → ∀ de,
            (FindSafe v (findLoop inode name entries n v
                (k * DIR_ENTRIES_PER_BLOCK + DIR_ENTRIES_PER_BLOCK) none de) ↔
              (k * DIR_ENTRIES_PER_BLOCK < entries → k < MAXBLOCK ∧
                (Gone inode v k → entries ≤ (k + 1) * DIR_ENTRIES_PER_BLOCK)) ∧
              (Passes inode v name (k * DIR_ENTRIES_PER_BLOCK) →
                FindRange inode v name entries (k * DIR_ENTRIES_PER_BLOCK + 1))) := by
          intro hgone de
          have hpos : 0 < DIR_ENTRIES_PER_BLOCK := by decide
          rw [findLoop_null n (by omega), hsucc]
          constructor
          · intro hle
            refine ⟨fun _ => ⟨hmax, fun _ => hle⟩, fun _ k' _ hle' hlast _ => ?_⟩
            have hd : DIR_ENTRIES_PER_BLOCK = 64 := rfl
            rw [hd] at hle hle' hlast
            omega
          · exact fun h => (h.1 hi).2 hgone
        by_cases hzero : Vol.blockOf inode v k = 0
        · rw [if_pos hzero]
          exact hskip (.inl hzero) _
        rw [if_neg hzero]
        by_cases hbad : v.bad (Vol.blockOf inode v k) = true
        · rw [if_pos hbad]
          exact hskip (.inr hbad) _
        have hgone : ¬Gone inode v k := not_or.mpr ⟨hzero, hbad⟩
        rw [if_neg hbad]
        dsimp only
        have hthis := hbody (Vol.blockOf inode v k) (by rw [hdiv]) (hdiv.symm ▸ hgone)
        rw [offset_end] at hthis
        rw [hthis]
        exact ⟨fun h => ⟨fun _ => ⟨hmax, fun hg => absurd hg hgone⟩, h⟩, fun h => h.2⟩

/-- The name that `find_entry` looks for. -/
def searched (root : Bool) (name : List UInt8) : List UInt8 :=
  let name := name.take NAME_LEN
  if name = [46, 46] ∧ root then name.take 1 else name

theorem findEntry_safe (root : Bool) (entries : Nat) (inode : MInode) (v : Vol)
    (name : List UInt8) :
    FindSafe v (findEntry root entries inode v name) ↔
      name.take NAME_LEN = [] ∨ Gone inode v 0 ∨
        FindRange inode v (searched root name) entries 0 := by
  unfold findEntry
  dsimp only
  by_cases hname : name.take NAME_LEN = []
  · rw [if_pos (List.length_eq_zero_iff.mpr hname)]
    exact iff_of_true rfl (.inl hname)
  rw [if_neg fun h => hname (List.length_eq_zero_iff.mp h), or_iff_right hname]
  by_cases hzero : inode.i_zone 0 = 0
  · rw [if_pos hzero]
    exact iff_of_true rfl (.inl (.inl hzero))
  rw [if_neg hzero]
  cases hbad : v.bad (inode.i_zone 0) with
  | true =>
      rw [Vol.bread_of_bad hbad]
      exact iff_of_true rfl (.inl (.inr hbad))
  | false =>
      have hgone : ¬Gone inode v 0 := not_or.mpr ⟨hzero, fun h => by
        rw [show Vol.blockOf inode v 0 = inode.i_zone 0 from rfl, hbad] at h
        cases h⟩
      rw [Vol.bread_of_good hbad, or_iff_right hgone]
      exact findLoop_safe inode v _ entries entries (by omega) (.inl ⟨rfl, rfl, .inl rfl, hgone⟩)

/-! ## add_entry -/

theorem extend_inside {s : Disk} (h : i * ENTRY < inode.i_size) (b de : Nat) :
    extend inode s i b de = (inode, s) :=
  if_neg (Nat.not_le_of_lt h)

theorem extend_free {s : Disk} (h : inode.i_size ≤ i * ENTRY) (b de : Nat) :
    getInode ((extend inode s i b de).2.b_data b) de = 0 := by
  unfold Dir.extend
  rw [if_pos h]
  show getInode ((s.store b (setInode (s.b_data b) de 0)).b_data b) de = 0
  rw [Disk.store_data, getInode_setInode _ _ (by decide)]

theorem extend_zeroes {s : Disk} (h : s.b_data b = Zones.zeroes) (de : Nat) :
    getInode ((extend inode s i b de).2.b_data b) de = 0 := by
  by_cases hin : i * ENTRY < inode.i_size
  · rw [extend_inside hin, h]
    rfl
  · exact extend_free (Nat.le_of_not_lt hin) b de

/-- The step of `add_entry` that finds entry `i` in block `b`. -/
def addStep (name : List UInt8) (n : Nat) (inode : MInode) (v : Vol) (i b de : Nat) :
    Except Stop (MInode × Vol × Option (Nat × Nat)) :=
  let (inode, disk) := extend inode v.toDisk i b de
  let v := { v with toDisk := disk }
  if getInode (v.b_data b) de = 0 then
    .ok (inode, v.store b (setName (v.b_data b) de name), some (b, de))
  else addLoop name n inode v (i + 1) (some b) (de + ENTRY)

theorem addStep_free {n : Nat} {v' : Vol} (hcount : v'.b_count = (v.hold b).b_count)
    (h : getInode ((extend inode v'.toDisk i b de).2.b_data b) de = 0) :
    AddSafe v (addStep name n inode v' i b de) := by
  unfold addStep
  dsimp only
  rw [if_pos h]
  exact hcount

theorem addLoop_safe (inode : MInode) (hshort : v.sb.s_nzones < 0x10000) (name : List UInt8)
    (n : Nat) : ∀ {i b de : Nat}, inode.i_size / ENTRY + 3 ≤ i + n → i ≤ inode.i_size / ENTRY + 1 →
      Place inode v i b de →
      (AddSafe v (addLoop name n inode (v.hold b) i (some b) de) ↔ AddRange inode v i) := by
  have he : ENTRY = 16 := rfl
  induction n with
  | zero => intro i b de hn hi _; omega
  | succ n ih =>
      intro i b de hn hi hplace
      have hbody : ∀ b, b = Vol.blockOf inode v (i / DIR_ENTRIES_PER_BLOCK) →
          ¬Gone inode v (i / DIR_ENTRIES_PER_BLOCK) →
          (AddSafe v (addStep name n inode (v.hold b) i b (offset i)) ↔
            (Taken inode v i → AddRange inode v (i + 1))) := by
        rintro b rfl hgone
        by_cases hin : i * ENTRY < inode.i_size
        swap
        · exact iff_of_true (addStep_free rfl (extend_free (Nat.le_of_not_lt hin) _ _))
            fun ht => absurd ht.1 hin
        have hext : ∀ b, extend inode (v.hold b).toDisk i b (offset i) = (inode, v.toDisk) :=
          fun b => extend_inside hin b (offset i)
        by_cases hfree : getInode (dataOf inode v i) (offset i) = 0
        · refine iff_of_true (addStep_free rfl ?_) fun ht => absurd hfree ht.2.2
          rw [hext]
          exact hfree
        · unfold addStep
          rw [hext]
          dsimp only
          have hused : ¬getInode (v.b_data (Vol.blockOf inode v (i / DIR_ENTRIES_PER_BLOCK)))
              (offset i) = 0 := hfree
          rw [if_neg hused]
          have hroom : i ≤ inode.i_size / ENTRY := by
            rw [he] at hin ⊢
            omega
          have hnext := ih (i := i + 1) (by omega) (by omega) (Place.next hgone)
          exact hnext.trans ⟨fun h _ => h, fun h => h ⟨hin, hgone, hfree⟩⟩
      unfold addLoop
      rcases hplace with ⟨hb, rfl, hinside, hgone⟩ | ⟨rfl, k, hk, rfl⟩
      · rw [nextBlock_inside _ _ _ _ _ (offset_lt i), AddRange, range_inside hinside]
        exact hbody b hb hgone
      rw [nextBlock_end, AddRange, range_end hk rfl]
      by_cases hmax : k < MAXBLOCK
      swap
      · rw [Vol.bmap_big _ _ _ hmax]
        exact iff_of_false id fun h => hmax (h.1 trivial).1
      have hdiv : k * DIR_ENTRIES_PER_BLOCK / DIR_ENTRIES_PER_BLOCK = k :=
        Nat.mul_div_cancel k (by decide)
      by_cases hzero : Vol.blockOf inode v k = 0
      · have hnone : ¬Taken inode v (k * DIR_ENTRIES_PER_BLOCK) := fun ht =>
          ht.2.1 (hdiv.symm ▸ .inl hzero)
        rw [if_pos hzero]
        cases hbmap : Vol.bmap true inode v k with
        | error e => exact iff_of_false id fun h => absurd (h.1 trivial).2 Bool.false_ne_true
        | ok r =>
            obtain ⟨inode', v', block⟩ := r
            have hcount := Vol.bmap_count hbmap
            refine iff_of_true ?_ ⟨fun _ => ⟨hmax, rfl⟩, fun ht => absurd ht hnone⟩
            dsimp only
            by_cases hblock : block = 0
            · rw [if_pos hblock]
              exact hcount
            · have hfresh := Vol.bmap_created hshort hzero hbmap hblock
              rw [if_neg hblock, hfresh.good]
              refine addStep_free ?_ (extend_zeroes hfresh.zeroes 0)
              show update v'.b_count block (v'.b_count block + 1) = _
              rw [hcount]
              rfl
      · rw [Vol.bmap_present hmax hzero, if_neg hzero]
        dsimp only
        rw [if_neg hzero]
        by_cases hbad : v.bad (Vol.blockOf inode v k) = true
        · rw [if_pos hbad, hbad]
          refine iff_of_false ?_ fun h => absurd (h.1 trivial).2 Bool.true_eq_false.mp
          obtain ⟨m, rfl⟩ : ∃ m, n = m + 1 := ⟨n - 1, by omega⟩
          exact id
        · have hgone : ¬Gone inode v k := not_or.mpr ⟨hzero, hbad⟩
          rw [if_neg hbad]
          have hthis := hbody (Vol.blockOf inode v k) (by rw [hdiv]) (hdiv.symm ▸ hgone)
          rw [offset_end] at hthis
          refine hthis.trans ⟨fun h => ⟨fun _ => ⟨hmax, Bool.not_eq_true _ ▸ hbad⟩, h⟩, ?_⟩
          exact fun h => h.2

theorem addEntry_safe (inode : MInode) (hshort : v.sb.s_nzones < 0x10000) (name : List UInt8) :
    AddSafe v (addEntry inode v name) ↔
      name.take NAME_LEN = [] ∨ Gone inode v 0 ∨ AddRange inode v 0 := by
  unfold addEntry
  dsimp only
  by_cases hname : name.take NAME_LEN = []
  · rw [if_pos (List.length_eq_zero_iff.mpr hname)]
    exact iff_of_true rfl (.inl hname)
  rw [if_neg fun h => hname (List.length_eq_zero_iff.mp h), or_iff_right hname]
  by_cases hzero : inode.i_zone 0 = 0
  · rw [if_pos hzero]
    exact iff_of_true rfl (.inl (.inl hzero))
  rw [if_neg hzero]
  cases hbad : v.bad (inode.i_zone 0) with
  | true =>
      rw [Vol.bread_of_bad hbad]
      exact iff_of_true rfl (.inl (.inr hbad))
  | false =>
      have hgone : ¬Gone inode v 0 := not_or.mpr ⟨hzero, fun h => by
        rw [show Vol.blockOf inode v 0 = inode.i_zone 0 from rfl, hbad] at h
        cases h⟩
      rw [Vol.bread_of_good hbad, or_iff_right hgone]
      exact addLoop_safe inode hshort _ _ (Nat.le_of_eq (Nat.zero_add _).symm) (Nat.zero_le _)
        (.inl ⟨rfl, rfl, .inl rfl, hgone⟩)

/-! ## empty_dir -/

/-- Behind a missing block the buffer of the block before is released again. -/
theorem emptyLoop_unheld (inode : MInode) (len n : Nat) (v : Vol) (i de : Nat) :
    emptyLoop inode len n v i none de = .error .unheld := by
  cases n with
  | zero => rfl
  | succ n =>
      unfold emptyLoop
      split <;> rfl

theorem emptyLoop_safe (inode : MInode) (v : Vol) (len n : Nat) :
    ∀ {i b de : Nat}, len ≤ i + n → Place inode v i b de →
      (EmptySafe v (emptyLoop inode len n (v.hold b) i (some b) de) ↔
        EmptyRange inode v len i) := by
  have hbehind : ∀ {i}, len ≤ i → EmptyRange inode v len i := by
    intro i hi k _ hle hlast _
    exact absurd hlast (by omega)
  have hdone : ∀ b found, EmptySafe v (answer (v.hold b) (some b) found) := by
    intro b found
    show EmptySafe v ((release (v.hold b) b).map fun v => (v, found))
    rw [release_hold]
    rfl
  induction n with
  | zero =>
      intro i b de hn _
      exact iff_of_true (hdone b true) (hbehind hn)
  | succ n ih =>
      intro i b de hn hplace
      unfold emptyLoop
      by_cases hi : i < len
      swap
      · rw [if_neg hi]
        exact iff_of_true (hdone b true) (hbehind (Nat.le_of_not_lt hi))
      rw [if_pos hi]
      dsimp only
      have hbody : ∀ b, b = Vol.blockOf inode v (i / DIR_ENTRIES_PER_BLOCK) →
          ¬Gone inode v (i / DIR_ENTRIES_PER_BLOCK) →
          (EmptySafe v (if getInode ((v.hold b).b_data b) (offset i) ≠ 0 then
              answer (v.hold b) (some b) false
            else emptyLoop inode len n (v.hold b) (i + 1) (some b) (offset i + ENTRY)) ↔
            (Free inode v i → EmptyRange inode v len (i + 1))) := by
        rintro b rfl hgone
        by_cases hused : getInode ((v.hold (Vol.blockOf inode v (i / DIR_ENTRIES_PER_BLOCK))).b_data
            (Vol.blockOf inode v (i / DIR_ENTRIES_PER_BLOCK))) (offset i) ≠ 0
        · rw [if_pos hused]
          exact iff_of_true (hdone _ false) fun hf => absurd hf.2 hused
        · rw [if_neg hused, ih (by omega) (Place.next hgone)]
          exact ⟨fun h _ => h, fun h => h ⟨hgone, not_not.mp hused⟩⟩
      rcases hplace with ⟨hb, rfl, hinside, hgone⟩ | ⟨rfl, k, hk, rfl⟩
      · rw [if_neg (Nat.not_le_of_lt (offset_lt i)), hbody b hb hgone, EmptyRange,
          range_inside hinside]
      rw [if_pos (Nat.le_refl _), release_hold, EmptyRange, range_end hk rfl]
      have hdiv : k * DIR_ENTRIES_PER_BLOCK / DIR_ENTRIES_PER_BLOCK = k :=
        Nat.mul_div_cancel k (by decide)
      dsimp only
      rw [hdiv]
      by_cases hmax : k < MAXBLOCK
      swap
      · rw [Vol.bmap_big _ _ _ hmax]
        exact iff_of_false id fun h => hmax (h.1 hi).1
      rw [Vol.bmap_read _ _ hmax]
      dsimp only
      by_cases hzero : Vol.blockOf inode v k = 0
      · rw [if_pos hzero, emptyLoop_unheld]
        exact iff_of_false id fun h => (h.1 hi).2 hzero
      rw [if_neg hzero]
      cases hbad : v.bad (Vol.blockOf inode v k) with
      | true =>
          rw [Vol.bread_of_bad hbad]
          exact iff_of_true rfl ⟨fun _ => ⟨hmax, hzero⟩,
            fun hf => absurd (.inr (hdiv.symm ▸ hbad)) hf.1⟩
      | false =>
          have hgone : ¬Gone inode v k := not_or.mpr ⟨hzero, hbad ▸ Bool.false_ne_true⟩
          rw [Vol.bread_of_good hbad]
          have hthis := hbody (Vol.blockOf inode v k) (by rw [hdiv]) (hdiv.symm ▸ hgone)
          rw [offset_end, Nat.zero_add] at hthis
          exact hthis.trans ⟨fun h => ⟨fun _ => ⟨hmax, hzero⟩, h⟩, fun h => h.2⟩

theorem emptyDir_safe (i_num : Nat) (inode : MInode) (v : Vol) :
    EmptySafe v (emptyDir i_num inode v) ↔
      inode.i_size / ENTRY < 2 ∨ Gone inode v 0 ∨
        Dots i_num (dataOf inode v 0) ∧ EmptyRange inode v (inode.i_size / ENTRY) 2 := by
  unfold emptyDir
  dsimp only
  by_cases hlen : inode.i_size / ENTRY < 2
  · rw [if_pos (.inl hlen)]
    exact iff_of_true rfl (.inl hlen)
  refine Iff.trans ?_ (or_iff_right hlen).symm
  by_cases hzero : inode.i_zone 0 = 0
  · rw [if_pos (.inr hzero)]
    exact iff_of_true rfl (.inl (.inl hzero))
  rw [if_neg (not_or.mpr ⟨hlen, hzero⟩)]
  cases hbad : v.bad (inode.i_zone 0) with
  | true =>
      rw [Vol.bread_of_bad hbad]
      exact iff_of_true rfl (.inl (.inr hbad))
  | false =>
      have hgone : ¬Gone inode v 0 := not_or.mpr ⟨hzero, fun h => by
        rw [show Vol.blockOf inode v 0 = inode.i_zone 0 from rfl, hbad] at h
        cases h⟩
      rw [Vol.bread_of_good hbad, or_iff_right hgone]
      dsimp only
      by_cases hdots : Dots i_num (dataOf inode v 0)
      · have hdots' : Dots i_num ((v.hold (inode.i_zone 0)).b_data (inode.i_zone 0)) := hdots
        rw [if_pos hdots', and_iff_right hdots]
        exact emptyLoop_safe inode v _ _ (by omega) (.inl ⟨rfl, rfl, .inr (by decide), hgone⟩)
      · have hdots' : ¬Dots i_num ((v.hold (inode.i_zone 0)).b_data (inode.i_zone 0)) := hdots
        rw [if_neg hdots']
        -- the buffer of the first block stays held
        refine iff_of_false (fun h => ?_) fun h => hdots h.1
        have hcount : (v.hold (inode.i_zone 0)).b_count = v.b_count := h
        have hself := congrFun hcount (inode.i_zone 0)
        rw [show (v.hold (inode.i_zone 0)).b_count (inode.i_zone 0) = _ from
          update_self _ _ _] at hself
        exact Nat.succ_ne_self _ hself

/-- Each of the scans comes to its end on any directory, and holds only the buffer that it returns,
just when the blocks that it comes to are within the file and

* for `find_entry`, a missing or unreadable block behind the first is the last one;
* for `add_entry`, none of them behind the first is unreadable, and `create_block` comes to its
  end for a missing one;
* for `empty_dir`, the first entries are `.` and `..`, and no block behind the first is missing. -/
theorem scans_safe (inode : MInode) (v : Vol) (hshort : v.sb.s_nzones < 0x10000) :
    (∀ root entries name, FindSafe v (findEntry root entries inode v name) ↔
      name.take NAME_LEN = [] ∨ Gone inode v 0 ∨
        FindRange inode v (searched root name) entries 0) ∧
    (∀ name, AddSafe v (addEntry inode v name) ↔
      name.take NAME_LEN = [] ∨ Gone inode v 0 ∨ AddRange inode v 0) ∧
    ∀ i_num, EmptySafe v (emptyDir i_num inode v) ↔
      inode.i_size / ENTRY < 2 ∨ Gone inode v 0 ∨
        Dots i_num (dataOf inode v 0) ∧ EmptyRange inode v (inode.i_size / ENTRY) 2 :=
  ⟨fun root entries name => findEntry_safe root entries inode v name,
    fun name => addEntry_safe inode hshort name, fun i_num => emptyDir_safe i_num inode v⟩

section Floppy

/-- A directory whose first block is zone 5. -/
def dir (size second : Nat) : MInode :=
  ⟨size, fun i => if i = 0 then 5 else if i = 1 then second else 0, false⟩

/-- Zone 5 has the bytes `b_data`, and zone 6 cannot be read. -/
def vol (b_data : Zones.Bytes) : Vol where
  sb := { toDSuperBlock := Zones.floppy, s_imap := fun _ => none, s_zmap := fun _ => none }
  b_data := fun b => if b = 5 then b_data else Zones.zeroes
  bad := fun b => decide (b = 6)
  b_count := fun _ => 0

/-- `.` and `..` of inode 1. -/
def dots : Zones.Bytes := fun p =>
  if p = 0 ∨ p = 16 then 1 else if p = 2 ∨ p = 18 ∨ p = 19 then 46 else 0

theorem scans_safe_empty :
    FindSafe (vol dots) (findEntry false 2 (dir 32 0) (vol dots) [65]) ∧
      AddSafe (vol dots) (addEntry (dir 32 0) (vol dots) [65]) ∧
      EmptySafe (vol dots) (emptyDir 1 (dir 32 0) (vol dots)) := by
  have hd : DIR_ENTRIES_PER_BLOCK = 64 := rfl
  obtain ⟨hfind, hadd, hempty⟩ := scans_safe (dir 32 0) (vol dots) (by decide)
  refine ⟨(hfind false 2 [65]).mpr (.inr (.inr fun k hk _ hlast _ => ?_)),
    (hadd [65]).mpr (.inr (.inr fun k hk _ _ hall => ?_)),
    (hempty 1).mpr (.inr (.inr ⟨by decide, fun k hk _ hlast _ => ?_⟩))⟩
  · rw [hd] at hlast
    omega
  · rw [hd] at hall
    exact absurd (hall 2 (Nat.zero_le 2) (by omega)).1 (by decide)
  · have hlast : k * DIR_ENTRIES_PER_BLOCK < 32 / ENTRY := hlast
    rw [hd, show 32 / ENTRY = 2 from rfl] at hlast
    omega

/-- The second block of three is missing; it is unreadable, behind a full one; it is missing,
behind `.` and `..`; the first entries are others. -/
theorem not_scans_safe :
    (findEntry false 192 (dir 3072 0) (vol fun _ => 1) [65]).map (fun _ => ()) = .error .null ∧
      (addEntry (dir 2048 6) (vol fun _ => 1) [65]).map (fun _ => ()) = .error .null ∧
      (emptyDir 1 (dir 2048 0) (vol dots)).map (fun _ => ()) = .error .unheld ∧
      (emptyDir 1 (dir 2048 0) (vol fun _ => 1)).map (fun r => r.1.b_count 5) = .ok 1 := by
  refine ⟨?_, ?_, ?_, ?_⟩ <;> decide +kernel

end Floppy

end DirScan

end Linux011
