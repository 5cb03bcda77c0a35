import Linux011.Bmap

/-!
# Regular files

`file_read` and `file_write` of `fs/file_dev.c`, with the clamping of `sys_read`, on a
device without errors. A file is a sequence of bytes with a length, `Contents`; holes and
what lies behind the end are 0. `file_contents` compares the calls with it.

The relation between a file on its device and a sequence of bytes is `Holds`: the blocks of the
inode are a `Tree`, and the byte at a position is that of the block there, or 0 in a hole. Both
loops go block by block, and an induction over the bytes that are left shows for reading that
they are those of the sequence, and for writing that one round is `overlay` with the bytes of
that round. A round of `file_write` first makes sure that its block exists, which changes no byte
since a new block is zeroed (`Holds.create`), and then stores into this block alone
(`Holds.chunk`), where that no other position is in the same block comes from the tree. The
position, the clamping and what a call returns are then compared call by call with `Does`, and
the calls of a run one after the other.

The device has no errors but it can be full, and a write that finds no block returns what it has
stored so far. Other files are left alone because their blocks are foreign to this inode.
-/

namespace Linux011

open Function Super SuperBlock Zones Bmap

namespace FileDev

def BLOCK_SIZE : Nat := 1024

/-- A regular file that is open, on its device. -/
structure File where
  inode : MInode
  disk : Disk
  f_pos : Nat

/-- The bytes of a block with `bytes` from `nr` on. -/
def storeBytes (b : Bytes) (nr : Nat) (bytes : List UInt8) : Bytes := fun i =>
  if nr ≤ i then bytes.getD (i - nr) (b i) else b i

/-- The loop of `file_read`: the bytes that are put into `buf`. -/
def readLoop (inode : MInode) (s : Disk) : Nat → Nat → Nat → Except String (List UInt8)
  | 0, _, _ => .ok []
  | n + 1, f_pos, left =>
      if left = 0 then .ok []
      else
        match bmap false inode s (f_pos / BLOCK_SIZE) with
        | .error e => .error e
        | .ok (_, _, block) =>
            let nr := f_pos % BLOCK_SIZE
            let chars := min (BLOCK_SIZE - nr) left
            let bytes := (List.range chars).map fun i =>
              if block = 0 then 0 else s.b_data block (nr + i)
            (readLoop inode s n (f_pos + chars) (left - chars)).map (bytes ++ ·)

/-- `file_read`; every step of the loop reads a byte at least. -/
def fileRead (f : File) (count : Nat) : Except String (File × List UInt8) :=
  (readLoop f.inode f.disk count f.f_pos count).map fun buf =>
    ({ f with f_pos := f.f_pos + buf.length }, buf)

/-- `sys_read` of a regular file. -/
def sysRead (f : File) (count : Nat) : Except String (File × List UInt8) :=
  let count := if count + f.f_pos > f.inode.i_size then f.inode.i_size - f.f_pos else count
  if count = 0 then .ok (f, []) else fileRead f count

/-- The loop of `file_write` over the bytes that are left in `buf`: the inode, the device
and `i`. -/
def writeLoop : Nat → MInode → Disk → Nat → List UInt8 → Nat → Except String (MInode × Disk × Nat)
  | 0, inode, s, _, _, i => .ok (inode, s, i)
  | n + 1, inode, s, pos, buf, i =>
      if buf.length = 0 then .ok (inode, s, i)
      else
        match bmap true inode s (pos / BLOCK_SIZE) with
        | .error e => .error e
        | .ok (inode, s, block) =>
            if block = 0 then .ok (inode, s, i)
            else
              let c := min (BLOCK_SIZE - pos % BLOCK_SIZE) buf.length
              let inode :=
                if pos + c > inode.i_size then { inode with i_size := pos + c, i_dirt := true }
                else inode
              let s := s.store block (storeBytes (s.b_data block) (pos % BLOCK_SIZE) (buf.take c))
              writeLoop n inode s (pos + c) (buf.drop c) (i + c)

/-- `file_write`, with the value it returns. -/
def fileWrite (append : Bool) (f : File) (buf : List UInt8) : Except String (File × Int) :=
  let pos := if append then f.inode.i_size else f.f_pos
  match writeLoop buf.length f.inode f.disk pos buf 0 with
  | .error e => .error e
  | .ok (inode, disk, i) =>
      .ok (⟨inode, disk, if append then f.f_pos else pos + i⟩, if i = 0 then -1 else i)

/-! ## Files as sequences of bytes -/

structure Contents where
  byte : Nat → UInt8
  size : Nat
  pos : Nat

/-- The bytes with `bytes` from `pos` on. -/
def overlay (byte : Nat → UInt8) (pos : Nat) (bytes : List UInt8) : Nat → UInt8 := fun p =>
  if pos ≤ p then bytes.getD (p - pos) (byte p) else byte p

theorem overlay_nil (byte : Nat → UInt8) (pos : Nat) : overlay byte pos [] = byte := by
  funext p
  unfold overlay
  split <;> rfl

theorem overlay_append (byte : Nat → UInt8) (pos : Nat) (xs ys : List UInt8) :
    overlay (overlay byte pos xs) (pos + xs.length) ys = overlay byte pos (xs ++ ys) := by
  funext p
  unfold overlay
  by_cases h1 : pos + xs.length ≤ p
  · have h2 : pos ≤ p := by omega
    rw [if_pos h1, if_pos h2, if_pos h2, List.getD_eq_getElem?_getD, List.getD_eq_getElem?_getD,
      List.getD_eq_getElem?_getD, List.getElem?_append_right (by omega),
      List.getElem?_eq_none (l := xs) (by omega),
      show p - pos - xs.length = p - (pos + xs.length) by omega]
    rfl
  · rw [if_neg h1]
    by_cases h2 : pos ≤ p
    · rw [if_pos h2, if_pos h2, List.getD_eq_getElem?_getD, List.getD_eq_getElem?_getD,
        List.getElem?_append_left (by omega)]
    · rw [if_neg h2, if_neg h2]

/-- The byte at a position of the file; holes are 0. -/
def fileByte (inode : MInode) (s : Disk) (p : Nat) : UInt8 :=
  if blockNr inode s (p / BLOCK_SIZE) = 0 then 0
  else fileBlock inode s (p / BLOCK_SIZE) (p % BLOCK_SIZE)

def MAXPOS : Nat := MAXBLOCK * BLOCK_SIZE

/-- The bytes and the length of the file are `byte` and `size`. -/
structure Holds (d : DSuperBlock) (inode : MInode) (s : Disk) (byte : Nat → UInt8)
    (size : Nat) : Prop where
  tree : Tree d inode s
  i_size : inode.i_size = size
  le_max : size ≤ MAXPOS
  bytes : ∀ p < MAXPOS, fileByte inode s p = byte p
  behind : ∀ p, size ≤ p → byte p = 0

variable {d : DSuperBlock} {inode inode' : MInode} {s s' : Disk} {byte : Nat → UInt8}
  {size pos p : Nat}

theorem block_lt (hp : p < MAXPOS) : p / BLOCK_SIZE < MAXBLOCK :=
  Nat.div_lt_of_lt_mul (Nat.mul_comm _ _ ▸ hp)

/-! ## Reading -/

/-- A position in the same block as `pos`. -/
theorem same_block {i : Nat} (hi : i < BLOCK_SIZE - pos % BLOCK_SIZE) :
    (pos + i) / BLOCK_SIZE = pos / BLOCK_SIZE ∧
      (pos + i) % BLOCK_SIZE = pos % BLOCK_SIZE + i := by
  have hb : BLOCK_SIZE = 1024 := rfl
  rw [hb] at hi ⊢
  omega

theorem map_range_append {α : Type*} (f : Nat → α) (m n : Nat) :
    (List.range m).map f ++ (List.range n).map (fun i => f (m + i))
      = (List.range (m + n)).map f := by
  rw [List.range_add, List.map_append, List.map_map]
  rfl

theorem readLoop_spec (h : Holds d inode s byte size) (n : Nat) :
    ∀ {f_pos left : Nat}, left ≤ n → f_pos + left ≤ MAXPOS →
      readLoop inode s n f_pos left =
        .ok ((List.range left).map fun i => byte (f_pos + i)) := by
  induction n with
  | zero =>
      intro f_pos left hleft _
      obtain rfl := Nat.le_zero.mp hleft
      rfl
  | succ n ih =>
      intro f_pos left hleft hmax
      unfold readLoop
      by_cases hzero : left = 0
      · rw [if_pos hzero, hzero]
        rfl
      have hb : BLOCK_SIZE = 1024 := rfl
      have hmod := Nat.mod_lt f_pos (by decide : 0 < BLOCK_SIZE)
      rw [if_neg hzero, bmap_read inode s (block_lt (by omega))]
      dsimp only
      generalize hc : min (BLOCK_SIZE - f_pos % BLOCK_SIZE) left = chars
      have hbytes : ((List.range chars).map fun i =>
          if value inode s (slotOf (f_pos / BLOCK_SIZE)) = 0 then 0
          else s.b_data (value inode s (slotOf (f_pos / BLOCK_SIZE)))
            (f_pos % BLOCK_SIZE + i)) = (List.range chars).map fun i => byte (f_pos + i) := by
        refine List.map_congr_left fun i hi => ?_
        have hi := List.mem_range.mp hi
        have hi' : i < BLOCK_SIZE - f_pos % BLOCK_SIZE := by omega
        obtain ⟨hdiv, hmod'⟩ := same_block hi'
        rw [← h.bytes (f_pos + i) (by omega), fileByte, hdiv, hmod']
        rfl
      rw [ih (by omega) (by omega), hbytes]
      dsimp only [Except.map]
      have hassoc : (fun i => byte (f_pos + chars + i)) = fun i => byte (f_pos + (chars + i)) := by
        funext i
        rw [Nat.add_assoc]
      rw [hassoc, map_range_append fun i => byte (f_pos + i),
        show chars + (left - chars) = left by omega]

/-! ## Writing -/

/-- `create_block` does not change the bytes of the file. -/
theorem Holds.create (h : Holds d inode s byte size) {block r : Nat}
    (hc : CreateBlock d inode s block inode' s' r) : Holds d inode' s' byte size where
  tree := hc.tree
  i_size := hc.size.trans h.i_size
  le_max := h.le_max
  behind := h.behind
  bytes := fun p hp => by
    rw [← h.bytes p hp]
    have hlt := block_lt hp
    unfold fileByte
    by_cases hzero : blockNr inode s (p / BLOCK_SIZE) = 0
    · rw [if_pos hzero]
      by_cases heq : p / BLOCK_SIZE = block
      · rw [heq, hc.result]
        split
        · rfl
        · rename_i hr
          rw [hc.fresh (heq ▸ hzero) hr]
          rfl
      · rw [hc.others _ hlt heq, if_pos hzero]
    · rw [if_neg hzero, hc.data _ hlt hzero]
      by_cases heq : p / BLOCK_SIZE = block
      · obtain ⟨rfl, rfl⟩ := hc.kept (heq ▸ hzero)
        rw [if_neg hzero]
      · rw [hc.others _ hlt heq, if_neg hzero]

/-- One pass of the loop of `file_write`: the bytes go into one block, which is there. -/
theorem Holds.chunk (h : Holds d inode s byte size) (hpos : pos < MAXPOS)
    (hne : blockNr inode s (pos / BLOCK_SIZE) ≠ 0) {bytes : List UInt8} (hlen : 0 < bytes.length)
    (hfit : bytes.length ≤ BLOCK_SIZE - pos % BLOCK_SIZE) (hend : pos + bytes.length ≤ MAXPOS)
    {dirt : Bool}
    (hsize : inode'.i_size = max size (pos + bytes.length))
    (hinode : inode' = { inode with i_size := inode'.i_size, i_dirt := dirt }) :
    Holds d inode' (s.store (blockNr inode s (pos / BLOCK_SIZE))
        (storeBytes (fileBlock inode s (pos / BLOCK_SIZE)) (pos % BLOCK_SIZE) bytes))
      (overlay byte pos bytes) (max size (pos + bytes.length)) := by
  have hlt := block_lt hpos
  have htree := h.tree.store hlt hne
    (storeBytes (fileBlock inode s (pos / BLOCK_SIZE)) (pos % BLOCK_SIZE) bytes)
  rw [hinode] at hsize ⊢
  refine {
    tree := { htree with }
    i_size := hsize
    le_max := Nat.max_le.mpr ⟨h.le_max, hend⟩
    bytes := fun p hp => ?_
    behind := fun p hp => ?_ }
  · have hbyte := h.bytes p hp
    have hblock : ∀ data : Bytes,
        fileByte inode (s.store (blockNr inode s (pos / BLOCK_SIZE)) data) p =
        if blockNr inode s (p / BLOCK_SIZE) = 0 then 0
        else (if p / BLOCK_SIZE = pos / BLOCK_SIZE then data
          else fileBlock inode s (p / BLOCK_SIZE)) (p % BLOCK_SIZE) := by
      intro data
      unfold fileByte
      rw [h.tree.blockNr_store hlt hne data (block_lt hp),
        h.tree.fileBlock_store hlt hne data (block_lt hp)]
    refine (hblock _).trans ?_
    unfold fileByte at hbyte
    unfold overlay
    have hb : BLOCK_SIZE = 1024 := rfl
    by_cases hsame : p / BLOCK_SIZE = pos / BLOCK_SIZE
    · rw [if_neg (hsame ▸ hne)] at hbyte
      rw [if_neg (hsame ▸ hne), if_pos hsame, storeBytes, ← hsame, hbyte]
      have hle : pos % BLOCK_SIZE ≤ p % BLOCK_SIZE ↔ pos ≤ p := by
        rw [hb] at hsame ⊢
        omega
      by_cases hp' : pos ≤ p
      · rw [if_pos hp', if_pos (hle.mpr hp')]
        congr 1
        rw [hb] at hsame ⊢
        omega
      · rw [if_neg hp', if_neg fun hc => hp' (hle.mp hc)]
    · rw [if_neg hsame, hbyte]
      by_cases hp' : pos ≤ p
      · have hout : bytes.length ≤ p - pos := by
          rw [hb] at hsame hfit
          omega
        rw [if_pos hp', List.getD_eq_getElem?_getD, List.getElem?_eq_none hout]
        rfl
      · rw [if_neg hp']
  · have hout : bytes.length ≤ p - pos := by omega
    unfold overlay
    rw [if_pos (by omega), List.getD_eq_getElem?_getD, List.getElem?_eq_none hout]
    exact h.behind p (by omega)

/-- What the calls for one file leave alone. -/
def Leaves (inode : MInode) (s : Disk) (inode' : MInode) (s' : Disk) : Prop :=
  ∀ b, Foreign inode s b → Foreign inode' s' b ∧ s'.b_data b = s.b_data b

theorem Leaves.trans {inode₁ : MInode} {s₁ : Disk} (h : Leaves inode s inode₁ s₁)
    (h' : Leaves inode₁ s₁ inode' s') : Leaves inode s inode' s' := fun b hb => by
  obtain ⟨hb₁, hdata⟩ := h b hb
  obtain ⟨hb', hdata'⟩ := h' b hb₁
  exact ⟨hb', hdata'.trans hdata⟩

theorem Leaves.refl (inode : MInode) (s : Disk) : Leaves inode s inode s := fun _ hb => ⟨hb, rfl⟩

theorem leaves_store (h : Tree d inode s) {k : Nat} (hk : k < MAXBLOCK)
    (hne : blockNr inode s k ≠ 0) (data : Bytes) (i_size : Nat) (dirt : Bool) :
    Leaves inode s { inode with i_size := i_size, i_dirt := dirt }
      (s.store (blockNr inode s k) data) := by
  intro b hb
  have hbk : b ≠ blockNr inode s k := (hb.slots _ (slotOf_valid hk).1).symm
  refine ⟨⟨hb.inRange, hb.allocated, fun x hx => ?_⟩, Disk.store_data_ne _ _ hbk⟩
  exact ne_of_eq_of_ne (h.value_store hk hne data hx) (hb.slots x hx)

/-- The loop of `file_write`: a prefix of the bytes is stored, all of them unless the disk
is full. -/
theorem writeLoop_spec (n : Nat) :
    ∀ {inode : MInode} {s : Disk} {byte : Nat → UInt8} {size pos : Nat} {buf : List UInt8}
      {i : Nat},
      Holds d inode s byte size → buf.length ≤ n → pos + buf.length ≤ MAXPOS →
      ∃ inode' s' k, writeLoop n inode s pos buf i = .ok (inode', s', i + k) ∧ k ≤ buf.length ∧
        Holds d inode' s' (overlay byte pos (buf.take k))
          (if k = 0 then size else max size (pos + k)) ∧
        Leaves inode s inode' s' := by
  induction n with
  | zero =>
      intro inode s byte size pos buf i h hn _
      refine ⟨inode, s, 0, rfl, Nat.zero_le _, ?_, Leaves.refl inode s⟩
      rw [List.take_zero, overlay_nil]
      exact h
  | succ n ih =>
      intro inode s byte size pos buf i h hn hmax
      have hstop : ∀ {inode' : MInode} {s' : Disk}, Holds d inode' s' byte size →
          Holds d inode' s' (overlay byte pos (buf.take 0))
            (if 0 = 0 then size else max size (pos + 0)) := by
        intro inode' s' h'
        rw [List.take_zero, overlay_nil]
        exact h'
      unfold writeLoop
      by_cases hzero : buf.length = 0
      · rw [if_pos hzero]
        exact ⟨inode, s, 0, rfl, Nat.zero_le _, hstop h, Leaves.refl inode s⟩
      have hb : BLOCK_SIZE = 1024 := rfl
      have hmod := Nat.mod_lt pos (by decide : 0 < BLOCK_SIZE)
      have hpos : pos < MAXPOS := by omega
      obtain ⟨inode₁, s₁, r, hbmap, hc⟩ := createBlock_spec h.tree (block_lt hpos)
      have h₁ := h.create hc
      have hleaves : Leaves inode s inode₁ s₁ := hc.foreign
      rw [if_neg hzero, hbmap]
      dsimp only
      by_cases hr : r = 0
      · rw [if_pos hr]
        exact ⟨inode₁, s₁, 0, rfl, Nat.zero_le _, hstop h₁, hleaves⟩
      -- one block, then the rest
      have hne : blockNr inode₁ s₁ (pos / BLOCK_SIZE) ≠ 0 := by rwa [hc.result]
      rw [if_neg hr, ← hc.result]
      generalize hcdef : min (BLOCK_SIZE - pos % BLOCK_SIZE) buf.length = c
      have hlen : (buf.take c).length = c := by
        rw [List.length_take]
        omega
      generalize hinode : (if pos + c > inode₁.i_size then
        { inode₁ with i_size := pos + c, i_dirt := true } else inode₁) = inode₂
      have hsize : inode₂.i_size = max size (pos + (buf.take c).length) ∧
          inode₂ = { inode₁ with i_size := inode₂.i_size, i_dirt := inode₂.i_dirt } := by
        rw [hlen, ← hinode]
        have hold := h₁.i_size
        split
        · exact ⟨by dsimp only; omega, rfl⟩
        · exact ⟨by omega, rfl⟩
      have h₂ := h₁.chunk hpos hne (by omega) (by omega) (by omega) hsize.1 hsize.2
      rw [fileBlock] at h₂
      have hleaves₂ := leaves_store h₁.tree (block_lt hpos) hne
        (storeBytes (s₁.b_data (blockNr inode₁ s₁ (pos / BLOCK_SIZE))) (pos % BLOCK_SIZE)
          (buf.take c)) inode₂.i_size inode₂.i_dirt
      rw [← hsize.2] at hleaves₂
      have hshort : (buf.drop c).length ≤ n := by
        rw [List.length_drop]
        omega
      have hmax' : pos + c + (buf.drop c).length ≤ MAXPOS := by
        rw [List.length_drop]
        omega
      obtain ⟨inode', s', k, hloop, hk, h', hleaves'⟩ := ih (i := i + c) h₂ hshort hmax'
      rw [List.length_drop] at hk
      refine ⟨inode', s', c + k, ?_, by omega, ?_, (hleaves.trans hleaves₂).trans hleaves'⟩
      · rw [hloop, Nat.add_assoc]
      · rw [List.take_add, ← overlay_append, hlen, if_neg (by omega)]
        have hmaxeq : (if k = 0 then max size (pos + (buf.take c).length)
            else max (max size (pos + (buf.take c).length)) (pos + c + k)) =
              max size (pos + (c + k)) := by
          rw [hlen]
          split <;> omega
        rw [← hmaxeq]
        exact h'

/-! ## Sequences of calls -/

inductive Call where
  | write (append : Bool) (buf : List UInt8)
  /-- `f_pos` is set -/
  | seek (f_pos : Nat)
  | read (count : Nat)

/-- What a call returns. -/
inductive Res where
  | wrote (ret : Int)
  | sought
  | got (buf : List UInt8)

def call (f : File) : Call → Except String (File × Res)
  | .write append buf => (fileWrite append f buf).map fun (f, ret) => (f, .wrote ret)
  | .seek f_pos => .ok ({ f with f_pos := f_pos }, .sought)
  | .read count => (sysRead f count).map fun (f, buf) => (f, .got buf)

def calls (f : File) : List Call → Except String (File × List Res)
  | [] => .ok (f, [])
  | c :: cs =>
      match call f c with
      | .error e => .error e
      | .ok (f, r) => (calls f cs).map fun (f, rs) => (f, r :: rs)

namespace Contents

/-- Where a write begins. -/
def start (c : Contents) (append : Bool) : Nat := if append then c.size else c.pos

/-- The calls on a plain sequence of bytes: a write that returns `n` has stored `n` bytes, one
that returns -1 none. -/
inductive Does (c : Contents) : Call → Res → Contents → Prop where
  | write (append : Bool) (buf : List UInt8) (n : Nat) (le : n ≤ buf.length) :
      Does c (.write append buf) (.wrote (if n = 0 then -1 else n))
        ⟨overlay c.byte (c.start append) (buf.take n),
          if n = 0 then c.size else max c.size (c.start append + n),
          if append then c.pos else c.start append + n⟩
  | seek (pos : Nat) : Does c (.seek pos) .sought { c with pos := pos }
  | read (count : Nat) :
      Does c (.read count)
        (.got ((List.range (min count (c.size - c.pos))).map fun i => c.byte (c.pos + i)))
        { c with pos := c.pos + min count (c.size - c.pos) }

inductive Trace : Contents → List Call → List Res → Contents → Prop where
  | nil (c : Contents) : Trace c [] [] c
  | cons {c c₁ c' : Contents} {a : Call} {r : Res} {as : List Call} {rs : List Res}
      (does : Does c a r c₁) (rest : Trace c₁ as rs c') : Trace c (a :: as) (r :: rs) c'

end Contents

/-- The call stays below the greatest position. -/
def Fits (f : File) : Call → Prop
  | .write append buf => (if append then f.inode.i_size else f.f_pos) + buf.length ≤ MAXPOS
  | .seek _ | .read _ => True

def Fitting (f : File) : List Call → Prop
  | [] => True
  | c :: cs => Fits f c ∧ ∀ f' r, call f c = .ok (f', r) → Fitting f' cs

/-- The file on the device is the one of the contents. -/
structure Is (d : DSuperBlock) (f : File) (c : Contents) : Prop where
  holds : Holds d f.inode f.disk c.byte c.size
  pos : f.f_pos = c.pos

variable {f : File} {c : Contents}

theorem read_does (h : Is d f c) (count : Nat) :
    ∃ f' r c', call f (.read count) = .ok (f', r) ∧ c.Does (.read count) r c' ∧ Is d f' c' ∧
      f'.inode = f.inode ∧ f'.disk = f.disk := by
  have hcount : (if count + f.f_pos > f.inode.i_size then f.inode.i_size - f.f_pos else count) =
      min count (c.size - c.pos) := by
    rw [h.holds.i_size, h.pos]
    split <;> omega
  refine ⟨{ f with f_pos := c.pos + min count (c.size - c.pos) }, _, _, ?_, .read count,
    ⟨h.holds, rfl⟩, rfl, rfl⟩
  dsimp only [call, sysRead]
  rw [hcount]
  split
  · rename_i hzero
    rw [hzero, Nat.add_zero, ← h.pos]
    rfl
  · have hmax := h.holds.le_max
    unfold fileRead
    rw [readLoop_spec h.holds _ (Nat.le_refl _) (by rw [h.pos]; omega)]
    dsimp only [Except.map]
    rw [List.length_map, List.length_range, h.pos]

theorem write_does (h : Is d f c) {append : Bool} {buf : List UInt8}
    (hfit : Fits f (.write append buf)) :
    ∃ f' r c', call f (.write append buf) = .ok (f', r) ∧ c.Does (.write append buf) r c' ∧
      Is d f' c' ∧ Leaves f.inode f.disk f'.inode f'.disk := by
  have hstart : (if append then f.inode.i_size else f.f_pos) = c.start append := by
    unfold Contents.start
    rw [h.holds.i_size, h.pos]
  dsimp only [Fits] at hfit
  rw [hstart] at hfit
  obtain ⟨inode', s', k, hloop, hk, h', hleaves⟩ :=
    writeLoop_spec (i := 0) buf.length h.holds (Nat.le_refl _) hfit
  rw [Nat.zero_add] at hloop
  refine ⟨⟨inode', s', if append then f.f_pos else c.start append + k⟩, _, _, ?_,
    .write append buf k hk, ⟨h', by rw [h.pos]⟩, hleaves⟩
  dsimp only [call, fileWrite]
  rw [hstart, hloop]
  rfl

theorem call_does (h : Is d f c) {a : Call} (hfit : Fits f a) :
    ∃ f' r c', call f a = .ok (f', r) ∧ c.Does a r c' ∧ Is d f' c' ∧
      Leaves f.inode f.disk f'.inode f'.disk := by
  cases a with
  | write append buf => exact write_does h hfit
  | seek pos =>
      exact ⟨_, _, _, rfl, .seek pos, ⟨h.holds, rfl⟩, Leaves.refl _ _⟩
  | read count =>
      obtain ⟨f', r, c', hcall, hdoes, his, hinode, hdisk⟩ := read_does h count
      refine ⟨f', r, c', hcall, hdoes, his, ?_⟩
      rw [hinode, hdisk]
      exact Leaves.refl _ _

theorem calls_trace (cs : List Call) : ∀ {f : File} {c : Contents}, Is d f c → Fitting f cs →
    ∃ f' rs c', calls f cs = .ok (f', rs) ∧ Contents.Trace c cs rs c' ∧ Is d f' c' ∧
      Leaves f.inode f.disk f'.inode f'.disk := by
  induction cs with
  | nil => exact fun {f c} h _ => ⟨f, [], c, rfl, .nil c, h, Leaves.refl _ _⟩
  | cons a cs ih =>
      intro f c h hfit
      obtain ⟨f₁, r, c₁, hcall, hdoes, h₁, hleaves⟩ := call_does h hfit.1
      obtain ⟨f', rs, c', hcalls, htrace, h', hleaves'⟩ := ih h₁ (hfit.2 f₁ r hcall)
      refine ⟨f', r :: rs, c', ?_, .cons hdoes htrace, h', hleaves.trans hleaves'⟩
      unfold calls
      rw [hcall]
      dsimp only
      rw [hcalls]
      rfl

/-! ## Other files -/

/-- None of the blocks of `other` is one of the file. -/
def Elsewhere (inode : MInode) (s : Disk) (other : MInode) : Prop :=
  ∀ x, x.Valid → value other s x ≠ 0 → Foreign inode s (value other s x)

theorem Leaves.value {other : MInode} (h : Leaves inode s inode' s')
    (hother : Elsewhere inode s other) {x : Bmap.Slot} (hx : x.Valid) :
    value other s' x = value other s x := by
  have hchild : ∀ y p, y.Valid → y.parent = some p → Bmap.value other s' p = Bmap.value other s p →
      Bmap.value other s' y = Bmap.value other s y := by
    intro y p hy hp hval
    rw [value_child _ _ hp, value_child _ _ hp, hval]
    by_cases hzero : Bmap.value other s p = 0
    · rw [hzero]
      rfl
    · exact below_congr (h _ (hother p (Bmap.Slot.parent_valid hy hp) hzero)).2 _
  cases x with
  | direct i => rfl
  | single k => exact hchild _ _ hx rfl rfl
  | double a => exact hchild _ _ hx rfl rfl
  | leaf a b => exact hchild _ _ hx rfl (hchild _ _ hx.1 rfl rfl)

theorem Leaves.fileByte {other : MInode} (h : Leaves inode s inode' s')
    (hother : Elsewhere inode s other) (hp : p < MAXPOS) :
    fileByte other s' p = fileByte other s p := by
  have hvalid := (slotOf_valid (block_lt hp)).1
  have hval : blockNr other s' (p / BLOCK_SIZE) = blockNr other s (p / BLOCK_SIZE) :=
    h.value hother hvalid
  unfold FileDev.fileByte fileBlock
  rw [hval]
  split
  · rfl
  · rename_i hne
    rw [blockNr, (h _ (hother _ hvalid hne)).2]

/-- For every sequence of writes, seeks and reads by one process below the greatest
position: the calls come to their end, every call returns what it returns on a plain
sequence of bytes, with a write stopping short only where the device is full, the file
is that sequence afterwards with its length as `i_size`, and no other file on the device
has changed. -/
theorem file_contents (h : Holds d f.inode f.disk byte size) {cs : List Call}
    (hfit : Fitting f cs) :
    ∃ f' rs c', calls f cs = .ok (f', rs) ∧ Contents.Trace ⟨byte, size, f.f_pos⟩ cs rs c' ∧
      (∀ p < MAXPOS, fileByte f'.inode f'.disk p = c'.byte p) ∧ f'.inode.i_size = c'.size ∧
      ∀ other, Elsewhere f.inode f.disk other → ∀ p < MAXPOS,
        fileByte other f'.disk p = fileByte other f.disk p := by
  obtain ⟨f', rs, c', hcalls, htrace, his, hleaves⟩ :=
    calls_trace (c := ⟨byte, size, f.f_pos⟩) cs ⟨h, rfl⟩ hfit
  exact ⟨f', rs, c', hcalls, htrace, his.holds.bytes, his.holds.i_size, fun other hother p hp =>
    hleaves.fileByte hother hp⟩

def emptyFile : File := ⟨⟨0, fun _ => 0, false⟩, emptyDisk, 0⟩

theorem emptyFile_value (x : Bmap.Slot) : value emptyFile.inode emptyFile.disk x = 0 := by
  cases x <;> rfl

theorem emptyFile_holds : Holds floppy emptyFile.inode emptyFile.disk (fun _ => 0) 0 where
  tree := {
    covers := oneZone_covers
    short := by decide
    inj := fun x _ _ _ _ hne => absurd (emptyFile_value x) hne
    used := fun x _ hne => absurd (emptyFile_value x) hne }
  i_size := rfl
  le_max := Nat.zero_le _
  bytes := fun p _ => if_pos (emptyFile_value _)
  behind := fun _ _ => rfl

theorem file_contents_floppy : ∃ f' c',
    calls emptyFile [.write false [7], .seek 0, .read 1] =
        .ok (f', [.wrote 1, .sought, .got [7]]) ∧
      Contents.Trace ⟨fun _ => 0, 0, 0⟩ [.write false [7], .seek 0, .read 1]
        [.wrote 1, .sought, .got [7]] c' ∧ fileByte f'.inode f'.disk 0 = c'.byte 0 := by
  have hfits : Fits emptyFile (.write false [7]) := by
    show 0 + 1 ≤ MAXPOS
    decide
  have hfitting : Fitting emptyFile [.write false [7], .seek 0, .read 1] :=
    ⟨hfits, fun _ _ _ => ⟨trivial, fun _ _ _ => ⟨trivial, fun _ _ _ => trivial⟩⟩⟩
  obtain ⟨f', rs, c', hcalls, htrace, hbytes, -⟩ := file_contents emptyFile_holds hfitting
  have hresults : (calls emptyFile [.write false [7], .seek 0, .read 1]).map Prod.snd =
      .ok [.wrote 1, .sought, .got [7]] := rfl
  rw [hcalls] at hresults
  obtain rfl : rs = _ := Except.ok.inj hresults
  exact ⟨f', c', hcalls, htrace, hbytes 0 (by decide)⟩

end FileDev

end Linux011
