import Linux011.FileDev
import Linux011.Runs
import Linux011.Volume

/-!
# Offsets in regular files

`sys_lseek`, `sys_read` and `sys_write` of `fs/read_write.c` on regular files, with `file_read` and
`file_write` of `fs/file_dev.c`, for any 32-bit offset and count, on devices some of whose blocks
cannot be read. A run ends where a call panics.

`_bmap` panics from block 262663 on. Nothing stops a position behind it: `lseek` takes any that
is not negative, and the loop of `file_write` goes where it is told (`offsets_safe`).

The theorem separates the panics of `_bmap` about its block from all other ways to stop. In the
runs of the condition, positions are numbers that `lseek` can give (`Positions`); a read or a
write that stays within the greatest file takes `_bmap` to blocks below 262663, since its loop
ends at its count. Each loop is followed with `Outcome.Ends`, which carries two things along,
that the position is still in range where the loop goes on, and that the error is one of the
others where it stops. All words of the source are taken modulo 2 ^ 32 where it does so, and
`long_of_range` and its like say that nothing wraps in range. The second part is the converse,
for one call: a write that begins behind the greatest position goes to `_bmap` with its first
block and panics.
-/

namespace Linux011

open Function Super SuperBlock Zones Bmap Runs FileDev

namespace Offsets

def EBADF : Int := 9
def EINVAL : Int := 22
def ERROR : Int := 99
def NR_OPEN : Nat := 20

structure File where
  f_pos : Int
  /-- `f_flags & O_APPEND` -/
  append : Bool
  f_inode : Nat

/-- The open files of a process, all of them regular, with their inodes and devices. -/
structure State where
  filp : Nat → Option Nat
  file_table : Nat → File
  inode : Nat → MInode
  i_dev : Nat → Nat
  vol : Nat → Vol

def long (x : Int) : Int := (x + 0x80000000) % 0x100000000 - 0x80000000

def ulong (x : Int) : Int := x % 0x100000000

/-- `current->filp[fd]` -/
def openFile (s : State) (fd : Nat) : Option Nat := if fd < NR_OPEN then s.filp fd else none

def State.setFile (s : State) (n : Nat) (f_pos : Int) : State :=
  { s with file_table := update s.file_table n { s.file_table n with f_pos := f_pos } }

def sysLseek (s : State) (fd : Nat) (offset : Int) (origin : Nat) : State × Int :=
  match openFile s fd with
  | none => (s, -EBADF)
  | some n =>
      let file := s.file_table n
      match origin with
      | 0 => if offset < 0 then (s, -EINVAL) else (s.setFile n offset, offset)
      | 1 =>
          let f_pos := long (file.f_pos + offset)
          if f_pos < 0 then (s, -EINVAL) else (s.setFile n f_pos, f_pos)
      | 2 =>
          let tmp := long ((s.inode file.f_inode).i_size + offset)
          if tmp < 0 then (s, -EINVAL) else (s.setFile n tmp, tmp)
      | _ => (s, -EINVAL)

/-- `_bmap`, whose block is an `int`. -/
def bmap (create : Bool) (inode : MInode) (v : Vol) (block : Int) :
    Except String (MInode × Vol × Nat) :=
  if block < 0 then .error "_bmap: block<0" else Vol.bmap create inode v block.toNat

/-- The loop of `file_read`: the position and the bytes that are put into `buf`. -/
def readLoop (inode : MInode) (v : Vol) : Nat → Int → Int → Except String (Int × List UInt8)
  | 0, f_pos, _ => .ok (f_pos, [])
  | n + 1, f_pos, left =>
      if left = 0 then .ok (f_pos, [])
      else
        match bmap false inode v (f_pos.tdiv FileDev.BLOCK_SIZE) with
        | .error e => .error e
        | .ok (_, _, block) =>
            if block ≠ 0 ∧ v.bad block then .ok (f_pos, [])
            else
              let nr := f_pos.tmod FileDev.BLOCK_SIZE
              let chars := min (FileDev.BLOCK_SIZE - nr) left
              let bytes := (List.range chars.toNat).map fun i =>
                if block = 0 then 0 else v.b_data block (nr.toNat + i)
              (readLoop inode v n (long (f_pos + chars)) (left - chars)).map fun (f_pos, buf) =>
                (f_pos, bytes ++ buf)

/-- `sys_read` of a regular file, with `file_read`. -/
def sysRead (s : State) (fd : Nat) (count : Int) : Except String (State × Int × List UInt8) :=
  if count < 0 then .ok (s, -EINVAL, [])
  else match openFile s fd with
    | none => .ok (s, -EINVAL, [])
    | some n =>
        if count = 0 then .ok (s, 0, [])
        else
          let file := s.file_table n
          let inode := s.inode file.f_inode
          let count :=
            if ulong (count + file.f_pos) > inode.i_size then long (inode.i_size - file.f_pos)
            else count
          if count ≤ 0 then .ok (s, 0, [])
          else
            (readLoop inode (s.vol (s.i_dev file.f_inode)) count.toNat file.f_pos count).map
              fun (f_pos, buf) =>
                (s.setFile n f_pos, if buf.length = 0 then -ERROR else buf.length, buf)

/-- The loop of `file_write`. From a position between two blocks below 0 it would write in front of
the buffer, which is none of the panics. -/
def writeLoop (buf : Nat → UInt8) (count : Int) :
    Nat → MInode → Vol → Int → Int → Except String (MInode × Vol × Int × Int)
  | 0, inode, v, pos, i => .ok (inode, v, pos, i)
  | n + 1, inode, v, pos, i =>
      if i < count then
        match bmap true inode v (pos.tdiv FileDev.BLOCK_SIZE) with
        | .error e => .error e
        | .ok (inode, v, block) =>
            if block = 0 ∨ v.bad block then .ok (inode, v, pos, i)
            else
              let nr := pos.tmod FileDev.BLOCK_SIZE
              if nr < 0 then .error "b_data"
              else
                let c := min (FileDev.BLOCK_SIZE - nr) (count - i)
                let pos := long (pos + c)
                let inode :=
                  if ulong pos > inode.i_size then
                    { inode with i_size := (ulong pos).toNat, i_dirt := true }
                  else inode
                let bytes := (List.range c.toNat).map fun k => buf (i.toNat + k)
                let v := v.store block (storeBytes (v.b_data block) nr.toNat bytes)
                writeLoop buf count n inode v pos (i + c)
      else .ok (inode, v, pos, i)

/-- `sys_write` of a regular file, with `file_write`. -/
def sysWrite (s : State) (fd : Nat) (count : Int) (buf : Nat → UInt8) :
    Except String (State × Int) :=
  if count < 0 then .ok (s, -EINVAL)
  else match openFile s fd with
    | none => .ok (s, -EINVAL)
    | some n =>
        if count = 0 then .ok (s, 0)
        else
          let file := s.file_table n
          let inode := s.inode file.f_inode
          let dev := s.i_dev file.f_inode
          let pos := if file.append then long inode.i_size else file.f_pos
          (writeLoop buf count count.toNat inode (s.vol dev) pos 0).map fun (inode, v, pos, i) =>
            let s := { s with
              inode := update s.inode file.f_inode inode
              vol := update s.vol dev v }
            (if file.append then s else s.setFile n pos, if i = 0 then -1 else i)

/-! ## Runs -/

inductive Act where
  | lseek (fd : Nat) (offset : Int32) (origin : Nat)
  | read (fd : Nat) (count : Int32)
  | write (fd : Nat) (count : Int32) (buf : Nat → UInt8)
  /-- whatever other processes do with the inodes and the devices -/
  | others (inode : Nat → MInode) (vol : Nat → Vol)

def call (s : State) : Act → Except String State
  | .lseek fd offset origin => .ok (sysLseek s fd offset.toInt origin).1
  | .read fd count => (sysRead s fd count.toInt).map Prod.fst
  | .write fd count buf => (sysWrite s fd count.toInt buf).map Prod.fst
  | .others inode vol => .ok { s with inode := inode, vol := vol }

/-- One call; `none` when it ends in `panic`. -/
def step (s : State) (a : Act) : Option State := (call s a).toOption

/-- A write does not go past the last block that a file can have, nor does a read, unless the file
ends before. -/
def Within (s : State) : Act → Prop
  | .lseek .. | .others .. => True
  | .read fd count => ∀ n ∈ openFile s fd,
      let file := s.file_table n
      file.f_pos + count.toInt ≤ MAXPOS ∨ (s.inode file.f_inode).i_size ≤ MAXPOS
  | .write fd count _ => ∀ n ∈ openFile s fd,
      let file := s.file_table n
      let pos : Int := if file.append then (s.inode file.f_inode).i_size else file.f_pos
      pos + count.toInt ≤ MAXPOS

instance (s : State) (a : Act) : Decidable (Within s a) := by
  cases a with
  | lseek | others => exact .isTrue trivial
  | read fd count =>
      exact inferInstanceAs (Decidable (∀ n ∈ openFile s fd,
        (s.file_table n).f_pos + count.toInt ≤ MAXPOS ∨
          (s.inode (s.file_table n).f_inode).i_size ≤ MAXPOS))
  | write fd count buf =>
      exact inferInstanceAs (Decidable (∀ n ∈ openFile s fd,
        (if (s.file_table n).append then ((s.inode (s.file_table n).f_inode).i_size : Int)
          else (s.file_table n).f_pos) + count.toInt ≤ MAXPOS))

/-- The error is not a panic of `_bmap` about its block. -/
def Other (e : String) : Prop := e ≠ "_bmap: block<0" ∧ e ≠ "_bmap: block>big"

instance (e : String) : Decidable (Other e) := inferInstanceAs (Decidable (_ ∧ _))

variable {s s' : State} {inode inode' : MInode} {v v' : Vol} {e : String}

/-! ## The panics of `_bmap` -/

theorem newBlock_error (h : v.newBlock = .error e) : Other e := by
  unfold Vol.newBlock at h
  split at h
  · rename_i e' hnew
    obtain rfl := Except.error.inj h
    unfold Disk.newBlock at hnew
    split at hnew
    · rename_i e' htake
      obtain rfl := Except.error.inj hnew
      unfold takeZone at htake
      dsimp only at htake
      split at htake
      · cases htake
      · split at htake
        · cases htake
        · split at htake
          · obtain rfl := Except.error.inj htake
            decide
          · split at htake <;> cases htake
    · cases hnew
    · cases hnew
  · split at h
    · cases h
    · split at h
      · obtain rfl := Except.error.inj h
        decide
      · cases h

theorem brelse_error {b : Nat} (h : v.brelse b = .error e) : Other e := by
  unfold Vol.brelse at h
  split at h
  · obtain rfl := Except.error.inj h
    decide
  · cases h

theorem zone_error {create : Bool} {i : Nat} (h : Vol.zone create inode v i = .error e) :
    Other e := by
  unfold Vol.zone at h
  split at h
  · split at h
    · rename_i hnew
      obtain rfl := Except.error.inj h
      exact newBlock_error hnew
    · split at h <;> cases h
  · cases h

theorem entry_error {create : Bool} {b k : Nat} (h : Vol.entry create v b k = .error e) :
    Other e := by
  unfold Vol.entry at h
  split at h
  · cases h
  · dsimp only at h
    split at h
    · split at h
      · rename_i hnew
        obtain rfl := Except.error.inj h
        exact newBlock_error hnew
      · exact brelse_error (Loops.map_eq_error h)
    · exact brelse_error (Loops.map_eq_error h)

theorem bmap_error {create : Bool} {block : Int} (h0 : 0 ≤ block) (hlt : block < MAXBLOCK)
    (h : bmap create inode v block = .error e) : Other e := by
  rw [bmap, if_neg (Int.not_lt.mpr h0)] at h
  have hlt : block.toNat < 7 + 512 + 512 * 512 := by
    rw [MAXBLOCK] at hlt
    omega
  unfold Vol.bmap at h
  rw [if_neg (Nat.not_le_of_lt hlt)] at h
  split at h
  · exact zone_error h
  dsimp only at h
  split at h
  · split at h
    · rename_i hzone
      obtain rfl := Except.error.inj h
      exact zone_error hzone
    · split at h
      · cases h
      · exact entry_error (Loops.map_eq_error h)
  · split at h
    · rename_i hzone
      obtain rfl := Except.error.inj h
      exact zone_error hzone
    · split at h
      · cases h
      · split at h
        · rename_i hfirst
          obtain rfl := Except.error.inj h
          exact entry_error hfirst
        · split at h
          · cases h
          · exact entry_error (Loops.map_eq_error h)

theorem long_of_range {x : Int} (h0 : -0x80000000 ≤ x) (hlt : x < 0x80000000) : long x = x := by
  unfold long
  omega

theorem ulong_of_range {x : Int} (h0 : 0 ≤ x) (hlt : x < 0x100000000) : ulong x = x := by
  unfold ulong
  omega

theorem maxpos_eq : (MAXPOS : Int) = 268966912 := rfl

theorem block_range {pos : Int} (h0 : 0 ≤ pos) (hlt : pos < MAXPOS) :
    0 ≤ pos.tdiv FileDev.BLOCK_SIZE ∧ pos.tdiv FileDev.BLOCK_SIZE < MAXBLOCK := by
  have hb : (FileDev.BLOCK_SIZE : Int) = 1024 := rfl
  have hm : (MAXBLOCK : Int) = 262663 := rfl
  rw [maxpos_eq] at hlt
  rw [hb, hm, Int.tdiv_eq_ediv_of_nonneg h0]
  omega

/-- A loop comes to its end at a position that a file can have, or stops for another reason. -/
def Stays : Except String Int → Prop
  | .error e => Other e
  | .ok pos => 0 ≤ pos ∧ pos ≤ MAXPOS

theorem readLoop_stays (inode : MInode) (v : Vol) (n : Nat) : ∀ {f_pos left : Int}, 0 ≤ f_pos →
    0 ≤ left → f_pos + left ≤ MAXPOS → Stays ((readLoop inode v n f_pos left).map Prod.fst) := by
  have hb : (FileDev.BLOCK_SIZE : Int) = 1024 := rfl
  induction n with
  | zero =>
      intro f_pos left h0 hleft hmax
      exact ⟨h0, by omega⟩
  | succ n ih =>
      intro f_pos left h0 hleft hmax
      unfold readLoop
      split
      · exact ⟨h0, by omega⟩
      · rename_i hne
        obtain ⟨hlow, hhigh⟩ := block_range h0 (by omega)
        split
        · rename_i hbmap
          exact bmap_error hlow hhigh hbmap
        · split
          · exact ⟨h0, by omega⟩
          · dsimp only
            rw [maxpos_eq] at hmax
            rw [hb, Int.tmod_eq_emod_of_nonneg h0, long_of_range (by omega) (by omega)]
            have hrest : Stays ((readLoop inode v n (f_pos + min (1024 - f_pos % 1024) left)
                (left - min (1024 - f_pos % 1024) left)).map Prod.fst) :=
              ih (by omega) (by omega) (by rw [maxpos_eq]; omega)
            cases hloop : readLoop inode v n (f_pos + min (1024 - f_pos % 1024) left)
                (left - min (1024 - f_pos % 1024) left) with
            | error e =>
                rw [hloop] at hrest
                exact hrest
            | ok r =>
                rw [hloop] at hrest
                exact hrest

theorem writeLoop_stays (buf : Nat → UInt8) (count : Int) (n : Nat) :
    ∀ {inode : MInode} {v : Vol} {pos i : Int}, 0 ≤ pos → i ≤ count →
      pos + (count - i) ≤ MAXPOS →
      Stays ((writeLoop buf count n inode v pos i).map fun r => r.2.2.1) := by
  have hb : (FileDev.BLOCK_SIZE : Int) = 1024 := rfl
  have hstop : ∀ {pos i : Int}, 0 ≤ pos → i ≤ count → pos + (count - i) ≤ MAXPOS →
      0 ≤ pos ∧ pos ≤ MAXPOS := fun h0 hi hmax => ⟨h0, by omega⟩
  induction n with
  | zero =>
      intro inode v pos i h0 hi hmax
      exact hstop h0 hi hmax
  | succ n ih =>
      intro inode v pos i h0 hi hmax
      unfold writeLoop
      split
      · rename_i hlt
        obtain ⟨hlow, hhigh⟩ := block_range h0 (by omega)
        split
        · rename_i hbmap
          exact bmap_error hlow hhigh hbmap
        · split
          · exact hstop h0 hi hmax
          · dsimp only
            split
            · exact (by decide : Other "b_data")
            · rw [maxpos_eq] at hmax
              rw [hb, Int.tmod_eq_emod_of_nonneg h0, long_of_range (by omega) (by omega)]
              refine ih ?_ ?_ ?_
              · omega
              · omega
              · rw [maxpos_eq]
                omega
      · exact hstop h0 hi hmax

/-! ## Runs within a file -/

/-- The position of an open file is one that `lseek` can give. -/
def Positions (s : State) : Prop :=
  ∀ n, 0 ≤ (s.file_table n).f_pos ∧ (s.file_table n).f_pos < 0x80000000

theorem Positions.setFile (h : Positions s) {n : Nat} {pos : Int} (h0 : 0 ≤ pos)
    (hlt : pos < 0x80000000) : Positions (s.setFile n pos) := by
  intro m
  unfold State.setFile
  dsimp only
  rcases eq_or_ne m n with rfl | hne
  · rw [update_self]
    exact ⟨h0, hlt⟩
  · rw [update_of_ne hne]
    exact h m

theorem long_lt (x : Int) : long x < 0x80000000 := by
  unfold long
  omega

theorem Positions.sysLseek (h : Positions s) (fd : Nat) (offset : Int32) (origin : Nat) :
    Positions (sysLseek s fd offset.toInt origin).1 := by
  have hoff := offset.toInt_lt
  unfold Offsets.sysLseek
  split
  · exact h
  · dsimp only
    split
    · split
      · exact h
      · rename_i hneg
        exact h.setFile (Int.not_lt.mp hneg) hoff
    · split
      · exact h
      · rename_i hneg
        exact h.setFile (Int.not_lt.mp hneg) (long_lt _)
    · split
      · exact h
      · rename_i hneg
        exact h.setFile (Int.not_lt.mp hneg) (long_lt _)
    · exact h

/-- What a call within a file comes to. -/
def Fine : Except String State → Prop
  | .error e => Other e
  | .ok s => Positions s

theorem Positions.sysRead (h : Positions s) {fd : Nat} {count : Int32}
    (hwithin : Within s (.read fd count)) :
    Fine ((sysRead s fd count.toInt).map Prod.fst) := by
  have hcount := count.toInt_lt
  unfold Offsets.sysRead
  split
  · exact h
  split
  · exact h
  rename_i hneg n hfile
  obtain hmax := hwithin n hfile
  obtain ⟨h0, hlt⟩ := h n
  dsimp only at hmax ⊢
  split
  · exact h
  rw [ulong_of_range (by omega) (by omega)]
  generalize hleft : (if count.toInt + (s.file_table n).f_pos
    > ((s.inode (s.file_table n).f_inode).i_size : Int) then
      long ((s.inode (s.file_table n).f_inode).i_size - (s.file_table n).f_pos)
    else count.toInt) = left
  split
  · exact h
  rename_i hpos
  have hend : (s.file_table n).f_pos + left ≤ MAXPOS := by
    rw [← hleft] at hpos ⊢
    split at hpos
    · rename_i hover
      rw [if_pos hover, long_of_range (by omega) (by omega)]
      omega
    · rename_i hin
      rw [if_neg hin]
      omega
  have hstays := readLoop_stays (s.inode (s.file_table n).f_inode)
    (s.vol (s.i_dev (s.file_table n).f_inode)) left.toNat h0 (by omega) hend
  generalize readLoop _ _ left.toNat _ left = r at hstays
  cases r with
  | error e => exact hstays
  | ok r =>
      obtain ⟨hlow, hhigh⟩ : 0 ≤ r.1 ∧ r.1 ≤ MAXPOS := hstays
      rw [maxpos_eq] at hhigh
      exact h.setFile hlow (by omega)

theorem Positions.sysWrite (h : Positions s) {fd : Nat} {count : Int32} {buf : Nat → UInt8}
    (hwithin : Within s (.write fd count buf)) :
    Fine ((sysWrite s fd count.toInt buf).map Prod.fst) := by
  unfold Offsets.sysWrite
  split
  · exact h
  split
  · exact h
  rename_i hneg n hfile
  obtain hmax := hwithin n hfile
  obtain ⟨h0, hlt⟩ := h n
  dsimp only at hmax ⊢
  split
  · exact h
  have hpos : (if (s.file_table n).append then long (s.inode (s.file_table n).f_inode).i_size
      else (s.file_table n).f_pos) = if (s.file_table n).append then
        ((s.inode (s.file_table n).f_inode).i_size : Int) else (s.file_table n).f_pos := by
    split
    · rename_i happ
      rw [if_pos happ, maxpos_eq] at hmax
      exact long_of_range (by omega) (by omega)
    · rfl
  rw [hpos]
  generalize hstart : (if (s.file_table n).append then
    ((s.inode (s.file_table n).f_inode).i_size : Int) else (s.file_table n).f_pos) = pos at hmax
  have hlow : 0 ≤ pos := by
    rw [← hstart]
    split
    · omega
    · exact h0
  have hstays : Stays ((writeLoop buf count.toInt count.toInt.toNat
      (s.inode (s.file_table n).f_inode) (s.vol (s.i_dev (s.file_table n).f_inode)) pos 0).map
        fun r => r.2.2.1) := writeLoop_stays buf count.toInt count.toInt.toNat hlow (by omega)
    (by omega)
  generalize writeLoop _ _ _ _ _ _ _ = r at hstays
  cases r with
  | error e => exact hstays
  | ok r =>
      obtain ⟨inode', v', p, i⟩ := r
      obtain ⟨hlow', hhigh'⟩ : 0 ≤ p ∧ p ≤ MAXPOS := hstays
      rw [maxpos_eq] at hhigh'
      show Positions (if _ then _ else _)
      split
      · exact h
      · exact Positions.setFile (s := { s with inode := _, vol := _ }) h hlow' (by omega)

theorem Positions.call {a : Act} (h : Positions s) (hwithin : Within s a) : Fine (call s a) := by
  cases a with
  | lseek fd offset origin => exact h.sysLseek fd offset origin
  | read fd count => exact h.sysRead hwithin
  | write fd count buf => exact h.sysWrite hwithin
  | others inode vol => exact h

/-- In a run whose reads and writes stay within what a file can have no call comes to a
panic of `_bmap` about its block, whatever 32-bit offsets and counts are passed and
whatever blocks cannot be read. A write of at least one byte from a position behind it
does, on any open file that is not opened for appending. -/
theorem offsets_safe {s₀ : State} (h₀ : Positions s₀) (h : Reach step Within s₀ s) :
    (∀ a, Within s a → ∀ e, call s a = .error e → Other e) ∧
      ∀ fd count buf, ∀ n ∈ openFile s fd, 0 < Int32.toInt count →
        (s.file_table n).append = false → MAXPOS ≤ (s.file_table n).f_pos →
        call s (.write fd count buf) = .error "_bmap: block>big" := by
  have hpositions : Positions s := h.invariant h₀ fun s a s' hs hwithin hstep => by
    have hfine := hs.call hwithin
    unfold step at hstep
    generalize call s a = r at hfine hstep
    cases r with
    | error e => cases hstep
    | ok s₁ =>
        obtain rfl := Option.some.inj hstep
        exact hfine
  constructor
  · intro a hwithin e herr
    have hfine := hpositions.call hwithin
    rw [herr] at hfine
    exact hfine
  · intro fd count buf n hfile hcount happ hbehind
    have hb : (FileDev.BLOCK_SIZE : Int) = 1024 := rfl
    have hlt := (hpositions n).2
    rw [maxpos_eq] at hbehind
    obtain ⟨m, hm⟩ : ∃ m, count.toInt.toNat = m + 1 := ⟨count.toInt.toNat - 1, by omega⟩
    have hfd : openFile s fd = some n := hfile
    show (sysWrite s fd count.toInt buf).map Prod.fst = _
    unfold sysWrite
    rw [if_neg (by omega), hfd]
    dsimp only
    rw [if_neg (by omega), if_neg (by rw [happ]; exact Bool.false_ne_true), hm]
    unfold writeLoop
    rw [if_pos hcount, hb, Int.tdiv_eq_ediv_of_nonneg (by omega)]
    have hbig : bmap true (s.inode (s.file_table n).f_inode)
        (s.vol (s.i_dev (s.file_table n).f_inode)) ((s.file_table n).f_pos / 1024)
        = .error "_bmap: block>big" := by
      rw [bmap, if_neg (by omega)]
      refine Vol.bmap_big _ _ _ fun hlt' => ?_
      have hmax : MAXBLOCK = 262663 := rfl
      omega
    rw [hbig]
    rfl

section Empty

/-- An empty file is open, on a device without a free zone. -/
def empty : State where
  filp := fun fd => if fd = 0 then some 0 else none
  file_table := fun _ => ⟨0, false, 0⟩
  inode := fun _ => ⟨0, fun _ => 0, false⟩
  i_dev := fun _ => 0
  vol := fun _ =>
    { sb := { toDSuperBlock := floppy, s_imap := fun _ => none, s_zmap := fun _ => none }
      b_data := fun _ => zeroes
      bad := fun _ => false
      b_count := fun _ => 0 }

theorem offsets_safe_empty : ∃ s, exec (checked step Within) empty
    [.lseek 0 5000 0, .write 0 3 fun _ => 65, .lseek 0 (-10) 1] = some s ∧
      (s.file_table 0).f_pos = 4990 ∧
      ∀ e, call s (.write 0 20 fun _ => 66) = .error e → Other e := by
  obtain ⟨s, hs, hpos, hwithin⟩ : ∃ s, exec (checked step Within) empty
      [.lseek 0 5000 0, .write 0 3 fun _ => 65, .lseek 0 (-10) 1] = some s ∧
      (s.file_table 0).f_pos = 4990 ∧ Within s (.write 0 20 fun _ => 66) :=
    exec_any (by decide +kernel)
  have h₀ : Positions empty := fun _ => ⟨Int.le_refl 0, (by decide : (0 : Int) < 0x80000000)⟩
  exact ⟨s, hs, hpos, (offsets_safe h₀ (exec_checked hs)).1 _ hwithin⟩

/-- A byte is written at the largest offset. -/
theorem not_offsets_safe : ∃ s, exec step empty [.lseek 0 0x7fffffff 0] = some s ∧
    (call s (.write 0 1 fun _ => 65)).map (fun _ => ()) = .error "_bmap: block>big" :=
  exec_any (by decide +kernel)

end Empty

end Offsets

end Linux011
