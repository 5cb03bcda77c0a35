import Linux011.PsInfo
import Linux011.SuperBlock
import Linux011.UserAccess

/-!
# Reading `/proc/hdinfo`

`pro_hd` of `fs/proc.c`. Its count of the used zones is compared with the bits of the zone map
and with the count of `mount_root` (`hdinfo_counts`). Under `proc_read`, with any number of open
files and of tasks that read them, the copying is to stay in the three lines that were formatted
(`hdinfo_in_text`); the number of bytes that are left is a static variable of all calls.

The first half is arithmetic over the bytes of the maps. The source shifts a byte by the number
of the bit and does not mask the rest away, so that it counts a zone as used whenever any bit
from its own on is set; over one byte this gives the position of the highest set bit, which is
the number of set bits just if these are the lowest ones. `sum_eq_iff_of_le` carries this from
the bytes to the map: each byte counts at least its set bits, so that the sums agree only where
every byte does.

The second half is about the static variable `p`, and its invariant is a turn (`Turns`): at most
one open file has a part of the text, and `p` is what is left for it. As long as no read begins
while another one copies, a read at position 0 finds `p` to be 0 and formats the text anew, and
one that goes on finds the rest of its own text; where another file comes in between, it is given
the rest of the first one, and then what lies behind it on the stack.
-/

namespace Linux011

open Function Bitmap Runs Super

namespace HdInfo

open PsInfo (chars number sprint)

/-! ## Counting zones -/

def BLOCK_SIZE : Nat := 1024

/-- `bh->b_data[k]`. -/
def char (bh : MapBuffer) (k : Nat) : Byte := byteOf (bh.b_data (k / 4)) (k % 4)

/-- `bh->b_data[j>>3]>>(j%8)`: the `char` has a sign and is shifted as an `int`. -/
def shifted (c : Byte) (n : Nat) : BitVec 32 := (c.signExtend 32).sshiftRight n

/-- The inner loop over one block of the map. -/
def usedInBlock (bh : MapBuffer) : Nat :=
  (List.range (BLOCK_SIZE * 8)).countP fun j => shifted (char bh (j / 8)) (j % 8) ≠ 0

/-- `used_block` of `pro_hd`, and `none` where a map is not loaded. -/
def usedBlock (sb : SuperBlock) : Option Nat :=
  (List.range sb.s_zmap_blocks).foldlM (fun used_block i =>
    (sb.s_zmap i).map fun bh => used_block + usedInBlock bh) 0

/-- The numbers that `pro_hd` prints. -/
structure Figures where
  total_blocks : Int
  used_block : Int
  free_blocks : Int

def figures (sb : SuperBlock) : Option Figures :=
  (usedBlock sb).map fun used_block => ⟨sb.s_nzones, used_block, sb.s_nzones - used_block⟩

/-- The loop of `mount_root` over the zones below `i`. -/
def mountRootFree (s_zmap : Nat → Option MapBuffer) : Nat → Nat → Option Nat
  | 0, free => some free
  | i + 1, free =>
      match s_zmap (i / 8192) with
      | none => none
      | some bh => mountRootFree s_zmap i (if bit bh.b_data (i % 8192) then free else free + 1)

/-- The set bits of the loaded maps. -/
def setBits (sb : SuperBlock) : Nat :=
  (List.range (sb.s_zmap_blocks * 8192)).countP (used sb.s_zmap)

/-- In every byte of the maps the set bits are the lowest ones. -/
def LowestSet (sb : SuperBlock) : Prop :=
  ∀ g < sb.s_zmap_blocks * 8192, g % 8 ≠ 0 → used sb.s_zmap g = true →
    used sb.s_zmap (g - 1) = true

/-- The printed numbers are those of the set bits and of `mount_root`. -/
def Counts (sb : SuperBlock) : Prop :=
  ∃ f, figures sb = some f ∧ f.used_block = setBits sb ∧
    ∀ free, mountRootFree sb.s_zmap sb.s_nzones 0 = some free → f.free_blocks = free

theorem countP_range_mul (p : Nat → Bool) (n w : Nat) : (List.range (n * w)).countP p
    = ((List.range n).map fun k => (List.range w).countP fun i => p (k * w + i)).sum := by
  induction n with
  | zero => rw [Nat.zero_mul]; rfl
  | succ n ih =>
      have hcomp : (p ∘ fun x => n * w + x) = fun i => p (n * w + i) := rfl
      rw [Nat.succ_mul, List.range_add, List.countP_append, ih, List.countP_map, hcomp,
        List.range_succ, List.map_append, List.sum_append]
      simp

/-- Sums whose terms are ordered are equal when the terms are. -/
theorem sum_eq_iff_of_le {α : Type*} {f g : α → Nat} {l : List α} (h : ∀ x ∈ l, f x ≤ g x) :
    (l.map f).sum ≤ (l.map g).sum ∧
      ((l.map g).sum = (l.map f).sum ↔ ∀ x ∈ l, g x = f x) := by
  induction l with
  | nil => simp
  | cons x l ih =>
      obtain ⟨hle, heq⟩ := ih fun y hy => h y (List.mem_cons_of_mem _ hy)
      have hx := h x (List.mem_cons_self ..)
      rw [List.map_cons, List.map_cons, List.sum_cons, List.sum_cons, List.forall_mem_cons, ← heq]
      omega

/-- The inner loop counts as many bits of a byte as there are, or more. -/
theorem countP_shifted (c : Byte) :
    ((List.range 8).countP fun i => c.getLsbD i) ≤
        ((List.range 8).countP fun i => shifted c i ≠ 0) ∧
      (((List.range 8).countP fun i => shifted c i ≠ 0) =
          ((List.range 8).countP fun i => c.getLsbD i) ↔
        ∀ i < 8, i ≠ 0 → c.getLsbD i = true → c.getLsbD (i - 1) = true) := by
  revert c
  decide +kernel

theorem getLsbD_char (bh : MapBuffer) (k : Nat) {i : Nat} (hi : i < 8) :
    (char bh k).getLsbD i = bit bh.b_data (k * 8 + i) := by
  have hdiv : (k * 8 + i) / 32 = k / 4 := by omega
  have hmod : (k * 8 + i) % 32 = 8 * (k % 4) + i := by omega
  rw [char, getLsbD_byteOf, bit, hdiv, hmod]
  simp [hi]

theorem countP_congr_range {p q : Nat → Bool} {n : Nat} (h : ∀ i < n, p i = q i) :
    (List.range n).countP p = (List.range n).countP q :=
  List.countP_congr fun i hi => by rw [h i (List.mem_range.mp hi)]

/-- The set bits of block `b`. -/
def setInBlock (map : Nat → Option MapBuffer) (b : Nat) : Nat :=
  (List.range 8192).countP fun j => used map (b * 8192 + j)

theorem setBits_eq (sb : SuperBlock) :
    setBits sb = ((List.range sb.s_zmap_blocks).map (setInBlock sb.s_zmap)).sum :=
  countP_range_mul ..

theorem usedInBlock_spec {map : Nat → Option MapBuffer} {b : Nat} {bh : MapBuffer}
    (h : map b = some bh) :
    setInBlock map b ≤ usedInBlock bh ∧
      (usedInBlock bh = setInBlock map b ↔
        ∀ j < 8192, j % 8 ≠ 0 → used map (b * 8192 + j) = true →
          used map (b * 8192 + (j - 1)) = true) := by
  have hused : ∀ k < 1024, ∀ i < 8,
      used map (b * 8192 + (k * 8 + i)) = (char bh k).getLsbD i := fun k hk i hi => by
    rw [used_slot (by omega) h, getLsbD_char bh k hi]
  have hbits : setInBlock map b = ((List.range 1024).map fun k =>
      (List.range 8).countP fun i => (char bh k).getLsbD i).sum := by
    refine (countP_range_mul _ 1024 8).trans ?_
    refine congrArg List.sum (List.map_congr_left fun k hk => countP_congr_range fun i hi => ?_)
    exact hused k (List.mem_range.mp hk) i hi
  have hloop : usedInBlock bh = ((List.range 1024).map fun k =>
      (List.range 8).countP fun i => shifted (char bh k) i ≠ 0).sum := by
    rw [usedInBlock, BLOCK_SIZE, countP_range_mul]
    refine congrArg List.sum (List.map_congr_left fun k _ => countP_congr_range fun i hi => ?_)
    rw [show (k * 8 + i) / 8 = k by omega, show (k * 8 + i) % 8 = i by omega]
  obtain ⟨hle, heq⟩ := sum_eq_iff_of_le (l := List.range 1024)
    fun k _ => (countP_shifted (char bh k)).1
  rw [hbits, hloop]
  refine ⟨hle, heq.trans ⟨fun hall j hj hmod hset => ?_, fun hall k hk => ?_⟩⟩
  · have hk : j / 8 < 1024 := by omega
    have hlow := (countP_shifted _).2.mp (hall (j / 8) (List.mem_range.mpr hk)) (j % 8)
      (by omega) hmod
    rw [← hused _ hk _ (by omega), ← hused _ hk _ (by omega)] at hlow
    have hj₀ : j / 8 * 8 + j % 8 = j := by omega
    have hj₁ : j / 8 * 8 + (j % 8 - 1) = j - 1 := by omega
    rw [hj₀, hj₁] at hlow
    exact hlow hset
  · have hk := List.mem_range.mp hk
    refine (countP_shifted _).2.mpr fun i hi hne hset => ?_
    rw [← hused k hk _ hi] at hset
    rw [← hused k hk _ (by omega)]
    have := hall (k * 8 + i) (by omega) (by omega) hset
    rwa [show k * 8 + i - 1 = k * 8 + (i - 1) by omega] at this

/-- The count of `pro_hd` in block `b`. -/
def usedIn (map : Nat → Option MapBuffer) (b : Nat) : Nat := ((map b).map usedInBlock).getD 0

theorem foldlM_used {map : Nat → Option MapBuffer} {l : List Nat}
    (h : ∀ i ∈ l, (map i).isSome) (used_block : Nat) :
    l.foldlM (fun used_block i => (map i).map fun bh => used_block + usedInBlock bh) used_block
      = some (used_block + (l.map (usedIn map)).sum) := by
  induction l generalizing used_block with
  | nil => rfl
  | cons i l ih =>
      obtain ⟨hi, hl⟩ := List.forall_mem_cons.mp h
      obtain ⟨bh, hbh⟩ := Option.isSome_iff_exists.mp hi
      rw [List.foldlM_cons, hbh, Option.map_some]
      refine (ih hl _).trans ?_
      rw [List.map_cons, List.sum_cons, usedIn, hbh, Option.map_some, Option.getD_some,
        Nat.add_assoc]

/-- The loop over the blocks counts the set bits, or more. -/
theorem usedBlock_spec {sb : SuperBlock} (h : ∀ i < sb.s_zmap_blocks, (sb.s_zmap i).isSome) :
    ∃ used_block, usedBlock sb = some used_block ∧
      (used_block = setBits sb ↔ LowestSet sb) := by
  refine ⟨_, foldlM_used (fun i hi => h i (List.mem_range.mp hi)) 0, ?_⟩
  have hblock : ∀ b < sb.s_zmap_blocks, setInBlock sb.s_zmap b ≤ usedIn sb.s_zmap b ∧
      (usedIn sb.s_zmap b = setInBlock sb.s_zmap b ↔
        ∀ j < 8192, j % 8 ≠ 0 → used sb.s_zmap (b * 8192 + j) = true →
          used sb.s_zmap (b * 8192 + (j - 1)) = true) := fun b hb => by
    obtain ⟨bh, hbh⟩ := Option.isSome_iff_exists.mp (h b hb)
    rw [usedIn, hbh, Option.map_some, Option.getD_some]
    exact usedInBlock_spec hbh
  have heq := (sum_eq_iff_of_le (l := List.range sb.s_zmap_blocks)
    fun b hb => (hblock b (List.mem_range.mp hb)).1).2
  rw [Nat.zero_add, setBits_eq, heq]
  refine ⟨fun hall g hg hmod hset => ?_, fun hlow b hb => ?_⟩
  · have hb : g / 8192 < sb.s_zmap_blocks := by omega
    have := (hblock _ hb).2.mp (hall (g / 8192) (List.mem_range.mpr hb)) (g % 8192) (by omega)
      (by omega)
    rw [show g / 8192 * 8192 + g % 8192 = g by omega,
      show g / 8192 * 8192 + (g % 8192 - 1) = g - 1 by omega] at this
    exact this hset
  · have hb := List.mem_range.mp hb
    refine (hblock b hb).2.mpr fun j hj hmod hset => ?_
    have := hlow (b * 8192 + j) (by omega) (by omega) hset
    rwa [show b * 8192 + j - 1 = b * 8192 + (j - 1) by omega] at this

theorem mountRootFree_spec {map : Nat → Option MapBuffer} {n free free' : Nat}
    (h : mountRootFree map n free = some free') :
    (∀ i < n, (map (i / 8192)).isSome) ∧ free' + (List.range n).countP (used map) = free + n := by
  induction n generalizing free with
  | zero =>
      obtain rfl := Option.some.inj h
      exact ⟨fun i hi => absurd hi (Nat.not_lt_zero i), rfl⟩
  | succ n ih =>
      unfold mountRootFree at h
      split at h
      · cases h
      · rename_i bh hbh
        obtain ⟨hloaded, hcount⟩ := ih h
        have hused : used map n = bit bh.b_data (n % 8192) := by
          unfold used
          rw [hbh]
        refine ⟨fun i hi => ?_, ?_⟩
        · rcases Nat.lt_succ_iff_lt_or_eq.mp hi with hi | rfl
          · exact hloaded i hi
          · rw [hbh]
            rfl
        · rw [List.range_succ, List.countP_append, List.countP_singleton, hused]
          split at hcount
          · rename_i hset
            rw [hset, if_pos rfl]
            omega
          · rename_i hset
            rw [if_neg hset]
            omega

/-- **`hdinfo` counts zones.** For every super block whose zone maps are loaded and have
no bit set behind the last zone: `used_block` is the number of set bits and
`free_blocks` is what `mount_root` counts exactly when the set bits of every byte are
its lowest ones. -/
theorem hdinfo_counts {sb : SuperBlock}
    (hloaded : ∀ i, (sb.s_zmap i).isSome ↔ i < sb.s_zmap_blocks)
    (hclear : ∀ g, sb.s_nzones ≤ g → g < sb.s_zmap_blocks * 8192 → used sb.s_zmap g = false) :
    Counts sb ↔ LowestSet sb := by
  obtain ⟨used_block, hused, hiff⟩ := usedBlock_spec fun i hi => (hloaded i).mpr hi
  have hfigures : figures sb = some ⟨sb.s_nzones, used_block, sb.s_nzones - used_block⟩ := by
    rw [figures, hused]
    rfl
  rw [← hiff]
  refine ⟨fun ⟨f, hf, hcount, _⟩ => ?_, fun heq => ⟨_, hfigures, congrArg Nat.cast heq, ?_⟩⟩
  · obtain rfl := Option.some.inj (hfigures.symm.trans hf)
    exact Int.ofNat_inj.mp hcount
  · intro free hfree
    obtain ⟨hall, hsum⟩ := mountRootFree_spec hfree
    have hle : sb.s_nzones ≤ sb.s_zmap_blocks * 8192 := by
      by_contra hlt
      have := (hloaded _).mp (hall (sb.s_nzones - 1) (by omega))
      omega
    -- the bits behind the zones are clear
    have hbits : setBits sb = (List.range sb.s_nzones).countP (used sb.s_zmap) := by
      obtain ⟨k, hk⟩ := Nat.exists_eq_add_of_le hle
      rw [setBits, hk, List.range_add, List.countP_append, List.countP_map]
      refine Nat.add_eq_left.mpr (List.countP_eq_zero.mpr fun i hi => ?_)
      have hi := List.mem_range.mp hi
      show ¬used sb.s_zmap (sb.s_nzones + i) = true
      rw [hclear _ (by omega) (by omega)]
      decide
    show (sb.s_nzones : Int) - used_block = free
    omega

/-- One map block with the bits of `w` in its first word. -/
def oneBlock (w : BitVec 32) : SuperBlock where
  s_ninodes := 32
  s_nzones := 64
  s_imap_blocks := 1
  s_zmap_blocks := 1
  s_firstdatazone := 5
  s_magic := SUPER_MAGIC
  s_imap _ := none
  s_zmap i := if i = 0 then some ⟨fun k => if k = 0 then w else 0, false⟩ else none

theorem oneBlock_loaded (w : BitVec 32) (i : Nat) :
    ((oneBlock w).s_zmap i).isSome ↔ i < (oneBlock w).s_zmap_blocks := by
  show (if i = 0 then some _ else none : Option MapBuffer).isSome ↔ i < 1
  rw [Option.isSome_ite]
  omega

theorem used_oneBlock (w : BitVec 32) {g : Nat} (hg : g < 8192) :
    used (oneBlock w).s_zmap g = w.getLsbD g := by
  have hmap : (oneBlock w).s_zmap (g / 8192) = some ⟨fun k => if k = 0 then w else 0, false⟩ :=
    if_pos (by omega)
  have hword : used (oneBlock w).s_zmap g
      = (if g % 8192 / 32 = 0 then w else 0 : BitVec 32).getLsbD (g % 8192 % 32) := by
    unfold used
    rw [hmap]
    rfl
  rw [hword]
  split
  · rw [show g % 8192 % 32 = g by omega]
  · exact BitVec.getLsbD_zero.trans (BitVec.getLsbD_of_ge w g (by omega)).symm

theorem oneBlock_clear (w : BitVec 32) (g : Nat) (h : 64 ≤ g) (hg : g < 1 * 8192) :
    used (oneBlock w).s_zmap g = false := by
  rw [used_oneBlock w (by omega), BitVec.getLsbD_of_ge _ _ (by omega)]

/-- The zones 0, 1 and 2 are in use. -/
theorem hdinfo_counts_lowest : Counts (oneBlock 7) := by
  refine (hdinfo_counts (oneBlock_loaded 7) (oneBlock_clear 7)).mpr fun g hg hmod hset => ?_
  have hg : g < 1 * 8192 := hg
  have hlow : ∀ g < 32, (7 : BitVec 32).getLsbD g = true → (7 : BitVec 32).getLsbD (g - 1) = true :=
    by decide
  rw [used_oneBlock 7 (by omega)] at hset ⊢
  exact hlow g (BitVec.lt_of_getLsbD hset) hset

/-- The zones 0 and 2 are in use, and three are counted. -/
theorem not_hdinfo_counts : ¬ ∀ {sb : SuperBlock},
    (∀ i, (sb.s_zmap i).isSome ↔ i < sb.s_zmap_blocks) →
    (∀ g, sb.s_nzones ≤ g → g < sb.s_zmap_blocks * 8192 → used sb.s_zmap g = false) →
    Counts sb := by
  intro h
  obtain ⟨f, hf, hcount, -⟩ := h (oneBlock_loaded 5) (oneBlock_clear 5)
  obtain ⟨used_block, hused, hiff⟩ :=
    usedBlock_spec fun i hi => (oneBlock_loaded 5 i).mpr hi
  rw [figures, hused] at hf
  obtain rfl := Option.some.inj hf
  have hlow := hiff.mp (Int.ofNat_inj.mp hcount) 2 (by decide) (by decide)
  rw [used_oneBlock 5 (by decide), used_oneBlock 5 (by decide)] at hlow
  exact absurd (hlow (by decide)) (by decide)

/-! ## The text -/

def TABLE : Nat := 23
abbrev NR_TASKS : Nat := 64

/-- The length of the text. -/
def TEXT : Nat := 3 * (TABLE + 1)

/-- `sprint(tbuf, "total_blocks:  %-08d\n", num)` and its like. -/
def line (name : String) (num : Int) : List UInt8 :=
  chars name ++ number (Int32.ofInt num) 8 ++ chars "\n"

/-- The three calls of `sprint`. -/
def format (f : Figures) (stack : Nat → UInt8) : Nat → UInt8 :=
  let tmpbuf := sprint stack 0 (line "total_blocks:  " f.total_blocks)
  let tmpbuf := sprint tmpbuf (TABLE + 1) (line "used_blocks:   " f.used_block)
  sprint tmpbuf (2 * (TABLE + 1)) (line "free_blocks:   " f.free_blocks)

/-! ## The readers -/

/-- Where a task is; the loops are entered with at least one byte to copy. -/
inductive Pc where
  | user
  /-- `p > count`, with the open file `r`: byte `i` of `count` is next -/
  | piece (r : Nat) (tmpbuf : Nat → UInt8) (count i : Nat)
  /-- the loop up to `p` -/
  | rest (r : Nat) (tmpbuf : Nat → UInt8) (i : Nat)

/-- The open file of a call. -/
def Pc.file? : Pc → Option Nat
  | .user => none
  | .piece r .. => some r
  | .rest r .. => some r

structure State where
  /-- the static variable of `pro_hd` -/
  p : Int
  sb : SuperBlock
  /-- of the open files -/
  f_pos : Nat → Nat
  /-- of the tasks -/
  pc : Fin NR_TASKS → Pc
  /-- what the tasks have been given -/
  buf : Fin NR_TASKS → List UInt8

inductive Act where
  /-- the rest of the kernel changes the maps -/
  | other (sb : SuperBlock)
  /-- a new open file takes the entry `r` of the table -/
  | sysOpen (r : Nat)
  /-- `proc_read` of task `t` with a positive count, up to the first `put_fs_byte`; `stack` is
  what earlier calls have left where `tmpbuf` lies -/
  | read (t : Fin NR_TASKS) (r count : Nat) (stack : Nat → UInt8)
  /-- `put_fs_byte` and the test of the loop -/
  | put (t : Fin NR_TASKS)

def boot (sb : SuperBlock) : State := ⟨0, sb, fun _ => 0, fun _ => .user, fun _ => []⟩

/-- `pro_hd` in front of its loops: `tmpbuf` and `p`. -/
def prepare (s : State) (r : Nat) (stack : Nat → UInt8) : Option ((Nat → UInt8) × Int) :=
  if s.f_pos r = 0 then
    (figures s.sb).map fun f => (format f stack, s.p + TEXT)
  else some (stack, s.p)

/-- A loop is entered, or nothing is copied. -/
def enter (s : State) (t : Fin NR_TASKS) (r count : Nat) (tmpbuf : Nat → UInt8) (p : Int) : State :=
  if p > count then { s with p := p, pc := update s.pc t (.piece r tmpbuf count 0) }
  else if 0 < p then { s with p := p, pc := update s.pc t (.rest r tmpbuf 0) }
  else { s with p := 0 }

/-- `put_fs_byte(*(tmpbuf + *pos), buf + i)` and `*pos += 1`. -/
def putByte (s : State) (t : Fin NR_TASKS) (r : Nat) (tmpbuf : Nat → UInt8) (p : Int) (pc : Pc) :
    State :=
  { s with
    p := p
    f_pos := update s.f_pos r ((s.f_pos r + 1) % 0x100000000)
    pc := update s.pc t pc
    buf := update s.buf t (s.buf t ++ [tmpbuf (s.f_pos r)]) }

def step (s : State) : Act → Option State
  | .other sb => some { s with sb := sb }
  | .sysOpen r =>
      if ∃ t, (s.pc t).file? = some r then none
      else some { s with f_pos := update s.f_pos r 0 }
  | .read t r count stack =>
      match s.pc t with
      | .user =>
          if count < 1 then none
          else (prepare s r stack).map fun (tmpbuf, p) => enter s t r count tmpbuf p
      | _ => none
  | .put t =>
      match s.pc t with
      | .user => none
      | .piece r tmpbuf count i =>
          some (putByte s t r tmpbuf (s.p - 1)
            (if i + 1 < count then .piece r tmpbuf count (i + 1) else .user))
      | .rest r tmpbuf i =>
          if i + 1 < s.p then some (putByte s t r tmpbuf s.p (.rest r tmpbuf (i + 1)))
          else some (putByte s t r tmpbuf 0 .user)

/-- What is copied is in the text: at the start of a loop the rest of it is, and at every byte
the next one. -/
def InText (s : State) : Act → Prop
  | .read _ r _ stack => ∀ tmpbuf p, prepare s r stack = some (tmpbuf, p) → s.f_pos r + p ≤ TEXT
  | .put t =>
      match (s.pc t).file? with
      | none => True
      | some r => s.f_pos r < TEXT
  | _ => True

/-- No task is copying. -/
def Idle (s : State) : Prop := ∀ t, s.pc t = .user

/-- All of the text is given out, or the file is the one that has a part of it. -/
def Continues (s : State) (r : Nat) : Prop := s.p = 0 ∨ 0 < s.f_pos r ∧ s.f_pos r < TEXT

/-- No read begins while another is copying, and when a text is given out in part, only the file
that has the part is read. -/
def Alone (s : State) : Act → Prop
  | .read _ r _ _ => Idle s ∧ Continues s r
  | _ => True

/-! ## The invariant -/

def AtEnd (f_pos : Nat) : Prop := f_pos = 0 ∨ f_pos = TEXT

/-- At most one file, `o`, has a part of the text. -/
inductive Turns (s : State) : Prop where
  | idle (o : Nat) (user : Idle s) (others : ∀ r ≠ o, AtEnd (s.f_pos r)) (nonneg : 0 ≤ s.p)
      (owner : AtEnd (s.f_pos o) ∨ 0 < s.f_pos o ∧ s.f_pos o + s.p = TEXT)
  | piece (t : Fin NR_TASKS) (r : Nat) (tmpbuf : Nat → UInt8) (count i : Nat)
      (pc : s.pc t = .piece r tmpbuf count i) (user : ∀ t' ≠ t, s.pc t' = .user)
      (others : ∀ r' ≠ r, AtEnd (s.f_pos r')) (pos : s.f_pos r + s.p = TEXT) (lt : i < count)
      (left : (count : Int) < s.p + i)
  | rest (t : Fin NR_TASKS) (r : Nat) (tmpbuf : Nat → UInt8) (i : Nat)
      (pc : s.pc t = .rest r tmpbuf i) (user : ∀ t' ≠ t, s.pc t' = .user)
      (others : ∀ r' ≠ r, AtEnd (s.f_pos r')) (pos : s.f_pos r + s.p = TEXT + i) (lt : i < s.p)

variable {s s' : State}

theorem boot_turns (sb : SuperBlock) : Turns (boot sb) :=
  .idle 0 (fun _ => rfl) (fun _ _ => .inl rfl) (Int.le_refl 0) (.inl (.inl rfl))

theorem atEnd_update {f_pos : Nat → Nat} {o r n : Nat} (h : ∀ r' ≠ o, AtEnd (f_pos r'))
    (hn : AtEnd n) : ∀ r' ≠ o, AtEnd (update f_pos r n r') := by
  intro r' hr'
  rcases eq_or_ne r' r with rfl | hne
  · rwa [update_self]
  · rw [update_of_ne hne]
    exact h r' hr'

theorem atEnd_update_self {f_pos : Nat → Nat} {r n : Nat} (h : ∀ r' ≠ r, AtEnd (f_pos r')) :
    ∀ r' ≠ r, AtEnd (update f_pos r n r') := by
  intro r' hr'
  rw [update_of_ne hr']
  exact h r' hr'

theorem user_update {pc : Fin NR_TASKS → Pc} {t : Fin NR_TASKS} {q : Pc}
    (h : ∀ t' ≠ t, pc t' = .user) : ∀ t' ≠ t, update pc t q t' = .user := by
  intro t' ht'
  rw [update_of_ne ht']
  exact h t' ht'

theorem open_turns {r : Nat} (h : Turns s) (hs : step s (.sysOpen r) = some s') : Turns s' := by
  dsimp only [step] at hs
  obtain ⟨hfree, hs⟩ := Option.ite_none_left_eq_some.mp hs
  obtain rfl := Option.some.inj hs
  cases h with
  | idle o user others nonneg owner =>
      refine .idle o user (atEnd_update others (.inl rfl)) nonneg ?_
      rcases eq_or_ne o r with rfl | hne
      · exact .inl (.inl (update_self ..))
      · dsimp only
        rwa [update_of_ne hne]
  | piece t r₀ tmpbuf count i pc user others pos lt left =>
      have hne : r₀ ≠ r := fun e => hfree ⟨t, by rw [pc, e]; rfl⟩
      refine .piece t r₀ tmpbuf count i pc user (atEnd_update others (.inl rfl)) ?_ lt left
      dsimp only
      rwa [update_of_ne hne]
  | rest t r₀ tmpbuf i pc user others pos lt =>
      have hne : r₀ ≠ r := fun e => hfree ⟨t, by rw [pc, e]; rfl⟩
      refine .rest t r₀ tmpbuf i pc user (atEnd_update others (.inl rfl)) ?_ lt
      dsimp only
      rwa [update_of_ne hne]

/-- Where a read may begin, the rest of the text is in front of its file. -/
theorem prepare_spec {r : Nat} {stack tmpbuf : Nat → UInt8} {p : Int} (h : Turns s)
    (hidle : Idle s) (hcont : Continues s r) (hprep : prepare s r stack = some (tmpbuf, p)) :
    0 ≤ p ∧ (∀ r' ≠ r, AtEnd (s.f_pos r')) ∧ s.f_pos r + p = TEXT := by
  have htext : TEXT = 72 := rfl
  cases h with
  | piece t r₀ tmpbuf count i pc _ _ _ _ _ => rw [hidle t] at pc; cases pc
  | rest t r₀ tmpbuf i pc _ _ _ _ => rw [hidle t] at pc; cases pc
  | idle o _ others nonneg owner =>
      unfold prepare at hprep
      split at hprep
      · rename_i hzero
        obtain ⟨f, -, hf⟩ := Option.map_eq_some_iff.mp hprep
        obtain ⟨rfl, rfl⟩ := Prod.mk.inj hf
        have hp : s.p = 0 := hcont.resolve_right fun hpos => by omega
        refine ⟨by omega, fun r' _ => ?_, by omega⟩
        rcases eq_or_ne r' o with rfl | hne
        · exact owner.elim id fun ⟨_, hsum⟩ => .inr (by omega)
        · exact others r' hne
      · rename_i hzero
        obtain ⟨rfl, rfl⟩ := Prod.mk.inj (Option.some.inj hprep)
        refine ⟨nonneg, fun r' hr' => ?_, ?_⟩
        · rcases eq_or_ne r' o with rfl | hne
          · refine owner.elim id fun ⟨hpos, hsum⟩ => ?_
            have hr := others r hr'.symm
            rcases hcont with hp | hin
            · exact .inr (by omega)
            · exact absurd hr fun hr => by
                rcases hr with hr | hr <;> omega
          · exact others r' hne
        · rcases eq_or_ne r o with rfl | hne
          · rcases owner with hend | ⟨-, hsum⟩
            · rcases hcont with hp | hin
              · have := hend.resolve_left hzero
                omega
              · rcases hend with hend | hend <;> omega
            · exact hsum
          · have hr := (others r hne).resolve_left hzero
            rcases hcont with hp | hin <;> omega

theorem read_turns {t : Fin NR_TASKS} {r count : Nat} {stack : Nat → UInt8} (h : Turns s)
    (hok : Alone s (.read t r count stack)) (hs : step s (.read t r count stack) = some s') :
    Turns s' := by
  obtain ⟨hidle, hcont⟩ := hok
  have htext : TEXT = 72 := rfl
  dsimp only [step] at hs
  rw [hidle t] at hs
  obtain ⟨hcount, hs⟩ := Option.ite_none_left_eq_some.mp hs
  obtain ⟨⟨tmpbuf, p⟩, hprep, rfl⟩ := Option.map_eq_some_iff.mp hs
  obtain ⟨hnonneg, hothers, hsum⟩ := prepare_spec h hidle hcont hprep
  have huser : ∀ {q : Pc}, ∀ t' ≠ t, update s.pc t q t' = .user := fun {q} =>
    user_update fun t' _ => hidle t'
  dsimp only [enter]
  split
  · refine .piece t r tmpbuf count 0 (update_self ..) huser hothers hsum (by omega) ?_
    show (count : Int) < p + (0 : Nat)
    omega
  · split
    · refine .rest t r tmpbuf 0 (update_self ..) huser hothers ?_ (by omega)
      show s.f_pos r + p = TEXT + (0 : Nat)
      omega
    · refine .idle r hidle hothers (Int.le_refl 0) (.inl (.inr ?_))
      show s.f_pos r = TEXT
      omega

theorem idle_update {pc : Fin NR_TASKS → Pc} {t : Fin NR_TASKS} (h : ∀ t' ≠ t, pc t' = .user) :
    ∀ t', update pc t .user t' = .user := by
  intro t'
  rcases eq_or_ne t' t with rfl | hne
  · exact update_self ..
  · rw [update_of_ne hne]
    exact h t' hne

/-- A byte is copied by the one task that is in its loop. -/
theorem put_turns {t : Fin NR_TASKS} (h : Turns s) (hs : step s (.put t) = some s') :
    Turns s' := by
  have htext : TEXT = 72 := rfl
  dsimp only [step] at hs
  cases h with
  | idle o user _ _ _ =>
      rw [user t] at hs
      cases hs
  | piece t₀ r tmpbuf count i pc user others pos lt left =>
      rcases eq_or_ne t t₀ with rfl | hne
      · have hpos : (s.f_pos r + 1) % 0x100000000 = s.f_pos r + 1 := by omega
        rw [pc] at hs
        obtain rfl := Option.some.inj hs
        dsimp only [putByte]
        rw [hpos]
        have hnext : ∀ {p : Int} {q : Pc}, p = s.p - 1 →
            ((update s.f_pos r (s.f_pos r + 1) r : Nat) : Int) + p = TEXT := by
          intro p q hp
          rw [update_self]
          omega
        split
        · refine .piece t r tmpbuf count (i + 1) (update_self ..) (user_update user)
            (atEnd_update_self others) (hnext (q := .user) rfl) ‹_› ?_
          show (count : Int) < s.p - 1 + (i + 1 : Nat)
          omega
        · refine .idle r (idle_update user) (atEnd_update_self others) ?_
            (.inr ⟨?_, hnext (q := .user) rfl⟩)
          · show 0 ≤ s.p - 1
            omega
          · show 0 < update s.f_pos r (s.f_pos r + 1) r
            rw [update_self]
            omega
      · rw [user t hne] at hs
        cases hs
  | rest t₀ r tmpbuf i pc user others pos lt =>
      rcases eq_or_ne t t₀ with rfl | hne
      · have hpos : (s.f_pos r + 1) % 0x100000000 = s.f_pos r + 1 := by omega
        rw [pc] at hs
        dsimp only [putByte] at hs
        rw [hpos] at hs
        split at hs
        · obtain rfl := Option.some.inj hs
          refine .rest t r tmpbuf (i + 1) (update_self ..) (user_update user)
            (atEnd_update_self others) ?_ ‹_›
          show ((update s.f_pos r (s.f_pos r + 1) r : Nat) : Int) + s.p = TEXT + (i + 1 : Nat)
          rw [update_self]
          omega
        · obtain rfl := Option.some.inj hs
          refine .idle r (idle_update user) (atEnd_update_self others) (Int.le_refl 0)
            (.inl (.inr ?_))
          show update s.f_pos r (s.f_pos r + 1) r = TEXT
          rw [update_self]
          omega
      · rw [user t hne] at hs
        cases hs

theorem step_turns {a : Act} (h : Turns s) (hok : Alone s a) (hs : step s a = some s') :
    Turns s' := by
  cases a with
  | other sb =>
      obtain rfl := Option.some.inj hs
      cases h with
      | idle o user others nonneg owner => exact .idle o user others nonneg owner
      | piece t r tmpbuf count i pc user others pos lt left =>
          exact .piece t r tmpbuf count i pc user others pos lt left
      | rest t r tmpbuf i pc user others pos lt =>
          exact .rest t r tmpbuf i pc user others pos lt
  | sysOpen r => exact open_turns h hs
  | read t r count stack => exact read_turns h hok hs
  | put t => exact put_turns h hs

theorem Turns.inText {a : Act} (h : Turns s) (hok : Alone s a) : InText s a := by
  cases a with
  | other sb => trivial
  | sysOpen r => trivial
  | read t r count stack =>
      intro tmpbuf p hprep
      exact Int.le_of_eq (prepare_spec h hok.1 hok.2 hprep).2.2
  | put t =>
      have hfile : ∀ r, (s.pc t).file? = some r → s.f_pos r < TEXT := by
        intro r hr
        have huser : s.pc t ≠ .user := fun e => by rw [e] at hr; cases hr
        cases h with
        | idle o user _ _ _ => exact absurd (user t) huser
        | piece t₀ r₀ tmpbuf count i pc user others pos lt left =>
            obtain rfl : t = t₀ := by_contra fun hne => huser (user t hne)
            rw [pc] at hr
            obtain rfl := Option.some.inj hr
            omega
        | rest t₀ r₀ tmpbuf i pc user others pos lt =>
            obtain rfl : t = t₀ := by_contra fun hne => huser (user t hne)
            rw [pc] at hr
            obtain rfl := Option.some.inj hr
            omega
      dsimp only [InText]
      split
      · trivial
      · exact hfile _ ‹_›

/-- A read that begins when no other is copying is in the text exactly if it may begin. -/
theorem Turns.inText_iff {t : Fin NR_TASKS} {r count : Nat} {stack : Nat → UInt8} (h : Turns s)
    (hidle : Idle s) (hprep : (prepare s r stack).isSome) :
    InText s (.read t r count stack) ↔ Continues s r := by
  refine ⟨fun hin => ?_, fun hcont => h.inText ⟨hidle, hcont⟩⟩
  obtain ⟨⟨tmpbuf, p⟩, hprep⟩ := Option.isSome_iff_exists.mp hprep
  have hle := hin tmpbuf p hprep
  cases h with
  | piece t r₀ tmpbuf count i pc _ _ _ _ _ => rw [hidle t] at pc; cases pc
  | rest t r₀ tmpbuf i pc _ _ _ _ => rw [hidle t] at pc; cases pc
  | idle o _ others nonneg owner =>
      by_contra hcont
      obtain ⟨hp, hpos⟩ := not_or.mp hcont
      unfold prepare at hprep
      split at hprep
      · obtain ⟨f, -, hf⟩ := Option.map_eq_some_iff.mp hprep
        obtain ⟨-, rfl⟩ := Prod.mk.inj hf
        omega
      · obtain ⟨-, rfl⟩ := Prod.mk.inj (Option.some.inj hprep)
        omega

/-- **`hdinfo` reads its text only**, for any number of open files and of tasks, each switched in
front of any byte, as long as no read begins while another is copying, and only the file with
the part is read while the text is given out in part. Among the reads that begin when no other
is copying these are all that stay in the text. -/
theorem hdinfo_in_text {sb : SuperBlock} {s : State} (h : Reach step Alone (boot sb) s) :
    (∀ a, Alone s a → InText s a) ∧
      ∀ t r count stack, Idle s → (prepare s r stack).isSome →
        (InText s (.read t r count stack) ↔ Continues s r) := by
  have hturns := h.invariant (boot_turns sb) fun _ _ _ hi hok hs => step_turns hi hok hs
  exact ⟨fun a ha => hturns.inText ha, fun t r count stack hidle hprep =>
    hturns.inText_iff hidle hprep⟩

def blank : Nat → UInt8 := fun _ => 0

theorem prepare_oneBlock : ∃ tmpbuf, ∀ s : State, s.sb = oneBlock 7 → ∀ r, s.f_pos r = 0 →
    prepare s r blank = some (tmpbuf, s.p + TEXT) := by
  obtain ⟨used_block, hused, -⟩ := usedBlock_spec fun i hi => (oneBlock_loaded 7 i).mpr hi
  refine ⟨format ⟨64, used_block, 64 - used_block⟩ blank, fun s hsb r hpos => ?_⟩
  unfold prepare figures
  rw [if_pos hpos, hsb, hused]
  rfl

theorem read_oneBlock {tmpbuf : Nat → UInt8}
    (h : prepare (boot (oneBlock 7)) 0 blank = some (tmpbuf, (TEXT : Int))) :
    step (boot (oneBlock 7)) (.read 0 0 1 blank)
      = some (enter (boot (oneBlock 7)) 0 0 1 tmpbuf TEXT) := by
  dsimp only [step, boot]
  rw [if_neg (by decide)]
  exact congrArg (Option.map _) h

/-- The first byte of the text. -/
theorem hdinfo_in_text_first : ∃ s : State, Reach step Alone (boot (oneBlock 7)) s ∧
    (s.pc 0).file? = some 0 ∧ InText s (.put 0) := by
  obtain ⟨tmpbuf, hprep⟩ := prepare_oneBlock
  have hok : Alone (boot (oneBlock 7)) (.read 0 0 1 blank) := ⟨fun _ => rfl, .inl rfl⟩
  have hreach := Reach.one hok (read_oneBlock (hprep (boot (oneBlock 7)) rfl 0 rfl))
  exact ⟨_, hreach, rfl, (hdinfo_in_text hreach).1 (.put 0) trivial⟩

/-- After one byte for the first file the second one is given 72 and the 71 that were left. -/
theorem not_hdinfo_in_text : ¬ ∀ {sb : SuperBlock} {s : State}, Reach step Free (boot sb) s →
    ∀ a, InText s a := by
  intro h
  obtain ⟨tmpbuf, hprep⟩ := prepare_oneBlock
  have hok : Free (boot (oneBlock 7)) (Act.read 0 0 1 blank) := trivial
  have h₁ := Reach.one hok (read_oneBlock (hprep (boot (oneBlock 7)) rfl 0 rfl))
  have h₂ := h₁.next (a := .put 0) trivial rfl
  have hin := h h₂ (.read 1 1 1 blank) _ _ (hprep _ rfl 1 rfl)
  have hin : ((0 : Nat) : Int) + (TEXT - 1 + TEXT) ≤ TEXT := hin
  have htext : TEXT = 72 := rfl
  omega

end HdInfo

end Linux011
