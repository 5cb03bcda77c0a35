import Linux011.LlRwBlk

/-!
# Reading and writing a block device

`fs/block_dev.c` over the buffers: one task inside `block_write` or `block_read`, with
`breada` and `brelse`, while other tasks and the interrupts go on with the buffers. Their
steps are those of `Act`, one critical section each; a `sync_dev` of the task itself is
among them.

The proof separates where the task is from what the bytes are. `Steady` says, for each point at
which the task may be switched, what its local variables are and that the buffer in its hand
carries the current block and is held by it, and once it was asked for is locked or up to date. A
step of the others cannot take this away, since a head in use keeps its block; a step of the task
itself is a few moves of the kernel and a new point (`Shape`). Above this, `Kept` says of the
bytes written so far that every way to read their block leads to them, be it the buffer or the
device behind it, and this is what `LlRwBlk` carries over the moves of everybody else. `Writes`
and `Reads` put the two together for the two loops, and the theorem joins a run of the one, a run
of the others and a run of the other.

What the condition leaves out is one place. A block that is written whole is not read before, and
`block_write` does not say that its buffer is up to date; a reader then has it read from the
device, over the bytes that were to be written (`not_read_your_writes`).
-/

namespace Linux011

open Function DoubleLinks Buffers Blocks Runs

namespace BlockDev

variable {n : Nat}

/-- The part of `block_write` and `block_read` that differs. -/
inductive Job where
  /-- the bytes still to write, and `written` -/
  | write (buf : List UInt8) (written : Nat)
  /-- how many bytes to read, and those that were read -/
  | read (count : Nat) (buf : List UInt8)

/-- What a call of `getblk` is for. -/
inductive Use (n : Nat) where
  /-- `block_write` fills a whole block -/
  | whole
  /-- `breada`, the block it returns -/
  | first
  /-- `breada`, a further block, with those behind it -/
  | ahead (bh : Fin n) (more : List UInt32)

inductive Stage (n : Nat) where
  /-- the test of the loop -/
  | top
  | getblk (pc : Buffer.Pc n) (use : Use n)
  /-- `ll_rw_block(READ, bh)` -/
  | lock (bh : Fin n)
  /-- `make_request` in front of `add_request` -/
  | slot (bh : Fin n)
  /-- the last `wait_on_buffer` of `breada` -/
  | wait (bh : Fin n)
  /-- `brelse` -/
  | release (bh : Fin n)
  | done (ret : Int)

/-- The local variables of `block_write` or `block_read`. -/
structure Local (n : Nat) where
  dev : UInt16
  pos : Nat
  block : UInt32
  offset : Nat
  job : Job
  stage : Stage n

structure System (n : Nat) where
  blocks : Blocks n
  me : Local n

def EIO : Int := 5

def Job.count : Job → Nat
  | .write buf _ => buf.length
  | .read count _ => count

/-- `written`, or `read`. -/
def Job.done : Job → Nat
  | .write _ written => written
  | .read _ buf => buf.length

def Local.chars (l : Local n) : Nat := min (BLOCK_SIZE - l.offset) l.job.count

def enter (dev : UInt16) (pos : Nat) (job : Job) : Local n :=
  ⟨dev, pos, UInt32.ofNat (pos / BLOCK_SIZE), pos % BLOCK_SIZE, job, .top⟩

def blockWrite (dev : UInt16) (pos : Nat) (buf : List UInt8) : Local n :=
  enter dev pos (.write buf 0)

def blockRead (dev : UInt16) (pos count : Nat) : Local n := enter dev pos (.read count [])

def System.call (s : System n) (l : Local n) : System n := { s with me := l }

def System.goto (s : System n) (stage : Stage n) : System n :=
  { s with me := { s.me with stage := stage } }

/-- The loop of `breada` over the blocks to read ahead. -/
def readMore (s : System n) (bh : Fin n) : List UInt32 → System n
  | [] => s.goto (.wait bh)
  | block :: more => s.goto (.getblk (.find true s.me.dev block) (.ahead bh more))

/-- The blocks that `block_write` and `block_read` ask `breada` to read ahead. -/
def further (l : Local n) : List UInt32 := [l.block + 1, l.block + 2]

def storeBytes (b : Block) (offset : Nat) (bytes : List UInt8) : Block := fun i =>
  if offset ≤ i then bytes.getD (i - offset) (b i) else b i

def loadBytes (b : Block) (offset chars : Nat) : List UInt8 :=
  (List.range chars).map fun i => b (offset + i)

/-- The rest of the loop once the buffer is there. -/
def copy (s : System n) (bh : Fin n) : System n :=
  let chars := s.me.chars
  let me := { s.me with
    pos := s.me.pos + chars, block := s.me.block + 1, offset := 0, stage := .release bh }
  match s.me.job with
  | .write buf written =>
      { blocks := { s.blocks with
          cache := { s.blocks.cache with b_dirt := update s.blocks.cache.b_dirt bh true }
          b_data := update s.blocks.b_data bh
            (storeBytes (s.blocks.b_data bh) s.me.offset (buf.take chars)) }
        me := { me with job := .write (buf.drop chars) (written + chars) } }
  | .read count buf =>
      { s with me := { me with
          job := .read (count - chars) (buf ++ loadBytes (s.blocks.b_data bh) s.me.offset chars) } }

def setCount (s : Blocks n) (bh : Fin n) (c : UInt8) : Blocks n :=
  { s with cache := { s.cache with b_count := update s.cache.b_count bh c } }

/-- `getblk` has returned. -/
def returned (s : System n) (bh : Fin n) : Use n → System n
  | .whole => copy s bh
  | .first =>
      if s.blocks.cache.b_uptodate bh then readMore s bh (further s.me) else s.goto (.lock bh)
  | .ahead first more =>
      -- the request is for the first buffer, not for the one just got
      let blocks := if s.blocks.cache.b_uptodate bh then s.blocks else s.blocks.readAhead first
      readMore { s with blocks := setCount blocks bh (blocks.cache.b_count bh - 1) } first more

/-- The task goes on to the next point where it may be switched. -/
def resume (s : System n) : Option (System n) :=
  let cache := s.blocks.cache
  match s.me.stage with
  | .done _ => none
  | .top =>
      if s.me.job.count = 0 then some (s.goto (.done s.me.job.done))
      else
        let use := match s.me.job with
          | .write _ _ => if s.me.chars = BLOCK_SIZE then .whole else .first
          | .read _ _ => .first
        some (s.goto (.getblk (.find true s.me.dev s.me.block) use))
  | .getblk pc use =>
      (Buffer.resume cache pc).bind fun (pc, cache) =>
        let s := { s with blocks := { s.blocks with cache := cache } }
        match pc with
        | .user (some bh) => some (returned s bh use)
        | .user none => none
        | pc => some (s.goto (.getblk pc use))
  | .lock bh =>
      if hasDriver (cache.b_dev bh) then
        (s.blocks.lockRequest (major (cache.b_dev bh)) .read bh).map fun blocks =>
          { s with blocks := blocks }.goto (.slot bh)
      else some (readMore s bh (further s.me))
  | .slot bh => if s.blocks.making bh = none then some (readMore s bh (further s.me)) else none
  | .wait bh =>
      if cache.b_lock bh then none
      else if cache.b_uptodate bh then some (copy s bh)
      else
        let ret : Int := if s.me.job.done ≠ 0 then s.me.job.done else - EIO
        some ({ s with blocks := setCount s.blocks bh (cache.b_count bh - 1) }.goto (.done ret))
  | .release bh =>
      if cache.b_lock bh then none
      else if cache.b_count bh = 0 then none
      else some ({ s with blocks := setCount s.blocks bh (cache.b_count bh - 1) }.goto .top)

/-! ## The rest of the kernel -/

def Use.holds : Use n → Fin n → Nat
  | .ahead b _, bh => if b = bh then 1 else 0
  | _, _ => 0

def pcHolds (pc : Buffer.Pc n) (bh : Fin n) : Nat := if pc.holding = some bh then 1 else 0

/-- How often the task itself holds a head. -/
def Stage.holds : Stage n → Fin n → Nat
  | .getblk pc use, bh => pcHolds pc bh + use.holds bh
  | .lock b, bh | .slot b, bh | .wait b, bh | .release b, bh => if b = bh then 1 else 0
  | .top, _ | .done _, _ => 0

inductive Act (n : Nat) where
  | me
  | hold (bh : Fin n)
  | release (bh : Fin n)
  | take (dev : UInt16) (block : UInt32) (bh : Fin n)
  | lockRequest (major : Nat) (rw : Rw) (bh : Fin n)
  | fillRequest (bh : Fin n)
  | serveRequest (major : Nat) (uptodate : Bool)
  /-- any other change to a buffer -/
  | touch (bh : Fin n) (data : Block) (uptodate dirt : Bool)

/-- The others are 63 tasks, and none of them holds a head more than four times at once. -/
def MAX_HOLDS : Nat := 252

def step (s : System n) (a : Act n) : Option (System n) :=
  let cache := s.blocks.cache
  match a with
  | .me => resume s
  | .hold bh =>
      if (cache.b_count bh).toNat < MAX_HOLDS then
        some { s with blocks := setCount s.blocks bh (cache.b_count bh + 1) }
      else none
  | .release bh =>
      if s.me.stage.holds bh < (cache.b_count bh).toNat then
        some { s with blocks := setCount s.blocks bh (cache.b_count bh - 1) }
      else none
  | .take dev block bh =>
      if block.toNat < 0x80000000 ∧ cache.b_lock bh = false ∧ cache.b_count bh = 0 ∧
          cache.b_dirt bh = false ∧ cache.findBuffer dev block = none then
        (cache.take dev block bh).map fun cache =>
          { s with blocks := { s.blocks with cache := cache } }
      else none
  | .lockRequest major rw bh =>
      (s.blocks.lockRequest major rw bh).map fun blocks => { s with blocks := blocks }
  | .fillRequest bh => (s.blocks.fillRequest bh).map fun blocks => { s with blocks := blocks }
  | .serveRequest major uptodate =>
      (s.blocks.serveRequest major uptodate).map fun blocks => { s with blocks := blocks }
  | .touch bh data uptodate dirt =>
      some { s with blocks := { s.blocks with
        cache := { cache with
          b_uptodate := update cache.b_uptodate bh uptodate
          b_dirt := update cache.b_dirt bh dirt }
        b_data := update s.blocks.b_data bh data } }

/-- After `buffer_init` and `blk_dev_init`, with any contents of the devices. -/
def boot (hn : 0 < n) (b_blocknr : Fin n → UInt32) (b_data : Fin n → Block)
    (disk : UInt16 → UInt32 → Block) : System n where
  blocks := {
    cache := bufferInit hn b_blocknr
    b_data := b_data
    disk := disk
    current_request := fun _ => []
    making := fun _ => none }
  me := ⟨0, 0, 0, 0, .read 0 [], .done 0⟩

/-! ## Undisturbed runs -/

/-- The blocks with the bytes from `pos` to `pos + count`. -/
def InRange (dev : UInt16) (pos count : Nat) (d : UInt16) (b : UInt32) : Prop :=
  d = dev ∧ pos / BLOCK_SIZE ≤ b.toNat ∧ b.toNat * BLOCK_SIZE < pos + count

instance (dev : UInt16) (pos count : Nat) (d : UInt16) (b : UInt32) :
    Decidable (InRange dev pos count d b) := inferInstanceAs (Decidable (_ ∧ _ ∧ _))

variable (P : UInt16 → UInt32 → Prop)

/-- Nobody else writes a block in `P`, and no request for one fails. -/
def Undisturbed (s : System n) : Act n → Prop
  | .touch bh _ _ _ => ¬ P (s.blocks.cache.b_dev bh) (s.blocks.cache.b_blocknr bh)
  | .serveRequest m uptodate => ∀ r ∈ (s.blocks.current_request m).head?,
      P (s.blocks.cache.b_dev r.bh) (s.blocks.cache.b_blocknr r.bh) → uptodate = true
  | _ => True

/-- The buffer may be read from the device: it is up to date, so that nothing is read, or
not dirty. -/
def Readable (s : System n) (bh : Fin n) : Prop :=
  P (s.blocks.cache.b_dev bh) (s.blocks.cache.b_blocknr bh) →
    s.blocks.cache.b_uptodate bh = true ∨ s.blocks.cache.b_dirt bh = false

/-- The buffer that the next step of the task asks to be read. -/
def Stage.locking : Stage n → Option (Fin n)
  | .lock bh => some bh
  | _ => none

/-- No block in `P` is read while its buffer is dirty and not up to date. -/
def WrittenBack (s : System n) : Act n → Prop
  | .lockRequest _ .read bh => Readable P s bh
  | .me => ∀ bh ∈ s.me.stage.locking, Readable P s bh
  | _ => True

/-! ## What the task holds -/

variable {P} {s s' : System n} {dev : UInt16} {pos total : Nat} {bh : Fin n} {c c' : Buffers n}
  {holds : Fin n → Nat}

def one (bh b : Fin n) : Nat := if bh = b then 1 else 0

/-- The counts of the heads count the holds of the task, and the others stay within their bound. -/
def Counted (c : Buffers n) (holds : Fin n → Nat) : Prop :=
  ∀ b, holds b ≤ (c.b_count b).toNat ∧ (c.b_count b).toNat ≤ MAX_HOLDS + holds b

theorem Counted.ne_zero (h : Counted c holds) (hbh : 0 < holds bh) : c.b_count bh ≠ 0 := by
  intro hz
  have hle := (h bh).1
  rw [hz] at hle
  exact absurd (Nat.lt_of_lt_of_le hbh hle) (Nat.lt_irrefl 0)

theorem toNat_up {k : UInt8} (h : k.toNat < 255) : (k + 1).toNat = k.toNat + 1 := by
  rw [UInt8.toNat_add]
  exact Nat.mod_eq_of_lt (Nat.succ_lt_succ h)

theorem toNat_down {k : UInt8} (h : 0 < k.toNat) : (k - 1).toNat = k.toNat - 1 :=
  UInt8.toNat_sub_of_le _ _ (UInt8.le_iff_toNat_le.mpr h)

theorem Counted.up (h : Counted c holds) (hbh : holds bh ≤ 1) :
    Counted { c with b_count := update c.b_count bh (c.b_count bh + 1) }
      fun b => one bh b + holds b := by
  intro b
  obtain ⟨h₁, h₂⟩ := h b
  dsimp only [one]
  by_cases hb : bh = b
  · subst hb
    rw [update_self, if_pos rfl, toNat_up (by rw [MAX_HOLDS] at h₂; omega)]
    omega
  · rw [update_of_ne (Ne.symm hb), if_neg hb]
    omega

theorem Counted.down (h : Counted c fun b => one bh b + holds b) :
    Counted { c with b_count := update c.b_count bh (c.b_count bh - 1) } holds := by
  intro b
  obtain ⟨h₁, h₂⟩ := h b
  dsimp only [one] at h₁ h₂ ⊢
  by_cases hb : bh = b
  · subst hb
    rw [if_pos rfl] at h₁ h₂
    rw [update_self, toNat_down (by omega)]
    omega
  · rw [if_neg hb] at h₁ h₂
    rw [update_of_ne (Ne.symm hb)]
    omega

theorem Counted.taken {block : UInt32} (h : Counted c holds) (hzero : c.b_count bh = 0)
    (ht : c.Taken c' dev block bh) : Counted c' fun b => one bh b + holds b := by
  intro b
  obtain ⟨h₁, h₂⟩ := h b
  rw [ht.b_count]
  dsimp only [one]
  by_cases hb : bh = b
  · subst hb
    rw [hzero] at h₁
    rw [update_self, if_pos rfl, Nat.le_zero.mp h₁]
    exact ⟨Nat.le_refl 1, Nat.le_add_left ..⟩
  · rw [update_of_ne (Ne.symm hb), if_neg hb]
    omega

/-! ## Where the task is -/

/-- The buffer of the current block, once the task has it. -/
def Stage.hand : Stage n → Option (Fin n)
  | .getblk _ (.ahead bh _) | .lock bh | .slot bh | .wait bh => some bh
  | _ => none

/-- The buffer of the current block, once it was asked to be read. -/
def Stage.asked : Stage n → Option (Fin n)
  | .getblk _ (.ahead bh _) | .slot bh | .wait bh => some bh
  | _ => none

/-- The local variables, for `total` bytes from `pos` on. -/
structure Place (dev : UInt16) (pos total : Nat) (me : Local n) : Prop where
  dev : me.dev = dev
  low : pos ≤ me.pos
  sum : me.pos + me.job.count = pos + total
  offset : me.offset < BLOCK_SIZE
  block : 0 < me.job.count → me.block.toNat * BLOCK_SIZE + me.offset = me.pos

def StageOk (me : Local n) : Prop :=
  match me.stage with
  | .getblk pc use =>
      0 < me.job.count ∧ (use = .whole → ∃ buf written, me.job = .write buf written) ∧
      ∃ block, block.toNat < 0x80000000 ∧ pc.Asks me.dev block ∧ match use with
        | .whole | .first => block = me.block
        | .ahead _ more => ∀ b ∈ more, b.toNat < 0x80000000
  | .lock _ | .slot _ | .wait _ => 0 < me.job.count
  | .release _ | .top => True
  | .done ret => me.job.count = 0 ∧ ret = me.job.done

/-- Between its steps: the buffer in the hand is the one of the current block, and once it was
asked to be read it is locked or up to date. -/
structure Steady (dev : UInt16) (pos total : Nat) (s : System n) : Prop where
  sound : s.blocks.Sound
  counted : Counted s.blocks.cache s.me.stage.holds
  place : Place dev pos total s.me
  stage : StageOk s.me
  hand : ∀ bh, s.me.stage.hand = some bh → s.blocks.cache.Carries s.me.dev s.me.block bh
  asked : ∀ bh, s.me.stage.asked = some bh → s.blocks.Ready bh

theorem Place.inRange (h : Place dev pos total s.me) (hcount : 0 < s.me.job.count) :
    InRange dev pos total s.me.dev s.me.block := by
  have hblock := h.block hcount
  have hoff := h.offset
  have hlow := h.low
  have hsum := h.sum
  simp only [InRange, BLOCK_SIZE] at *
  refine ⟨h.dev, ?_, ?_⟩ <;> omega

theorem Place.block_lt (h : Place dev pos total s.me) (hcount : 0 < s.me.job.count)
    (hlen : pos + total < 0x100000000) :
    s.me.block.toNat < 0x80000000 ∧ ∀ b ∈ further s.me, b.toNat < 0x80000000 := by
  have hblock := h.block hcount
  have hsum := h.sum
  rw [BLOCK_SIZE] at hblock
  have hlt : s.me.block.toNat < 0x400000 := by omega
  refine ⟨by omega, ?_⟩
  have hadd : ∀ k : UInt32, k.toNat ≤ 2 → (s.me.block + k).toNat < 0x80000000 := by
    intro k hk
    rw [UInt32.toNat_add, Nat.mod_eq_of_lt] <;> omega
  simp only [further, List.mem_cons, List.not_mem_nil, or_false, forall_eq_or_imp, forall_eq]
  exact ⟨hadd 1 (by decide), hadd 2 (by decide)⟩

theorem Place.stage (h : Place dev pos total s.me) (stage : Stage n) :
    Place dev pos total (s.goto stage).me :=
  ⟨h.dev, h.low, h.sum, h.offset, h.block⟩

theorem copy_blocks_pos (s : System n) (bh : Fin n) :
    (copy s bh).me.dev = s.me.dev ∧ (copy s bh).me.pos = s.me.pos + s.me.chars ∧
    (copy s bh).me.block = s.me.block + 1 ∧ (copy s bh).me.offset = 0 ∧
    (copy s bh).me.stage = .release bh ∧
      (copy s bh).me.job.count = s.me.job.count - s.me.chars := by
  cases hj : s.me.job with
  | write buf written => simp [copy, hj, Job.count]
  | read count buf => simp [copy, hj, Job.count]

theorem next_place {block offset pos count : Nat} (h : block * 1024 + offset = pos)
    (ho : offset < 1024) (hc : 0 < count - min (1024 - offset) count) :
    (block + 1) * 1024 = pos + min (1024 - offset) count := by
  omega

theorem Place.copy (h : Place dev pos total s.me) (hcount : 0 < s.me.job.count)
    (hlen : pos + total < 0x100000000) (bh : Fin n) : Place dev pos total (copy s bh).me := by
  obtain ⟨hdev, hpos, hblk, hoff, -, hcnt⟩ := copy_blocks_pos s bh
  have hblock := h.block hcount
  have hsum := h.sum
  have hlow := h.low
  have ho := h.offset
  have hchars : s.me.chars = min (BLOCK_SIZE - s.me.offset) s.me.job.count := rfl
  simp only [BLOCK_SIZE] at *
  refine ⟨hdev.trans h.dev, ?_, ?_, ?_, ?_⟩
  · omega
  · omega
  · rw [hoff]
    decide
  · intro hc
    rw [hcnt, hchars] at hc
    have hlt : s.me.block.toNat + 1 < 0x100000000 := by omega
    have hadd : (s.me.block + 1).toNat = s.me.block.toNat + 1 := by
      rw [UInt32.toNat_add]
      exact Nat.mod_eq_of_lt hlt
    rw [hblk, hadd, hoff, hpos, hchars, Nat.add_zero]
    exact next_place hblock ho hc

/-! ## One step of the task -/

/-- A step of the task is some moves and a new stage, or moves and the rest of the loop for a
buffer that is its to use. -/
inductive Shape (P : UInt16 → UInt32 → Prop) (s : System n) : System n → Prop where
  | moves {blocks : Blocks n} (stage : Stage n)
      (hm : Relation.ReflTransGen (Move P) s.blocks blocks) :
      Shape P s ⟨blocks, { s.me with stage := stage }⟩
  | copy {blocks : Blocks n} {bh : Fin n}
      (hm : Relation.ReflTransGen (Move P) s.blocks blocks) (hsound : blocks.Sound)
      (hlock : blocks.cache.b_lock bh = false)
      (hbh : blocks.cache.Carries s.me.dev s.me.block bh) (hcount : 0 < s.me.job.count)
      (hread : (∃ buf written, s.me.job = .write buf written) ∨ blocks.cache.b_uptodate bh = true) :
      Shape P s (copy ⟨blocks, s.me⟩ bh)

theorem Shape.head {blocks : Blocks n} (hm : Relation.ReflTransGen (Move P) s.blocks blocks)
    (h : Shape P { s with blocks := blocks } s') : Shape P s s' := by
  cases h with
  | moves stage hm' => exact .moves stage (hm.trans hm')
  | copy hm' hsound hlock hbh hcount hread =>
      exact .copy (hm.trans hm') hsound hlock hbh hcount hread

/-- The task has the buffer of the current block. -/
structure InHand (dev : UInt16) (pos total : Nat) (s : System n) (bh : Fin n) : Prop where
  sound : s.blocks.Sound
  counted : Counted s.blocks.cache (one bh)
  place : Place dev pos total s.me
  count : 0 < s.me.job.count
  carries : s.blocks.cache.Carries s.me.dev s.me.block bh

theorem InHand.copied (h : InHand dev pos total s bh) (hlen : pos + total < 0x100000000) :
    Steady dev pos total (copy s bh) := by
  have hstage : (copy s bh).me.stage = .release bh := (copy_blocks_pos s bh).2.2.2.2.1
  have hplace := h.place.copy h.count hlen bh
  refine ⟨?_, ?_, hplace, ?_, ?_, ?_⟩
  · obtain ⟨hc, hb, hl⟩ := h.sound
    cases hj : s.me.job with
    | write buf written =>
        simp only [copy, hj]
        exact ⟨hc.flags _ _ _ _, hb, hl.making, hl.lock, hl.tags, hl.nodup, hl.apart⟩
    | read count buf =>
        simp only [copy, hj]
        exact h.sound
  · rw [hstage]
    cases hj : s.me.job with
    | write buf written =>
        simp only [copy, hj]
        exact h.counted
    | read count buf =>
        simp only [copy, hj]
        exact h.counted
  · rw [StageOk, hstage]
    trivial
  · rw [hstage]
    exact nofun
  · rw [hstage]
    exact nofun

theorem holds_find (dev : UInt16) (block : UInt32) (bh : Fin n) (more : List UInt32) :
    Stage.holds (.getblk (.find true dev block) (.ahead bh more)) = one bh := by
  funext b
  simp [Stage.holds, pcHolds, Use.holds, Buffer.Pc.holding, one]

theorem InHand.ahead (h : InHand dev pos total s bh) (hready : s.blocks.Ready bh)
    {more : List UInt32} (hmore : ∀ b ∈ more, b.toNat < 0x80000000) :
    Steady dev pos total (readMore s bh more) ∧ Shape P s (readMore s bh more) := by
  cases more with
  | nil =>
      refine ⟨⟨h.sound, h.counted, h.place.stage _, h.count, ?_, ?_⟩, .moves _ .refl⟩
      · rintro b ⟨rfl⟩
        exact h.carries
      · rintro b ⟨rfl⟩
        exact hready
  | cons block more =>
      refine ⟨⟨h.sound, ?_, h.place.stage _, ⟨h.count, nofun, block, ?_, ⟨rfl, rfl, rfl⟩, ?_⟩,
        ?_, ?_⟩, .moves _ .refl⟩
      · show Counted _ (Stage.holds (.getblk (.find true s.me.dev block) (.ahead bh more)))
        rw [holds_find]
        exact h.counted
      · exact hmore block (List.mem_cons_self ..)
      · exact fun b hb => hmore b (List.mem_cons_of_mem _ hb)
      · rintro b ⟨rfl⟩
        exact h.carries
      · rintro b ⟨rfl⟩
        exact hready

theorem InHand.toLock (h : InHand dev pos total s bh) :
    Steady dev pos total (s.goto (.lock bh)) := by
  refine ⟨h.sound, h.counted, h.place.stage _, h.count, ?_, nofun⟩
  rintro b ⟨rfl⟩
  exact h.carries

theorem InHand.toSlot (h : InHand dev pos total s bh) (hready : s.blocks.Ready bh) :
    Steady dev pos total (s.goto (.slot bh)) := by
  refine ⟨h.sound, h.counted, h.place.stage _, h.count, ?_, ?_⟩
  · rintro b ⟨rfl⟩
    exact h.carries
  · rintro b ⟨rfl⟩
    exact hready

/-- Reading ahead never asks for a buffer that is locked or up to date. -/
theorem readAhead_of_ready {b : Blocks n} (hs : b.Sound) (h : b.Ready bh) : b.readAhead bh = b := by
  unfold readAhead
  split
  · rcases h with hlock | hup
    · simp [lockRequest, hlock]
    · by_cases hlock : b.cache.b_lock bh = true
      · simp [lockRequest, hlock]
      · have hl : b.lockRequest (major (b.cache.b_dev bh)) .read bh = some b := by
          simp [lockRequest, hlock, hup]
        have hnone := (hs.locked.not_locked (by simpa using hlock)).1
        simp [hl, fillRequest, hnone]
  · rfl

theorem returned_steady {block : UInt32} (use : Use n) (hlen : pos + total < 0x100000000)
    (hsound : s.blocks.Sound) (hcounted : Counted s.blocks.cache fun b => one bh b + use.holds b)
    (hplace : Place dev pos total s.me) (hcount : 0 < s.me.job.count)
    (hlock : s.blocks.cache.b_lock bh = false) (hbh : s.blocks.cache.Carries s.me.dev block bh)
    (hwhole : use = .whole → ∃ buf written, s.me.job = .write buf written)
    (huse : match use with
      | .whole | .first => block = s.me.block
      | .ahead b more => (∀ b ∈ more, b.toNat < 0x80000000) ∧
          s.blocks.cache.Carries s.me.dev s.me.block b ∧ s.blocks.Ready b) :
    Steady dev pos total (returned s bh use) ∧ Shape P s (returned s bh use) := by
  cases use with
  | whole =>
      obtain rfl : block = s.me.block := huse
      have hin : InHand dev pos total s bh := ⟨hsound, hcounted, hplace, hcount, hbh⟩
      exact ⟨hin.copied hlen, .copy .refl hsound hlock hbh hcount (.inl (hwhole rfl))⟩
  | first =>
      obtain rfl : block = s.me.block := huse
      have hin : InHand dev pos total s bh := ⟨hsound, hcounted, hplace, hcount, hbh⟩
      rw [returned]
      split
      · next hup => exact hin.ahead (.inr hup) (hplace.block_lt hcount hlen).2
      · exact ⟨hin.toLock, .moves _ .refl⟩
  | ahead b more =>
      obtain ⟨hmore, hb, hready⟩ := huse
      have hblocks : (if s.blocks.cache.b_uptodate bh then s.blocks else s.blocks.readAhead b) =
          s.blocks := by
        split
        · rfl
        · exact readAhead_of_ready hsound hready
      rw [returned, hblocks]
      have hmove : Move P s.blocks (setCount s.blocks bh (s.blocks.cache.b_count bh - 1)) :=
        .count _ _
      have hin : InHand dev pos total
          { s with blocks := setCount s.blocks bh (s.blocks.cache.b_count bh - 1) } b :=
        ⟨hsound.move (P := P) hmove, hcounted.down, hplace, hcount, hb⟩
      obtain ⟨hsteady, hshape⟩ := hin.ahead (P := P) hready hmore
      exact ⟨hsteady, hshape.head (.single hmove)⟩

theorem hand_getblk (pc pc' : Buffer.Pc n) (use : Use n) :
    Stage.hand (.getblk pc use) = Stage.hand (.getblk pc' use) ∧
      Stage.asked (.getblk pc use) = Stage.asked (.getblk pc' use) := by
  cases use <;> exact ⟨rfl, rfl⟩

theorem use_holds_le (use : Use n) (bh : Fin n) : use.holds bh ≤ 1 := by
  cases use with
  | whole => exact Nat.zero_le 1
  | first => exact Nat.zero_le 1
  | ahead b more =>
      rw [Use.holds]
      split <;> decide

theorem pcHolds_none {pc : Buffer.Pc n} (h : pc.holding = none) (b : Fin n) :
    pcHolds pc b = 0 := by
  rw [pcHolds, h, if_neg nofun]

theorem pcHolds_found (getblk : Bool) (dev : UInt16) (block : UInt32) (bh b : Fin n) :
    pcHolds (.found getblk dev block bh) b = one bh b := by
  simp [pcHolds, Buffer.Pc.holding, one]

theorem getblk_steady (hlen : pos + total < 0x100000000) (h : Steady dev pos total s)
    {pc : Buffer.Pc n} {use : Use n} (hst : s.me.stage = .getblk pc use)
    (hs : resume s = some s') : Steady dev pos total s' ∧ Shape P s s' := by
  obtain ⟨hsound, hcounted, hplace, hstage, hhand, hasked⟩ := h
  rw [StageOk, hst] at hstage
  rw [hst] at hcounted hhand hasked
  obtain ⟨hcount, hwhole, block, hblock, hasks, huse⟩ := hstage
  simp only [resume, hst] at hs
  obtain ⟨⟨pc', cache⟩, hres, hs⟩ := Option.bind_eq_some_iff.mp hs
  have hcounted : Counted s.blocks.cache fun b => pcHolds pc b + use.holds b := hcounted
  -- a step inside `getblk` is a move of the buffers and a new place in the code
  have hinside : ∀ {pc' : Buffer.Pc n} (cache : Buffers n),
      pc'.Asks s.me.dev block → Move P s.blocks { s.blocks with cache := cache } →
      (Counted cache fun b => pcHolds pc' b + use.holds b) →
      (∀ b, s.blocks.cache.Carries s.me.dev s.me.block b → cache.Carries s.me.dev s.me.block b) →
      (∀ b, s.blocks.Ready b → Ready { s.blocks with cache := cache } b) →
      Steady dev pos total (System.goto { s with blocks := { s.blocks with cache := cache } }
        (.getblk pc' use)) ∧ Shape P s (System.goto
          { s with blocks := { s.blocks with cache := cache } } (.getblk pc' use)) := by
    intro pc' cache hasks' hmove hcounted' hcarries hready
    refine ⟨⟨hsound.move hmove, hcounted', hplace.stage _,
      ⟨hcount, hwhole, block, hblock, hasks', huse⟩, ?_, ?_⟩, .moves _ (.single hmove)⟩
    · intro b hb
      exact hcarries b (hhand b ((hand_getblk pc pc' use).1.trans hb))
    · intro b hb
      exact hready b (hasked b ((hand_getblk pc pc' use).2.trans hb))
  -- and so is its end, with the rest of the code up to the next switch
  have hreturn : ∀ (cache : Buffers n) {bh : Fin n},
      Move P s.blocks { s.blocks with cache := cache } →
      (Counted cache fun b => one bh b + use.holds b) → cache.b_lock bh = false →
      cache.Carries s.me.dev block bh →
      (∀ b, s.me.stage.hand = some b → cache.Carries s.me.dev s.me.block b) →
      (∀ b, s.me.stage.asked = some b → Ready { s.blocks with cache := cache } b) →
      Steady dev pos total (returned { s with blocks := { s.blocks with cache := cache } } bh use) ∧
        Shape P s (returned { s with blocks := { s.blocks with cache := cache } } bh use) := by
    intro cache bh hmove hcounted' hlock hbh hcarries hready
    obtain ⟨hsteady, hshape⟩ := returned_steady (P := P)
      (s := { s with blocks := { s.blocks with cache := cache } }) use hlen
      (hsound.move hmove) hcounted' hplace hcount hlock hbh hwhole (by
        cases use with
        | whole => exact huse
        | first => exact huse
        | ahead b more =>
            exact ⟨huse, hcarries b (by rw [hst]; rfl), hready b (by rw [hst]; rfl)⟩)
    exact ⟨hsteady, hshape.head (.single hmove)⟩
  cases Buffer.getblkStep_of_resume hasks hres with
  | hold hpc =>
      obtain rfl := Option.some.inj hs
      refine hinside _ ⟨rfl, rfl, rfl⟩ (.count _ _) ?_ (fun _ hc => hc) (fun _ hr => hr)
      simp only [pcHolds_none hpc, Nat.zero_add] at hcounted
      simp only [pcHolds_found]
      exact hcounted.up (use_holds_le use _)
  | move hpc hpc' hasks' =>
      have hs : some (System.goto s (.getblk pc' use)) = some s' := by
        rw [← hs]
        cases pc' with
        | user ret => cases hasks'
        | _ => rfl
      obtain rfl := Option.some.inj hs
      refine hinside s.blocks.cache hasks' (.count _ s.blocks.cache.b_count) ?_
        (fun _ hc => hc) (fun _ hr => hr)
      simp only [pcHolds_none hpc] at hcounted
      simp only [pcHolds_none hpc']
      exact hcounted
  | found hlock hbh =>
      obtain rfl := Option.some.inj hs
      simp only [pcHolds_found] at hcounted
      refine hreturn s.blocks.cache (.count _ s.blocks.cache.b_count) hcounted hlock hbh ?_ ?_
      · rw [hst]
        exact hhand
      · rw [hst]
        exact hasked
  | drop =>
      obtain rfl := Option.some.inj hs
      refine hinside _ ⟨rfl, rfl, rfl⟩ (.count _ _) ?_ (fun _ hc => hc) (fun _ hr => hr)
      simp only [pcHolds_found] at hcounted
      have hnone : ∀ b : Fin n, pcHolds (.find true s.me.dev block) b = 0 := pcHolds_none rfl
      simp only [hnone, Nat.zero_add]
      exact hcounted.down
  | take hpc hlock hzero hdirt hfind htake =>
      rename_i b
      obtain rfl := Option.some.inj hs
      obtain ⟨c, hc, htaken, -⟩ := hsound.cache.take hfind b
      obtain rfl := Option.some.inj (htake.symm.trans hc)
      have hmove : Move P s.blocks { s.blocks with cache := cache } :=
        .take hlock hzero hdirt hblock hfind htake
      simp only [pcHolds_none hpc, Nat.zero_add] at hcounted
      -- the buffer in the hand is held and so not the one taken
      have hne : ∀ b', (Stage.getblk pc use).hand = some b' ∨
          (Stage.getblk pc use).asked = some b' → b' ≠ b := by
        intro b' hb'
        have hhold : use.holds b' = 1 := by
          cases use with
          | whole => rcases hb' with hb' | hb' <;> cases hb'
          | first => rcases hb' with hb' | hb' <;> cases hb'
          | ahead b₀ more =>
              have hb₀ : b₀ = b' := by
                rcases hb' with hb' | hb' <;> exact Option.some.inj hb'
              exact if_pos hb₀
        rintro rfl
        exact hcounted.ne_zero (by rw [hhold]; exact Nat.one_pos) hzero
      refine hreturn _ hmove (hcounted.taken hzero htaken) ?_ ?_ ?_ ?_
      · rw [htaken.b_lock]
        exact hlock
      · rw [Carries, htaken.b_dev, htaken.b_blocknr]
        exact ⟨update_self .., update_self ..⟩
      · intro b' hb'
        rw [hst] at hb'
        have hb := hne b' (.inl hb')
        rw [Carries, htaken.b_dev, htaken.b_blocknr, update_of_ne hb, update_of_ne hb]
        exact hhand b' hb'
      · intro b' hb'
        rw [hst] at hb'
        have hb := hne b' (.inr hb')
        rw [Ready, htaken.b_lock, htaken.b_uptodate, update_of_ne hb]
        exact hasked b' hb'

theorem me_steady (hlen : pos + total < 0x100000000) (hdriver : hasDriver dev = true)
    (h : Steady dev pos total s)
    (hw : WrittenBack P s .me) (hs : resume s = some s') :
    Steady dev pos total s' ∧ Shape P s s' := by
  have ⟨hsound, hcounted, hplace, hstage, hhand, hasked⟩ := h
  rw [StageOk] at hstage
  cases hst : s.me.stage with
  | top =>
      rw [hst] at hcounted
      simp only [resume, hst] at hs
      split at hs
      · next hzero =>
        obtain rfl := Option.some.inj hs
        exact ⟨⟨hsound, hcounted, hplace.stage _, ⟨hzero, rfl⟩, nofun, nofun⟩, .moves _ .refl⟩
      · next hzero =>
        obtain rfl := Option.some.inj hs
        have hcount := Nat.pos_of_ne_zero hzero
        generalize huse : (match s.me.job with
          | .write _ _ => if s.me.chars = BLOCK_SIZE then Use.whole else Use.first
          | .read _ _ => Use.first) = use
        have hcases : (use = .whole ∧ ∃ buf written, s.me.job = .write buf written) ∨
            use = (.first : Use n) := by
          cases hj : s.me.job with
          | read count buf => exact Or.inr (by rw [← huse, hj])
          | write buf written =>
              rw [hj] at huse
              dsimp only at huse
              split at huse
              · exact Or.inl ⟨huse.symm, buf, written, rfl⟩
              · exact Or.inr huse.symm
        have hblock := (hplace.block_lt hcount hlen).1
        refine ⟨⟨hsound, ?_, hplace.stage _, ⟨hcount, ?_, s.me.block, hblock, ⟨rfl, rfl, rfl⟩, ?_⟩,
          ?_, ?_⟩, .moves _ .refl⟩
        · rcases hcases with ⟨rfl, -⟩ | rfl <;> exact hcounted
        · rintro rfl
          rcases hcases with ⟨-, hj⟩ | hfirst
          · exact hj
          · cases hfirst
        · rcases hcases with ⟨rfl, -⟩ | rfl <;> rfl
        · rcases hcases with ⟨rfl, -⟩ | rfl <;> exact nofun
        · rcases hcases with ⟨rfl, -⟩ | rfl <;> exact nofun
  | getblk pc use => exact getblk_steady hlen h hst hs
  | lock bh =>
      rw [hst] at hcounted hhand
      simp only [hst] at hstage
      have hin : InHand dev pos total s bh := ⟨hsound, hcounted, hplace, hstage, hhand bh rfl⟩
      simp only [resume, hst] at hs
      rw [if_pos (by rw [hin.carries.1, hplace.dev]; exact hdriver)] at hs
      obtain ⟨blocks, hl, rfl⟩ := Option.map_eq_some_iff.mp hs
      have hread : Readable P s bh := hw bh (by rw [hst]; rfl)
      have hmove : Move P s.blocks blocks := .lockRequest (fun _ => hread) hl
      have hin' : InHand dev pos total { s with blocks := blocks } bh ∧ blocks.Ready bh := by
        rcases lockRequest_cases hl with ⟨rfl, hup⟩ | ⟨-, -, -, rfl⟩
        · exact ⟨hin, .inr (hup rfl)⟩
        · exact ⟨⟨hsound.move hmove, hin.counted, hin.place, hin.count, hin.carries⟩,
            .inl (update_self ..)⟩
      exact ⟨hin'.1.toSlot hin'.2, .moves _ (.single hmove)⟩
  | slot bh =>
      rw [hst] at hcounted hhand hasked
      simp only [hst] at hstage
      have hin : InHand dev pos total s bh := ⟨hsound, hcounted, hplace, hstage, hhand bh rfl⟩
      simp only [resume, hst] at hs
      split at hs
      · obtain rfl := Option.some.inj hs
        exact hin.ahead (hasked bh rfl) (hplace.block_lt hstage hlen).2
      · cases hs
  | wait bh =>
      rw [hst] at hcounted hhand hasked
      simp only [hst] at hstage
      have hin : InHand dev pos total s bh := ⟨hsound, hcounted, hplace, hstage, hhand bh rfl⟩
      simp only [resume, hst] at hs
      split at hs
      · cases hs
      · next hlock =>
        have hlock : s.blocks.cache.b_lock bh = false := by simpa using hlock
        have hup : s.blocks.cache.b_uptodate bh = true := by
          rcases hasked bh rfl with hl | hup
          · rw [hlock] at hl
            cases hl
          · exact hup
        rw [if_pos hup] at hs
        obtain rfl := Option.some.inj hs
        exact ⟨hin.copied hlen, .copy .refl hsound hlock hin.carries hstage (.inr hup)⟩
  | release bh =>
      rw [hst] at hcounted
      simp only [resume, hst] at hs
      split at hs
      · cases hs
      · split at hs
        · cases hs
        · obtain rfl := Option.some.inj hs
          have hmove : Move P s.blocks (setCount s.blocks bh (s.blocks.cache.b_count bh - 1)) :=
            .count _ _
          have hcounted : Counted s.blocks.cache fun b => one bh b + (fun _ => 0) b := hcounted
          exact ⟨⟨hsound.move hmove, hcounted.down, hplace.stage _, trivial, nofun, nofun⟩,
            .moves _ (.single hmove)⟩
  | done ret =>
      simp only [resume, hst] at hs
      cases hs

/-! ## A step of the others -/

theorem Stage.holds_hand {stage : Stage n} (h : stage.hand = some bh) : 0 < stage.holds bh := by
  cases stage with
  | getblk pc use =>
      cases use with
      | ahead b more =>
          obtain rfl : b = bh := Option.some.inj h
          simp [Stage.holds, Use.holds]
      | _ => cases h
  | lock b | slot b | wait b =>
      obtain rfl : b = bh := Option.some.inj h
      simp [Stage.holds]
  | _ => cases h

theorem Stage.hand_of_asked {stage : Stage n} (h : stage.asked = some bh) :
    stage.hand = some bh := by
  cases stage with
  | getblk pc use => cases use <;> exact h
  | slot b | wait b => exact h
  | _ => cases h

theorem StageOk.count (h : StageOk s.me) (hbh : s.me.stage.hand = some bh) :
    0 < s.me.job.count := by
  rw [StageOk] at h
  cases hst : s.me.stage with
  | getblk pc use =>
      rw [hst] at h
      exact h.1
  | lock b | slot b | wait b =>
      rw [hst] at h
      exact h
  | _ =>
      rw [hst] at hbh
      cases hbh

/-- The task keeps its buffer through a move of the others. -/
theorem Steady.move {blocks : Blocks n} (h : Steady dev pos total s)
    (hP : 0 < s.me.job.count → P s.me.dev s.me.block) (hm : Move P s.blocks blocks)
    (hcounted : Counted blocks.cache s.me.stage.holds) :
    Steady dev pos total { s with blocks := blocks } := by
  have hused : ∀ bh, s.me.stage.hand = some bh → s.blocks.cache.b_count bh ≠ 0 := fun bh hbh =>
    h.counted.ne_zero (Stage.holds_hand hbh)
  refine ⟨h.sound.move hm, hcounted, h.place, h.stage, ?_, ?_⟩
  · intro bh hbh
    obtain ⟨hd, hb⟩ := hm.tags h.sound (hused bh hbh)
    obtain ⟨hcd, hcb⟩ := h.hand bh hbh
    exact ⟨hd.trans hcd, hb.trans hcb⟩
  · intro bh hbh
    have hhand := Stage.hand_of_asked hbh
    obtain ⟨hcd, hcb⟩ := h.hand bh hhand
    refine hm.ready h.sound (hused bh hhand) ?_ (h.asked bh hbh)
    rw [hcd, hcb]
    exact hP (h.stage.count hhand)

/-- A step of the others is a move that leaves the holds of the task alone. -/
theorem other_move {a : Act n} (hcounted : Counted s.blocks.cache s.me.stage.holds)
    (hsound : s.blocks.Sound) (ha : a ≠ .me) (hq : Undisturbed P s a) (hw : WrittenBack P s a)
    (hs : step s a = some s') :
    ∃ blocks, s' = { s with blocks := blocks } ∧ Move P s.blocks blocks ∧
      Counted blocks.cache s.me.stage.holds := by
  cases a with
  | me => exact absurd rfl ha
  | hold bh =>
      obtain ⟨hlt, hs⟩ := Option.ite_none_right_eq_some.mp hs
      obtain rfl := Option.some.inj hs
      refine ⟨_, rfl, .count _ _, fun b => ?_⟩
      obtain ⟨h₁, h₂⟩ := hcounted b
      dsimp only [setCount]
      rw [MAX_HOLDS] at hlt h₂ ⊢
      by_cases hb : b = bh
      · rw [hb] at h₁ h₂ ⊢
        rw [update_self, toNat_up (by omega)]
        omega
      · rw [update_of_ne hb]
        exact ⟨h₁, h₂⟩
  | release bh =>
      obtain ⟨hlt, hs⟩ := Option.ite_none_right_eq_some.mp hs
      obtain rfl := Option.some.inj hs
      refine ⟨_, rfl, .count _ _, fun b => ?_⟩
      obtain ⟨h₁, h₂⟩ := hcounted b
      dsimp only [setCount]
      by_cases hb : b = bh
      · rw [hb] at h₁ h₂ ⊢
        rw [update_self, toNat_down (by omega)]
        omega
      · rw [update_of_ne hb]
        exact ⟨h₁, h₂⟩
  | take dev block bh =>
      obtain ⟨⟨hblock, hlock, hzero, hdirt, hfind⟩, hs⟩ := Option.ite_none_right_eq_some.mp hs
      obtain ⟨c, htake, rfl⟩ := Option.map_eq_some_iff.mp hs
      refine ⟨_, rfl, .take hlock hzero hdirt hblock hfind htake, fun b => ?_⟩
      obtain ⟨c', hc', htaken, -⟩ := hsound.cache.take hfind bh
      obtain rfl := Option.some.inj (htake.symm.trans hc')
      obtain ⟨h₁, h₂⟩ := hcounted b
      dsimp only
      rw [htaken.b_count]
      by_cases hb : b = bh
      · rw [hb] at h₁ h₂ ⊢
        rw [hzero] at h₁
        rw [update_self, Nat.le_zero.mp h₁]
        decide
      · rw [update_of_ne hb]
        exact ⟨h₁, h₂⟩
  | lockRequest m rw bh =>
      obtain ⟨blocks, hl, rfl⟩ := Option.map_eq_some_iff.mp hs
      refine ⟨blocks, rfl, .lockRequest ?_ hl, ?_⟩
      · rintro rfl
        exact hw
      · rcases lockRequest_cases hl with ⟨rfl, -⟩ | ⟨-, -, -, rfl⟩ <;> exact hcounted
  | fillRequest bh =>
      obtain ⟨blocks, hf, rfl⟩ := Option.map_eq_some_iff.mp hs
      refine ⟨blocks, rfl, .fillRequest hf, ?_⟩
      obtain ⟨m, rw, slot, hm, rfl⟩ := fillRequest_cases hf
      exact hcounted
  | serveRequest m uptodate =>
      obtain ⟨blocks, hsv, rfl⟩ := Option.map_eq_some_iff.mp hs
      refine ⟨blocks, rfl, .serveRequest hq hsv, ?_⟩
      obtain ⟨r, rest, hqueue, rfl⟩ := serveRequest_cases hsv
      exact hcounted
  | touch bh data uptodate dirt =>
      obtain rfl := Option.some.inj hs
      exact ⟨_, rfl, .touch _ data uptodate dirt hq, hcounted⟩

/-- Every step, of the task or of the others. -/
theorem step_steady {a : Act n} (hlen : pos + total < 0x100000000) (hdriver : hasDriver dev = true)
    (h : Steady dev pos total s) (hq : Undisturbed (InRange dev pos total) s a)
    (hw : WrittenBack (InRange dev pos total) s a) (hs : step s a = some s') :
    Steady dev pos total s' ∧ Shape (InRange dev pos total) s s' := by
  by_cases ha : a = .me
  · subst ha
    exact me_steady hlen hdriver h hw hs
  · obtain ⟨blocks, rfl, hm, hcounted⟩ := other_move h.counted h.sound ha hq hw hs
    exact ⟨h.move (fun hcount => h.place.inRange hcount) hm hcounted, .moves _ (.single hm)⟩

/-! ## The bytes -/

theorem hasDriver_ne (h : hasDriver dev = true) : dev ≠ 0 := by
  rintro rfl
  exact absurd h (by decide)

/-- Each of the bytes from `pos` on is where every way to read it leads. -/
def Kept (b : Blocks n) (dev : UInt16) (pos : Nat) (bytes : List UInt8) : Prop :=
  ∀ i (hi : i < bytes.length) (block : UInt32), block.toNat = (pos + i) / BLOCK_SIZE →
    ∃ v, b.Holds dev block v ∧ v ((pos + i) % BLOCK_SIZE) = bytes[i]

theorem Kept.moves {b b' : Blocks n} {bytes : List UInt8} (h : Kept b dev pos bytes)
    (hsound : b.Sound) (hlen : pos + total < 0x100000000) (hbytes : bytes.length ≤ total)
    (hdev : dev ≠ 0) (hm : Relation.ReflTransGen (Move (InRange dev pos total)) b b') :
    b'.Sound ∧ Kept b' dev pos bytes := by
  induction hm with
  | refl => exact ⟨hsound, h⟩
  | tail _ hmove ih =>
      obtain ⟨hs, hk⟩ := ih
      refine ⟨hs.move hmove, fun i hi block hblock => ?_⟩
      obtain ⟨v, hv, hbyte⟩ := hk i hi block hblock
      have hin : InRange dev pos total dev block := by
        rw [InRange, hblock, BLOCK_SIZE]
        exact ⟨rfl, by omega, by omega⟩
      have hlt : block.toNat < 0x80000000 := by
        rw [hblock, BLOCK_SIZE]
        omega
      exact ⟨v, hv.move hs hdev hlt hin hmove, hbyte⟩

/-- The part of a buffer that the task works on. -/
theorem place_byte {block offset at_ chars j : Nat} (h : block * 1024 + offset = at_)
    (hchars : chars ≤ 1024 - offset) (hj : j < chars) :
    (at_ + j) / 1024 = block ∧ (at_ + j) % 1024 = offset + j := by
  omega

theorem Kept.copy_write {b : Blocks n} {buf : List UInt8} {k chars offset : Nat} {block : UInt32}
    (h : Kept b dev pos (buf.take k)) (hsound : b.Sound) (hdev : dev ≠ 0)
    (hlock : b.cache.b_lock bh = false) (hbh : b.cache.Carries dev block bh)
    (hk : k = 0 ∨ offset = 0) (hplace : block.toNat * 1024 + offset = pos + k)
    (hchars : chars ≤ 1024 - offset) (hle : k + chars ≤ buf.length) :
    Kept { b with
      cache := { b.cache with b_dirt := update b.cache.b_dirt bh true }
      b_data := update b.b_data bh
        (storeBytes (b.b_data bh) offset ((buf.drop k).take chars)) } dev pos
      (buf.take (k + chars)) := by
  intro i hi block' hblock'
  rw [List.length_take, Nat.min_eq_left hle] at hi
  rw [BLOCK_SIZE] at hblock' ⊢
  by_cases hik : i < k
  · -- the byte is in an earlier block
    have hne : block' ≠ block := by
      rintro rfl
      rcases hk with rfl | rfl
      · omega
      · omega
    have hi' : i < (buf.take k).length := by
      rw [List.length_take]
      omega
    obtain ⟨v, hv, hbyte⟩ := h i hi' block' hblock'
    refine ⟨v, ?_, ?_⟩
    · have hnot : ¬ b.cache.Carries dev block' bh := by
        rintro ⟨-, hb⟩
        exact hne (hb.symm.trans hbh.2)
      have ht := hv.touch hnot (storeBytes (b.b_data bh) offset ((buf.drop k).take chars))
        (b.cache.b_uptodate bh) true
      rw [update_eq_self] at ht
      exact ht
    · rw [BLOCK_SIZE] at hbyte
      rw [hbyte, List.getElem_take, List.getElem_take]
  · obtain ⟨j, rfl⟩ := Nat.exists_eq_add_of_le (Nat.le_of_not_lt hik)
    have hj : j < chars := by omega
    obtain ⟨hdiv, hmod⟩ := place_byte hplace hchars hj
    rw [← Nat.add_assoc] at hblock' ⊢
    obtain rfl : block' = block := UInt32.toNat_inj.mp (hblock'.trans hdiv)
    refine ⟨_, Holds.store hsound hdev hlock hbh _, ?_⟩
    have hlen : j < ((buf.drop k).take chars).length := by
      rw [List.length_take, List.length_drop]
      omega
    rw [hmod, storeBytes, if_pos (Nat.le_add_right ..), Nat.add_sub_cancel_left,
      List.getD_eq_getElem?_getD, List.getElem?_eq_getElem hlen, Option.getD_some,
      List.getElem_take, List.getElem_take, List.getElem_drop]

theorem loadBytes_kept {b : Blocks n} {buf : List UInt8} {k chars offset : Nat} {block : UInt32}
    (h : Kept b dev pos buf) (hbh : b.cache.Carries dev block bh)
    (hup : b.cache.b_uptodate bh = true) (hplace : block.toNat * 1024 + offset = pos + k)
    (hchars : chars ≤ 1024 - offset) (hle : k + chars ≤ buf.length) :
    loadBytes (b.b_data bh) offset chars = (buf.drop k).take chars := by
  refine List.ext_getElem ?_ fun j hj hj' => ?_
  · rw [loadBytes, List.length_map, List.length_range, List.length_take, List.length_drop]
    omega
  · rw [loadBytes, List.length_map, List.length_range] at hj
    obtain ⟨hdiv, hmod⟩ := place_byte hplace hchars hj
    obtain ⟨v, hv, hbyte⟩ := h (k + j) (by omega) block (by rw [BLOCK_SIZE, ← hdiv, Nat.add_assoc])
    rw [BLOCK_SIZE, ← Nat.add_assoc, hmod, ← hv.buffer bh hbh (.inl hup)] at hbyte
    simp [loadBytes, hbyte]

/-! ## Writing, then reading -/

/-- While `block_write` runs: the bytes written so far are there. -/
structure Writes (dev : UInt16) (pos : Nat) (buf : List UInt8) (s : System n) : Prop where
  steady : Steady dev pos buf.length s
  kept : ∃ k ≤ buf.length, s.me.job = .write (buf.drop k) k ∧ (k = 0 ∨ s.me.offset = 0) ∧
    Kept s.blocks dev pos (buf.take k)

/-- While `block_read` runs: all bytes are there, and those read so far are the first of them. -/
structure Reads (dev : UInt16) (pos : Nat) (buf : List UInt8) (s : System n) : Prop where
  steady : Steady dev pos buf.length s
  kept : Kept s.blocks dev pos buf
  read : ∃ k ≤ buf.length, s.me.job = .read (buf.length - k) (buf.take k)

variable {buf : List UInt8} {a : Act n}

/-- The bytes that the task is about to copy, `k` bytes behind the start. -/
theorem Place.chunk {k : Nat} (h : Place dev pos total s.me) (hcount : 0 < s.me.job.count)
    (hrest : s.me.job.count = total - k) (hk : k ≤ total) :
    s.me.block.toNat * 1024 + s.me.offset = pos + k ∧ s.me.chars ≤ 1024 - s.me.offset ∧
      k + s.me.chars ≤ total := by
  have hblock := h.block hcount
  have hsum := h.sum
  have hchars : s.me.chars = min (1024 - s.me.offset) s.me.job.count := rfl
  rw [BLOCK_SIZE] at hblock
  refine ⟨?_, ?_, ?_⟩ <;> omega

theorem Writes.step (hlen : pos + buf.length < 0x100000000) (hdriver : hasDriver dev = true)
    (h : Writes dev pos buf s) (hq : Undisturbed (InRange dev pos buf.length) s a)
    (hw : WrittenBack (InRange dev pos buf.length) s a) (hs : step s a = some s') :
    Writes dev pos buf s' := by
  obtain ⟨hsteady', hshape⟩ := step_steady hlen hdriver h.steady hq hw hs
  refine ⟨hsteady', ?_⟩
  have hdev := hasDriver_ne hdriver
  obtain ⟨k, hk, hjob, hoff, hkept⟩ := h.kept
  have hbytes : (buf.take k).length ≤ buf.length := List.length_take_le' ..
  cases hshape with
  | moves stage hm => exact ⟨k, hk, hjob, hoff, (hkept.moves h.steady.sound hlen hbytes hdev hm).2⟩
  | copy hm hsound hlock hbh hcount hread =>
      rename_i blocks bh
      have hkept := (hkept.moves h.steady.sound hlen hbytes hdev hm).2
      obtain ⟨hat, hchars, hle⟩ := h.steady.place.chunk (k := k) hcount
        (by rw [hjob, Job.count, List.length_drop]) hk
      refine ⟨k + s.me.chars, hle, ?_, .inr ?_, ?_⟩
      · simp only [copy, hjob, List.drop_drop]
      · simp only [copy, hjob]
      · have hcopy := hkept.copy_write hsound hdev hlock
          (by rw [← h.steady.place.dev]; exact hbh) hoff hat hchars hle
        simp only [copy, hjob]
        exact hcopy

theorem Reads.step (hlen : pos + buf.length < 0x100000000) (hdriver : hasDriver dev = true)
    (h : Reads dev pos buf s) (hq : Undisturbed (InRange dev pos buf.length) s a)
    (hw : WrittenBack (InRange dev pos buf.length) s a) (hs : step s a = some s') :
    Reads dev pos buf s' := by
  obtain ⟨hsteady', hshape⟩ := step_steady hlen hdriver h.steady hq hw hs
  have hdev := hasDriver_ne hdriver
  obtain ⟨k, hk, hjob⟩ := h.read
  cases hshape with
  | moves stage hm =>
      exact ⟨hsteady', (h.kept.moves h.steady.sound hlen (Nat.le_refl _) hdev hm).2, k, hk, hjob⟩
  | copy hm hsound hlock hbh hcount hread =>
      rename_i blocks bh
      have hkept := (h.kept.moves h.steady.sound hlen (Nat.le_refl _) hdev hm).2
      have hup : blocks.cache.b_uptodate bh = true := by
        rcases hread with ⟨b, w, hj⟩ | hup
        · rw [hjob] at hj
          cases hj
        · exact hup
      obtain ⟨hat, hchars, hle⟩ := h.steady.place.chunk (k := k) hcount
        (by rw [hjob, Job.count]) hk
      have hload := loadBytes_kept hkept (by rw [← h.steady.place.dev]; exact hbh) hup hat hchars
        hle
      refine ⟨hsteady', ?_, k + s.me.chars, hle, ?_⟩
      · simp only [copy, hjob]
        exact hkept
      · simp only [copy, hjob]
        rw [List.take_add, ← hload, Nat.sub_sub]

/-- For the bytes from `pos` on: nobody else writes them and no request for them fails, and none of
their blocks is read from the device while its buffer is newer. -/
def Fair (dev : UInt16) (pos count : Nat) (s : System n) (a : Act n) : Prop :=
  Undisturbed (InRange dev pos count) s a ∧ WrittenBack (InRange dev pos count) s a

theorem boot_steady (hn : 0 < n) (b_blocknr : Fin n → UInt32) (b_data : Fin n → Block)
    (disk : UInt16 → UInt32 → Block) : Steady 0 0 0 (boot hn b_blocknr b_data disk) := by
  refine ⟨⟨consistent_bufferInit hn b_blocknr, fun bh h => absurd rfl h,
    ⟨nofun, nofun, nofun, fun _ => List.nodup_nil, nofun⟩⟩, ?_,
    ⟨rfl, Nat.le_refl 0, rfl, ?_, nofun⟩,
    ⟨rfl, rfl⟩, nofun, nofun⟩
  · intro b
    exact ⟨Nat.le_refl 0, Nat.zero_le _⟩
  · show 0 < BLOCK_SIZE
    decide

/-- With no block to leave alone every step is fair. -/
theorem fair_never (s : System n) (a : Act n) :
    Undisturbed (fun _ _ => False) s a ∧ WrittenBack (fun _ _ => False) s a := by
  constructor
  · cases a with
    | serveRequest m uptodate => exact fun r _ h => h.elim
    | touch bh data uptodate dirt => exact fun h => h
    | _ => trivial
  · cases a with
    | me => exact fun bh _ h => h.elim
    | lockRequest m rw bh =>
        cases rw with
        | read => exact fun h => h.elim
        | write => trivial
    | _ => trivial

/-- Before its first call the task does nothing, and the others may do anything. -/
theorem idle_steady {hn : 0 < n} {b_blocknr : Fin n → UInt32} {b_data : Fin n → Block}
    {disk : UInt16 → UInt32 → Block} (h : Reach step Free (boot hn b_blocknr b_data disk) s) :
    Steady 0 0 0 s ∧ s.me.stage = .done 0 := by
  refine h.invariant (I := fun s => Steady 0 0 0 s ∧ s.me.stage = .done 0)
    ⟨boot_steady hn b_blocknr b_data disk, rfl⟩ ?_
  rintro s a s' ⟨hs, hst⟩ - hstep
  have ha : a ≠ .me := by
    rintro rfl
    simp only [step, resume, hst] at hstep
    cases hstep
  obtain ⟨hq, hw⟩ := fair_never s a
  obtain ⟨blocks, rfl, hm, hcounted⟩ := other_move hs.counted hs.sound ha hq hw hstep
  have hcount : ¬ 0 < s.me.job.count := by
    have hok := hs.stage
    rw [StageOk, hst] at hok
    exact hok.1.not_gt
  exact ⟨hs.move (fun hc => (hcount hc).elim) hm hcounted, hst⟩

theorem Steady.call {dev' : UInt16} {pos' total' : Nat} {ret : Int}
    (h : Steady dev' pos' total' s) (hst : s.me.stage = .done ret) (dev : UInt16) (pos : Nat)
    (job : Job) (hlen : pos + job.count < 0x100000000) :
    Steady dev pos job.count (s.call (enter dev pos job)) := by
  have hcounted := h.counted
  rw [hst] at hcounted
  refine ⟨h.sound, hcounted, ⟨rfl, Nat.le_refl _, rfl, Nat.mod_lt _ (by decide), fun _ => ?_⟩,
    trivial, nofun, nofun⟩
  have hlt : pos / BLOCK_SIZE < 0x100000000 :=
    Nat.lt_of_le_of_lt (Nat.div_le_self ..) (Nat.lt_of_le_of_lt (Nat.le_add_right ..) hlen)
  show (UInt32.ofNat (pos / BLOCK_SIZE)).toNat * BLOCK_SIZE + pos % BLOCK_SIZE = pos
  rw [UInt32.toNat_ofNat_of_lt' hlt]
  exact Nat.div_add_mod' ..

theorem Writes.complete {ret : Int} (h : Writes dev pos buf s) (hst : s.me.stage = .done ret) :
    Kept s.blocks dev pos buf := by
  obtain ⟨k, hk, hjob, -, hkept⟩ := h.kept
  have hstage := h.steady.stage
  rw [StageOk, hst] at hstage
  have hcount := hstage.1
  rw [hjob, Job.count, List.length_drop] at hcount
  obtain rfl : k = buf.length := by omega
  rwa [List.take_length] at hkept

theorem done_stays {ret : Int} (h : Steady dev pos total s) (hst : s.me.stage = .done ret)
    (hq : Undisturbed P s a) (hw : WrittenBack P s a) (hs : step s a = some s') :
    s'.me = s.me := by
  have ha : a ≠ .me := by
    rintro rfl
    simp only [BlockDev.step, resume, hst] at hs
    cases hs
  obtain ⟨blocks, rfl, -, -⟩ := other_move h.counted h.sound ha hq hw hs
  rfl

/-- From any state of the buffers that a run reaches: `block_write` writes the bytes,
the rest of the kernel does what it likes except write them, `block_read` reads the same
range. It returns just these bytes, when no request for their blocks fails and no block
of the range is read from the device over a dirty buffer: the bytes are then in the
buffers, or on the device once they were written back, and every way to read them leads
there. -/
theorem read_your_writes {hn : 0 < n} {b_blocknr : Fin n → UInt32} {b_data : Fin n → Block}
    {disk : UInt16 → UInt32 → Block} {s₀ s₁ s₂ s₃ : System n} {ret : Int}
    (hdriver : hasDriver dev = true) (hpos : pos < 0x80000000) (hbuf : buf.length < 0x80000000)
    (h₀ : Reach step Free (boot hn b_blocknr b_data disk) s₀)
    (h₁ : Reach step (Fair dev pos buf.length) (s₀.call (blockWrite dev pos buf)) s₁)
    (hwritten : s₁.me.stage = .done buf.length)
    (h₂ : Reach step (Fair dev pos buf.length) s₁ s₂)
    (h₃ : Reach step (Fair dev pos buf.length) (s₂.call (blockRead dev pos buf.length)) s₃)
    (hread : s₃.me.stage = .done ret) :
    ret = buf.length ∧ s₃.me.job = .read 0 buf := by
  have hlen : pos + buf.length < 0x100000000 := by omega
  obtain ⟨hs₀, hst₀⟩ := idle_steady h₀
  have hw : Writes dev pos buf s₁ := by
    refine h₁.invariant (I := Writes dev pos buf) ⟨?_, 0, Nat.zero_le _, rfl, .inl rfl, nofun⟩ ?_
    · exact hs₀.call hst₀ dev pos (.write buf 0) hlen
    · rintro s a s' hs ⟨hq, hwb⟩ hstep
      exact hs.step hlen hdriver hq hwb hstep
  have hidle : Writes dev pos buf s₂ ∧ s₂.me = s₁.me := by
    refine h₂.invariant (I := fun s => Writes dev pos buf s ∧ s.me = s₁.me) ⟨hw, rfl⟩ ?_
    rintro s a s' ⟨hs, hme⟩ ⟨hq, hwb⟩ hstep
    have hdone : s.me.stage = .done buf.length := by rw [hme, hwritten]
    exact ⟨hs.step hlen hdriver hq hwb hstep, (done_stays hs.steady hdone hq hwb hstep).trans hme⟩
  obtain ⟨hw₂, hme₂⟩ := hidle
  have hdone₂ : s₂.me.stage = .done buf.length := by rw [hme₂, hwritten]
  have hcall : Reads dev pos buf (s₂.call (blockRead dev pos buf.length)) :=
    ⟨hw₂.steady.call hdone₂ dev pos (.read buf.length []) hlen, hw₂.complete hdone₂, 0,
      Nat.zero_le _, rfl⟩
  have hr : Reads dev pos buf s₃ := by
    refine h₃.invariant hcall ?_
    rintro s a s' hs ⟨hq, hwb⟩ hstep
    exact hs.step hlen hdriver hq hwb hstep
  obtain ⟨k, hk, hjob⟩ := hr.read
  have hstage := hr.steady.stage
  rw [StageOk, hread] at hstage
  obtain ⟨hcount, rfl⟩ := hstage
  rw [hjob, Job.count] at hcount
  obtain rfl : k = buf.length := by omega
  rw [hjob, List.take_length, Nat.sub_self]
  exact ⟨rfl, rfl⟩

/-! ## Two sessions -/

section Session

instance (dev : UInt16) (pos count : Nat) (s : System n) :
    ∀ a, Decidable (Undisturbed (InRange dev pos count) s a)
  | .touch .. => inferInstanceAs (Decidable (¬ _))
  | .serveRequest m _ =>
      inferInstanceAs (Decidable (∀ r ∈ (s.blocks.current_request m).head?, _ → _ = true))
  | .me | .hold _ | .release _ | .take .. | .lockRequest .. | .fillRequest _ => isTrue trivial

instance (dev : UInt16) (pos count : Nat) (s : System n) (bh : Fin n) :
    Decidable (Readable (InRange dev pos count) s bh) :=
  inferInstanceAs (Decidable (_ → _ = true ∨ _ = false))

instance (dev : UInt16) (pos count : Nat) (s : System n) :
    ∀ a, Decidable (WrittenBack (InRange dev pos count) s a)
  | .me => inferInstanceAs (Decidable (∀ bh ∈ s.me.stage.locking, Readable _ s bh))
  | .lockRequest _ .read bh => inferInstanceAs (Decidable (Readable _ s bh))
  | .lockRequest _ .write _ | .touch .. | .serveRequest .. | .hold _ | .release _ | .take ..
  | .fillRequest _ => isTrue trivial

instance (dev : UInt16) (pos count : Nat) (s : System n) (a : Act n) :
    Decidable (Fair dev pos count s a) := inferInstanceAs (Decidable (_ ∧ _))

/-- What the call has returned. -/
def Stage.ret : Stage n → Option Int
  | .done ret => some ret
  | _ => none

theorem Stage.eq_done {stage : Stage n} {ret : Int} (h : stage.ret = some ret) :
    stage = .done ret := by
  cases stage with
  | done r =>
      obtain rfl := Option.some.inj h
      rfl
  | _ => cases h

def Job.first : Job → Option UInt8
  | .write buf _ | .read _ buf => buf.head?

/-- A block of ones for the first hard disk. -/
def ones : List UInt8 := List.replicate 1024 1

def fresh : System 2 := boot Nat.two_pos (fun _ => 0) (fun _ _ => 0) (fun _ _ _ => 0)

/-- The steps of `block_write` for a whole block that is not cached. -/
def writing : List (Act 2) := List.replicate 5 .me

/-- The steps of `block_read` when the buffer is dirty and not up to date. -/
def rereading : List (Act 2) :=
  [.me, .me, .me, .me, .fillRequest ⟨0, Nat.two_pos⟩, .serveRequest 3 true] ++
    List.replicate 8 .me

/-- The same, after a write-back. -/
def flushing : List (Act 2) :=
  [.lockRequest 3 .write ⟨0, Nat.two_pos⟩, .fillRequest ⟨0, Nat.two_pos⟩,
    .serveRequest 3 true] ++ List.replicate 10 .me

/-- `block_write` of the ones at position 0 and `block_read` of the same range. -/
def session (ok : System 2 → Act 2 → Prop) [∀ s a, Decidable (ok s a)] (rest : List (Act 2)) :
    Option (System 2) :=
  (exec (checked step ok) (fresh.call (blockWrite 0x301 0 ones)) writing).bind fun s₁ =>
    if s₁.me.stage.ret = some 1024 then
      exec (checked step ok) (s₁.call (blockRead 0x301 0 1024)) rest
    else none

theorem read_your_writes_flushed : ∃ s : System 2,
    session (Fair 0x301 0 1024) flushing = some s ∧ s.me.stage.ret = some 1024 ∧
      s.me.job = .read 0 ones := by
  have hrun : ((session (Fair 0x301 0 1024) flushing).any fun s =>
      decide (s.me.stage.ret = some 1024)) = true := by
    decide +kernel
  obtain ⟨s₃, hsession, hret⟩ := (Option.any_eq_true _ _).mp hrun
  obtain ⟨s₁, hs₁, hs₃⟩ := Option.bind_eq_some_iff.mp hsession
  obtain ⟨hdone, hs₃⟩ := Option.ite_none_right_eq_some.mp hs₃
  have hlen : ones.length = 1024 := List.length_replicate ..
  have hbuf : ones.length < 0x80000000 := by rw [hlen]; decide
  exact ⟨s₃, hsession, of_decide_eq_true hret, (read_your_writes (by decide) (by decide) hbuf .start (hlen ▸ exec_checked hs₁)
    (hlen ▸ Stage.eq_done hdone) .start (hlen ▸ exec_checked hs₃)
    (Stage.eq_done (of_decide_eq_true hret))).2⟩

/-- A block that was written whole and read back from the device, which has the old bytes. -/
theorem not_read_your_writes :
    ¬ ∀ {s₀ s₁ s₂ s₃ : System 2} {dev : UInt16} {pos : Nat} {buf : List UInt8} {ret : Int},
      hasDriver dev = true → pos < 0x80000000 → buf.length < 0x80000000 →
      Reach step Free fresh s₀ →
      Reach step (Undisturbed (InRange dev pos buf.length)) (s₀.call (blockWrite dev pos buf)) s₁ →
      s₁.me.stage = .done buf.length →
      Reach step (Undisturbed (InRange dev pos buf.length)) s₁ s₂ →
      Reach step (Undisturbed (InRange dev pos buf.length))
        (s₂.call (blockRead dev pos buf.length)) s₃ →
      s₃.me.stage = .done ret → ret = buf.length ∧ s₃.me.job = .read 0 buf := by
  intro h
  have hrun : ((session (Undisturbed (InRange 0x301 0 1024)) rereading).any fun s =>
      decide (s.me.stage.ret = some 1024 ∧ s.me.job.first = some 0)) = true := by
    decide +kernel
  obtain ⟨s₃, hs₃, hp⟩ := (Option.any_eq_true _ _).mp hrun
  obtain ⟨hret, hfirst⟩ := of_decide_eq_true hp
  obtain ⟨s₁, hs₁, hs₃⟩ := Option.bind_eq_some_iff.mp hs₃
  obtain ⟨hdone, hs₃⟩ := Option.ite_none_right_eq_some.mp hs₃
  have hlen : ones.length = 1024 := List.length_replicate ..
  have hjob := (@h fresh s₁ s₁ s₃ 0x301 0 ones 1024 (by decide) (by decide)
    (by rw [hlen]; decide) .start (hlen ▸ exec_checked hs₁) (hlen ▸ Stage.eq_done hdone) .start
    (hlen ▸ exec_checked hs₃) (Stage.eq_done hret)).2
  rw [hjob] at hfirst
  exact absurd hfirst (by decide)

end Session

end BlockDev

end Linux011
