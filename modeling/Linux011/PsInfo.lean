import Linux011.Runs
import Mathlib.Logic.Function.Basic

/-!
# Reading `/proc/psinfo`

`pro_ps` of `fs/proc.c` under `proc_read`, for any number of open files. The text is
written into `tmpbuf` on the stack of the call at position 0 only, the number of bytes
that are left is the static `p` of all calls. `put_fs_byte` may fault and sleep, so that a
task may be switched in front of every byte.

The text is modelled to the byte: each line has its length because a number is printed with a
fixed width that no `int` exceeds (`length_number`), and what a line leaves behind it in `tmpbuf`
is seen by no later one, since the next line is written where the last one ended. So the text
depends on the tasks only, and not on what was on the stack (`snapshot`).

The readers share `p`, and the invariant is that they take turns. While a first read copies, `p`
is the length of its text, and when it has asked for all of it, it leaves 0; a file that has been
read to the end finds `p` to be 0 and is told so. The condition of the runs asks that first reads
take the whole text, because a file that was given a part of it relies on a `p` that the next
reader changes.
-/

namespace Linux011

open Function Runs

namespace PsInfo

/-! ## The text -/

structure TaskStruct where
  pid : Int32
  state : Int32
  father : Int32
  counter : Int32
  start_time : Int32

def chars (s : String) : List UInt8 := s.toList.map fun c => c.toNat.toUInt8

/-- `number` of `vsprintf.c` for base 10, no precision and the flags `LEFT` and `SIGN`:
the `0` of `%-010d` has no effect. -/
def number (num : Int32) (size : Nat) : List UInt8 :=
  let sign := if num < 0 then chars "-" else []
  let tmp := chars (Nat.repr num.toInt.natAbs)
  sign ++ tmp ++ List.replicate (size - sign.length - tmp.length) 32

def TABLE : Nat := 10
def MAXBUF : Nat := 1024

/-- The length of a line of the table. -/
def LINE : Nat := 5 * TABLE + 1

def header : List UInt8 := chars "pid       state     father    conter    start_time\n"

def line (t : TaskStruct) : List UInt8 :=
  number t.pid TABLE ++ number t.state TABLE ++ number t.father TABLE ++
    number t.counter TABLE ++ number t.start_time TABLE ++ chars "\n"

/-- `sprint` at `tmpbuf + tbuf`, the terminating 0 included. The memory is that from
`tmpbuf` upwards, beyond the end of the array too. -/
def sprint (tmpbuf : Nat → UInt8) (tbuf : Nat) (s : List UInt8) : Nat → UInt8 := fun k =>
  if k < tbuf then tmpbuf k else (s ++ [0]).getD (k - tbuf) (tmpbuf k)

/-- The loop over the tasks; `tbuf` is `tmpbuf + p` throughout. -/
def table (tmpbuf : Nat → UInt8) (p : Nat) : List (Option TaskStruct) → (Nat → UInt8) × Nat
  | [] => (tmpbuf, p)
  | none :: task => table tmpbuf p task
  | some t :: task =>
      let tmpbuf := sprint tmpbuf p (line t)
      let p := p + LINE
      if p + LINE ≥ MAXBUF then (tmpbuf, p) else table tmpbuf p task

/-- The call at position 0: `tmpbuf` and `p` in front of the copying. -/
def fill (task : List (Option TaskStruct)) (stack : Nat → UInt8) : (Nat → UInt8) × Nat :=
  let (tmpbuf, p) := table (sprint stack 0 header) LINE task
  (update tmpbuf (p + 1) 0, p)

/-- What one read with a large enough count returns. -/
def snapshot (task : List (Option TaskStruct)) : List UInt8 :=
  let (tmpbuf, p) := fill task fun _ => 0
  (List.range p).map tmpbuf

theorem length_number (num : Int32) (size : Nat) : size ≤ (number num size).length := by
  simp only [number, List.length_append, List.length_replicate]
  omega

theorem length_line (t : TaskStruct) : LINE ≤ (line t).length := by
  have h := fun num => length_number num TABLE
  have h1 := h t.pid
  have h2 := h t.state
  have h3 := h t.father
  have h4 := h t.counter
  have h5 := h t.start_time
  have hend : (chars "\n").length = 1 := by decide
  simp only [line, List.length_append, hend, LINE]
  omega

theorem length_header : header.length = LINE := by decide

/-- Two memories with the same bytes below `p`. -/
def Agree (m m' : Nat → UInt8) (p : Nat) : Prop := ∀ k < p, m k = m' k

theorem Agree.sprint {m m' : Nat → UInt8} {p : Nat} {s : List UInt8} (h : Agree m m' p)
    (hs : LINE ≤ s.length) : Agree (sprint m p s) (sprint m' p s) (p + LINE) := by
  intro k hk
  unfold PsInfo.sprint
  by_cases hp : k < p
  · rw [if_pos hp, if_pos hp]
    exact h k hp
  · have hlt : k - p < (s ++ [0]).length := by
      rw [List.length_append]
      omega
    rw [if_neg hp, if_neg hp, List.getD_eq_getElem?_getD, List.getD_eq_getElem?_getD,
      List.getElem?_eq_getElem hlt]
    rfl

/-- The text that is returned does not depend on what the stack held. -/
theorem table_agree (task : List (Option TaskStruct)) {m m' : Nat → UInt8} {p : Nat}
    (h : Agree m m' p) : (table m p task).2 = (table m' p task).2 ∧
      Agree (table m p task).1 (table m' p task).1 (table m p task).2 := by
  induction task generalizing m m' p with
  | nil => exact ⟨rfl, h⟩
  | cons t task ih =>
      cases t with
      | none => exact ih h
      | some t =>
          have hrow := h.sprint (length_line t)
          unfold table
          dsimp only
          split
          · exact ⟨rfl, hrow⟩
          · exact ih hrow

theorem fill_agree (task : List (Option TaskStruct)) (stack stack' : Nat → UInt8) :
    (fill task stack).2 = (fill task stack').2 ∧
      Agree (fill task stack).1 (fill task stack').1 (fill task stack).2 := by
  have hheader : Agree (sprint stack 0 header) (sprint stack' 0 header) LINE := by
    have hnone : Agree stack stack' 0 := fun k hk => absurd hk (Nat.not_lt_zero k)
    have h := hnone.sprint (Nat.le_of_eq length_header.symm)
    rwa [Nat.zero_add] at h
  obtain ⟨hp, hmem⟩ := table_agree task hheader
  refine ⟨hp, fun k hk => ?_⟩
  have hk' : k < (table (sprint stack 0 header) LINE task).2 := hk
  have hne : k ≠ (table (sprint stack 0 header) LINE task).2 + 1 := by omega
  have hne' : k ≠ (table (sprint stack' 0 header) LINE task).2 + 1 := hp ▸ hne
  dsimp only [fill]
  rw [update_of_ne hne, update_of_ne hne']
  exact hmem k hk'

theorem length_snapshot (task : List (Option TaskStruct)) (stack : Nat → UInt8) :
    (snapshot task).length = (fill task stack).2 := by
  dsimp only [snapshot]
  rw [List.length_map, List.length_range, (fill_agree task stack _).1]

theorem snapshot_get (task : List (Option TaskStruct)) (stack : Nat → UInt8) {k : Nat}
    (hk : k < (snapshot task).length) :
    (snapshot task)[k]? = some ((fill task stack).1 k) := by
  rw [length_snapshot task stack] at hk
  have hk' : k < (fill task fun _ => 0).2 := (fill_agree task stack _).1 ▸ hk
  dsimp only [snapshot]
  rw [List.getElem?_map, List.getElem?_range hk', Option.map_some,
    (fill_agree task stack fun _ => 0).2 k hk]

/-- The table ends before the buffer does: `tmpbuf[p + 1]` is an element of the array. -/
theorem table_le (task : List (Option TaskStruct)) {m : Nat → UInt8} {p : Nat}
    (h : p + LINE < MAXBUF) (hp : p % LINE = 0) :
    p ≤ (table m p task).2 ∧ (table m p task).2 + 1 < MAXBUF := by
  induction task generalizing m p with
  | nil =>
      dsimp only [table]
      rw [LINE, TABLE] at h
      omega
  | cons t task ih =>
      cases t with
      | none => exact ih h hp
      | some t =>
          unfold table
          dsimp only
          split
          · have hline : LINE = 51 := rfl
            have hmax : MAXBUF = 1024 := rfl
            rw [hline] at hp h
            dsimp only
            omega
          · rename_i hnext
            obtain ⟨h1, h2⟩ := ih (m := sprint m p (line t)) (p := p + LINE) (by omega)
              (by rw [Nat.add_mod_right, hp])
            exact ⟨by omega, h2⟩

theorem snapshot_bounds (task : List (Option TaskStruct)) :
    LINE ≤ (snapshot task).length ∧ (snapshot task).length + 1 < MAXBUF := by
  rw [length_snapshot task fun _ => 0]
  exact table_le task (by decide) (by decide)

/-! ## The readers -/

/-- Where a call is; the loops are entered with at least one byte to copy. -/
inductive Pc where
  | user
  /-- `p > count`: byte `i` of `count` is next -/
  | piece (tmpbuf : Nat → UInt8) (count i : Nat)
  /-- the loop up to `p` -/
  | rest (tmpbuf : Nat → UInt8) (i : Nat)

/-- An open file with the call that reads it. -/
structure File where
  f_pos : Nat
  pc : Pc
  /-- the bytes returned up to the first return of 0 -/
  returned : List UInt8
  /-- the text at the moment of the first read -/
  first : Option (List UInt8)
  /-- a read has returned 0 -/
  ended : Bool

structure State where
  /-- the static variable of `pro_ps` -/
  p : Int
  task : List (Option TaskStruct)
  file : Nat → File

inductive Act where
  /-- the rest of the kernel changes the task table -/
  | schedule (task : List (Option TaskStruct))
  /-- `proc_read` with a positive count, up to the first `put_fs_byte`; `stack` is what
  earlier calls have left where `tmpbuf` lies -/
  | read (r : Nat) (count : Nat) (stack : Nat → UInt8)
  /-- `put_fs_byte` and the test of the loop -/
  | put (r : Nat)

def opened : File := ⟨0, .user, [], none, false⟩

def boot (task : List (Option TaskStruct)) : State := ⟨0, task, fun _ => opened⟩

def State.setFile (s : State) (r : Nat) (p : Int) (f : File) : State :=
  { s with p := p, file := update s.file r f }

/-- A read begins; `text` is what the first one is to give. -/
def File.begin (f : File) (text : List UInt8) : File :=
  { f with first := some (f.first.getD text) }

/-- `pro_ps` up to the first `put_fs_byte`, once `tmpbuf` and `p` are there. -/
def enter (s : State) (r count : Nat) (tmpbuf : Nat → UInt8) (p : Int) (f : File) : State :=
  if p > count then s.setFile r p { f with pc := .piece tmpbuf count 0 }
  else if 0 < p then s.setFile r p { f with pc := .rest tmpbuf 0 }
  else s.setFile r 0 { f with ended := true }

/-- `put_fs_byte(*(tmpbuf + *pos), buf + i)` and `*pos += 1`. -/
def File.put (f : File) (tmpbuf : Nat → UInt8) (pc : Pc) : File :=
  { f with
    f_pos := (f.f_pos + 1) % 0x100000000
    pc := pc
    returned := if f.ended then f.returned else f.returned ++ [tmpbuf f.f_pos] }

def step (s : State) : Act → Option State
  | .schedule task => some { s with task := task }
  | .read r count stack =>
      let f := s.file r
      match f.pc with
      | .user =>
          if count < 1 then none
          else
            let f' := f.begin (snapshot s.task)
            if f.f_pos = 0 then
              let (tmpbuf, p) := fill s.task stack
              some (enter s r count tmpbuf p f')
            else some (enter s r count stack s.p f')
      | _ => none
  | .put r =>
      let f := s.file r
      match f.pc with
      | .user => none
      | .piece tmpbuf count i =>
          some (s.setFile r (s.p - 1)
            (f.put tmpbuf (if i + 1 < count then .piece tmpbuf count (i + 1) else .user)))
      | .rest tmpbuf i =>
          if i + 1 < s.p then some (s.setFile r s.p (f.put tmpbuf (.rest tmpbuf (i + 1))))
          else some (s.setFile r 0 (f.put tmpbuf .user))

/-- No call is inside its loop when another begins, and a call at position 0 asks for the
whole text. -/
def Whole (s : State) : Act → Prop
  | .read r count _ =>
      (∀ r', (s.file r').pc = .user) ∧
        ((s.file r).f_pos = 0 → (snapshot s.task).length ≤ count)
  | _ => True

/-! ## The invariant -/

/-- A file that has not been read. -/
structure Untouched (f : File) : Prop where
  pos : f.f_pos = 0
  returned : f.returned = []
  first : f.first = none
  ended : f.ended = false

/-- A file that has been read to the end. -/
structure Finished (f : File) : Prop where
  pos : 0 < f.f_pos
  first : f.first = some f.returned

structure Settled (f : File) : Prop where
  pc : f.pc = .user
  read : Untouched f ∨ Finished f

/-- A file whose first read is in the loop. -/
structure Copying (p : Int) (f : File) (text : List UInt8) (tmpbuf : Nat → UInt8) (i : Nat) :
    Prop where
  pc : f.pc = .rest tmpbuf i
  p : p = text.length
  pos : f.f_pos = i
  lt : i < text.length
  small : text.length < MAXBUF
  returned : f.returned = text.take i
  first : f.first = some text
  ended : f.ended = false
  tmpbuf : ∀ k < text.length, text[k]? = some (tmpbuf k)

/-- Nobody is inside a loop, or one file is. -/
inductive Turns (s : State) : Prop where
  | idle (settled : ∀ r, Settled (s.file r)) (p : s.p = 0)
  | busy (r : Nat) (text : List UInt8) (tmpbuf : Nat → UInt8) (i : Nat)
      (copying : Copying s.p (s.file r) text tmpbuf i)
      (settled : ∀ r' ≠ r, Settled (s.file r'))

variable {s s' : State}

theorem boot_turns (task : List (Option TaskStruct)) : Turns (boot task) :=
  .idle (fun _ => ⟨rfl, .inl ⟨rfl, rfl, rfl, rfl⟩⟩) rfl

theorem settled_update {file : Nat → File} {r : Nat} {f : File}
    (h : ∀ r' ≠ r, Settled (file r')) (hf : Settled f) : ∀ r', Settled (update file r f r') := by
  intro r'
  rcases eq_or_ne r' r with rfl | hne
  · rwa [update_self]
  · rw [update_of_ne hne]
    exact h r' hne

theorem settled_update_ne {file : Nat → File} {r : Nat} {f : File}
    (h : ∀ r' ≠ r, Settled (file r')) : ∀ r' ≠ r, Settled (update file r f r') := by
  intro r' hne
  rw [update_of_ne hne]
  exact h r' hne

/-- A first read for the whole text enters the second loop. -/
theorem Untouched.enter {f : File} {r count : Nat} (stack : Nat → UInt8)
    (hf : Untouched f) (hcount : (snapshot s.task).length ≤ count)
    (hs : ∀ r' ≠ r, Settled (s.file r')) :
    Turns (enter s r count (fill s.task stack).1 (fill s.task stack).2
      (f.begin (snapshot s.task))) := by
  obtain ⟨hlow, hhigh⟩ := snapshot_bounds s.task
  have hline : LINE = 51 := rfl
  have hlen := length_snapshot s.task stack
  unfold PsInfo.enter
  rw [← hlen, if_neg (by omega), if_pos (by omega)]
  refine .busy r (snapshot s.task) (fill s.task stack).1 0 ?_ (settled_update_ne hs)
  dsimp only [State.setFile]
  rw [update_self]
  exact {
    pc := rfl
    p := rfl
    pos := hf.pos
    lt := by omega
    small := by omega
    returned := hf.returned
    first := by rw [File.begin, hf.first]; rfl
    ended := hf.ended
    tmpbuf := fun k hk => snapshot_get s.task stack hk }

/-- A later read finds `p = 0` and returns 0. -/
theorem Finished.enter {f : File} {r count : Nat} {stack : Nat → UInt8} (hf : Finished f)
    (hpc : f.pc = .user) (hs : ∀ r', Settled (s.file r')) :
    Turns (enter s r count stack 0 (f.begin (snapshot s.task))) := by
  unfold PsInfo.enter
  rw [if_neg (by omega), if_neg (Int.lt_irrefl 0), File.begin, hf.first]
  exact .idle (settled_update (fun r' _ => hs r') ⟨hpc, .inr ⟨hf.pos, rfl⟩⟩) rfl

theorem read_turns {r count : Nat} {stack : Nat → UInt8} (h : Turns s)
    (hok : Whole s (.read r count stack)) (hs : step s (.read r count stack) = some s') :
    Turns s' := by
  obtain ⟨huser, hwhole⟩ := hok
  cases h with
  | busy r' text tmpbuf i hcopy _ =>
      have hpc := hcopy.pc
      rw [huser r'] at hpc
      cases hpc
  | idle hsettled hp =>
      dsimp only [step] at hs
      rw [huser r] at hs
      obtain ⟨-, hs⟩ := Option.ite_none_left_eq_some.mp hs
      rcases (hsettled r).read with hf | hf
      · rw [if_pos hf.pos] at hs
        obtain rfl := Option.some.inj hs
        exact hf.enter stack (hwhole hf.pos) fun r' _ => hsettled r'
      · rw [if_neg (Nat.pos_iff_ne_zero.mp hf.pos), hp] at hs
        obtain rfl := Option.some.inj hs
        exact hf.enter (hsettled r).pc hsettled

theorem Copying.put {p : Int} {f : File} {text : List UInt8} {tmpbuf : Nat → UInt8} {i : Nat}
    (h : Copying p f text tmpbuf i) (pc : Pc) :
    f.put tmpbuf pc = { f with f_pos := i + 1, pc := pc, returned := text.take (i + 1) } := by
  have hbyte := h.tmpbuf i h.lt
  have hpos : (i + 1) % 0x100000000 = i + 1 := by
    have hlt := h.lt
    have hsmall := h.small
    rw [MAXBUF] at hsmall
    omega
  rw [File.put, h.pos, hpos, h.ended, h.returned, List.take_add_one, hbyte]
  rfl

theorem put_turns {r : Nat} (h : Turns s) (hs : step s (.put r) = some s') : Turns s' := by
  dsimp only [step] at hs
  cases h with
  | idle hsettled _ =>
      rw [(hsettled r).pc] at hs
      cases hs
  | busy r₀ text tmpbuf i hcopy hsettled =>
      rcases eq_or_ne r r₀ with rfl | hne
      · have hlt := hcopy.lt
        rw [hcopy.pc] at hs
        dsimp only at hs
        rw [hcopy.put, hcopy.put, hcopy.p] at hs
        split at hs
        · obtain rfl := Option.some.inj hs
          refine .busy r text tmpbuf (i + 1) ?_ (settled_update_ne hsettled)
          dsimp only [State.setFile]
          rw [update_self]
          exact { hcopy with
            pc := rfl
            p := rfl
            pos := rfl
            lt := by omega
            returned := rfl }
        · obtain rfl := Option.some.inj hs
          refine .idle (settled_update hsettled ⟨rfl, .inr ⟨Nat.succ_pos i, ?_⟩⟩) rfl
          dsimp only
          rw [hcopy.first, List.take_of_length_le (by omega)]
      · rw [(hsettled r hne).pc] at hs
        cases hs

theorem step_turns {a : Act} (h : Turns s) (hok : Whole s a) (hs : step s a = some s') :
    Turns s' := by
  cases a with
  | schedule task =>
      obtain rfl := Option.some.inj hs
      cases h with
      | idle hsettled hp => exact .idle hsettled hp
      | busy r text tmpbuf i hcopy hsettled => exact .busy r text tmpbuf i hcopy hsettled
  | read r count stack => exact read_turns h hok hs
  | put r => exact put_turns h hs

/-- A file from which a read has returned 0 has given the text of its first read. -/
theorem Turns.text (h : Turns s) {r : Nat} (hended : (s.file r).ended = true) :
    (s.file r).first = some (s.file r).returned := by
  have hsettled : Settled (s.file r) → (s.file r).first = some (s.file r).returned := by
    rintro ⟨-, hf | hf⟩
    · rw [hf.ended] at hended
      cases hended
    · exact hf.first
  cases h with
  | idle hall _ => exact hsettled (hall r)
  | busy r₀ text tmpbuf i hcopy hall =>
      rcases eq_or_ne r r₀ with rfl | hne
      · rw [hcopy.ended] at hended
        cases hended
      · exact hsettled (hall r hne)

/-! ## A read on its own -/

theorem setFile_setFile (s : State) (r : Nat) (p p' : Int) (f f' : File) :
    (s.setFile r p f).setFile r p' f' = s.setFile r p' f' := by
  dsimp only [State.setFile]
  rw [update_idem]

/-- The file after a read that has taken the whole text. -/
def File.finish (f : File) (text : List UInt8) : File :=
  { f with f_pos := text.length, pc := .user, returned := text }

theorem Copying.drain {ok : State → Act → Prop} {r : Nat} {text : List UInt8}
    {tmpbuf : Nat → UInt8} (hok : ∀ s, ok s (.put r)) (n : Nat) :
    ∀ {s : State} {i : Nat}, Copying s.p (s.file r) text tmpbuf i → text.length - (i + 1) = n →
      Reach step ok s (s.setFile r 0 ((s.file r).finish text)) := by
  induction n with
  | zero =>
      intro s i h hn
      have hlt := h.lt
      have hlen : i + 1 = text.length := by omega
      refine Reach.one (hok s) ?_
      dsimp only [step]
      rw [h.pc]
      dsimp only
      rw [if_neg (by rw [h.p]; omega), h.put, hlen, List.take_length]
      rfl
  | succ n ih =>
      intro s i h hn
      have hstep : step s (.put r) = some (s.setFile r s.p { s.file r with
          f_pos := i + 1, pc := .rest tmpbuf (i + 1), returned := text.take (i + 1) }) := by
        dsimp only [step]
        rw [h.pc]
        dsimp only
        rw [h.put, if_pos (by rw [h.p]; omega)]
      refine (Reach.one (hok s) hstep).trans ?_
      have hnext := ih (s := s.setFile r s.p { s.file r with
          f_pos := i + 1, pc := .rest tmpbuf (i + 1), returned := text.take (i + 1) })
        (i := i + 1) (by
          dsimp only [State.setFile]
          rw [update_self]
          exact { h with pc := rfl, pos := rfl, lt := by omega, returned := rfl }) (by omega)
      rw [setFile_setFile] at hnext
      dsimp only [State.setFile] at hnext ⊢
      rwa [update_self] at hnext

/-- One read with a large enough count, of a file that has not been read. -/
theorem Untouched.read {ok : State → Act → Prop} {r count : Nat} {stack : Nat → UInt8}
    (hput : ∀ s, ok s (.put r)) (hok : ok s (.read r count stack)) (hf : Untouched (s.file r))
    (hpc : (s.file r).pc = .user) (hcount : (snapshot s.task).length ≤ count) :
    Reach step ok s
      (s.setFile r 0 (((s.file r).begin (snapshot s.task)).finish (snapshot s.task))) := by
  obtain ⟨hlow, hhigh⟩ := snapshot_bounds s.task
  have hline : LINE = 51 := rfl
  have hlen := length_snapshot s.task stack
  have hbegin : step s (.read r count stack) = some (s.setFile r (snapshot s.task).length
      { (s.file r).begin (snapshot s.task) with pc := .rest (fill s.task stack).1 0 }) := by
    dsimp only [step]
    rw [hpc]
    dsimp only
    rw [if_neg (by omega), if_pos hf.pos, PsInfo.enter, if_neg (by omega), if_pos (by omega),
      hlen]
  refine (Reach.one hok hbegin).trans ?_
  have hcopying : ∀ s' : State, s' = s.setFile r (snapshot s.task).length
      { (s.file r).begin (snapshot s.task) with pc := .rest (fill s.task stack).1 0 } →
      Copying s'.p (s'.file r) (snapshot s.task) (fill s.task stack).1 0 := by
    rintro s' rfl
    dsimp only [State.setFile]
    rw [update_self]
    exact {
      pc := rfl
      p := rfl
      pos := hf.pos
      lt := by omega
      small := by omega
      returned := hf.returned
      first := by rw [File.begin, hf.first]; rfl
      ended := hf.ended
      tmpbuf := fun k hk => snapshot_get s.task stack hk }
  have hrest := Copying.drain hput _ (hcopying _ rfl) rfl
  rw [setFile_setFile] at hrest
  dsimp only [State.setFile] at hrest ⊢
  rwa [update_self] at hrest

theorem read_zero {r count : Nat} {stack : Nat → UInt8} (hpc : (s.file r).pc = .user)
    (hcount : 1 ≤ count) (hpos : (s.file r).f_pos ≠ 0) (hp : s.p = 0) :
    step s (.read r count stack) =
      some (s.setFile r 0 { (s.file r).begin (snapshot s.task) with ended := true }) := by
  dsimp only [step]
  rw [hpc]
  dsimp only
  rw [if_neg (by omega), if_neg hpos, enter, hp, if_neg (by omega), if_neg (Int.lt_irrefl 0)]

/-! ## The law of reading in pieces -/

/-- Any number of readers of `/proc/psinfo`, each call switched in front of any byte: if
every first read asks for the whole text and no read begins while another is copying, then
a file from which a read has returned 0 has given the text of the moment of its first
read. -/
theorem psinfo_pieces {task : List (Option TaskStruct)} {s : State}
    (h : Reach step Whole (boot task) s) (r : Nat) (hended : (s.file r).ended = true) :
    (s.file r).first = some (s.file r).returned :=
  (h.invariant (boot_turns task) fun _ _ _ hi hok hs => step_turns hi hok hs).text hended

/-- The table without a task. -/
def blank : Nat → UInt8 := fun _ => 0

theorem psinfo_pieces_whole : ∃ s : State, Reach step Whole (boot []) s ∧
    (s.file 0).ended = true ∧ (s.file 0).first = some (s.file 0).returned := by
  have hput : ∀ s, Whole s (.put 0) := fun _ => trivial
  have hfirst : Whole (boot []) (.read 0 100 blank) := ⟨fun _ => rfl, fun _ => by decide⟩
  have hone := Untouched.read (s := boot []) (r := 0) hput hfirst ⟨rfl, rfl, rfl, rfl⟩ rfl
    (by decide)
  have hcount : 1 ≤ 100 := by decide
  have hzero : step ((boot []).setFile 0 0 ((opened.begin (snapshot [])).finish (snapshot [])))
      (.read 0 100 blank) = _ := read_zero rfl hcount (by decide) rfl
  have hok : Whole ((boot []).setFile 0 0 ((opened.begin (snapshot [])).finish (snapshot [])))
      (.read 0 100 blank) := by
    refine ⟨fun r' => ?_, fun _ => by decide⟩
    rcases eq_or_ne r' 0 with rfl | hne
    · rfl
    · dsimp only [State.setFile]
      rw [update_of_ne hne]
      rfl
  exact ⟨_, hone.next hok hzero, rfl, psinfo_pieces (hone.next hok hzero) 0 rfl⟩

/-- The first file gives one byte only: its second read finds that another reader has left
`p = 0`. -/
theorem not_psinfo_pieces :
    ¬ ∀ {task : List (Option TaskStruct)} {s : State}, Reach step Free (boot task) s →
      ∀ r, (s.file r).ended = true → (s.file r).first = some (s.file r).returned := by
  intro h
  -- one byte of the text for file 0
  let begun : File :=
    { opened.begin (snapshot []) with pc := .piece (fill [] blank).1 1 0 }
  let s₁ : State :=
    ((boot []).setFile 0 51 begun).setFile 0 50 (begun.put (fill [] blank).1 .user)
  have h₁ : Reach step Free (boot []) s₁ :=
    have hexec : exec step (boot []) [.read 0 1 blank, .put 0] = some s₁ := rfl
    exec_reach hexec
  -- the whole text for file 1
  have hput : ∀ s : State, Free s (Act.put 1) := fun _ => trivial
  have hfree : Free s₁ (Act.read 1 100 blank) := trivial
  have h₂ := Untouched.read hput hfree ⟨rfl, rfl, rfl, rfl⟩ rfl (by decide)
  have h₃ := (h₁.trans h₂).next (a := .read 0 100 blank) trivial
    (read_zero rfl (by decide) (by decide) rfl)
  have hfirst := h h₃ 0 rfl
  exact absurd hfirst (by decide)

end PsInfo

end Linux011
