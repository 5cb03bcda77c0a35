import Linux011.Console

/-!
# The saved cursor

What `con_write` of `kernel/chr_drv/console.c` does to `saved_x` and `saved_y`. Behind an ESC it
tests the column `x` for the codes of `7` and `8` where the byte `c` is meant: a sequence that is
none of the others saves the cursor in column 55 and restores it in column 56, whatever its byte.
Where the column happens to agree with the byte the sequences do what they are for
(`save_restore`).

The proof needs little of what `Console` proves. A long list of small lemmas says that no
function of the console but the two that save and restore touches `saved_x` and `saved_y`; with
them a byte leaves the saved place alone if it does not end a sequence that saves (`saved_byte`),
and so does a text of such bytes. The rest is what the first and the last sequence do, one byte
after the other through the states of `con_write`. The condition `Agrees` is looked at in the
state in which a byte is taken, since the column that is tested is that of the cursor at that
time; `Along` carries it over a text.
-/

namespace Linux011

open Function Tty

namespace Console

/-- The bytes that `con_write` takes, with the settings of the tty at the time. -/
def State.bytes (v : Video) (s : State) (bs : List (Termios × Int8)) : State :=
  bs.foldl (fun s b => s.byte v b.1 b.2) s

def State.cursor (s : State) : UInt32 × UInt32 := (s.x, s.y)

def State.saved (s : State) : UInt32 × UInt32 := (s.saved_x, s.saved_y)

/-- Each byte meets `P` in the state in which it is taken. -/
def Along (P : State → Int8 → Prop) (v : Video) : State → List (Termios × Int8) → Prop
  | _, [] => True
  | s, b :: bs => P s b.2 ∧ Along P v (s.byte v b.1 b.2) bs

/-- ESC, and a byte behind it. -/
def esc (t : Nat → Termios) (c : Int8) : List (Termios × Int8) := [(t 0, 27), (t 1, c)]

/-- ESC, a bracket and a byte behind it. -/
def csi (t : Nat → Termios) (c : Int8) : List (Termios × Int8) :=
  [(t 0, 27), (t 1, State.ch '['), (t 2, c)]

/-- The byte does not end a sequence that saves the cursor. -/
def NoSave (s : State) (c : Int8) : Prop :=
  match s.state with
  | .text => True
  | .escape => c ≠ State.ch '7'
  | .bracket | .params | .final => c ≠ State.ch 's'

/-- What a byte behind ESC must not be for the test of the column to be made. -/
def Known (c : Int8) : Prop :=
  c = State.ch '[' ∨ c = State.ch 'E' ∨ c = State.ch 'M' ∨ c = State.ch 'D' ∨ c = State.ch 'Z'

/-- Where the column is tested it agrees with the byte. -/
def Agrees (s : State) (c : Int8) : Prop :=
  match s.state with
  | .escape => Known c ∨ (s.x = 55 ↔ c = State.ch '7') ∧ (s.x = 56 ↔ c = State.ch '8')
  | _ => True

instance (s : State) (c : Int8) : Decidable (NoSave s c) := by
  unfold NoSave
  cases s.state <;> infer_instance

instance (c : Int8) : Decidable (Known c) := inferInstanceAs (Decidable (_ ∨ _))

instance (s : State) (c : Int8) : Decidable (Agrees s c) := by
  unfold Agrees
  cases s.state <;> infer_instance

instance decidableAlong (P : State → Int8 → Prop) [∀ s c, Decidable (P s c)] (v : Video) :
    ∀ (s : State) (bs : List (Termios × Int8)), Decidable (Along P v s bs)
  | _, [] => isTrue trivial
  | s, b :: bs => @instDecidableAnd _ _ _ (decidableAlong P v (s.byte v b.1 b.2) bs)

/-! ## What leaves the saved cursor alone -/

section Saved

variable (v : Video) (s : State)

theorem saved_gotoxy (new_x new_y : UInt32) : (s.gotoxy v new_x new_y).saved = s.saved := by
  unfold State.gotoxy
  split
  all_goals rfl

theorem saved_scrup : (s.scrup v).saved = s.saved := by
  unfold State.scrup State.advance
  dsimp only
  repeat' split
  all_goals rfl

theorem saved_lf : (s.lf v).saved = s.saved := by
  unfold State.lf
  split
  · rfl
  · exact saved_scrup v s

theorem saved_ri : (s.ri v).saved = s.saved := by
  unfold State.ri
  split
  all_goals rfl

theorem saved_put (c : Int8) : (s.put v c).saved = s.saved := by
  unfold State.put
  dsimp only
  split
  · exact saved_lf v _
  · rfl

theorem saved_tab : (s.tab v).saved = s.saved := by
  unfold State.tab
  dsimp only
  split
  · exact saved_lf v _
  · rfl

theorem saved_del : (s.del v).saved = s.saved := by
  unfold State.del
  split
  all_goals rfl

theorem saved_text (t : Termios) (c : Int8) : (s.text v t c).saved = s.saved := by
  unfold State.text
  repeat' split
  · exact saved_put v s c
  · rfl
  · exact saved_lf v s
  · rfl
  · exact saved_del v s
  · rfl
  · rfl
  · exact saved_tab v s
  · rfl

theorem saved_csi_J (par : UInt32) : (s.csi_J v par).saved = s.saved := by
  unfold State.csi_J
  repeat' split
  all_goals rfl

theorem saved_csi_K (par : UInt32) : (s.csi_K v par).saved = s.saved := by
  unfold State.csi_K
  repeat' split
  all_goals rfl

theorem saved_times {f : State → State} (hf : ∀ s, (f s).saved = s.saved) (most nr : UInt32) :
    (s.times most nr f).saved = s.saved := by
  unfold State.times
  dsimp only
  generalize (if most < nr then most else if nr = 0 then 1 else nr).toNat = n
  induction n generalizing s with
  | zero => rfl
  | succ n ih => exact (ih (f s)).trans (hf s)

theorem saved_csi_at (nr : UInt32) : (s.csi_at v nr).saved = s.saved := by
  unfold State.csi_at
  refine saved_times s ?_ _ _
  exact fun _ => rfl

theorem saved_csi_L (nr : UInt32) : (s.csi_L v nr).saved = s.saved := by
  unfold State.csi_L
  refine saved_times s ?_ _ _
  exact fun _ => rfl

theorem saved_delete_char : (s.delete_char v).saved = s.saved := by
  unfold State.delete_char
  dsimp only
  split
  all_goals rfl

theorem saved_csi_P (nr : UInt32) : (s.csi_P v nr).saved = s.saved := by
  unfold State.csi_P
  exact saved_times s (saved_delete_char v) _ _

theorem saved_csi_M (nr : UInt32) : (s.csi_M v nr).saved = s.saved := by
  unfold State.csi_M
  refine saved_times s ?_ _ _
  exact fun s => saved_scrup v { s with top := s.y, bottom := v.video_num_lines }

theorem saved_csi_r : (s.csi_r v).saved = s.saved := by
  unfold State.csi_r State.setRegion
  dsimp only
  split
  all_goals rfl

theorem saved_ite {p : Prop} [Decidable p] {s₁ s₂ : State} (h₁ : s₁.saved = s.saved)
    (h₂ : s₂.saved = s.saved) : (if p then s₁ else s₂).saved = s.saved := by
  split
  · exact h₁
  · exact h₂

theorem saved_goto (place : State → UInt32 × UInt32) : (s.goto v place).saved = s.saved :=
  saved_gotoxy v s _ _

theorem saved_dispatch {c : Int8} (hc : c ≠ State.ch 's') : (s.dispatch v c).saved = s.saved := by
  unfold State.dispatch
  rw [if_neg hc]
  -- the cursor
  refine saved_ite s (saved_goto v _ _) (saved_ite s (saved_goto v _ _)
    (saved_ite s (saved_goto v _ _) (saved_ite s (saved_goto v _ _) (saved_ite s (saved_goto v _ _)
    (saved_ite s (saved_goto v _ _) (saved_ite s (saved_goto v _ _) (saved_ite s (saved_goto v _ _)
    (saved_ite s (saved_goto v _ _) ?_))))))))
  -- the screen
  refine saved_ite s (saved_csi_J v s _) (saved_ite s (saved_csi_K v s _) ?_)
  refine saved_ite s (saved_csi_L v s _) (saved_ite s (saved_csi_M v s _) ?_)
  refine saved_ite s (saved_csi_P v s _) (saved_ite s (saved_csi_at v s _) ?_)
  -- attributes, scroll region and saved cursor
  exact saved_ite s rfl (saved_ite s (saved_csi_r v s) (saved_ite s (saved_gotoxy v s _ _) rfl))

theorem saved_escape {c : Int8} (hc : c ≠ State.ch '7')
    (hagrees : Known c ∨ (s.x = 55 ↔ c = State.ch '7') ∧ (s.x = 56 ↔ c = State.ch '8')) :
    (s.escape v c).saved = s.saved := by
  by_cases h55 : s.x = 55
  · have hknown : Known c := hagrees.resolve_right fun h => hc (h.1.mp h55)
    unfold State.escape
    dsimp only
    rcases hknown with rfl | rfl | rfl | rfl | rfl
    · rfl
    · exact saved_gotoxy v _ _ _
    · exact saved_ri v _
    · exact saved_lf v _
    · rfl
  · unfold State.escape
    dsimp only
    rw [if_neg h55]
    exact saved_ite s rfl (saved_ite s (saved_gotoxy v _ _ _) (saved_ite s (saved_ri v _)
      (saved_ite s (saved_lf v _) (saved_ite s rfl (saved_ite s (saved_gotoxy v _ _ _) rfl)))))

theorem saved_params {c : Int8} (hc : c ≠ State.ch 's') : (s.params v c).saved = s.saved := by
  unfold State.params State.final
  repeat' split
  · rfl
  · rfl
  · exact saved_dispatch v _ hc

variable {v s}

/-- A byte that does not save the cursor, where the test of the column agrees with it. -/
theorem saved_byte (t : Termios) {c : Int8} (hno : NoSave s c) (hagrees : Agrees s c) :
    (s.byte v t c).saved = s.saved := by
  unfold NoSave at hno
  unfold Agrees at hagrees
  unfold State.byte
  split
  · exact saved_text v s t c
  · rename_i hstate
    rw [hstate] at hno hagrees
    exact saved_escape v s hno hagrees
  · rename_i hstate
    rw [hstate] at hno
    unfold State.bracket
    exact saved_ite s rfl (saved_params v _ hno)
  · rename_i hstate
    rw [hstate] at hno
    exact saved_params v s hno
  · rename_i hstate
    rw [hstate] at hno
    exact saved_dispatch v _ hno

theorem saved_bytes : ∀ {s : State} {bs : List (Termios × Int8)}, Along NoSave v s bs →
    Along Agrees v s bs → (s.bytes v bs).saved = s.saved
  | _, [], _, _ => rfl
  | _, b :: _, ⟨hno, hnos⟩, ⟨hagrees, hall⟩ =>
      (saved_bytes hnos hall).trans (saved_byte b.1 hno hagrees)

end Saved

/-! ## Saving and restoring -/

section Restore

variable {v : Video} {s : State} {bs bs' : List (Termios × Int8)}

theorem bytes_append (v : Video) (s : State) (bs bs' : List (Termios × Int8)) :
    s.bytes v (bs ++ bs') = (s.bytes v bs).bytes v bs' :=
  List.foldl_append

theorem along_append {P : State → Int8 → Prop} :
    ∀ {s : State} {bs bs' : List (Termios × Int8)}, Along P v s (bs ++ bs') ↔
      Along P v s bs ∧ Along P v (s.bytes v bs) bs'
  | _, [], _ => ⟨fun h => ⟨trivial, h⟩, fun h => h.2⟩
  | _, _ :: _, _ => (and_congr_right fun _ => along_append).trans and_assoc.symm

theorem byte_esc (t : Termios) (hs : s.state = .text) :
    s.byte v t 27 = { s with state := .escape } := by
  unfold State.byte
  rw [hs]
  unfold State.text
  rw [if_neg (by decide), if_pos rfl]

theorem bytes_esc (t : Nat → Termios) (c : Int8) (hs : s.state = .text) :
    s.bytes v (esc t c) = ({ s with state := .escape } : State).escape v c := by
  show (s.byte v (t 0) 27).byte v (t 1) c = _
  rw [byte_esc _ hs]
  rfl

theorem bytes_csi (t : Nat → Termios) {c : Int8} (hs : s.state = .text) (hc : c ≠ State.ch '?')
    (hparam : ¬ (c = State.ch ';')) (hdigit : ¬ (State.ch '0' ≤ c ∧ c ≤ State.ch '9')) :
    ∃ s' : State, s'.cursor = s.cursor ∧ s'.saved = s.saved ∧ s'.state = .text ∧
      s.bytes v (csi t c) = s'.dispatch v c := by
  refine ⟨{ s with par := fun _ => 0, npar := State.par0, state := .text,
                   ques := decide (c = State.ch '?') }, rfl, rfl, rfl, ?_⟩
  show ((s.byte v (t 0) 27).byte v (t 1) (State.ch '[')).byte v (t 2) c = _
  rw [byte_esc _ hs]
  show State.bracket v _ c = _
  unfold State.bracket
  rw [if_neg hc]
  unfold State.params
  rw [dif_neg fun h => hparam h.1, if_neg hdigit]
  rfl

/-- The saved place is on the screen, and the cursor goes there. -/
theorem cursor_restore (hx : s.saved_x ≤ v.video_num_columns) (hy : s.saved_y < v.video_num_lines) :
    (s.restore_cur v).cursor = s.saved := by
  unfold State.restore_cur State.gotoxy
  rw [if_neg (not_or.mpr ⟨UInt32.not_lt.mpr hx, UInt32.not_le.mpr hy⟩)]
  rfl

theorem escape_save (hs : s.x = 55) :
    (s.escape v (State.ch '7')).saved = s.cursor ∧ (s.escape v (State.ch '7')).state = .text := by
  unfold State.escape
  dsimp only
  rw [if_neg (by decide), if_neg (by decide), if_neg (by decide), if_neg (by decide),
    if_neg (by decide), if_pos hs]
  exact ⟨rfl, rfl⟩

theorem escape_restore (hs : s.x = 56) :
    s.escape v (State.ch '8') = ({ s with state := .text } : State).restore_cur v := by
  unfold State.escape
  dsimp only
  rw [if_neg (by decide), if_neg (by decide), if_neg (by decide), if_neg (by decide),
    if_neg (by decide), if_neg (by rw [hs]; decide), if_pos hs]

/-- The sequences that save, up to the last byte of `bs`: the saved place is the cursor. -/
structure Saves (v : Video) (s : State) (bs : List (Termios × Int8)) : Prop where
  saved : (s.bytes v bs).saved = s.cursor
  state : (s.bytes v bs).state = .text

theorem saves_esc (t : Nat → Termios) (hs : s.state = .text)
    (h : Along Agrees v s (esc t (State.ch '7'))) : Saves v s (esc t (State.ch '7')) := by
  obtain ⟨-, hagrees, -⟩ := h
  dsimp only at hagrees
  rw [byte_esc _ hs] at hagrees
  have hx : s.x = 55 := by
    rcases hagrees with hknown | ⟨hx, -⟩
    · exact absurd hknown (by decide)
    · exact hx.mpr rfl
  have hsave := @escape_save v { s with state := .escape } hx
  constructor
  · rw [bytes_esc t _ hs]
    exact hsave.1
  · rw [bytes_esc t _ hs]
    exact hsave.2

theorem saves_csi (t : Nat → Termios) (hs : s.state = .text) :
    Saves v s (csi t (State.ch 's')) := by
  obtain ⟨s', hcursor, -, hstate, hbytes⟩ := bytes_csi (v := v) (c := State.ch 's') t hs
    (by decide) (by decide) (by decide)
  have hsave : s'.dispatch v (State.ch 's') = s'.save_cur := rfl
  constructor
  · rw [hbytes, hsave, ← hcursor]
    rfl
  · rw [hbytes, hsave]
    exact hstate

/-- What was saved is where the cursor is put back. -/
def Restores (v : Video) (s : State) (bs : List (Termios × Int8)) : Prop :=
  (s.bytes v bs).cursor = s.saved

theorem restores_esc (t : Nat → Termios) (hs : s.state = .text)
    (hx : s.saved_x ≤ v.video_num_columns) (hy : s.saved_y < v.video_num_lines)
    (h : Along Agrees v s (esc t (State.ch '8'))) : Restores v s (esc t (State.ch '8')) := by
  obtain ⟨-, hagrees, -⟩ := h
  dsimp only at hagrees
  rw [byte_esc _ hs] at hagrees
  have h56 : s.x = 56 := by
    rcases hagrees with hknown | ⟨-, h56⟩
    · exact absurd hknown (by decide)
    · exact h56.mpr rfl
  have hrestore := @escape_restore v { s with state := .escape } h56
  unfold Restores
  rw [bytes_esc t _ hs, hrestore]
  exact @cursor_restore v { s with state := .text } hx hy

theorem restores_csi (t : Nat → Termios) (hs : s.state = .text)
    (hx : s.saved_x ≤ v.video_num_columns) (hy : s.saved_y < v.video_num_lines) :
    Restores v s (csi t (State.ch 'u')) := by
  obtain ⟨s', -, hsaved, -, hbytes⟩ := bytes_csi (v := v) (c := State.ch 'u') t hs
    (by decide) (by decide) (by decide)
  have hrestore : s'.dispatch v (State.ch 'u') = s'.restore_cur v := rfl
  obtain ⟨hsx, hsy⟩ := Prod.mk.inj hsaved
  unfold Restores
  rw [hbytes, hrestore, cursor_restore (by rwa [hsx]) (by rwa [hsy])]
  exact hsaved

theorem saves_restores {save restore : List (Termios × Int8)} (hsave : Saves v s save)
    (hno : Along NoSave v (s.bytes v save) bs)
    (hagrees : Along Agrees v (s.bytes v save) bs)
    (hrestore : Restores v ((s.bytes v save).bytes v bs) restore) :
    (s.bytes v (save ++ bs ++ restore)).cursor = s.cursor := by
  rw [bytes_append, bytes_append]
  exact hrestore.trans ((saved_bytes hno hagrees).trans hsave.saved)

/-- For every run of `con_write` in which each test of the column agrees with the byte:
ESC 7 and ESC 8 around a text that does not save, of any length, leave the cursor where
it was, as the sequences with a bracket do, and a byte behind ESC other than 7 and the
bracket does not change the saved place. -/
theorem save_restore (t : Nat → Termios) (hs : s.state = .text)
    (hx : s.x ≤ v.video_num_columns) (hy : s.y < v.video_num_lines) :
    (∀ save restore, save = esc t (State.ch '7') ∧ restore = esc t (State.ch '8') ∨
        save = csi t (State.ch 's') ∧ restore = csi t (State.ch 'u') →
      ∀ bs, Along NoSave v (s.bytes v save) bs → (s.bytes v (save ++ bs)).state = .text →
        Along Agrees v s (save ++ bs ++ restore) →
        (s.bytes v (save ++ bs ++ restore)).cursor = s.cursor) ∧
      ∀ c, c ≠ State.ch '7' → c ≠ State.ch '[' → Along Agrees v s (esc t c) →
        (s.bytes v (esc t c)).saved = s.saved := by
  refine ⟨fun save restore hwhich bs hno hend hagrees => ?_, fun c h7 _ hagrees => ?_⟩
  · rw [along_append, along_append] at hagrees
    obtain ⟨⟨hfirst, hmiddle⟩, hlast⟩ := hagrees
    rw [bytes_append] at hend hlast
    have hsave : Saves v s save := by
      rcases hwhich with ⟨rfl, -⟩ | ⟨rfl, -⟩
      · exact saves_esc t hs hfirst
      · exact saves_csi t hs
    have hkept := (saved_bytes hno hmiddle).trans hsave.saved
    obtain ⟨hsx, hsy⟩ := Prod.mk.inj hkept
    refine saves_restores hsave hno hmiddle ?_
    rcases hwhich with ⟨-, rfl⟩ | ⟨-, rfl⟩
    · exact restores_esc t hend (by rwa [hsx]) (by rwa [hsy]) hlast
    · exact restores_csi t hend (by rwa [hsx]) (by rwa [hsy])
  · refine saved_bytes ⟨?_, ?_, trivial⟩ hagrees
    · rw [NoSave, hs]
      trivial
    · dsimp only
      rw [byte_esc _ hs]
      exact h7

end Restore

/-! ## 80 columns -/

section Screen

/-- The settings of the console. -/
def settings : Nat → Termios := fun _ => oneChar.termios

/-- A console of 80 columns and 25 lines, with the cursor in the first line. -/
def column (x : UInt8) : State := con_init (video 3 0 80 25) x 0 (fun _ => 0) fun _ => 0

/-- A letter between the sequences, from column 55. -/
theorem save_restore_55 : ((column 55).bytes (video 3 0 80 25) (esc settings (State.ch '7')
    ++ [(settings 0, State.ch 'a')] ++ esc settings (State.ch '8'))).cursor = (55, 0) :=
  (save_restore settings rfl (by decide) (by decide)).1 _ _ (.inl ⟨rfl, rfl⟩)
    [(settings 0, State.ch 'a')] (by decide +kernel) (by rfl) (by decide +kernel)

/-- From column 0 the cursor stays behind the letter, and in column 55 another sequence saves. -/
theorem not_save_restore :
    ((column 0).state = .text ∧
      Along NoSave (video 3 0 80 25) ((column 0).bytes (video 3 0 80 25)
        (esc settings (State.ch '7'))) [(settings 0, State.ch 'a')] ∧
      ((column 0).bytes (video 3 0 80 25) (esc settings (State.ch '7')
        ++ [(settings 0, State.ch 'a')])).state = .text ∧
      ((column 0).bytes (video 3 0 80 25) (esc settings (State.ch '7')
        ++ [(settings 0, State.ch 'a')] ++ esc settings (State.ch '8'))).cursor
        ≠ (column 0).cursor) ∧
    ((column 55).bytes (video 3 0 80 25) (esc settings (State.ch 'q'))).saved
      ≠ (column 55).saved := by
  refine ⟨⟨rfl, by decide +kernel, rfl, ?_⟩, ?_⟩
  · decide +kernel
  · decide +kernel

end Screen

end Console

end Linux011
