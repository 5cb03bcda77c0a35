import Linux011.ExecStrings
import Mathlib.Data.List.TakeWhile

/-!
# The first line of a script

`do_execve` looks for the name of the interpreter with pointers into a buffer in which it writes
zeros. `shebang` says the same of the line as a list of bytes (`parseScript_spec`).

The C code moves pointers through a buffer, looks for blanks and slashes and cuts the line by
storing zeros into it. Each of its loops is shown to be an operation on the list of the bytes of
the line: `strchr` finds the end, skipping blanks drops them, the loop over the name takes what
is before the blank and keeps what is behind the last slash (`scanName_spec`). `Found` says where
the strings of the list are in the buffer afterwards, since `copy_strings` is given pointers and
not lists. A line without a name, or only of blanks, has no interpreter, as in the source.
-/

namespace Linux011

open Function

namespace Exec

/-! ## The line as a list -/

/-- The bytes between `#!` and the end of the line; there is no line end behind a 0. -/
def firstLine (b_data : Nat → Byte) : Option (List Byte) :=
  let bytes := (List.range 1022).map fun k => b_data (k + 2)
  let line := bytes.takeWhile fun c => c ≠ 10 ∧ c ≠ 0
  if bytes[line.length]? = some 10 then some line else none

def inPath (c : Byte) : Bool := !blank c

/-- What is behind the last `/`. -/
def baseName (path : List Byte) : List Byte := (path.reverse.takeWhile (· ≠ 47)).reverse

/-- The interpreter and its argument: the path, the name, and what is behind the blank after the
path. -/
structure Shebang where
  path : List Byte
  arg : Option (List Byte)

def shebang (b_data : Nat → Byte) : Option Shebang :=
  (firstLine b_data).bind fun line =>
    let body := line.dropWhile blank
    if body = [] then none
    else some ⟨body.takeWhile inPath, (body.dropWhile inPath).tail?⟩

variable {s : Segment} {a : Nat} {buf : Nat → Byte}

/-! ## Strings in a buffer -/

theorem Segment.get_byte {c : Byte} (h : s.get a = some c) : s.byte a = c := by
  unfold Segment.get at h
  split at h
  · exact Option.some.inj h
  · cases h

theorem StringAt.suffix {l l' : List Byte} (h : StringAt s a (l ++ l')) :
    StringAt s (a + l.length) l' := by
  refine ⟨fun j hj => ?_, fun c hc => h.nonzero c (List.mem_append_right _ hc), ?_⟩
  · have := h.get (l.length + j) (by rw [List.length_append]; omega)
    rw [List.getElem_append_right (Nat.le_add_right _ _)] at this
    simpa [Nat.add_assoc] using this
  · have := h.nul
    rwa [List.length_append, ← Nat.add_assoc] at this

theorem StringAt.tail {c : Byte} {l : List Byte} (h : StringAt s a (c :: l)) :
    StringAt s (a + 1) l := (show StringAt s a ([c] ++ l) from h).suffix

/-- A 0 behind the first part of a string. -/
theorem StringAt.cut {l l' : List Byte} (h : StringAt ⟨buf, BUF⟩ a (l ++ l')) :
    StringAt ⟨update buf (a + l.length) 0, BUF⟩ a l := by
  have hlt : a + l.length < BUF := by
    have := Segment.get_lt h.nul
    rw [List.length_append] at this
    show a + l.length < BUF
    exact Nat.lt_of_le_of_lt (by omega) this
  refine ⟨fun j hj => ?_, fun c hc => h.nonzero c (List.mem_append_left _ hc), ?_⟩
  · have := h.get j (by rw [List.length_append]; omega)
    rw [List.getElem_append_left hj] at this
    unfold Segment.get
    rw [if_pos (show a + j < BUF by omega)]
    show some (update buf (a + l.length) 0 (a + j)) = _
    rw [update_of_ne (by omega)]
    exact congrArg some (Segment.get_byte this)
  · unfold Segment.get
    rw [if_pos hlt]
    exact congrArg some (update_self ..)

theorem StringAt.behind {x : Nat} {l : List Byte} (h : StringAt ⟨buf, BUF⟩ a l) (hx : x < a) :
    StringAt ⟨update buf x 0, BUF⟩ a l := by
  have hget : ∀ y, a ≤ y →
      (Segment.mk (update buf x 0) BUF).get y = (Segment.mk buf BUF).get y := by
    intro y hy
    unfold Segment.get
    dsimp only
    rw [update_of_ne (by omega)]
  exact ⟨fun j hj => (hget _ (by omega)).trans (h.get j hj), h.nonzero,
    (hget _ (by omega)).trans h.nul⟩

theorem StringAt.shift {base : Nat} {l : List Byte} (h : StringAt ⟨buf, BUF⟩ a l) :
    StringAt ⟨fun x => buf (x - base), base + BUF⟩ (base + a) l := by
  have hget : ∀ y, (Segment.mk (fun x => buf (x - base)) (base + BUF)).get (base + y)
      = (Segment.mk buf BUF).get y := by
    intro y
    unfold Segment.get
    dsimp only
    rw [Nat.add_sub_cancel_left]
    by_cases hy : y < BUF
    · rw [if_pos hy, if_pos (by omega)]
    · rw [if_neg hy, if_neg (by omega)]
  refine ⟨fun j hj => ?_, h.nonzero, ?_⟩
  · rw [Nat.add_assoc, hget]
    exact h.get j hj
  · rw [Nat.add_assoc, hget]
    exact h.nul

theorem StringAt.byte {l : List Byte} (h : StringAt ⟨buf, BUF⟩ a l) (j : Nat) :
    (∀ hj : j < l.length, buf (a + j) = l[j]) ∧ buf (a + l.length) = 0 := by
  exact ⟨fun hj => Segment.get_byte (h.get j hj), Segment.get_byte h.nul⟩

/-! ## The loops -/

/-- `strchr` finds the first of the bytes `c`. -/
theorem strchr_spec {s : Nat → Byte} {c : Byte} {n k i : Nat} (h : strchr s c n k = some i) :
    k ≤ i ∧ i < k + n ∧ s i = c ∧ ∀ j, k ≤ j → j < i → s j ≠ c ∧ s j ≠ 0 := by
  induction n generalizing k with
  | zero => cases h
  | succ n ih =>
      unfold strchr at h
      split at h
      · rename_i hc
        obtain rfl := Option.some.inj h
        exact ⟨Nat.le_refl _, by omega, hc, fun j h1 h2 => by omega⟩
      · rename_i hc
        split at h
        · cases h
        · rename_i h0
          obtain ⟨h1, h2, h3, h4⟩ := ih h
          refine ⟨by omega, by omega, h3, fun j hj hlt => ?_⟩
          rcases Nat.eq_or_lt_of_le hj with rfl | hj
          · exact ⟨hc, h0⟩
          · exact h4 j hj hlt

theorem blank_zero : blank 0 = false := rfl

theorem skipBlanks_spec {l : List Byte} {n : Nat} (h : StringAt ⟨buf, BUF⟩ a l)
    (hn : l.length < n) : skipBlanks buf n a = a + (l.takeWhile blank).length := by
  induction l generalizing a n with
  | nil =>
      obtain ⟨n, rfl⟩ := Nat.exists_eq_succ_of_ne_zero (Nat.ne_of_gt hn)
      have h0 : buf a = 0 := (h.byte 0).2
      unfold skipBlanks
      rw [h0, blank_zero]
      rfl
  | cons c l ih =>
      obtain ⟨n, rfl⟩ := Nat.exists_eq_succ_of_ne_zero (Nat.ne_of_gt (Nat.zero_lt_of_lt hn))
      have hc : buf a = c := (h.byte 0).1 (Nat.zero_lt_succ _)
      unfold skipBlanks
      rw [hc, List.takeWhile_cons]
      split
      · rw [ih h.tail (Nat.lt_of_succ_lt_succ hn), List.length_cons]
        omega
      · rfl

theorem baseName_of_not_mem {l : List Byte} (h : 47 ∉ l) : baseName l = l := by
  rw [baseName, List.takeWhile_eq_self_iff.mpr, List.reverse_reverse]
  intro c hc
  exact decide_eq_true fun e => h (e ▸ List.mem_reverse.mp hc)

theorem baseName_cons_of_mem {c : Byte} {l : List Byte} (h : 47 ∈ l) :
    baseName (c :: l) = baseName l := by
  have hsplit : ∃ x ∈ l.reverse, ¬(decide (x ≠ (47 : Byte)) = true) :=
    ⟨47, List.mem_reverse.mpr h, by decide⟩
  rw [baseName, baseName, List.reverse_cons, List.takeWhile_append]
  rw [if_neg]
  intro hall
  obtain ⟨x, hx, hne⟩ := hsplit
  have hself : l.reverse.takeWhile (· ≠ 47) = l.reverse :=
    (List.takeWhile_prefix _).eq_of_length hall
  exact hne (List.takeWhile_eq_self_iff.mp hself x hx)

theorem baseName_slash {l : List Byte} (h : 47 ∉ l) : baseName (47 :: l) = l := by
  have hself : l.reverse.takeWhile (· ≠ 47) = l.reverse :=
    List.takeWhile_eq_self_iff.mpr fun c hc =>
      decide_eq_true fun e => h (e ▸ List.mem_reverse.mp hc)
  rw [baseName, List.reverse_cons, List.takeWhile_append, if_pos (by rw [hself]),
    List.takeWhile_cons]
  simp

/-- `cp` goes to the end of the path, and `i_name` behind the last `/`. -/
theorem scanName_spec {l : List Byte} {n i_name : Nat} (h : StringAt ⟨buf, BUF⟩ a l)
    (hn : l.length < n) :
    scanName buf n a i_name = (a + (l.takeWhile inPath).length,
      if 47 ∈ l.takeWhile inPath then a + (l.takeWhile inPath).length
        - (baseName (l.takeWhile inPath)).length else i_name) := by
  induction l generalizing a n i_name with
  | nil =>
      obtain ⟨n, rfl⟩ := Nat.exists_eq_succ_of_ne_zero (Nat.ne_of_gt hn)
      have h0 : buf a = 0 := (h.byte 0).2
      unfold scanName
      rw [if_neg (by simp [h0])]
      simp
  | cons c l ih =>
      obtain ⟨n, rfl⟩ := Nat.exists_eq_succ_of_ne_zero (Nat.ne_of_gt (Nat.zero_lt_of_lt hn))
      have hc : buf a = c := (h.byte 0).1 (Nat.zero_lt_succ _)
      have hne := h.nonzero c (List.mem_cons_self ..)
      unfold scanName
      rw [hc, List.takeWhile_cons]
      by_cases hb : blank c
      · rw [if_neg fun hcond => hcond.2 hb]
        simp [inPath, hb]
      · have hin : inPath c = true := by simpa [inPath] using hb
        rw [if_pos ⟨hne, hb⟩, ih h.tail (Nat.lt_of_succ_lt_succ hn), if_pos hin]
        generalize l.takeWhile inPath = w
        rw [List.length_cons, show a + 1 + w.length = a + (w.length + 1) by omega]
        refine Prod.ext rfl ?_
        dsimp only
        by_cases hw : 47 ∈ w
        · rw [if_pos hw, if_pos (List.mem_cons_of_mem _ hw), baseName_cons_of_mem hw]
        · rw [if_neg hw]
          by_cases hslash : c = 47
          · rw [hslash, if_pos rfl, if_pos (List.mem_cons_self ..), baseName_slash hw]
            omega
          · rw [if_neg hslash, if_neg fun hmem => ?_]
            rcases List.mem_cons.mp hmem with e | hmem
            · exact hslash e.symm
            · exact hw hmem

theorem takeWhile_range {p : Byte → Bool} {f : Nat → Byte} {n i : Nat} (hi : i < n)
    (hbefore : ∀ j < i, p (f j) = true) (hat : p (f i) = false) :
    ((List.range n).map f).takeWhile p = (List.range i).map f := by
  obtain ⟨k, rfl⟩ := Nat.exists_eq_add_of_lt hi
  rw [Nat.add_assoc, List.range_add, List.map_append, List.takeWhile_append_of_pos]
  · rw [List.range_succ_eq_map, List.map_cons, List.map_cons]
    rw [List.takeWhile_cons_of_neg (by simp [hat]), List.append_nil]
  · intro c hc
    obtain ⟨j, hj, rfl⟩ := List.mem_map.mp hc
    exact hbefore j (List.mem_range.mp hj)

theorem firstLine_spec {b_data : Nat → Byte} {cp : Nat}
    (h : strchr (strncpy (fun k => b_data (k + 2)) 1022) 10 BUF 0 = some cp) :
    ∃ line, firstLine b_data = some line ∧ line.length < BUF ∧
      StringAt ⟨update (strncpy (fun k => b_data (k + 2)) 1022) cp 0, BUF⟩ 0 line := by
  obtain ⟨-, -, hat, hbefore⟩ := strchr_spec h
  have hcopy : ∀ j, strncpy (fun k => b_data (k + 2)) 1022 j ≠ 0 →
      j < 1022 ∧ strncpy (fun k => b_data (k + 2)) 1022 j = b_data (j + 2) := by
    intro j hj
    unfold strncpy at hj ⊢
    split at hj
    · rename_i hcond
      exact ⟨hcond.1, if_pos hcond⟩
    · exact absurd rfl hj
  have hend := hcopy cp (by rw [hat]; decide)
  have hline : ∀ j < cp, strncpy (fun k => b_data (k + 2)) 1022 j = b_data (j + 2) ∧
      b_data (j + 2) ≠ 10 ∧ b_data (j + 2) ≠ 0 := by
    intro j hj
    obtain ⟨h10, h0⟩ := hbefore j (Nat.zero_le _) hj
    have heq := (hcopy j h0).2
    exact ⟨heq, heq ▸ h10, heq ▸ h0⟩
  have htake : ((List.range 1022).map fun k => b_data (k + 2)).takeWhile
      (fun c => c ≠ 10 ∧ c ≠ 0) = (List.range cp).map fun k => b_data (k + 2) := by
    refine takeWhile_range hend.1 (fun j hj => decide_eq_true (hline j hj).2) ?_
    rw [← hend.2, hat]
    rfl
  refine ⟨(List.range cp).map fun k => b_data (k + 2), ?_, ?_, ⟨fun j hj => ?_, fun c hc => ?_, ?_⟩⟩
  · unfold firstLine
    dsimp only
    rw [htake, List.length_map, List.length_range, List.getElem?_map,
      List.getElem?_range hend.1, Option.map_some, ← hend.2, hat, if_pos rfl]
  · rw [List.length_map, List.length_range]
    have : cp < 1022 := hend.1
    show cp < 1023
    omega
  · rw [List.length_map, List.length_range] at hj
    have hlt : 0 + j < BUF := by
      have : cp < 1022 := hend.1
      show 0 + j < 1023
      omega
    unfold Segment.get
    rw [if_pos hlt, List.getElem_map, List.getElem_range]
    show some (update _ cp 0 (0 + j)) = _
    rw [Nat.zero_add, update_of_ne (by omega), (hline j hj).1]
  · obtain ⟨j, hj, rfl⟩ := List.mem_map.mp hc
    exact (hline j (List.mem_range.mp hj)).2.2
  · rw [List.length_map, List.length_range, Nat.zero_add]
    have hlt : cp < BUF := by
      have : cp < 1022 := hend.1
      show cp < 1023
      omega
    unfold Segment.get
    rw [if_pos hlt]
    exact congrArg some (update_self ..)

/-- The strings that are found in the buffer at `base`. -/
structure Found (sc : Script) (sh : Shebang) (base : Nat) : Prop where
  interp : StringAt ⟨fun a => sc.buf (a - base), base + BUF⟩ (base + sc.interp) sh.path
  i_name : StringAt ⟨fun a => sc.buf (a - base), base + BUF⟩ (base + sc.i_name) (baseName sh.path)
  i_arg : ∀ i, sc.i_arg = some i →
    ∃ arg, sh.arg = some arg ∧ StringAt ⟨fun a => sc.buf (a - base), base + BUF⟩ (base + i) arg
  no_arg : sc.i_arg = none → sh.arg = none

theorem baseName_suffix (l : List Byte) : ∃ dir, l = dir ++ baseName l := by
  obtain ⟨dir, hdir⟩ := List.takeWhile_prefix (l := l.reverse) (· ≠ (47 : Byte))
  refine ⟨dir.reverse, ?_⟩
  rw [baseName, ← List.reverse_append, hdir, List.reverse_reverse]

/-- The pointers into the buffer find what the line says. -/
theorem parseScript_spec {b_data : Nat → Byte} {sc : Script} (h : parseScript b_data = some sc)
    (base : Nat) : ∃ sh, shebang b_data = some sh ∧ Found sc sh base := by
  unfold parseScript at h
  dsimp only at h
  split at h
  · cases h
  · rename_i cp hcp
    obtain ⟨line, hline, hlen, hstr⟩ := firstLine_spec hcp
    have hskip := skipBlanks_spec hstr hlen
    rw [Nat.zero_add] at hskip
    generalize update (strncpy (fun k => b_data (k + 2)) 1022) cp 0 = buf at h hstr hskip
    rw [hskip] at h
    have hbody : StringAt ⟨buf, BUF⟩ (line.takeWhile blank).length (line.dropWhile blank) := by
      have hline : StringAt ⟨buf, BUF⟩ 0 (line.takeWhile blank ++ line.dropWhile blank) := by
        rwa [List.takeWhile_append_dropWhile]
      have := hline.suffix
      rwa [Nat.zero_add] at this
    have hbodylen : (line.dropWhile blank).length < BUF :=
      Nat.lt_of_le_of_lt (List.dropWhile_suffix _).length_le hlen
    generalize (line.takeWhile blank).length = a at h hbody hskip
    unfold shebang
    rw [hline, Option.bind_some]
    generalize line.dropWhile blank = body at hbody hbodylen
    split at h
    · cases h
    · rename_i hne
      have hnil : body ≠ [] := fun e => hne (e ▸ hbody.byte 0).2
      rw [if_neg hnil]
      refine ⟨_, rfl, ?_⟩
      rw [scanName_spec hbody hbodylen] at h
      have hsplit : StringAt ⟨buf, BUF⟩ a (body.takeWhile inPath ++ body.dropWhile inPath) := by
        rwa [List.takeWhile_append_dropWhile]
      have hrest := hsplit.suffix
      obtain ⟨dir, hdir⟩ := baseName_suffix (body.takeWhile inPath)
      -- where `i_name` is, with or without a `/`
      have hname : (if 47 ∈ body.takeWhile inPath then a + (body.takeWhile inPath).length
          - (baseName (body.takeWhile inPath)).length else a) = a + dir.length := by
        have hlen := congrArg List.length hdir
        rw [List.length_append] at hlen
        split
        · omega
        · rename_i hno
          rw [baseName_of_not_mem hno] at hlen
          omega
      rw [hname] at h
      dsimp only at h
      generalize body.takeWhile inPath = path at h hsplit hrest hdir
      split at h
      · -- a blank behind the path
        rename_i hend
        obtain rfl := Option.some.inj h
        cases hr : body.dropWhile inPath with
        | nil =>
            rw [hr] at hrest
            exact absurd (hrest.byte 0).2 hend
        | cons c arg =>
            rw [hr] at hsplit hrest
            have hcut := hsplit.cut
            refine ⟨hcut.shift, (hdir ▸ hcut : StringAt _ a (dir ++ _)).suffix.shift,
              fun i hi => ?_, fun hi => nomatch hi⟩
            obtain rfl := Option.some.inj hi
            exact ⟨arg, rfl, (hrest.tail.behind (Nat.lt_succ_self _)).shift⟩
      · rename_i hend
        obtain rfl := Option.some.inj h
        have hr : body.dropWhile inPath = [] := by
          cases hr : body.dropWhile inPath with
          | nil => rfl
          | cons c arg =>
              rw [hr] at hrest
              have hc : buf (a + path.length + 0) = c := (hrest.byte 0).1 (Nat.zero_lt_succ _)
              exact absurd (hc.symm.trans (not_not.mp hend))
                (hrest.nonzero c (List.mem_cons_self ..))
        rw [hr] at hsplit ⊢
        rw [List.append_nil] at hsplit
        exact ⟨hsplit.shift, (hdir ▸ hsplit : StringAt _ a (dir ++ _)).suffix.shift,
          fun i hi => (nomatch hi), fun _ => rfl⟩

end Exec

end Linux011
