import Linux011.ExecArguments

/-!
# The stack of a new program

`create_tables` goes over the strings with the counts alone, and writes their addresses below
them. What it leaves on the stack are the two lists of `ListAt` (`createTables_spec`).

`create_tables` counts the strings and never looks where they end but for their zeros, so that
its specification is an induction over the lists: the strings stand in a row from `p` on
(`Listed`), the loop writes the address of each one and goes over it to the next. It writes below
the strings only, and `Wrote` carries this along, since the strings and the table of one list
must still be there when the other one is written. The zeros behind the data come last; as long
as they end below the stack, they leave what is there (`Tables.kept` in the next module).
-/

namespace Linux011

open Function

namespace Exec

variable {s s' s'' : Segment} {lo hi a : Nat}

/-! ## What is written and what is not -/

/-- Only bytes from `lo` up to `hi` are written. -/
structure Wrote (lo hi : Nat) (s s' : Segment) : Prop where
  limit : s'.limit = s.limit
  byte : ∀ a, a < lo ∨ hi ≤ a → s'.byte a = s.byte a

theorem Wrote.refl (s : Segment) : Wrote lo hi s s := ⟨rfl, fun _ _ => rfl⟩

theorem Wrote.trans (h₁ : Wrote lo hi s s') (h₂ : Wrote lo hi s' s'') : Wrote lo hi s s'' :=
  ⟨h₂.limit.trans h₁.limit, fun a ha => (h₂.byte a ha).trans (h₁.byte a ha)⟩

theorem Wrote.mono {lo' hi' : Nat} (h : Wrote lo hi s s') (hlo : lo' ≤ lo) (hhi : hi ≤ hi') :
    Wrote lo' hi' s s' :=
  ⟨h.limit, fun a ha => h.byte a (by omega)⟩

theorem Wrote.get (h : Wrote lo hi s s') (ha : a < lo ∨ hi ≤ a) : s'.get a = s.get a := by
  unfold Segment.get
  rw [h.limit, h.byte a ha]

theorem Wrote.long (h : Wrote lo hi s s') (ha : a + 4 ≤ lo ∨ hi ≤ a) : s'.long a = s.long a := by
  unfold Segment.long word
  rw [h.limit, h.byte a (by omega), h.byte (a + 1) (by omega), h.byte (a + 2) (by omega),
    h.byte (a + 3) (by omega)]

theorem Wrote.string {str : List Byte} (h : Wrote lo hi s s')
    (ha : a + str.length < lo ∨ hi ≤ a) (hstr : StringAt s a str) : StringAt s' a str := by
  refine ⟨fun j hj => ?_, hstr.nonzero, ?_⟩
  · rw [h.get (by omega)]
    exact hstr.get j hj
  · rw [h.get (by omega)]
    exact hstr.nul

theorem word_bytes {byte : Nat → Byte} {v : Word} (h : ∀ k < 4, byte (a + k) = byteOf v k) :
    word byte a = v := by
  unfold word
  have h0 : byte a = byteOf v 0 := h 0 (by decide)
  rw [h 3 (by decide), h 2 (by decide), h 1 (by decide), h0]
  apply BitVec.eq_of_getLsbD_eq
  intro i hi
  simp only [BitVec.getLsbD_append, getLsbD_byteOf]
  split_ifs
  all_goals
    rw [decide_eq_true (by omega), Bool.true_and]
    congr 1
    omega

theorem putLong_spec {v : Word} (h : a + 3 < s.limit) :
    ∃ s', s.putLong a v = some s' ∧ Wrote a (a + 4) s s' ∧ s'.long a = some v := by
  unfold Segment.putLong
  rw [if_pos h]
  refine ⟨_, rfl, ⟨rfl, fun x hx => ?_⟩, ?_⟩
  · show update (update (update (update s.byte a _) (a + 1) _) (a + 2) _) (a + 3) _ x = _
    rw [update_of_ne (by omega), update_of_ne (by omega), update_of_ne (by omega),
      update_of_ne (by omega)]
  · refine (if_pos h).trans (congrArg some (word_bytes fun k hk => ?_))
    have hk : k = 0 ∨ k = 1 ∨ k = 2 ∨ k = 3 := by omega
    rcases hk with rfl | rfl | rfl | rfl <;> simp

/-! ## Strings in a row -/

/-- The strings are one after the other from `a` on. -/
def Listed (s : Segment) : Nat → List (List Byte) → Prop
  | _, [] => True
  | a, str :: strs => StringAt s a str ∧ Listed s (a + (str.length + 1)) strs

theorem flat_cons (str : List Byte) (strs : List (List Byte)) :
    (flat (str :: strs)).length = str.length + 1 + (flat strs).length := by
  have hcons : flat (str :: strs) = (str ++ [0]) ++ flat strs := rfl
  rw [hcons, List.length_append, List.length_append, List.length_singleton]

theorem length_le_flat (strs : List (List Byte)) : strs.length ≤ (flat strs).length := by
  induction strs with
  | nil => exact Nat.le_refl 0
  | cons str strs ih =>
      rw [flat_cons, List.length_cons]
      omega

theorem Listed.of_flat {strs : List (List Byte)}
    (hget : ∀ j (h : j < (flat strs).length), s.get (a + j) = some (flat strs)[j])
    (hne : ∀ str ∈ strs, ∀ c ∈ str, c ≠ 0) : Listed s a strs := by
  induction strs generalizing a with
  | nil => trivial
  | cons str strs ih =>
      have hcons : flat (str :: strs) = (str ++ [0]) ++ flat strs := rfl
      have hlen : (str ++ [(0 : Byte)]).length = str.length + 1 := by simp
      refine ⟨⟨fun j hj => ?_, hne str (List.mem_cons_self ..), ?_⟩, ih (fun j hj => ?_)
        fun x hx => hne x (List.mem_cons_of_mem _ hx)⟩
      · rw [hget j (by rw [flat_cons]; omega)]
        simp only [hcons]
        rw [List.getElem_append_left (by rw [hlen]; omega), List.getElem_append_left hj]
      · rw [hget str.length (by rw [flat_cons]; omega)]
        simp only [hcons]
        rw [List.getElem_append_left (by rw [hlen]; omega),
          List.getElem_append_right (Nat.le_refl _)]
        simp
      · rw [Nat.add_assoc, hget (str.length + 1 + j) (by rw [flat_cons]; omega)]
        simp only [hcons]
        rw [List.getElem_append_right (by rw [hlen]; omega)]
        simp only [hlen, Nat.add_sub_cancel_left]

theorem Listed.wrote {strs : List (List Byte)} (h : Listed s a strs) (hw : Wrote lo hi s s')
    (ha : hi ≤ a) : Listed s' a strs := by
  induction strs generalizing a with
  | nil => trivial
  | cons str strs ih =>
      exact ⟨hw.string (.inr ha) h.1, ih h.2 (by omega)⟩

theorem Listed.append {strs strs' : List (List Byte)} (h : Listed s a (strs ++ strs')) :
    Listed s a strs ∧ Listed s (a + (flat strs).length) strs' := by
  induction strs generalizing a with
  | nil => exact ⟨trivial, h⟩
  | cons str strs ih =>
      obtain ⟨h₁, h₂⟩ := ih h.2
      refine ⟨⟨h.1, h₁⟩, ?_⟩
      rwa [flat_cons, ← Nat.add_assoc]

theorem Listed.le_limit {strs : List (List Byte)} (h : Listed s a strs) (ha : a ≤ s.limit) :
    a + (flat strs).length ≤ s.limit := by
  induction strs generalizing a with
  | nil => exact ha
  | cons str strs ih =>
      have hlt := Segment.get_lt h.1.nul
      have := ih h.2 (by omega)
      rw [flat_cons]
      omega

theorem Listed.string {strs : List (List Byte)} (h : Listed s a strs) {i : Nat}
    (hi : i < strs.length) : StringAt s (a + (flat (strs.take i)).length) strs[i] := by
  induction strs generalizing a i with
  | nil => exact absurd hi (Nat.not_lt_zero _)
  | cons str strs ih =>
      cases i with
      | zero => exact h.1
      | succ i =>
          have := ih h.2 (Nat.lt_of_succ_lt_succ hi)
          rw [List.take_succ_cons, flat_cons, ← Nat.add_assoc]
          exact this

/-! ## The tables -/

theorem toNat_ofNat {n : Nat} (h : n < 0x100000000) : (BitVec.ofNat 32 n).toNat = n := by
  rw [BitVec.toNat_ofNat]
  exact Nat.mod_eq_of_lt h

theorem writeTable_spec {strs : List (List Byte)} {t : Nat} (h : Listed s a strs)
    (ht : t + 4 * strs.length ≤ a) (ha : a ≤ s.limit) (hlim : s.limit ≤ 0x100000000) :
    ∃ s', writeTable strs.length s a (BitVec.ofNat 32 t)
        = .ok (s', a + (flat strs).length, BitVec.ofNat 32 (t + 4 * strs.length)) ∧
      Wrote t (t + 4 * strs.length) s s' ∧ ∀ i < strs.length,
        s'.long (t + 4 * i) = some (BitVec.ofNat 32 (a + (flat (strs.take i)).length)) := by
  induction strs generalizing s a t with
  | nil => exact ⟨s, rfl, .refl s, fun i hi => absurd hi (Nat.not_lt_zero i)⟩
  | cons str strs ih =>
      rw [List.length_cons] at ht ⊢
      have hstr := Segment.get_lt h.1.nul
      obtain ⟨s₁, hput, hw₁, hlong₁⟩ := putLong_spec (s := s) (a := t) (v := BitVec.ofNat 32 a)
        (by omega)
      have hstr₁ := hw₁.string (.inr (by omega)) h.1
      obtain ⟨s', hrest, hw', hlong'⟩ := ih (h.2.wrote hw₁ (by omega)) (t := t + 4) (by omega)
        (by rw [hw₁.limit]; omega) (by rw [hw₁.limit]; exact hlim)
      refine ⟨s', ?_, (hw₁.mono (Nat.le_refl _) (by omega)).trans (hw'.mono (by omega) (by omega)),
        fun i hi => ?_⟩
      · unfold writeTable
        rw [toNat_ofNat (by omega), hput]
        simp only [orFault, bind, Except.bind, hstr₁.len]
        have hnext : BitVec.ofNat 32 t + 4 = BitVec.ofNat 32 (t + 4) := (BitVec.ofNat_add ..).symm
        rw [hnext, hrest, flat_cons, Nat.add_assoc a,
          show t + 4 + 4 * strs.length = t + 4 * (strs.length + 1) by omega]
      · cases i with
        | zero =>
            rw [hw'.long (.inl (by omega))]
            exact hlong₁
        | succ i =>
            have := hlong' i (Nat.lt_of_succ_lt_succ hi)
            rw [List.take_succ_cons, flat_cons, ← Nat.add_assoc a,
              show t + 4 * (i + 1) = t + 4 + 4 * i by omega]
            exact this

theorem and_mask (p : Word) : (0xfffffffc &&& p).toNat = p.toNat / 4 * 4 := by
  have hmask : ∀ i, (0xfffffffc : Word).getLsbD i = decide (2 ≤ i ∧ i < 32) :=
    getLsbD_mask (p := fun i => 2 ≤ i ∧ i < 32) (by decide) (by omega)
  have hshift : (0xfffffffc : Word) &&& p = (p >>> 2) <<< 2 := by
    apply BitVec.eq_of_getLsbD_eq
    intro i hi
    rw [BitVec.getLsbD_and, hmask, BitVec.getLsbD_shiftLeft, BitVec.getLsbD_ushiftRight]
    rcases Nat.lt_or_ge i 2 with hlt | hge
    · simp [hlt, Nat.not_le.mpr hlt]
    · simp [hi, hge, Nat.not_lt.mpr hge, show 2 + (i - 2) = i by omega]
  rw [hshift, BitVec.toNat_shiftLeft, BitVec.toNat_ushiftRight, Nat.shiftRight_eq_div_pow,
    Nat.shiftLeft_eq]
  have := p.isLt
  exact Nat.mod_eq_of_lt (by omega)

/-- A table with a 0 behind is a list. -/
theorem ListAt.of_table {strs : List (List Byte)} {t : Nat} (ht : t ≠ 0) (ha : 0 < a)
    (h : Listed s a strs) (hlim : s.limit ≤ 0x100000000)
    (hlong : ∀ i < strs.length,
      s.long (t + 4 * i) = some (BitVec.ofNat 32 (a + (flat (strs.take i)).length)))
    (hlast : s.long (t + 4 * strs.length) = some 0) : ListAt s t strs := by
  refine ⟨fun i hi => ⟨_, hlong i hi, fun h0 => ?_, ?_⟩, fun _ => hlast, fun h0 => absurd h0 ht⟩
  all_goals
    have hstr := h.string hi
    have hlt := Segment.get_lt hstr.nul
    have hnat := toNat_ofNat (n := a + (flat (strs.take i)).length) (by omega)
  · rw [h0] at hnat
    have : 0 = a + (flat (strs.take i)).length := hnat
    omega
  · rw [hnat]
    exact hstr

/-- Where the stack begins, when strings from `a` on are given to `create_tables`. -/
def stackStart (a argc envc : Nat) : Nat := a / 4 * 4 - 4 * (envc + 1) - 4 * (argc + 1) - 12

theorem sub_words {x n : Nat} (hx : x < 0x100000000) (hn : 4 * (n + 1) ≤ x) :
    BitVec.ofNat 32 x - BitVec.ofInt 32 (4 * ((n : Int) + 1))
      = BitVec.ofNat 32 (x - 4 * (n + 1)) := by
  have hint : BitVec.ofInt 32 (4 * ((n : Int) + 1)) = BitVec.ofNat 32 (4 * (n + 1)) := by
    rw [← BitVec.ofInt_natCast]
    rfl
  rw [hint]
  apply BitVec.eq_of_toNat_eq
  rw [BitVec.toNat_sub, toNat_ofNat hx, toNat_ofNat (by omega), toNat_ofNat (by omega)]
  omega

theorem sub_toNat {x n : Nat} (hx : x < 0x100000000) (hn : n ≤ x) :
    (BitVec.ofNat 32 x - BitVec.ofNat 32 n).toNat = x - n := by
  rw [BitVec.toNat_sub, toNat_ofNat hx, toNat_ofNat (by omega)]
  omega

/-- The stack of a new program at `q`: `argc`, `argv` and `envp`, the two tables, and the strings
from `a` on. -/
structure Tables (s : Segment) (a q : Nat) (given environ : List (List Byte)) : Prop where
  argc : s.long q = some (BitVec.ofNat 32 given.length)
  argv : s.long (q + 4) = some (BitVec.ofNat 32 (q + 12))
  envp : s.long (q + 8) = some (BitVec.ofNat 32 (q + 12 + 4 * (given.length + 1)))
  args : ∀ i < given.length, s.long (q + 12 + 4 * i)
    = some (BitVec.ofNat 32 (a + (flat (given.take i)).length))
  args_end : s.long (q + 12 + 4 * given.length) = some 0
  env : ∀ i < environ.length, s.long (q + 12 + 4 * (given.length + 1) + 4 * i)
    = some (BitVec.ofNat 32 (a + (flat given).length + (flat (environ.take i)).length))
  env_end : s.long (q + 12 + 4 * (given.length + 1) + 4 * environ.length) = some 0
  strings : Listed s a (given ++ environ)

/-- `create_tables` writes the stack below the strings, which may be more than the counts say. -/
theorem createTables_spec {args env rest : List (List Byte)} (h : Listed s a (args ++ env ++ rest))
    (hroom : 4 * (env.length + 1) + 4 * (args.length + 1) + 16 ≤ a / 4 * 4) (ha : a ≤ s.limit)
    (hlim : s.limit < 0x100000000) :
    ∃ s', createTables s (BitVec.ofNat 32 a) args.length env.length
        = .ok (BitVec.ofNat 32 (stackStart a args.length env.length), s') ∧
      Wrote (stackStart a args.length env.length) (a / 4 * 4) s s' ∧
      Tables s' a (stackStart a args.length env.length) args env := by
  have hstart : stackStart a args.length env.length
      = a / 4 * 4 - 4 * (env.length + 1) - 4 * (args.length + 1) - 12 := rfl
  generalize stackStart a args.length env.length = q at hstart ⊢
  obtain ⟨argvAt, hargvAt⟩ : ∃ t, t = q + 12 := ⟨_, rfl⟩
  obtain ⟨envpAt, henvpAt⟩ : ∃ t, t = argvAt + 4 * (args.length + 1) := ⟨_, rfl⟩
  have htop : a / 4 * 4 = envpAt + 4 * (env.length + 1) := by omega
  have htopa : a / 4 * 4 ≤ a := Nat.div_mul_le_self a 4
  have hsp : (0xfffffffc : Word) &&& BitVec.ofNat 32 a
      = BitVec.ofNat 32 (envpAt + 4 * (env.length + 1)) := by
    apply BitVec.eq_of_toNat_eq
    rw [and_mask, toNat_ofNat (by omega), toNat_ofNat (by omega), htop]
  have henvp : BitVec.ofNat 32 (envpAt + 4 * (env.length + 1))
      - BitVec.ofInt 32 (4 * ((env.length : Int) + 1)) = BitVec.ofNat 32 envpAt := by
    rw [sub_words (by omega) (by omega), Nat.add_sub_cancel]
  have hargv : BitVec.ofNat 32 envpAt - BitVec.ofInt 32 (4 * ((args.length : Int) + 1))
      = BitVec.ofNat 32 argvAt := by
    rw [sub_words (by omega) (by omega)]
    congr 1
    omega
  have h4 : (BitVec.ofNat 32 argvAt - 4).toNat = q + 8 := by
    rw [show (4 : Word) = BitVec.ofNat 32 4 from rfl, sub_toNat (by omega) (by omega)]
    omega
  have h8 : (BitVec.ofNat 32 argvAt - 8).toNat = q + 4 := by
    rw [show (8 : Word) = BitVec.ofNat 32 8 from rfl, sub_toNat (by omega) (by omega)]
    omega
  have h12 : BitVec.ofNat 32 argvAt - 12 = BitVec.ofNat 32 q := by
    apply BitVec.eq_of_toNat_eq
    rw [show (12 : Word) = BitVec.ofNat 32 12 from rfl, sub_toNat (by omega) (by omega),
      toNat_ofNat (by omega)]
    omega
  -- the three words at the start of the stack
  obtain ⟨s₁, hput₁, hw₁, hlong₁⟩ := putLong_spec (s := s) (a := q + 8)
    (v := BitVec.ofNat 32 envpAt) (by omega)
  obtain ⟨s₂, hput₂, hw₂, hlong₂⟩ := putLong_spec (s := s₁) (a := q + 4)
    (v := BitVec.ofNat 32 argvAt) (by rw [hw₁.limit]; omega)
  obtain ⟨s₃, hput₃, hw₃, hlong₃⟩ := putLong_spec (s := s₂) (a := q)
    (v := BitVec.ofNat 32 args.length) (by rw [hw₂.limit, hw₁.limit]; omega)
  have hlim₃ : s₃.limit = s.limit := by rw [hw₃.limit, hw₂.limit, hw₁.limit]
  have hlist₃ : Listed s₃ a (args ++ env ++ rest) :=
    ((h.wrote hw₁ (by omega)).wrote hw₂ (by omega)).wrote hw₃ (by omega)
  -- the arguments
  obtain ⟨s₄, htab₄, hw₄, hlong₄⟩ := writeTable_spec (t := argvAt) hlist₃.append.1.append.1
    (by omega) (by omega) (by omega)
  obtain ⟨s₅, hput₅, hw₅, hlong₅⟩ := putLong_spec (s := s₄) (a := argvAt + 4 * args.length)
    (v := 0) (by rw [hw₄.limit, hlim₃]; omega)
  have hlim₅ : s₅.limit = s.limit := by rw [hw₅.limit, hw₄.limit, hlim₃]
  have hlist₅ : Listed s₅ a (args ++ env ++ rest) :=
    (hlist₃.wrote hw₄ (by omega)).wrote hw₅ (by omega)
  -- the environment
  obtain ⟨s₆, htab₆, hw₆, hlong₆⟩ := writeTable_spec (t := envpAt) hlist₅.append.1.append.2
    (by omega)
    (hlist₅.append.1.append.1.le_limit (by omega)) (by omega)
  obtain ⟨s₇, hput₇, hw₇, hlong₇⟩ := putLong_spec (s := s₆) (a := envpAt + 4 * env.length)
    (v := 0) (by rw [hw₆.limit, hlim₅]; omega)
  have hlist₇ : Listed s₇ a (args ++ env ++ rest) :=
    (hlist₅.wrote hw₆ (by omega)).wrote hw₇ (by omega)
  have hlong₄' : ∀ i < args.length, s₇.long (argvAt + 4 * i)
      = some (BitVec.ofNat 32 (a + (flat (args.take i)).length)) := by
    intro i hi
    rw [hw₇.long (.inl (by omega)), hw₆.long (.inl (by omega)), hw₅.long (.inl (by omega))]
    exact hlong₄ i hi
  have hlong₆' : ∀ i < env.length, s₇.long (envpAt + 4 * i)
      = some (BitVec.ofNat 32 (a + (flat args).length + (flat (env.take i)).length)) := by
    intro i hi
    rw [hw₇.long (.inl (by omega))]
    exact hlong₆ i hi
  subst henvpAt hargvAt
  refine ⟨s₇, ?_, ?_, ?_, ?_, ?_, hlong₄', ?_, hlong₆', hlong₇, hlist₇.append.1⟩
  · unfold createTables
    dsimp only
    rw [hsp, henvp, hargv, h4, h8, h12, hput₁, toNat_ofNat (by omega), BitVec.ofInt_natCast,
      Int.toNat_natCast, Int.toNat_natCast, toNat_ofNat (by omega)]
    simp only [orFault, bind, Except.bind, hput₂, hput₃, htab₄]
    rw [toNat_ofNat (by omega), hput₅]
    dsimp only
    rw [htab₆]
    dsimp only
    rw [toNat_ofNat (by omega), hput₇]
    rfl
  · exact (hw₁.mono (by omega) (by omega)).trans ((hw₂.mono (by omega) (by omega)).trans
      ((hw₃.mono (by omega) (by omega)).trans ((hw₄.mono (by omega) (by omega)).trans
      ((hw₅.mono (by omega) (by omega)).trans ((hw₆.mono (by omega) (by omega)).trans
      (hw₇.mono (by omega) (by omega)))))))
  · rw [hw₇.long (.inl (by omega)), hw₆.long (.inl (by omega)), hw₅.long (.inl (by omega)),
      hw₄.long (.inl (by omega))]
    exact hlong₃
  · rw [hw₇.long (.inl (by omega)), hw₆.long (.inl (by omega)), hw₅.long (.inl (by omega)),
      hw₄.long (.inl (by omega)), hw₃.long (.inr (by omega))]
    exact hlong₂
  · rw [hw₇.long (.inl (by omega)), hw₆.long (.inl (by omega)), hw₅.long (.inl (by omega)),
      hw₄.long (.inl (by omega)), hw₃.long (.inr (by omega)), hw₂.long (.inr (by omega))]
    exact hlong₁
  · rw [hw₇.long (.inl (by omega)), hw₆.long (.inl (by omega))]
    exact hlong₅

/-! ## What the program finds -/

/-- The stack at `sp` has the arguments and the environment. -/
structure Delivered (s : Segment) (sp : Nat) (given environ : List (List Byte)) : Prop where
  argc : s.long sp = some (BitVec.ofNat 32 given.length)
  lists : ∃ argv envp : Word, s.long (sp + 4) = some argv ∧ s.long (sp + 8) = some envp ∧
    argv ≠ 0 ∧ envp ≠ 0 ∧ ListAt s argv.toNat given ∧ ListAt s envp.toNat environ

theorem Tables.delivered {q : Nat} {given environ : List (List Byte)}
    (h : Tables s a q given environ) (hlim : s.limit < 0x100000000) (ha : 0 < a) :
    Delivered s q given environ := by
  have hargs := h.args_end
  have henv := h.env_end
  have hlt : ∀ {x v}, s.long x = some v → x + 3 < s.limit := by
    intro x v hx
    unfold Segment.long at hx
    split at hx
    · assumption
    · cases hx
  have hargv := toNat_ofNat (n := q + 12) (by have := hlt hargs; omega)
  have henvp := toNat_ofNat (n := q + 12 + 4 * (given.length + 1)) (by have := hlt henv; omega)
  refine ⟨h.argc, _, _, h.argv, h.envp, fun h0 => ?_, fun h0 => ?_, ?_, ?_⟩
  · rw [h0] at hargv
    have : 0 = q + 12 := hargv
    omega
  · rw [h0] at henvp
    have : 0 = q + 12 + 4 * (given.length + 1) := henvp
    omega
  · rw [hargv]
    exact .of_table (by omega) ha h.strings.append.1 (by omega) h.args hargs
  · rw [henvp]
    exact .of_table (by omega) (by omega) h.strings.append.2 (by omega) h.env henv

/-! ## The zeros behind the data -/

theorem Listed.congr {strs : List (List Byte)} (h : Listed s a strs) (hlim : s'.limit = s.limit)
    (hbyte : ∀ x, a ≤ x → x < a + (flat strs).length → s'.byte x = s.byte x) :
    Listed s' a strs := by
  induction strs generalizing a with
  | nil => trivial
  | cons str strs ih =>
      rw [flat_cons] at hbyte
      have hget : ∀ x, a ≤ x → x ≤ a + str.length → s'.get x = s.get x := by
        intro x hlo hhi
        unfold Segment.get
        rw [hlim, hbyte x hlo (by omega)]
      refine ⟨⟨fun j hj => ?_, h.1.nonzero, ?_⟩,
        ih h.2 fun x hlo hhi => hbyte x (by omega) (by omega)⟩
      · rw [hget _ (by omega) (by omega)]
        exact h.1.get j hj
      · rw [hget _ (by omega) (by omega)]
        exact h.1.nul

/-- The stack is the same where its bytes are. -/
theorem Tables.congr {q : Nat} {given environ : List (List Byte)} (h : Tables s a q given environ)
    (hlim : s'.limit = s.limit)
    (hq : q + 12 + 4 * (given.length + 1) + 4 * (environ.length + 1) ≤ a)
    (hbyte : ∀ x, q ≤ x → x < a + (flat (given ++ environ)).length → s'.byte x = s.byte x) :
    Tables s' a q given environ := by
  have hlong : ∀ x, q ≤ x → x + 4 ≤ a → s'.long x = s.long x := by
    intro x hlo hhi
    unfold Segment.long word
    rw [hlim, hbyte x hlo (by omega), hbyte (x + 1) (by omega) (by omega),
      hbyte (x + 2) (by omega) (by omega), hbyte (x + 3) (by omega) (by omega)]
  refine ⟨?_, ?_, ?_, fun i hi => ?_, ?_, fun i hi => ?_, ?_,
    h.strings.congr hlim fun x hlo hhi => hbyte x (by omega) hhi⟩
  · rw [hlong _ (by omega) (by omega)]
    exact h.argc
  · rw [hlong _ (by omega) (by omega)]
    exact h.argv
  · rw [hlong _ (by omega) (by omega)]
    exact h.envp
  · rw [hlong _ (by omega) (by omega)]
    exact h.args i hi
  · rw [hlong _ (by omega) (by omega)]
    exact h.args_end
  · rw [hlong _ (by omega) (by omega)]
    exact h.env i hi
  · rw [hlong _ (by omega) (by omega)]
    exact h.env_end

theorem zeroFill_spec {ex : Header} (h : zeroFill s ex = .ok s') :
    s'.limit = s.limit ∧ ∀ x, s'.byte x = s.byte x ∨
      s'.byte x = 0 ∧ ∃ i ∈ fillAddrs PAGE_SIZE (ex.a_text + ex.a_data), i.toNat = x := by
  refine Loops.foldlM_inv (fun t => t.limit = s.limit ∧ ∀ x, t.byte x = s.byte x ∨
    t.byte x = 0 ∧ ∃ i ∈ fillAddrs PAGE_SIZE (ex.a_text + ex.a_data), i.toNat = x)
    ⟨rfl, fun _ => .inl rfl⟩ (fun i hi t t' ⟨hlim, hbyte⟩ hput => ?_) h
  unfold Segment.put at hput
  split at hput
  · obtain rfl := Except.ok.inj hput
    refine ⟨hlim, fun x => ?_⟩
    rcases eq_or_ne x i.toNat with rfl | hne
    · exact .inr ⟨update_self .., i, hi, rfl⟩
    · dsimp only
      rw [update_of_ne hne]
      exact hbyte x
  · cases hput

/-- The zeros do not fault in front of the limit. -/
theorem zeroFill_ok {ex : Header}
    (h : ∀ i ∈ fillAddrs PAGE_SIZE (ex.a_text + ex.a_data), i.toNat < s.limit) :
    ∃ s', zeroFill s ex = .ok s' := by
  obtain ⟨s', hs', -⟩ := Loops.foldlM_ok
    (f := fun (s : Segment) (i : Word) => orFault (s.put i.toNat 0))
    (l := fillAddrs PAGE_SIZE (ex.a_text + ex.a_data)) (p := []) (s := s)
    (fun _ t => t.limit = s.limit) rfl (by
      intro done i rest t hl hlim
      have hi : i ∈ fillAddrs PAGE_SIZE (ex.a_text + ex.a_data) := by
        rw [show fillAddrs PAGE_SIZE (ex.a_text + ex.a_data) = done ++ i :: rest from hl]
        simp
      unfold Segment.put
      rw [if_pos (by rw [hlim]; exact h i hi)]
      exact ⟨_, rfl, hlim⟩)
  exact ⟨s', hs'⟩

theorem toNat_append {m n : Nat} (x : BitVec m) (y : BitVec n) :
    (x ++ y).toNat = x.toNat * 2 ^ n + y.toNat := by
  rw [BitVec.toNat_append, ← Nat.shiftLeft_add_eq_or_of_lt y.isLt, Nat.shiftLeft_eq]

/-- A word does not grow when bytes of it become 0. -/
theorem long_le {v : Word} (hlim : s'.limit = s.limit)
    (hbyte : ∀ x, s'.byte x = s.byte x ∨ s'.byte x = 0) (h : s.long a = some v) :
    ∃ v', s'.long a = some v' ∧ v'.toNat ≤ v.toNat := by
  have hle : ∀ x, (s'.byte x).toNat ≤ (s.byte x).toNat := by
    intro x
    rcases hbyte x with hx | hx
    · rw [hx]
    · rw [hx]
      exact Nat.zero_le _
  unfold Segment.long at h ⊢
  rw [hlim]
  split at h
  · rename_i hlt
    obtain rfl := Option.some.inj h
    refine ⟨_, if_pos hlt, ?_⟩
    have h0 := hle a
    have h1 := hle (a + 1)
    have h2 := hle (a + 2)
    have h3 := hle (a + 3)
    simp only [word, toNat_append]
    omega
  · cases h

end Exec

end Linux011
