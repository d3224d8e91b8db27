import Mathlib.Data.Nat.Digits.Lemmas
import VegaOS.Src.Printk

/-!
# What `hex2str` and `dec2str` leave in their buffers

Both write the digits lowest first, then whatever stands in front of them,
and turn the result round in place. `Draft.Holds` says what has been written
so far; each `push` extends it by one byte, the digit loop extends it by the
digits of the number, and `reverseEnds_toList` is the turn.
-/

namespace VegaOS

open ByteMem Buffer

/-- The bytes written so far are `xs`. -/
structure Draft.Holds (d : Draft) (xs : List Byte) : Prop where
  i : d.i.toNat = xs.length
  text : Starts d.text xs

theorem Draft.holds_nil (text : StringBuffer) : Draft.Holds ⟨text, 0⟩ [] :=
  ⟨rfl, starts_nil text⟩

theorem Draft.Holds.push {d : Draft} {xs : List Byte} (h : d.Holds xs)
    (hroom : xs.length < 80) (c : Byte) :
    ∃ d', d.push c = some d' ∧ d'.Holds (xs ++ [c]) := by
  obtain ⟨text, hwrite, hstarts⟩ := write_starts h.text hroom c
  refine ⟨⟨text, d.i + 1⟩, ?_, ?_, hstarts⟩
  · rw [Draft.push, h.i, hwrite]
    rfl
  · have hi := h.i
    rw [List.length_append, List.length_singleton]
    show (d.i + 1).toNat = _
    bv_omega

theorem Draft.Holds.pushIf {d : Draft} {xs : List Byte} (h : d.Holds xs)
    (hroom : xs.length < 80) (p : Prop) [Decidable p] (c : Byte) :
    ∃ d', d.pushIf p c = some d' ∧ d'.Holds (xs ++ if p then [c] else []) := by
  by_cases hp : p
  · rw [Draft.pushIf, if_pos hp, if_pos hp]
    exact h.push hroom c
  · rw [Draft.pushIf, if_neg hp, if_neg hp, List.append_nil]
    exact ⟨d, rfl, h⟩

/-- `put` leaves the index, so what it wrote is not held yet. -/
theorem Draft.Holds.put {d : Draft} {xs : List Byte} (h : d.Holds xs)
    (hroom : xs.length < 80) (c : Byte) :
    ∃ d', d.put c = some d' ∧ d'.Holds xs ∧ Starts d'.text (xs ++ [c]) := by
  obtain ⟨text, hwrite, hstarts⟩ := write_starts h.text hroom c
  refine ⟨⟨text, d.i⟩, ?_, ⟨h.i, hstarts.of_append⟩, hstarts⟩
  rw [Draft.put, h.i, hwrite]
  rfl

/-! ## The digits -/

section Digits

variable {next : Word → Word} (hnext : ∀ n, 0 < n → next n < n)
variable {digit : Word → Byte} {b : ℕ} {name : ℕ → Byte}

/-- The digits of `n` in base `b`, lowest first and none for 0, are appended
under their names. -/
theorem Draft.Holds.digits (hb : 1 < b)
    (hdiv : ∀ n, (next n).toNat = n.toNat / b)
    (hdigit : ∀ n, digit n = name (n.toNat % b)) (n : Word) :
    ∀ {d : Draft} {xs : List Byte}, d.Holds xs →
      xs.length + (Nat.digits b n.toNat).length ≤ 80 →
      ∃ d', d.digits next hnext digit n = some d' ∧
        d'.Holds (xs ++ (Nat.digits b n.toNat).map name) := by
  induction hn : n.toNat using Nat.strong_induction_on generalizing n with
  | _ k ih =>
      subst hn
      intro d xs h hroom
      rw [Draft.digits]
      by_cases hpos : 0 < n
      · have hlt : (next n).toNat < n.toNat := BitVec.lt_def.1 (hnext n hpos)
        have hcons : Nat.digits b n.toNat =
            n.toNat % b :: Nat.digits b (next n).toNat := by
          rw [hdiv]
          exact Nat.digits_def' hb (BitVec.lt_def.1 hpos)
        rw [hcons, List.length_cons] at hroom
        obtain ⟨d₁, hpush, h₁⟩ := h.push (by omega) (digit n)
        obtain ⟨d', hrest, h'⟩ := ih _ hlt (next n) rfl h₁ (by
          rw [List.length_append, List.length_singleton]
          omega)
        refine ⟨d', ?_, ?_⟩
        · simp only [dif_pos hpos, hpush, Option.bind_eq_bind,
            Option.bind_some, hrest]
        · rw [hcons, List.map_cons, ← hdigit]
          simpa using h'
      · have hzero : n.toNat = 0 := by bv_omega
        refine ⟨d, by simp only [dif_neg hpos]; rfl, ?_⟩
        rw [hzero, Nat.digits_zero]
        simpa using h

end Digits

/-! ## The turn -/

theorem reverseEnds_toList (mid : List Byte) :
    ∀ {text : StringBuffer} {pre post : List Byte} {j i : Byte},
      text.toList = pre ++ (mid ++ post) → j.toNat = pre.length →
      i.toNat + 1 = pre.length + mid.length →
      ∃ text', reverseEnds text j i = some text' ∧
        text'.toList = pre ++ (mid.reverse ++ post) := by
  induction mid using List.bidirectionalRec with
  | nil =>
      intro text pre post j i hlist hj hi
      rw [List.length_nil] at hi
      refine ⟨text, ?_, hlist⟩
      rw [reverseEnds, if_neg (by bv_omega)]
      rfl
  | singleton x =>
      intro text pre post j i hlist hj hi
      rw [List.length_singleton] at hi
      refine ⟨text, ?_, hlist⟩
      rw [reverseEnds, if_neg (by bv_omega)]
      rfl
  | cons_append x mid y ih =>
      intro text pre post j i hlist hj hi
      simp only [List.length_cons, List.length_append, List.length_nil] at hi
      have hends : text.toList = pre ++ x :: (mid ++ y :: post) := by
        simpa using hlist
      obtain ⟨text₁, hswap, hlist₁⟩ := swap_toList hends
      have hi' : i.toNat = pre.length + mid.length + 1 := by omega
      have hlist₂ : text₁.toList = (pre ++ [y]) ++ (mid ++ x :: post) := by
        simpa using hlist₁
      obtain ⟨text', hrest, hlist'⟩ := ih (j := j + 1) (i := i - 1) hlist₂
        (by rw [List.length_append, List.length_singleton]; bv_omega)
        (by rw [List.length_append, List.length_singleton]; bv_omega)
      refine ⟨text', ?_, by simpa using hlist'⟩
      rw [reverseEnds, if_pos (by bv_omega), hj, hi']
      simp only [Option.bind_eq_bind, Option.bind_some, hswap, hrest]

/-- A text written backwards, once it is terminated and turned round. -/
theorem Draft.Holds.turn {d : Draft} {xs : List Byte} (h : d.Holds xs)
    (hne : xs ≠ []) (hroom : xs.length < 80) :
    ∃ d' text, d.put 0 = some d' ∧
      reverseEnds d'.text 0 (d'.i - 1) = some text ∧
      Starts text (xs.reverse ++ [0]) := by
  obtain ⟨d', hput, h', post, hpost⟩ := h.put hroom 0
  have hpos : 0 < xs.length := List.length_pos_of_ne_nil hne
  have hi := h'.i
  have hwhole : d'.text.toList = [] ++ (xs ++ 0 :: post) := by
    simpa using hpost.symm
  have hlast : (d'.i - 1).toNat + 1 = ([] : List Byte).length + xs.length := by
    rw [List.length_nil]
    bv_omega
  obtain ⟨text, hrev, hlist⟩ := reverseEnds_toList xs (j := 0) hwhole rfl hlast
  exact ⟨d', text, hput, hrev, post, by simp [hlist]⟩

/-- A buffer as a C string. -/
theorem cString_of_starts {text : StringBuffer} {s : List Byte}
    (h : Starts text (s ++ [0])) (hs : ∀ c ∈ s, c ≠ 0) :
    cString text.toList = s := by
  obtain ⟨post, hpost⟩ := h
  rw [cString, ← hpost, List.append_assoc, List.takeWhile_append_of_pos]
  · simp
  · intro c hc
    simpa using hs c hc

/-! ## The numerals -/

/-- The digits of `n` in base `b` under their names, lowest first. -/
def numeral (b : ℕ) (name : ℕ → Byte) (n : Word) : List Byte :=
  if n = 0 then [ascii '0'] else (Nat.digits b n.toNat).map name

/-- `0x` and the hexadecimal digits of `n`, at least two of them. -/
def hexNumeral (n : Word) : List Byte :=
  [ascii '0', ascii 'x'] ++ (if n < 0x10 then [ascii '0'] else []) ++
    (numeral 16 hexDigit n).reverse

def decDigit (d : ℕ) : Byte := BitVec.ofNat 8 (0x30 + d)

def decNumeral (n : Word) : List Byte := (numeral 10 decDigit n).reverse

section Numeral

variable {b k : ℕ} {name : ℕ → Byte}

theorem numeral_eq (n : Word) :
    (if n = 0 then [ascii '0'] else []) ++ (Nat.digits b n.toNat).map name =
      numeral b name n := by
  by_cases hn : n = 0
  · subst hn
    simp [numeral]
  · rw [numeral, if_neg hn, if_neg hn, List.nil_append]

theorem length_digits_le (hb : 1 < b) (hk : 2 ^ 64 ≤ b ^ k) (n : Word) :
    (Nat.digits b n.toNat).length ≤ k :=
  (Nat.digits_length_le_iff hb _).2 (Nat.lt_of_lt_of_le n.isLt hk)

theorem length_ite_le (p : Prop) [Decidable p] (c : Byte) :
    (if p then [c] else []).length ≤ 1 := by
  split <;> simp

theorem length_numeral_le (name : ℕ → Byte) (hb : 1 < b)
    (hk : 2 ^ 64 ≤ b ^ k) (n : Word) : (numeral b name n).length ≤ 1 + k := by
  rw [← numeral_eq, List.length_append, List.length_map]
  exact Nat.add_le_add (length_ite_le _ _) (length_digits_le hb hk n)

theorem numeral_ne_nil (n : Word) : numeral b name n ≠ [] := by
  by_cases hn : n = 0
  · simp [numeral, hn]
  · rw [numeral, if_neg hn]
    intro hnil
    have hzero := Nat.digits_eq_nil_iff_eq_zero.1 (List.map_eq_nil_iff.1 hnil)
    exact hn (BitVec.eq_of_toNat_eq hzero)

theorem ne_zero_of_mem_numeral (hb : 1 < b)
    (hname : ∀ d, d < b → name d ≠ 0) {n : Word} {c : Byte}
    (hc : c ∈ numeral b name n) : c ≠ 0 := by
  rw [← numeral_eq] at hc
  rcases List.mem_append.1 hc with hzero | hdigit
  · split at hzero
    · rw [List.mem_singleton.1 hzero]
      decide
    · cases hzero
  · obtain ⟨d, hd, rfl⟩ := List.mem_map.1 hdigit
    exact hname d (Nat.digits_lt_base hb hd)

/-- The digit loop, in a buffer that holds the digit of 0 already. -/
theorem Draft.Holds.numeral {next : Word → Word}
    (hnext : ∀ n, 0 < n → next n < n) {digit : Word → Byte} (hb : 1 < b)
    (hk : 2 ^ 64 ≤ b ^ k) (hroom : 1 + k ≤ 80)
    (hdiv : ∀ n, (next n).toNat = n.toNat / b)
    (hdigit : ∀ n, digit n = name (n.toNat % b)) {n : Word} {d : Draft}
    (h : d.Holds (if n = 0 then [ascii '0'] else [])) :
    ∃ d', d.digits next hnext digit n = some d' ∧
      d'.Holds (VegaOS.numeral b name n) := by
  rw [← numeral_eq]
  refine h.digits hnext hb hdiv hdigit n (Nat.le_trans ?_ hroom)
  exact Nat.add_le_add (length_ite_le _ _) (length_digits_le hb hk n)

end Numeral

theorem hexStart_holds (hexString : StringBuffer) (n : Word) :
    ∃ d, hexStart hexString n = some d ∧
      d.Holds (if n = 0 then [ascii '0'] else []) := by
  by_cases hn : n = 0
  · rw [hexStart, if_pos hn, if_pos hn]
    obtain ⟨d, hpush, h⟩ :=
      (Draft.holds_nil hexString).push (by decide) (ascii '0')
    obtain ⟨d', hput, h', _⟩ := h.put (by decide) 0
    refine ⟨d', ?_, h'⟩
    simp only [hpush, Option.bind_eq_bind, Option.bind_some, hput]
  · rw [hexStart, if_neg hn, if_neg hn]
    exact ⟨_, rfl, Draft.holds_nil hexString⟩

theorem toNat_shiftRight_four (n : Word) :
    (n >>> 4).toNat = n.toNat / 16 := by
  rw [BitVec.toNat_ushiftRight, Nat.shiftRight_eq_div_pow]

theorem nibble_eq (n : Word) : nibble n = hexDigit (n.toNat % 16) := by
  have hmask : (0x0F : Byte).toNat = 2 ^ 4 - 1 := rfl
  have hmod : n.toNat % 2 ^ 8 % 2 ^ 4 = n.toNat % 16 := by omega
  rw [nibble, BitVec.toNat_and, hmask, Nat.and_two_pow_sub_one_eq_mod,
    BitVec.toNat_setWidth, hmod]

theorem lastDigit_eq (n : Word) : lastDigit n = decDigit (n.toNat % 10) := by
  have hten : (10 : Word).toNat = 10 := rfl
  have hascii : (0x30 : Word).toNat = 0x30 := rfl
  apply BitVec.eq_of_toNat_eq
  rw [lastDigit, BitVec.toNat_setWidth, BitVec.toNat_add, BitVec.toNat_umod,
    decDigit, BitVec.toNat_ofNat, hten, hascii]
  omega

theorem ne_zero_of_mem_hexNumeral {n : Word} {c : Byte}
    (hc : c ∈ hexNumeral n) : c ≠ 0 := by
  have hdigit : ∀ d, d < 16 → hexDigit d ≠ 0 := by decide
  have hfront' : ∀ c ∈ [ascii '0', ascii 'x'] ++ [ascii '0'], c ≠ 0 := by
    decide
  rcases List.mem_append.1 hc with hfront | hnum
  · refine hfront' c ?_
    split at hfront
    · exact hfront
    · rw [List.append_nil] at hfront
      exact List.mem_append_left _ hfront
  · exact ne_zero_of_mem_numeral (by decide) hdigit (List.mem_reverse.1 hnum)

theorem ne_zero_of_mem_decNumeral {n : Word} {c : Byte}
    (hc : c ∈ decNumeral n) : c ≠ 0 := by
  have hdigit : ∀ d, d < 10 → decDigit d ≠ 0 := by decide
  exact ne_zero_of_mem_numeral (by decide) hdigit (List.mem_reverse.1 hc)

/-- What `hex2str` leaves in its buffer, whatever that held before. -/
theorem hex2str_starts (hexString : StringBuffer) (n : Word) :
    ∃ text, hex2str hexString n = some text ∧
      Starts text (hexNumeral n ++ [0]) := by
  have hb : 1 < 16 := by decide
  have hk : 2 ^ 64 ≤ 16 ^ 16 := by decide
  have hlen := length_numeral_le hexDigit hb hk n
  have hlen' := length_ite_le (n < 0x10) (ascii '0')
  obtain ⟨d₁, hstart, h₁⟩ := hexStart_holds hexString n
  obtain ⟨d₂, hdigits, h₂⟩ := h₁.numeral shiftRight_four_lt hb hk (by decide)
    toNat_shiftRight_four nibble_eq
  obtain ⟨d₃, hpad, h₃⟩ := h₂.pushIf (by omega) (n < 0x10) (ascii '0')
  obtain ⟨d₄, hx, h₄⟩ := h₃.push
    (by rw [List.length_append]; omega) (ascii 'x')
  obtain ⟨d₅, hzero, h₅⟩ := h₄.push
    (by simp only [List.length_append, List.length_singleton]; omega)
    (ascii '0')
  obtain ⟨d₆, text, hput, hturn, htext⟩ := h₅.turn (by simp)
    (by simp only [List.length_append, List.length_singleton]; omega)
  refine ⟨text, ?_, ?_⟩
  · simp only [hex2str, Option.bind_eq_bind, hstart, hdigits, hpad, hx, hzero,
      hput, Option.bind_some, hturn]
  · have hrev : (((VegaOS.numeral 16 hexDigit n ++
        if n < 0x10 then [ascii '0'] else []) ++ [ascii 'x']) ++
          [ascii '0']).reverse = hexNumeral n := by
      rw [hexNumeral]
      split <;> simp
    rwa [hrev] at htext

/-- What `hex2str` returns. -/
theorem hex2str_spec (hexString : StringBuffer) (n : Word) :
    ∃ text, hex2str hexString n = some text ∧
      cString text.toList = hexNumeral n := by
  obtain ⟨text, hrun, htext⟩ := hex2str_starts hexString n
  exact ⟨text, hrun, cString_of_starts htext fun _ => ne_zero_of_mem_hexNumeral⟩

/-- What `dec2str` leaves in its buffer, whatever that held before. -/
theorem dec2str_starts (decString : StringBuffer) (n : Word) :
    ∃ text, dec2str decString n = some text ∧
      Starts text (decNumeral n ++ [0]) := by
  have hb : 1 < 10 := by decide
  have hk : 2 ^ 64 ≤ 10 ^ 20 := by decide
  have hlen := length_numeral_le decDigit hb hk n
  -- `number` is unsigned, so the branch for a negative one is never taken
  have hneg : ¬ (n ≠ 0 ∧ n < 0) := fun h => absurd h.2 (by bv_omega)
  obtain ⟨d₁, hstart, h₁⟩ := (Draft.holds_nil decString).pushIf (by decide)
    (n = 0) (ascii '0')
  obtain ⟨d₂, hdigits, h₂⟩ := Draft.Holds.numeral div_ten_lt hb hk (by decide)
    (fun n => BitVec.toNat_udiv) lastDigit_eq h₁
  obtain ⟨d₃, text, hput, hturn, htext⟩ := h₂.turn (numeral_ne_nil n)
    (by omega)
  have hsign : d₂.pushIf (n ≠ 0 ∧ n < 0) (ascii '-') = some d₂ := if_neg hneg
  refine ⟨text, ?_, htext⟩
  simp only [dec2str, Option.bind_eq_bind, hstart, if_neg hneg, hdigits, hsign,
    hput, Option.bind_some, hturn]

/-- What `dec2str` returns. -/
theorem dec2str_spec (decString : StringBuffer) (n : Word) :
    ∃ text, dec2str decString n = some text ∧
      cString text.toList = decNumeral n := by
  obtain ⟨text, hrun, htext⟩ := dec2str_starts decString n
  exact ⟨text, hrun, cString_of_starts htext fun _ => ne_zero_of_mem_decNumeral⟩

end VegaOS
