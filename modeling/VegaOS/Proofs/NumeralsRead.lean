import VegaOS.Lib.Positional
import VegaOS.Proofs.Numerals

/-!
# Reading the numerals back

What `hex2str` and `dec2str` return is read as any reader of numerals would
read it, and gives the number. There are no superfluous zeros in front, except
that a hexadecimal numeral has two digits at least. An index outside a buffer
would leave the functions without a result, and they have one for every number
and every buffer.
-/

namespace VegaOS

open ByteMem Buffer

/-- A decimal digit. -/
def decValue (c : Byte) : Option ℕ :=
  if ascii '0' ≤ c ∧ c ≤ ascii '9' then some (c.toNat - 0x30) else none

/-- A hexadecimal digit, in upper case. -/
def hexValue (c : Byte) : Option ℕ :=
  if ascii 'A' ≤ c ∧ c ≤ ascii 'F' then some (c.toNat - 0x41 + 10)
  else decValue c

def readDec (s : List Byte) : Option ℕ := Positional.read 10 decValue s

/-- A hexadecimal numeral, after `0x`. -/
def readHex : List Byte → Option ℕ
  | zero :: x :: s =>
      if zero = ascii '0' ∧ x = ascii 'x' then Positional.read 16 hexValue s
      else none
  | _ => none

theorem hexValue_hexDigit : ∀ d, d < 16 → hexValue (hexDigit d) = some d := by
  decide

theorem decValue_decDigit : ∀ d, d < 10 → decValue (decDigit d) = some d := by
  decide

section Numeral

variable {b : ℕ} {name : ℕ → Byte} {value : Byte → Option ℕ}

/-- The numerals of the code are those of `Positional`, but for 0. -/
theorem numeral_reverse (n : Word) :
    (numeral b name n).reverse =
      if n = 0 then [ascii '0'] else Positional.write b name n.toNat := by
  rw [numeral]
  split
  · rfl
  · rfl

theorem read_numeral (hb : 1 < b)
    (hname : ∀ d, d < b → value (name d) = some d)
    (hzero : value (ascii '0') = some 0) (n : Word) :
    Positional.read b value (numeral b name n).reverse = some n.toNat := by
  rw [numeral_reverse]
  split
  · rename_i hn
    rw [hn, Positional.read_zero_cons hzero]
    rfl
  · exact Positional.read_write hb hname n.toNat

/-- A numeral starts with 0 only if it is the numeral of 0. -/
theorem head_numeral (hb : 1 < b)
    (hname : ∀ d, d < b → 0 < d → name d ≠ ascii '0') {n : Word}
    (h : (numeral b name n).reverse.head? = some (ascii '0')) : n = 0 := by
  by_contra hn
  have hn' : n.toNat ≠ 0 := fun h0 => hn (BitVec.eq_of_toNat_eq h0)
  rw [numeral_reverse, if_neg hn] at h
  obtain ⟨d, hpos, hlt, hhead⟩ := Positional.head_write hb hn'
  rw [hhead] at h
  exact hname d hlt hpos (Option.some.inj h)

theorem lt_length_numeral_reverse (hb : 1 < b) {k : ℕ} {n : Word}
    (h : b ^ k ≤ n.toNat) : k < (numeral b name n).reverse.length := by
  rw [numeral_reverse]
  split
  · rename_i hn
    rw [hn] at h
    have hpos : 0 < b ^ k := Nat.pow_pos (by omega)
    have hzero : (0 : Word).toNat = 0 := rfl
    omega
  · exact Positional.lt_length_write hb h

theorem length_numeral_reverse_le (hb : 1 < b) {k : ℕ} (hk : 1 ≤ k) {n : Word}
    (h : n.toNat < b ^ k) : (numeral b name n).reverse.length ≤ k := by
  rw [numeral_reverse]
  split
  · exact hk
  · exact Positional.length_write_le hb h

end Numeral

/-! ## Hexadecimal -/

/-- The digits after `0x`. -/
def hexDigits (n : Word) : List Byte :=
  (if n < 0x10 then [ascii '0'] else []) ++ (numeral 16 hexDigit n).reverse

theorem hexNumeral_eq (n : Word) :
    hexNumeral n = [ascii '0', ascii 'x'] ++ hexDigits n :=
  List.append_assoc _ _ _

theorem readHex_hexNumeral (n : Word) : readHex (hexNumeral n) = some n.toNat := by
  have hzero : hexValue (ascii '0') = some 0 := by decide
  have hread := read_numeral (by decide) hexValue_hexDigit hzero n
  rw [hexNumeral_eq]
  show Positional.read 16 hexValue (hexDigits n) = _
  rw [hexDigits]
  split
  · rw [List.singleton_append, Positional.read_zero_cons hzero, hread]
  · rw [List.nil_append, hread]

theorem lt_sixteen_iff (n : Word) : n < 0x10 ↔ n.toNat < 16 :=
  BitVec.lt_def

/-- Two digits are the least there can be, and there are more only where they
are needed. -/
theorem length_hexDigits (n : Word) :
    2 ≤ (hexDigits n).length ∧ (hexDigits n).length ≤ 16 ∧
      (n < 0x10 → (hexDigits n).length = 2) := by
  have hb : 1 < 16 := by decide
  rw [hexDigits]
  by_cases hn : n < 0x10
  · have hlt : n.toNat < 16 := (lt_sixteen_iff n).1 hn
    have hone : (numeral 16 hexDigit n).reverse.length ≤ 1 :=
      length_numeral_reverse_le hb (Nat.le_refl 1) hlt
    have hpos : 0 < (numeral 16 hexDigit n).reverse.length :=
      List.length_pos_of_ne_nil fun h =>
        numeral_ne_nil n (List.reverse_eq_nil_iff.1 h)
    rw [if_pos hn, List.length_append, List.length_singleton]
    omega
  · have hge : 16 ≤ n.toNat :=
      Nat.le_of_not_lt fun h => hn ((lt_sixteen_iff n).2 h)
    have htwo : 1 < (numeral 16 hexDigit n).reverse.length :=
      lt_length_numeral_reverse hb hge
    have hmost : (numeral 16 hexDigit n).reverse.length ≤ 16 :=
      length_numeral_reverse_le hb (by decide) n.isLt
    rw [if_neg hn, List.nil_append]
    exact ⟨htwo, hmost, fun h => absurd h hn⟩

theorem head_hexDigits (n : Word) :
    (hexDigits n).head? = some (ascii '0') ↔ n < 0x10 := by
  have hdigit : ∀ d, d < 16 → 0 < d → hexDigit d ≠ ascii '0' := by decide
  rw [hexDigits]
  by_cases hn : n < 0x10
  · rw [if_pos hn]
    exact iff_of_true rfl hn
  · rw [if_neg hn, List.nil_append]
    refine iff_of_false (fun h => hn ?_) hn
    rw [head_numeral (by decide) hdigit h]
    decide

/-- Whatever the buffer held, `hex2str` returns, and returns `0x` and the
hexadecimal numeral of its argument, with two digits at least and otherwise no
leading zero. It reads back as the argument, so two arguments have two
numerals. -/
theorem hex2str_readable (hexString : StringBuffer) (n : Word) :
    ∃ text digits, hex2str hexString n = some text ∧
      Starts text ([ascii '0', ascii 'x'] ++ digits ++ [0]) ∧
      readHex ([ascii '0', ascii 'x'] ++ digits) = some n.toNat ∧
      2 ≤ digits.length ∧ digits.length ≤ 16 ∧
      (n < 0x10 → digits.length = 2) ∧
      (digits.head? = some (ascii '0') ↔ n < 0x10) ∧
      ∀ hexString' m text', hex2str hexString' m = some text' →
        cString text'.toList = cString text.toList → m = n := by
  obtain ⟨text, hrun, htext⟩ := hex2str_starts hexString n
  obtain ⟨htwo, hmost, hpad⟩ := length_hexDigits n
  have hread := readHex_hexNumeral n
  have hstring : cString text.toList = hexNumeral n :=
    cString_of_starts htext fun _ => ne_zero_of_mem_hexNumeral
  rw [hexNumeral_eq] at htext hread
  refine ⟨text, hexDigits n, hrun, htext, hread, htwo, hmost, hpad,
    head_hexDigits n, fun hexString' m text' hrun' hsame => ?_⟩
  obtain ⟨text'', hrun'', hstring'⟩ := hex2str_spec hexString' m
  obtain rfl : text' = text'' := Option.some.inj (hrun'.symm.trans hrun'')
  have hnumeral : hexNumeral m = hexNumeral n :=
    hstring'.symm.trans (hsame.trans hstring)
  have hvalue := readHex_hexNumeral m
  rw [hnumeral, readHex_hexNumeral] at hvalue
  exact BitVec.eq_of_toNat_eq (Option.some.inj hvalue).symm

/-! ## Decimal -/

theorem readDec_decNumeral (n : Word) : readDec (decNumeral n) = some n.toNat :=
  read_numeral (by decide) decValue_decDigit (by decide) n

/-- Whatever the buffer held, `dec2str` returns, and returns the decimal
numeral of its argument, for arguments from `2 ^ 63` on as for all others. -/
theorem dec2str_readable (decString : StringBuffer) (n : Word) :
    ∃ text digits, dec2str decString n = some text ∧
      Starts text (digits ++ [0]) ∧
      readDec digits = some n.toNat ∧
      (∀ c ∈ digits, (decValue c).isSome) ∧ ascii '-' ∉ digits ∧
      1 ≤ digits.length ∧ digits.length ≤ 20 ∧
      (digits.head? = some (ascii '0') → n = 0 ∧ digits = [ascii '0']) := by
  obtain ⟨text, hrun, htext⟩ := dec2str_starts decString n
  have hread := readDec_decNumeral n
  have hdigits : ∀ c ∈ decNumeral n, (decValue c).isSome :=
    Positional.isSome_of_read hread
  have hdigit : ∀ d, d < 10 → 0 < d → decDigit d ≠ ascii '0' := by decide
  refine ⟨text, decNumeral n, hrun, htext, hread, hdigits, fun hsign => ?_,
    ?_, ?_, fun hhead => ?_⟩
  · exact absurd (hdigits _ hsign) (by decide)
  · exact List.length_pos_of_ne_nil fun h =>
      numeral_ne_nil n (List.reverse_eq_nil_iff.1 h)
  · exact length_numeral_reverse_le (by decide) (by decide)
      (Nat.lt_of_lt_of_le n.isLt (by decide))
  · obtain rfl : n = 0 := head_numeral (by decide) hdigit hhead
    exact ⟨rfl, rfl⟩

end VegaOS
