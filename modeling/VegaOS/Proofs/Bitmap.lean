import VegaOS.Src.Bitmap

/-!
# What the bitmap operations do to bits

Every later fact about the allocator goes through the three rules of this
file. `bitmap_test_bit` reads one bit of one byte; clearing a bit changes the
answer for that bit number and for no other; and the byte it stores to is the
one at offset `bit / 8`. `memset` gets its closed form here as well: the loop
fills exactly the span it was given.
-/

namespace VegaOS

open ByteMem

theorem memset_go_apply (m : Mem) (ptr : Word) (val : Byte) (x : Word) :
    ∀ n, n ≤ 2 ^ 64 →
      memset.go m ptr val n x = if Span ptr n x then val else m x := by
  intro n
  induction n with
  | zero => intro _; simp [memset.go, Span]
  | succ n ih =>
      intro hn
      rw [memset.go]
      by_cases hx : x = ptr + BitVec.ofNat 64 n
      · subst hx
        rw [store_same, if_pos (span_add ptr (Nat.lt_succ_self n) hn)]
      · rw [store_of_ne _ _ hx, ih (by omega)]
        have hspan : Span ptr (n + 1) x ↔ Span ptr n x := by
          simp only [Span]
          constructor
          · intro h
            have hne : (x - ptr).toNat ≠ n := fun heq => hx (by bv_omega)
            omega
          · omega
        simp only [hspan]

theorem memset_apply (m : Mem) (ptr : Word) (val : Byte) (length x : Word) :
    memset m ptr val length x =
      if Span ptr length.toNat x then val else m x :=
  memset_go_apply m ptr val x length.toNat (Nat.le_of_lt length.isLt)

theorem localTo_memset {B : Word → Prop} {ptr length : Word}
    (h : ∀ a, Span ptr length.toNat a → B a) (val : Byte) :
    LocalTo B fun m => memset m ptr val length where
  frame m a ha := by rw [memset_apply, if_neg fun hspan => ha (h a hspan)]
  congr m m' hsame a ha := by rw [memset_apply, memset_apply, hsame a ha]

theorem localTo_bitmapUnsetBit {B : Word → Prop} {bitmap bit : Word}
    (h : B (bitmap + bit / 8)) :
    LocalTo B fun m => bitmapUnsetBit m bitmap bit :=
  LocalTo.store h fun b => (b.setWidth 32 &&& ~~~(bitMask bit)).setWidth 8

/-! ## One byte -/

theorem toNat_div_eight (bit : Word) : (bit / 8).toNat = bit.toNat / 8 :=
  BitVec.toNat_udiv

theorem toNat_mod_eight (bit : Word) : (bit % 8).toNat = bit.toNat % 8 :=
  BitVec.toNat_umod

theorem getLsbD_bitMask (bit : Word) {i : Nat} (hi : i < 32) :
    (bitMask bit).getLsbD i = decide (i = bit.toNat % 8) := by
  have hk : bit.toNat % 8 < 8 := Nat.mod_lt _ (by decide)
  simp only [bitMask, BitVec.shiftLeft_eq', BitVec.getLsbD_shiftLeft,
    BitVec.getLsbD_one, toNat_mod_eight]
  generalize bit.toNat % 8 = k at hk
  by_cases h : i = k
  · subst h; simp [hi]
  · by_cases hlt : i < k
    · simp [hlt, h]
    · simp [show i - k ≠ 0 by omega, h]

/-- The byte `bitmap_unset_bit` stores: the old one with one bit gone, and
nothing lost to the detour through `int`. -/
theorem getLsbD_unset (b : Byte) (bit : Word) {i : Nat} (hi : i < 8) :
    ((b.setWidth 32 &&& ~~~(bitMask bit)).setWidth 8).getLsbD i =
      (b.getLsbD i && decide (i ≠ bit.toNat % 8)) := by
  have hi' : i < 32 := by omega
  simp only [BitVec.getLsbD_setWidth, BitVec.getLsbD_and, BitVec.getLsbD_not,
    getLsbD_bitMask bit hi', hi, hi', decide_true, Bool.true_and, decide_not]

theorem getLsbD_set (b : Byte) (bit : Word) {i : Nat} (hi : i < 8) :
    ((b.setWidth 32 ||| bitMask bit).setWidth 8).getLsbD i =
      (b.getLsbD i || decide (i = bit.toNat % 8)) := by
  have hi' : i < 32 := by omega
  simp only [BitVec.getLsbD_setWidth, BitVec.getLsbD_or,
    getLsbD_bitMask bit hi', hi, hi', decide_true, Bool.true_and]

/-! ## One bit -/

theorem bitmapTestBit_eq_getLsbD (m : Mem) (bitmap bit : Word) :
    bitmapTestBit m bitmap bit =
      (m (bitmap + bit / 8)).getLsbD (bit.toNat % 8) := by
  have hk : bit.toNat % 8 < 8 := Nat.mod_lt _ (by decide)
  rw [bitmapTestBit]
  generalize m (bitmap + bit / 8) = b
  have hmask : ∀ i, i < 32 → (b.setWidth 32 &&& bitMask bit).getLsbD i =
      (b.getLsbD i && decide (i = bit.toNat % 8)) := by
    intro i hi
    simp only [BitVec.getLsbD_and, BitVec.getLsbD_setWidth,
      getLsbD_bitMask bit hi, hi, decide_true, Bool.true_and]
  cases htest : b.getLsbD (bit.toNat % 8) with
  | true =>
      rw [bne_iff_ne]
      intro hzero
      have hbit := hmask (bit.toNat % 8) (by omega)
      rw [hzero, htest] at hbit
      simp at hbit
  | false =>
      rw [bne_eq_false_iff_eq]
      apply BitVec.eq_of_getLsbD_eq
      intro i hi
      rw [hmask i hi]
      by_cases h : i = bit.toNat % 8
      · rw [h, htest]; simp
      · rw [decide_eq_false h]; simp

/-- A bit number is its byte and its place in the byte. -/
theorem mod_eight_eq_iff {b c : Word} (hdiv : c / 8 = b / 8) :
    c.toNat % 8 = b.toNat % 8 ↔ c = b := by
  have h := congrArg BitVec.toNat hdiv
  rw [toNat_div_eight, toNat_div_eight] at h
  constructor
  · intro hmod
    exact BitVec.eq_of_toNat_eq (by omega)
  · rintro rfl
    rfl

theorem bitmapTestBit_unset (m : Mem) (bitmap b c : Word) :
    bitmapTestBit (bitmapUnsetBit m bitmap b) bitmap c =
      (bitmapTestBit m bitmap c && decide (c ≠ b)) := by
  have hk : c.toNat % 8 < 8 := Nat.mod_lt _ (by decide)
  rw [bitmapTestBit_eq_getLsbD, bitmapTestBit_eq_getLsbD, bitmapUnsetBit]
  by_cases hbyte : c / 8 = b / 8
  · rw [hbyte, store_same, getLsbD_unset _ _ hk]
    simp only [ne_eq, mod_eight_eq_iff hbyte]
  · have hne : bitmap + c / 8 ≠ bitmap + b / 8 :=
      fun h => hbyte ((BitVec.add_right_inj bitmap).1 h)
    have hcb : c ≠ b := fun h => hbyte (by rw [h])
    rw [store_of_ne _ _ hne, decide_eq_true hcb, Bool.and_true]

theorem bitmapTestBit_set (m : Mem) (bitmap b c : Word) :
    bitmapTestBit (bitmapSetBit m bitmap b) bitmap c =
      (bitmapTestBit m bitmap c || decide (c = b)) := by
  have hk : c.toNat % 8 < 8 := Nat.mod_lt _ (by decide)
  rw [bitmapTestBit_eq_getLsbD, bitmapTestBit_eq_getLsbD, bitmapSetBit]
  by_cases hbyte : c / 8 = b / 8
  · rw [hbyte, store_same, getLsbD_set _ _ hk]
    simp only [mod_eight_eq_iff hbyte]
  · have hne : bitmap + c / 8 ≠ bitmap + b / 8 :=
      fun h => hbyte ((BitVec.add_right_inj bitmap).1 h)
    have hcb : c ≠ b := fun h => hbyte (by rw [h])
    rw [store_of_ne _ _ hne, decide_eq_false hcb, Bool.or_false]

/-- A bit whose byte `memset` filled with ones is set. -/
theorem bitmapTestBit_memset (m : Mem) (bitmap length bit : Word)
    (h : bit.toNat / 8 < length.toNat) :
    bitmapTestBit (memset m bitmap 0xFF length) bitmap bit = true := by
  have hk : bit.toNat % 8 < 8 := Nat.mod_lt _ (by decide)
  have hspan : Span bitmap length.toNat (bitmap + bit / 8) := by
    have := span_add bitmap h (Nat.le_of_lt length.isLt)
    rwa [← toNat_div_eight, BitVec.ofNat_toNat, BitVec.setWidth_eq] at this
  rw [bitmapTestBit_eq_getLsbD, memset_apply, if_pos hspan]
  generalize bit.toNat % 8 = k at hk
  revert k
  decide

end VegaOS
