import VegaOS.Src.MmuInit

/-!
# What `aarch64_mmu_init` writes

`tcr` is put together from fields at distinct places, and those in the lower
half are as they are meant to be. But `0x02 << 30` is a negative `int`, and so
is the whole of the lower half: its sign fills bits 63 to 32. The word is the
same for every value of the identification register, and the fields in its
upper half are lost.

`mair` is what it is meant to be.
-/

namespace VegaOS

open ByteMem

/-- A field of a register: its lowest bit, its width and its value. -/
structure Field where
  pos : ℕ
  width : ℕ
  value : ℕ
deriving DecidableEq, Repr

def Field.Holds (f : Field) (w : Word) : Prop :=
  w.extractLsb' f.pos f.width = BitVec.ofNat f.width f.value

instance (f : Field) (w : Word) : Decidable (f.Holds w) :=
  inferInstanceAs (Decidable (_ = _))

def Field.Covers (f : Field) (i : ℕ) : Prop := f.pos ≤ i ∧ i < f.pos + f.width

instance (f : Field) (i : ℕ) : Decidable (f.Covers i) :=
  inferInstanceAs (Decidable (_ ∧ _))

/-- Every field has its value, and every bit that is in no field is 0. -/
structure MadeOf (w : Word) (fs : List Field) : Prop where
  fields : ∀ f ∈ fs, f.Holds w
  rest : ∀ i, i < 64 → (∀ f ∈ fs, ¬ f.Covers i) → w.getLsbD i = false

/-- The fields of `tcr` in bits 31 to 0. -/
def tcrLower : List Field :=
  [⟨0, 6, 0x10⟩, ⟨16, 6, 0x10⟩, ⟨30, 2, 0x02⟩, ⟨8, 2, 0x01⟩, ⟨10, 2, 0x01⟩,
    ⟨12, 2, 0x02⟩, ⟨24, 2, 0x01⟩, ⟨26, 2, 0x01⟩, ⟨28, 2, 0x02⟩]

/-- The fields `tcr` names, given the size of physical addresses. -/
def tcrFields (paRange : ℕ) : List Field :=
  tcrLower ++ [⟨36, 1, 0x01⟩, ⟨32, 3, paRange⟩]

/-- The slots of `mair`, given what the framebuffer's was. -/
def mairFields (fb : ℕ) : List Field :=
  [⟨8, 8, if fb = 0xFF then 0xC else fb⟩, ⟨0, 8, 0xFF⟩, ⟨16, 8, 0x00⟩,
    ⟨24, 8, 0x04⟩]

/-- `PARange` of the identification register. -/
def paRange (r : SysRegs) : ℕ := r.idAa64mmfr0El1.toNat % 16

/-- The framebuffer's slot of `mair`. -/
def fbSlot (r : SysRegs) : ℕ := r.mairEl1.toNat / 2 ^ 8 % 2 ^ 8

/-- The registers are as the two expressions read, field by field. -/
structure AsNamed (r : SysRegs) : Prop where
  tcr : MadeOf (aarch64MmuInit r).1.tcrEl1 (tcrFields (paRange r))
  mair : MadeOf (aarch64MmuInit r).1.mairEl1 (mairFields (fbSlot r))

/-! ## `tcr` -/

/-- A word whose upper half is all ones already absorbs what is shifted up
there. -/
theorem or_shiftLeft_32 {w : Word}
    (hw : ∀ i, i < 64 → 32 ≤ i → w.getLsbD i = true) (x : Word) :
    w ||| (x <<< 32) = w := by
  apply BitVec.eq_of_getLsbD_eq
  intro i hi
  rw [BitVec.getLsbD_or, BitVec.getLsbD_shiftLeft]
  by_cases hhi : 32 ≤ i
  · rw [hw i hi hhi, Bool.true_or]
  · simp [show i < 32 by omega]

/-- The sign of the lower half is all that is left of the upper one. -/
theorem tcrValue_eq (idMmfr0 : Word) :
    tcrValue idMmfr0 = 0xFFFFFFFFA5102510 := by
  have hlow : tcrInt.widen ||| (0x01#64 <<< 36) = 0xFFFFFFFFA5102510 := by
    decide
  have hones : ∀ i, i < 64 → 32 ≤ i →
      BitVec.getLsbD (0xFFFFFFFFA5102510 : Word) i = true := by decide
  rw [tcrValue, hlow, or_shiftLeft_32 hones]

/-! ## `mair` -/

/-- The byte `fb_attr` is taken from. -/
def fbByte (mairEl1 : Word) : Byte := BitVec.ofNat 8 (mairEl1.toNat / 2 ^ 8)

theorem and_mask_eq (mairEl1 : Word) :
    (mairEl1 >>> 8) &&& 0xFF = (fbByte mairEl1).setWidth 64 := by
  apply BitVec.eq_of_toNat_eq
  have hmask : (0xFF : Word).toNat = 2 ^ 8 - 1 := rfl
  rw [BitVec.toNat_and, hmask, Nat.and_two_pow_sub_one_eq_mod,
    BitVec.toNat_ushiftRight, Nat.shiftRight_eq_div_pow, fbByte,
    BitVec.toNat_setWidth, BitVec.toNat_ofNat]
  omega

theorem fbAttr_eq (mairEl1 : Word) :
    fbAttr mairEl1 =
      (if fbByte mairEl1 = 0xFF then 0xC else fbByte mairEl1).setWidth 64 := by
  rw [fbAttr, and_mask_eq]
  generalize fbByte mairEl1 = b
  revert b
  decide +kernel

/-- Whatever the framebuffer's attributes are, each slot is its own byte. -/
theorem slots_madeOf (b : Byte) :
    MadeOf ((b.setWidth 64 <<< 8) ||| CInt.widen (0xFF <<< 0) |||
      CInt.widen (0x00 <<< 16) ||| CInt.widen (0x04 <<< 24))
      [⟨8, 8, b.toNat⟩, ⟨0, 8, 0xFF⟩, ⟨16, 8, 0x00⟩, ⟨24, 8, 0x04⟩] := by
  constructor
  · revert b
    decide +kernel
  · intro i hi hfree
    have hhi : 32 ≤ i := by
      simp only [List.forall_mem_cons, Field.Covers] at hfree
      omega
    have hupper : ∀ i, i < 64 → 32 ≤ i →
        (CInt.widen (0xFF <<< 0) ||| CInt.widen (0x00 <<< 16) |||
          CInt.widen (0x04 <<< 24)).getLsbD i = false := by decide
    rw [BitVec.or_assoc, BitVec.or_assoc, BitVec.getLsbD_or,
      ← BitVec.or_assoc, hupper i hi hhi, BitVec.getLsbD_shiftLeft,
      BitVec.getLsbD_setWidth, BitVec.getLsbD_of_ge b (i - 8) (by omega)]
    simp

theorem mairValue_madeOf (r : SysRegs) :
    MadeOf (mairValue r.mairEl1) (mairFields (fbSlot r)) := by
  have hslot : (fbByte r.mairEl1).toNat = fbSlot r := BitVec.toNat_ofNat _ _
  have hfb : (if fbByte r.mairEl1 = 0xFF then (0xC : Byte)
      else fbByte r.mairEl1).toNat =
      if fbSlot r = 0xFF then 0xC else fbSlot r := by
    rw [← hslot]
    generalize fbByte r.mairEl1 = b
    revert b
    decide +kernel
  rw [mairValue, fbAttr_eq, mairFields, ← hfb]
  exact slots_madeOf _

/-- `mair` and the lower half of `tcr` are right on every machine, and the
upper half of `tcr` on none. -/
theorem never_asNamed (r : SysRegs) :
    MadeOf (aarch64MmuInit r).1.mairEl1 (mairFields (fbSlot r)) ∧
      (∀ f ∈ tcrLower, f.Holds (aarch64MmuInit r).1.tcrEl1) ∧
      (aarch64MmuInit r).1.tcrEl1 = 0xFFFFFFFFA5102510 ∧ ¬ AsNamed r := by
  have htcr : (aarch64MmuInit r).1.tcrEl1 = 0xFFFFFFFFA5102510 :=
    tcrValue_eq r.idAa64mmfr0El1
  refine ⟨mairValue_madeOf r, ?_, htcr, fun h => ?_⟩
  · rw [htcr]
    decide
  · -- bit 63 is in no field
    have hrest := h.tcr.rest 63 (by decide)
      (by simp [tcrFields, tcrLower, Field.Covers])
    rw [htcr] at hrest
    exact absurd hrest (by decide)

/-- A machine with 48-bit physical addresses. -/
def regs48 : SysRegs := ⟨0xFF, 0, 5, 0x1000, 0x2000⟩

theorem not_asNamed_regs48 : paRange regs48 = 5 ∧
    (aarch64MmuInit regs48).1.tcrEl1.extractLsb' 32 3 = 7 ∧
    (aarch64MmuInit regs48).1.tcrEl1.getLsbD 35 = true ∧ ¬ AsNamed regs48 := by
  have hsize : (aarch64MmuInit regs48).1.tcrEl1.extractLsb' 32 3 = 7 := by
    decide
  refine ⟨by decide, hsize, by decide, fun h => ?_⟩
  have hfield := h.tcr.fields ⟨32, 3, paRange regs48⟩ (by decide)
  rw [Field.Holds, hsize] at hfield
  exact absurd hfield (by decide)

end VegaOS
