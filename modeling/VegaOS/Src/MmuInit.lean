import VegaOS.Src.Mmu

/-!
# Setting up the MMU on aarch64

`aarch64_mmu_init` and `aarch64_get_pagemap` of `aarch64/mm/mmu.c`. The words
for the two registers are put together from terms of C's types `int`,
`unsigned long` and `size_t`; an `int` is 32 bits wide, and its sign is
extended where it meets a wider operand.

What `kinfo` prints is in `Src/Init.lean`. The `asid` of a pagemap is left out.
-/

namespace VegaOS

open ByteMem

/-- The system registers the two functions read and write. -/
structure SysRegs where
  mairEl1 : Word
  tcrEl1 : Word
  idAa64mmfr0El1 : Word
  ttbr0El1 : Word
  ttbr1El1 : Word
deriving DecidableEq, Repr

abbrev CInt := BitVec 32

/-- An `int` where a 64-bit operand is wanted. -/
def CInt.widen (x : CInt) : Word := x.signExtend 64

def aarch64GetPagemap (r : SysRegs) : Pagemap :=
  ⟨fun i =>
    if i = TTBR0 then r.ttbr0El1 &&& PTE_ADDR_MASK
    else r.ttbr1El1 &&& PTE_ADDR_MASK⟩

/-- `fb_attr`, once QEMU's has been overridden. -/
def fbAttr (mairEl1 : Word) : Word :=
  let attr := (mairEl1 >>> 8) &&& 0xFF
  if attr = 0xFF then 0xC else attr

def mairValue (mairEl1 : Word) : Word :=
  (fbAttr mairEl1 <<< 8) ||| CInt.widen (0xFF <<< 0) |||
    CInt.widen (0x00 <<< 16) ||| CInt.widen (0x04 <<< 24)

/-- The terms of `tcr` that are of type `int`. -/
def tcrInt : CInt :=
  (0x10 <<< 0) ||| (0x10 <<< 16) ||| (0x02 <<< 30) |||
    (0x01 <<< 8) ||| (0x01 <<< 10) ||| (0x02 <<< 12) |||
    (0x01 <<< 24) ||| (0x01 <<< 26) ||| (0x02 <<< 28)

def tcrValue (idMmfr0 : Word) : Word :=
  let paBits := idMmfr0 &&& 0xF
  tcrInt.widen ||| (0x01#64 <<< 36) ||| (paBits <<< 32)

/-- The registers as they are left, and the static `pagemap`. -/
def aarch64MmuInit (r : SysRegs) : SysRegs × Pagemap :=
  let r' : SysRegs :=
    { r with
      mairEl1 := mairValue r.mairEl1
      tcrEl1 := tcrValue r.idAa64mmfr0El1 }
  (r', aarch64GetPagemap r')

end VegaOS
