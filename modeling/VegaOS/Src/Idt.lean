import Mathlib.Logic.Function.Basic
import VegaOS.Lib.Amd64
import VegaOS.Lib.Memory

/-!
# The interrupt descriptor table

`set_desc` and `register_exception` of `amd64/idt.c`, and `struct idt_entry`
with its bit-fields, which the compiler lays out from the least significant
bit up.
-/

namespace VegaOS

open ByteMem

/-- `struct idt_entry`. -/
structure IdtEntry where
  offsetLow : BitVec 16
  cs : BitVec 16
  ist : BitVec 3
  zero : BitVec 5
  type : BitVec 4
  zero1 : BitVec 1
  dpl : BitVec 2
  p : BitVec 1
  offsetMid : BitVec 16
  offsetHigh : BitVec 32
  reserved : BitVec 32
deriving DecidableEq, Repr

/-- The byte at offset 4. -/
def IdtEntry.byte4 (e : IdtEntry) : Byte := e.zero ++ e.ist

/-- The byte at offset 5. -/
def IdtEntry.byte5 (e : IdtEntry) : Byte :=
  e.p ++ (e.dpl ++ (e.zero1 ++ e.type))

/-- The sixteen bytes of an entry. -/
def IdtEntry.bits (e : IdtEntry) : BitVec 128 :=
  e.reserved ++ (e.offsetHigh ++ (e.offsetMid ++
    (e.byte5 ++ (e.byte4 ++ (e.cs ++ e.offsetLow)))))

def IDT_TRAP_GATE_FLAGS : Byte := 0x8F
def IDT_INT_GATE_FLAGS : Byte := 0x8E
def IDT_INT_GATE_USER : Byte := 0xEE

/-- `static struct idt_entry idt[256]`. -/
abbrev Idt := Byte → IdtEntry

/-- The table before the first call: a static variable is zero. -/
def Idt.start : Idt := fun _ => ⟨0, 0, 0, 0, 0, 0, 0, 0, 0, 0, 0⟩

def setDesc (idt : Idt) (vector : Byte) (isr : Word) (flags : Byte) : Idt :=
  Function.update idt vector
    { idt vector with
      offsetLow := isr.setWidth 16
      offsetMid := (isr >>> 16).setWidth 16
      offsetHigh := (isr >>> 32).setWidth 32
      reserved := 0
      zero := 0
      ist := 0
      zero1 := 0
      cs := 0x28
      dpl := 3
      p := 1
      type := flags.setWidth 4 }

def registerException (idt : Idt) (vector : Byte) (isr : Word) : Idt :=
  setDesc idt vector isr IDT_TRAP_GATE_FLAGS

end VegaOS
