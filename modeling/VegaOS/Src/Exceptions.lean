import VegaOS.Src.Idt
import VegaOS.Src.Printk

/-!
# Exceptions on x86-64

`amd64/gdt.c`, `idt_load` of `amd64/idt.c`, `amd64/exceptions.c`, and what
`arch_init` of `core/init.c` does on this architecture.

`isr` is where the linker puts the functions `MAKE_ISR` defines. The state has
the registers the two load functions set, and the table of `amd64/idt.c`,
which stays where it is while the processor uses it.
-/

namespace VegaOS

open ByteMem

/-! ## Segments -/

/-- `struct gdt_entry`. -/
structure GdtEntry where
  limit : BitVec 16
  baseLow : BitVec 16
  baseMid : Byte
  access : Byte
  granularity : Byte
  baseHi : Byte
deriving DecidableEq, Repr

/-- The eight bytes of an entry. -/
def GdtEntry.bits (e : GdtEntry) : BitVec 64 :=
  e.baseHi ++ (e.granularity ++ (e.access ++ (e.baseMid ++
    (e.baseLow ++ e.limit))))

/-- `static struct gdt_entry gdt[256]`. -/
def gdt : Byte → GdtEntry
  | 0x01 => ⟨0xFFFF, 0x0000, 0x00, 0x9A, 0x00, 0x00⟩
  | 0x02 => ⟨0xFFFF, 0x0000, 0x00, 0x92, 0x00, 0x00⟩
  | 0x03 => ⟨0xFFFF, 0x0000, 0x00, 0x9A, 0xCF, 0x00⟩
  | 0x04 => ⟨0xFFFF, 0x0000, 0x00, 0x92, 0xCF, 0x00⟩
  | 0x05 => ⟨0x0000, 0x0000, 0x00, 0x9A, 0x20, 0x00⟩
  | 0x06 => ⟨0x0000, 0x0000, 0x00, 0x92, 0x00, 0x00⟩
  | 0x07 => ⟨0x0000, 0x0000, 0x00, 0xFA, 0xAF, 0x00⟩
  | 0x08 => ⟨0x0000, 0x0000, 0x00, 0xF2, 0x00, 0x00⟩
  | _ => ⟨0, 0, 0, 0, 0, 0⟩

/-- `struct gdtr`, with the table in place of its address. -/
structure Gdtr where
  limit : BitVec 16
  offset : Byte → GdtEntry

/-- `static struct gdtr gdtr`. -/
def gdtr : Gdtr := ⟨8 * 256 - 1, gdt⟩

/-- `struct idtr`. Its `offset` is always that of the one table there is. -/
structure Idtr where
  limit : BitVec 16
deriving DecidableEq, Repr

/-- `static struct idtr idtr`. -/
def idtr : Idtr := ⟨16 * 256 - 1⟩

/-! ## The handlers -/

/-- The parameters of `MAKE_ISR`. -/
structure Isr where
  vector : Byte
  name : List Byte
deriving DecidableEq, Repr

def MAKE_ISR (vector : Byte) (name : String) : Isr :=
  ⟨vector, name.toList.map ascii⟩

/-- The calls of `MAKE_ISR`, in order. -/
def isrs : List Isr :=
  [MAKE_ISR 0x0 "Divide error",
    MAKE_ISR 0x1 "Debug exception",
    MAKE_ISR 0x3 "Breakpoint exception",
    MAKE_ISR 0x4 "Overflow",
    MAKE_ISR 0x5 "BOUND range exceeded",
    MAKE_ISR 0x6 "Invalid opcode",
    MAKE_ISR 0x7 "Device not available",
    MAKE_ISR 0x8 "Double fault",
    MAKE_ISR 0xA "Invalid TSS",
    MAKE_ISR 0xB "Segment not present",
    MAKE_ISR 0xC "Stack segment fault",
    MAKE_ISR 0xD "General protection fault",
    MAKE_ISR 0xE "Page fault"]

/-- `"%s (vector=%x)\n"`. -/
def isrFormat : List Byte := "%s (vector=%x)\n".toList.map ascii

/-- The arguments for it: `name` is at the address `p`. -/
def Isr.args (e : Isr) (p : Word) (i : ℕ) : Word :=
  [p, e.vector.setWidth 64].getD i 0

/-- `exception_##vector`, with what follows the format and `__KERN_PANIC` in
memory. Its parameter `sf` is not used. -/
def exception (e : Isr) (p : Word) (rest rest' : ℕ → Byte) (fuel : ℕ) :
    Print Unit :=
  panic ⟨.sysV, terminated isrFormat rest, e.args p⟩ rest' fuel

/-! ## Initialization -/

structure Processor where
  /-- what `lgdt` loaded, if it did -/
  gdtr : Option Gdtr
  /-- what `lidt` loaded, if it did -/
  idtr : Option Idtr
  idt : Idt

def Processor.start : Processor := ⟨none, none, .start⟩

inductive InitStep
  | gdtLoad
  | idtLoad
  | registerException (vector : Byte) (isr : Word)
deriving DecidableEq, Repr

def InitStep.run (s : Processor) : InitStep → Processor
  | .gdtLoad => { s with gdtr := some gdtr }
  | .idtLoad => { s with idtr := some idtr }
  | .registerException vector isr =>
      { s with idt := VegaOS.registerException s.idt vector isr }

/-- `REGISTER_EXCEPTION` for each handler. -/
def exceptionsInit (isr : Isr → Word) : List InitStep :=
  isrs.map fun e => .registerException e.vector (isr e)

def archInitAmd64 (isr : Isr → Word) : List InitStep :=
  .gdtLoad :: .idtLoad :: exceptionsInit isr

end VegaOS
