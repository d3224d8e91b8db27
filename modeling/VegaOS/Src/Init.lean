import VegaOS.Src.Assembly
import VegaOS.Src.Exceptions
import VegaOS.Src.MmuInit
import VegaOS.Src.Pmm
import VegaOS.Src.Pty

/-!
# Starting up

`core/init.c`, with what `pmm_init` and `aarch64_mmu_init` print and in the
order in which they do: `_start` from the call of `pmm_init` to its last loop,
where the processor halts until there is an interrupt. The line it prints
before that is a `printk` like any other.

The architecture decides which of the two `arch_init` there are. What the
kernel is told by the machine and the bootloader are parameters.

There is one memory. The bitmap, the framebuffer and the strings, formats and
arguments alike, are all in it. What a call prints is read from memory as it is
when the call is made, and drawn before the next one.
-/

namespace VegaOS

open ByteMem

def text (s : String) : List Byte := s.toList.map ascii

/-! ## The architecture -/

/-- What `arch_init` works with. -/
inductive Arch
  | x86_64 (isr : Isr → Word)
  | aarch64 (addr : Label → Word) (s : A64.State) (r : SysRegs)
      (midrEl1 : BitVec 32)

def Arch.abi : Arch → Abi
  | .x86_64 _ => .sysV
  | .aarch64 .. => .aapcs64

/-- What it leaves. -/
inductive ArchState
  | x86_64 (p : Processor)
  /-- the registers, and the static `pagemap` -/
  | aarch64 (s : A64.State) (r : SysRegs) (pagemap : Pagemap)

/-! ## Messages -/

/-- What is the same for every message of a kernel built for an ABI: the address
of each of its strings, what is read past the prefix of a panic and past the end
of the font, and bounds on the rounds of the loops of `vprintk` and of
`pty_putstr`. -/
structure Build (abi : Abi) where
  addr : List Byte → Word
  pastPanic : ℕ → Byte
  pastFont : Word → BitVec 16
  fuel : ℕ
  putFuel : ℕ

/-- The static variables the functions below share, and the memory that the
memory manager and the terminal work on. -/
structure Statics where
  console : Console
  pmm : Pmm
  pty : Pty
  shared : pty.video.mem = pmm.mem

namespace Statics

/-- The memory manager has run. -/
def setPmm (k : Statics) (pmm : Pmm) : Statics where
  console := k.console
  pmm := pmm
  pty := { k.pty with video := { k.pty.video with mem := pmm.mem } }
  shared := rfl

/-- The terminal has run. -/
def setPty (k : Statics) (pty : Pty) : Statics where
  console := k.console
  pmm := { k.pmm with mem := pty.video.mem }
  pty := pty
  shared := rfl

end Statics

/-- Why `_start` does not get to its last loop. -/
inductive Abort
  /-- `printk` does not return, or there is a panic -/
  | console (f : Fault)
  /-- a string is not drawn to its end -/
  | screen (e : Trap)
  /-- a loop of `init_bitmap` goes on -/
  | initBitmap
  /-- `exceptions_init` does not return -/
  | exceptionsInit
deriving DecidableEq, Repr

abbrev Boot := EStateM Abort Statics

/-- The calls of `pty_putstr` that are made for a message. -/
def draw {abi : Abi} (env : Build abi) (calls : List Putstr) : Boot Unit :=
  fun k =>
    match deliver ⟨abi, env.pastFont⟩ env.putFuel k.pmm.mem calls k.pty with
    | .ok _ pty => .ok () (k.setPty pty)
    | .error e pty => .error (.screen e) (k.setPty pty)

/-- A call of a function that prints. -/
def onConsole {abi : Abi} (env : Build abi) {α : Type} (p : Print α) :
    Boot α := do
  let k ← get
  match p k.console with
  | .ok a console => do
      set { k with console := console }
      draw env (console.calls.drop k.console.calls.length)
      return a
  | .error f console => do
      set { k with console := console }
      draw env (console.calls.drop k.console.calls.length)
      throw (.console f)

/-- What `printk` or `panic` is called with, on a memory that has the format. -/
def Build.caller {abi : Abi} (env : Build abi) (mem : Mem) (fmt : List Byte)
    (args : ℕ → Word) : Caller :=
  ⟨abi, fun i => mem (env.addr fmt + BitVec.ofNat 64 i), args⟩

section Functions

variable {abi : Abi} (env : Build abi)

def runPrintk (fmt : List Byte) (args : ℕ → Word) : Boot Unit := do
  let k ← get
  onConsole env (printk (env.caller k.pmm.mem fmt args) env.fuel)

def runPanic (fmt : List Byte) (args : ℕ → Word) : Boot Unit := do
  let k ← get
  onConsole env
    (panic (env.caller k.pmm.mem fmt args) env.pastPanic env.fuel)

/-- `KERN_INFO "\0014%s: "`. -/
def kinfoPrefix : List Byte := text "\x012[\x013 INFO\x012 ]\x010 \x014%s: "

/-- `kinfo`, in a file with `MODULE(module)`. -/
def kinfo (module fmt : List Byte) (args : ℕ → Word) : Boot Unit := do
  runPrintk env kinfoPrefix fun _ => env.addr module
  runPrintk env fmt args

/-! ## Physical memory -/

def requiredFormat : List Byte := text "Required bitmap size: %d bytes\n"

def foundFormat : List Byte := text "Found space for bitmap at %x\n"

/-- `get_bitmap_size`, with the panic it may end in. -/
def runGetBitmapSize : Boot Word := do
  match getBitmapSize (← get).pmm.mmap with
  | .ok bitmapSize => return bitmapSize
  | .error (.panic msg) =>
      runPanic env (text msg) fun _ => 0
      return 0
  | .error .fuel => throw .initBitmap

/-- `init_bitmap`, with `loopFuel` rounds for each of its inner loops. -/
def runInitBitmap (hhdm : Word) (loopFuel : ℕ) : Boot Unit := do
  let bitmapSize ← runGetBitmapSize env
  kinfo env (text "pmm") requiredFormat fun _ => bitmapSize
  modify fun k => k.setPmm (hostBitmap hhdm bitmapSize k.pmm)
  let bitmap := (← get).pmm.bitmap
  kinfo env (text "pmm") foundFormat fun _ => bitmap
  let st := (← get).pmm
  match unsetUsable bitmapSize loopFuel st.mmap st with
  | .ok pmm => modify fun k => k.setPmm pmm
  | .error _ => throw .initBitmap

/-- `pmm_init`, on a bootloader's memory map. -/
def runPmmInit (hhdm : Word) (loopFuel : ℕ) (mmap : List MemmapEntry) :
    Boot Unit := do
  modify fun k => k.setPmm { k.pmm with mmap := mmap }
  runInitBitmap env hhdm loopFuel

/-! ## What `arch_init` does -/

/-- A `switch` whose cases are strings. -/
def switch (cases : List (BitVec 32 × List Byte)) (default : List Byte)
    (value : BitVec 32) : List Byte :=
  ((cases.find? fun c => c.1 = value).map Prod.snd).getD default

/-- The cases of `get_vendor`. -/
def vendors : List (BitVec 32 × List Byte) :=
  [(0xC0, text "Ampere Computing"),
    (0x41, text "Arm Limited"),
    (0x42, text "Broadcom Corporation"),
    (0x43, text "Cavium Inc"),
    (0x44, text "Digital Equipment Corporation"),
    (0x46, text "Fujitsu Ltd"),
    (0x49, text "Infineon Technologies AG"),
    (0x4D, text "Motorola or Freescale Semiconductor Inc"),
    (0x4E, text "NVIDIA Corporation"),
    (0x50, text "Applied Micro Circuits Corporation"),
    (0x51, text "Qualcomm Inc"),
    (0x56, text "Marvell International Ltd"),
    (0x69, text "Intel Corporation")]

def unrecognizedVendor : List Byte := text "Unrecognized vendor"

def getVendor (midrEl1 : BitVec 32) : List Byte :=
  switch vendors unrecognizedVendor ((midrEl1 >>> 24) &&& 0xFF)

/-- The cases of `get_board_info`. -/
def boards : List (BitVec 32 × List Byte) :=
  [(0xB76, text "Detected board: Raspberry Pi 1\n"),
    (0xC07, text "Detected board: Raspberry Pi 2\n"),
    (0xD03, text "Detected board: Raspberry Pi 3\n"),
    (0xD08, text "Detected board: Raspberry Pi 4\n")]

def unknownBoard : List Byte := text "Unknown \n"

/-- The message of the `switch` in `get_board_info`. -/
def boardFormat (midrEl1 : BitVec 32) : List Byte :=
  switch boards unknownBoard ((midrEl1 >>> 4) &&& 0xFFF)

def vendorFormat : List Byte := text "Detected vendor: %s\n"

def getBoardInfo (midrEl1 : BitVec 32) : Boot Unit := do
  kinfo env (text "kinit") (boardFormat midrEl1) fun _ => 0
  kinfo env (text "kinit") vendorFormat fun _ =>
    env.addr (getVendor midrEl1)

def wroteFormat : List Byte := text "Wrote MAIR and TCR for EL1\n"

def archInit : Arch → Boot ArchState
  | .x86_64 isr =>
      return .x86_64 ((archInitAmd64 isr).foldl InitStep.run .start)
  | .aarch64 addr s r midrEl1 => do
      match A64.run addr assembly 1 .exceptionsInit s with
      | .returned s' => do
          let (r', pagemap) := aarch64MmuInit r
          kinfo env (text "mmu") wroteFormat fun _ => 0
          getBoardInfo env midrEl1
          return .aarch64 s' r' pagemap
      | _ => throw .exceptionsInit

end Functions

/-- `_start`, from `pmm_init` to the last loop. -/
def start (arch : Arch) (env : Build arch.abi) (hhdm : Word) (loopFuel : ℕ)
    (mmap : List MemmapEntry) : Boot ArchState := do
  runPmmInit env hhdm loopFuel mmap
  archInit env arch

end VegaOS
