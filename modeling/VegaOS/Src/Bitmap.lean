import VegaOS.Lib.Memory

/-!
# `memset`, `memcpy` and the bitmap operations

`posix/memset.c`, `posix/memcpy.c` and `utils/bitmap.c`. A bitmap is a pointer;
bit `b` of it is bit `b % 8` of the byte at offset `b / 8`. The masks are
computed in C's 32-bit `int` and cut back to a byte by the assignment, and that
is how they are written here.
-/

namespace VegaOS

open ByteMem

/-- The loop of `memset`: the stores for `i = 0 .. n - 1`. -/
def memset.go (m : Mem) (ptr : Word) (val : Byte) : Nat → Mem
  | 0 => m
  | i + 1 => store (memset.go m ptr val i) (ptr + BitVec.ofNat 64 i) val

def memset (m : Mem) (ptr : Word) (val : Byte) (length : Word) : Mem :=
  memset.go m ptr val length.toNat

/-- The loop of `memcpy`, with `n` bytes to go. -/
def memcpy.go (m : Mem) (t f : Word) : Nat → Mem
  | 0 => m
  | n + 1 => memcpy.go (store m t (m f)) (t + 1) (f + 1) n

def memcpy (m : Mem) (s1 s2 n : Word) : Mem := memcpy.go m s1 s2 n.toNat

/-- `1 << (bit % 8)`, an `int`. -/
def bitMask (bit : Word) : BitVec 32 := 1#32 <<< (bit % 8)

def bitmapSetBit (m : Mem) (bitmap bit : Word) : Mem :=
  let byte := bitmap + bit / 8
  store m byte (((m byte).setWidth 32 ||| bitMask bit).setWidth 8)

def bitmapUnsetBit (m : Mem) (bitmap bit : Word) : Mem :=
  let byte := bitmap + bit / 8
  store m byte (((m byte).setWidth 32 &&& ~~~(bitMask bit)).setWidth 8)

def bitmapTestBit (m : Mem) (bitmap bit : Word) : Bool :=
  ((m (bitmap + bit / 8)).setWidth 32 &&& bitMask bit) != 0

end VegaOS
