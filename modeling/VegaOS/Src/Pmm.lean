import VegaOS.Src.Bitmap

/-!
# The physical memory manager

`mm/pmm.c`, function by function. The static variables of the file are the
fields of `Pmm`; the memory the bitmap lives in is one of them, since the
bitmap is nothing but a pointer into it.

Two things can end a call other than a return. `panic` halts the kernel with
its message. And the inner loop of `init_bitmap` counts a `size_t` up in steps
of a page, which a length within a page of `2 ^ 64` makes run forever, so that
loop takes fuel, and `fuel` is what it stops with when the fuel runs out.

What `kinfo` and `panic` print on the way is in `Src/Init.lean`.
-/

namespace VegaOS

open ByteMem

/-- `struct limine_memmap_entry`. -/
structure MemmapEntry where
  base : Word
  length : Word
  type : Word
deriving DecidableEq, Repr

def LIMINE_MEMMAP_USABLE : Word := 0

/-- The static state of `pmm.c`. -/
structure Pmm where
  /-- `mmap_resp->entries` -/
  mmap : List MemmapEntry
  /-- `bitmap`, where `0` is `NULL` -/
  bitmap : Word
  /-- `bitmap_start_bit` -/
  bitmapStartBit : Word
  mem : Mem
  /-- the bits `init_bitmap` has passed to `bitmap_unset_bit`, latest first:
  a record for the proofs, which no function reads -/
  unset : List Word

inductive Stop
  | panic (msg : String)
  | fuel
deriving DecidableEq, Repr

def ALIGN_UP (address align : Word) : Word :=
  (address + align - 1) &&& ~~~(align - 1)

/-- The body of the loop in `find_highest_mmap_entry`. -/
def higherEntry (entry : Option MemmapEntry) (current : MemmapEntry) :
    Option MemmapEntry :=
  if current.type ≠ LIMINE_MEMMAP_USABLE then entry
  else
    match entry with
    | none => some current
    | some e => if current.base > e.base then some current else some e

def findHighestMmapEntry (mmap : List MemmapEntry) : Option MemmapEntry :=
  mmap.foldl higherEntry none

def getBitmapSize (mmap : List MemmapEntry) : Except Stop Word :=
  match findHighestMmapEntry mmap with
  | none => .error (.panic "pmm: Could not find highest entry!\n")
  | some highest =>
      let highestAddress := highest.base + highest.length
      .ok (ALIGN_UP (highestAddress / 0x1000 / 8) 0x1000)

/-- What the entry that hosts the bitmap looks like afterwards. -/
def MemmapEntry.carve (entry : MemmapEntry) (bitmapSize : Word) :
    MemmapEntry :=
  { entry with
    length := entry.length - bitmapSize, base := entry.base + bitmapSize }

/-- The first loop of `init_bitmap`: the entry that hosts the bitmap, as it
was, and the memory map with that entry carved. `none` when the loop ends
without a hit. -/
def placeBitmap (bitmapSize : Word) :
    List MemmapEntry → Option (MemmapEntry × List MemmapEntry)
  | [] => none
  | entry :: rest =>
      if entry.type = LIMINE_MEMMAP_USABLE ∧ entry.length ≥ bitmapSize then
        some (entry, entry.carve bitmapSize :: rest)
      else
        (placeBitmap bitmapSize rest).map fun (host, rest') =>
          (host, entry :: rest')

/-- The body of the inner loop of `init_bitmap`. -/
def unsetFrame (st : Pmm) (bit : Word) : Pmm :=
  { st with
    mem := bitmapUnsetBit st.mem st.bitmap bit
    bitmapStartBit := if st.bitmapStartBit = 0 then bit else st.bitmapStartBit
    unset := bit :: st.unset }

/-- The inner loop of `init_bitmap`, from the offset `j` on. -/
def unsetEntry (entry : MemmapEntry) : Nat → Word → Pmm → Except Stop Pmm
  | 0, _, _ => .error .fuel
  | fuel + 1, j, st =>
      if j < entry.length then
        unsetEntry entry fuel (j + 0x1000)
          (unsetFrame st ((entry.base + j) / 0x1000))
      else .ok st

/-- The second loop of `init_bitmap`. -/
def unsetUsable (bitmapSize : Word) (fuel : Nat) :
    List MemmapEntry → Pmm → Except Stop Pmm
  | [], st => .ok st
  | entry :: rest, st =>
      if entry.type = LIMINE_MEMMAP_USABLE ∧ entry.length ≥ bitmapSize then
        (unsetEntry entry fuel 0 st).bind (unsetUsable bitmapSize fuel rest)
      else unsetUsable bitmapSize fuel rest st

/-- Between the two loops: the bitmap is placed and filled with ones, or
`bitmap` is still `NULL`. -/
def hostBitmap (hhdm bitmapSize : Word) (st : Pmm) : Pmm :=
  match placeBitmap bitmapSize st.mmap with
  | none => st
  | some (host, mmap) =>
      { st with
        mmap := mmap
        bitmap := host.base + hhdm
        mem := memset st.mem (host.base + hhdm) 0xFF bitmapSize }

def initBitmap (hhdm : Word) (fuel : Nat) (st : Pmm) : Except Stop Pmm :=
  (getBitmapSize st.mmap).bind fun bitmapSize =>
    let st := hostBitmap hhdm bitmapSize st
    unsetUsable bitmapSize fuel st.mmap st

/-- `pmm_init` on a machine whose bootloader reports the memory map `mmap`
and the direct map offset `hhdm`, and whose memory holds `mem`. -/
def pmmInit (hhdm : Word) (fuel : Nat) (mmap : List MemmapEntry) (mem : Mem) :
    Except Stop Pmm :=
  initBitmap hhdm fuel ⟨mmap, 0, 0, mem, []⟩

/-- The loop of `pmm_alloc`, with `n` rounds to go. -/
def pmmAlloc.scan (mem : Mem) (bitmap frames : Word) :
    Nat → (currentBit bit framesFound : Word) → Word
  | 0, _, _, _ => 0
  | n + 1, currentBit, bit, framesFound =>
      if !bitmapTestBit mem bitmap currentBit then
        let bit := if bit = 0 then currentBit else bit
        let framesFound := framesFound + 1
        if framesFound ≥ frames then bit * 0x1000
        else pmmAlloc.scan mem bitmap frames n (currentBit + 1) bit framesFound
      else pmmAlloc.scan mem bitmap frames n (currentBit + 1) 0 0

/-- The size is recomputed before every round from a memory map the loop does
not change, so it is computed once here. -/
def pmmAlloc (st : Pmm) (frames : Word) : Except Stop Word :=
  (getBitmapSize st.mmap).bind fun bitmapSize =>
    let rounds := (bitmapSize * 8).toNat - st.bitmapStartBit.toNat
    .ok (pmmAlloc.scan st.mem st.bitmap frames rounds st.bitmapStartBit 0 0)

/-- The loop of `pmm_free`, with `n` frames to go. -/
def pmmFree.go (bitmap : Word) : Nat → Word → Mem → Mem
  | 0, _, mem => mem
  | n + 1, ptr, mem =>
      pmmFree.go bitmap n (ptr + 0x1000)
        (bitmapUnsetBit mem bitmap (ptr / 0x1000))

def pmmFree (st : Pmm) (ptr frames : Word) : Pmm :=
  { st with mem := pmmFree.go st.bitmap frames.toNat ptr st.mem }

end VegaOS
