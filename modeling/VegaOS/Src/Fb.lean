import VegaOS.Lib.Memory

/-!
# The framebuffer

`dev/video/fb.c`. The bootloader's response to the framebuffer request is a
pointer that may be `NULL`; reading through it is where a run ends that gets
so far, as what lies at address 0 is nothing the driver knows of. `halt()` is
the other way not to return, and the loops of `fb_clear` take fuel.

Of `struct limine_framebuffer` only the fields the driver reads are here.
-/

namespace VegaOS

open ByteMem

structure Framebuffer where
  address : Word
  width : Word
  height : Word
  pitch : Word
deriving DecidableEq, Repr

/-- Why a run of the video code does not return. -/
inductive Trap
  /-- `framebuffer_req.response` is read through while it is `NULL` -/
  | nullDeref
  /-- `halt()` -/
  | halted
  | outOfFuel
deriving DecidableEq, Repr

structure Video where
  /-- `framebuffers[0]` of `framebuffer_req.response`, or `NULL` -/
  response : Option Framebuffer
  mem : Mem

abbrev Fb := EStateM Trap Video

def FRAMEBUFFER : Fb Framebuffer := do
  match (← get).response with
  | some fb => return fb
  | none => throw .nullDeref

def fbAssert : Fb Unit := do
  if (← get).response.isNone then throw .halted

def getIndex (x y : BitVec 32) : Fb (BitVec 32) := do
  fbAssert
  let pitch := (← FRAMEBUFFER).pitch
  return (x.setWidth 64 + y.setWidth 64 * (pitch / 4)).setWidth 32

def fbGetHeight : Fb (BitVec 32) := do
  return (← FRAMEBUFFER).height.setWidth 32

def fbGetWidth : Fb (BitVec 32) := do
  return (← FRAMEBUFFER).width.setWidth 32

def fbPutpix (x y color : BitVec 32) : Fb Int := do
  if x ≥ (← fbGetWidth) then return 1
  else if y ≥ (← fbGetHeight) then return 1
  else
    let fb := (← FRAMEBUFFER).address
    let index ← getIndex x y
    modify fun s =>
      { s with mem := write32 s.mem (fb + 4 * index.setWidth 64) color }
    return 0

/-- The inner loop of `fb_clear`. -/
def fbClear.row (color y : BitVec 32) : ℕ → BitVec 32 → Fb Unit
  | 0, _ => throw .outOfFuel
  | fuel + 1, x => do
      if x < (← fbGetWidth) then
        let _ ← fbPutpix x y color
        fbClear.row color y fuel (x + 1)

/-- The outer loop of `fb_clear`, with `cols` rounds at most for each row. -/
def fbClear.rows (color : BitVec 32) (cols : ℕ) : ℕ → BitVec 32 → Fb Unit
  | 0, _ => throw .outOfFuel
  | fuel + 1, y => do
      if y < (← fbGetHeight) then
        fbClear.row color y cols 0
        fbClear.rows color cols fuel (y + 1)

def fbClear (fuel : ℕ) (color : BitVec 32) : Fb Unit :=
  fbClear.rows color fuel fuel 0

end VegaOS
