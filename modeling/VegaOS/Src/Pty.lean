import VegaOS.Src.Fb
import VegaOS.Src.Font
import VegaOS.Src.Printk

/-!
# The terminal

`pty/core.c`: characters drawn at a cursor, pixel by pixel. Whether `char` is
signed is the platform's choice, and so is what lies past the end of the font
table; both are in `Target`. The indices the table is read at are logged, which
no function looks at.

`deliver` is what `printk` is for: the calls of `pty_putstr` it makes, one
after another. Nothing it computes depends on what they draw.
-/

namespace VegaOS

open ByteMem

structure Target where
  abi : Abi
  /-- what is read at an index past the end of `DEFAULT_FONT_DATA` -/
  pastFont : Word → BitVec 16

/-- `(uint64_t)c`: `char` is signed on x86-64 and unsigned on aarch64. -/
def Abi.widenChar : Abi → Byte → Word
  | .sysV, c => c.signExtend 64
  | .aapcs64, c => c.setWidth 64

structure Pty where
  video : Video
  /-- `cursor_x` -/
  cursorX : BitVec 32
  /-- `cursor_y` -/
  cursorY : BitVec 32
  /-- the indices `DEFAULT_FONT_DATA` was read at, in order -/
  fontReads : List Word

abbrev Tty := EStateM Trap Pty

/-- A call into the framebuffer driver. -/
def onVideo {α : Type} (x : Fb α) : Tty α := fun s =>
  match x s.video with
  | .ok a video => .ok a { s with video := video }
  | .error e video => .error e { s with video := video }

/-- `DEFAULT_FONT_DATA[index]`. -/
def fontData (t : Target) (index : Word) : Tty (BitVec 16) := do
  modify fun s => { s with fontReads := s.fontReads ++ [index] }
  return DEFAULT_FONT_DATA.getD index.toNat (t.pastFont index)

namespace Pty

/-- The index of column `cx` of a glyph, `c` being the character less 32. -/
def fontIndex (abi : Abi) (c : Byte) (cx : ℕ) : Word :=
  abi.widenChar c * BitVec.ofNat 64 PTY_FONT_WIDTH + BitVec.ofNat 64 cx

/-- The body of the two loops of `pty_putch`. -/
def drawDot (t : Target) (x y : BitVec 32) (c : Byte) (fg bg : BitVec 32)
    (cx cy : ℕ) : Tty Unit := do
  let data ← fontData t (fontIndex t.abi c cx)
  let col := (data >>> cy) &&& 1
  let _ ← onVideo (fbPutpix (x + BitVec.ofNat 32 cx) (y + BitVec.ofNat 32 cy)
    (if col ≠ 0 then fg else bg))

def ptyPutch (t : Target) (x y : BitVec 32) (c : Byte) (fg bg : BitVec 32) :
    Tty Unit :=
  (List.range PTY_FONT_WIDTH).forM fun cx =>
    (List.range PTY_FONT_HEIGHT).forM fun cy =>
      drawDot t x y (c - 32) fg bg cx cy

def newline : Tty Unit :=
  modify fun s =>
    { s with
      cursorY := s.cursorY + BitVec.ofNat 32 PTY_FONT_HEIGHT
      cursorX := 0 }

/-- What `pty_putstr` does with a byte that is no newline. -/
def drawChar (t : Target) (c : Byte) (color : BitVec 32) : Tty Unit := do
  let s ← get
  ptyPutch t s.cursorX s.cursorY c color 0x000000
  modify fun s =>
    { s with cursorX := s.cursorX + BitVec.ofNat 32 PTY_FONT_WIDTH }

/-- The loop of `pty_putstr`, at offset `i` of the string. -/
def ptyPutstr.loop (t : Target) (str : ℕ → Byte) (color : BitVec 32) :
    ℕ → ℕ → Tty Unit
  | 0, _ => throw .outOfFuel
  | fuel + 1, i => do
      if str i = 0 then return ()
      else if str i = ascii '\n' then
        newline
        ptyPutstr.loop t str color fuel (i + 1)
      else
        drawChar t (str i) color
        ptyPutstr.loop t str color fuel (i + 1)

def ptyPutstr (t : Target) (fuel : ℕ) (str : ℕ → Byte) (color : BitVec 32) :
    Tty Unit :=
  ptyPutstr.loop t str color fuel 0

end Pty

/-- The bytes from the start of a string on. -/
def Str.bytes (mem : Mem) : Str → ℕ → Byte
  | .ptr p => fun i => mem (p + BitVec.ofNat 64 i)
  | .chars text => terminated text fun _ => 0

/-- The calls of `pty_putstr` that `printk` has made. -/
def deliver (t : Target) (fuel : ℕ) (mem : Mem) (calls : List Putstr) :
    Tty Unit :=
  calls.forM fun call => Pty.ptyPutstr t fuel (call.str.bytes mem) call.color

end VegaOS
