import Mathlib.Tactic.Common
import VegaOS.Lib.Buffer
import VegaOS.Lib.Memory

/-!
# Formatted output

`core/printk.c` and `panic` of `core/panic.c`, up to the calls of
`pty_putstr`.

The bytes at `fmt`, the terminator and whatever lies after it, are a function
of the offset from where the string starts. An argument of either ABI fills
one slot of 64 bits, and a `va_list` is the number of the slot `va_arg` reads
next; where the two ABIs differ is what becomes of the caller's list when a
callee it was passed to has read from it, `Abi.afterCall`.

The functions keep two logs that none of them reads: the offsets at which the
format was read, and the calls of `pty_putstr`.
-/

namespace VegaOS

open ByteMem Buffer

def ascii (c : Char) : Byte := BitVec.ofNat 8 c.toNat

/-! ## The numerals -/

abbrev StringBuffer := Vector Byte 80

/-- A string being written from the front: the array, and the index `i` of
its next byte. -/
structure Draft where
  text : StringBuffer
  i : Byte

/-- `text[i++] = c`. -/
def Draft.push (d : Draft) (c : Byte) : Option Draft := do
  let text ← write d.text d.i.toNat c
  return ⟨text, d.i + 1⟩

/-- `text[i] = c`. -/
def Draft.put (d : Draft) (c : Byte) : Option Draft := do
  let text ← write d.text d.i.toNat c
  return ⟨text, d.i⟩

/-- `if (p) text[i++] = c`. -/
def Draft.pushIf (d : Draft) (p : Prop) [Decidable p] (c : Byte) :
    Option Draft :=
  if p then d.push c else some d

/-- `while (n > 0) { text[i] = digit of n; n = next of n; i++; }`. -/
def Draft.digits (next : Word → Word) (hnext : ∀ n, 0 < n → next n < n)
    (digit : Word → Byte) (n : Word) (d : Draft) : Option Draft := do
  if _h : 0 < n then
    let d ← d.push (digit n)
    Draft.digits next hnext digit (next n) d
  else return d
termination_by n.toNat
decreasing_by exact BitVec.lt_def.1 (hnext n _h)

/-- `for (j = 0; j < i; j++, i--)` swap the two ends. -/
def reverseEnds (text : StringBuffer) (j i : Byte) : Option StringBuffer := do
  if j < i then
    let text ← swap text j.toNat i.toNat
    reverseEnds text (j + 1) (i - 1)
  else return text
termination_by i.toNat - j.toNat
decreasing_by all_goals bv_omega

def asciiNumbers : List Byte := "0123456789ABCDEF".toList.map ascii

def hexDigit (d : ℕ) : Byte := asciiNumbers.getD d 0

theorem shiftRight_four_lt (n : Word) (h : 0 < n) : n >>> 4 < n := by
  bv_omega

/-- The lowest digit of `hex_num`. -/
def nibble (hexNum : Word) : Byte :=
  hexDigit (hexNum.setWidth 8 &&& 0x0F).toNat

/-- `if (hex_num == 0) { memcpy(hex_string, "0\0", 2); i = 1; }`. -/
def hexStart (hexString : StringBuffer) (hexNum : Word) : Option Draft :=
  if hexNum = 0 then do
    let d ← Draft.push ⟨hexString, 0⟩ (ascii '0')
    d.put 0
  else some ⟨hexString, 0⟩

def hex2str (hexString : StringBuffer) (hexNum : Word) :
    Option StringBuffer := do
  let d ← hexStart hexString hexNum
  let d ← Draft.digits (· >>> 4) shiftRight_four_lt nibble hexNum d
  let d ← d.pushIf (hexNum < 0x10) (ascii '0')
  let d ← d.push (ascii 'x')
  let d ← d.push (ascii '0')
  let d ← d.put 0
  reverseEnds d.text 0 (d.i - 1)

theorem div_ten_lt (n : Word) (h : 0 < n) : n / 10 < n := by
  rw [BitVec.lt_def] at h ⊢
  rw [BitVec.toNat_udiv]
  exact Nat.div_lt_self h (by decide)

/-- `(number % 10) + '0'`. -/
def lastDigit (number : Word) : Byte := (number % 10 + 0x30).setWidth 8

def dec2str (decString : StringBuffer) (number : Word) :
    Option StringBuffer := do
  let negative := number ≠ 0 ∧ number < 0
  let d ← Draft.pushIf ⟨decString, 0⟩ (number = 0) (ascii '0')
  let d ← Draft.digits (· / 10) div_ten_lt lastDigit
    (if negative then -number else number) d
  let d ← d.pushIf negative (ascii '-')
  let d ← d.put 0
  reverseEnds d.text 0 (d.i - 1)

/-! ## The formatter -/

abbrev Color := BitVec 32

def PRINTK_DEFAULT_FG : Color := 0x808080

def getColor (colorCode : Byte) : Color :=
  if colorCode = ascii '0' then PRINTK_DEFAULT_FG
  else if colorCode = ascii '1' then 0xFF0000
  else if colorCode = ascii '2' then 0xFFFFFF
  else if colorCode = ascii '3' then 0x00A36C
  else if colorCode = ascii '4' then 0xF8A611
  else if colorCode = ascii '5' then 0xBF40BF
  else PRINTK_DEFAULT_FG

inductive Abi
  /-- x86-64: a `va_list` is an array -/
  | sysV
  /-- aarch64: a `va_list` is a struct -/
  | aapcs64
deriving DecidableEq, Repr

/-- The caller's `va_list` once a function that got it has moved on from
`caller` to `callee`: an array is shared, a struct was copied. -/
def Abi.afterCall : Abi → ℕ → ℕ → ℕ
  | .sysV, _, callee => callee
  | .aapcs64, caller, _ => caller

/-- A string handed to `pty_putstr`. -/
inductive Str
  /-- the caller's string at an address -/
  | ptr (p : Word)
  /-- the bytes of an array up to its terminator -/
  | chars (text : List Byte)
deriving DecidableEq, Repr

def cString (bytes : List Byte) : List Byte := bytes.takeWhile (· ≠ 0)

/-- `as_str(chr)`. -/
def asStr (chr : Byte) : Str := .chars (cString [chr, 0])

/-- A call of `pty_putstr`. -/
structure Putstr where
  /-- the conversion it is made for, if not for a byte of the format -/
  conv : Option Byte
  str : Str
  color : Color
deriving DecidableEq, Repr

/-- Why a run does not return. -/
inductive Fault
  | outOfBounds
  | outOfFuel
  /-- `halt()` -/
  | halted
deriving DecidableEq, Repr

structure Console where
  hexString : StringBuffer
  decString : StringBuffer
  /-- offsets at which the format was read, in order -/
  reads : List ℕ
  /-- calls of `pty_putstr`, in order -/
  calls : List Putstr

abbrev Print := EStateM Fault Console

def ptyPutstr (conv : Option Byte) (str : Str) (color : Color) : Print Unit :=
  modify fun s => { s with calls := s.calls ++ [⟨conv, str, color⟩] }

def runHex2str (hexNum : Word) : Print Str := do
  match hex2str (← get).hexString hexNum with
  | some text =>
      modify fun s => { s with hexString := text }
      return .chars (cString text.toList)
  | none => throw .outOfBounds

def runDec2str (number : Word) : Print Str := do
  match dec2str (← get).decString number with
  | some text =>
      modify fun s => { s with decString := text }
      return .chars (cString text.toList)
  | none => throw .outOfBounds

/-- Returns its own `ap`. -/
def handleFormat (args : ℕ → Word) (fmtChar : Byte) (ap : ℕ) (color : Color) :
    Print ℕ := do
  if fmtChar = ascii 's' then
    ptyPutstr (some fmtChar) (.ptr (args ap)) color
    return ap + 1
  else if fmtChar = ascii 'c' then
    ptyPutstr (some fmtChar) (asStr ((args ap).setWidth 8)) color
    return ap + 1
  else if fmtChar = ascii 'x' then
    ptyPutstr (some fmtChar) (← runHex2str (args ap)) color
    return ap + 1
  else if fmtChar = ascii 'd' then
    ptyPutstr (some fmtChar) (← runDec2str (args ap)) color
    return ap + 1
  else return ap

/-- What a caller of `vprintk` provides. -/
structure Caller where
  abi : Abi
  /-- the bytes from the start of the format on -/
  fmt : ℕ → Byte
  /-- the argument slots -/
  args : ℕ → Word

/-- The parameters and variables of `vprintk`, `fmt` as an offset. -/
structure Locals where
  fmt : ℕ
  ap : ℕ
  color : Color
deriving DecidableEq, Repr

/-- `*fmt`. -/
def deref (c : Caller) (fmt : ℕ) : Print Byte := do
  modify fun s => { s with reads := s.reads ++ [fmt] }
  return c.fmt fmt

/-- The body of the loop. -/
def vprintkBody (c : Caller) (l : Locals) : Print Locals := do
  if (← deref c l.fmt) = 0x01 then
    let code ← deref c (l.fmt + 1)
    return { l with fmt := l.fmt + 2, color := getColor code }
  else if (← deref c l.fmt) = ascii '%' then
    let fmtChar ← deref c (l.fmt + 1)
    let ap ← handleFormat c.args fmtChar l.ap l.color
    return { l with fmt := l.fmt + 2, ap := c.abi.afterCall l.ap ap }
  else
    ptyPutstr none (asStr (← deref c l.fmt)) l.color
    return { l with fmt := l.fmt + 1 }

/-- Returns the variables as they are when the loop stops. -/
def vprintkLoop (c : Caller) : ℕ → Locals → Print Locals
  | 0, _ => throw .outOfFuel
  | fuel + 1, l => do
      if (← deref c l.fmt) = 0 then return l
      else vprintkLoop c fuel (← vprintkBody c l)

def vprintk (c : Caller) (fuel ap : ℕ) : Print Unit := do
  let _ ← vprintkLoop c fuel ⟨0, ap, PRINTK_DEFAULT_FG⟩

/-- The bytes from the start of a string on: the string, its terminator, and
what follows. -/
def terminated (s : List Byte) (rest : ℕ → Byte) (i : ℕ) : Byte :=
  (s ++ [0]).getD i (rest (i - (s.length + 1)))

def printk (c : Caller) (fuel : ℕ) : Print Unit := vprintk c fuel 0

/-- `__KERN_PANIC`. -/
def kernPanic : List Byte :=
  "\x012[\x011 KPANIC\x012 ]\x010 ".toList.map ascii

/-- Interrupts are of no account here; `rest` is what follows `__KERN_PANIC`
in memory. -/
def panic (c : Caller) (rest : ℕ → Byte) (fuel : ℕ) : Print Unit := do
  printk { c with fmt := terminated kernPanic rest } fuel
  vprintk c fuel 0
  throw .halted

end VegaOS
