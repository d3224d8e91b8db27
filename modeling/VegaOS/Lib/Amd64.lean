import Mathlib.Tactic.Common

/-!
# Interrupt gates on x86-64

The sixteen bytes of a gate descriptor, the least significant bit first: the
address of the handler is in three pieces, and one byte has the attributes,
which are the present bit (7), the privilege level (6 and 5), a zero bit (4)
and the type (3 to 0).
-/

namespace Amd64

structure Gate where
  offset : BitVec 64
  selector : BitVec 16
  ist : BitVec 3
  attr : BitVec 8
deriving DecidableEq, Repr

def decode (desc : BitVec 128) : Gate :=
  { offset :=
      desc.extractLsb' 64 32 ++ (desc.extractLsb' 48 16 ++
        desc.extractLsb' 0 16)
    selector := desc.extractLsb' 16 16
    ist := desc.extractLsb' 32 3
    attr := desc.extractLsb' 40 8 }

def present (attr : BitVec 8) : Bool := attr.getLsbD 7

def dpl (attr : BitVec 8) : BitVec 2 := attr.extractLsb' 5 2

end Amd64
