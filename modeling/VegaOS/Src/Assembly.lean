import VegaOS.Lib.A64
import VegaOS.Src.Printk

/-!
# The assembly for aarch64

`aarch64/exceptions.s` and `aarch64/pal.s`, instruction by instruction. The
labels are those of the files; the strings have labels as well, and so has
`panic`, which is not in these files. Behind the one instruction of
`vector_tbl` there is what the linker puts there.
-/

namespace VegaOS

open ByteMem A64

inductive Label
  | exceptionsInit
  | el1Sp0Sync
  | unknownErr
  | svcHandler
  | memAccessViolation
  | vectorTbl
  | unknownErrMsg
  | memAccessViolationMsg
  | svcMsg
  | globalIrqDisable
  | globalIrqEnable
  | panic
deriving DecidableEq, Repr

/-- `.macro do_panic msg_label`. -/
def doPanic (msgLabel : Label) : List (Instr Label) :=
  [.ldr 0 msgLabel,
    .b .panic]

/-- The register of the first argument. -/
def X0 : Reg := 0

def assembly : Label → Option (List (Instr Label))
  | .exceptionsInit => some
      [.ldr 0 .vectorTbl,
        .msr .vbarEl1 0,
        .ret]
  | .el1Sp0Sync => some
      [.msrImm .spSel 0,
        .mrs 0 .esrEl1,
        .lsr 0 0 26,
        .andImm 0 0 0x3F,
        .cmp 0 0,
        .bEq .unknownErr,
        .cmp 0 0x15,
        .bEq .svcHandler,
        .cmp 0 0x25,
        .bEq .memAccessViolation,
        .b .unknownErr]
  | .unknownErr => some (doPanic .unknownErrMsg)
  | .svcHandler => some (doPanic .svcMsg)
  | .memAccessViolation => some (doPanic .memAccessViolationMsg)
  | .vectorTbl => some
      [.b .el1Sp0Sync]
  | .globalIrqDisable => some
      [.mrs 0 .daif,
        .mov 1 0xC0,
        .orr 0 0 1,
        .msr .daif 0,
        .ret]
  | .globalIrqEnable => some
      [.mrs 0 .daif,
        .mov 1 (~~~0xC0),
        .and 0 0 1,
        .msr .daif 0,
        .ret]
  | .unknownErrMsg | .memAccessViolationMsg | .svcMsg | .panic => none

/-- The strings of `exceptions.s`. -/
def errMsg : Label → List Byte
  | .unknownErrMsg => "Unknown error".toList.map ascii
  | .memAccessViolationMsg => "Memory access violation".toList.map ascii
  | .svcMsg => "SVC not implemented (TODO)".toList.map ascii
  | _ => []

end VegaOS
