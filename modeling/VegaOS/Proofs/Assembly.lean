import VegaOS.Proofs.PrintkScreen
import VegaOS.Src.Assembly

/-!
# Exceptions on aarch64, from the syndrome to the screen

The table of vectors has one entry, that of a synchronous exception at EL1 on
the stack of EL0, and the code behind it reads nothing but the exception class.
It tail-calls `panic` with one of three strings, none of which has a
conversion, so what the other argument registers hold then does not matter.
-/

namespace VegaOS

open ByteMem Trace A64

variable (addr : Label → Word)

/-- No code here writes to a register other than `x0` and `x1`. -/
theorem assembly_dest {r : Reg} (h₀ : r ≠ 0) (h₁ : r ≠ 1) : ∀ l is,
    assembly l = some is → ∀ i ∈ is, i.dest ≠ some r := by
  have hdest : ∀ l, ∀ i ∈ (assembly l).getD [],
      i.dest = none ∨ i.dest = some 0 ∨ i.dest = some 1 := by
    intro l
    cases l <;> decide
  intro l is h i hi hr
  rcases hdest l i (by rw [h]; exact hi) with hd | hd | hd
  · rw [hd] at hr
    cases hr
  · exact h₀ (Option.some.inj (hr.symm.trans hd))
  · exact h₁ (Option.some.inj (hr.symm.trans hd))

/-! ## The two functions of `pal.s` -/

/-- A call of `global_irq_disable` or of `global_irq_enable`. -/
def irqLabel (masked : Bool) : Label :=
  if masked then .globalIrqDisable else .globalIrqEnable

/-- Such calls, one after another. -/
def irqCalls (addr : Label → Word) : List Bool → State → Option State
  | [], s => some s
  | masked :: calls, s =>
      (run addr assembly 1 (irqLabel masked) s).state.bind (irqCalls addr calls)

/-- The bits `I` and `F` of `daif`, and the two others. -/
def IRQ_MASK : Word := 0xC0
def OTHER_MASK : Word := 0x300

/-- One call changes nothing but these bits and two registers. -/
theorem irq_call (masked : Bool) (s : State) : ∃ s',
    (run addr assembly 1 (irqLabel masked) s).state = some s' ∧
      s'.sys .daif &&& IRQ_MASK = (if masked then IRQ_MASK else 0) ∧
      s'.sys .daif &&& OTHER_MASK = s.sys .daif &&& OTHER_MASK ∧
      (∀ r, r ≠ .daif → s'.sys r = s.sys r) ∧
      ∀ r, r ≠ 0 → r ≠ 1 → s'.x r = s.x r := by
  have hkeeps : ∀ {s'}, (run addr assembly 1 (irqLabel masked) s).state =
      some s' → ∀ r, r ≠ 0 → r ≠ 1 → s'.x r = s.x r := fun h r h₀ h₁ =>
    run_keeps (assembly_dest h₀ h₁) h
  cases masked with
  | true =>
      refine ⟨_, rfl, ?_, ?_, fun r hr => Function.update_of_ne hr _ _,
        hkeeps rfl⟩
      · show (s.sys .daif ||| 0xC0) &&& 0x3C0 &&& 0xC0 = 0xC0
        rw [BitVec.and_assoc, show (0x3C0 &&& 0xC0 : Word) = 0xC0 by decide]
        ext i hi
        simp only [BitVec.getElem_and, BitVec.getElem_or, Bool.and_eq_right_iff_imp]
        exact fun h => Bool.or_eq_true_iff.2 (Or.inr h)
      · show (s.sys .daif ||| 0xC0) &&& 0x3C0 &&& 0x300 = _ &&& 0x300
        rw [BitVec.and_assoc, show (0x3C0 &&& 0x300 : Word) = 0x300 by decide,
          BitVec.and_or_distrib_right,
          show (0xC0 &&& 0x300 : Word) = 0 by decide]
        exact BitVec.or_zero
  | false =>
      refine ⟨_, rfl, ?_, ?_, fun r hr => Function.update_of_ne hr _ _,
        hkeeps rfl⟩
      · show s.sys .daif &&& ~~~0xC0 &&& 0x3C0 &&& 0xC0 = 0
        rw [BitVec.and_assoc, BitVec.and_assoc,
          show (~~~0xC0 &&& (0x3C0 &&& 0xC0) : Word) = 0 by decide]
        exact BitVec.and_zero
      · show s.sys .daif &&& ~~~0xC0 &&& 0x3C0 &&& 0x300 = _ &&& 0x300
        rw [BitVec.and_assoc, BitVec.and_assoc,
          show (~~~0xC0 &&& (0x3C0 &&& 0x300) : Word) = 0x300 by decide]

/-- Whatever calls are made: interrupts are masked or not as the last of them
says, and everything else a caller relies on is as it was. -/
theorem irqCalls_last (calls : List Bool) : ∀ s : State, ∃ s',
    irqCalls addr calls s = some s' ∧
      s'.sys .daif &&& IRQ_MASK = (calls.getLast?.map fun masked =>
        if masked then IRQ_MASK else 0).getD (s.sys .daif &&& IRQ_MASK) ∧
      s'.sys .daif &&& OTHER_MASK = s.sys .daif &&& OTHER_MASK ∧
      (∀ r, r ≠ .daif → s'.sys r = s.sys r) ∧
      ∀ r, r ≠ 0 → r ≠ 1 → s'.x r = s.x r := by
  induction calls with
  | nil => exact fun s => ⟨s, rfl, rfl, rfl, fun _ _ => rfl, fun _ _ _ => rfl⟩
  | cons masked calls ih =>
      intro s
      obtain ⟨s₁, hrun₁, hirq₁, hother₁, hsys₁, hx₁⟩ :=
        irq_call addr masked s
      obtain ⟨s', hrun, hirq, hother, hsys, hx⟩ := ih s₁
      refine ⟨s', ?_, ?_, hother.trans hother₁,
        fun r hr => (hsys r hr).trans (hsys₁ r hr),
        fun r h₀ h₁ => (hx r h₀ h₁).trans (hx₁ r h₀ h₁)⟩
      · rw [irqCalls, hrun₁]
        exact hrun
      · rw [hirq, List.getLast?_cons]
        cases calls.getLast? with
        | none => exact hirq₁
        | some last => rfl

/-! ## The dispatch -/

/-- The exception class of a syndrome. -/
def excClass (esr : Word) : Word := (esr >>> 26) &&& 0x3F

/-- The message for an exception class. -/
def classMsg (ec : Word) : Label :=
  if ec = 0x15 then .svcMsg
  else if ec = 0x25 then .memAccessViolationMsg
  else .unknownErrMsg

def classHandler (ec : Word) : Label :=
  if ec = 0 then .unknownErr
  else if ec = 0x15 then .svcHandler
  else if ec = 0x25 then .memAccessViolation
  else .unknownErr

/-- What the comparisons find, from the class in `x0` on. -/
theorem piece_compare (s : State) : ∃ z, piece addr s
    [.cmp 0 0, .bEq .unknownErr, .cmp 0 0x15, .bEq .svcHandler, .cmp 0 0x25,
      .bEq .memAccessViolation, .b .unknownErr] =
        ({ s with z := z }, .label (classHandler (s.x 0))) := by
  rw [classHandler, piece_cmp_bEq]
  by_cases h₀ : s.x 0 = 0
  · exact ⟨true, by rw [if_pos h₀, if_pos h₀]⟩
  · rw [if_neg h₀, if_neg h₀, piece_cmp_bEq]
    by_cases h₁ : s.x 0 = 0x15
    · exact ⟨true, by rw [if_pos h₁, if_pos h₁]⟩
    · rw [if_neg h₁, if_neg h₁, piece_cmp_bEq]
      by_cases h₂ : s.x 0 = 0x25
      · exact ⟨true, by rw [if_pos h₂, if_pos h₂]⟩
      · exact ⟨false, by rw [if_neg h₂, if_neg h₂]; rfl⟩

/-- Each handler calls `panic` with its own message. -/
theorem run_handler (ec : Word) (s : State) :
    run addr assembly 2 (classHandler ec) s =
      .left .panic (s.setX 0 (addr (classMsg ec))) := by
  rw [classHandler, classMsg]
  by_cases h₀ : ec = 0
  · subst h₀
    rfl
  · rw [if_neg h₀]
    by_cases h₁ : ec = 0x15
    · rw [if_pos h₁, if_pos h₁]
      rfl
    · rw [if_neg h₁, if_neg h₁]
      by_cases h₂ : ec = 0x25
      · rw [if_pos h₂, if_pos h₂]
        rfl
      · rw [if_neg h₂, if_neg h₂]
        rfl

/-- The code behind the vector: `panic` is called, with the message for the
class as its first argument. -/
theorem run_vector (s : State) : ∃ s',
    run addr assembly 4 .vectorTbl s = .left .panic s' ∧
      s'.x 0 = addr (classMsg (excClass (s.sys .esrEl1))) ∧
      s'.sys = Function.update s.sys .spSel 0 ∧
      ∀ r, r ≠ 0 → r ≠ 1 → s'.x r = s.x r := by
  let s₁ : State := (((s.setSys .spSel 0).setX 0 (s.sys .esrEl1)).setX 0
    (s.sys .esrEl1 >>> 26)).setX 0 (excClass (s.sys .esrEl1))
  obtain ⟨z, hcompare⟩ := piece_compare addr s₁
  let s₂ : State := { s₁ with z := z }
  have hsync : run addr assembly 3 .el1Sp0Sync s =
      run addr assembly 2 (classHandler (excClass (s.sys .esrEl1))) s₂ :=
    run_label rfl hcompare
  have hrun : run addr assembly 4 .vectorTbl s = .left .panic _ :=
    (run_label rfl rfl).trans (hsync.trans (run_handler addr _ s₂))
  refine ⟨_, hrun, rfl, rfl, fun r h₀ h₁ => ?_⟩
  exact run_keeps (assembly_dest h₀ h₁) (congrArg Exit.state hrun)

/-! ## On the screen -/

def msgLabels : List Label := [.unknownErrMsg, .memAccessViolationMsg, .svcMsg]

theorem classMsg_mem (ec : Word) : classMsg ec ∈ msgLabels := by
  rw [classMsg]
  split
  · decide
  · split <;> decide

section Screen

variable {addr} {l : Label} {mem : Mem}

theorem errMsg_ok : ∀ l ∈ msgLabels,
    IsPlain (errMsg l) ∧ IsText (errMsg l) ∧ (errMsg l).length < 30 := by
  decide

/-- What such an exception looks like: the prefix of a panic, and then the
message. -/
def errText (l : Label) : Text := panicPrefix ++ inDefault (errMsg l)

variable {fb : Framebuffer} (h : Geometry fb) (pastFont : Word → BitVec 16)
variable {init : Mem} {out : Text} {st : Pty}

end Screen

/-! ## One exception -/

def errMsgs : List (List Byte) := msgLabels.map errMsg

/-- The vectors behind the messages. -/
def someAddr (l : Label) : Word :=
  if l = .vectorTbl then 0x800 else packedAt errMsgs (errMsg l)

end VegaOS
