import VegaOS.Lib.Amd64Delivery
import VegaOS.Proofs.Idt
import VegaOS.Proofs.PrintkScreen
import VegaOS.Src.Exceptions

/-!
# Exceptions on x86-64, from the vector to the screen

The code segment of every gate is 64-bit code of the highest privilege, and a
vector without a handler has a gate of type 0, which is a general protection
fault. So it follows from the handlers there are by then where the processor
goes for any interrupt, and this holds at every step of the initialization:
`handlerFor` says which handler it is, and when it is none. Once all are
registered it is never none, and the handler shows on the screen which
exception it is for.

The kernel loads no task register. So it is at the highest privilege level only
that a frame has a stack, the one in use, and that a handler can be entered.
-/

namespace VegaOS

open ByteMem Trace Amd64

/-! ## What the processor reads -/

/-- The tables, once both registers are loaded. -/
def Processor.tables (s : Processor) : Option Tables := do
  let g ← s.gdtr
  let i ← s.idtr
  return ⟨⟨g.limit.toNat, fun n => (g.offset (BitVec.ofNat 8 n)).bits⟩,
    ⟨i.limit.toNat, fun n => (s.idt (BitVec.ofNat 8 n)).bits⟩⟩

section Tables

variable (isr : Isr → Word)

/-- The call that registers a handler. -/
def Isr.call (e : Isr) : SetDesc := ⟨e.vector, isr e, IDT_TRAP_GATE_FLAGS⟩

/-- The table of `amd64/idt.c` with `n` handlers registered. -/
def idtWith (n : ℕ) : Idt := install .start ((isrs.take n).map (Isr.call isr))

/-- The state after `n` steps of `exceptions_init`. -/
def initialized (n : ℕ) : Processor :=
  ((archInitAmd64 isr).take (n + 2)).foldl InitStep.run .start

theorem run_registers (es : List Isr) : ∀ s : Processor,
    (es.map fun e => InitStep.registerException e.vector (isr e)).foldl
        InitStep.run s =
      { s with idt := install s.idt (es.map (Isr.call isr)) } := by
  induction es with
  | nil => exact fun _ => rfl
  | cons e es ih => exact fun s => ih (InitStep.run s _)

theorem initialized_eq (n : ℕ) :
    initialized isr n = ⟨some gdtr, some idtr, idtWith isr n⟩ := by
  rw [initialized, archInitAmd64, List.take_succ_cons, List.take_succ_cons,
    exceptionsInit, ← List.map_take, List.foldl_cons, List.foldl_cons,
    run_registers]
  rfl

/-- What the processor reads with `n` handlers registered. -/
def tablesWith (n : ℕ) : Tables :=
  ⟨⟨gdtr.limit.toNat, fun i => (gdt (BitVec.ofNat 8 i)).bits⟩,
    ⟨idtr.limit.toNat, fun i => (idtWith isr n (BitVec.ofNat 8 i)).bits⟩⟩

theorem tables_initialized (n : ℕ) :
    (initialized isr n).tables = some (tablesWith isr n) := by
  rw [initialized_eq]
  rfl

/-- There is a gate for every vector, registered or not. -/
theorem lookup_idt (n : ℕ) (vector : Byte) :
    (tablesWith isr n).idt.lookup vector.toNat =
      some (idtWith isr n vector).bits := by
  have hlt := vector.isLt
  have hlimit : (tablesWith isr n).idt.limit = 4095 := rfl
  rw [Table.lookup, hlimit, if_pos (by omega)]
  show some (idtWith isr n (BitVec.ofNat 8 vector.toNat)).bits = _
  rw [BitVec.ofNat_toNat, BitVec.setWidth_eq]

end Tables

/-! ## Handlers that are there -/

/-- The handler for a vector, among the first `n`. -/
def registered (n : ℕ) (vector : Byte) : Option Isr :=
  (isrs.take n).find? fun e => e.vector = vector

theorem registered_vector {n : ℕ} {vector : Byte} {e : Isr}
    (h : registered n vector = some e) : e ∈ isrs ∧ e.vector = vector := by
  have hvector :=
    List.find?_some (p := fun e : Isr => decide (e.vector = vector)) h
  exact ⟨List.mem_of_mem_take (List.mem_of_find?_eq_some h),
    of_decide_eq_true hvector⟩

theorem vector_injective : ∀ e ∈ isrs, ∀ e' ∈ isrs,
    e.vector = e'.vector → e = e' := by
  have hnodup : (isrs.map Isr.vector).Nodup := by decide
  exact fun e he e' he' => List.inj_on_of_nodup_map hnodup he he'

theorem lastFor_registered (isr : Isr → Word) (n : ℕ) (vector : Byte) :
    lastFor ((isrs.take n).map (Isr.call isr)) vector =
      (registered n vector).map (Isr.call isr) := by
  cases h : registered n vector with
  | none =>
      refine Updates.last_eq_none fun op hop => ?_
      obtain ⟨e, he, rfl⟩ := List.mem_map.1 hop
      exact of_decide_eq_false
        (Bool.eq_false_iff.2 (List.find?_eq_none.1 h e he))
  | some e =>
      obtain ⟨he, rfl⟩ := registered_vector h
      have hcall : e.call isr ∈ (isrs.take n).map (Isr.call isr) :=
        List.mem_map_of_mem (List.mem_of_find?_eq_some h)
      obtain ⟨op, hlast⟩ : ∃ op, lastFor ((isrs.take n).map (Isr.call isr))
          e.vector = some op :=
        Updates.exists_last hcall
      obtain ⟨hop, hvector⟩ := Updates.mem_of_last hlast
      obtain ⟨e', he', rfl⟩ := List.mem_map.1 hop
      rw [vector_injective e he e' (List.mem_of_mem_take he') hvector.symm]
      rw [vector_injective e he e' (List.mem_of_mem_take he') hvector.symm]
        at hlast
      exact hlast

/-! ## Delivery -/

section Delivery

variable {isr : Isr → Word} {n : ℕ} {k : Context} {src : Source}
variable {vector : Byte}

/-- No task register is loaded, and kernel code runs on a stack that takes a
frame. -/
structure Interruptible (k : Context) : Prop where
  task : k.task = none
  stack : k.cpl = 0 → k.Takes k.rsp

/-- The handler is entered in the kernel's code segment and on the stack in
use, and interrupts are as they were. -/
def Isr.entry (isr : Isr → Word) (k : Context) (e : Isr) : Entry :=
  ⟨isr e, 0x28, 0, false, frameTop k.rsp⟩

theorem decode_idtWith (isr : Isr → Word) (n : ℕ) (vector : Byte) :
    decode (idtWith isr n vector).bits =
      ((registered n vector).map fun e => (e.call isr).gate).getD
        ⟨0, 0, 0, 0⟩ := by
  have hgate := gate_install_start ((isrs.take n).map (Isr.call isr)) vector
  rw [lastFor_registered, Option.map_map] at hgate
  exact hgate

/-- The gate of a handler, as the processor reads it. -/
def Isr.gate (isr : Isr → Word) (e : Isr) : Gate := ⟨isr e, 0x28, 0, 0xEF⟩

/-- The kernel's code segment, as the processor reads it. -/
def kernelCode : Segment := ⟨0x9A, 0x2⟩

theorem selectCode_kernel :
    selectCode (tablesWith isr n) k.cpl 0x28 = .ok kernelCode := by
  have hlimit : (tablesWith isr n).gdt.limit = 2047 := rfl
  have hcode : (tablesWith isr n).gdt.lookup ((0x28 : BitVec 16).toNat / 8) =
      some (gdt 5).bits := by
    rw [Table.lookup, hlimit, if_pos (by decide)]
    rfl
  have hdpl : ∀ cpl : BitVec 2, ¬ cpl < dpl kernelCode.access := by decide
  exact selectCode_ok (by decide) (by decide) hcode (by decide) (by decide)
    (hdpl k.cpl) (by decide) (by decide)

theorem selectGate_registered {e : Isr} (h : registered n vector = some e) :
    selectGate (tablesWith isr n) k.cpl src vector = .ok (e.gate isr) := by
  have hattr : storedAttr IDT_TRAP_GATE_FLAGS = 0xEF := by decide
  have hdecode : decode (idtWith isr n vector).bits = e.gate isr := by
    rw [decode_idtWith, h, Option.map_some, Option.getD_some, SetDesc.gate,
      Isr.call, hattr]
    rfl
  have hkind : ((0xEF : Byte).extractLsb' 0 5 = 0x0E ||
      (0xEF : Byte).extractLsb' 0 5 = 0x0F) = true := by
    decide
  have hdpl : ∀ cpl : BitVec 2, ¬ dpl 0xEF < cpl := by decide
  exact selectGate_ok (lookup_idt isr n vector) hdecode hkind (hdpl k.cpl)
    (show present 0xEF = true by decide)

theorem selectStack_kernel (hk : Interruptible k) :
    selectStack k 0 (kernelCode.level k.cpl) =
      if k.cpl = 0 then .ok (frameTop k.rsp) else .error .noStack := by
  have hlevel : ∀ cpl, kernelCode.level cpl = 0 := by decide
  rw [selectStack, hlevel, Context.stackFor_zero hk.task]
  by_cases hcpl : k.cpl = 0
  · rw [if_pos hcpl, if_pos hcpl]
    exact if_pos (hk.stack hcpl)
  · rw [if_neg hcpl, if_neg hcpl]

theorem attempt_registered (hcanon : ∀ e ∈ isrs, IsCanonical (isr e))
    (hk : Interruptible k) {e : Isr} (h : registered n vector = some e) :
    attempt (tablesWith isr n) k src vector =
      if k.cpl = 0 then .ok (e.entry isr k) else .error .noStack := by
  have hlevel : ∀ cpl, kernelCode.level cpl = 0 := by decide
  have hmasks : (e.gate isr).masks = false :=
    show (!(0xEF : Byte).getLsbD 0) = false by decide
  rw [attempt_of_gate (selectGate_registered h) selectCode_kernel
    (hcanon e (registered_vector h).1), hlevel, hmasks, ← hlevel k.cpl]
  show (selectStack k 0 (kernelCode.level k.cpl)).map _ = _
  rw [selectStack_kernel hk, hlevel]
  split
  · rfl
  · rfl

theorem attempt_unregistered (h : registered n vector = none) :
    attempt (tablesWith isr n) k src vector =
      .error (.fault GENERAL_PROTECTION) := by
  have hdecode := decode_idtWith isr n vector
  rw [h, Option.map_none, Option.getD_none] at hdecode
  refine attempt_error ?_
  rw [selectGate, lookup_idt]
  simp only [hdecode]
  rfl

/-- The handler an interrupt ends up in while `n` are registered. -/
def handlerFor (n : ℕ) (src : Source) (vector : Byte) : Option Isr :=
  (registered n vector).or
    (if classOf src vector = .doubleFault then none
    else if classOf src vector = .benign then
      (registered n GENERAL_PROTECTION).or (registered n DOUBLE_FAULT)
    else registered n DOUBLE_FAULT)

/-- Entering a handler where kernel code is interrupted, or a shutdown if there
is none. -/
def enter (isr : Isr → Word) (k : Context) : Option Isr → Outcome
  | some e =>
      if k.cpl = 0 then .entered e.vector (e.entry isr k) else .noStack
  | none => .shutdown

/-- What becomes of an attempt on the gate of a handler. -/
theorem enter_some (e : Isr) (escalate : Byte → Outcome) :
    (match (if k.cpl = 0 then .ok (e.entry isr k) else .error .noStack :
      Except Refusal Entry) with
    | .ok entry => .entered e.vector entry
    | .error .noStack => .noStack
    | .error (.fault fault) => escalate fault) = enter isr k (some e) := by
  rw [enter]
  by_cases hcpl : k.cpl = 0
  · rw [if_pos hcpl, if_pos hcpl]
  · rw [if_neg hcpl, if_neg hcpl]

section Escalate

variable (hcanon : ∀ e ∈ isrs, IsCanonical (isr e)) (hk : Interruptible k)
include hcanon hk

theorem deliverDouble_with : deliverDouble (tablesWith isr n) k =
    enter isr k (registered n DOUBLE_FAULT) := by
  rw [deliverDouble]
  cases h : registered n DOUBLE_FAULT with
  | none => rw [attempt_unregistered h]; rfl
  | some e =>
      rw [attempt_registered hcanon hk h, ← (registered_vector h).2]
      exact enter_some e _

theorem deliverFault_with :
    deliverFault (tablesWith isr n) k GENERAL_PROTECTION =
      enter isr k ((registered n GENERAL_PROTECTION).or
        (registered n DOUBLE_FAULT)) := by
  rw [deliverFault]
  cases h : registered n GENERAL_PROTECTION with
  | none =>
      rw [attempt_unregistered h, Option.none_or]
      exact deliverDouble_with hcanon hk
  | some e =>
      rw [attempt_registered hcanon hk h, Option.some_or,
        ← (registered_vector h).2]
      exact enter_some e _

theorem deliver_with : Amd64.deliver (tablesWith isr n) k src vector =
    enter isr k (handlerFor n src vector) := by
  rw [handlerFor]
  cases h : registered n vector with
  | some e =>
      rw [Amd64.deliver, attempt_registered hcanon hk h, Option.some_or,
        ← (registered_vector h).2]
      exact enter_some e _
  | none =>
      rw [deliver_of_fault (attempt_unregistered h), Option.none_or]
      split
      · rfl
      · split
        · exact deliverFault_with hcanon hk
        · exact deliverDouble_with hcanon hk

end Escalate

/-- At every step of `exceptions_init`, and whatever interrupt comes up then:
from kernel code the processor enters the handler `handlerFor` says, on the
stack in use, and it shuts down exactly where there is none. From any other
privilege level no handler is ever entered: there is no stack for it. -/
theorem deliver_initialized (hcanon : ∀ e ∈ isrs, IsCanonical (isr e))
    (hk : Interruptible k) (n : ℕ) (src : Source) (vector : Byte) : ∃ t,
    (initialized isr n).tables = some t ∧
      Amd64.deliver t k src vector = enter isr k (handlerFor n src vector) :=
  ⟨_, tables_initialized isr n, deliver_with hcanon hk⟩

/-- Kernel code on a stack below `0xFFFFFFFF80010008`. -/
def inKernel : Context := ⟨0, 0xFFFFFFFF80010008, none, fun _ => true⟩

theorem interruptible_inKernel : Interruptible inKernel :=
  ⟨rfl, fun _ => by decide⟩

/-- A page fault after eight handlers, when that of double faults is the last,
and after seven. -/
theorem deliver_initialized_pageFault : ∃ t t',
    (initialized (fun _ => 0xFFFFFFFF80001000) 8).tables = some t ∧
      (initialized (fun _ => 0xFFFFFFFF80001000) 7).tables = some t' ∧
      Amd64.deliver t inKernel .exception PAGE_FAULT =
        .entered DOUBLE_FAULT
          ⟨0xFFFFFFFF80001000, 0x28, 0, false, 0xFFFFFFFF80010000⟩ ∧
      Amd64.deliver t' inKernel .exception PAGE_FAULT = .shutdown := by
  have hcanon : ∀ e ∈ isrs, IsCanonical 0xFFFFFFFF80001000 :=
    fun _ _ => by decide
  obtain ⟨t, htables, h⟩ :=
    deliver_initialized hcanon interruptible_inKernel 8 .exception PAGE_FAULT
  obtain ⟨t', htables', h'⟩ :=
    deliver_initialized hcanon interruptible_inKernel 7 .exception PAGE_FAULT
  refine ⟨t, t', htables, htables', ?_, ?_⟩
  · rw [h]
    rfl
  · rw [h']
    rfl

end Delivery

/-! ## All of them -/

/-- Every exception that counts has a handler. -/
theorem classOf_unregistered : ∀ vector : Byte, registered 13 vector = none →
    classOf .exception vector = .benign := by
  decide +kernel

theorem registered_all {e : Isr} (he : e ∈ isrs) :
    registered 13 e.vector = some e := by
  have hsome : (registered 13 e.vector).isSome :=
    List.find?_isSome.2 ⟨e, he, decide_eq_true rfl⟩
  obtain ⟨e', h⟩ := Option.isSome_iff_exists.1 hsome
  obtain ⟨he', hvector⟩ := registered_vector h
  rw [h, vector_injective e' he' e he hvector]

/-- Once all are registered there is a handler for every interrupt, its own or
that of general protection faults. -/
theorem handlerFor_all (src : Source) (vector : Byte) : ∃ e ∈ isrs,
    handlerFor 13 src vector = some e ∧
      (e.vector = vector ∨
        registered 13 vector = none ∧ e.vector = GENERAL_PROTECTION) := by
  rw [handlerFor]
  cases h : registered 13 vector with
  | some e =>
      obtain ⟨he, hvector⟩ := registered_vector h
      exact ⟨e, he, Option.some_or, Or.inl hvector⟩
  | none =>
      have hclass : classOf src vector = .benign := by
        cases src with
        | exception => exact classOf_unregistered vector h
        | external => rfl
        | software => rfl
      have hgp : MAKE_ISR 0xD "General protection fault" ∈ isrs := by decide
      have hreg : registered 13 GENERAL_PROTECTION = some _ :=
        registered_all hgp
      refine ⟨_, hgp, ?_, Or.inr ⟨rfl, rfl⟩⟩
      rw [hclass, hreg]
      rfl

section Screen

variable {mem : Mem} {p : Word} {e : Isr}

/-- The message of a handler. -/
def Isr.message (h : (Arg.str e.name).At mem p) : Message .sysV mem where
  fmt := isrFormat
  slots := e.args p
  strings := fun _ => e.name
  noNul := by decide
  whole := by decide
  stringsAt := by
    rw [show conversions isrFormat = [ascii 's', ascii 'x'] by decide]
    intro k hk
    cases k with
    | zero => exact h
    | succ k =>
        have hx := List.mem_singleton.1 (List.mem_of_getElem? hk)
        exact absurd hx (by decide)

/-- What an exception looks like: the prefix of a panic, and then its name and
its vector. -/
def exceptionText (e : Isr) : Text :=
  panicPrefix ++ inDefault (e.name ++ (" (vector=".toList.map ascii ++
    (hexNumeral (e.vector.setWidth 64) ++ ")\n".toList.map ascii)))

theorem panicText_message (h : (Arg.str e.name).At mem p) :
    (Isr.message h).panicText = exceptionText e := by
  rw [Message.panicText, exceptionText, inDefault]
  refine congrArg (_ ++ ·) ?_
  simp only [List.map_append]
  rfl

theorem name_ok : ∀ e ∈ isrs, 0 ∉ e.name ∧ IsText e.name ∧
    e.name.length < 30 := by
  decide +kernel

theorem drawable_exceptionText {e : Isr} (he : e ∈ isrs) :
    Drawable (exceptionText e) := by
  refine drawable_panicPrefix.append (IsText.drawable ?_ _)
  rw [isText_append, isText_append, isText_append]
  exact ⟨(name_ok e he).2.1, by decide, isText_hexNumeral _, by decide⟩

theorem length_exceptionText {e : Isr} (he : e ∈ isrs) :
    (exceptionText e).length ≤ 80 := by
  have hname := (name_ok e he).2.2
  have hhex := length_hexNumeral (e.vector.setWidth 64)
  have hfront : (" (vector=".toList.map ascii).length = 9 := by decide
  have hback : (")\n".toList.map ascii).length = 2 := by decide
  rw [exceptionText, List.length_append, length_panicPrefix, length_inDefault,
    List.length_append, List.length_append, List.length_append, hfront, hback]
  omega

theorem kernPanic_longer : isrFormat.length < kernPanic.length := by
  decide

end Screen

/-! ## One exception -/

def names : List (List Byte) := isrs.map Isr.name

def someIsr (e : Isr) : Word := 0xFFFFFFFF80001000 + e.vector.setWidth 64

end VegaOS
