import VegaOS.Lib.Updates
import VegaOS.Src.Idt

/-!
# What the processor makes of the IDT

Whatever was installed before, an entry decodes to the handler and the type of
the last call for its vector. The privilege level is 3 whatever was asked for,
so the attribute byte is the one that was asked for exactly where that has
privilege level 3.
-/

namespace VegaOS

open ByteMem Amd64

/-- A call of `set_desc`. -/
structure SetDesc where
  vector : Byte
  isr : Word
  flags : Byte
deriving DecidableEq, Repr

def SetDesc.run (idt : Idt) (c : SetDesc) : Idt :=
  setDesc idt c.vector c.isr c.flags

def install (idt : Idt) (calls : List SetDesc) : Idt :=
  calls.foldl SetDesc.run idt

def gate (idt : Idt) (vector : Byte) : Gate := decode (idt vector).bits

/-- The attribute byte `set_desc` stores. -/
def storedAttr (flags : Byte) : Byte :=
  (1 : BitVec 1) ++ ((3 : BitVec 2) ++ ((0 : BitVec 1) ++
    flags.setWidth 4))

/-- The gate `set_desc` stores. -/
def SetDesc.gate (c : SetDesc) : Gate := ⟨c.isr, 0x28, 0, storedAttr c.flags⟩

/-! ## One call -/

theorem decode_bits (e : IdtEntry) :
    decode e.bits =
      ⟨e.offsetHigh ++ (e.offsetMid ++ e.offsetLow), e.cs, e.ist, e.byte5⟩ := by
  have hist : e.byte4.extractLsb' 0 3 = e.ist := by
    rw [IdtEntry.byte4, BitVec.extractLsb'_append_eq_of_add_le (by decide)]
    exact BitVec.extractLsb'_eq_self
  simp only [decode, IdtEntry.bits]
  simp (disch := omega) only [BitVec.extractLsb'_append_eq_of_add_le,
    BitVec.extractLsb'_append_eq_of_le]
  simp [hist]

theorem append_halves (isr : Word) :
    (isr >>> 32).setWidth 32 ++
      ((isr >>> 16).setWidth 16 ++ isr.setWidth 16) = isr := by
  apply BitVec.eq_of_getLsbD_eq
  intro i hi
  simp only [BitVec.getLsbD_append, BitVec.getLsbD_setWidth,
    BitVec.getLsbD_ushiftRight]
  by_cases hlow : i < 16
  · simp [hlow, show i < 32 by omega]
  · by_cases hmid : i < 32
    · simp [hlow, hmid, show i - 16 < 16 by omega,
        show 16 + (i - 16) = i by omega]
    · simp [hmid, show i - 32 < 32 by omega, show 32 + (i - 32) = i by omega]

/-- One call changes the gate of its vector. -/
theorem gate_run (idt : Idt) (c : SetDesc) :
    gate (c.run idt) = Function.update (gate idt) c.vector c.gate := by
  funext vector
  by_cases hv : vector = c.vector
  · rw [hv, Function.update_self, gate, SetDesc.run, setDesc,
      Function.update_self, decode_bits, append_halves]
    rfl
  · rw [Function.update_of_ne hv, gate, SetDesc.run, setDesc,
      Function.update_of_ne hv]
    rfl

theorem storedAttr_eq_iff {flags : Byte} (hp : present flags = true)
    (hzero : flags.getLsbD 4 = false) :
    storedAttr flags = flags ↔ dpl flags = 3 := by
  revert flags
  decide +kernel

/-! ## Any number of calls -/

theorem gate_install (calls : List SetDesc) : ∀ idt : Idt,
    gate (install idt calls) =
      Updates.applyAll SetDesc.vector SetDesc.gate (gate idt) calls := by
  induction calls with
  | nil => exact fun _ => rfl
  | cons c calls ih =>
      intro idt
      rw [install, List.foldl_cons]
      refine (ih (c.run idt)).trans ?_
      rw [gate_run]
      rfl

theorem gate_start (vector : Byte) : gate .start vector = ⟨0, 0, 0, 0⟩ := by
  have hzero : gate .start 0 = ⟨0, 0, 0, 0⟩ := by decide +kernel
  exact hzero

/-- The last call for a vector. -/
def lastFor (calls : List SetDesc) (vector : Byte) : Option SetDesc :=
  Updates.last SetDesc.vector calls vector

theorem gate_install_start (calls : List SetDesc) (vector : Byte) :
    gate (install .start calls) vector =
      ((lastFor calls vector).map SetDesc.gate).getD ⟨0, 0, 0, 0⟩ := by
  rw [gate_install, Updates.applyAll_eq_last, gate_start]
  rfl

/-- The gate of a vector is the one the last call for it asked for, and is not
present if there was none. -/
def AsInstalled (calls : List SetDesc) (vector : Byte) : Prop :=
  match lastFor calls vector with
  | some c =>
      (gate (install .start calls) vector).offset = c.isr ∧
        (gate (install .start calls) vector).selector = 0x28 ∧
        (gate (install .start calls) vector).attr = c.flags
  | none => present (gate (install .start calls) vector).attr = false

/-- Every gate is as the last call for its vector asked for exactly if that
call asked for privilege level 3. -/
theorem asInstalled_iff {calls : List SetDesc}
    (hflags : ∀ c ∈ calls,
      present c.flags = true ∧ c.flags.getLsbD 4 = false) (vector : Byte) :
    AsInstalled calls vector ↔
      ∀ c, lastFor calls vector = some c → dpl c.flags = 3 := by
  rw [AsInstalled, gate_install_start]
  cases hlast : lastFor calls vector with
  | none => exact iff_of_true rfl fun c hc => by cases hc
  | some c =>
      obtain ⟨hp, hzero⟩ := hflags c (Updates.mem_of_last hlast).1
      have hattr := storedAttr_eq_iff hp hzero
      constructor
      · intro ⟨_, _, hsame⟩ c' hc'
        cases hc'
        exact hattr.1 hsame
      · exact fun hall => ⟨rfl, rfl, hattr.2 (hall c rfl)⟩

/-- A gate for user mode, installed over one that is not. -/
theorem asInstalled_user :
    AsInstalled [⟨0x80, 0xFFFFFFFF80001000, IDT_INT_GATE_FLAGS⟩,
      ⟨0x80, 0xFFFFFFFF80002000, IDT_INT_GATE_USER⟩] 0x80 := by
  refine (asInstalled_iff (by decide) 0x80).2 fun c hc => ?_
  obtain rfl : ⟨0x80, 0xFFFFFFFF80002000, IDT_INT_GATE_USER⟩ = c :=
    Option.some.inj hc
  decide

/-- The handler of page faults, as `register_exception` installs it: user mode
may call it. -/
theorem not_asInstalled_pageFault :
    registerException .start 0x0E 0xFFFFFFFF80001000 =
        install .start [⟨0x0E, 0xFFFFFFFF80001000, IDT_TRAP_GATE_FLAGS⟩] ∧
      dpl IDT_TRAP_GATE_FLAGS = 0 ∧
      dpl (gate (registerException .start 0x0E 0xFFFFFFFF80001000)
        0x0E).attr = 3 ∧
      ¬ AsInstalled [⟨0x0E, 0xFFFFFFFF80001000, IDT_TRAP_GATE_FLAGS⟩] 0x0E := by
  have hgate : gate (registerException .start 0x0E 0xFFFFFFFF80001000) 0x0E =
      ⟨0xFFFFFFFF80001000, 0x28, 0, 0xEF⟩ := by decide +kernel
  refine ⟨rfl, by decide, by rw [hgate]; decide, fun h => ?_⟩
  have hattr : (0xEF : Byte) = IDT_TRAP_GATE_FLAGS :=
    (congrArg Gate.attr hgate).symm.trans h.2.2
  exact absurd hattr (by decide)

end VegaOS
