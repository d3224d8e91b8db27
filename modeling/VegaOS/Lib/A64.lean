import Mathlib.Data.Fin.Basic
import Mathlib.Logic.Function.Basic
import Mathlib.Tactic.Common

/-!
# A64 code under labels

A program is pieces of code, each under a label and each up to the jump or
return that ends it. A jump to a label that has no code leaves the program.
Of the flags only `Z` is there, which is all that `b.eq` reads.

The exception vectors are those of an exception taken to EL1.
-/

namespace A64

/-- `x0` to `x30`. -/
abbrev Reg := Fin 31

inductive SysReg
  | daif
  | esrEl1
  | spSel
  | vbarEl1
deriving DecidableEq, Repr

/-- The bits of a system register that can be written. -/
def SysReg.mask : SysReg → BitVec 64
  | .daif => 0x3C0
  | .esrEl1 => BitVec.allOnes 64
  | .spSel => 1
  | .vbarEl1 => ~~~0x7FF

structure State where
  x : Reg → BitVec 64
  sys : SysReg → BitVec 64
  z : Bool

namespace State

def setX (s : State) (d : Reg) (v : BitVec 64) : State :=
  { s with x := Function.update s.x d v }

def setSys (s : State) (r : SysReg) (v : BitVec 64) : State :=
  { s with sys := Function.update s.sys r (v &&& r.mask) }

end State

inductive Instr (L : Type*)
  | mov (d : Reg) (imm : BitVec 64)
  | lsr (d n : Reg) (shift : ℕ)
  | andImm (d n : Reg) (imm : BitVec 64)
  | and (d n m : Reg)
  | orr (d n m : Reg)
  | cmp (n : Reg) (imm : BitVec 64)
  /-- `ldr d, =label` -/
  | ldr (d : Reg) (label : L)
  | mrs (d : Reg) (r : SysReg)
  | msr (r : SysReg) (n : Reg)
  | msrImm (r : SysReg) (imm : BitVec 64)
  | b (label : L)
  | bEq (label : L)
  | ret
deriving DecidableEq, Repr

/-- Where control goes after an instruction. -/
inductive Next (L : Type*)
  | following
  | label (l : L)
  /-- to the address in `x30` -/
  | caller

section Run

variable {L : Type*} (addr : L → BitVec 64)

def step (s : State) : Instr L → State × Next L
  | .mov d imm => (s.setX d imm, .following)
  | .lsr d n shift => (s.setX d (s.x n >>> shift), .following)
  | .andImm d n imm => (s.setX d (s.x n &&& imm), .following)
  | .and d n m => (s.setX d (s.x n &&& s.x m), .following)
  | .orr d n m => (s.setX d (s.x n ||| s.x m), .following)
  | .cmp n imm => ({ s with z := s.x n = imm }, .following)
  | .ldr d label => (s.setX d (addr label), .following)
  | .mrs d r => (s.setX d (s.sys r), .following)
  | .msr r n => (s.setSys r (s.x n), .following)
  | .msrImm r imm => (s.setSys r imm, .following)
  | .b label => (s, .label label)
  | .bEq label => (s, if s.z then .label label else .following)
  | .ret => (s, .caller)

/-- A piece of code, up to where it is left. -/
def piece (s : State) : List (Instr L) → State × Next L
  | [] => (s, .following)
  | i :: is =>
      match step addr s i with
      | (s', .following) => piece s' is
      | out => out

/-- How a run ends. -/
inductive Exit (L : Type*)
  | left (label : L) (s : State)
  | returned (s : State)
  | fellThrough
  | outOfFuel

/-- The state in which a run gives control away. -/
def Exit.state {L : Type*} : Exit L → Option State
  | .left _ s => some s
  | .returned s => some s
  | .fellThrough => none
  | .outOfFuel => none

/-- `n` pieces at most, from a label on. -/
def run (code : L → Option (List (Instr L))) : ℕ → L → State → Exit L
  | 0, _, _ => .outOfFuel
  | n + 1, l, s =>
      match code l with
      | none => .left l s
      | some is =>
          match piece addr s is with
          | (_, .following) => .fellThrough
          | (s', .label l') => run code n l' s'
          | (s', .caller) => .returned s'

end Run

section Rules

variable {L : Type*} {addr : L → BitVec 64} {code : L → Option (List (Instr L))}
variable {n : ℕ} {l l' : L} {s s' : State} {is : List (Instr L)}

/-- A comparison and the branch that depends on it. -/
theorem piece_cmp_bEq (r : Reg) (imm : BitVec 64) :
    piece addr s (.cmp r imm :: .bEq l :: is) =
      if s.x r = imm then ({ s with z := true }, .label l)
      else piece addr { s with z := false } is := by
  by_cases h : s.x r = imm
  · rw [if_pos h, piece, step, decide_eq_true h]
    rfl
  · rw [if_neg h, piece, step, decide_eq_false h]
    rfl

theorem run_label (h : code l = some is)
    (hp : piece addr s is = (s', .label l')) :
    run addr code (n + 1) l s = run addr code n l' s' := by
  rw [run, h]
  simp only [hp]

/-- The general-purpose register an instruction writes to. -/
def Instr.dest : Instr L → Option Reg
  | .mov d _ => some d
  | .lsr d _ _ => some d
  | .andImm d _ _ => some d
  | .and d _ _ => some d
  | .orr d _ _ => some d
  | .ldr d _ => some d
  | .mrs d _ => some d
  | .cmp _ _ | .msr _ _ | .msrImm _ _ | .b _ | .bEq _ | .ret => none

theorem step_keeps {r : Reg} {i : Instr L} (h : i.dest ≠ some r) :
    (step addr s i).1.x r = s.x r := by
  have hset : ∀ d v, some d ≠ some r → (s.setX d v).x r = s.x r := by
    intro d v hd
    have hr : r ≠ d := fun hr => hd (congrArg some hr.symm)
    exact Function.update_of_ne hr v s.x
  cases i with
  | mov d imm => exact hset d _ h
  | lsr d n shift => exact hset d _ h
  | andImm d n imm => exact hset d _ h
  | and d n m => exact hset d _ h
  | orr d n m => exact hset d _ h
  | ldr d label => exact hset d _ h
  | mrs d r' => exact hset d _ h
  | cmp n imm => rfl
  | msr r' n => rfl
  | msrImm r' imm => rfl
  | b label => rfl
  | bEq label => rfl
  | ret => rfl

/-- A register no instruction writes to keeps its value. -/
theorem piece_keeps {r : Reg} : ∀ {is : List (Instr L)} {s : State},
    (∀ i ∈ is, i.dest ≠ some r) → (piece addr s is).1.x r = s.x r := by
  intro is
  induction is with
  | nil => exact fun _ => rfl
  | cons i is ih =>
      intro s h
      have hstep : (step addr s i).1.x r = s.x r :=
        step_keeps (h i List.mem_cons_self)
      rw [piece]
      cases hi : step addr s i with
      | mk s' next =>
          rw [hi] at hstep
          cases next with
          | following =>
              exact (ih fun j hj => h j (List.mem_cons_of_mem i hj)).trans hstep
          | label l => exact hstep
          | caller => exact hstep

/-- Nor does a run change it. -/
theorem run_keeps {r : Reg}
    (hcode : ∀ l is, code l = some is → ∀ i ∈ is, i.dest ≠ some r) :
    ∀ {n : ℕ} {l : L} {s s' : State}, (run addr code n l s).state = some s' →
      s'.x r = s.x r := by
  intro n
  induction n with
  | zero => exact fun h => by cases h
  | succ n ih =>
      intro l s s' h
      rw [run] at h
      cases hl : code l with
      | none =>
          rw [hl] at h
          obtain rfl : s = s' := Option.some.inj h
          rfl
      | some is =>
          have hpiece : (piece addr s is).1.x r = s.x r :=
            piece_keeps (hcode l is hl)
          rw [hl] at h
          cases hp : piece addr s is with
          | mk s₁ next =>
              simp only [hp] at h
              rw [hp] at hpiece
              cases next with
              | following => cases h
              | label l' => exact (ih h).trans hpiece
              | caller =>
                  obtain rfl : s₁ = s' := Option.some.inj h
                  exact hpiece

end Rules

/-! ## Exceptions -/

/-- Where an exception is taken from. -/
inductive Origin
  /-- EL1, on the stack of EL0 -/
  | currentSp0
  /-- EL1, on its own stack -/
  | currentSpx
  | lowerAArch64
  | lowerAArch32
deriving DecidableEq, Repr

inductive Kind
  | synchronous
  | irq
  | fiq
  | serror
deriving DecidableEq, Repr

def Origin.offset : Origin → BitVec 64
  | .currentSp0 => 0x000
  | .currentSpx => 0x200
  | .lowerAArch64 => 0x400
  | .lowerAArch32 => 0x600

def Kind.offset : Kind → BitVec 64
  | .synchronous => 0x000
  | .irq => 0x080
  | .fiq => 0x100
  | .serror => 0x180

/-- The address an exception is taken to. -/
def vector (s : State) (o : Origin) (k : Kind) : BitVec 64 :=
  s.sys .vbarEl1 + (o.offset + k.offset)

/-- The state an exception is taken in: everything is masked, on the stack of
EL1. -/
def takeException (s : State) (syndrome : BitVec 64) : State :=
  { s with
    sys := Function.update (Function.update (Function.update s.sys
      .esrEl1 syndrome) .daif 0x3C0) .spSel 1 }

end A64
