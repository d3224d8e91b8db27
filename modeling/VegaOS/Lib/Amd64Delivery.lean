import VegaOS.Lib.Amd64

/-!
# How x86-64 delivers an interrupt

In long mode a vector selects a gate, and the gate a code segment. Either may
be unfit, which is an exception in its own right, and an exception that comes
up while another one is delivered may make a double fault of the two. A double
fault that cannot be delivered shuts the processor down.

The frame goes onto the stack in use, unless the privilege level changes or
the gate names a stack: then it is one of the task state segment. Where there
is none, or the frame cannot be written, the outcome is `noStack`, and what the
processor makes of that is not followed any further. Exceptions of extensions
that are not switched on do not occur, and there is no local descriptor table.
-/

namespace Amd64

/-! ## Descriptors -/

/-- Of a gate: an interrupt gate or a trap gate of 64 bits. -/
def Gate.isInterrupt (g : Gate) : Bool :=
  g.attr.extractLsb' 0 5 = 0x0E || g.attr.extractLsb' 0 5 = 0x0F

/-- An interrupt gate masks interrupts, a trap gate does not. -/
def Gate.masks (g : Gate) : Bool := !g.attr.getLsbD 0

/-- What counts of a segment descriptor in long mode: the access byte and the
four flags. -/
structure Segment where
  access : BitVec 8
  flags : BitVec 4
deriving DecidableEq, Repr

def decodeSegment (desc : BitVec 64) : Segment :=
  ⟨desc.extractLsb' 40 8, desc.extractLsb' 52 4⟩

namespace Segment

def isCode (s : Segment) : Bool := s.access.getLsbD 4 && s.access.getLsbD 3

def conforming (s : Segment) : Bool := s.access.getLsbD 2

/-- Code of 64 bits: the flag `L` is set and `D` is not. -/
def long (s : Segment) : Bool := s.flags.getLsbD 1 && !s.flags.getLsbD 2

end Segment

/-- A table as its register describes it: the offset of its last byte, and
the entries, `w` bytes each. -/
structure Table (w : ℕ) where
  limit : ℕ
  entry : ℕ → BitVec (8 * w)

def Table.lookup {w : ℕ} (t : Table w) (i : ℕ) : Option (BitVec (8 * w)) :=
  if i * w + (w - 1) ≤ t.limit then some (t.entry i) else none

structure Tables where
  gdt : Table 8
  idt : Table 16

/-- The upper seventeen bits are equal. -/
def IsCanonical (addr : BitVec 64) : Prop :=
  (addr.extractLsb' 0 48).signExtend 64 = addr

instance (addr : BitVec 64) : Decidable (IsCanonical addr) :=
  inferInstanceAs (Decidable (_ = _))

/-! ## The stack -/

/-- The stack pointers of a task state segment: one for each privilege level a
handler can have, and seven that a gate can name. -/
structure TaskState where
  rsp : BitVec 2 → BitVec 64
  ist : BitVec 3 → BitVec 64

/-- What an interrupt comes upon. -/
structure Context where
  cpl : BitVec 2
  rsp : BitVec 64
  /-- what the task register was loaded with, if it was -/
  task : Option TaskState
  /-- the bytes that the highest privilege level can write -/
  writable : BitVec 64 → Bool

/-- A frame is pushed from a multiple of 16 on. -/
def frameTop (rsp : BitVec 64) : BitVec 64 := rsp &&& ~~~15#64

namespace Context

/-- The stack for a gate that names the stack `ist`, or none if that is 0, and
whose handler has the privilege level `cpl'`. -/
def stackFor (k : Context) (ist : BitVec 3) (cpl' : BitVec 2) :
    Option (BitVec 64) :=
  if ist ≠ 0 then k.task.map fun task => task.ist ist
  else if cpl' ≠ k.cpl then k.task.map fun task => task.rsp cpl'
  else some k.rsp

/-- There is room for the five words of a frame and an error code. -/
def Takes (k : Context) (rsp : BitVec 64) : Prop :=
  ∀ i < 48, IsCanonical (frameTop rsp - 48 + BitVec.ofNat 64 i) ∧
    k.writable (frameTop rsp - 48 + BitVec.ofNat 64 i) = true

instance (k : Context) (rsp : BitVec 64) : Decidable (k.Takes rsp) :=
  inferInstanceAs (Decidable (∀ i < 48, _ ∧ _))

/-- Where no task register is loaded, only the privilege level in use has a
stack. -/
theorem stackFor_zero {k : Context} (htask : k.task = none)
    (cpl' : BitVec 2) :
    k.stackFor 0 cpl' = if k.cpl = cpl' then some k.rsp else none := by
  by_cases h : k.cpl = cpl'
  · simp [stackFor, h]
  · simp [stackFor, h, htask, Ne.symm h]

end Context

/-! ## One attempt -/

def DOUBLE_FAULT : BitVec 8 := 0x08
def NOT_PRESENT : BitVec 8 := 0x0B
def GENERAL_PROTECTION : BitVec 8 := 0x0D
def PAGE_FAULT : BitVec 8 := 0x0E

/-- Where an interrupt comes from. -/
inductive Source
  /-- the processor finds an error -/
  | exception
  /-- a device -/
  | external
  /-- the instruction `int` -/
  | software
deriving DecidableEq, Repr

/-- Why a handler is not entered. -/
inductive Refusal
  | fault (vector : BitVec 8)
  | noStack
deriving DecidableEq, Repr

/-- How a handler is entered. -/
structure Entry where
  rip : BitVec 64
  cs : BitVec 16
  /-- the privilege level of the handler -/
  cpl : BitVec 2
  /-- interrupts are masked -/
  masked : Bool
  /-- the frame lies right below -/
  top : BitVec 64
deriving DecidableEq, Repr

/-- The gate for a vector, or the exception instead. Only `int` is held
against the privilege level of a gate. -/
def selectGate (t : Tables) (cpl : BitVec 2) (src : Source)
    (vector : BitVec 8) : Except Refusal Gate :=
  match t.idt.lookup vector.toNat with
  | none => .error (.fault GENERAL_PROTECTION)
  | some desc =>
      let g := decode desc
      if ¬ g.isInterrupt then .error (.fault GENERAL_PROTECTION)
      else if src = .software ∧ dpl g.attr < cpl then
        .error (.fault GENERAL_PROTECTION)
      else if ¬ present g.attr then .error (.fault NOT_PRESENT)
      else .ok g

/-- The code segment for a selector. Bits 1 and 0 are a privilege level that
does not count here, and bit 2 asks for the local table. -/
def selectCode (t : Tables) (cpl : BitVec 2) (selector : BitVec 16) :
    Except Refusal Segment :=
  if selector.toNat / 4 = 0 ∨ selector.getLsbD 2 then
    .error (.fault GENERAL_PROTECTION)
  else
    match t.gdt.lookup (selector.toNat / 8) with
    | none => .error (.fault GENERAL_PROTECTION)
    | some desc =>
        let s := decodeSegment desc
        if ¬ s.isCode ∨ cpl < dpl s.access then
          .error (.fault GENERAL_PROTECTION)
        else if ¬ present s.access then .error (.fault NOT_PRESENT)
        else if ¬ s.long then .error (.fault GENERAL_PROTECTION)
        else .ok s

/-- The top of the frame for a handler of the level `cpl'`. -/
def selectStack (k : Context) (ist : BitVec 3) (cpl' : BitVec 2) :
    Except Refusal (BitVec 64) :=
  match k.stackFor ist cpl' with
  | none => .error .noStack
  | some rsp => if k.Takes rsp then .ok (frameTop rsp) else .error .noStack

/-- The privilege level of a handler in the segment. -/
def Segment.level (s : Segment) (cpl : BitVec 2) : BitVec 2 :=
  if s.conforming then cpl else dpl s.access

/-- A handler is entered, or it is said why not. -/
def attempt (t : Tables) (k : Context) (src : Source) (vector : BitVec 8) :
    Except Refusal Entry := do
  let g ← selectGate t k.cpl src vector
  let s ← selectCode t k.cpl g.selector
  let top ← selectStack k g.ist (s.level k.cpl)
  if IsCanonical g.offset then
    return ⟨g.offset, g.selector, s.level k.cpl, g.masks, top⟩
  else throw (.fault GENERAL_PROTECTION)

/-! ## The whole delivery -/

inductive Class
  | benign
  | contributory
  | pageFault
  | doubleFault
deriving DecidableEq, Repr

/-- What an interrupt counts as when another exception comes on top of it:
only exceptions count. -/
def classOf : Source → BitVec 8 → Class
  | .exception, vector =>
      if vector = DOUBLE_FAULT then .doubleFault
      else if vector = PAGE_FAULT then .pageFault
      else if vector = 0 ∨ 0x0A ≤ vector ∧ vector ≤ GENERAL_PROTECTION then
        .contributory
      else .benign
  | .external, _ => .benign
  | .software, _ => .benign

inductive Outcome
  | entered (vector : BitVec 8) (e : Entry)
  | noStack
  | shutdown
deriving DecidableEq, Repr

/-- A double fault, and nothing but a shutdown behind it. -/
def deliverDouble (t : Tables) (k : Context) : Outcome :=
  match attempt t k .exception DOUBLE_FAULT with
  | .ok e => .entered DOUBLE_FAULT e
  | .error .noStack => .noStack
  | .error (.fault _) => .shutdown

/-- An exception that `attempt` came up with. They are all contributory. -/
def deliverFault (t : Tables) (k : Context) (fault : BitVec 8) : Outcome :=
  match attempt t k .exception fault with
  | .ok e => .entered fault e
  | .error .noStack => .noStack
  | .error (.fault _) => deliverDouble t k

def deliver (t : Tables) (k : Context) (src : Source) (vector : BitVec 8) :
    Outcome :=
  match attempt t k src vector with
  | .ok e => .entered vector e
  | .error .noStack => .noStack
  | .error (.fault fault) =>
      match classOf src vector with
      | .benign => deliverFault t k fault
      | .contributory => deliverDouble t k
      | .pageFault => deliverDouble t k
      | .doubleFault => .shutdown

section Rules

variable {t : Tables} {k : Context} {src : Source} {vector : BitVec 8}

theorem attempt_error {r : Refusal}
    (h : selectGate t k.cpl src vector = .error r) :
    attempt t k src vector = .error r := by
  rw [attempt, h]
  rfl

theorem selectGate_ok {cpl : BitVec 2} {desc : BitVec 128} {g : Gate}
    (hdesc : t.idt.lookup vector.toNat = some desc) (hg : decode desc = g)
    (hkind : g.isInterrupt = true) (hcpl : ¬ dpl g.attr < cpl)
    (hpresent : present g.attr = true) : selectGate t cpl src vector = .ok g := by
  rw [selectGate, hdesc]
  simp only [hg]
  rw [if_neg (not_not_intro hkind), if_neg fun h => hcpl h.2,
    if_neg (not_not_intro hpresent)]

theorem selectCode_ok {cpl : BitVec 2} {selector : BitVec 16}
    {code : BitVec 64} {s : Segment}
    (hnull : selector.toNat / 4 ≠ 0) (hlocal : selector.getLsbD 2 = false)
    (hcode : t.gdt.lookup (selector.toNat / 8) = some code)
    (hs : decodeSegment code = s) (hkind : s.isCode = true)
    (hdpl : ¬ cpl < dpl s.access) (hpresent : present s.access = true)
    (hlong : s.long = true) : selectCode t cpl selector = .ok s := by
  have hsel : ¬ (selector.toNat / 4 = 0 ∨ selector.getLsbD 2 = true) :=
    not_or_intro hnull (Bool.eq_false_iff.1 hlocal)
  rw [selectCode, if_neg hsel, hcode]
  simp only [hs]
  rw [if_neg (not_or_intro (not_not_intro hkind) hdpl),
    if_neg (not_not_intro hpresent), if_neg (not_not_intro hlong)]

/-- Where gate and segment are fit, it is the stack that decides. -/
theorem attempt_of_gate {g : Gate} {s : Segment}
    (hgate : selectGate t k.cpl src vector = .ok g)
    (hseg : selectCode t k.cpl g.selector = .ok s)
    (hcanon : IsCanonical g.offset) :
    attempt t k src vector = (selectStack k g.ist (s.level k.cpl)).map
      fun top => ⟨g.offset, g.selector, s.level k.cpl, g.masks, top⟩ := by
  rw [attempt, hgate]
  show (selectCode t k.cpl g.selector >>= _) = _
  rw [hseg]
  show (selectStack k g.ist (s.level k.cpl) >>= _) = _
  simp only [hcanon, if_true]
  cases selectStack k g.ist (s.level k.cpl) <;> rfl

/-- What becomes of an interrupt that has no gate. -/
theorem deliver_of_fault {fault : BitVec 8}
    (h : attempt t k src vector = .error (.fault fault)) :
    deliver t k src vector =
      if classOf src vector = .doubleFault then .shutdown
      else if classOf src vector = .benign then deliverFault t k fault
      else deliverDouble t k := by
  rw [deliver, h]
  cases classOf src vector <;> rfl

end Rules

end Amd64
