import VegaOS.Lib.Armv8

/-!
# What an address may be used for on ARMv8

Permissions in the EL1&0 regime, with neither PAN nor WXN, and with an access
flag that the hardware does not set: what a page or block allows, restricted
by the tables on the way to it. `access` is the whole of it, the physical
address that a walk of the tables sends an instruction fetch, a load or a store
to, or nothing if it faults. No TLB stands before the walk.

Two rules are easily overlooked. Execution at EL0 does not depend on whether
EL0 may read, and what EL0 may write is never executed at EL1.
-/

namespace Armv8

open ByteMem

/-- The exception level an access is made at. -/
inductive Level
  | el0
  | el1
deriving DecidableEq, Repr

inductive Use
  | read
  | write
  | execute
deriving DecidableEq, Repr

/-- The permission bits that count for an access. -/
structure Rights where
  /-- `AP[1]`: EL0 may read -/
  user : Bool
  /-- `AP[2]` -/
  readOnly : Bool
  uxn : Bool
  pxn : Bool
deriving DecidableEq, Repr

/-- The bits of a leaf and of the tables on the way: `APTable` in bits 62 and
61, `UXNTable` in bit 60, `PXNTable` in bit 59. -/
def rights (tables : List Word) (desc : Word) : Rights where
  user := desc.getLsbD 6 && tables.all fun t => !t.getLsbD 61
  readOnly := desc.getLsbD 7 || tables.any fun t => t.getLsbD 62
  uxn := desc.getLsbD 54 || tables.any fun t => t.getLsbD 60
  pxn := desc.getLsbD 53 || tables.any fun t => t.getLsbD 59

def Rights.allow (r : Rights) : Level → Use → Bool
  | .el0, .read => r.user
  | .el0, .write => r.user && !r.readOnly
  | .el0, .execute => !r.uxn
  | .el1, .read => true
  | .el1, .write => !r.readOnly
  | .el1, .execute => !r.pxn && !(r.user && !r.readOnly)

/-- The access flag. -/
def accessed (desc : Word) : Bool := desc.getLsbD 10

/-- The address that is translated. Where the top byte is ignored, as `TBI0` and
`TBI1` of `TCR_EL1` say, bits 63 to 56 of an address count as its bit 55. -/
def effective (tbi : Bool) (v : Word) : Word :=
  if tbi then (v.setWidth 56).signExtend 64 else v

/-- The descriptors of the tables a walk goes through. -/
def trail (S : Word → Fin 512 → Word) (root v : Word) : List Word :=
  Radix.trail nextTable S root [field v 39, field v 30, field v 21]

/-- Those of the walk of the half an address is in. -/
def tablesTo (S : Word → Fin 512 → Word) (ttbr0 ttbr1 v : Word) : List Word :=
  if v.toNat < 2 ^ 48 then trail S ttbr0 v else trail S ttbr1 v

def access (S : Word → Fin 512 → Word) (ttbr0 ttbr1 : Word) (tbi : Bool)
    (v : Word) (level : Level) (use : Use) : Option Word :=
  let va := effective tbi v
  (translate S ttbr0 ttbr1 va).bind fun l =>
    if accessed l.desc &&
        (rights (tablesTo S ttbr0 ttbr1 va) l.desc).allow level use then
      some (l.addr va)
    else none

/-- A table descriptor that restricts nothing. -/
def Plain (desc : Word) : Prop :=
  desc.getLsbD 59 = false ∧ desc.getLsbD 60 = false ∧
    desc.getLsbD 61 = false ∧ desc.getLsbD 62 = false

theorem rights_plain {tables : List Word} (h : ∀ t ∈ tables, Plain t)
    (desc : Word) : rights tables desc = rights [] desc := by
  have hall : (tables.all fun t => !t.getLsbD 61) = true :=
    List.all_eq_true.2 fun t ht => by rw [(h t ht).2.2.1]; rfl
  have hany : ∀ n, (∀ t ∈ tables, t.getLsbD n = false) →
      (tables.any fun t => t.getLsbD n) = false := fun n hn =>
    List.any_eq_false.2 fun t ht => by rw [hn t ht]; exact Bool.false_ne_true
  rw [rights, rights, hall, hany 62 fun t ht => (h t ht).2.2.2,
    hany 60 fun t ht => (h t ht).2.1, hany 59 fun t ht => (h t ht).1]
  rfl

end Armv8
