import VegaOS.Lib.Memory
import VegaOS.Lib.Radix

/-!
# Address translation on ARMv8

Stage 1 translation with the 4 KiB granule and addresses of 48 bits: two
roots, four levels, and tables of 512 descriptors. Levels are counted from the
last: a descriptor at height 0 is at level 3. What a descriptor is, is said by
its bits 1 and 0 and its level; `translate` is the walk, whose result is the
descriptor of the page or block it ends at, or nothing if it faults.
-/

namespace Armv8

open ByteMem

/-- Bits 1 and 0. -/
def kind (desc : Word) : ℕ := desc.toNat % 4

/-- Above the last level `11` is a table, at the address in bits 47 to 12. -/
def nextTable (desc : Word) : Option Word :=
  if kind desc = 3 then
    some (BitVec.ofNat 64 (desc.toNat % 2 ^ 48 / 4096 * 4096))
  else none

/-- At level 3 `11` is a page, at levels 1 and 2 `01` is a block. -/
def IsLeaf (height : ℕ) (desc : Word) : Prop :=
  height = 0 ∧ kind desc = 3 ∨ (height = 1 ∨ height = 2) ∧ kind desc = 1

instance (height : ℕ) (desc : Word) : Decidable (IsLeaf height desc) :=
  inferInstanceAs (Decidable (_ ∨ _))

/-- A page or a block, with its address and its attributes. -/
structure Leaf where
  height : ℕ
  desc : Word
deriving DecidableEq, Repr

def leafAt (height : ℕ) (desc : Word) : Option Leaf :=
  if IsLeaf height desc then some ⟨height, desc⟩ else none

/-- The output address: as many bits of the descriptor as there are above the
page or block, and the rest from the input address. -/
def Leaf.addr (l : Leaf) (v : Word) : Word :=
  let size := 2 ^ (12 + 9 * l.height)
  BitVec.ofNat 64 (l.desc.toNat % 2 ^ 48 / size * size + v.toNat % size)

/-- The nine bits of an address from `shift` on. -/
def field (v : Word) (shift : ℕ) : Fin 512 :=
  Fin.ofNat 512 (v.toNat / 2 ^ shift)

def indices (v : Word) : List (Fin 512) :=
  [field v 39, field v 30, field v 21, field v 12]

/-- The walk from a root, in tables with the contents `S`. -/
def walk (S : Word → Fin 512 → Word) (root : Word) (v : Word) : Option Leaf :=
  Radix.lookup nextTable leafAt S root (indices v)

/-- The lower half is under one root, the higher half under the other, and an
address whose bits 63 to 48 differ is under none. -/
def translate (S : Word → Fin 512 → Word) (ttbr0 ttbr1 v : Word) :
    Option Leaf :=
  if v.toNat < 2 ^ 48 then walk S ttbr0 v
  else if 2 ^ 64 - 2 ^ 48 ≤ v.toNat then walk S ttbr1 v
  else none

theorem leafAt_zero (height : ℕ) : leafAt height 0 = none := by
  refine if_neg fun h => ?_
  rcases h with ⟨_, hpage⟩ | ⟨_, hblock⟩
  · exact absurd hpage (by decide)
  · exact absurd hblock (by decide)

theorem toNat_addr_page (desc v : Word) :
    (Leaf.addr ⟨0, desc⟩ v).toNat =
      desc.toNat % 2 ^ 48 / 4096 * 4096 + v.toNat % 4096 := by
  show (desc.toNat % 2 ^ 48 / 4096 * 4096 + v.toNat % 4096) % 2 ^ 64 = _
  omega

end Armv8
