import Mathlib.Data.List.Basic
import Mathlib.Tactic.Common

/-!
# Symbols drawn as patterns

In an alphabet every symbol has a pattern, no two the same. A symbol is drawn
in one colour, with the ground where its pattern has no bit. Reading it off
again takes no more than the pattern and one position that has a bit: in any
colour but that of the ground the symbol and the colour come back, and a
symbol with an empty pattern looks like the ground.
-/

namespace Glyphs

structure Alphabet (α ι : Type*) where
  symbols : List α
  positions : List ι
  bit : α → ι → Bool
  distinct : ∀ a ∈ symbols, ∀ b ∈ symbols,
    (∀ i ∈ positions, bit a i = bit b i) → a = b

namespace Alphabet

variable {α ι κ : Type*} [DecidableEq κ] (A : Alphabet α ι) (ground : κ)

/-- How a symbol looks. -/
def drawn (a : α) (color : κ) (i : ι) : κ := if A.bit a i then color else ground

/-- The pattern of a symbol is there, in whatever colours. -/
def Pictured (f : ι → κ) (a : α) : Prop :=
  ∀ i ∈ A.positions, (A.bit a i = true ↔ f i ≠ ground)

instance (f : ι → κ) (a : α) : Decidable (A.Pictured ground f a) :=
  inferInstanceAs (Decidable (∀ i ∈ A.positions, _))

def readSymbol (f : ι → κ) : Option α :=
  A.symbols.find? fun a => A.Pictured ground f a

/-- The colour that is there, besides the ground. -/
def readColor (f : ι → κ) : Option κ :=
  (A.positions.map f).find? fun color => color ≠ ground

def read (f : ι → κ) : Option (α × κ) :=
  (A.readColor ground f).bind fun color =>
    (A.readSymbol ground f).map fun a => (a, color)

variable {A ground} {f : ι → κ} {a : α} {color : κ}

theorem readSymbol_eq (ha : a ∈ A.symbols) (h : A.Pictured ground f a) :
    A.readSymbol ground f = some a := by
  cases hfind : A.readSymbol ground f with
  | none =>
      exact absurd (decide_eq_true h) (List.find?_eq_none.1 hfind a ha)
  | some b =>
      have hb : A.Pictured ground f b := of_decide_eq_true
        (List.find?_some (p := fun a => decide (A.Pictured ground f a)) hfind)
      have hpattern : ∀ i ∈ A.positions, A.bit b i = A.bit a i :=
        fun i hi => Bool.eq_iff_iff.2 ((hb i hi).trans (h i hi).symm)
      rw [A.distinct b (List.mem_of_find?_eq_some hfind) a ha hpattern]

theorem readColor_eq {i : ι} (hi : i ∈ A.positions) (hbit : f i ≠ ground)
    (h : ∀ i ∈ A.positions, f i ≠ ground → f i = color) :
    A.readColor ground f = some color := by
  cases hfind : A.readColor ground f with
  | none =>
      exact absurd (decide_eq_true hbit)
        (List.find?_eq_none.1 hfind (f i) (List.mem_map_of_mem hi))
  | some c =>
      obtain ⟨j, hj, rfl⟩ := List.mem_map.1 (List.mem_of_find?_eq_some hfind)
      have hne : f j ≠ ground := of_decide_eq_true
        (List.find?_some (p := fun c => decide (c ≠ ground)) hfind)
      rw [h j hj hne]

/-- The ground has nothing to read. -/
theorem read_ground (h : ∀ i ∈ A.positions, f i = ground) :
    A.read ground f = none := by
  have hcolor : A.readColor ground f = none := by
    refine List.find?_eq_none.2 fun c hc hne => ?_
    obtain ⟨i, hi, rfl⟩ := List.mem_map.1 hc
    exact of_decide_eq_true hne (h i hi)
  rw [read, hcolor, Option.bind_none]

/-- What is read where a symbol is drawn. -/
theorem read_drawn (ha : a ∈ A.symbols) (hcolor : color ≠ ground) {i : ι}
    (hi : i ∈ A.positions) (hbit : A.bit a i = true)
    (h : ∀ i ∈ A.positions, f i = A.drawn ground a color i) :
    A.read ground f = some (a, color) := by
  have hdrawn : A.Pictured ground f a := by
    intro j hj
    rw [h j hj, drawn]
    split
    · rename_i hset
      exact iff_of_true hset hcolor
    · rename_i hclear
      exact iff_of_false hclear (not_not.2 rfl)
  have hone : ∀ j ∈ A.positions, f j ≠ ground → f j = color := by
    intro j hj hne
    rw [h j hj, drawn, if_pos ((hdrawn j hj).2 hne)]
  rw [read, readColor_eq hi ((hdrawn i hi).1 hbit) hone,
    readSymbol_eq ha hdrawn]
  rfl

end Alphabet

end Glyphs
