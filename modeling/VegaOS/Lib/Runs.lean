import Mathlib.Logic.Relation

/-!
# Runs of a labelled step relation

A system is a relation `step s i t`: in state `s` the operation `i` may lead
to `t`. A run is any finite sequence of steps, so "in every reachable state"
is the reflexive transitive closure with the labels forgotten.

`Guarded` restricts a system to the steps that meet a condition on the state
they start from. The last theorem is the shape an exact safety condition
takes: along guarded runs the property holds, and the first step that leaves
the guard is the step that breaks it.
-/

namespace Runs

variable {σ ι : Type*} {step : σ → ι → σ → Prop}

def Reaches (step : σ → ι → σ → Prop) : σ → σ → Prop :=
  Relation.ReflTransGen fun s t => ∃ i, step s i t

/-- The steps of `step` whose start and operation meet `C`. -/
def Guarded (step : σ → ι → σ → Prop) (C : σ → ι → Prop) : σ → ι → σ → Prop :=
  fun s i t => C s i ∧ step s i t

theorem Reaches.invariant {Inv : σ → Prop} {s t : σ} (h : Reaches step s t)
    (hs : Inv s) (hstep : ∀ s i t, Inv s → step s i t → Inv t) : Inv t := by
  induction h with
  | refl => exact hs
  | tail _ hlast ih =>
      obtain ⟨i, hi⟩ := hlast
      exact hstep _ i _ ih hi

/-- A guard that is exact step by step is exact over runs: where every state
so far has the property, the next one has it if and only if the step meets
the guard. -/
theorem guarded_exact {Inv P : σ → Prop} {C : σ → ι → Prop} {s₀ : σ}
    (hInv₀ : Inv s₀) (hP₀ : P s₀)
    (hInv : ∀ s i t, Inv s → step s i t → Inv t)
    (hexact : ∀ s i t, Inv s → P s → step s i t → (P t ↔ C s i))
    {t : σ} (h : Reaches (Guarded step C) s₀ t) :
    P t ∧ ∀ i u, step t i u → (P u ↔ C t i) := by
  have hnext : ∀ s i u, Inv s ∧ P s → Guarded step C s i u → Inv u ∧ P u :=
    fun s i u hs hi =>
      ⟨hInv s i u hs.1 hi.2, (hexact s i u hs.1 hs.2 hi.2).2 hi.1⟩
  have hboth : Inv t ∧ P t := h.invariant ⟨hInv₀, hP₀⟩ hnext
  exact ⟨hboth.2, fun i u hs => hexact t i u hboth.1 hboth.2 hs⟩

end Runs
