import Mathlib.Logic.Function.Basic
import Mathlib.Data.List.Induction
import Mathlib.Tactic.Common

/-!
# The last write wins

A finite map that is only ever updated at single keys: after any sequence of
updates, a key holds what the last update of it put there, and what it held
before where there was none.
-/

namespace Updates

variable {K V O : Type*} [DecidableEq K]

/-- The map after the operations `ops`, of which each writes `val` at `key`. -/
def applyAll (key : O → K) (val : O → V) (m : K → V) (ops : List O) : K → V :=
  ops.foldl (fun m op => Function.update m (key op) (val op)) m

/-- The last operation on the key `k`. -/
def last (key : O → K) (ops : List O) (k : K) : Option O :=
  ops.reverse.find? fun op => key op = k

theorem applyAll_append (key : O → K) (val : O → V) (m : K → V)
    (ops : List O) (op : O) :
    applyAll key val m (ops ++ [op]) =
      Function.update (applyAll key val m ops) (key op) (val op) := by
  rw [applyAll, List.foldl_append]
  rfl

theorem applyAll_eq_last (key : O → K) (val : O → V) (m : K → V)
    (ops : List O) (k : K) :
    applyAll key val m ops k = ((last key ops k).map val).getD (m k) := by
  induction ops using List.reverseRecOn with
  | nil => rfl
  | append_singleton ops op ih =>
      rw [applyAll_append, last, List.reverse_append, List.reverse_singleton,
        List.singleton_append, List.find?_cons]
      by_cases hk : key op = k
      · subst hk
        simp
      · rw [Function.update_of_ne (Ne.symm hk), ih, decide_eq_false hk]
        rfl

theorem mem_of_last {key : O → K} {ops : List O} {k : K} {op : O}
    (h : last key ops k = some op) : op ∈ ops ∧ key op = k := by
  have hkey := List.find?_some (p := fun op => decide (key op = k)) h
  exact ⟨List.mem_reverse.1 (List.mem_of_find?_eq_some h),
    of_decide_eq_true hkey⟩

theorem last_eq_none {key : O → K} {ops : List O} {k : K}
    (h : ∀ op ∈ ops, key op ≠ k) : last key ops k = none := by
  rw [last, List.find?_eq_none]
  intro op hop
  rw [decide_eq_true_eq]
  exact h op (List.mem_reverse.1 hop)

/-- There is a last operation on the key of any operation. -/
theorem exists_last {key : O → K} {ops : List O} {op : O} (h : op ∈ ops) :
    ∃ op', last key ops (key op) = some op' := by
  rw [← Option.isSome_iff_exists, last, List.find?_isSome]
  exact ⟨op, List.mem_reverse.2 h, decide_eq_true rfl⟩

end Updates
