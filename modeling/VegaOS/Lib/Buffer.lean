import Mathlib.Data.List.Induction
import Mathlib.Tactic.Common

/-!
# Arrays of a fixed size

A C array has its size in its type, and an access outside it has no meaning:
here it has no result. A proof about code that fills such an array from the
front says what the array starts with, `Starts`; `write_starts` is the step
that appends one element. `swap_toList` is the step of code that reverses in
place.
-/

namespace Buffer

variable {α : Type} {N : ℕ}

/-- `b[i] = x`. -/
def write (b : Vector α N) (i : ℕ) (x : α) : Option (Vector α N) :=
  if h : i < N then some (b.set i x h) else none

/-- `temp = b[j]; b[j] = b[i]; b[i] = temp`. -/
def swap (b : Vector α N) (j i : ℕ) : Option (Vector α N) := do
  let temp ← b[j]?
  let x ← b[i]?
  let b ← write b j x
  write b i temp

/-- The array starts with `xs`. -/
def Starts (b : Vector α N) (xs : List α) : Prop := xs <+: b.toList

theorem starts_nil (b : Vector α N) : Starts b [] := List.nil_prefix

theorem Starts.of_append {b : Vector α N} {xs ys : List α}
    (h : Starts b (xs ++ ys)) : Starts b xs :=
  (List.prefix_append xs ys).trans h

theorem write_toList {b : Vector α N} {i : ℕ} (hi : i < N) (x : α) :
    ∃ b', write b i x = some b' ∧ b'.toList = b.toList.set i x :=
  ⟨b.set i x hi, by rw [write, dif_pos hi], Vector.toList_set hi⟩

theorem getElem?_of_toList {b : Vector α N} {pre post : List α} {x : α}
    (h : b.toList = pre ++ x :: post) : b[pre.length]? = some x := by
  rw [← Vector.getElem?_toList, h]
  simp

theorem write_of_toList {b : Vector α N} {pre post : List α} {x : α}
    (h : b.toList = pre ++ x :: post) (y : α) :
    ∃ b', write b pre.length y = some b' ∧ b'.toList = pre ++ y :: post := by
  have hlen : b.toList.length = N := Vector.length_toList
  have hroom : pre.length < N := by
    rw [h] at hlen
    simp only [List.length_append, List.length_cons] at hlen
    omega
  obtain ⟨b', hwrite, hlist⟩ := write_toList (b := b) hroom y
  refine ⟨b', hwrite, ?_⟩
  rw [hlist, h]
  simp

/-- Writing right after what the array starts with. -/
theorem write_starts {b : Vector α N} {xs : List α} (h : Starts b xs)
    (hroom : xs.length < N) (x : α) :
    ∃ b', write b xs.length x = some b' ∧ Starts b' (xs ++ [x]) := by
  obtain ⟨post, hpost⟩ := h
  cases post with
  | nil =>
      have hlen : b.toList.length = N := Vector.length_toList
      rw [← hpost, List.append_nil] at hlen
      omega
  | cons y post =>
      obtain ⟨b', hwrite, hlist⟩ := write_of_toList hpost.symm x
      exact ⟨b', hwrite, post, by simp [hlist]⟩

/-- A swap exchanges the two ends of the part between them. -/
theorem swap_toList {b : Vector α N} {pre mid post : List α} {x y : α}
    (h : b.toList = pre ++ x :: (mid ++ y :: post)) :
    ∃ b', swap b pre.length (pre.length + mid.length + 1) = some b' ∧
      b'.toList = pre ++ y :: (mid ++ x :: post) := by
  have hend : ∀ z : α,
      (pre ++ z :: mid).length = pre.length + mid.length + 1 := by
    intro z
    simp only [List.length_append, List.length_cons]
    omega
  have hx : b[pre.length]? = some x := getElem?_of_toList h
  have hy : b[pre.length + mid.length + 1]? = some y := by
    rw [← hend x]
    exact getElem?_of_toList (by simpa using h)
  obtain ⟨b₁, hwrite₁, hlist₁⟩ := write_of_toList h y
  have hsplit : b₁.toList = (pre ++ y :: mid) ++ y :: post := by
    simpa using hlist₁
  obtain ⟨b₂, hwrite₂, hlist₂⟩ := write_of_toList hsplit x
  refine ⟨b₂, ?_, by simpa using hlist₂⟩
  rw [hend y] at hwrite₂
  rw [swap, hx, hy]
  simp only [Option.bind_eq_bind, Option.bind_some, hwrite₁, hwrite₂]

end Buffer
