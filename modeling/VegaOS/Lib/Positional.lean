import Mathlib.Data.Nat.Digits.Lemmas

/-!
# Numerals in a base

A number is written by naming its digits, the most significant one first, and
read by going through a numeral from the left. What is written reads back, and
does not start with the name of 0 unless the number is 0, whose numeral is
empty here.
-/

namespace Positional

variable {α : Type*} {b : ℕ} {name : ℕ → α} {value : α → Option ℕ}

def write (b : ℕ) (name : ℕ → α) (n : ℕ) : List α :=
  ((Nat.digits b n).map name).reverse

def read (b : ℕ) (value : α → Option ℕ) (s : List α) : Option ℕ :=
  s.foldlM (fun v c => (value c).map fun d => b * v + d) 0

theorem read_concat (s : List α) (c : α) :
    read b value (s ++ [c]) =
      (read b value s).bind fun v => (value c).map fun d => b * v + d := by
  rw [read, List.foldlM_append]
  refine congrArg _ (funext fun v => ?_)
  rw [List.foldlM_cons]
  exact bind_pure _

/-- A digit 0 in front changes nothing. -/
theorem read_zero_cons {c : α} (hc : value c = some 0) (s : List α) :
    read b value (c :: s) = read b value s := by
  rw [read, List.foldlM_cons, hc]
  rfl

theorem write_eq_concat (hb : 1 < b) {n : ℕ} (hn : 0 < n) :
    write b name n = write b name (n / b) ++ [name (n % b)] := by
  rw [write, Nat.digits_def' hb hn, List.map_cons, List.reverse_cons]
  rfl

theorem write_zero : write b name 0 = [] := by
  rw [write, Nat.digits_zero]
  rfl

theorem read_write (hb : 1 < b)
    (hname : ∀ d, d < b → value (name d) = some d) (n : ℕ) :
    read b value (write b name n) = some n := by
  induction n using Nat.strong_induction_on with
  | _ n ih =>
      by_cases hn : 0 < n
      · rw [write_eq_concat hb hn, read_concat, ih _ (Nat.div_lt_self hn hb),
          Option.bind_some, hname _ (Nat.mod_lt _ (by omega)), Option.map_some,
          Nat.div_add_mod]
      · obtain rfl : n = 0 := by omega
        rw [write_zero]
        rfl

theorem length_write_le (hb : 1 < b) {n k : ℕ} (h : n < b ^ k) :
    (write b name n).length ≤ k := by
  rw [write, List.length_reverse, List.length_map]
  exact (Nat.digits_length_le_iff hb n).2 h

theorem lt_length_write (hb : 1 < b) {n k : ℕ} (h : b ^ k ≤ n) :
    k < (write b name n).length := by
  rw [write, List.length_reverse, List.length_map]
  exact (Nat.lt_digits_length_iff hb n).2 h

/-- A numeral that can be read has digits only. -/
theorem isSome_of_read {s : List α} :
    ∀ {v : ℕ}, read b value s = some v → ∀ c ∈ s, (value c).isSome := by
  induction s using List.reverseRecOn with
  | nil => exact fun _ _ hc => absurd hc List.not_mem_nil
  | append_singleton s d ih =>
      intro v h c hc
      rw [read_concat] at h
      obtain ⟨u, hu, hd⟩ := Option.bind_eq_some_iff.1 h
      obtain ⟨e, he, _⟩ := Option.map_eq_some_iff.1 hd
      rcases List.mem_append.1 hc with hs | hlast
      · exact ih hu c hs
      · rw [List.mem_singleton.1 hlast, he]
        rfl

/-- There is no leading zero. -/
theorem head_write (hb : 1 < b) {n : ℕ} (hn : n ≠ 0) :
    ∃ d, 0 < d ∧ d < b ∧ (write b name n).head? = some (name d) := by
  have hne : Nat.digits b n ≠ [] := by
    rwa [ne_eq, Nat.digits_eq_nil_iff_eq_zero]
  refine ⟨(Nat.digits b n).getLast hne, ?_, ?_, ?_⟩
  · exact Nat.pos_of_ne_zero (Nat.getLast_digit_ne_zero b hn)
  · exact Nat.digits_lt_base hb (List.getLast_mem hne)
  · rw [write, List.head?_reverse, List.getLast?_map,
      List.getLast?_eq_some_getLast hne, Option.map_some]

end Positional
