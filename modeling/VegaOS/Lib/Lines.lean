import Mathlib.Logic.Function.Basic
import Mathlib.Data.List.Induction
import Mathlib.Tactic.Common

/-!
# A text on a grid

A text is cut into lines at its line ends, and every other symbol of it stands
on a line, in a column. A text that grows at its end is a grid that is filled
cell by cell: a symbol goes to the cell after the last one, a line end moves on
to the start of the next line, and no cell is ever written twice. So what is
true of a whole text can be proved one symbol at a time.
-/

namespace Lines

variable {α : Type*} (nl : α → Bool)

/-- What stands in a cell, which is a line and a column. -/
def cell (s : List α) (p : ℕ × ℕ) : Option α :=
  (s.splitOnP nl)[p.1]?.bind fun row => row[p.2]?

/-- The cell behind the text. -/
def next (s : List α) : ℕ × ℕ :=
  ((s.splitOnP nl).length - 1, ((s.splitOnP nl).getLastD []).length)

/-- The text has at most `h` lines of at most `w` symbols. -/
def Within (w h : ℕ) (s : List α) : Prop :=
  (s.splitOnP nl).length ≤ h ∧ ∀ line ∈ s.splitOnP nl, line.length ≤ w

instance (w h : ℕ) (s : List α) : Decidable (Within nl w h s) :=
  @instDecidableAnd _ _ _
    (List.decidableBAll (fun line => line.length ≤ w) (s.splitOnP nl))

/-- A text ends in a line that what is appended goes on with, up to the next
line end. -/
theorem exists_last_line (s : List α) : ∃ lines line,
    ∀ t : List α, (∀ b ∈ t, nl b = false) →
      (s ++ t).splitOnP nl = lines ++ [line ++ t] := by
  induction s using List.reverseRecOn with
  | nil => exact ⟨[], [], fun t ht => List.splitOnP_eq_singleton ht⟩
  | append_singleton s a ih =>
      by_cases ha : nl a = true
      · refine ⟨s.splitOnP nl, [], fun t ht => ?_⟩
        rw [List.append_assoc, List.singleton_append,
          List.splitOnP_append_cons s t ha, List.splitOnP_eq_singleton ht]
        rfl
      · obtain ⟨lines, line, hsplit⟩ := ih
        refine ⟨lines, line ++ [a], fun t ht => ?_⟩
        have hat : ∀ b ∈ a :: t, nl b = false :=
          List.forall_mem_cons.2 ⟨Bool.eq_false_iff.2 ha, ht⟩
        rw [List.append_assoc, List.append_assoc, List.singleton_append,
          hsplit (a :: t) hat]

/-- The lines of a text and the cell behind it. -/
theorem exists_lines (s : List α) : ∃ lines line,
    s.splitOnP nl = lines ++ [line] ∧ next nl s = (lines.length, line.length) ∧
      ∀ a, nl a = false → (s ++ [a]).splitOnP nl = lines ++ [line ++ [a]] := by
  obtain ⟨lines, line, hsplit⟩ := exists_last_line nl s
  have hself : s.splitOnP nl = lines ++ [line] := by
    have hnil := hsplit [] fun b hb => absurd hb List.not_mem_nil
    rwa [List.append_nil, List.append_nil] at hnil
  refine ⟨lines, line, hself, ?_, fun a ha => hsplit [a] fun b hb => ?_⟩
  · simp [next, hself]
  · rwa [List.mem_singleton.1 hb]

variable {nl} {s : List α} {a : α}

theorem splitOnP_concat_nl (s : List α) (ha : nl a = true) :
    (s ++ [a]).splitOnP nl = s.splitOnP nl ++ [[]] :=
  List.splitOnP_append_cons s [] ha

/-! ## The cell behind a text -/

theorem next_concat_nl (s : List α) (ha : nl a = true) :
    next nl (s ++ [a]) = ((next nl s).1 + 1, 0) := by
  obtain ⟨lines, line, hself, hnext, -⟩ := exists_lines nl s
  rw [hnext, next, splitOnP_concat_nl s ha, hself]
  simp

theorem next_concat (s : List α) (ha : nl a = false) :
    next nl (s ++ [a]) = ((next nl s).1, (next nl s).2 + 1) := by
  obtain ⟨lines, line, -, hnext, hsplit⟩ := exists_lines nl s
  rw [hnext, next, hsplit a ha]
  simp

/-! ## Filling the grid -/

theorem getElem?_concat_of_ne {β : Type*} (l : List β) (b : β) {j : ℕ}
    (h : j ≠ l.length) : (l ++ [b])[j]? = l[j]? := by
  rcases Nat.lt_or_gt_of_ne h with hlt | hgt
  · exact List.getElem?_append_left hlt
  · rw [List.getElem?_eq_none (Nat.le_of_lt hgt), List.getElem?_eq_none]
    rw [List.length_append]
    exact hgt

theorem cell_nil (p : ℕ × ℕ) : cell nl [] p = none := by
  rw [cell, List.splitOnP_nil]
  cases h : p.1 <;> simp

theorem cell_concat_nl (s : List α) (ha : nl a = true) :
    cell nl (s ++ [a]) = cell nl s := by
  funext p
  rw [cell, cell, splitOnP_concat_nl s ha, List.getElem?_append]
  split
  · rfl
  · rename_i hout
    rw [List.getElem?_eq_none (Nat.not_lt.1 hout)]
    cases h : p.1 - (s.splitOnP nl).length <;> simp

theorem cell_concat (s : List α) (ha : nl a = false) :
    cell nl (s ++ [a]) = Function.update (cell nl s) (next nl s) (some a) := by
  obtain ⟨lines, line, hself, hnext, hsplit⟩ := exists_lines nl s
  funext ⟨i, j⟩
  rw [hnext]
  by_cases hcell : (i, j) = (lines.length, line.length)
  · rw [hcell, Function.update_self, cell, hsplit a ha]
    simp
  · rw [Function.update_of_ne hcell, cell, cell, hself, hsplit a ha]
    rw [Prod.mk.injEq, not_and] at hcell
    -- only the last line differs, and only in the column behind its end
    by_cases hi : i = lines.length
    · subst hi
      rw [List.getElem?_concat_length, List.getElem?_concat_length]
      exact getElem?_concat_of_ne line a (hcell rfl)
    · rw [getElem?_concat_of_ne lines _ hi, getElem?_concat_of_ne lines _ hi]

/-- What stands in a cell is a symbol of the text, and no line end. -/
theorem mem_of_cell {p : ℕ × ℕ} : cell nl s p = some a →
    a ∈ s ∧ nl a = false := by
  induction s using List.reverseRecOn with
  | nil =>
      intro h
      rw [cell_nil] at h
      cases h
  | append_singleton s b ih =>
      intro h
      cases hb : nl b with
      | true =>
          rw [cell_concat_nl s hb] at h
          exact ⟨List.mem_append_left _ (ih h).1, (ih h).2⟩
      | false =>
          rw [cell_concat s hb, Function.update_apply] at h
          split at h
          · obtain rfl := Option.some.inj h
            exact ⟨List.mem_append_right _ List.mem_cons_self, hb⟩
          · exact ⟨List.mem_append_left _ (ih h).1, (ih h).2⟩

/-- The first symbol of a text stands in the first cell. -/
theorem cell_cons (s : List α) (ha : nl a = false) :
    cell nl (a :: s) (0, 0) = some a := by
  obtain ⟨line, lines, hsplit⟩ :=
    List.exists_cons_of_ne_nil (List.splitOnP_ne_nil nl s)
  rw [cell, List.splitOnP_cons_eq_if_modifyHead, hsplit, ha]
  rfl

/-! ## The size of a text -/

variable {w h : ℕ}

theorem Within.of_concat (hfit : Within nl w h (s ++ [a])) : Within nl w h s := by
  by_cases ha : nl a = true
  · rw [Within, splitOnP_concat_nl s ha, List.length_append] at hfit
    exact ⟨Nat.le_of_succ_le hfit.1,
      fun line hline => hfit.2 line (List.mem_append_left _ hline)⟩
  · obtain ⟨lines, line, hself, -, hsplit⟩ := exists_lines nl s
    rw [Within, hsplit a (Bool.eq_false_iff.2 ha)] at hfit
    rw [Within, hself]
    refine ⟨by simpa using hfit.1, fun l hl => ?_⟩
    rcases List.mem_append.1 hl with hl | hl
    · exact hfit.2 l (List.mem_append_left _ hl)
    · obtain rfl := List.mem_singleton.1 hl
      have hlast := hfit.2 (l ++ [a]) (by simp)
      rw [List.length_append] at hlast
      exact Nat.le_of_succ_le hlast

/-- A text has at most one line more than it has symbols, and no longer line
than itself. -/
theorem within_length (s : List α) : Within nl s.length (s.length + 1) s := by
  induction s using List.reverseRecOn with
  | nil =>
      rw [Within, List.splitOnP_nil]
      exact ⟨Nat.le_refl 1, fun line hline =>
        Nat.le_of_eq (congrArg _ (List.mem_singleton.1 hline))⟩
  | append_singleton s a ih =>
      obtain ⟨hlines, hline⟩ := ih
      rw [List.length_append, List.length_singleton]
      by_cases ha : nl a = true
      · rw [Within, splitOnP_concat_nl s ha, List.length_append]
        refine ⟨Nat.succ_le_succ hlines, fun l hl => ?_⟩
        rcases List.mem_append.1 hl with hl | hl
        · exact Nat.le_succ_of_le (hline l hl)
        · rw [List.mem_singleton.1 hl]
          exact Nat.zero_le _
      · obtain ⟨lines, line, hself, -, hsplit⟩ := exists_lines nl s
        rw [hself] at hlines hline
        rw [Within, hsplit a (Bool.eq_false_iff.2 ha)]
        rw [List.length_append] at hlines ⊢
        refine ⟨Nat.le_succ_of_le hlines, fun l hl => ?_⟩
        rcases List.mem_append.1 hl with hl | hl
        · exact Nat.le_succ_of_le (hline l (List.mem_append_left _ hl))
        · rw [List.mem_singleton.1 hl, List.length_append]
          exact Nat.succ_le_succ
            (hline line (List.mem_append_right _ List.mem_cons_self))

theorem Within.mono {w' h' : ℕ} (hfit : Within nl w h s) (hw : w ≤ w')
    (hh : h ≤ h') : Within nl w' h' s :=
  ⟨Nat.le_trans hfit.1 hh,
    fun line hline => Nat.le_trans (hfit.2 line hline) hw⟩

/-- What a text that fits begins with fits. -/
theorem Within.of_append {t : List α} : Within nl w h (s ++ t) →
    Within nl w h s := by
  induction t using List.reverseRecOn with
  | nil => exact fun hfit => by rwa [List.append_nil] at hfit
  | append_singleton t b ih =>
      intro hfit
      rw [← List.append_assoc] at hfit
      exact ih hfit.of_concat

/-- The cell behind a text that fits is at most one column out. -/
theorem Within.next (hfit : Within nl w h s) :
    (next nl s).1 < h ∧ (next nl s).2 ≤ w := by
  obtain ⟨lines, line, hself, hnext, -⟩ := exists_lines nl s
  rw [Within, hself, List.length_append] at hfit
  rw [hnext]
  exact ⟨hfit.1, hfit.2 line (by simp)⟩

/-- The next symbol of a text that fits has a cell in the grid. -/
theorem Within.next_lt (hfit : Within nl w h (s ++ [a])) (ha : nl a = false) :
    (Lines.next nl s).1 < h ∧ (Lines.next nl s).2 < w := by
  have hnext := hfit.next
  rwa [next_concat s ha] at hnext

end Lines
