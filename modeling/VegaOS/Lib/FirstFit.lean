import Mathlib.Data.Nat.Find
import Mathlib.Tactic.Common

/-!
# First fit among the runs of a predicate

A first-fit allocator looks for the lowest run of `n` consecutive numbers that
all satisfy a predicate, starting at `s` and ending by `N`. This file says
what that run is, how a single left-to-right scan finds it, and when the runs
found for two sizes over one and the same predicate overlap.

The overlap theory is short because a predicate that nobody updates leaves a
first fit no freedom: the runs found for two sizes either coincide at their
first element or are disjoint, and which of the two it is can be read off the
predicate around the run that was found first.
-/

namespace FirstFit

variable {P : ℕ → Prop} {s N m n f g r : ℕ}

/-- The `n` numbers from `f` on all satisfy `P`. -/
def IsRun (P : ℕ → Prop) (f n : ℕ) : Prop := ∀ i, i < n → P (f + i)

theorem isRun_zero : IsRun P f 0 := fun _ hi => absurd hi (by omega)

theorem IsRun.take (h : IsRun P f n) (hm : m ≤ n) : IsRun P f m :=
  fun i hi => h i (by omega)

theorem IsRun.apply (h : IsRun P f n) {x : ℕ} (hf : f ≤ x) (hx : x < f + n) :
    P x := by
  have := h (x - f) (by omega)
  rwa [show f + (x - f) = x by omega] at this

theorem IsRun.snoc (h : IsRun P f n) (hP : P (f + n)) : IsRun P f (n + 1) := by
  intro i hi
  rcases Nat.lt_or_ge i n with hlt | hge
  · exact h i hlt
  · rwa [show i = n by omega]

/-- Two runs that meet or touch join into one. -/
theorem IsRun.join (hf : IsRun P f m) (hg : IsRun P g n)
    (hmeet : g ≤ f + m) : IsRun P f (g + n - f) := by
  intro i hi
  rcases Nat.lt_or_ge i m with hlt | hge
  · exact hf i hlt
  · exact hg.apply (by omega) (by omega)

/-- No run of `n` starts between `s` and `r`. -/
def NoneBefore (P : ℕ → Prop) (s n r : ℕ) : Prop :=
  ∀ g, s ≤ g → g < r → ¬ IsRun P g n

/-- The lowest run of `n` that starts at `s` or later and ends by `N`. -/
structure IsFirstFit (P : ℕ → Prop) (s N n f : ℕ) : Prop where
  start_le : s ≤ f
  end_le : f + n ≤ N
  run : IsRun P f n
  least : NoneBefore P s n f

/-- Where some run fits, a first one does. -/
theorem exists_isFirstFit (hs : s ≤ f) (hN : f + n ≤ N) (hrun : IsRun P f n) :
    ∃ f, IsFirstFit P s N n f := by
  classical
  have hex : ∃ f, s ≤ f ∧ IsRun P f n := ⟨f, hs, hrun⟩
  have hle : Nat.find hex ≤ f := Nat.find_min' hex ⟨hs, hrun⟩
  refine ⟨Nat.find hex, (Nat.find_spec hex).1, by omega,
    (Nat.find_spec hex).2, ?_⟩
  intro g hg hlt hrun'
  exact Nat.find_min hex hlt ⟨hg, hrun'⟩

theorem IsFirstFit.unique (hf : IsFirstFit P s N n f)
    (hg : IsFirstFit P s N n g) : f = g := by
  rcases Nat.lt_trichotomy f g with hlt | heq | hgt
  · exact absurd hf.run (hg.least f hf.start_le hlt)
  · exact heq
  · exact absurd hg.run (hf.least g hg.start_le hgt)

/-- A search may start anywhere below the first number that satisfies the
predicate. -/
theorem isFirstFit_start (hn : 0 < n) (hs : ∀ g, g < s → ¬ P g) :
    IsFirstFit P s N n f ↔ IsFirstFit P 0 N n f := by
  constructor
  · intro h
    refine ⟨Nat.zero_le f, h.end_le, h.run, fun g _ hlt hrun => ?_⟩
    rcases Nat.lt_or_ge g s with hbelow | hge
    · exact hs g hbelow (hrun 0 hn)
    · exact h.least g hge hlt hrun
  · intro h
    have hstart : s ≤ f := by
      by_contra hlt
      exact hs f (by omega) (h.run 0 hn)
    exact ⟨hstart, h.end_le, h.run, fun g _ => h.least g (Nat.zero_le g)⟩

/-! ## The scan

A scan that stands at `r + k` with the last `k < n` numbers satisfying `P`
has ruled out every start below `r`. A number that fails `P` moves `r` past
it; reaching the bound with fewer than `n` in hand rules out every start. -/

theorem noneBefore_start : NoneBefore P s n s :=
  fun _ hg hlt => absurd hlt (by omega)

theorem NoneBefore.reset {k : ℕ} (h : NoneBefore P s n r) (hk : k < n)
    (hP : ¬ P (r + k)) : NoneBefore P s n (r + k + 1) := by
  intro g hg hlt hrun
  rcases Nat.lt_or_ge g r with hbelow | habove
  · exact h g hg hbelow hrun
  · exact hP (hrun.apply (by omega) (by omega))

theorem NoneBefore.at_end {k : ℕ} (h : NoneBefore P s n r) (hk : k < n)
    (hN : N ≤ r + k) : ¬ ∃ f, IsFirstFit P s N n f := by
  rintro ⟨f, hf⟩
  have hend := hf.end_le
  exact h f hf.start_le (by omega) hf.run

/-! ## Two sizes over one predicate -/

/-- First fits that share a number start at the same place. -/
theorem IsFirstFit.eq_of_overlap (hf : IsFirstFit P s N m f)
    (hg : IsFirstFit P s N n g) {x : ℕ} (hfx : f ≤ x) (hxf : x < f + m)
    (hgx : g ≤ x) (hxg : x < g + n) : f = g := by
  rcases Nat.lt_trichotomy f g with hlt | heq | hgt
  · have hjoin := hf.run.join hg.run (by omega)
    exact absurd (hjoin.take (by omega)) (hg.least f hf.start_le hlt)
  · exact heq
  · have hjoin := hg.run.join hf.run (by omega)
    exact absurd (hjoin.take (by omega)) (hf.least g hg.start_le hgt)

/-- What keeps a first fit for `n` away from the run of `m` found at `f`: it
needs more room than there is at `f`, or less room and finds it lower. -/
def Misses (P : ℕ → Prop) (s N m f n : ℕ) : Prop :=
  (m < n ∧ ¬ (IsRun P f n ∧ f + n ≤ N)) ∨
    (n < m ∧ ∃ g, s ≤ g ∧ g < f ∧ IsRun P g n)

theorem IsFirstFit.ne_iff_misses (hf : IsFirstFit P s N m f)
    (hg : IsFirstFit P s N n g) : f ≠ g ↔ Misses P s N m f n := by
  have hfN := hf.end_le
  constructor
  · intro hne
    rcases Nat.lt_or_ge f g with hlt | hge
    · left
      have hno : ¬ IsRun P f n := hg.least f hf.start_le hlt
      refine ⟨?_, fun h => hno h.1⟩
      rcases Nat.lt_or_ge m n with hmn | hnm
      · exact hmn
      · exact absurd (hf.run.take hnm) hno
    · right
      have hlt : g < f := by omega
      refine ⟨?_, g, hg.start_le, hlt, hg.run⟩
      rcases Nat.lt_or_ge n m with hnm | hmn
      · exact hnm
      · exact absurd (hg.run.take hmn) (hf.least g hg.start_le hlt)
  · rintro (⟨_, hroom⟩ | ⟨_, g', hsg, hgf, hrun⟩) heq
    · subst heq
      exact hroom ⟨hg.run, hg.end_le⟩
    · subst heq
      exact hg.least g' hsg hgf hrun

/-- Where nothing fits `n`, the run found for `m` was too short for it. -/
theorem IsFirstFit.misses_of_none (hf : IsFirstFit P s N m f)
    (hnone : ¬ ∃ g, IsFirstFit P s N n g) : Misses P s N m f n := by
  have hfN := hf.end_le
  have hno : ¬ (IsRun P f n ∧ f + n ≤ N) :=
    fun h => hnone (exists_isFirstFit hf.start_le h.2 h.1)
  refine Or.inl ⟨?_, hno⟩
  rcases Nat.lt_or_ge m n with hmn | hnm
  · exact hmn
  · exact absurd ⟨hf.run.take hnm, by omega⟩ hno

end FirstFit
