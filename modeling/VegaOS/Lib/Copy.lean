import VegaOS.Lib.Memory

/-!
# Copying from the first byte on

A copy that goes up byte by byte reads, once it is as far as the distance of
the two ranges, what it has written itself. So what it leaves is the bytes up
to that distance, over and over, and not the source as it was.

Everything is modulo the size of the address space: the distance is the one
from the source up to the destination, and a destination below the source is
a large distance away.
-/

namespace ByteMem

/-- The source as it was, at the destination. -/
def copied (m : Mem) (t f : Word) (n : ℕ) : Mem := fun a =>
  if Span t n a then m (f + (a - t)) else m a

/-- The first bytes of the source, as many as it is away, over and over. -/
def repeated (m : Mem) (t f : Word) (n : ℕ) : Mem := fun a =>
  if Span t n a then
    m (f + BitVec.ofNat 64 ((a - t).toNat % (t - f).toNat))
  else m a

theorem span_succ_of_ne {t a : Word} {n : ℕ} (h : a ≠ t + BitVec.ofNat 64 n) :
    Span t (n + 1) a ↔ Span t n a := by
  have hne : (a - t).toNat ≠ n := fun heq => h (by bv_omega)
  simp only [Span]
  omega

theorem add_sub_self (t : Word) {n : ℕ} (hn : n < 2 ^ 64) :
    (t + BitVec.ofNat 64 n - t).toNat = n := by
  rw [BitVec.add_comm, BitVec.add_sub_cancel, BitVec.toNat_ofNat,
    Nat.mod_eq_of_lt hn]

/-- What is read for the last byte. -/
theorem repeated_source (m : Mem) (t f : Word) {n : ℕ} (hn : n < 2 ^ 64) :
    repeated m t f n (f + BitVec.ofNat 64 n) =
      m (f + BitVec.ofNat 64 (n % (t - f).toNat)) := by
  rw [repeated]
  by_cases hd : (t - f).toNat ≤ n ∧ t ≠ f
  · -- it has been written, one distance below
    obtain ⟨hle, hne⟩ := hd
    have hpos : 0 < (t - f).toNat := by bv_omega
    have hback : (f + BitVec.ofNat 64 n - t).toNat = n - (t - f).toNat := by
      bv_omega
    have hspan : Span t n (f + BitVec.ofNat 64 n) := by
      show (f + BitVec.ofNat 64 n - t).toNat < n
      omega
    rw [if_pos hspan, hback, ← Nat.mod_eq_sub_mod hle]
  · have hmod : n % (t - f).toNat = n := by
      rcases not_and_or.1 hd with hlt | heq
      · exact Nat.mod_eq_of_lt (Nat.lt_of_not_le hlt)
      · rw [not_not.1 heq, BitVec.sub_self]
        exact Nat.mod_zero n
    have hfresh : ¬ Span t n (f + BitVec.ofNat 64 n) := by
      rw [Span]
      rcases not_and_or.1 hd with hlt | heq
      · bv_omega
      · rw [not_not.1 heq, add_sub_self f hn]
        exact Nat.lt_irrefl n
    rw [if_neg hfresh, hmod]

/-- One more byte. -/
theorem repeated_succ (m : Mem) (t f : Word) {n : ℕ} (hn : n < 2 ^ 64) :
    repeated m t f (n + 1) =
      store (repeated m t f n) (t + BitVec.ofNat 64 n)
        (repeated m t f n (f + BitVec.ofNat 64 n)) := by
  funext a
  by_cases ha : a = t + BitVec.ofNat 64 n
  · subst ha
    rw [store_same, repeated_source m t f hn, repeated,
      if_pos (span_add t (Nat.lt_succ_self n) hn), add_sub_self t hn]
  · rw [store_of_ne _ _ ha, repeated, repeated, if_congr (span_succ_of_ne ha)
      rfl rfl]

/-- It is the source as it was if the destination is not inside it, behind its
first byte, and only then. -/
theorem repeated_eq_copied_iff {t f : Word} {n : ℕ} (hn : n ≤ 2 ^ 64) :
    (∀ m, repeated m t f n = copied m t f n) ↔
      t = f ∨ n ≤ (t - f).toNat := by
  constructor
  · intro h
    by_contra hnot
    obtain ⟨hne, hlt⟩ := not_or.1 hnot
    have hd : t + BitVec.ofNat 64 (t - f).toNat - t = t - f := by bv_omega
    have hspan : Span t n (t + BitVec.ofNat 64 (t - f).toNat) :=
      span_add t (Nat.lt_of_not_le hlt) hn
    have hat := congrFun (h fun a => if a = f then 1 else 0)
      (t + BitVec.ofNat 64 (t - f).toNat)
    rw [repeated, copied, if_pos hspan, if_pos hspan, hd, Nat.mod_self,
      BitVec.add_zero, if_pos rfl, if_neg (by bv_omega)] at hat
    exact absurd hat (by decide)
  · intro h m
    funext a
    rw [repeated, copied]
    split
    · rename_i hspan
      have hmod : (a - t).toNat % (t - f).toNat = (a - t).toNat := by
        rcases h with rfl | hle
        · rw [BitVec.sub_self]
          exact Nat.mod_zero _
        · exact Nat.mod_eq_of_lt (Nat.lt_of_lt_of_le hspan hle)
      rw [hmod, BitVec.ofNat_toNat, BitVec.setWidth_eq]
    · rfl

end ByteMem
