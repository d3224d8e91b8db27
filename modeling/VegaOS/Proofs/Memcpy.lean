import VegaOS.Lib.Copy
import VegaOS.Src.Bitmap

/-!
# What `memcpy` leaves

`memcpy` goes up from the first byte, whichever way the ranges overlap. Taken
from its last byte the loop is the recurrence of a repeated copy, so that is
what it leaves. It is a copy of the source exactly where the destination is no
more than at its first byte, or past its end.
-/

namespace VegaOS

open ByteMem

/-- The loop, from its last byte. -/
theorem memcpy_go_succ (n : ℕ) : ∀ (m : Mem) (t f : Word),
    memcpy.go m t f (n + 1) =
      store (memcpy.go m t f n) (t + BitVec.ofNat 64 n)
        (memcpy.go m t f n (f + BitVec.ofNat 64 n)) := by
  induction n with
  | zero =>
      intro m t f
      rw [BitVec.add_zero, BitVec.add_zero]
      rfl
  | succ n ih =>
      intro m t f
      have hnext (p : Word) :
          p + 1 + BitVec.ofNat 64 n = p + BitVec.ofNat 64 (n + 1) := by
        rw [BitVec.add_assoc, Nat.add_comm n 1, BitVec.ofNat_add]
        rfl
      have hlast := ih (store m t (m f)) (t + 1) (f + 1)
      rw [hnext, hnext] at hlast
      exact hlast

theorem memcpy_go_eq (m : Mem) (t f : Word) {n : ℕ} (hn : n ≤ 2 ^ 64) :
    memcpy.go m t f n = repeated m t f n := by
  induction n with
  | zero => rfl
  | succ n ih =>
      rw [memcpy_go_succ, ih (by omega), repeated_succ m t f (by omega)]

theorem memcpy_eq (m : Mem) (s1 s2 n : Word) :
    memcpy m s1 s2 n = repeated m s1 s2 n.toNat :=
  memcpy_go_eq m s1 s2 (Nat.le_of_lt n.isLt)

/-- `memcpy` on any two ranges, overlapping, wrapping around or not: it leaves
the first `s1 - s2` bytes of the source over and over, and nothing changes
outside the destination. In every memory it leaves the source as it was if and
only if the ranges are the same or the destination starts outside the source. -/
theorem memcpy_exact (s1 s2 n : Word) :
    (∀ m, memcpy m s1 s2 n = repeated m s1 s2 n.toNat) ∧
      ((∀ m, memcpy m s1 s2 n = copied m s1 s2 n.toNat) ↔
        s1 = s2 ∨ n ≤ s1 - s2) := by
  refine ⟨fun m => memcpy_eq m s1 s2 n, ?_⟩
  simp only [memcpy_eq]
  exact repeated_eq_copied_iff (Nat.le_of_lt n.isLt)

example : memcpy (fun a => a.setWidth 8) 2 0 4 5 = 1 := by decide

end VegaOS
