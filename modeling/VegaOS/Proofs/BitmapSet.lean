import Mathlib.Data.Set.Insert
import VegaOS.Lib.Updates
import VegaOS.Proofs.PmmAlloc

/-!
# A bitmap is a set of bit numbers

Setting and clearing bits of a byte array amounts to inserting numbers into a
set and erasing them: after any sequence of such calls a bit is what the last
call on it made it. `pmm_free` is one such sequence, and erases the frames of
its range. As long as the bits are in the array, so is every byte that is
written.
-/

namespace VegaOS

open ByteMem

inductive BitOp
  | set (bit : Word)
  | unset (bit : Word)
deriving DecidableEq, Repr

namespace BitOp

def bit : BitOp → Word
  | .set b => b
  | .unset b => b

/-- What the call makes its bit. -/
def value : BitOp → Bool
  | .set _ => true
  | .unset _ => false

def run (bitmap : Word) (m : Mem) : BitOp → Mem
  | .set b => bitmapSetBit m bitmap b
  | .unset b => bitmapUnsetBit m bitmap b

/-- What the call is to the set. -/
def apply (s : Set Word) : BitOp → Set Word
  | .set b => insert b s
  | .unset b => s \ {b}

end BitOp

def runBitOps (bitmap : Word) (m : Mem) (ops : List BitOp) : Mem :=
  ops.foldl (BitOp.run bitmap) m

/-- The set a bitmap stands for. -/
def bitSet (m : Mem) (bitmap : Word) : Set Word :=
  {b | bitmapTestBit m bitmap b = true}

section Ops

variable {bitmap : Word} {m : Mem}

theorem bitSet_run (op : BitOp) :
    bitSet (op.run bitmap m) bitmap = op.apply (bitSet m bitmap) := by
  ext c
  cases op with
  | set b =>
      show bitmapTestBit (bitmapSetBit m bitmap b) bitmap c = true ↔ _
      rw [bitmapTestBit_set, Bool.or_eq_true, decide_eq_true_eq, or_comm]
      rfl
  | unset b =>
      show bitmapTestBit (bitmapUnsetBit m bitmap b) bitmap c = true ↔ _
      rw [bitmapTestBit_unset, Bool.and_eq_true, decide_eq_true_eq]
      rfl

/-- The array refines the set over any sequence of calls. -/
theorem bitSet_runBitOps (ops : List BitOp) : ∀ m : Mem,
    bitSet (runBitOps bitmap m ops) bitmap =
      ops.foldl BitOp.apply (bitSet m bitmap) := by
  induction ops with
  | nil => exact fun _ => rfl
  | cons op ops ih =>
      intro m
      rw [runBitOps, List.foldl_cons, List.foldl_cons, ← bitSet_run]
      exact ih (op.run bitmap m)

/-- One call updates one bit. -/
theorem test_run (op : BitOp) :
    bitmapTestBit (op.run bitmap m) bitmap =
      Function.update (bitmapTestBit m bitmap) op.bit op.value := by
  funext c
  cases op with
  | set b =>
      show bitmapTestBit (bitmapSetBit m bitmap b) bitmap c = _
      rw [bitmapTestBit_set]
      by_cases hc : c = b
      · simp [BitOp.bit, BitOp.value, hc]
      · simp [BitOp.bit, hc]
  | unset b =>
      show bitmapTestBit (bitmapUnsetBit m bitmap b) bitmap c = _
      rw [bitmapTestBit_unset]
      by_cases hc : c = b
      · simp [BitOp.bit, BitOp.value, hc]
      · simp [BitOp.bit, hc]

theorem test_runBitOps (ops : List BitOp) : ∀ m : Mem,
    bitmapTestBit (runBitOps bitmap m ops) bitmap =
      Updates.applyAll BitOp.bit BitOp.value (bitmapTestBit m bitmap) ops := by
  induction ops with
  | nil => exact fun _ => rfl
  | cons op ops ih =>
      intro m
      rw [runBitOps, List.foldl_cons]
      refine (ih (op.run bitmap m)).trans ?_
      rw [test_run]
      rfl

/-- The bytes of the array are all that a call on one of its bits writes. -/
theorem run_frame {length : ℕ} {op : BitOp} (hop : op.bit.toNat < 8 * length)
    {x : Word} (hx : ¬ Span bitmap length x) : op.run bitmap m x = m x := by
  have hbyte : x ≠ bitmap + op.bit / 8 := by
    rintro rfl
    apply hx
    have hoff : bitmap + op.bit / 8 - bitmap = op.bit / 8 := by
      rw [BitVec.add_comm, BitVec.add_sub_cancel]
    rw [Span, hoff, toNat_div_eight]
    omega
  cases op with
  | set b => exact store_of_ne _ _ hbyte
  | unset b => exact store_of_ne _ _ hbyte

theorem runBitOps_frame {length : ℕ} {x : Word} (hx : ¬ Span bitmap length x)
    (ops : List BitOp) : ∀ m : Mem, (∀ op ∈ ops, op.bit.toNat < 8 * length) →
      runBitOps bitmap m ops x = m x := by
  induction ops with
  | nil => exact fun _ _ => rfl
  | cons op ops ih =>
      intro m hops
      rw [List.forall_mem_cons] at hops
      exact (ih (op.run bitmap m) hops.2).trans (run_frame hops.1 hx)

end Ops

/-! ## Freeing -/

/-- The calls `pmm_free` makes. -/
def freeOps : ℕ → Word → List BitOp
  | 0, _ => []
  | n + 1, ptr => .unset (ptr / 0x1000) :: freeOps n (ptr + 0x1000)

theorem pmmFree_go_eq (bitmap : Word) (n : ℕ) : ∀ (ptr : Word) (m : Mem),
    pmmFree.go bitmap n ptr m = runBitOps bitmap m (freeOps n ptr) := by
  induction n with
  | zero => exact fun _ _ => rfl
  | succ n ih => exact fun ptr m => ih (ptr + 0x1000) _

theorem bit_of_mem_freeOps (n : ℕ) :
    ∀ {ptr : Word}, ptr.toNat + n * 0x1000 ≤ 2 ^ 64 → ∀ op ∈ freeOps n ptr,
      op.bit.toNat < ptr.toNat / 0x1000 + n := by
  induction n with
  | zero => exact fun _ op hop => absurd hop List.not_mem_nil
  | succ n ih =>
      intro ptr hle op hop
      rcases List.mem_cons.1 hop with rfl | hop
      · show (ptr / 0x1000).toNat < _
        rw [BitVec.toNat_udiv]
        show ptr.toNat / 0x1000 < _
        omega
      · have hn : n ≠ 0 := by
          rintro rfl
          exact absurd hop List.not_mem_nil
        have hnext : (ptr + 0x1000).toNat = ptr.toNat + 0x1000 := by
          rw [BitVec.toNat_add]
          show (ptr.toNat + 0x1000) % 2 ^ 64 = _
          omega
        have hrest := ih (by omega) op hop
        omega

/-- The byte array behaves as a set of bit numbers. A bit is what the last call
on it made it, and `pmm_free` clears the bits of its frames and no others;
neither writes outside the array, as long as the bits are in it. -/
theorem bitmap_refines_set (m : Mem) (bitmap : Word) (ops : List BitOp) :
    bitSet (runBitOps bitmap m ops) bitmap =
      ops.foldl BitOp.apply (bitSet m bitmap) ∧
    (∀ b, bitmapTestBit (runBitOps bitmap m ops) bitmap b =
      ((Updates.last BitOp.bit ops b).map BitOp.value).getD
        (bitmapTestBit m bitmap b)) ∧
    (∀ length, (∀ op ∈ ops, op.bit.toNat < 8 * length) →
      ∀ x, ¬ Span bitmap length x → runBitOps bitmap m ops x = m x) ∧
    ∀ (st : Pmm) (ptr count : Word),
      ptr.toNat + count.toNat * 0x1000 ≤ 2 ^ 64 →
      bitSet (pmmFree st ptr count).mem st.bitmap =
          bitSet st.mem st.bitmap \
            {b | ∃ i, i < count.toNat ∧ b.toNat = ptr.toNat / 0x1000 + i} ∧
        ∀ length, ptr.toNat / 0x1000 + count.toNat ≤ 8 * length →
          ∀ x, ¬ Span st.bitmap length x →
            (pmmFree st ptr count).mem x = st.mem x := by
  refine ⟨bitSet_runBitOps ops m, fun b => ?_,
    fun length hops x hx => runBitOps_frame hx ops m hops,
    fun st ptr count hle =>
      ⟨Set.ext fun b => ?_, fun length hin x hx => ?_⟩⟩
  · rw [test_runBitOps]
    exact Updates.applyAll_eq_last _ _ _ _ _
  · have hrange : (ptr.toNat / 0x1000 ≤ b.toNat ∧
        b.toNat < ptr.toNat / 0x1000 + count.toNat) ↔
        ∃ i, i < count.toNat ∧ b.toNat = ptr.toNat / 0x1000 + i := by
      constructor
      · exact fun ⟨hlo, hhi⟩ => ⟨b.toNat - ptr.toNat / 0x1000, by omega, by omega⟩
      · rintro ⟨i, hi, heq⟩
        omega
    show bitmapTestBit (pmmFree.go st.bitmap _ ptr st.mem) st.bitmap b = true ↔ _
    rw [pmmFree_go_test hle, Bool.and_eq_true, Bool.not_eq_true',
      decide_eq_false_iff_not, hrange]
    rfl
  · show pmmFree.go st.bitmap _ ptr st.mem x = _
    rw [pmmFree_go_eq]
    refine runBitOps_frame hx _ _ fun op hop => ?_
    exact Nat.lt_of_lt_of_le (bit_of_mem_freeOps _ hle op hop) hin

/-- Bit 9 is set, and two frames from frame 8 on are freed. -/
theorem bitmap_refines_set_nine :
    let m := runBitOps 0x5000 (fun _ => 0) [.unset 9, .set 9]
    bitmapTestBit m 0x5000 9 = true ∧
      9 ∉ bitSet (pmmFree ⟨[], 0x5000, 0, m, []⟩ 0x8000 2).mem 0x5000 := by
  intro m
  obtain ⟨_, hlast, _, hfree⟩ :=
    bitmap_refines_set (fun _ => 0) 0x5000 [.unset 9, .set 9]
  refine ⟨hlast 9, ?_⟩
  rw [(hfree ⟨[], 0x5000, 0, m, []⟩ 0x8000 2 (by decide)).1]
  exact fun h => h.2 ⟨1, by decide, by decide⟩

end VegaOS
