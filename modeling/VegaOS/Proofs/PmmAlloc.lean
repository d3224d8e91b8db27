import VegaOS.Lib.FirstFit
import VegaOS.Proofs.PmmInit

/-!
# `pmm_alloc` is first fit, `pmm_free` clears a range

The scan of `pmm_alloc` carries a candidate bit and a count, and uses the
value 0 of the candidate for "no run open". Frame 0 is the one frame that
value cannot stand for: were it free together with frame 1, a run from 0 would
be reported as one from 1. `Scannable` rules that out, `pmm_init` establishes
it on every memory map, and under it the scan finds the first fit.
-/

namespace VegaOS

open ByteMem FirstFit

/-- Frame `f` is marked free. -/
def Pmm.Free (st : Pmm) (f : ℕ) : Prop :=
  bitmapTestBit st.mem st.bitmap (BitVec.ofNat 64 f) = false

/-- A state in which the value 0 of the candidate bit means no more than that
no run is open. -/
structure Scannable (st : Pmm) (size : Word) : Prop where
  size_eq : getBitmapSize st.mmap = .ok size
  sentinel : 0 < size.toNat → st.bitmapStartBit = 0 → st.Free 0 → ¬ st.Free 1

/-! ## The scan -/

section Scan

variable {P : ℕ → Prop} {s N want : ℕ} {mem : Mem} {bitmap frames : Word}

/-- The loop invariant: the run open at `r` has `k` frames, and the candidate
is its first one, or 0 where `k` is. -/
theorem scan_spec (hP : ∀ f, P f ↔
      bitmapTestBit mem bitmap (BitVec.ofNat 64 f) = false)
    (hwant : frames.toNat = want) (hpos : 0 < want) (hN : N ≤ 2 ^ 52)
    (hzero : s = 0 → P 0 → ¬ P 1) :
    ∀ (n r k : ℕ) (bit : Word), s ≤ r → r + k + n = N → k < want →
      IsRun P r k → NoneBefore P s want r →
      bit = (if k = 0 then 0 else BitVec.ofNat 64 r) →
      (∃ f, IsFirstFit P s N want f ∧
        pmmAlloc.scan mem bitmap frames n (BitVec.ofNat 64 (r + k)) bit
          (BitVec.ofNat 64 k) = BitVec.ofNat 64 f * 0x1000) ∨
      ((¬ ∃ f, IsFirstFit P s N want f) ∧
        pmmAlloc.scan mem bitmap frames n (BitVec.ofNat 64 (r + k)) bit
          (BitVec.ofNat 64 k) = 0) := by
  intro n
  induction n with
  | zero =>
      intro r k bit _ hend hk _ hnone _
      exact Or.inr ⟨hnone.at_end hk (by omega), rfl⟩
  | succ n ih =>
      intro r k bit hsr hend hk hrun hnone hbit
      have hframes := frames.isLt
      have hnext : BitVec.ofNat 64 (r + k) + 1 = BitVec.ofNat 64 (r + k + 1) :=
        (BitVec.ofNat_add _ _).symm
      rw [pmmAlloc.scan]
      by_cases hfree : bitmapTestBit mem bitmap (BitVec.ofNat 64 (r + k)) = false
      · have hrun' : IsRun P r (k + 1) := hrun.snoc ((hP _).2 hfree)
        have hbit' : (if bit = 0 then BitVec.ofNat 64 (r + k) else bit) =
            BitVec.ofNat 64 r := by
          by_cases hk0 : k = 0
          · rw [hbit, if_pos hk0, if_pos rfl, hk0, Nat.add_zero]
          · -- the run cannot have started at frame 0
            have hr : r ≠ 0 := by
              intro hr
              have h0 := hrun'.apply (x := 0) (by omega) (by omega)
              have h1 := hrun'.apply (x := 1) (by omega) (by omega)
              exact hzero (by omega) h0 h1
            have hne : BitVec.ofNat 64 r ≠ 0 := by
              intro h
              have := congrArg BitVec.toNat h
              rw [BitVec.toNat_ofNat] at this
              simp at this
              omega
            rw [hbit, if_neg hk0, if_neg hne]
        have hfound : BitVec.ofNat 64 k + 1 = BitVec.ofNat 64 (k + 1) :=
          (BitVec.ofNat_add _ _).symm
        have hge : BitVec.ofNat 64 (k + 1) ≥ frames ↔ want ≤ k + 1 := by
          rw [ge_iff_le, BitVec.le_def, BitVec.toNat_ofNat, hwant]
          omega
        simp only [hfree, Bool.not_false, if_true, hbit', hfound, hge, hnext]
        by_cases hdone : want ≤ k + 1
        · rw [if_pos hdone]
          exact Or.inl ⟨r, ⟨hsr, by omega, hrun'.take hdone, hnone⟩, rfl⟩
        · rw [if_neg hdone]
          exact ih r (k + 1) _ hsr (by omega) (by omega) hrun' hnone
            (by rw [if_neg (Nat.succ_ne_zero k)])
      · rw [Bool.not_eq_false] at hfree
        have hnot : ¬ P (r + k) := by
          rw [hP, hfree]
          exact Bool.noConfusion
        simp only [hfree, Bool.not_true, Bool.false_eq_true, if_false, hnext]
        exact ih (r + k + 1) 0 0 (by omega) (by omega) hpos isRun_zero
          (hnone.reset hk hnot) rfl

end Scan

/-- `pmm_alloc` answers with the first fit, or 0 where nothing fits. -/
theorem pmmAlloc_spec {st : Pmm} {size n : Word} (h : Scannable st size)
    (hn : 0 < n.toNat) :
    ∃ p, pmmAlloc st n = .ok p ∧
      ((∃ f, IsFirstFit st.Free st.bitmapStartBit.toNat (8 * size.toNat)
          n.toNat f ∧ p.toNat = 4096 * f) ∨
        ((¬ ∃ f, IsFirstFit st.Free st.bitmapStartBit.toNat (8 * size.toNat)
          n.toNat f) ∧ p = 0)) := by
  have hsize := size_le h.size_eq
  have hbound : (size * 8).toNat = 8 * size.toNat := by
    rw [BitVec.toNat_mul]
    show size.toNat * 8 % 2 ^ 64 = _
    omega
  refine ⟨_, by rw [pmmAlloc, h.size_eq]; rfl, ?_⟩
  rw [hbound]
  rcases Nat.lt_or_ge (8 * size.toNat) st.bitmapStartBit.toNat with hlt | hge
  · -- the search starts past the bound, and no round is made
    have hrounds : 8 * size.toNat - st.bitmapStartBit.toNat = 0 := by omega
    rw [hrounds]
    refine Or.inr ⟨?_, rfl⟩
    rintro ⟨f, hf⟩
    have := hf.start_le
    have := hf.end_le
    omega
  · rcases Nat.eq_zero_or_pos size.toNat with hz | hspos
    · have hrounds : 8 * size.toNat - st.bitmapStartBit.toNat = 0 := by omega
      rw [hrounds]
      refine Or.inr ⟨?_, rfl⟩
      rintro ⟨f, hf⟩
      have := hf.end_le
      omega
    · have hzero : st.bitmapStartBit.toNat = 0 → st.Free 0 → ¬ st.Free 1 :=
        fun hs => h.sentinel hspos (BitVec.eq_of_toNat_eq hs)
      have hstart : BitVec.ofNat 64 st.bitmapStartBit.toNat =
          st.bitmapStartBit := by simp
      have hscan := scan_spec (P := st.Free) (N := 8 * size.toNat)
        (fun f => Iff.rfl) (Eq.refl n.toNat) hn (by omega) hzero
        (8 * size.toNat - st.bitmapStartBit.toNat) st.bitmapStartBit.toNat 0 0
        (Nat.le_refl _) (by omega) hn isRun_zero noneBefore_start rfl
      rw [Nat.add_zero, hstart] at hscan
      rcases hscan with ⟨f, hf, hres⟩ | hnone
      · refine Or.inl ⟨f, hf, ?_⟩
        have hend := hf.end_le
        show (pmmAlloc.scan _ _ _ _ _ _ (BitVec.ofNat 64 0)).toNat = _
        rw [hres, BitVec.toNat_mul, BitVec.toNat_ofNat]
        show f % 2 ^ 64 * 4096 % 2 ^ 64 = _
        omega
      · exact Or.inr hnone

/-- A search that starts past frame 0 never meets the ambiguous value. -/
theorem scannable_of_start {st : Pmm} {size : Word}
    (hsize : getBitmapSize st.mmap = .ok size)
    (hstart : 1 ≤ st.bitmapStartBit.toNat) : Scannable st size := by
  refine ⟨hsize, fun _ hzero => ?_⟩
  rw [hzero] at hstart
  simp at hstart

/-- First fit, for every bitmap and every search that starts past frame 0:
the answer is the address of the lowest run of `n` clear bits between the
start of the search and the scan bound, and 0 exactly where there is none. -/
theorem pmmAlloc_firstFit {st : Pmm} {size n : Word}
    (hsize : getBitmapSize st.mmap = .ok size)
    (hstart : 1 ≤ st.bitmapStartBit.toNat) (hn : 1 ≤ n.toNat) :
    ∃ p, pmmAlloc st n = .ok p ∧
      (∀ f, IsFirstFit st.Free st.bitmapStartBit.toNat (8 * size.toNat)
        n.toNat f → p.toNat = f * 0x1000) ∧
      (p = 0 ↔ ¬ ∃ f, IsFirstFit st.Free st.bitmapStartBit.toNat
        (8 * size.toNat) n.toNat f) := by
  obtain ⟨p, hp, hspec⟩ := pmmAlloc_spec (scannable_of_start hsize hstart) hn
  refine ⟨p, hp, ?_⟩
  rcases hspec with ⟨f, hfit, hptr⟩ | ⟨hnone, hzero⟩
  · have hlow := hfit.start_le
    have hne : p ≠ 0 := by
      intro h0
      rw [h0] at hptr
      simp at hptr
      omega
    refine ⟨fun g hg => ?_, iff_of_false hne (fun h => h ⟨f, hfit⟩)⟩
    rw [hg.unique hfit, hptr, Nat.mul_comm]
  · exact ⟨fun f hfit => absurd ⟨f, hfit⟩ hnone, iff_of_true hzero hnone⟩

/-- Two frames from frame 9 on, in a bitmap of clear bits. -/
theorem pmmAlloc_firstFit_nine : ∃ p,
    pmmAlloc ⟨[⟨0x8000, 0x3000, LIMINE_MEMMAP_USABLE⟩], 0, 9, fun _ => 0, []⟩
      2 = .ok p ∧ p.toNat = 9 * 0x1000 := by
  obtain ⟨p, hp, hfit, _⟩ := @pmmAlloc_firstFit
    ⟨[⟨0x8000, 0x3000, LIMINE_MEMMAP_USABLE⟩], 0, 9, fun _ => 0, []⟩ 0x1000 2
    rfl (by simp) (by simp)
  refine ⟨p, hp, hfit 9 ⟨Nat.le_refl 9, by decide, fun i hi => ?_,
    noneBefore_start⟩⟩
  rw [Pmm.Free, bitmapTestBit_eq_getLsbD]
  simp

/-! ## Freeing -/

/-- The loop of `pmm_free` clears the frames of its range and nothing else. -/
theorem pmmFree_go_test {bitmap c : Word} :
    ∀ {n : ℕ} {ptr : Word} {mem : Mem}, ptr.toNat + n * 4096 ≤ 2 ^ 64 →
      bitmapTestBit (pmmFree.go bitmap n ptr mem) bitmap c =
        (bitmapTestBit mem bitmap c &&
          !decide (ptr.toNat / 4096 ≤ c.toNat ∧
            c.toNat < ptr.toNat / 4096 + n)) := by
  intro n
  induction n with
  | zero =>
      intro ptr mem _
      have hnone : ¬ (ptr.toNat / 4096 ≤ c.toNat ∧
          c.toNat < ptr.toNat / 4096 + 0) := by omega
      rw [decide_eq_false hnone, Bool.not_false, Bool.and_true]
      rfl
  | succ n ih =>
      intro ptr mem hle
      have hdiv : (ptr / 0x1000).toNat = ptr.toNat / 4096 := BitVec.toNat_udiv
      have hc : c = ptr / 0x1000 ↔ c.toNat = ptr.toNat / 4096 := by
        rw [← hdiv]
        exact ⟨congrArg _, BitVec.eq_of_toNat_eq⟩
      rw [pmmFree.go]
      cases n with
      | zero =>
          rw [pmmFree.go, bitmapTestBit_unset]
          congr 1
          rw [← decide_not]
          apply decide_eq_decide.2
          rw [ne_eq, hc]
          omega
      | succ n =>
          have hnext : (ptr + 0x1000).toNat = ptr.toNat + 4096 := by
            rw [BitVec.toNat_add]
            show (ptr.toNat + 4096) % 2 ^ 64 = _
            omega
          generalize ptr + 0x1000 = next at hnext ⊢
          have hle' : next.toNat + (n + 1) * 4096 ≤ 2 ^ 64 := by omega
          rw [ih hle', bitmapTestBit_unset, hnext, Bool.and_assoc]
          refine congrArg (bitmapTestBit mem bitmap c && ·) ?_
          rw [← decide_not, ← decide_not, ← Bool.decide_and]
          apply decide_eq_decide.2
          rw [ne_eq, hc]
          omega

/-- Freeing frames that are free already changes no bit. -/
theorem pmmFree_free {st : Pmm} {p n : Word} {f : ℕ} (hp : p.toNat = 4096 * f)
    (hle : f + n.toNat ≤ 2 ^ 52) (hrun : IsRun st.Free f n.toNat) (g : ℕ) :
    (pmmFree st p n).Free g ↔ st.Free g := by
  have hdiv : p.toNat / 4096 = f := by omega
  have hrange : p.toNat + n.toNat * 4096 ≤ 2 ^ 64 := by omega
  show bitmapTestBit (pmmFree.go st.bitmap _ _ _) st.bitmap _ = false ↔ _
  rw [pmmFree_go_test hrange, hdiv, Bool.and_eq_false_iff]
  refine ⟨fun h => ?_, Or.inl⟩
  rcases h with h | h
  · exact h
  · -- a bit of the range, and those are clear
    rw [Bool.not_eq_false', decide_eq_true_eq] at h
    have := hrun.apply h.1 h.2
    rwa [Pmm.Free, BitVec.ofNat_toNat, BitVec.setWidth_eq] at this

/-! ## After `pmm_init` -/

theorem carve_zero (e : MemmapEntry) : e.carve 0 = e := by
  simp [MemmapEntry.carve]

/-- On any memory map whatsoever: where `pmm_init` has found room, the search
for frames may use 0 for "no run". -/
theorem scannable_pmmInit {hhdm : Word} {fuel : Nat} {mmap : List MemmapEntry}
    {mem : Mem} {st : Pmm} {size : Word} {host : MemmapEntry}
    (hsize : getBitmapSize mmap = .ok size)
    (hhost : hostEntry size mmap = some host)
    (h : pmmInit hhdm fuel mmap mem = .ok st) :
    ∃ size', Scannable st size' := by
  obtain ⟨-, hu, -⟩ := hostEntry_eq_some hhost
  obtain ⟨size₀, hsize₀, hloop⟩ := pmmInit_ok h
  obtain rfl : size = size₀ := Except.ok.inj (hsize.symm.trans hsize₀)
  obtain ⟨pre, post, heq, hstate, -⟩ := hostBitmap_of_host hhdm mem hhost
  obtain ⟨bits, hst⟩ := unsetUsable_ok hloop
  rw [hstate] at hst
  have hmm := congrArg Pmm.mmap hst
  rw [foldl_unsetFrame_mmap] at hmm
  have hmem : host.carve size ∈ st.mmap := by
    rw [hmm]
    exact List.mem_append_right _ List.mem_cons_self
  obtain ⟨size', hsize'⟩ := exists_getBitmapSize hmem hu
  refine ⟨size', hsize', ?_⟩
  intro hpos hstart _ hone
  have hbm := congrArg Pmm.bitmap hst
  have hzero := congrArg Pmm.bitmapStartBit hst
  rw [foldl_unsetFrame_bitmap] at hbm
  rw [foldl_unsetFrame_start, if_pos rfl, hstart] at hzero
  -- a bitmap of no bytes is never grown by carving
  have hsizepos : 0 < size.toNat := by
    by_contra hno
    have hs0 : size = 0 := BitVec.eq_of_toNat_eq (by simpa using hno)
    rw [hmm, hs0, carve_zero, ← heq, hsize, hs0] at hsize'
    rw [← Except.ok.inj hsize'] at hpos
    exact absurd hpos (by decide)
  -- bit 1 is in the storage, and only bit 0 can have been unset
  have hones : ∀ b ∈ bits, b = 0 := by
    intro b hb
    by_contra hne
    cases hfind : bits.find? (· ≠ 0) with
    | none =>
        have := List.find?_eq_none.1 hfind b hb
        exact hne (by simpa using this)
    | some b' =>
        rw [hfind, Option.getD_some] at hzero
        have := List.find?_some hfind
        simp [hzero] at this
  have htest := foldl_unsetFrame_test bits
    ⟨pre ++ host.carve size :: post, host.base + hhdm, 0,
      memset mem (host.base + hhdm) 0xFF size, []⟩ (BitVec.ofNat 64 1)
  have hnot : BitVec.ofNat 64 1 ∉ bits :=
    fun hb => absurd (hones _ hb) (by decide)
  have hin : (BitVec.ofNat 64 1).toNat / 8 < size.toNat := hsizepos
  rw [← hst, bitmapTestBit_memset _ _ _ _ hin, decide_eq_true hnot] at htest
  rw [Pmm.Free, hbm, htest] at hone
  exact Bool.noConfusion hone

end VegaOS
