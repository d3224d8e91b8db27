import VegaOS.Lib.Runs
import VegaOS.Proofs.PmmAlloc
import VegaOS.Proofs.PmmCover

/-!
# Runs of `pmm_alloc` and `pmm_free`

`pmm_alloc` returns a run of clear bits and stores nothing, and `pmm_free`
clears bits that were clear when the range was handed out. So along a run no
bit ever changes: every answer is a first fit in the bitmap `pmm_init` left
behind (`Heap.Sound`). Two things follow.

What is handed out is always memory `pmm_init` released, hence usable and
outside the bitmap's storage.

Two live blocks, on the other hand, are disjoint only where the second request
could not be met at the place of the first. `MissesLive` says when that is,
from the bitmap and the sizes alone, and over runs it is exact.
-/

namespace VegaOS

open ByteMem FirstFit Runs

/-- A range `pmm_alloc` has answered with. -/
structure Block where
  ptr : Word
  frames : Word
deriving DecidableEq, Repr

/-- Frame `f` belongs to the block. -/
def Block.Holds (b : Block) (f : ℕ) : Prop :=
  b.ptr.toNat / 4096 ≤ f ∧ f < b.ptr.toNat / 4096 + b.frames.toNat

/-- The allocator together with what its callers know. -/
structure Heap where
  pmm : Pmm
  /-- every non-zero answer so far, latest first -/
  returned : List Block
  /-- the answers not freed since -/
  live : List Block

inductive Call
  | alloc (frames : Word)
  | free (block : Block)

namespace Heap

def init (st : Pmm) : Heap := ⟨st, [], []⟩

/-- A call of `pmm_alloc(n)` has returned `p`. -/
def alloc (h : Heap) (p n : Word) : Heap :=
  if p = 0 then h
  else { h with returned := ⟨p, n⟩ :: h.returned, live := ⟨p, n⟩ :: h.live }

def free (h : Heap) (b : Block) : Heap :=
  { h with pmm := pmmFree h.pmm b.ptr b.frames, live := h.live.erase b }

/-- One call. The callers pass to `pmm_free` what `owned` allows them to. -/
def Step (owned : Heap → List Block) (h : Heap) : Call → Heap → Prop
  | .alloc n, h' =>
      0 < n.toNat ∧ ∃ p, pmmAlloc h.pmm n = .ok p ∧ h' = h.alloc p n
  | .free b, h' => b ∈ owned h ∧ h' = h.free b

/-- No frame is in two live blocks. -/
def LiveDisjoint (h : Heap) : Prop :=
  h.live.Pairwise fun b b' => ∀ f, ¬ (b.Holds f ∧ b'.Holds f)

/-! ## No bit changes -/

/-- Where a run that started in `st` can get to: the bitmap reads as it did,
and every answer was a first fit below `N` in it. -/
structure Sound (st : Pmm) (N : ℕ) (h : Heap) : Prop where
  mmap_eq : h.pmm.mmap = st.mmap
  start_eq : h.pmm.bitmapStartBit = st.bitmapStartBit
  free_eq : h.pmm.Free = st.Free
  live_subset : ∀ b ∈ h.live, b ∈ h.returned
  ptr_ne : ∀ b ∈ h.returned, b.ptr ≠ 0
  fits : ∀ b ∈ h.returned, 0 < b.frames.toNat ∧
    ∃ f, IsFirstFit st.Free st.bitmapStartBit.toNat N b.frames.toNat f ∧
      b.ptr.toNat = 4096 * f

theorem sound_init (st : Pmm) (N : ℕ) : Sound st N (init st) :=
  ⟨rfl, rfl, rfl, fun _ hb => hb, fun _ hb => absurd hb List.not_mem_nil,
    fun _ hb => absurd hb List.not_mem_nil⟩

section Steps

variable {st : Pmm} {size : Word} {h h' : Heap}

theorem Sound.scannable (hs : Sound st (8 * size.toNat) h)
    (hst : Scannable st size) : Scannable h.pmm size := by
  refine ⟨?_, ?_⟩
  · rw [hs.mmap_eq]
    exact hst.size_eq
  · rw [hs.start_eq, hs.free_eq]
    exact hst.sentinel

/-- What `pmm_alloc` answers anywhere in a run. -/
theorem Sound.alloc_spec (hs : Sound st (8 * size.toNat) h)
    (hst : Scannable st size) {n p : Word} (hn : 0 < n.toNat)
    (hp : pmmAlloc h.pmm n = .ok p) :
    (∃ f, IsFirstFit st.Free st.bitmapStartBit.toNat (8 * size.toNat)
        n.toNat f ∧ p.toNat = 4096 * f) ∨
      ((¬ ∃ f, IsFirstFit st.Free st.bitmapStartBit.toNat (8 * size.toNat)
        n.toNat f) ∧ p = 0) := by
  obtain ⟨p', hp', hspec⟩ := pmmAlloc_spec (hs.scannable hst) hn
  rw [hp] at hp'
  obtain rfl := Except.ok.inj hp'
  rwa [hs.free_eq, hs.start_eq] at hspec

/-- The answer where something fits. -/
theorem Sound.alloc_eq (hs : Sound st (8 * size.toNat) h)
    (hst : Scannable st size) {n p : Word} (hn : 0 < n.toNat) {f : ℕ}
    (hfit : IsFirstFit st.Free st.bitmapStartBit.toNat (8 * size.toNat)
      n.toNat f) (hptr : p.toNat = 4096 * f) : pmmAlloc h.pmm n = .ok p := by
  obtain ⟨p', hp', -⟩ := pmmAlloc_spec (hs.scannable hst) hn
  rw [hp']
  rcases hs.alloc_spec hst hn hp' with ⟨g, hg, hptr'⟩ | ⟨hnone, -⟩
  · rw [hfit.unique hg, ← hptr'] at hptr
    exact congrArg _ (BitVec.eq_of_toNat_eq hptr.symm)
  · exact absurd ⟨f, hfit⟩ hnone

theorem Sound.alloc (hs : Sound st (8 * size.toNat) h)
    (hst : Scannable st size) {n p : Word} (hn : 0 < n.toNat)
    (hp : pmmAlloc h.pmm n = .ok p) :
    Sound st (8 * size.toNat) (h.alloc p n) := by
  unfold Heap.alloc
  split
  · exact hs
  · rename_i hp0
    refine ⟨hs.mmap_eq, hs.start_eq, hs.free_eq, ?_, ?_, ?_⟩
    · intro b hb
      cases hb with
      | head => exact List.mem_cons_self
      | tail _ hb => exact List.mem_cons_of_mem _ (hs.live_subset b hb)
    · intro b hb
      cases hb with
      | head => exact hp0
      | tail _ hb => exact hs.ptr_ne b hb
    · intro b hb
      cases hb with
      | tail _ hb => exact hs.fits b hb
      | head =>
          rcases hs.alloc_spec hst hn hp with hfit | ⟨_, hzero⟩
          · exact ⟨hn, hfit⟩
          · exact absurd hzero hp0

theorem Sound.free (hs : Sound st (8 * size.toNat) h)
    (hst : Scannable st size) {b : Block} (hb : b ∈ h.returned) :
    Sound st (8 * size.toNat) (h.free b) := by
  obtain ⟨_, f, hfit, hptr⟩ := hs.fits b hb
  have hbound : f + b.frames.toNat ≤ 2 ^ 52 := by
    have := hfit.end_le
    have := size_le hst.size_eq
    omega
  have hrun : IsRun h.pmm.Free f b.frames.toNat := by
    rw [hs.free_eq]
    exact hfit.run
  have hsame : (pmmFree h.pmm b.ptr b.frames).Free = st.Free := by
    rw [← hs.free_eq]
    exact funext fun g => propext (pmmFree_free hptr hbound hrun g)
  exact ⟨hs.mmap_eq, hs.start_eq, hsame,
    fun b' hb' => hs.live_subset b' (List.mem_of_mem_erase hb'), hs.ptr_ne,
    hs.fits⟩

/-- A block the callers own is one `pmm_alloc` has answered with. -/
def Owns (owned : Heap → List Block) : Prop :=
  ∀ h : Heap, ∀ b ∈ owned h, b ∈ h.returned ∨ b ∈ h.live

theorem Sound.step {owned : Heap → List Block} (howned : Owns owned)
    (hs : Sound st (8 * size.toNat) h) (hst : Scannable st size) {c : Call}
    (hstep : Step owned h c h') : Sound st (8 * size.toNat) h' := by
  cases c with
  | alloc n =>
      obtain ⟨hn, p, hp, rfl⟩ := hstep
      exact hs.alloc hst hn hp
  | free b =>
      obtain ⟨hb, rfl⟩ := hstep
      rcases howned h b hb with hret | hlive
      · exact hs.free hst hret
      · exact hs.free hst (hs.live_subset b hlive)

theorem sound_of_reaches {owned : Heap → List Block} (howned : Owns owned)
    (hst : Scannable st size) (hrun : Reaches (Step owned) (init st) h) :
    Sound st (8 * size.toNat) h :=
  hrun.invariant (sound_init st _)
    fun _ _ _ hs hstep => hs.step howned hst hstep

end Steps

/-! ## When two live blocks share a frame -/

/-- No live block sits where the request would be met. A call of `pmm_free`
adds no block, so it needs no condition. -/
def MissesLive (h : Heap) : Call → Prop
  | .alloc n => ∀ size, getBitmapSize h.pmm.mmap = .ok size → ∀ b ∈ h.live,
      Misses h.pmm.Free h.pmm.bitmapStartBit.toNat (8 * size.toNat)
        b.frames.toNat (b.ptr.toNat / 4096) n.toNat
  | .free _ => True

section Exact

variable {st : Pmm} {size : Word} {h h' : Heap}

theorem missesLive_alloc (hs : Sound st (8 * size.toNat) h)
    (hst : Scannable st size) (n : Word) :
    h.MissesLive (.alloc n) ↔ ∀ b ∈ h.live,
      Misses st.Free st.bitmapStartBit.toNat (8 * size.toNat) b.frames.toNat
        (b.ptr.toNat / 4096) n.toNat := by
  rw [← hs.free_eq, ← hs.start_eq]
  constructor
  · exact fun hmiss => hmiss size (hs.scannable hst).size_eq
  · intro hmiss size' hsize'
    have hsame := (hs.scannable hst).size_eq
    rw [hsize'] at hsame
    rw [Except.ok.inj hsame]
    exact hmiss

/-- A live block is the first fit for its own size. -/
theorem Sound.live_fit (hs : Sound st (8 * size.toNat) h) {b : Block}
    (hb : b ∈ h.live) :
    0 < b.frames.toNat ∧ IsFirstFit st.Free st.bitmapStartBit.toNat
      (8 * size.toNat) b.frames.toNat (b.ptr.toNat / 4096) := by
  obtain ⟨hpos, f, hfit, hptr⟩ := hs.fits b (hs.live_subset b hb)
  rw [hptr, Nat.mul_div_cancel_left f (by decide)]
  exact ⟨hpos, hfit⟩

/-- The new block shares a frame with a live one exactly when it starts where
that one does. -/
theorem disjoint_iff_misses (hs : Sound st (8 * size.toNat) h) {n p : Word}
    (hn : 0 < n.toNat) {f : ℕ} (hptr : p.toNat = 4096 * f)
    (hfit : IsFirstFit st.Free st.bitmapStartBit.toNat (8 * size.toNat)
      n.toNat f) {b : Block} (hb : b ∈ h.live) :
    (∀ g, ¬ (Block.Holds ⟨p, n⟩ g ∧ b.Holds g)) ↔
      Misses st.Free st.bitmapStartBit.toNat (8 * size.toNat) b.frames.toNat
        (b.ptr.toNat / 4096) n.toNat := by
  obtain ⟨hpos, hlive⟩ := hs.live_fit hb
  have hdiv : p.toNat / 4096 = f := by omega
  rw [← hlive.ne_iff_misses hfit]
  simp only [Block.Holds, hdiv]
  constructor
  · intro hdisj heq
    exact hdisj f ⟨⟨by omega, by omega⟩, by omega, by omega⟩
  · intro hne g hg
    exact hne (hlive.eq_of_overlap hfit hg.2.1 hg.2.2 hg.1.1 hg.1.2)

theorem liveDisjoint_alloc (hs : Sound st (8 * size.toNat) h)
    (hst : Scannable st size) (hlive : h.LiveDisjoint) {n p : Word}
    (hn : 0 < n.toNat) (hp : pmmAlloc h.pmm n = .ok p) :
    (h.alloc p n).LiveDisjoint ↔ h.MissesLive (.alloc n) := by
  rw [missesLive_alloc hs hst]
  rcases hs.alloc_spec hst hn hp with ⟨f, hfit, hptr⟩ | ⟨hnone, rfl⟩
  · by_cases hp0 : p = 0
    · -- the first fit is frame 0, which no block starts at
      refine iff_of_true (by rw [Heap.alloc, if_pos hp0]; exact hlive) ?_
      intro b hb
      rw [← (hs.live_fit hb).2.ne_iff_misses hfit]
      have hb0 := hs.ptr_ne b (hs.live_subset b hb)
      obtain ⟨_, g, _, hg⟩ := hs.fits b (hs.live_subset b hb)
      have hzero : p.toNat = 0 := by rw [hp0]; rfl
      have hbne : b.ptr.toNat ≠ 0 := fun h => hb0 (BitVec.eq_of_toNat_eq h)
      omega
    · rw [Heap.alloc, if_neg hp0, LiveDisjoint, List.pairwise_cons]
      constructor
      · exact fun h' b hb =>
          (disjoint_iff_misses hs hn hptr hfit hb).1 (h'.1 b hb)
      · exact fun hmiss => ⟨fun b hb =>
          (disjoint_iff_misses hs hn hptr hfit hb).2 (hmiss b hb), hlive⟩
  · refine iff_of_true (by rw [Heap.alloc, if_pos rfl]; exact hlive) ?_
    exact fun b hb => (hs.live_fit hb).2.misses_of_none hnone

/-- One call, from a state where the live blocks are disjoint. -/
theorem liveDisjoint_step (hs : Sound st (8 * size.toNat) h)
    (hst : Scannable st size) (hlive : h.LiveDisjoint) {c : Call}
    (hstep : Step Heap.live h c h') : h'.LiveDisjoint ↔ h.MissesLive c := by
  cases c with
  | alloc n =>
      obtain ⟨hn, p, hp, rfl⟩ := hstep
      exact liveDisjoint_alloc hs hst hlive hn hp
  | free b =>
      obtain ⟨_, rfl⟩ := hstep
      exact iff_of_true (List.Pairwise.sublist List.erase_sublist hlive) trivial

end Exact

/-- On every memory map `pmm_init` finds room on: the live blocks of a run are
disjoint as long as every request misses them, and the first request that does
not is given frames that are in use. -/
theorem liveDisjoint_exact {hhdm : Word} {fuel : Nat} {mmap : List MemmapEntry}
    {mem : Mem} {st : Pmm} {size : Word} {host : MemmapEntry} {h : Heap}
    (hsize : getBitmapSize mmap = .ok size)
    (hhost : hostEntry size mmap = some host)
    (hinit : pmmInit hhdm fuel mmap mem = .ok st)
    (hrun : Reaches (Guarded (Step Heap.live) MissesLive) (init st) h) :
    h.LiveDisjoint ∧ ∀ c h', Step Heap.live h c h' →
      (h'.LiveDisjoint ↔ h.MissesLive c) := by
  obtain ⟨size', hst⟩ := scannable_pmmInit hsize hhost hinit
  have howned : Owns Heap.live := fun _ _ hb => Or.inr hb
  exact guarded_exact (P := LiveDisjoint) (C := MissesLive)
    (sound_init st (8 * size'.toNat)) List.Pairwise.nil
    (fun _ c _ hs hstep => hs.step (c := c) howned hst hstep)
    (fun _ c _ hs hlive hstep =>
      liveDisjoint_step (c := c) hs hst hlive hstep) hrun

end Heap

/-! ## Two small machines

Three usable pages from `0x8000` on: the first becomes the bitmap, and frames
9 and 10 are free. And two stretches of two pages with a reserved one between
them: frame 9 is free, frame 10 is not, frames 11 and 12 are. -/

def twoStretches : List MemmapEntry :=
  [⟨0x8000, 0x2000, LIMINE_MEMMAP_USABLE⟩, ⟨0xA000, 0x1000, 1⟩,
    ⟨0xB000, 0x2000, LIMINE_MEMMAP_USABLE⟩]

theorem limineMap_twoStretches : LimineMap twoStretches := by
  have hcases : ∀ e ∈ twoStretches, e.Usable →
      e = ⟨0x8000, 0x2000, LIMINE_MEMMAP_USABLE⟩ ∨
        e = ⟨0xB000, 0x2000, LIMINE_MEMMAP_USABLE⟩ := by
    simp [twoStretches, MemmapEntry.Usable, LIMINE_MEMMAP_USABLE]
  refine ⟨by decide, fun e he hu => ?_, fun e he hu => ?_, ?_⟩
  · rcases hcases e he hu with rfl | rfl <;> decide
  · rcases hcases e he hu with rfl | rfl <;>
      exact ⟨by decide, by decide, by decide⟩
  · simp [twoStretches, MemmapEntry.Usable, LIMINE_MEMMAP_USABLE,
      MemmapEntry.Contains, MemmapEntry.endNat]
    omega

/-- What `pmm_init` leaves behind, from the map as it is carved and the bits
that are unset. -/
theorem pmmInit_bits {mmap mmap' : List MemmapEntry} {size : Word}
    {host : MemmapEntry} {bits : List Word} (hmap : LimineMap mmap)
    (hsize : getBitmapSize mmap = .ok size)
    (hhost : hostEntry size mmap = some host)
    (hplace : placeBitmap size mmap = some (host, mmap'))
    (hbits : framesToUnset size mmap' = bits) :
    ∃ st, pmmInit 0 (2 ^ 52 + 1) mmap (fun _ => 0) = .ok st ∧
      st.mmap = mmap' ∧
      st.bitmapStartBit = (bits.find? (· ≠ 0)).getD 0 ∧
      ∀ f, f < 8 * size.toNat → (st.Free f ↔ BitVec.ofNat 64 f ∈ bits) := by
  obtain ⟨st, hinit⟩ := pmmInit_returns 0 (Nat.lt_succ_self (2 ^ 52))
    (fun _ => 0) hmap.paged hsize hhost
  have hboot := booted hmap.paged hsize hhost hinit
  obtain ⟨size', hsize', hloop⟩ := pmmInit_ok hinit
  obtain rfl := Except.ok.inj (hsize.symm.trans hsize')
  obtain ⟨unset, hst⟩ := unsetUsable_ok hloop
  have hmm : st.mmap = mmap' := by
    rw [hst, foldl_unsetFrame_mmap, hostBitmap, hplace]
  rw [← hmm] at hbits
  refine ⟨st, hinit, hmm, by rw [← hbits]; exact hboot.start_eq, ?_⟩
  intro f hf
  have hbound := size_le hsize
  have hnat : (BitVec.ofNat 64 f).toNat = f := by
    rw [BitVec.toNat_ofNat]
    omega
  rw [← hbits]
  exact hboot.test_storage (by omega)

/-- The three pages: one frame is found at frame 9. -/
theorem pmmInit_threePages : ∃ st,
    pmmInit 0 (2 ^ 52 + 1) (oneEntry 0x8000 0x3000) (fun _ => 0) = .ok st ∧
      Scannable st 0x1000 ∧
      IsFirstFit st.Free st.bitmapStartBit.toNat (8 * 4096) 1 9 := by
  have hmap : LimineMap (oneEntry 0x8000 0x3000) :=
    limineMap_oneEntry (by decide) (by decide) (by decide) (by decide)
  obtain ⟨st, hinit, hmm, hstart, hfree⟩ := pmmInit_bits hmap
    (Eq.refl (Except.ok 0x1000)) rfl rfl rfl
  have hnine : st.bitmapStartBit.toNat = 9 := by rw [hstart]; rfl
  refine ⟨st, hinit, scannable_of_start (by rw [hmm]; rfl) (by omega), ?_⟩
  rw [hnine]
  refine ⟨Nat.le_refl 9, by decide, fun i hi => ?_, noneBefore_start⟩
  obtain rfl : i = 0 := by omega
  exact (hfree 9 (by decide)).2 (by decide)

/-- The two stretches: one frame is found at frame 9, two at frame 11. -/
theorem pmmInit_twoStretches : ∃ st,
    pmmInit 0 (2 ^ 52 + 1) twoStretches (fun _ => 0) = .ok st ∧
      Scannable st 0x1000 ∧ ¬ st.Free 10 ∧
      IsFirstFit st.Free st.bitmapStartBit.toNat (8 * 4096) 1 9 ∧
      IsFirstFit st.Free st.bitmapStartBit.toNat (8 * 4096) 2 11 := by
  obtain ⟨st, hinit, hmm, hstart, hfree⟩ := pmmInit_bits limineMap_twoStretches
    (Eq.refl (Except.ok 0x1000)) rfl rfl rfl
  have hnine : st.bitmapStartBit.toNat = 9 := by rw [hstart]; rfl
  have hten : ¬ st.Free 10 := by
    rw [hfree 10 (by decide)]
    decide
  refine ⟨st, hinit, scannable_of_start (by rw [hmm]; rfl) (by omega), hten, ?_⟩
  rw [hnine]
  refine ⟨⟨Nat.le_refl 9, by decide, fun i hi => ?_, noneBefore_start⟩,
    by decide, by decide, fun i hi => ?_, fun g hg hlt hrun => ?_⟩
  · obtain rfl : i = 0 := by omega
    exact (hfree 9 (by decide)).2 (by decide)
  · obtain rfl | rfl : i = 0 ∨ i = 1 := by omega
    · exact (hfree 11 (by decide)).2 (by decide)
    · exact (hfree 12 (by decide)).2 (by decide)
  · exact hten (hrun.apply (by omega) (by omega))

namespace Heap

/-- A run all of whose requests miss the live blocks: a frame below the
reserved page, then two above it, which do not fit below. -/
theorem liveDisjoint_twoStretches : ∃ st h,
    pmmInit 0 (2 ^ 52 + 1) twoStretches (fun _ => 0) = .ok st ∧
      Reaches (Guarded (Step live) MissesLive) (init st) h ∧
      h.live = [⟨0xB000, 2⟩, ⟨0x9000, 1⟩] ∧ h.LiveDisjoint := by
  have hsize : getBitmapSize twoStretches = .ok 0x1000 := rfl
  have hhost : hostEntry 0x1000 twoStretches =
      some ⟨0x8000, 0x2000, LIMINE_MEMMAP_USABLE⟩ := rfl
  obtain ⟨st, hinit, hst, hten, hone, htwo⟩ := pmmInit_twoStretches
  have hs := sound_init st (8 * (0x1000 : Word).toNat)
  have hp : pmmAlloc st 1 = .ok 0x9000 := hs.alloc_eq hst (by decide) hone rfl
  have hs₁ := hs.alloc hst (by decide) hp
  have hp₁ : pmmAlloc ((init st).alloc 0x9000 1).pmm 2 = .ok 0xB000 :=
    hs₁.alloc_eq hst (by decide) htwo rfl
  have hfirst : Guarded (Step live) MissesLive (init st) (.alloc 1)
      ((init st).alloc 0x9000 1) :=
    ⟨fun _ _ b hb => absurd hb List.not_mem_nil, by decide, _, hp, rfl⟩
  have hmiss : ((init st).alloc 0x9000 1).MissesLive (.alloc 2) := by
    refine (missesLive_alloc hs₁ hst 2).2 fun b hb => ?_
    obtain rfl := List.mem_singleton.1 hb
    exact Or.inl ⟨by decide, fun hrun => hten (hrun.1 1 (by decide))⟩
  have hsecond : Guarded (Step live) MissesLive ((init st).alloc 0x9000 1)
      (.alloc 2) (((init st).alloc 0x9000 1).alloc 0xB000 2) :=
    ⟨hmiss, by decide, _, hp₁, rfl⟩
  have hrun : Reaches (Guarded (Step live) MissesLive) (init st)
      (((init st).alloc 0x9000 1).alloc 0xB000 2) :=
    .tail (.tail .refl ⟨_, hfirst⟩) ⟨_, hsecond⟩
  exact ⟨st, _, hinit, hrun, rfl,
    (liveDisjoint_exact hsize hhost hinit hrun).1⟩

/-- Two requests of one frame each are both met with frame 9. -/
theorem not_liveDisjoint_threePages : ∃ st h,
    pmmInit 0 (2 ^ 52 + 1) (oneEntry 0x8000 0x3000) (fun _ => 0) = .ok st ∧
      Reaches (Step live) (init st) h ∧ ¬ h.LiveDisjoint := by
  obtain ⟨st, hinit, hst, hfit⟩ := pmmInit_threePages
  have hp : pmmAlloc st 1 = .ok 0x9000 :=
    (sound_init st _).alloc_eq hst (by decide) hfit rfl
  have hfirst : Step live (init st) (.alloc 1) ((init st).alloc 0x9000 1) :=
    ⟨by decide, _, hp, rfl⟩
  have hsecond : Step live ((init st).alloc 0x9000 1) (.alloc 1)
      (((init st).alloc 0x9000 1).alloc 0x9000 1) :=
    ⟨by decide, _, hp, rfl⟩
  refine ⟨st, _, hinit, .tail (.tail .refl ⟨_, hfirst⟩) ⟨_, hsecond⟩, ?_⟩
  intro hdisj
  have hblocks := (List.pairwise_cons.1 hdisj).1 ⟨0x9000, 1⟩ List.mem_cons_self
  exact hblocks 9 ⟨⟨by decide, by decide⟩, by decide, by decide⟩

end Heap

/-! ## Only released memory is handed out -/

/-- Carving never raises the scan bound. -/
theorem carved_size_le {mmap pre post : List MemmapEntry} {size size' : Word}
    {host : MemmapEntry} (hmap : LimineMap mmap)
    (hsize : getBitmapSize mmap = .ok size)
    (hhost : hostEntry size mmap = some host)
    (heq : mmap = pre ++ host :: post)
    (hsize' : getBitmapSize (pre ++ host.carve size :: post) = .ok size') :
    size'.toNat ≤ size.toNat := by
  obtain ⟨hmem, hu, hroom⟩ := hostEntry_eq_some hhost
  by_cases hzero : size = 0
  · -- nothing was carved
    rw [hzero, carve_zero, ← heq, hsize] at hsize'
    rw [Except.ok.inj hsize']
  · have hbytes := hmap.toNat_size hsize
    have hne : size.toNat ≠ 0 := fun h => hzero (BitVec.eq_of_toNat_eq h)
    have hlt : usableEnd mmap < 2 ^ 64 := by
      have hle := hmap.usableEnd_le
      rcases Nat.lt_or_eq_of_le hle with hlt | htop
      · exact hlt
      · rw [htop] at hbytes
        exact absurd hbytes hne
    obtain ⟨e, he, hue, _, hbytes'⟩ := getBitmapSize_ok hsize'
    have hend : e.endNat ≤ usableEnd mmap := by
      rcases mem_carved he with rfl | hside
      · have hcarve := MemmapEntry.endNat_carve_le hroom
        have := le_usableEnd hmem hu
        omega
      · exact le_usableEnd (mem_of_side heq hside) hue
    rw [hbytes', hbytes]
    exact bitmapBytes_mono (by omega)

/-- A clear bit below the scan bound is a bit the second loop released. -/
theorem Booted.usable_of_free {hhdm : Word} {mmap : List MemmapEntry}
    {mem : Mem} {st : Pmm} {size size' : Word} {host : MemmapEntry}
    (hmap : LimineMap mmap) (hsize : getBitmapSize mmap = .ok size)
    (hhost : hostEntry size mmap = some host)
    (hboot : Booted hhdm mmap mem size host st)
    (hsize' : getBitmapSize st.mmap = .ok size') {f : ℕ}
    (hlt : f < 8 * size'.toNat) (hfree : st.Free f) :
    UsableFrame mmap f ∧ ¬ Reserved host size f := by
  obtain ⟨pre, post, heq, hcarved⟩ := hboot.carved
  have hle : size'.toNat ≤ size.toNat := by
    rw [hcarved] at hsize'
    exact carved_size_le hmap hsize hhost heq hsize'
  have hbound := size_le hsize
  have hnat : (BitVec.ofNat 64 f).toNat = f := by
    rw [BitVec.toNat_ofNat]
    omega
  have hbit : BitVec.ofNat 64 f ∈ framesToUnset size st.mmap :=
    (hboot.test_storage (by omega)).1 hfree
  rw [← hnat]
  exact hboot.usableFrame hmap.aligned hhost hbit

namespace Heap

/-- On every memory map the bootloader may report, `pmm_init` returns if it
finds room for the bitmap, and from then on, whatever is allocated and however
often it is freed again, every block `pmm_alloc` answers with is page-aligned
and made of usable frames outside the bitmap. -/
theorem alloc_usable (hhdm : Word) {fuel : Nat} (hfuel : 2 ^ 52 < fuel)
    {mmap : List MemmapEntry} (mem : Mem) {size : Word} {host : MemmapEntry}
    (hmap : LimineMap mmap) (hsize : getBitmapSize mmap = .ok size)
    (hhost : hostEntry size mmap = some host) :
    ∃ st, pmmInit hhdm fuel mmap mem = .ok st ∧
      ∀ h, Reaches (Step returned) (init st) h →
        ∀ n p, 0 < n.toNat → pmmAlloc h.pmm n = .ok p → p ≠ 0 →
          p.toNat % 4096 = 0 ∧ ∀ f, Block.Holds ⟨p, n⟩ f →
            UsableFrame mmap f ∧ ¬ Reserved host size f := by
  obtain ⟨st, hinit⟩ := pmmInit_returns hhdm hfuel mem hmap.paged hsize hhost
  have hboot := booted hmap.paged hsize hhost hinit
  obtain ⟨size', hst⟩ := scannable_pmmInit hsize hhost hinit
  refine ⟨st, hinit, fun h hrun n p hn hp hp0 => ?_⟩
  have hs := sound_of_reaches (fun _ _ hb => Or.inl hb) hst hrun
  rcases hs.alloc_spec hst hn hp with ⟨f, hfit, hptr⟩ | ⟨_, hzero⟩
  · have hend := hfit.end_le
    refine ⟨by omega, fun g hg => ?_⟩
    have hlo := hg.1
    have hhi := hg.2
    simp only [hptr] at hlo hhi
    exact hboot.usable_of_free hmap hsize hhost hst.size_eq (by omega)
      (hfit.run.apply (by omega) (by omega))
  · exact absurd hzero hp0

/-- On the three pages: a frame is handed out and freed again, and the next
one handed out is usable and outside the bitmap. -/
theorem alloc_usable_threePages : ∃ st h,
    pmmInit 0 (2 ^ 52 + 1) (oneEntry 0x8000 0x3000) (fun _ => 0) = .ok st ∧
      Reaches (Step returned) (init st) h ∧
      h.returned = [⟨0x9000, 1⟩] ∧ h.live = [] ∧
      pmmAlloc h.pmm 1 = .ok 0x9000 ∧
      UsableFrame (oneEntry 0x8000 0x3000) 9 ∧
      ¬ Reserved ⟨0x8000, 0x3000, LIMINE_MEMMAP_USABLE⟩ 0x1000 9 := by
  obtain ⟨st, hinit, hst, hfit⟩ := pmmInit_threePages
  have hmap : LimineMap (oneEntry 0x8000 0x3000) :=
    limineMap_oneEntry (by decide) (by decide) (by decide) (by decide)
  obtain ⟨st', hinit', hall⟩ := alloc_usable 0 (Nat.lt_succ_self (2 ^ 52))
    (fun _ => 0) hmap (Eq.refl (Except.ok 0x1000)) rfl
  obtain rfl := Except.ok.inj (hinit.symm.trans hinit')
  have hs := sound_init st (8 * (0x1000 : Word).toNat)
  have hp : pmmAlloc st 1 = .ok 0x9000 := hs.alloc_eq hst (by decide) hfit rfl
  have halloc : Step returned (init st) (.alloc 1) ((init st).alloc 0x9000 1) :=
    ⟨by decide, _, hp, rfl⟩
  have hfree : Step returned ((init st).alloc 0x9000 1) (.free ⟨0x9000, 1⟩)
      (((init st).alloc 0x9000 1).free ⟨0x9000, 1⟩) :=
    ⟨List.mem_cons_self, rfl⟩
  have hrun : Reaches (Step returned) (init st)
      (((init st).alloc 0x9000 1).free ⟨0x9000, 1⟩) :=
    .tail (.tail .refl ⟨_, halloc⟩) ⟨_, hfree⟩
  have hs₂ := sound_of_reaches (fun _ _ hb => Or.inl hb) hst hrun
  have hp₂ : pmmAlloc (((init st).alloc 0x9000 1).free ⟨0x9000, 1⟩).pmm 1 =
      .ok 0x9000 := hs₂.alloc_eq hst (by decide) hfit rfl
  exact ⟨st, _, hinit, hrun, rfl, rfl, hp₂,
    (hall _ hrun 1 0x9000 (by decide) hp₂ (by decide)).2 9
      ⟨by decide, by decide⟩⟩

end Heap

end VegaOS
