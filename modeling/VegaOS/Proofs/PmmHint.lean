import VegaOS.Proofs.PmmPlace
import VegaOS.Proofs.PmmRuns

/-!
# The start of the search hides no free frame

`init_bitmap` remembers the first bit it unsets in `bitmap_start_bit`, taking
the value 0 for "none yet", and `pmm_alloc` starts its scan there. Three facts
make that harmless. The entries are sorted and the host is the first with
room, so bits are unset from the lowest up and the first one is the least.
Frame 0 is never unset: an entry long enough to be unset that starts at 0
would have been the host, and then frame 0 stores the bitmap. And no later
call clears a bit that was set.
-/

namespace VegaOS

open ByteMem FirstFit Runs

/-! ## Frames are unset from the lowest up -/

theorem framesToUnset_sorted {size : Word} (hpos : 0 < size.toNat)
    {es : List MemmapEntry} (hpaged : ∀ e ∈ es, e.Usable → e.Paged)
    (hord : es.Pairwise fun a b => a.Usable → b.Usable → 0 < b.length.toNat →
      a.endNat ≤ b.base.toNat) :
    (framesToUnset size es).Pairwise fun a b => a.toNat < b.toNat := by
  induction es with
  | nil => exact List.Pairwise.nil
  | cons e rest ih =>
      have hrestPaged := fun e' he' => hpaged e' (List.mem_cons_of_mem e he')
      obtain ⟨hfirst, hrest⟩ := List.pairwise_cons.1 hord
      have hsorted := ih hrestPaged hrest
      rw [framesToUnset]
      split
      · rename_i hc
        have hpe := hpaged e List.mem_cons_self hc.1
        refine List.pairwise_append.2 ⟨entryFrames_sorted hpe, hsorted, ?_⟩
        intro a ha b hb
        have hae := (mem_entryFrames hpe a).1 ha
        obtain ⟨e', he', hu', hlen, hbe⟩ := (mem_framesToUnset hrestPaged b).1 hb
        rw [BitVec.le_def] at hlen
        have hbefore := hfirst e' he' hc.1 hu' (by omega)
        have hend := hae.2
        have hlow := hbe.1
        omega
      · exact hsorted

/-- Carving keeps the entries in order. -/
theorem AlignedMap.carved_ordered {mmap pre post : List MemmapEntry}
    {host : MemmapEntry} {size : Word} (hmap : AlignedMap mmap)
    (hu : host.Usable) (hroom : size ≤ host.length) (hpos : 0 < size.toNat)
    (heq : mmap = pre ++ host :: post) :
    (pre ++ host.carve size :: post).Pairwise fun a b =>
      a.Usable → b.Usable → 0 < b.length.toNat → a.endNat ≤ b.base.toNat := by
  have hmem : host ∈ mmap := by
    rw [heq]
    exact List.mem_append_right pre List.mem_cons_self
  have hend := (hmap.paged host hmem hu).end_le
  have hcarve := MemmapEntry.endNat_carve_le hroom
  have hlen := MemmapEntry.toNat_length_carve hroom
  have hbase : (host.carve size).base.toNat =
      (host.base.toNat + size.toNat) % 2 ^ 64 := BitVec.toNat_add _ _
  have hord := hmap.ordered
  rw [heq, List.pairwise_append, List.pairwise_cons] at hord
  rw [BitVec.le_def] at hroom
  refine List.pairwise_append.2 ⟨hord.1, List.pairwise_cons.2
    ⟨fun e he _ hue hpe => ?_, hord.2.1.2⟩, fun a ha b hb hua hub hpb => ?_⟩
  · exact Nat.le_trans hcarve (hord.2.1.1 e he hu hue hpe)
  · rcases List.mem_cons.1 hb with rfl | hpost
    · have hbefore := hord.2.2 a ha host List.mem_cons_self hua hu (by omega)
      rw [MemmapEntry.endNat] at hend
      rw [hbase]
      omega
    · exact hord.2.2 a ha b (List.mem_cons_of_mem _ hpost) hua hub hpb

/-! ## What `pmm_init` leaves of the hint -/

/-- The hint is honest: frame 0 is in use, and so is every frame below the
hint. -/
structure Honest (st : Pmm) : Prop where
  zero : ¬ st.Free 0
  below : ∀ f, f < st.bitmapStartBit.toNat → ¬ st.Free f

section Boot

variable {mmap : List MemmapEntry} {size : Word} {host : MemmapEntry}

/-- A bitmap for eight frames or more is not empty, if it covers them. -/
theorem AlignedMap.size_pos (hmap : AlignedMap mmap)
    (hsize : getBitmapSize mmap = .ok size)
    (hend : 8 * 4096 ≤ usableEnd mmap)
    (hlarge : ∀ f, UsableFrame mmap f → f < 8 * size.toNat) :
    0 < size.toNat := by
  by_contra hno
  -- then no frame is usable, so every usable entry is empty
  have hempty : ∀ e ∈ mmap, e.Usable → e.length.toNat = 0 := by
    intro e he hu
    have hb := (hmap.paged e he hu).base_mod
    have hl := (hmap.paged e he hu).length_mod
    by_contra hlen
    have hframe : e.HoldsFrame (e.base.toNat / 4096) := by
      rw [MemmapEntry.HoldsFrame, MemmapEntry.endNat]
      omega
    have := hlarge _ ⟨e, he, hu, hframe⟩
    omega
  obtain ⟨top, htop, hut, hmax, hbytes⟩ := getBitmapSize_ok hsize
  have hle : usableEnd mmap ≤ top.base.toNat := by
    refine VegaOS.usableEnd_le fun e he hu => ?_
    have := hmax e he hu
    rw [MemmapEntry.endNat, hempty e he hu]
    rwa [BitVec.le_def] at this
  have hlt := top.base.isLt
  rw [MemmapEntry.endNat, hempty top htop hut, Nat.add_zero,
    Nat.mod_eq_of_lt hlt, bitmapBytes] at hbytes
  omega

variable {hhdm : Word} {fuel : Nat} {mem : Mem} {st : Pmm}

/-- Frame 0 is not released. -/
theorem zero_not_mem_framesToUnset (hmap : AlignedMap mmap)
    (hsize : getBitmapSize mmap = .ok size)
    (hhost : hostEntry size mmap = some host) (hpos : 0 < size.toNat)
    (h : pmmInit hhdm fuel mmap mem = .ok st) :
    0 ∉ framesToUnset size st.mmap := by
  obtain ⟨hmem, hu, hroom⟩ := hostEntry_eq_some hhost
  obtain ⟨pre, post, heq, hmiss, -, hmm⟩ := pmmInit_host hsize hhost h
  have hboot := booted hmap.paged hsize hhost h
  intro hzero
  obtain ⟨e, he, hue, hlen, hframe⟩ := (hboot.mem_unset 0).1 hzero
  have hbase0 : e.base.toNat = 0 := Nat.le_zero.1 hframe.1
  rw [BitVec.le_def] at hroom hlen
  rw [hmm] at he
  rcases mem_carved he with rfl | hpre | hpost
  · have hend := (hmap.paged host hmem hu).end_le
    have hleft := MemmapEntry.toNat_length_carve (BitVec.le_def.2 hroom)
    have hbase : (host.carve size).base.toNat =
        (host.base.toNat + size.toNat) % 2 ^ 64 := BitVec.toNat_add _ _
    rw [MemmapEntry.endNat] at hend
    omega
  · exact hmiss e hpre ⟨hue, BitVec.le_def.2 hlen⟩
  · have hord := hmap.ordered
    rw [heq, List.pairwise_append, List.pairwise_cons] at hord
    have hbefore := hord.2.1.1 e hpost hu hue (by omega)
    rw [MemmapEntry.endNat] at hbefore
    omega

/-- The first bit unset is the least of them, and it is the hint. -/
theorem hint_le (hmap : AlignedMap mmap)
    (hsize : getBitmapSize mmap = .ok size)
    (hhost : hostEntry size mmap = some host) (hpos : 0 < size.toNat)
    (h : pmmInit hhdm fuel mmap mem = .ok st) {b : Word}
    (hb : b ∈ framesToUnset size st.mmap) :
    st.bitmapStartBit ∈ framesToUnset size st.mmap ∧
      st.bitmapStartBit.toNat ≤ b.toNat := by
  obtain ⟨-, hu, hroom⟩ := hostEntry_eq_some hhost
  obtain ⟨pre, post, heq, -, -, hmm⟩ := pmmInit_host hsize hhost h
  have hboot := booted hmap.paged hsize hhost h
  have hzero := zero_not_mem_framesToUnset hmap hsize hhost hpos h
  have hord := hmap.carved_ordered hu hroom hpos heq
  rw [← hmm] at hord
  have hsorted := framesToUnset_sorted hpos hboot.paged hord
  rw [hboot.start_eq]
  cases hl : framesToUnset size st.mmap with
  | nil =>
      rw [hl] at hb
      exact absurd hb List.not_mem_nil
  | cons first rest =>
      rw [hl] at hb hzero hsorted
      have hne : first ≠ 0 := fun h0 => hzero (h0 ▸ List.mem_cons_self)
      have hfind : (first :: rest).find? (· ≠ 0) = some first :=
        List.find?_cons_of_pos (by simpa using hne)
      rw [hfind, Option.getD_some]
      refine ⟨List.mem_cons_self, ?_⟩
      rcases List.mem_cons.1 hb with rfl | hrest
      · exact Nat.le_refl _
      · exact Nat.le_of_lt ((List.pairwise_cons.1 hsorted).1 b hrest)

/-- A hint of 0 says that nothing was unset at all. -/
theorem unset_eq_nil_of_hint (hmap : AlignedMap mmap)
    (hsize : getBitmapSize mmap = .ok size)
    (hhost : hostEntry size mmap = some host) (hpos : 0 < size.toNat)
    (h : pmmInit hhdm fuel mmap mem = .ok st) (hhint : st.bitmapStartBit = 0) :
    st.unset = [] := by
  have hboot := booted hmap.paged hsize hhost h
  have hzero := zero_not_mem_framesToUnset hmap hsize hhost hpos h
  rw [hboot.unset_eq, List.reverse_eq_nil_iff]
  refine List.eq_nil_iff_forall_not_mem.2 fun b hb => hzero ?_
  rw [← hhint]
  exact (hint_le hmap hsize hhost hpos h hb).1

theorem honest_pmmInit (hmap : AlignedMap mmap)
    (hsize : getBitmapSize mmap = .ok size)
    (hhost : hostEntry size mmap = some host)
    (hlarge : ∀ f, UsableFrame mmap f → f < 8 * size.toNat)
    (hpos : 0 < size.toNat) (h : pmmInit hhdm fuel mmap mem = .ok st) :
    Honest st := by
  have hboot := booted hmap.paged hsize hhost h
  refine ⟨fun hfree => ?_, fun f hlt hfree => ?_⟩
  · refine zero_not_mem_framesToUnset hmap hsize hhost hpos h ?_
    exact (hboot.test_storage (by simpa using hpos)).1 hfree
  · have hbound := st.bitmapStartBit.isLt
    have hnat : (BitVec.ofNat 64 f).toNat = f := by
      rw [BitVec.toNat_ofNat]
      omega
    have hne : framesToUnset size st.mmap ≠ [] := by
      intro hnil
      have hstart := hboot.start_eq
      rw [hnil, List.find?_nil, Option.getD_none] at hstart
      rw [hstart] at hlt
      simp at hlt
    obtain ⟨b, hb⟩ := List.exists_mem_of_ne_nil _ hne
    -- the hint is a usable frame itself, so what is below it has a bit
    have hhint := (hint_le hmap hsize hhost hpos h hb).1
    have husable := hlarge _ (hboot.usableFrame hmap hhost hhint).1
    have hf := (hboot.test_storage (by omega)).1 hfree
    have := (hint_le hmap hsize hhost hpos h hf).2
    omega

end Boot

/-! ## The scan from bit 0 -/

/-- Where the hint is honest, it changes no answer. -/
theorem Honest.pmmAlloc_eq {st : Pmm} {size n : Word} (h : Honest st)
    (hsize : getBitmapSize st.mmap = .ok size) (hn : 0 < n.toNat) :
    pmmAlloc st n = pmmAlloc { st with bitmapStartBit := 0 } n := by
  have hst : Scannable st size := ⟨hsize, fun _ _ hzero => absurd hzero h.zero⟩
  have hst' : Scannable { st with bitmapStartBit := 0 } size :=
    ⟨hsize, fun _ _ hzero => absurd hzero h.zero⟩
  obtain ⟨p, hp, hspec⟩ := pmmAlloc_spec hst hn
  obtain ⟨p', hp', hspec'⟩ := pmmAlloc_spec hst' hn
  have hfit : ∀ f, IsFirstFit st.Free st.bitmapStartBit.toNat
      (8 * size.toNat) n.toNat f ↔
        IsFirstFit st.Free 0 (8 * size.toNat) n.toNat f :=
    fun f => isFirstFit_start hn h.below
  simp only [hfit] at hspec
  rw [hp, hp']
  refine congrArg _ ?_
  rcases hspec with ⟨f, hf, hptr⟩ | ⟨hnone, hzero⟩
  · rcases hspec' with ⟨f', hf', hptr'⟩ | ⟨hnone', -⟩
    · rw [hf.unique hf', ← hptr'] at hptr
      exact BitVec.eq_of_toNat_eq hptr
    · exact absurd ⟨f, hf⟩ hnone'
  · rcases hspec' with ⟨f', hf', -⟩ | ⟨-, hzero'⟩
    · exact absurd ⟨f', hf'⟩ hnone
    · rw [hzero, hzero']

namespace Heap

/-- One call, with any number of frames, none included. -/
def AnyStep (h : Heap) : Call → Heap → Prop
  | .alloc n, h' => ∃ p, pmmAlloc h.pmm n = .ok p ∧ h' = h.alloc p n
  | .free b, h' => b ∈ h.returned ∧ h' = h.free b

theorem alloc_pmm (h : Heap) (p n : Word) : (h.alloc p n).pmm = h.pmm := by
  unfold Heap.alloc
  split <;> rfl

theorem mem_returned_alloc {h : Heap} {p n : Word} {b : Block} :
    b ∈ (h.alloc p n).returned ↔ b ∈ h.returned ∨ p ≠ 0 ∧ b = ⟨p, n⟩ := by
  unfold Heap.alloc
  split
  · rename_i h0
    exact ⟨Or.inl, fun hb => hb.elim id fun hne => absurd h0 hne.1⟩
  · rename_i h0
    rw [List.mem_cons, or_comm]
    exact or_congr_right ⟨fun heq => ⟨h0, heq⟩, And.right⟩

/-- Requests for no frame, and what they return, can be left out of a run. -/
theorem reaches_of_anyStep {st : Pmm} {h : Heap}
    (hrun : Reaches AnyStep (init st) h) :
    ∃ h', Reaches (Step returned) (init st) h' ∧ h'.pmm = h.pmm ∧
      ∀ b ∈ h.returned, 0 < b.frames.toNat → b ∈ h'.returned := by
  induction hrun with
  | refl => exact ⟨init st, .refl, rfl, fun b hb _ => hb⟩
  | @tail s t _ hlast ih =>
      obtain ⟨s', hreach, hpmm, hret⟩ := ih
      obtain ⟨c, hstep⟩ := hlast
      cases c with
      | alloc n =>
          obtain ⟨p, hp, rfl⟩ := hstep
          rcases Nat.eq_zero_or_pos n.toNat with hn | hn
          · refine ⟨s', hreach, by rw [alloc_pmm, hpmm], fun b hb hpos => ?_⟩
            rcases mem_returned_alloc.1 hb with hold | ⟨_, rfl⟩
            · exact hret b hold hpos
            · exact absurd hn (Nat.ne_of_gt hpos)
          · rw [← hpmm] at hp
            refine ⟨s'.alloc p n, hreach.tail ⟨.alloc n, hn, p, hp, rfl⟩,
              by rw [alloc_pmm, alloc_pmm, hpmm], fun b hb hpos => ?_⟩
            refine mem_returned_alloc.2 ?_
            exact (mem_returned_alloc.1 hb).imp (fun hold => hret b hold hpos) id
      | free b =>
          obtain ⟨hb, rfl⟩ := hstep
          rcases Nat.eq_zero_or_pos b.frames.toNat with hn | hn
          · have hsame : (s.free b).pmm = s.pmm := by
              simp [Heap.free, pmmFree, hn, pmmFree.go]
            exact ⟨s', hreach, by rw [hsame, hpmm], hret⟩
          · have hfree : (s'.free b).pmm = (s.free b).pmm := by
              simp [Heap.free, hpmm]
            exact ⟨s'.free b, hreach.tail ⟨.free b, hret b hb hn, rfl⟩, hfree,
              hret⟩

/-- After `pmm_init`, and after whatever is allocated and freed from then on:
frame 0 and every frame below the hint are in use, a hint of 0 means that
nothing was released, and every search finds what a search from bit 0 would
find. -/
theorem hint_hides_nothing (hhdm : Word) {fuel : Nat} (hfuel : 2 ^ 52 < fuel)
    {mmap : List MemmapEntry} (mem : Mem) {size : Word} {host : MemmapEntry}
    (hmap : AlignedMap mmap) (hend : 8 * 4096 ≤ usableEnd mmap)
    (hsize : getBitmapSize mmap = .ok size)
    (hhost : hostEntry size mmap = some host)
    (hlarge : ∀ f, UsableFrame mmap f → f < 8 * size.toNat) :
    ∃ st, pmmInit hhdm fuel mmap mem = .ok st ∧
      ∀ h, Reaches AnyStep (init st) h →
        ¬ h.pmm.Free 0 ∧
        (∀ f, f < h.pmm.bitmapStartBit.toNat → ¬ h.pmm.Free f) ∧
        (h.pmm.bitmapStartBit = 0 → st.unset = []) ∧
        ∀ n, 1 ≤ n.toNat →
          pmmAlloc h.pmm n = pmmAlloc { h.pmm with bitmapStartBit := 0 } n := by
  have hpos := hmap.size_pos hsize hend hlarge
  obtain ⟨st, hinit⟩ := pmmInit_returns hhdm hfuel mem hmap.paged hsize hhost
  obtain ⟨size', hst⟩ := scannable_pmmInit hsize hhost hinit
  have hboot := honest_pmmInit hmap hsize hhost hlarge hpos hinit
  refine ⟨st, hinit, fun h hany => ?_⟩
  obtain ⟨h', hrun, hpmm, -⟩ := reaches_of_anyStep hany
  rw [← hpmm]
  have hs := sound_of_reaches (fun _ _ hb => Or.inl hb) hst hrun
  have hhonest : Honest h'.pmm := by
    refine ⟨?_, ?_⟩
    · rw [hs.free_eq]
      exact hboot.zero
    · rw [hs.free_eq, hs.start_eq]
      exact hboot.below
  refine ⟨hhonest.zero, hhonest.below, fun hzero => ?_, fun n hn => ?_⟩
  · rw [hs.start_eq] at hzero
    exact unset_eq_nil_of_hint hmap hsize hhost hpos hinit hzero
  · exact hhonest.pmmAlloc_eq (hs.scannable hst).size_eq hn

/-- The three pages from `0x8000` on end past the eighth frame. A frame is
handed out and freed again, and the search from the hint still finds what the
search from bit 0 finds. -/
theorem hint_hides_nothing_threePages : ∃ st h,
    pmmInit 0 (2 ^ 52 + 1) (oneEntry 0x8000 0x3000) (fun _ => 0) = .ok st ∧
      Reaches AnyStep (init st) h ∧
      h.returned = [⟨0x9000, 1⟩] ∧ h.live = [] ∧ ¬ h.pmm.Free 0 ∧
      pmmAlloc h.pmm 1 = pmmAlloc { h.pmm with bitmapStartBit := 0 } 1 := by
  have hmap : LimineMap (oneEntry 0x8000 0x3000) :=
    limineMap_oneEntry (by simp) (by simp) (by simp) (by simp)
  have hsize : getBitmapSize (oneEntry 0x8000 0x3000) = .ok 0x1000 := rfl
  have hhost : hostEntry 0x1000 (oneEntry 0x8000 0x3000) =
      some ⟨0x8000, 0x3000, LIMINE_MEMMAP_USABLE⟩ := rfl
  obtain ⟨st, hinit, hall⟩ := hint_hides_nothing 0 (Nat.lt_succ_self (2 ^ 52))
    (fun _ => 0) hmap.aligned (by decide) hsize hhost (fun f hf => by
      have := hf.lt_end
      have hval : usableEnd (oneEntry 0x8000 0x3000) = 0xB000 := rfl
      rw [hval] at this
      simp
      omega)
  obtain ⟨st', hinit', hst, hfit⟩ := pmmInit_threePages
  obtain rfl := Except.ok.inj (hinit.symm.trans hinit')
  have hp : pmmAlloc st 1 = .ok 0x9000 :=
    (sound_init st _).alloc_eq hst (by simp) hfit rfl
  have halloc : AnyStep (init st) (.alloc 1) ((init st).alloc 0x9000 1) :=
    ⟨_, hp, rfl⟩
  have hfree : AnyStep ((init st).alloc 0x9000 1) (.free ⟨0x9000, 1⟩)
      (((init st).alloc 0x9000 1).free ⟨0x9000, 1⟩) :=
    ⟨List.mem_cons_self, rfl⟩
  have hrun : Reaches AnyStep (init st)
      (((init st).alloc 0x9000 1).free ⟨0x9000, 1⟩) :=
    .tail (.tail .refl ⟨_, halloc⟩) ⟨_, hfree⟩
  obtain ⟨hzero, -, -, hsame⟩ := hall _ hrun
  exact ⟨st, _, hinit, hrun, rfl, rfl, hzero, hsame 1 (by simp)⟩

end Heap

end VegaOS
