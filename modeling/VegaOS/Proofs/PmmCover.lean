import VegaOS.Proofs.PmmInit

/-!
# Is the bitmap big enough, and does it miss anything?

Two questions about `pmm_init`, and for both the answer is a condition on the
memory map.

The size is computed with two truncating divisions, so the rounding up to a
page hides the loss except where the frame count is at most seven past a
multiple of 32768: there the last frames have no bit in the bitmap.

The second loop skips entries shorter than the bitmap. An entry that was
shorter all along is lost, and so is what is left of the host when the carving
leaves less than another bitmap's worth. And a frame that has no bit is lost
whatever the loop does about it, unless it is the bitmap's own.
-/

namespace VegaOS

open ByteMem

/-! ## Every frame has a bit -/

/-- Every usable frame has its bit in the bitmap, so that whatever
`init_bitmap` unsets is inside the storage it filled with ones. -/
def BitmapCovers (mmap : List MemmapEntry) (size : Word) : Prop :=
  (∀ f, UsableFrame mmap f → f < 8 * size.toNat) ∧
    ∀ hhdm fuel mem st, pmmInit hhdm fuel mmap mem = .ok st →
      ∀ b ∈ st.unset, Span st.bitmap size.toNat (st.bitmap + b / 8)

theorem UsableFrame.lt_end {mmap : List MemmapEntry} {f : ℕ}
    (h : UsableFrame mmap f) : 4096 * (f + 1) ≤ usableEnd mmap := by
  obtain ⟨e, he, hu, -, hend⟩ := h
  exact Nat.le_trans hend (le_usableEnd he hu)

theorem LimineMap.usableEnd_le {mmap : List MemmapEntry}
    (h : LimineMap mmap) : usableEnd mmap ≤ 2 ^ 64 :=
  VegaOS.usableEnd_le fun e he hu => (h.paged e he hu).end_le

/-- The last usable frame. -/
theorem LimineMap.usableFrame_last {mmap : List MemmapEntry}
    (h : LimineMap mmap) {e : MemmapEntry} (he : e ∈ mmap) (hu : e.Usable) :
    UsableFrame mmap (usableEnd mmap / 4096 - 1) ∧
      usableEnd mmap % 4096 = 0 ∧ 0 < usableEnd mmap := by
  obtain ⟨size, hsize⟩ := exists_getBitmapSize he hu
  obtain ⟨top, htop, hut, hmax, -⟩ := getBitmapSize_ok hsize
  have hend := h.endNat_highest htop hut hmax
  have hlen := h.nonempty top htop hut
  have hb := (h.paged top htop hut).base_mod
  have hl := (h.paged top htop hut).length_mod
  rw [← hend]
  simp only [MemmapEntry.endNat]
  refine ⟨⟨top, htop, hut, ?_⟩, by omega, by omega⟩
  simp only [MemmapEntry.HoldsFrame, MemmapEntry.endNat]
  omega

theorem MemmapEntry.HoldsFrame.contains {e : MemmapEntry} {f : ℕ}
    (h : e.HoldsFrame f) : e.Contains (4096 * f) := by
  have := h.2
  exact ⟨h.1, by omega⟩

/-- The storage is inside the host. -/
theorem Reserved.contains {host : MemmapEntry} {size : Word} {f : ℕ}
    (h : Reserved host size f) (hroom : size ≤ host.length) :
    host.Contains (4096 * f) := by
  have := h.2
  rw [BitVec.le_def] at hroom
  refine ⟨h.1, ?_⟩
  rw [MemmapEntry.endNat]
  omega

/-- A released bit belongs to a frame that was usable to begin with. -/
theorem Booted.usableFrame {hhdm : Word} {mmap : List MemmapEntry} {mem : Mem}
    {size : Word} {host : MemmapEntry} {st : Pmm} (hmap : AlignedMap mmap)
    (hhost : hostEntry size mmap = some host)
    (h : Booted hhdm mmap mem size host st) {b : Word}
    (hb : b ∈ framesToUnset size st.mmap) :
    UsableFrame mmap b.toNat ∧ ¬ Reserved host size b.toNat := by
  obtain ⟨hmem, hu, hroom⟩ := hostEntry_eq_some hhost
  obtain ⟨pre, post, heq, hcarved⟩ := h.carved
  obtain ⟨e, he, hue, hlen, hf⟩ := (h.mem_unset b).1 hb
  have hhostPaged := hmap.paged host hmem hu
  rw [hcarved] at he
  rcases mem_carved he with rfl | hside
  · obtain ⟨hhold, hpast⟩ :=
      (MemmapEntry.carve_holdsFrame hhostPaged hroom _).1 hf
    refine ⟨⟨host, hmem, hu, hhold⟩, fun hres => ?_⟩
    have := hres.2
    omega
  · refine ⟨⟨e, mem_of_side heq hside, hue, hf⟩, fun hres => ?_⟩
    exact hmap.apart_host hu heq hside hue hf.contains (hres.contains hroom)

theorem hostEntry_of_room {mmap : List MemmapEntry} {size : Word}
    (h : ∃ e ∈ mmap, e.Usable ∧ size ≤ e.length) :
    ∃ host, hostEntry size mmap = some host := by
  obtain ⟨e, he, hc⟩ := h
  have hsome : (hostEntry size mmap).isSome :=
    List.find?_isSome.2 ⟨e, he, by simpa using hc⟩
  exact Option.isSome_iff_exists.1 hsome

theorem span_of_lt_size {bitmap size b : Word} (h : b.toNat / 8 < size.toNat) :
    Span bitmap size.toNat (bitmap + b / 8) := by
  have hspan := span_add bitmap h (Nat.le_of_lt size.isLt)
  rwa [← toNat_div_eight, BitVec.ofNat_toNat, BitVec.setWidth_eq] at hspan

/-- If every usable frame has a bit, no store of `init_bitmap` leaves the
storage. -/
theorem span_of_covered {hhdm : Word} {fuel : Nat} {mmap : List MemmapEntry}
    {mem : Mem} {size : Word} {st : Pmm} (hmap : LimineMap mmap)
    (hsize : getBitmapSize mmap = .ok size)
    (hroom : ∃ e ∈ mmap, e.Usable ∧ size ≤ e.length)
    (hcover : ∀ f, UsableFrame mmap f → f < 8 * size.toNat)
    (h : pmmInit hhdm fuel mmap mem = .ok st) {b : Word} (hb : b ∈ st.unset) :
    Span st.bitmap size.toNat (st.bitmap + b / 8) := by
  obtain ⟨host, hhost⟩ := hostEntry_of_room hroom
  have hboot := booted hmap.paged hsize hhost h
  rw [hboot.unset_eq, List.mem_reverse] at hb
  have := hcover _ (hboot.usableFrame hmap.aligned hhost hb).1
  exact span_of_lt_size (by omega)

/-- Every usable frame has a bit exactly when the last one has. -/
theorem covered_iff {mmap : List MemmapEntry} {size : Word}
    (hmap : LimineMap mmap) (hsize : getBitmapSize mmap = .ok size)
    {e : MemmapEntry} (he : e ∈ mmap) (hu : e.Usable) :
    (∀ f, UsableFrame mmap f → f < 8 * size.toNat) ↔
      usableEnd mmap < 2 ^ 64 ∧
        ¬ (1 ≤ usableEnd mmap / 4096 % 32768 ∧
          usableEnd mmap / 4096 % 32768 ≤ 7) := by
  obtain ⟨hlast, hmod, hpos⟩ := hmap.usableFrame_last he hu
  have hle := hmap.usableEnd_le
  have hbytes := hmap.toNat_size hsize
  rw [bitmapBytes] at hbytes
  constructor
  · intro hcover
    have := hcover _ hlast
    omega
  · rintro ⟨hlt, hrem⟩ f hf
    have := hf.lt_end
    omega

/-- The bitmap is big enough exactly when memory does not end one to seven
frames past a multiple of 32768 frames, nor at the very top of the address
space. -/
theorem bitmapCovers_iff {mmap : List MemmapEntry} {size : Word}
    (hmap : LimineMap mmap) (hsize : getBitmapSize mmap = .ok size)
    (hroom : ∃ e ∈ mmap, e.Usable ∧ size ≤ e.length) :
    BitmapCovers mmap size ↔
      usableEnd mmap < 2 ^ 64 ∧
        ¬ (1 ≤ usableEnd mmap / 4096 % 32768 ∧
          usableEnd mmap / 4096 % 32768 ≤ 7) := by
  obtain ⟨e, he, hu, hlen⟩ := hroom
  rw [← covered_iff hmap hsize he hu]
  refine ⟨And.left, fun hcover => ⟨hcover, fun hhdm fuel mem st h b hb => ?_⟩⟩
  exact span_of_covered hmap hsize ⟨e, he, hu, hlen⟩ hcover h hb

/-- A machine with one stretch of usable memory. -/
def oneEntry (base length : Word) : List MemmapEntry :=
  [⟨base, length, LIMINE_MEMMAP_USABLE⟩]

theorem limineMap_oneEntry {base length : Word} (hb : base.toNat % 4096 = 0)
    (hl : length.toNat % 4096 = 0) (hpos : 0 < length.toNat)
    (hend : base.toNat + length.toNat ≤ 2 ^ 64) :
    LimineMap (oneEntry base length) := by
  refine ⟨List.pairwise_singleton _ _, ?_, ?_, List.pairwise_singleton _ _⟩
  · intro e he _
    rw [List.mem_singleton.1 he]
    exact hpos
  · intro e he _
    rw [List.mem_singleton.1 he]
    exact ⟨hb, hl, hend⟩

/-- Memory that ends at 128 MiB: 32768 frames and 32768 bits. -/
theorem bitmapCovers_128MiB :
    BitmapCovers (oneEntry 0x100000 0x7F00000) 0x1000 :=
  (bitmapCovers_iff (limineMap_oneEntry (by decide) (by decide) (by decide)
    (by decide)) rfl ⟨_, List.mem_singleton_self _, rfl, by decide⟩).2
    (by decide)

/-- Three frames more, and still 32768 bits: the usable frame 32768 has none. -/
theorem not_bitmapCovers_three_frames_past_128MiB :
    LimineMap (oneEntry 0x100000 0x7F03000) ∧
      getBitmapSize (oneEntry 0x100000 0x7F03000) = .ok 0x1000 ∧
      (∃ e ∈ oneEntry 0x100000 0x7F03000, e.Usable ∧ 0x1000 ≤ e.length) ∧
      ¬ BitmapCovers (oneEntry 0x100000 0x7F03000) 0x1000 := by
  refine ⟨limineMap_oneEntry (by decide) (by decide) (by decide) (by decide),
    rfl, ⟨_, List.mem_singleton_self _, rfl, by decide⟩, ?_⟩
  intro hcover
  have hframe : UsableFrame (oneEntry 0x100000 0x7F03000) 32768 :=
    ⟨_, List.mem_singleton_self _, rfl, by decide, by decide⟩
  have := hcover.1 32768 hframe
  exact absurd this (by decide)

/-! ## No usable frame is lost -/

/-- After `pmm_init`, whatever memory held before, every usable frame that
does not store the bitmap is free: it has a bit, and the bit is clear. -/
def FreesAllUsable (mmap : List MemmapEntry) (size : Word)
    (host : MemmapEntry) : Prop :=
  ∀ hhdm fuel mem st, pmmInit hhdm fuel mmap mem = .ok st →
    ∀ f, UsableFrame mmap f → ¬ Reserved host size f →
      f < 8 * size.toNat ∧
        bitmapTestBit st.mem st.bitmap (BitVec.ofNat 64 f) = false

theorem UsableFrame.lt {mmap : List MemmapEntry} (hmap : LimineMap mmap)
    {f : ℕ} (h : UsableFrame mmap f) : f < 2 ^ 52 := by
  have := h.lt_end
  have := hmap.usableEnd_le
  omega

section Lost

variable {mmap : List MemmapEntry} {size : Word} {host : MemmapEntry}

/-- Started on memory full of ones, `pmm_init` leaves every bit it does not
unset set; so a usable frame outside the storage that the second loop skips is
a lost one. -/
theorem not_freesAllUsable_of_skipped (hmap : LimineMap mmap)
    (hsize : getBitmapSize mmap = .ok size)
    (hhost : hostEntry size mmap = some host) {f : ℕ}
    (hf : UsableFrame mmap f) (hres : ¬ Reserved host size f)
    (hskip : ∀ pre post, mmap = pre ++ host :: post →
      ∀ e ∈ pre ++ host.carve size :: post, e.Usable → size ≤ e.length →
        ¬ e.HoldsFrame f) : ¬ FreesAllUsable mmap size host := by
  intro hfree
  obtain ⟨st, hst⟩ := pmmInit_returns 0 (Nat.lt_succ_self (2 ^ 52))
    (fun _ => 0xFF) hmap.paged hsize hhost
  have hboot := booted hmap.paged hsize hhost hst
  obtain ⟨-, hclear⟩ := hfree 0 _ _ st hst f hf hres
  have hlt := hf.lt hmap
  have hnat : (BitVec.ofNat 64 f).toNat = f := by
    rw [BitVec.toNat_ofNat]
    omega
  have hones : memset (fun _ => 0xFF) st.bitmap 0xFF size = fun _ => 0xFF := by
    funext x
    rw [memset_apply, ite_self]
  have hbit : bitmapTestBit (fun _ => 0xFF) st.bitmap (BitVec.ofNat 64 f) =
      true := by
    rw [bitmapTestBit_eq_getLsbD]
    have hk : (BitVec.ofNat 64 f).toNat % 8 < 8 := Nat.mod_lt _ (by decide)
    generalize (BitVec.ofNat 64 f).toNat % 8 = k at hk
    revert k
    decide
  rw [hboot.test_eq, hones, hbit, Bool.true_and, decide_eq_false_iff_not,
    not_not, hboot.mem_unset, hnat] at hclear
  obtain ⟨e, he, hu, hlen, hhold⟩ := hclear
  obtain ⟨pre, post, heq, hcarved⟩ := hboot.carved
  rw [hcarved] at he
  exact hskip pre post heq e he hu hlen hhold

/-- A usable entry shorter than the bitmap loses its first frame. -/
theorem not_freesAllUsable_of_short (hmap : LimineMap mmap)
    (hsize : getBitmapSize mmap = .ok size)
    (hhost : hostEntry size mmap = some host) {e : MemmapEntry}
    (he : e ∈ mmap) (hu : e.Usable) (hne : e ≠ host)
    (hshort : ¬ size ≤ e.length) : ¬ FreesAllUsable mmap size host := by
  obtain ⟨hmem, huh, hroom⟩ := hostEntry_eq_some hhost
  have hlen := hmap.nonempty e he hu
  have hb := (hmap.paged e he hu).base_mod
  have hl := (hmap.paged e he hu).length_mod
  have hf : e.HoldsFrame (e.base.toNat / 4096) := by
    simp only [MemmapEntry.HoldsFrame, MemmapEntry.endNat]
    omega
  have hapart : ∀ e' ∈ mmap, e'.Usable →
      e'.Contains (4096 * (e.base.toNat / 4096)) → e' = e :=
    fun e' he' hu' hc => hmap.apart he' he hu' hu hc hf.contains
  refine not_freesAllUsable_of_skipped hmap hsize hhost ⟨e, he, hu, hf⟩
    (fun hres => hne (hapart host hmem huh (hres.contains hroom)).symm) ?_
  intro pre post heq e' he' hu' hlen' hhold
  rcases mem_carved he' with rfl | hside
  · have hh := (MemmapEntry.carve_holdsFrame (hmap.paged host hmem huh)
      hroom _).1 hhold
    exact hne (hapart host hmem huh hh.1.contains).symm
  · have := hapart e' (mem_of_side heq hside) hu' hhold.contains
    exact hshort (this ▸ hlen')

/-- A host left with less than another bitmap's worth loses the first frame
past the storage. -/
theorem not_freesAllUsable_of_remainder (hmap : LimineMap mmap)
    (hsize : getBitmapSize mmap = .ok size)
    (hhost : hostEntry size mmap = some host) (hne : host.length ≠ size)
    (hshort : host.length.toNat < 2 * size.toNat) :
    ¬ FreesAllUsable mmap size host := by
  obtain ⟨hmem, huh, hroom⟩ := hostEntry_eq_some hhost
  have hb := (hmap.paged host hmem huh).base_mod
  have hl := (hmap.paged host hmem huh).length_mod
  have hs := size_mod hsize
  have hlt : size.toNat < host.length.toNat := by
    have hne' : host.length.toNat ≠ size.toNat :=
      fun h => hne (BitVec.eq_of_toNat_eq h)
    rw [BitVec.le_def] at hroom
    omega
  have hf : host.HoldsFrame ((host.base.toNat + size.toNat) / 4096) := by
    simp only [MemmapEntry.HoldsFrame, MemmapEntry.endNat]
    omega
  have hres : ¬ Reserved host size ((host.base.toNat + size.toNat) / 4096) := by
    rintro ⟨-, hhi⟩
    omega
  refine not_freesAllUsable_of_skipped hmap hsize hhost
    ⟨host, hmem, huh, hf⟩ hres ?_
  intro pre post heq e' he' hu' hlen' hhold
  rcases mem_carved he' with rfl | hside
  · rw [BitVec.le_def, MemmapEntry.toNat_length_carve hroom] at hlen'
    omega
  · exact hmap.aligned.apart_host huh heq hside hu' hhold.contains hf.contains

/-- A usable frame outside the storage has a bit, if none is lost. -/
theorem FreesAllUsable.lt (hfree : FreesAllUsable mmap size host)
    (hmap : LimineMap mmap) (hsize : getBitmapSize mmap = .ok size)
    (hhost : hostEntry size mmap = some host) {f : ℕ}
    (hf : UsableFrame mmap f) (hres : ¬ Reserved host size f) :
    f < 8 * size.toNat := by
  obtain ⟨st, hst⟩ := pmmInit_returns 0 (Nat.lt_succ_self (2 ^ 52))
    (fun _ => 0) hmap.paged hsize hhost
  exact (hfree 0 _ _ st hst f hf hres).1

/-- If the storage holds the last usable frame, it is all of the host, and the
host is where usable memory ends. -/
theorem length_eq_of_reserved_last (hmap : LimineMap mmap)
    (hsize : getBitmapSize mmap = .ok size)
    (hhost : hostEntry size mmap = some host)
    (hlast : Reserved host size (usableEnd mmap / 4096 - 1)) :
    host.length = size ∧ host.endNat = usableEnd mmap := by
  obtain ⟨hmem, hu, hroom⟩ := hostEntry_eq_some hhost
  obtain ⟨-, hmod, hpos⟩ := hmap.usableFrame_last hmem hu
  have hb := (hmap.paged host hmem hu).base_mod
  have hs := size_mod hsize
  have hend := le_usableEnd hmem hu
  have hin := hlast.2
  rw [MemmapEntry.endNat] at hend ⊢
  rw [BitVec.le_def] at hroom
  exact ⟨BitVec.eq_of_toNat_eq (by omega), by omega⟩

/-- Where the host is the last usable entry and none is too short for it, no
other entry is usable: the host is the first with room. -/
theorem eq_host_of_last (hmap : LimineMap mmap)
    (hhost : hostEntry size mmap = some host)
    (hlong : ∀ e ∈ mmap, e.Usable → e ≠ host → size ≤ e.length)
    (hend : host.endNat = usableEnd mmap) {e : MemmapEntry} (he : e ∈ mmap)
    (hu : e.Usable) : e = host := by
  by_contra hne
  obtain ⟨-, huh, -⟩ := hostEntry_eq_some hhost
  obtain ⟨pre, post, heq, -, hmiss⟩ := placeBitmap_of_hostEntry hhost
  have hlen := hmap.nonempty e he hu
  have hle := le_usableEnd he hu
  have hord := hmap.aligned.ordered
  rw [heq, List.pairwise_append, List.pairwise_cons] at hord
  have hside := he
  rw [heq] at hside
  rcases mem_carved hside with rfl | hpre | hpost
  · exact hne rfl
  · exact hmiss e hpre ⟨hu, hlong e he hu hne⟩
  · have hafter := hord.2.1.1 e hpost huh hu hlen
    rw [MemmapEntry.endNat] at hle
    omega

/-- Where no entry is too short and every frame has a bit, nothing is lost. -/
theorem freesAllUsable_of_long (hmap : LimineMap mmap)
    (hsize : getBitmapSize mmap = .ok size)
    (hhost : hostEntry size mmap = some host)
    (hlong : ∀ e ∈ mmap, e.Usable → e ≠ host → size ≤ e.length)
    (hleft : host.length = size ∨ 2 * size.toNat ≤ host.length.toNat)
    (hcover : ∀ f, UsableFrame mmap f → f < 8 * size.toNat) :
    FreesAllUsable mmap size host := by
  intro hhdm fuel mem st hst f hf hres
  refine ⟨hcover f hf, ?_⟩
  obtain ⟨hmem, huh, hroom⟩ := hostEntry_eq_some hhost
  have hboot := booted hmap.paged hsize hhost hst
  obtain ⟨pre, post, heq, hcarved⟩ := hboot.carved
  have hnat : (BitVec.ofNat 64 f).toNat = f := by
    have := hf.lt hmap
    rw [BitVec.toNat_ofNat]
    omega
  suffices hun : BitVec.ofNat 64 f ∈ framesToUnset size st.mmap by
    rw [hboot.test_eq, decide_eq_false (not_not.2 hun), Bool.and_false]
  rw [hboot.mem_unset, hnat, hcarved]
  obtain ⟨e, he, hu, hhold⟩ := hf
  by_cases hh : e = host
  · -- past the storage, so in what is left of the host
    subst hh
    have hpast : e.base.toNat + size.toNat ≤ 4096 * f := by
      have hlo := hhold.1
      have : ¬ 4096 * f < e.base.toNat + size.toNat := fun h => hres ⟨hlo, h⟩
      omega
    refine ⟨e.carve size, by simp, hu, ?_,
      (MemmapEntry.carve_holdsFrame (hmap.paged e he hu) hroom f).2
        ⟨hhold, hpast⟩⟩
    have hend := hhold.2
    rw [BitVec.le_def, MemmapEntry.toNat_length_carve hroom]
    rcases hleft with heq' | htwice
    · rw [MemmapEntry.endNat, heq'] at hend
      omega
    · omega
  · refine ⟨e, ?_, hu, hlong e he hu hh, hhold⟩
    rw [heq] at he
    rcases mem_carved he with hhost' | hside
    · exact absurd hhost' hh
    · exact mem_of_side rfl hside

/-- Where the bitmap is all there is of usable memory, nothing can be lost. -/
theorem freesAllUsable_of_only (hlen : host.length = size)
    (honly : ∀ e ∈ mmap, e.Usable → e = host) :
    FreesAllUsable mmap size host := by
  intro hhdm fuel mem st _ f hf hres
  obtain ⟨e, he, hu, hlo, hhi⟩ := hf
  obtain rfl := honly e he hu
  refine absurd ⟨hlo, ?_⟩ hres
  rw [MemmapEntry.endNat, hlen] at hhi
  omega

/-- No usable memory is lost exactly when every other usable entry is at least
as long as the bitmap, the host is used up by the bitmap or keeps at least as
much again, and every frame has a bit; the last is not asked where the bitmap
takes all the usable memory there is. -/
theorem freesAllUsable_iff (hmap : LimineMap mmap)
    (hsize : getBitmapSize mmap = .ok size)
    (hhost : hostEntry size mmap = some host) :
    FreesAllUsable mmap size host ↔
      (∀ e ∈ mmap, e.Usable → e ≠ host → size ≤ e.length) ∧
        ((host.length = size ∧ ∀ e ∈ mmap, e.Usable → e = host) ∨
          (host.length = size ∨ 2 * size.toNat ≤ host.length.toNat) ∧
            usableEnd mmap < 2 ^ 64 ∧
            ¬ (1 ≤ usableEnd mmap / 4096 % 32768 ∧
              usableEnd mmap / 4096 % 32768 ≤ 7)) := by
  obtain ⟨hmem, hu, -⟩ := hostEntry_eq_some hhost
  rw [← covered_iff hmap hsize hmem hu]
  constructor
  · intro hfree
    have hlong : ∀ e ∈ mmap, e.Usable → e ≠ host → size ≤ e.length := by
      intro e he hue hne
      by_contra hshort
      exact not_freesAllUsable_of_short hmap hsize hhost he hue hne hshort hfree
    have hleft : host.length = size ∨
        2 * size.toNat ≤ host.length.toNat := by
      by_contra hno
      obtain ⟨hne, hshort⟩ := not_or.1 hno
      exact not_freesAllUsable_of_remainder hmap hsize hhost hne (by omega)
        hfree
    refine ⟨hlong, ?_⟩
    obtain ⟨hframe, -, -⟩ := hmap.usableFrame_last hmem hu
    by_cases hlast : Reserved host size (usableEnd mmap / 4096 - 1)
    · obtain ⟨hlen, hend⟩ :=
        length_eq_of_reserved_last hmap hsize hhost hlast
      exact Or.inl ⟨hlen, fun e he hue =>
        eq_host_of_last hmap hhost hlong hend he hue⟩
    · -- the last usable frame has a bit, so all that are below it have one
      have hlt := hfree.lt hmap hsize hhost hframe hlast
      refine Or.inr ⟨hleft, fun f hf => ?_⟩
      have := hf.lt_end
      omega
  · rintro ⟨hlong, ⟨hlen, honly⟩ | ⟨hleft, hcover⟩⟩
    · exact freesAllUsable_of_only hlen honly
    · exact freesAllUsable_of_long hmap hsize hhost hlong hleft hcover

/-- 127 MiB of usable memory, a page of it bitmap: all the rest is free. -/
theorem freesAllUsable_127MiB :
    FreesAllUsable (oneEntry 0x100000 0x7F00000) 0x1000
      ⟨0x100000, 0x7F00000, LIMINE_MEMMAP_USABLE⟩ :=
  (freesAllUsable_iff (limineMap_oneEntry (by decide) (by decide) (by decide)
    (by decide)) rfl rfl).2
    ⟨fun _ he _ hne => absurd (List.mem_singleton.1 he) hne,
      Or.inr ⟨Or.inr (by decide), by decide⟩⟩

end Lost

/-- Three usable pages that end at 256 MiB: two of them hold the bitmap, and
the one that is left is too short for the second loop. -/
theorem not_freesAllUsable_last_page :
    LimineMap (oneEntry 0xFFFD000 0x3000) ∧
      getBitmapSize (oneEntry 0xFFFD000 0x3000) = .ok 0x2000 ∧
      hostEntry 0x2000 (oneEntry 0xFFFD000 0x3000) =
        some ⟨0xFFFD000, 0x3000, LIMINE_MEMMAP_USABLE⟩ ∧
      ¬ FreesAllUsable (oneEntry 0xFFFD000 0x3000) 0x2000
        ⟨0xFFFD000, 0x3000, LIMINE_MEMMAP_USABLE⟩ := by
  have hmap : LimineMap (oneEntry 0xFFFD000 0x3000) :=
    limineMap_oneEntry (by decide) (by decide) (by decide) (by decide)
  exact ⟨hmap, rfl, rfl,
    not_freesAllUsable_of_remainder hmap rfl rfl (by decide) (by decide)⟩

end VegaOS
