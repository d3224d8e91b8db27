import VegaOS.Proofs.PmmAlloc
import VegaOS.Proofs.PmmCover

/-!
# Where the bitmap goes, and the size read back afterwards

`init_bitmap` looks for one usable entry that is at least as long as the
bitmap. Nothing follows the loop to ask whether it found one: on a map whose
usable entries are all too short the bitmap stays `NULL` and `pmm_init`
returns as if nothing had happened. Nor does anything ask where the host is in
the direct map: one that starts `VMM_HIGHER_HALF` below `2 ^ 64` puts the
bitmap at 0 again. And where `pmm_init` leaves the pointer, `pmm_alloc` and
`pmm_free` find it ever after.

Where there is a host, carving moves its base up, and the size of the bitmap is
from then on computed from the carved map. That is the same size, with one
exception: a host that the bitmap uses up entirely is left with length zero at
the base of its neighbour, and as the search for the highest entry keeps the
first of two equal bases, the empty entry is the one it finds when that
neighbour is the highest.
-/

namespace VegaOS

open ByteMem

/-! ## What `pmm_init` does to the map -/

theorem unsetUsable_short {size : Word} {es : List MemmapEntry}
    (h : ∀ e ∈ es, ¬ (e.Usable ∧ size ≤ e.length)) (fuel : Nat) (st : Pmm) :
    unsetUsable size fuel es st = .ok st := by
  induction es with
  | nil => rfl
  | cons e rest ih =>
      rw [unsetUsable_miss (h e List.mem_cons_self)]
      exact ih fun e' he' => h e' (List.mem_cons_of_mem e he')

theorem placeBitmap_short {size : Word} {es : List MemmapEntry}
    (h : ∀ e ∈ es, ¬ (e.Usable ∧ size ≤ e.length)) :
    placeBitmap size es = none := by
  induction es with
  | nil => rfl
  | cons e rest ih =>
      rw [placeBitmap_miss (h e List.mem_cons_self),
        ih fun e' he' => h e' (List.mem_cons_of_mem e he')]
      rfl

theorem hostEntry_eq_none {size : Word} {mmap : List MemmapEntry} :
    hostEntry size mmap = none ↔
      ∀ e ∈ mmap, ¬ (e.Usable ∧ size ≤ e.length) := by
  simp [hostEntry]

/-- Without a host nothing at all is done, and no fuel is needed for it. -/
theorem pmmInit_noHost (hhdm : Word) (fuel : Nat) {mmap : List MemmapEntry}
    (mem : Mem) {size : Word} (hsize : getBitmapSize mmap = .ok size)
    (hnone : hostEntry size mmap = none) :
    pmmInit hhdm fuel mmap mem = .ok ⟨mmap, 0, 0, mem, []⟩ := by
  have hshort := hostEntry_eq_none.1 hnone
  have hstate : hostBitmap hhdm size ⟨mmap, 0, 0, mem, []⟩ =
      ⟨mmap, 0, 0, mem, []⟩ := by
    rw [hostBitmap, placeBitmap_short hshort]
  rw [pmmInit_of_size hhdm fuel mem hsize, hstate]
  exact unsetUsable_short hshort fuel _

/-- With a host, the bitmap is at its front and it alone is carved. -/
theorem pmmInit_host {hhdm : Word} {fuel : Nat} {mmap : List MemmapEntry}
    {mem : Mem} {st : Pmm} {size : Word} {host : MemmapEntry}
    (hsize : getBitmapSize mmap = .ok size)
    (hhost : hostEntry size mmap = some host)
    (h : pmmInit hhdm fuel mmap mem = .ok st) :
    ∃ pre post, mmap = pre ++ host :: post ∧
      (∀ e ∈ pre, ¬ (e.Usable ∧ size ≤ e.length)) ∧
      st.bitmap = host.base + hhdm ∧
      st.mmap = pre ++ host.carve size :: post := by
  obtain ⟨size', hsize', hloop⟩ := pmmInit_ok h
  obtain rfl : size = size' := Except.ok.inj (hsize.symm.trans hsize')
  obtain ⟨pre, post, heq, hstate, hmiss⟩ := hostBitmap_of_host hhdm mem hhost
  obtain ⟨bits, hst⟩ := unsetUsable_ok hloop
  rw [hstate] at hst
  refine ⟨pre, post, heq, hmiss, ?_, ?_⟩
  · rw [hst, foldl_unsetFrame_bitmap]
  · rw [hst, foldl_unsetFrame_mmap]

/-! ## Is there always a bitmap? -/

/-- A later call of the manager, with whatever arguments. -/
inductive PmmCall
  | alloc (frames : Word)
  | free (ptr frames : Word)

/-- The state a call leaves behind: `pmm_alloc` stores nothing. -/
def PmmCall.run (st : Pmm) : PmmCall → Pmm
  | .alloc _ => st
  | .free ptr frames => pmmFree st ptr frames

def PmmCall.runAll (st : Pmm) (calls : List PmmCall) : Pmm :=
  calls.foldl PmmCall.run st

theorem PmmCall.run_bitmap (st : Pmm) (c : PmmCall) :
    (c.run st).bitmap = st.bitmap := by
  cases c <;> rfl

/-- No call moves the bitmap. -/
theorem PmmCall.runAll_bitmap (st : Pmm) (calls : List PmmCall) :
    (PmmCall.runAll st calls).bitmap = st.bitmap := by
  induction calls generalizing st with
  | nil => rfl
  | cons c rest ih => exact (ih (c.run st)).trans (c.run_bitmap st)

/-- `pmm_init` panics, or on its return the bitmap has its `get_bitmap_size()`
bytes at the front of one usable entry, the map is the original one with those
bytes taken off that entry, and the pointer the calls of `pmm_alloc` and
`pmm_free` go through is not `NULL`, now and after any of them. -/
def PlacesOrPanics (hhdm : Word) (mmap : List MemmapEntry) : Prop :=
  ∀ fuel mem, 2 ^ 52 < fuel →
    (∃ msg, pmmInit hhdm fuel mmap mem = .error (.panic msg)) ∨
      ∃ st size, pmmInit hhdm fuel mmap mem = .ok st ∧
        getBitmapSize mmap = .ok size ∧
        (∃ pre host post, mmap = pre ++ host :: post ∧ host.Usable ∧
          size ≤ host.length ∧ st.bitmap = host.base + hhdm ∧
          st.mmap = pre ++ host.carve size :: post) ∧
        ∀ calls, (PmmCall.runAll st calls).bitmap ≠ 0

/-- Where `pmm_init` returns, the pointer it leaves is not `NULL`. -/
theorem PlacesOrPanics.returns {hhdm : Word} {mmap : List MemmapEntry}
    (h : PlacesOrPanics hhdm mmap) {fuel : Nat} (hfuel : 2 ^ 52 < fuel)
    {mem : Mem} {st : Pmm} (hrun : pmmInit hhdm fuel mmap mem = .ok st) :
    st.bitmap ≠ 0 := by
  rcases h fuel mem hfuel with ⟨msg, hmsg⟩ | ⟨st', size, hst, -, -, hcalls⟩
  · rw [hrun] at hmsg
    simp at hmsg
  · obtain rfl := Except.ok.inj (hrun.symm.trans hst)
    exact hcalls []

/-- `pmm_init` panics or places the bitmap exactly on the maps on which some
usable entry is as long as the bitmap and the first such entry is not at
address 0 of the direct map, or none is usable. -/
theorem placesOrPanics_iff {hhdm : Word} {mmap : List MemmapEntry}
    (hmap : AlignedMap mmap) :
    PlacesOrPanics hhdm mmap ↔ ∀ size, getBitmapSize mmap = .ok size →
      ∃ host, hostEntry size mmap = some host ∧ host.base + hhdm ≠ 0 := by
  constructor
  · intro hplace size hsize
    have hfuel := Nat.lt_succ_self (2 ^ 52)
    cases hhost : hostEntry size mmap with
    | none =>
        have hrun := pmmInit_noHost hhdm (2 ^ 52 + 1) (fun _ => 0) hsize hhost
        exact absurd rfl (hplace.returns hfuel hrun)
    | some host =>
        obtain ⟨st, hst⟩ :=
          pmmInit_returns hhdm hfuel (fun _ => 0) hmap.paged hsize hhost
        obtain ⟨pre, post, -, -, hbm, -⟩ := pmmInit_host hsize hhost hst
        exact ⟨host, rfl, hbm ▸ hplace.returns hfuel hst⟩
  · intro hroom fuel mem hfuel
    cases hsize : getBitmapSize mmap with
    | error stop =>
        obtain rfl := getBitmapSize_error hsize
        exact Or.inl ⟨_, pmmInit_of_error hhdm fuel mem hsize⟩
    | ok size =>
        obtain ⟨host, hhost, hne⟩ := hroom size hsize
        obtain ⟨st, hst⟩ :=
          pmmInit_returns hhdm hfuel mem hmap.paged hsize hhost
        obtain ⟨-, hu, hlen⟩ := hostEntry_eq_some hhost
        obtain ⟨pre, post, heq, -, hbm, hmm⟩ := pmmInit_host hsize hhost hst
        refine Or.inr ⟨st, size, hst, rfl,
          ⟨pre, host, post, heq, hu, hlen, hbm, hmm⟩, fun calls => ?_⟩
        rwa [PmmCall.runAll_bitmap, hbm]

/-- One usable stretch of 127 MiB has room for its page of bitmap, and the
direct map of the bootloader has it in the higher half. -/
theorem placesOrPanics_127MiB :
    PlacesOrPanics 0xFFFF800000000000 (oneEntry 0x100000 0x7F00000) := by
  have hmap : LimineMap (oneEntry 0x100000 0x7F00000) :=
    limineMap_oneEntry (by simp) (by simp) (by simp) (by simp)
  refine (placesOrPanics_iff hmap.aligned).2 fun size hsize => ?_
  have hval : getBitmapSize (oneEntry 0x100000 0x7F00000) = .ok 0x1000 := rfl
  obtain rfl := Except.ok.inj (hval.symm.trans hsize)
  exact ⟨_, rfl, by simp⟩

/-- One usable page at 256 MiB: the bitmap needs two, `pmm_init` returns with
`bitmap == NULL`, and `pmm_alloc` scans whatever lies from address 0 on. -/
theorem not_placesOrPanics_onePage :
    AlignedMap (oneEntry 0x10000000 0x1000) ∧
      (∀ hhdm fuel mem, ∃ st,
        pmmInit hhdm fuel (oneEntry 0x10000000 0x1000) mem = .ok st ∧
          st.bitmap = 0 ∧ ∀ n, pmmAlloc st n =
            .ok (pmmAlloc.scan mem 0 n (8 * 0x2000) 0 0 0)) ∧
      ∀ hhdm, ¬ PlacesOrPanics hhdm (oneEntry 0x10000000 0x1000) := by
  have hmap : LimineMap (oneEntry 0x10000000 0x1000) :=
    limineMap_oneEntry (by simp) (by simp) (by simp) (by simp)
  have hsize : getBitmapSize (oneEntry 0x10000000 0x1000) = .ok 0x2000 := rfl
  have hnone : hostEntry 0x2000 (oneEntry 0x10000000 0x1000) = none := rfl
  have hrun := fun hhdm fuel mem => pmmInit_noHost hhdm fuel mem hsize hnone
  refine ⟨hmap.aligned,
    fun hhdm fuel mem => ⟨_, hrun hhdm fuel mem, rfl, fun n => rfl⟩,
    fun hhdm hplace => ?_⟩
  exact hplace.returns (Nat.lt_succ_self (2 ^ 52))
    (hrun hhdm (2 ^ 52 + 1) fun _ => 0) rfl

/-! ## The size of the bitmap, before and after -/

/-- After `pmm_init` the bitmap size is computed to be what it was before. -/
def SizeKept (mmap : List MemmapEntry) (size : Word) : Prop :=
  ∀ hhdm fuel mem st, pmmInit hhdm fuel mmap mem = .ok st →
    getBitmapSize st.mmap = .ok size

/-- The highest usable entry starts right where `host` ends. -/
def TopFollows (mmap : List MemmapEntry) (host : MemmapEntry) : Prop :=
  ∃ top ∈ mmap, top.Usable ∧ top.endNat = usableEnd mmap ∧
    top.base.toNat = host.endNat

section Carved

variable {mmap pre post : List MemmapEntry} {size : Word} {host : MemmapEntry}

/-- A bitmap of at least a page belongs to memory that ends below `2 ^ 64`,
and there no carving wraps. -/
theorem LimineMap.carved_below (hmap : LimineMap mmap)
    (hsize : getBitmapSize mmap = .ok size)
    (hhost : hostEntry size mmap = some host) (hpos : 0 < size.toNat) :
    usableEnd mmap < 2 ^ 64 ∧ size.toNat = bitmapBytes (usableEnd mmap) ∧
      (host.carve size).base.toNat = host.base.toNat + size.toNat ∧
      (host.carve size).endNat = host.endNat := by
  obtain ⟨hmem, hu, hroom⟩ := hostEntry_eq_some hhost
  have hbytes := hmap.toNat_size hsize
  have hend : usableEnd mmap < 2 ^ 64 := by
    rcases Nat.lt_or_eq_of_le hmap.usableEnd_le with hlt | htop
    · exact hlt
    · rw [htop] at hbytes
      exact absurd hbytes (Nat.ne_of_gt hpos)
  have hle := le_usableEnd hmem hu
  have hlen := MemmapEntry.toNat_length_carve hroom
  have hbase : (host.carve size).base.toNat =
      (host.base.toNat + size.toNat) % 2 ^ 64 := BitVec.toNat_add _ _
  rw [BitVec.le_def] at hroom
  rw [Nat.mod_eq_of_lt hend] at hbytes
  simp only [MemmapEntry.endNat] at hle ⊢
  rw [hlen, hbase]
  exact ⟨hend, hbytes, by omega, by omega⟩

/-- No entry is above the host once it is carved: it is the one found. -/
theorem size_of_carved_top (hmap : LimineMap mmap)
    (hsize : getBitmapSize mmap = .ok size)
    (hhost : hostEntry size mmap = some host) (hpos : 0 < size.toNat)
    (heq : mmap = pre ++ host :: post)
    (hback : ∀ e ∈ post, e.Usable → e.base ≤ (host.carve size).base) :
    ∃ size', getBitmapSize (pre ++ host.carve size :: post) = .ok size' ∧
      size'.toNat = bitmapBytes host.endNat := by
  obtain ⟨hend, -, hbase, hcarved⟩ := hmap.carved_below hsize hhost hpos
  obtain ⟨hmem, hu, -⟩ := hostEntry_eq_some hhost
  have hord := hmap.aligned.ordered
  rw [heq, List.pairwise_append] at hord
  have hfront : ∀ e ∈ pre, e.Usable → e.base < (host.carve size).base := by
    intro e he hue
    have hbefore := hord.2.2 e he host List.mem_cons_self hue hu
      (hmap.nonempty host hmem hu)
    have hlen := hmap.nonempty e (mem_of_side heq (Or.inl he)) hue
    rw [MemmapEntry.endNat] at hbefore
    rw [BitVec.lt_def, hbase]
    omega
  have huc : (host.carve size).Usable := hu
  obtain ⟨size', hsize', hbytes⟩ :=
    getBitmapSize_of_highest (findHighestMmapEntry_eq huc hfront hback)
  have hle := le_usableEnd hmem hu
  rw [hcarved, Nat.mod_eq_of_lt (by omega)] at hbytes
  exact ⟨size', hsize', hbytes⟩

/-- Some entry is above the host once it is carved: the highest entry is the
one it was. -/
theorem size_of_carved_low (hmap : LimineMap mmap)
    (hsize : getBitmapSize mmap = .ok size)
    (hhost : hostEntry size mmap = some host) (hpos : 0 < size.toNat)
    (heq : mmap = pre ++ host :: post) {e : MemmapEntry} (he : e ∈ post)
    (hue : e.Usable) (hlow : (host.carve size).base < e.base) :
    getBitmapSize (pre ++ host.carve size :: post) = .ok size := by
  obtain ⟨hend, hbytes, hbase, -⟩ := hmap.carved_below hsize hhost hpos
  have hmem' : e ∈ pre ++ host.carve size :: post :=
    List.mem_append_right _ (List.mem_cons_of_mem _ he)
  obtain ⟨size', hsize'⟩ := exists_getBitmapSize hmem' hue
  obtain ⟨top, htop, hut, hmax, hbytes'⟩ := getBitmapSize_ok hsize'
  have hside : top ∈ pre ∨ top ∈ post := by
    rcases mem_carved htop with rfl | hside
    · have := hmax e hmem' hue
      bv_omega
    · exact hside
  have hhighest : ∀ e' ∈ mmap, e'.Usable → e'.base ≤ top.base := by
    intro e' he' hu'
    rw [heq] at he'
    rcases mem_carved he' with rfl | hside'
    · have habove := hmax e hmem' hue
      rw [BitVec.lt_def, hbase] at hlow
      rw [BitVec.le_def] at habove ⊢
      omega
    · exact hmax e' (mem_of_side rfl hside') hu'
  have htopend := hmap.endNat_highest (mem_of_side heq hside) hut hhighest
  rw [htopend, Nat.mod_eq_of_lt hend, ← hbytes] at hbytes'
  rw [hsize', BitVec.eq_of_toNat_eq hbytes']

/-- What the entry above a carved host excludes. -/
theorem not_topFollows (hmap : LimineMap mmap) {e : MemmapEntry}
    (he : e ∈ mmap) (hue : e.Usable) (hlow : host.endNat < e.base.toNat) :
    ¬ TopFollows mmap host := by
  intro ⟨top, htop, hut, hend, hbase⟩
  have hlen := hmap.nonempty e he hue
  have hle := le_usableEnd he hue
  have hsame : top = e := by
    refine hmap.apart htop he hut hue (x := e.base.toNat)
      ⟨by omega, ?_⟩ ⟨Nat.le_refl _, ?_⟩
    · rw [hend]
      rw [MemmapEntry.endNat] at hle
      omega
    · rw [MemmapEntry.endNat]
      omega
  rw [hsame] at hbase
  omega

/-- The size read back from the carved map. -/
theorem carved_size_iff (hmap : LimineMap mmap)
    (hsize : getBitmapSize mmap = .ok size)
    (hhost : hostEntry size mmap = some host)
    (heq : mmap = pre ++ host :: post) :
    getBitmapSize (pre ++ host.carve size :: post) = .ok size ↔
      (host.length = size → TopFollows mmap host →
        bitmapBytes host.endNat = bitmapBytes (usableEnd mmap)) := by
  obtain ⟨hmem, hu, hroom⟩ := hostEntry_eq_some hhost
  have hlen := hmap.nonempty host hmem hu
  rcases Nat.eq_zero_or_pos size.toNat with hzero | hpos
  · -- a bitmap of no bytes: nothing is carved
    have hs0 : size = 0 := BitVec.eq_of_toNat_eq hzero
    refine iff_of_true ?_ (fun hfull => ?_)
    · rw [hs0, carve_zero, ← heq, hsize, hs0]
    · rw [hfull] at hlen
      omega
  obtain ⟨-, hbytes, hbase, -⟩ := hmap.carved_below hsize hhost hpos
  have hord := hmap.aligned.ordered
  rw [heq, List.pairwise_append, List.pairwise_cons] at hord
  have hafter : ∀ e ∈ post, e.Usable → host.endNat ≤ e.base.toNat :=
    fun e he hue => hord.2.1.1 e he hu hue
      (hmap.nonempty e (mem_of_side heq (Or.inr he)) hue)
  rw [BitVec.le_def] at hroom
  by_cases habove : ∃ e ∈ post, e.Usable ∧ (host.carve size).base < e.base
  · obtain ⟨e, he, hue, hlow⟩ := habove
    refine iff_of_true
      (size_of_carved_low hmap hsize hhost hpos heq he hue hlow) ?_
    intro hfull htop
    rw [BitVec.lt_def, hbase, ← hfull] at hlow
    exact absurd htop
      (not_topFollows hmap (mem_of_side heq (Or.inr he)) hue hlow)
  · have hback : ∀ e ∈ post, e.Usable → e.base ≤ (host.carve size).base := by
      intro e he hue
      by_contra hlow
      exact habove ⟨e, he, hue, by bv_omega⟩
    obtain ⟨size', hsize', hbytes'⟩ :=
      size_of_carved_top hmap hsize hhost hpos heq hback
    rw [hsize', Except.ok.injEq, ← BitVec.toNat_inj, hbytes', hbytes]
    refine ⟨fun h _ _ => h, fun h => ?_⟩
    by_cases hlast : ∃ e ∈ post, e.Usable
    · -- the entries behind the host all start where it is used up
      obtain ⟨e, he, hue⟩ := hlast
      have hmem' := mem_of_side heq (Or.inr he)
      have hlow := hafter e he hue
      have hhigh := hback e he hue
      rw [BitVec.le_def, hbase] at hhigh
      rw [MemmapEntry.endNat] at hlow
      have hfull : host.length = size := BitVec.eq_of_toNat_eq (by omega)
      refine h hfull ⟨e, hmem', hue, ?_, ?_⟩
      · refine hmap.endNat_highest hmem' hue fun e' he' hue' => ?_
        rw [BitVec.le_def]
        rw [heq] at he'
        rcases mem_carved he' with rfl | hpre | hpost
        · omega
        · have := hord.2.2 e' hpre host List.mem_cons_self hue' hu hlen
          rw [MemmapEntry.endNat] at this
          omega
        · have := hback e' hpost hue'
          rw [BitVec.le_def, hbase] at this
          omega
      · rw [MemmapEntry.endNat]
        omega
    · -- the host is the highest entry itself
      refine congrArg _ (hmap.endNat_highest hmem hu fun e' he' hue' => ?_)
      rw [heq] at he'
      rcases mem_carved he' with rfl | hpre | hpost
      · exact BitVec.le_refl _
      · have := hord.2.2 e' hpre host List.mem_cons_self hue' hu hlen
        rw [MemmapEntry.endNat] at this
        rw [BitVec.le_def]
        omega
      · exact absurd ⟨e', hpost, hue'⟩ hlast

end Carved

/-- The size of the bitmap survives its own placement except where it uses up
its host, the highest usable entry follows right behind, and that entry is
what the size was for. -/
theorem sizeKept_iff {mmap : List MemmapEntry} {size : Word}
    (hmap : LimineMap mmap) (hsize : getBitmapSize mmap = .ok size) :
    SizeKept mmap size ↔ ∀ host, hostEntry size mmap = some host →
      host.length = size → TopFollows mmap host →
        bitmapBytes host.endNat = bitmapBytes (usableEnd mmap) := by
  constructor
  · intro hkept host hhost
    obtain ⟨st, hst⟩ := pmmInit_returns 0 (Nat.lt_succ_self (2 ^ 52))
      (fun _ => 0) hmap.paged hsize hhost
    obtain ⟨pre, post, heq, -, -, hmm⟩ := pmmInit_host hsize hhost hst
    have hsame := hkept _ _ _ st hst
    rw [hmm] at hsame
    exact (carved_size_iff hmap hsize hhost heq).1 hsame
  · intro hcond hhdm fuel mem st hst
    cases hhost : hostEntry size mmap with
    | none =>
        rw [pmmInit_noHost hhdm fuel mem hsize hhost] at hst
        rw [← Except.ok.inj hst]
        exact hsize
    | some host =>
        obtain ⟨pre, post, heq, -, -, hmm⟩ := pmmInit_host hsize hhost hst
        rw [hmm]
        exact (carved_size_iff hmap hsize hhost heq).2 (hcond host hhost)

/-- The one entry hosts the bitmap and is the highest itself. -/
theorem sizeKept_127MiB : SizeKept (oneEntry 0x100000 0x7F00000) 0x1000 := by
  have hmap : LimineMap (oneEntry 0x100000 0x7F00000) :=
    limineMap_oneEntry (by simp) (by simp) (by simp) (by simp)
  have hsize : getBitmapSize (oneEntry 0x100000 0x7F00000) = .ok 0x1000 := rfl
  refine (sizeKept_iff hmap hsize).2 fun host hhost hfull => ?_
  have hval : hostEntry 0x1000 (oneEntry 0x100000 0x7F00000) =
      some ⟨0x100000, 0x7F00000, LIMINE_MEMMAP_USABLE⟩ := rfl
  obtain rfl := Option.some.inj (hval.symm.trans hhost)
  simp at hfull

/-- Two usable pages with the rest of 256 MiB right behind. -/
def twoPagesBelow : List MemmapEntry :=
  [⟨0x100000, 0x2000, LIMINE_MEMMAP_USABLE⟩,
    ⟨0x102000, 0xFEFE000, LIMINE_MEMMAP_USABLE⟩]

theorem limineMap_twoPagesBelow : LimineMap twoPagesBelow := by
  refine ⟨by simp [twoPagesBelow], ?_, ?_, ?_⟩
  · simp [twoPagesBelow]
  · intro e he _
    simp only [twoPagesBelow, List.mem_cons, List.not_mem_nil, or_false] at he
    rcases he with rfl | rfl
    · exact ⟨by simp, by simp, by simp [MemmapEntry.endNat]⟩
    · exact ⟨by simp, by simp, by simp [MemmapEntry.endNat]⟩
  · simp only [twoPagesBelow, List.pairwise_cons, List.mem_singleton,
      MemmapEntry.Contains, MemmapEntry.endNat]
    refine ⟨?_, by simp⟩
    intro e he _ _ x hx
    subst he
    simp at hx
    omega

/-- The bitmap of two pages uses up the two pages; from then on its size is
one page, and the upper half of its bits is never looked at. -/
theorem not_sizeKept_twoPagesBelow :
    LimineMap twoPagesBelow ∧ getBitmapSize twoPagesBelow = .ok 0x2000 ∧
      (∃ st, pmmInit 0 (2 ^ 52 + 1) twoPagesBelow (fun _ => 0) = .ok st ∧
        getBitmapSize st.mmap = .ok 0x1000) ∧
      ¬ SizeKept twoPagesBelow 0x2000 := by
  have hsize : getBitmapSize twoPagesBelow = .ok 0x2000 := rfl
  have hhost : hostEntry 0x2000 twoPagesBelow =
      some ⟨0x100000, 0x2000, LIMINE_MEMMAP_USABLE⟩ := rfl
  obtain ⟨st, hst⟩ := pmmInit_returns 0 (Nat.lt_succ_self (2 ^ 52))
    (fun _ => 0) limineMap_twoPagesBelow.paged hsize hhost
  have hnew : getBitmapSize st.mmap = .ok 0x1000 := by
    obtain ⟨pre, post, heq, hmiss, -, hmm⟩ := pmmInit_host hsize hhost hst
    cases pre with
    | nil =>
        obtain ⟨_, rfl⟩ := List.cons.inj heq
        rw [hmm]
        rfl
    | cons e pre =>
        obtain ⟨rfl, _⟩ := List.cons.inj heq
        exact absurd ⟨rfl, BitVec.le_refl _⟩ (hmiss _ List.mem_cons_self)
  refine ⟨limineMap_twoPagesBelow, hsize, ⟨st, hst, hnew⟩, fun hkept => ?_⟩
  have hold := hkept _ _ _ st hst
  rw [hnew] at hold
  simp at hold

end VegaOS
