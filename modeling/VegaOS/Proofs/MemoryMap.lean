import VegaOS.Src.Pmm
import Mathlib.Data.List.Pairwise

/-!
# The memory map and the size of the bitmap

What the bootloader promises of its memory map, and what `pmm.c` reads off it
before it touches a single bit. `find_highest_mmap_entry` compares bases only,
so on a map of disjoint entries it finds the entry with the highest end; the
bitmap size is that end divided down to bytes of bitmap and rounded up to a
page, and both divisions truncate. The 64-bit sum `base + length` is exact
unless the highest entry ends at `2 ^ 64`, where it wraps to zero.
-/

namespace VegaOS

open ByteMem

namespace MemmapEntry

def Usable (e : MemmapEntry) : Prop := e.type = LIMINE_MEMMAP_USABLE

instance (e : MemmapEntry) : Decidable e.Usable :=
  inferInstanceAs (Decidable (_ = _))

/-- The first address past the entry, not reduced modulo `2 ^ 64`. -/
def endNat (e : MemmapEntry) : ℕ := e.base.toNat + e.length.toNat

/-- The byte at address `x` belongs to the entry. -/
def Contains (e : MemmapEntry) (x : ℕ) : Prop :=
  e.base.toNat ≤ x ∧ x < e.endNat

/-- Page frame `f` lies inside the entry. -/
def HoldsFrame (e : MemmapEntry) (f : ℕ) : Prop :=
  e.base.toNat ≤ 4096 * f ∧ 4096 * (f + 1) ≤ e.endNat

/-- A page-aligned range of physical addresses. -/
structure Paged (e : MemmapEntry) : Prop where
  base_mod : e.base.toNat % 4096 = 0
  length_mod : e.length.toNat % 4096 = 0
  end_le : e.endNat ≤ 2 ^ 64

end MemmapEntry

/-- The memory maps the bootloader reports: sorted by base, and the usable
entries non-empty, page-aligned and disjoint. -/
structure LimineMap (mmap : List MemmapEntry) : Prop where
  sorted : mmap.Pairwise fun a b => a.base ≤ b.base
  nonempty : ∀ e ∈ mmap, e.Usable → 0 < e.length.toNat
  paged : ∀ e ∈ mmap, e.Usable → e.Paged
  disjoint : mmap.Pairwise fun a b => a.Usable → b.Usable →
    ∀ x, ¬ (a.Contains x ∧ b.Contains x)

/-- The same without the promise that usable entries are non-empty. -/
structure AlignedMap (mmap : List MemmapEntry) : Prop where
  sorted : mmap.Pairwise fun a b => a.base ≤ b.base
  paged : ∀ e ∈ mmap, e.Usable → e.Paged
  disjoint : mmap.Pairwise fun a b => a.Usable → b.Usable →
    ∀ x, ¬ (a.Contains x ∧ b.Contains x)

theorem LimineMap.aligned {mmap : List MemmapEntry} (h : LimineMap mmap) :
    AlignedMap mmap := ⟨h.sorted, h.paged, h.disjoint⟩

/-- Frame `f` is usable memory. -/
def UsableFrame (mmap : List MemmapEntry) (f : ℕ) : Prop :=
  ∃ e ∈ mmap, e.Usable ∧ e.HoldsFrame f

/-- Where usable memory ends. -/
def usableEnd : List MemmapEntry → ℕ
  | [] => 0
  | e :: rest =>
      if e.Usable then max e.endNat (usableEnd rest) else usableEnd rest

/-- Distinct usable entries share no address. -/
theorem LimineMap.apart {mmap : List MemmapEntry} (h : LimineMap mmap)
    {a b : MemmapEntry} (ha : a ∈ mmap) (hb : b ∈ mmap) (hua : a.Usable)
    (hub : b.Usable) {x : ℕ} (hxa : a.Contains x) (hxb : b.Contains x) :
    a = b := by
  by_contra hne
  have hsymm : Std.Symm fun a b : MemmapEntry => a.Usable → b.Usable →
      ∀ x, ¬ (a.Contains x ∧ b.Contains x) :=
    ⟨fun a b hab hb ha x hx => hab ha hb x hx.symm⟩
  exact h.disjoint.forall ha hb hne hua hub x ⟨hxa, hxb⟩

/-- An entry ends before the next non-empty one starts. -/
theorem AlignedMap.ordered {mmap : List MemmapEntry} (h : AlignedMap mmap) :
    mmap.Pairwise fun a b => a.Usable → b.Usable → 0 < b.length.toNat →
      a.endNat ≤ b.base.toNat := by
  refine List.Pairwise.imp ?_ (h.sorted.and h.disjoint)
  intro a b ⟨hle, hdisj⟩ hua hub hlen
  by_contra hlt
  rw [BitVec.le_def] at hle
  refine hdisj hua hub b.base.toNat ⟨⟨hle, by omega⟩, Nat.le_refl _, ?_⟩
  rw [MemmapEntry.endNat]
  omega

/-! ## The highest entry -/

theorem le_usableEnd {mmap : List MemmapEntry} {e : MemmapEntry}
    (he : e ∈ mmap) (hu : e.Usable) : e.endNat ≤ usableEnd mmap := by
  induction mmap with
  | nil => cases he
  | cons a rest ih =>
      rw [usableEnd]
      rcases List.mem_cons.1 he with rfl | hmem
      · rw [if_pos hu]
        exact Nat.le_max_left _ _
      · have := ih hmem
        split
        · exact Nat.le_trans this (Nat.le_max_right _ _)
        · exact this

theorem usableEnd_le {mmap : List MemmapEntry} {N : ℕ}
    (h : ∀ e ∈ mmap, e.Usable → e.endNat ≤ N) : usableEnd mmap ≤ N := by
  induction mmap with
  | nil => exact Nat.zero_le N
  | cons a rest ih =>
      have hrest := ih fun e he => h e (List.mem_cons_of_mem a he)
      rw [usableEnd]
      split
      · rename_i hu
        exact Nat.max_le.2 ⟨h a List.mem_cons_self hu, hrest⟩
      · exact hrest

/-- What the accumulator of `find_highest_mmap_entry` holds once the entries
`seen` are behind it. -/
def Highest (seen : List MemmapEntry) : Option MemmapEntry → Prop
  | none => ∀ e ∈ seen, ¬ e.Usable
  | some e => e ∈ seen ∧ e.Usable ∧ ∀ e' ∈ seen, e'.Usable → e'.base ≤ e.base

theorem highest_step {seen : List MemmapEntry} {acc : Option MemmapEntry}
    (h : Highest seen acc) (e : MemmapEntry) :
    Highest (seen ++ [e]) (higherEntry acc e) := by
  unfold higherEntry
  by_cases hu : e.type = LIMINE_MEMMAP_USABLE
  · rw [if_neg (not_not.2 hu)]
    cases acc with
    | none =>
        refine ⟨by simp, hu, fun e' he' hu' => ?_⟩
        rcases List.mem_append.1 he' with hold | hnew
        · exact absurd hu' (h e' hold)
        · rw [List.mem_singleton.1 hnew]
          exact BitVec.le_refl _
    | some a =>
        obtain ⟨hmem, hua, hmax⟩ := h
        simp only []
        split
        · rename_i hgt
          refine ⟨by simp, hu, fun e' he' hu' => ?_⟩
          rcases List.mem_append.1 he' with hold | hnew
          · have := hmax e' hold hu'
            bv_omega
          · rw [List.mem_singleton.1 hnew]
            exact BitVec.le_refl _
        · rename_i hle
          refine ⟨by simp [hmem], hua, fun e' he' hu' => ?_⟩
          rcases List.mem_append.1 he' with hold | hnew
          · exact hmax e' hold hu'
          · rw [List.mem_singleton.1 hnew]
            bv_omega
  · rw [if_pos hu]
    cases acc with
    | none =>
        intro e' he'
        rcases List.mem_append.1 he' with hold | hnew
        · exact h e' hold
        · rwa [List.mem_singleton.1 hnew]
    | some a =>
        obtain ⟨hmem, hua, hmax⟩ := h
        refine ⟨by simp [hmem], hua, fun e' he' hu' => ?_⟩
        rcases List.mem_append.1 he' with hold | hnew
        · exact hmax e' hold hu'
        · rw [List.mem_singleton.1 hnew] at hu'
          exact absurd hu' hu

theorem highest_foldl {seen : List MemmapEntry} {acc : Option MemmapEntry}
    (h : Highest seen acc) (rest : List MemmapEntry) :
    Highest (seen ++ rest) (rest.foldl higherEntry acc) := by
  induction rest generalizing seen acc with
  | nil => simpa using h
  | cons e rest ih =>
      have := ih (highest_step h e)
      rwa [List.append_assoc, List.singleton_append] at this

theorem highest_findHighestMmapEntry (mmap : List MemmapEntry) :
    Highest mmap (findHighestMmapEntry mmap) := by
  have hnil : Highest [] none := fun e he => by cases he
  exact highest_foldl hnil mmap

theorem foldl_higherEntry_low {e : MemmapEntry} {rest : List MemmapEntry}
    (h : ∀ e' ∈ rest, e'.Usable → e'.base ≤ e.base) :
    rest.foldl higherEntry (some e) = some e := by
  induction rest with
  | nil => rfl
  | cons a rest ih =>
      have hstep : higherEntry (some e) a = some e := by
        unfold higherEntry
        split
        · rfl
        · rename_i hu
          have := h a List.mem_cons_self (not_not.1 hu)
          exact if_neg (by bv_omega)
      rw [List.foldl_cons, hstep]
      exact ih fun e' he' => h e' (List.mem_cons_of_mem a he')

/-- Among entries with the highest base the first one is found. -/
theorem findHighestMmapEntry_eq {front back : List MemmapEntry}
    {e : MemmapEntry} (hu : e.Usable)
    (hfront : ∀ e' ∈ front, e'.Usable → e'.base < e.base)
    (hback : ∀ e' ∈ back, e'.Usable → e'.base ≤ e.base) :
    findHighestMmapEntry (front ++ e :: back) = some e := by
  have hacc := highest_findHighestMmapEntry front
  have hstep : higherEntry (findHighestMmapEntry front) e = some e := by
    have hu' : ¬ e.type ≠ LIMINE_MEMMAP_USABLE := not_not.2 hu
    unfold higherEntry
    rw [if_neg hu']
    cases hf : findHighestMmapEntry front with
    | none => rfl
    | some a =>
        rw [hf] at hacc
        exact if_pos (hfront a hacc.1 hacc.2.1)
  unfold findHighestMmapEntry at hstep ⊢
  rw [List.foldl_append, List.foldl_cons, hstep]
  exact foldl_higherEntry_low hback

/-- The highest base is the base of the highest end. -/
theorem LimineMap.endNat_highest {mmap : List MemmapEntry}
    (h : LimineMap mmap) {e : MemmapEntry} (he : e ∈ mmap) (hu : e.Usable)
    (hmax : ∀ e' ∈ mmap, e'.Usable → e'.base ≤ e.base) :
    e.endNat = usableEnd mmap := by
  refine Nat.le_antisymm (le_usableEnd he hu) (usableEnd_le ?_)
  intro e' he' hu'
  by_cases heq : e' = e
  · exact Nat.le_of_eq (congrArg _ heq)
  · -- were `e'` to end above `e`, the base of `e` would be in both
    have hbase := hmax e' he' hu'
    have hlen := h.nonempty e he hu
    by_contra hgt
    refine heq (h.apart he' he hu' hu (x := e.base.toNat) ?_ ?_)
    · simp only [MemmapEntry.Contains, MemmapEntry.endNat] at *
      bv_omega
    · simp only [MemmapEntry.Contains, MemmapEntry.endNat]
      omega

/-! ## The size -/

theorem and_not_page (x : Word) :
    x &&& ~~~(0xFFF : Word) = (x >>> 12) <<< 12 :=
  and_highMask (by decide) x

theorem toNat_alignUp_page {x : Word} (h : x.toNat + 4095 < 2 ^ 64) :
    (ALIGN_UP x 0x1000).toNat = (x.toNat + 4095) / 4096 * 4096 := by
  have hsum : (x + 0x1000 - 1).toNat = x.toNat + 4095 := by bv_omega
  rw [ALIGN_UP, show ((0x1000 : Word) - 1) = 0xFFF from rfl, and_not_page,
    BitVec.toNat_shiftLeft, BitVec.toNat_ushiftRight, hsum, Nat.shiftLeft_eq,
    Nat.shiftRight_eq_div_pow]
  omega

/-- Bytes of bitmap, rounded up to a page, for memory that ends at `H`. -/
def bitmapBytes (H : ℕ) : ℕ := (H / 32768 + 4095) / 4096 * 4096

theorem bitmapBytes_mono {H H' : ℕ} (h : H ≤ H') :
    bitmapBytes H ≤ bitmapBytes H' := by
  unfold bitmapBytes
  have := Nat.div_le_div_right (c := 32768) h
  omega

/-- The arithmetic of `get_bitmap_size`, for the entry it has found. -/
theorem toNat_bitmapSize (e : MemmapEntry) :
    (ALIGN_UP ((e.base + e.length) / 0x1000 / 8) 0x1000).toNat =
      bitmapBytes (e.endNat % 2 ^ 64) := by
  have hsum : (e.base + e.length).toNat = e.endNat % 2 ^ 64 :=
    BitVec.toNat_add _ _
  have hdiv : ((e.base + e.length) / 0x1000 / 8).toNat =
      e.endNat % 2 ^ 64 / 32768 := by
    rw [BitVec.toNat_udiv, BitVec.toNat_udiv, hsum, Nat.div_div_eq_div_mul]
    rfl
  have hlt : e.endNat % 2 ^ 64 < 2 ^ 64 := Nat.mod_lt _ (by decide)
  rw [toNat_alignUp_page (by omega), hdiv, bitmapBytes]

theorem getBitmapSize_ok {mmap : List MemmapEntry} {size : Word}
    (h : getBitmapSize mmap = .ok size) :
    ∃ e ∈ mmap, e.Usable ∧ (∀ e' ∈ mmap, e'.Usable → e'.base ≤ e.base) ∧
      size.toNat = bitmapBytes (e.endNat % 2 ^ 64) := by
  have hhigh := highest_findHighestMmapEntry mmap
  unfold getBitmapSize at h
  cases hf : findHighestMmapEntry mmap with
  | none => simp [hf] at h
  | some e =>
      rw [hf] at h hhigh
      obtain ⟨hmem, hu, hmax⟩ := hhigh
      injection h with hsize
      exact ⟨e, hmem, hu, hmax, by rw [← hsize, toNat_bitmapSize]⟩

theorem getBitmapSize_of_highest {mmap : List MemmapEntry} {e : MemmapEntry}
    (h : findHighestMmapEntry mmap = some e) :
    ∃ size, getBitmapSize mmap = .ok size ∧
      size.toNat = bitmapBytes (e.endNat % 2 ^ 64) :=
  ⟨_, by rw [getBitmapSize, h], toNat_bitmapSize e⟩

/-- A usable entry is all `get_bitmap_size` needs. -/
theorem exists_getBitmapSize {mmap : List MemmapEntry} {e : MemmapEntry}
    (he : e ∈ mmap) (hu : e.Usable) :
    ∃ size, getBitmapSize mmap = .ok size := by
  have hhigh := highest_findHighestMmapEntry mmap
  unfold getBitmapSize
  cases hf : findHighestMmapEntry mmap with
  | none =>
      rw [hf] at hhigh
      exact absurd hu (hhigh e he)
  | some e' => exact ⟨_, rfl⟩

/-- The size, on the maps the bootloader reports. -/
theorem LimineMap.toNat_size {mmap : List MemmapEntry} (h : LimineMap mmap)
    {size : Word} (hsize : getBitmapSize mmap = .ok size) :
    size.toNat = bitmapBytes (usableEnd mmap % 2 ^ 64) := by
  obtain ⟨e, he, hu, hmax, heq⟩ := getBitmapSize_ok hsize
  rw [heq, h.endNat_highest he hu hmax]

theorem size_mod {mmap : List MemmapEntry} {size : Word}
    (h : getBitmapSize mmap = .ok size) : size.toNat % 4096 = 0 := by
  obtain ⟨e, -, -, -, heq⟩ := getBitmapSize_ok h
  rw [heq, bitmapBytes]
  exact Nat.mul_mod_left _ _

/-- The scan bound `get_bitmap_size() * 8` never wraps, and neither does any
frame number below it when it is turned back into an address. -/
theorem size_le {mmap : List MemmapEntry} {size : Word}
    (h : getBitmapSize mmap = .ok size) : size.toNat ≤ 2 ^ 49 := by
  obtain ⟨e, -, -, -, heq⟩ := getBitmapSize_ok h
  have hlt : e.endNat % 2 ^ 64 < 2 ^ 64 := Nat.mod_lt _ (by decide)
  rw [heq, bitmapBytes]
  omega

end VegaOS
