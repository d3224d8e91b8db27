import VegaOS.Proofs.Bitmap
import VegaOS.Proofs.MemoryMap

/-!
# What `pmm_init` leaves behind

`init_bitmap` is two loops with a `memset` between them. The first picks an
entry and carves the bitmap out of it; the second unsets a list of bits, one
call of `bitmap_unset_bit` after the other. So the state it returns is a fold
of `unsetFrame` over that list, started from the freshly filled bitmap, and
everything one wants to know of the state is a fact about such folds: which
bits are clear, where the search starts, what else is unchanged.

For an arbitrary memory map it is enough that the list exists. On the maps the
bootloader reports it is known exactly: the frames of the usable entries that
are, after the carving, still as long as the bitmap.
-/

namespace VegaOS

open ByteMem

/-! ## Folds of `unsetFrame` -/

section Fold

variable (bits : List Word) (st : Pmm)

theorem foldl_unsetFrame_mmap :
    (bits.foldl unsetFrame st).mmap = st.mmap := by
  induction bits generalizing st with
  | nil => rfl
  | cons b rest ih => exact ih (unsetFrame st b)

theorem foldl_unsetFrame_bitmap :
    (bits.foldl unsetFrame st).bitmap = st.bitmap := by
  induction bits generalizing st with
  | nil => rfl
  | cons b rest ih => exact ih (unsetFrame st b)

theorem foldl_unsetFrame_unset :
    (bits.foldl unsetFrame st).unset = bits.reverse ++ st.unset := by
  induction bits generalizing st with
  | nil => rfl
  | cons b rest ih =>
      rw [List.foldl_cons, ih]
      simp [unsetFrame]

theorem foldl_unsetFrame_test (c : Word) :
    bitmapTestBit (bits.foldl unsetFrame st).mem st.bitmap c =
      (bitmapTestBit st.mem st.bitmap c && decide (c ∉ bits)) := by
  induction bits generalizing st with
  | nil => simp
  | cons b rest ih =>
      have hstep := ih (unsetFrame st b)
      simp only [unsetFrame] at hstep
      rw [List.foldl_cons]
      simp only [unsetFrame]
      rw [hstep, bitmapTestBit_unset, Bool.and_assoc]
      congr 1
      simp [not_or]

/-- Only the memory depends on the memory. -/
theorem foldl_unsetFrame_withMem (m : Mem) :
    bits.foldl unsetFrame { st with mem := m } =
      { bits.foldl unsetFrame st with
        mem := bits.foldl (fun m b => bitmapUnsetBit m st.bitmap b) m } := by
  induction bits generalizing st m with
  | nil => rfl
  | cons b rest ih => exact ih (unsetFrame st b) _

theorem foldl_unsetFrame_mem : (bits.foldl unsetFrame st).mem =
    bits.foldl (fun m b => bitmapUnsetBit m st.bitmap b) st.mem :=
  congrArg Pmm.mem (foldl_unsetFrame_withMem bits st st.mem)

/-- The search starts at the first bit unset that is not bit 0, once there is
one. -/
theorem foldl_unsetFrame_start :
    (bits.foldl unsetFrame st).bitmapStartBit =
      if st.bitmapStartBit = 0 then (bits.find? (· ≠ 0)).getD 0
      else st.bitmapStartBit := by
  induction bits generalizing st with
  | nil =>
      split
      · rename_i h; simpa using h
      · rfl
  | cons b rest ih =>
      have hfirst : (unsetFrame st b).bitmapStartBit =
          if st.bitmapStartBit = 0 then b else st.bitmapStartBit := rfl
      rw [List.foldl_cons, ih, hfirst, List.find?_cons]
      by_cases hs : st.bitmapStartBit = 0
      · rw [if_pos hs, if_pos hs]
        by_cases hb : b = 0
        · rw [if_pos hb, decide_eq_false (not_not.2 hb)]
        · rw [if_neg hb, decide_eq_true hb]
          rfl
      · rw [if_neg hs, if_neg hs, if_neg hs]

end Fold

/-! ## The second loop -/

theorem unsetEntry_ok {e : MemmapEntry} {fuel : Nat} :
    ∀ {j : Word} {st st' : Pmm}, unsetEntry e fuel j st = .ok st' →
      ∃ bits : List Word, st' = bits.foldl unsetFrame st := by
  induction fuel with
  | zero => intro j st st' h; simp [unsetEntry] at h
  | succ n ih =>
      intro j st st' h
      rw [unsetEntry] at h
      split at h
      · obtain ⟨bits, rfl⟩ := ih h
        exact ⟨(e.base + j) / 0x1000 :: bits, rfl⟩
      · injection h with h
        exact ⟨[], h.symm⟩

theorem unsetUsable_ok {size : Word} {fuel : Nat} {es : List MemmapEntry} :
    ∀ {st st' : Pmm}, unsetUsable size fuel es st = .ok st' →
      ∃ bits : List Word, st' = bits.foldl unsetFrame st := by
  induction es with
  | nil =>
      intro st st' h
      injection h with h
      exact ⟨[], h.symm⟩
  | cons e rest ih =>
      intro st st' h
      rw [unsetUsable] at h
      split at h
      · cases hentry : unsetEntry e fuel 0 st with
        | error s => rw [hentry] at h; simp [Except.bind] at h
        | ok mid =>
            rw [hentry] at h
            obtain ⟨front, rfl⟩ := unsetEntry_ok hentry
            obtain ⟨back, rfl⟩ := ih h
            exact ⟨front ++ back, (List.foldl_append ..).symm⟩
      · exact ih h

/-- Pages of an entry, the last one perhaps partial. -/
def MemmapEntry.pages (e : MemmapEntry) : ℕ := (e.length.toNat + 4095) / 4096

/-- The frames the inner loop unsets for an entry, in its order. -/
def entryFrames (e : MemmapEntry) : List Word :=
  (List.range' 0 e.pages).map fun k =>
    (e.base + BitVec.ofNat 64 (4096 * k)) / 0x1000

/-- The inner loop runs once a page, unless the length is so close to `2 ^ 64`
that its counter wraps. -/
theorem unsetEntry_eq {e : MemmapEntry}
    (hlen : e.length.toNat + 4096 ≤ 2 ^ 64) :
    ∀ (fuel k : Nat) (st : Pmm), k ≤ e.pages →
      unsetEntry e fuel (BitVec.ofNat 64 (4096 * k)) st =
        if e.pages - k < fuel then
          .ok (((List.range' k (e.pages - k)).map fun k =>
            (e.base + BitVec.ofNat 64 (4096 * k)) / 0x1000).foldl unsetFrame st)
        else .error .fuel := by
  intro fuel
  induction fuel with
  | zero => intro k st _; simp [unsetEntry]
  | succ n ih =>
      intro k st hk
      unfold MemmapEntry.pages at ih hk ⊢
      have hj : (BitVec.ofNat 64 (4096 * k)).toNat = 4096 * k := by
        rw [BitVec.toNat_ofNat]; omega
      have hnext : BitVec.ofNat 64 (4096 * k) + 0x1000 =
          BitVec.ofNat 64 (4096 * (k + 1)) := by
        apply BitVec.eq_of_toNat_eq
        rw [BitVec.toNat_add, hj, BitVec.toNat_ofNat]
        show (4096 * k + 4096) % 2 ^ 64 = _
        omega
      rw [unsetEntry]
      by_cases hlt : 4096 * k < e.length.toNat
      · have hcond : BitVec.ofNat 64 (4096 * k) < e.length := by
          rw [BitVec.lt_def, hj]; exact hlt
        obtain ⟨r, hr⟩ : ∃ r, (e.length.toNat + 4095) / 4096 - k = r + 1 :=
          ⟨(e.length.toNat + 4095) / 4096 - k - 1, by omega⟩
        have hr' : (e.length.toNat + 4095) / 4096 - (k + 1) = r := by omega
        rw [if_pos hcond, hnext, ih (k + 1) _ (by omega), hr, hr']
        simp only [List.range'_succ, List.map_cons, List.foldl_cons,
          Nat.add_lt_add_iff_right]
      · have hcond : ¬ BitVec.ofNat 64 (4096 * k) < e.length := by
          rw [BitVec.lt_def, hj]; exact hlt
        have hzero : (e.length.toNat + 4095) / 4096 - k = 0 := by omega
        rw [if_neg hcond, hzero, if_pos (Nat.succ_pos n)]
        rfl

theorem MemmapEntry.Paged.length_le {e : MemmapEntry} (h : e.Paged) :
    e.length.toNat + 4096 ≤ 2 ^ 64 := by
  have := h.length_mod
  have := e.length.isLt
  omega

/-- The `k`-th frame of an entry. -/
theorem toNat_entryFrame {e : MemmapEntry} (h : e.Paged) {k : ℕ}
    (hk : k < e.pages) :
    ((e.base + BitVec.ofNat 64 (4096 * k)) / 0x1000).toNat =
      e.base.toNat / 4096 + k := by
  have hb := h.base_mod
  have hl := h.length_mod
  have hend := h.end_le
  simp only [MemmapEntry.pages, MemmapEntry.endNat] at hk hend
  rw [BitVec.toNat_udiv, BitVec.toNat_add, BitVec.toNat_ofNat]
  show (e.base.toNat + 4096 * k % 2 ^ 64) % 2 ^ 64 / 4096 = _
  omega

theorem mem_entryFrames {e : MemmapEntry} (h : e.Paged) (b : Word) :
    b ∈ entryFrames e ↔ e.HoldsFrame b.toNat := by
  have hb := h.base_mod
  have hl := h.length_mod
  have hend := h.end_le
  simp only [entryFrames, List.mem_map, List.mem_range'_1]
  constructor
  · rintro ⟨k, ⟨-, hk⟩, rfl⟩
    rw [Nat.zero_add] at hk
    rw [MemmapEntry.HoldsFrame, toNat_entryFrame h hk]
    simp only [MemmapEntry.pages, MemmapEntry.endNat] at hk ⊢
    omega
  · rintro ⟨hlo, hhi⟩
    simp only [MemmapEntry.endNat] at hhi hend
    have hk : b.toNat - e.base.toNat / 4096 < e.pages := by
      simp only [MemmapEntry.pages]
      omega
    refine ⟨b.toNat - e.base.toNat / 4096, by omega, ?_⟩
    apply BitVec.eq_of_toNat_eq
    rw [toNat_entryFrame h hk]
    omega

/-- The frames of an entry are unset from the lowest up. -/
theorem entryFrames_sorted {e : MemmapEntry} (h : e.Paged) :
    (entryFrames e).Pairwise fun a b => a.toNat < b.toNat := by
  rw [entryFrames, List.pairwise_map]
  refine List.Pairwise.imp_of_mem ?_ List.pairwise_lt_range'
  intro j k hj hk hlt
  rw [List.mem_range'_1] at hj hk
  rw [toNat_entryFrame h (by omega), toNat_entryFrame h (by omega)]
  omega

/-- The bits the second loop unsets, in its order. -/
def framesToUnset (size : Word) : List MemmapEntry → List Word
  | [] => []
  | e :: rest =>
      if e.Usable ∧ size ≤ e.length then
        entryFrames e ++ framesToUnset size rest
      else framesToUnset size rest

theorem mem_framesToUnset {size : Word} {es : List MemmapEntry}
    (hpaged : ∀ e ∈ es, e.Usable → e.Paged) (b : Word) :
    b ∈ framesToUnset size es ↔
      ∃ e ∈ es, e.Usable ∧ size ≤ e.length ∧ e.HoldsFrame b.toNat := by
  induction es with
  | nil => simp [framesToUnset]
  | cons e rest ih =>
      have hrest := ih fun e' he' => hpaged e' (List.mem_cons_of_mem e he')
      rw [framesToUnset]
      by_cases hc : e.Usable ∧ size ≤ e.length
      · rw [if_pos hc, List.mem_append, hrest,
          mem_entryFrames (hpaged e List.mem_cons_self hc.1)]
        simp [hc.1, hc.2]
      · rw [if_neg hc, hrest]
        constructor
        · rintro ⟨e', he', hrest⟩
          exact ⟨e', List.mem_cons_of_mem e he', hrest⟩
        · rintro ⟨e', he', hu, hle, hf⟩
          rcases List.mem_cons.1 he' with rfl | hmem
          · exact absurd ⟨hu, hle⟩ hc
          · exact ⟨e', hmem, hu, hle, hf⟩

theorem unsetUsable_hit {size : Word} {e : MemmapEntry}
    (h : e.Usable ∧ size ≤ e.length) (fuel : Nat) (rest : List MemmapEntry)
    (st : Pmm) : unsetUsable size fuel (e :: rest) st =
      (unsetEntry e fuel 0 st).bind (unsetUsable size fuel rest) := if_pos h

theorem unsetUsable_miss {size : Word} {e : MemmapEntry}
    (h : ¬ (e.Usable ∧ size ≤ e.length)) (fuel : Nat)
    (rest : List MemmapEntry) (st : Pmm) :
    unsetUsable size fuel (e :: rest) st = unsetUsable size fuel rest st :=
  if_neg h

/-- With a unit of fuel more than the longest entry has pages the second loop
ends, and what it has done is the fold. -/
theorem unsetUsable_eq {size : Word} {fuel : Nat} {es : List MemmapEntry}
    (hlen : ∀ e ∈ es, e.Usable → size ≤ e.length →
      e.length.toNat + 4096 ≤ 2 ^ 64)
    (hfuel : ∀ e ∈ es, e.Usable → size ≤ e.length → e.pages < fuel)
    (st : Pmm) : unsetUsable size fuel es st =
      .ok ((framesToUnset size es).foldl unsetFrame st) := by
  induction es generalizing st with
  | nil => rfl
  | cons e rest ih =>
      have hrest := ih (fun e' he' => hlen e' (List.mem_cons_of_mem e he'))
        (fun e' he' => hfuel e' (List.mem_cons_of_mem e he'))
      rw [framesToUnset]
      by_cases hc : e.Usable ∧ size ≤ e.length
      · have hentry : unsetEntry e fuel 0 st = _ := unsetEntry_eq
          (hlen e List.mem_cons_self hc.1 hc.2) fuel 0 st (Nat.zero_le _)
        rw [Nat.sub_zero, if_pos (hfuel e List.mem_cons_self hc.1 hc.2)]
          at hentry
        rw [unsetUsable_hit hc, if_pos hc, List.foldl_append, hentry]
        exact hrest _
      · rw [unsetUsable_miss hc, if_neg hc]
        exact hrest st

theorem unsetEntry_error {e : MemmapEntry} {fuel : ℕ} {stop : Stop} :
    ∀ {j : Word} {st : Pmm}, unsetEntry e fuel j st = .error stop →
      stop = .fuel := by
  induction fuel with
  | zero => exact fun h => (Except.error.inj h).symm
  | succ fuel ih =>
      intro j st h
      rw [unsetEntry] at h
      split at h
      · exact ih h
      · cases h

/-- An entry whose length is within a page of `2 ^ 64` is one the counter never
gets past. -/
def MemmapEntry.Endless (e : MemmapEntry) : Prop :=
  2 ^ 64 < e.length.toNat + 4096

instance (e : MemmapEntry) : Decidable e.Endless := Nat.decLt _ _

/-- The counter is a multiple of a page, also after it has wrapped. -/
theorem unsetEntry_endless {e : MemmapEntry} (hlen : e.Endless) (fuel : ℕ) :
    ∀ (j : Word) (st : Pmm), j.toNat % 4096 = 0 →
      unsetEntry e fuel j st = .error .fuel := by
  induction fuel with
  | zero => exact fun j st _ => rfl
  | succ fuel ih =>
      intro j st hj
      rw [MemmapEntry.Endless] at hlen
      have hlt : j < e.length := by
        rw [BitVec.lt_def]
        omega
      have hnext : (j + 0x1000).toNat % 4096 = 0 := by
        rw [BitVec.toNat_add]
        show (j.toNat + 4096) % 2 ^ 64 % 4096 = 0
        omega
      rw [unsetEntry, if_pos hlt]
      exact ih _ _ hnext

/-- So with such an entry the second loop does not end. -/
theorem unsetUsable_endless {size : Word} {es : List MemmapEntry}
    (hlen : ∃ e ∈ es, (e.Usable ∧ size ≤ e.length) ∧ e.Endless) (fuel : ℕ)
    (st : Pmm) : unsetUsable size fuel es st = .error .fuel := by
  induction es generalizing st with
  | nil =>
      obtain ⟨e, he, -⟩ := hlen
      exact absurd he List.not_mem_nil
  | cons e rest ih =>
      obtain ⟨e', he', hc', hend⟩ := hlen
      have hrest : e' ∈ rest → ∀ st,
          unsetUsable size fuel rest st = .error .fuel :=
        fun hmem st => ih ⟨e', hmem, hc', hend⟩ st
      by_cases hc : e.Usable ∧ size ≤ e.length
      · rw [unsetUsable_hit hc]
        rcases List.mem_cons.1 he' with rfl | hmem
        · rw [unsetEntry_endless hend fuel 0 st rfl]
          rfl
        · cases hentry : unsetEntry e fuel 0 st with
          | ok mid => exact hrest hmem mid
          | error stop =>
              rw [unsetEntry_error hentry]
              rfl
      · rw [unsetUsable_miss hc]
        rcases List.mem_cons.1 he' with rfl | hmem
        · exact absurd hc' hc
        · exact hrest hmem st

/-- And without one it does, on fuel for the longest entry there can be. -/
theorem unsetUsable_ends {size : Word} {fuel : ℕ} (hfuel : 2 ^ 52 < fuel)
    {es : List MemmapEntry}
    (hlen : ¬ ∃ e ∈ es, (e.Usable ∧ size ≤ e.length) ∧ e.Endless) (st : Pmm) :
    unsetUsable size fuel es st =
      .ok ((framesToUnset size es).foldl unsetFrame st) := by
  refine unsetUsable_eq (fun e he hu hroom => ?_) (fun e _ _ _ => ?_) st
  · refine Nat.le_of_not_lt fun hend => hlen ⟨e, he, ⟨hu, hroom⟩, hend⟩
  · have := e.length.isLt
    rw [MemmapEntry.pages]
    omega

/-- A run that ended had fuel enough, so it is the same fold. -/
theorem unsetUsable_ok_eq {size : Word} {fuel : Nat} {es : List MemmapEntry}
    (hpaged : ∀ e ∈ es, e.Usable → e.Paged) {st st' : Pmm}
    (h : unsetUsable size fuel es st = .ok st') :
    st' = (framesToUnset size es).foldl unsetFrame st := by
  induction es generalizing st with
  | nil =>
      injection h with h
      exact h.symm
  | cons e rest ih =>
      have hrest : ∀ {st}, unsetUsable size fuel rest st = .ok st' →
          st' = (framesToUnset size rest).foldl unsetFrame st :=
        ih fun e' he' => hpaged e' (List.mem_cons_of_mem e he')
      rw [framesToUnset]
      by_cases hc : e.Usable ∧ size ≤ e.length
      · have hlen := (hpaged e List.mem_cons_self hc.1).length_le
        have hentry : unsetEntry e fuel 0 st = _ :=
          unsetEntry_eq hlen fuel 0 st (Nat.zero_le _)
        rw [unsetUsable_hit hc, hentry] at h
        rw [if_pos hc, List.foldl_append]
        split at h
        · exact hrest h
        · simp [Except.bind] at h
      · rw [unsetUsable_miss hc] at h
        rw [if_neg hc]
        exact hrest h

/-! ## The first loop -/

/-- The entry `init_bitmap` carves the bitmap out of: the first usable one
with room. -/
def hostEntry (size : Word) (mmap : List MemmapEntry) : Option MemmapEntry :=
  mmap.find? fun e => e.Usable ∧ size ≤ e.length

theorem hostEntry_eq_some {size : Word} {mmap : List MemmapEntry}
    {host : MemmapEntry} (h : hostEntry size mmap = some host) :
    host ∈ mmap ∧ host.Usable ∧ size ≤ host.length :=
  ⟨List.mem_of_find?_eq_some h, by simpa using List.find?_some h⟩

theorem placeBitmap_hit {size : Word} {e : MemmapEntry}
    (h : e.Usable ∧ size ≤ e.length) (rest : List MemmapEntry) :
    placeBitmap size (e :: rest) = some (e, e.carve size :: rest) := if_pos h

theorem placeBitmap_miss {size : Word} {e : MemmapEntry}
    (h : ¬ (e.Usable ∧ size ≤ e.length)) (rest : List MemmapEntry) :
    placeBitmap size (e :: rest) =
      (placeBitmap size rest).map fun (host, rest') => (host, e :: rest') :=
  if_neg h

/-- The entries in front of the host have no room. -/
theorem placeBitmap_of_hostEntry {size : Word} {mmap : List MemmapEntry}
    {host : MemmapEntry} (h : hostEntry size mmap = some host) :
    ∃ pre post, mmap = pre ++ host :: post ∧
      placeBitmap size mmap =
        some (host, pre ++ host.carve size :: post) ∧
      ∀ e ∈ pre, ¬ (e.Usable ∧ size ≤ e.length) := by
  induction mmap with
  | nil => cases h
  | cons e rest ih =>
      rw [hostEntry, List.find?_cons] at h
      by_cases hc : e.Usable ∧ size ≤ e.length
      · rw [decide_eq_true hc] at h
        injection h with h
        subst h
        exact ⟨[], rest, rfl, placeBitmap_hit hc rest,
          fun e he => absurd he List.not_mem_nil⟩
      · rw [decide_eq_false hc] at h
        obtain ⟨pre, post, hrest, hplace, hmiss⟩ := ih h
        refine ⟨e :: pre, post, by rw [hrest]; rfl, ?_, ?_⟩
        · rw [placeBitmap_miss hc, hplace]
          rfl
        · intro e' he'
          rcases List.mem_cons.1 he' with rfl | hpre
          · exact hc
          · exact hmiss e' hpre

/-- Frame `f` stores part of the bitmap. -/
def Reserved (host : MemmapEntry) (size : Word) (f : ℕ) : Prop :=
  host.base.toNat ≤ 4096 * f ∧ 4096 * f < host.base.toNat + size.toNat

namespace MemmapEntry

variable {e : MemmapEntry} {size : Word}

theorem toNat_length_carve (hroom : size ≤ e.length) :
    (e.carve size).length.toNat = e.length.toNat - size.toNat := by
  rw [BitVec.le_def] at hroom
  exact BitVec.toNat_sub_of_le hroom

/-- Carving takes from the front. -/
theorem endNat_carve_le (hroom : size ≤ e.length) :
    (e.carve size).endNat ≤ e.endNat := by
  have hlen := toNat_length_carve hroom
  rw [BitVec.le_def] at hroom
  have hbase : (e.carve size).base.toNat =
      (e.base.toNat + size.toNat) % 2 ^ 64 := BitVec.toNat_add _ _
  rw [endNat, endNat, hlen, hbase]
  omega

/-- The frames of the carved entry: a base that wraps to zero goes with a
length of zero. -/
theorem carve_holdsFrame (h : e.Paged) (hroom : size ≤ e.length) (f : ℕ) :
    (e.carve size).HoldsFrame f ↔
      e.HoldsFrame f ∧ e.base.toNat + size.toNat ≤ 4096 * f := by
  have hend := h.end_le
  have hlen := toNat_length_carve hroom
  rw [BitVec.le_def] at hroom
  have hbase : (e.carve size).base.toNat =
      (e.base.toNat + size.toNat) % 2 ^ 64 := BitVec.toNat_add _ _
  simp only [HoldsFrame, endNat] at hend ⊢
  rw [hlen, hbase]
  omega

theorem Paged.carve (h : e.Paged) (hroom : size ≤ e.length)
    (hsize : size.toNat % 4096 = 0) : (e.carve size).Paged := by
  have hb := h.base_mod
  have hl := h.length_mod
  have hend := h.end_le
  have hlen := toNat_length_carve hroom
  rw [BitVec.le_def] at hroom
  have hbase : (e.carve size).base.toNat =
      (e.base.toNat + size.toNat) % 2 ^ 64 := BitVec.toNat_add _ _
  simp only [endNat] at hend
  exact ⟨by omega, by omega, by rw [endNat]; omega⟩

end MemmapEntry

/-! ## The whole of it -/

theorem getBitmapSize_error {mmap : List MemmapEntry} {stop : Stop}
    (h : getBitmapSize mmap = .error stop) :
    stop = .panic "pmm: Could not find highest entry!\n" := by
  rw [getBitmapSize] at h
  split at h
  · exact (Except.error.inj h).symm
  · cases h

theorem pmmInit_of_error (hhdm : Word) (fuel : Nat) {mmap : List MemmapEntry}
    (mem : Mem) {stop : Stop} (hsize : getBitmapSize mmap = .error stop) :
    pmmInit hhdm fuel mmap mem = .error stop := by
  simp only [pmmInit, initBitmap, hsize, Except.bind]

theorem pmmInit_of_size (hhdm : Word) (fuel : Nat) {mmap : List MemmapEntry}
    (mem : Mem) {size : Word} (hsize : getBitmapSize mmap = .ok size) :
    pmmInit hhdm fuel mmap mem = unsetUsable size fuel
      (hostBitmap hhdm size ⟨mmap, 0, 0, mem, []⟩).mmap
      (hostBitmap hhdm size ⟨mmap, 0, 0, mem, []⟩) := by
  simp only [pmmInit, initBitmap, hsize, Except.bind]

theorem pmmInit_ok {hhdm : Word} {fuel : Nat} {mmap : List MemmapEntry}
    {mem : Mem} {st : Pmm} (h : pmmInit hhdm fuel mmap mem = .ok st) :
    ∃ size, getBitmapSize mmap = .ok size ∧
      unsetUsable size fuel (hostBitmap hhdm size ⟨mmap, 0, 0, mem, []⟩).mmap
        (hostBitmap hhdm size ⟨mmap, 0, 0, mem, []⟩) = .ok st := by
  cases hsize : getBitmapSize mmap with
  | error stop =>
      rw [pmmInit_of_error hhdm fuel mem hsize] at h
      cases h
  | ok size =>
      rw [pmmInit_of_size hhdm fuel mem hsize] at h
      exact ⟨size, rfl, h⟩

/-- The state between the two loops, once a host is found. -/
theorem hostBitmap_of_host (hhdm : Word) (mem : Mem) {size : Word}
    {mmap : List MemmapEntry} {host : MemmapEntry}
    (h : hostEntry size mmap = some host) :
    ∃ pre post, mmap = pre ++ host :: post ∧
      hostBitmap hhdm size ⟨mmap, 0, 0, mem, []⟩ =
        ⟨pre ++ host.carve size :: post, host.base + hhdm, 0,
          memset mem (host.base + hhdm) 0xFF size, []⟩ ∧
      ∀ e ∈ pre, ¬ (e.Usable ∧ size ≤ e.length) := by
  obtain ⟨pre, post, heq, hplace, hmiss⟩ := placeBitmap_of_hostEntry h
  exact ⟨pre, post, heq, by rw [hostBitmap, hplace], hmiss⟩

/-- What `pmm_init` leaves behind on a map the bootloader may report, where
the bitmap of `size` bytes was put into `host`. -/
structure Booted (hhdm : Word) (mmap : List MemmapEntry) (mem : Mem)
    (size : Word) (host : MemmapEntry) (st : Pmm) : Prop where
  bitmap_eq : st.bitmap = host.base + hhdm
  carved : ∃ pre post, mmap = pre ++ host :: post ∧
    st.mmap = pre ++ host.carve size :: post
  paged : ∀ e ∈ st.mmap, e.Usable → e.Paged
  unset_eq : st.unset = (framesToUnset size st.mmap).reverse
  start_eq : st.bitmapStartBit =
    ((framesToUnset size st.mmap).find? (· ≠ 0)).getD 0
  test_eq : ∀ c, bitmapTestBit st.mem st.bitmap c =
    (bitmapTestBit (memset mem st.bitmap 0xFF size) st.bitmap c &&
      decide (c ∉ framesToUnset size st.mmap))

theorem mem_carved {pre post : List MemmapEntry} {carved e : MemmapEntry}
    (he : e ∈ pre ++ carved :: post) : e = carved ∨ e ∈ pre ∨ e ∈ post := by
  rcases List.mem_append.1 he with hpre | hrest
  · exact Or.inr (Or.inl hpre)
  · rcases List.mem_cons.1 hrest with hc | hpost
    · exact Or.inl hc
    · exact Or.inr (Or.inr hpost)

theorem mem_of_side {mmap pre post : List MemmapEntry} {host e : MemmapEntry}
    (heq : mmap = pre ++ host :: post) (he : e ∈ pre ∨ e ∈ post) :
    e ∈ mmap := by
  rw [heq]
  rcases he with hpre | hpost
  · exact List.mem_append_left _ hpre
  · exact List.mem_append_right _ (List.mem_cons_of_mem _ hpost)

/-- The other usable entries share no address with the host. -/
theorem AlignedMap.apart_host {mmap pre post : List MemmapEntry}
    {host e : MemmapEntry} (hmap : AlignedMap mmap) (hu : host.Usable)
    (heq : mmap = pre ++ host :: post) (he : e ∈ pre ∨ e ∈ post)
    (hue : e.Usable) {x : ℕ} (hx : e.Contains x) : ¬ host.Contains x := by
  have hpair := hmap.disjoint
  rw [heq, List.pairwise_append, List.pairwise_cons] at hpair
  intro hxh
  rcases he with hpre | hpost
  · exact hpair.2.2 e hpre host List.mem_cons_self hue hu x ⟨hx, hxh⟩
  · exact hpair.2.1.1 e hpost hu hue x ⟨hxh, hx⟩

theorem carved_paged {mmap pre post : List MemmapEntry} {host : MemmapEntry}
    {size : Word} (hpaged : ∀ e ∈ mmap, e.Usable → e.Paged)
    (hsize : getBitmapSize mmap = .ok size)
    (hhost : hostEntry size mmap = some host)
    (heq : mmap = pre ++ host :: post) :
    ∀ e ∈ pre ++ host.carve size :: post, e.Usable → e.Paged := by
  obtain ⟨hmem, hu, hroom⟩ := hostEntry_eq_some hhost
  intro e he hue
  rcases mem_carved he with rfl | hside
  · exact (hpaged host hmem hu).carve hroom (size_mod hsize)
  · exact hpaged e (mem_of_side heq hside) hue

theorem booted {hhdm : Word} {fuel : Nat} {mmap : List MemmapEntry} {mem : Mem}
    {st : Pmm} {size : Word} {host : MemmapEntry}
    (hpages : ∀ e ∈ mmap, e.Usable → e.Paged)
    (hsize : getBitmapSize mmap = .ok size)
    (hhost : hostEntry size mmap = some host)
    (h : pmmInit hhdm fuel mmap mem = .ok st) :
    Booted hhdm mmap mem size host st := by
  obtain ⟨size', hsize', hloop⟩ := pmmInit_ok h
  obtain rfl : size = size' := Except.ok.inj (hsize.symm.trans hsize')
  obtain ⟨pre, post, heq, hstate, -⟩ :=
    hostBitmap_of_host hhdm mem hhost
  have hpaged := carved_paged hpages hsize hhost heq
  rw [hstate] at hloop
  have hst := unsetUsable_ok_eq hpaged hloop
  have hmm := congrArg Pmm.mmap hst
  have hbm := congrArg Pmm.bitmap hst
  have hun := congrArg Pmm.unset hst
  have hstart := congrArg Pmm.bitmapStartBit hst
  rw [foldl_unsetFrame_mmap] at hmm
  rw [foldl_unsetFrame_bitmap] at hbm
  rw [foldl_unsetFrame_unset, List.append_nil] at hun
  rw [foldl_unsetFrame_start, if_pos rfl] at hstart
  exact {
    bitmap_eq := hbm
    carved := ⟨pre, post, heq, hmm⟩
    paged := by rw [hmm]; exact hpaged
    unset_eq := by rw [hmm]; exact hun
    start_eq := by rw [hmm]; exact hstart
    test_eq := fun c => by
      rw [hbm, hmm, hst]
      exact foldl_unsetFrame_test _ _ c }

/-- `pmm_init` returns, on fuel for the longest entry there can be. -/
theorem pmmInit_returns (hhdm : Word) {fuel : Nat} (hfuel : 2 ^ 52 < fuel)
    {mmap : List MemmapEntry} (mem : Mem) {size : Word} {host : MemmapEntry}
    (hpages : ∀ e ∈ mmap, e.Usable → e.Paged)
    (hsize : getBitmapSize mmap = .ok size)
    (hhost : hostEntry size mmap = some host) :
    ∃ st, pmmInit hhdm fuel mmap mem = .ok st := by
  obtain ⟨pre, post, heq, hstate, -⟩ :=
    hostBitmap_of_host hhdm mem hhost
  have hpaged := carved_paged hpages hsize hhost heq
  have hends : ¬ ∃ e ∈ pre ++ host.carve size :: post,
      (e.Usable ∧ size ≤ e.length) ∧ e.Endless := fun ⟨e, he, hc, hend⟩ =>
    absurd hend (Nat.not_lt.2 (hpaged e he hc.1).length_le)
  rw [pmmInit_of_size hhdm fuel mem hsize, hstate]
  exact ⟨_, unsetUsable_ends hfuel hends _⟩

namespace Booted

variable {hhdm : Word} {mmap : List MemmapEntry} {mem : Mem} {size : Word}
  {host : MemmapEntry} {st : Pmm}

theorem mem_unset (h : Booted hhdm mmap mem size host st) (c : Word) :
    c ∈ framesToUnset size st.mmap ↔
      ∃ e ∈ st.mmap, e.Usable ∧ size ≤ e.length ∧ e.HoldsFrame c.toNat :=
  mem_framesToUnset h.paged c

/-- In the bitmap's own storage a bit is clear if and only if the second loop
cleared it. -/
theorem test_storage (h : Booted hhdm mmap mem size host st) {c : Word}
    (hc : c.toNat < 8 * size.toNat) :
    bitmapTestBit st.mem st.bitmap c = false ↔
      c ∈ framesToUnset size st.mmap := by
  rw [h.test_eq c, bitmapTestBit_memset _ _ _ _ (by omega)]
  simp

end Booted

end VegaOS
