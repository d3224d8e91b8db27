import VegaOS.Lib.Raster
import VegaOS.Proofs.Fb

/-!
# The framebuffer as a raster

The driver computes the index of a pixel in 32 bits, from coordinates in 32
bits and a pitch in 64. For every geometry a framebuffer of 32 bits a pixel
can have, the index is right as long as the pixel is visible, and the bounds
check keeps the others out. So `fb_putpix` plots a dot on a raster, and
`fb_clear` paints all of it.
-/

namespace VegaOS

open ByteMem Trace

/-- What the bootloader reports of a framebuffer with 32 bits a pixel. -/
structure Geometry (fb : Framebuffer) : Prop where
  width_lt : fb.width.toNat < 2 ^ 32
  height_lt : fb.height.toNat < 2 ^ 32
  pitch_mod : fb.pitch.toNat % 4 = 0
  row_le : 4 * fb.width.toNat ≤ fb.pitch.toNat
  index_le : fb.pitch.toNat / 4 * fb.height.toNat ≤ 2 ^ 32

namespace Geometry

variable {fb : Framebuffer} (h : Geometry fb)

include h in
theorem pitch_eq : fb.pitch.toNat = 4 * (fb.pitch.toNat / 4) := by
  have hmod := h.pitch_mod
  omega

def raster : Raster where
  base := fb.address
  width := fb.width.toNat
  height := fb.height.toNat
  pitch := fb.pitch.toNat
  row_le := h.row_le
  fits := by
    rw [h.pitch_eq, Nat.mul_assoc]
    have hle := h.index_le
    omega

/-- The index of a visible pixel fits into 32 bits. -/
theorem index_lt {x y : ℕ} (hp : h.raster.Visible (x, y)) :
    x + y * (fb.pitch.toNat / 4) < 2 ^ 32 := by
  have hx : x < fb.width.toNat := hp.1
  have hrow : y * (fb.pitch.toNat / 4) + fb.pitch.toNat / 4 ≤
      fb.pitch.toNat / 4 * fb.height.toNat := by
    rw [← Nat.succ_mul, Nat.mul_comm (fb.pitch.toNat / 4)]
    exact Nat.mul_le_mul_right _ hp.2
  have hle := h.index_le
  have hwidth := h.row_le
  omega

end Geometry

/-- A pixel of the screen, by the driver's coordinates. -/
def point (x y : BitVec 32) : ℕ × ℕ := (x.toNat, y.toNat)

section Putpix

variable {fb : Framebuffer} {v : Video}

theorem fbGetWidth_some (hv : v.response = some fb) :
    fbGetWidth v = .ok (fb.width.setWidth 32) v := by
  rw [fbGetWidth, run_bind_ok (FRAMEBUFFER_some hv)]
  rfl

theorem fbGetHeight_some (hv : v.response = some fb) :
    fbGetHeight v = .ok (fb.height.setWidth 32) v := by
  rw [fbGetHeight, run_bind_ok (FRAMEBUFFER_some hv)]
  rfl

theorem getIndex_some (hv : v.response = some fb) (x y : BitVec 32) :
    getIndex x y v =
      .ok ((x.setWidth 64 + y.setWidth 64 * (fb.pitch / 4)).setWidth 32) v := by
  have hget : (get : Fb Video) v = .ok v v := rfl
  have hassert : fbAssert v = .ok () v := by
    rw [fbAssert, run_bind_ok hget, hv]
    rfl
  rw [getIndex, run_bind_ok hassert, run_bind_ok (FRAMEBUFFER_some hv)]
  rfl

/-- The address of a visible pixel. -/
theorem pixel_addr (h : Geometry fb) {x y : BitVec 32}
    (hp : h.raster.Visible (point x y)) :
    fb.address + 4 * ((x.setWidth 64 +
      y.setWidth 64 * (fb.pitch / 4)).setWidth 32).setWidth 64 =
        h.raster.addr (point x y) := by
  have hlt : x.toNat + y.toNat * (fb.pitch.toNat / 4) < 2 ^ 32 :=
    h.index_lt hp
  have hx := x.isLt
  have hy := y.isLt
  have hdiv : (fb.pitch / 4).toNat = fb.pitch.toNat / 4 := BitVec.toNat_udiv
  have hindex : (x.setWidth 64 + y.setWidth 64 * (fb.pitch / 4)).toNat =
      x.toNat + y.toNat * (fb.pitch.toNat / 4) := by
    rw [BitVec.toNat_add, BitVec.toNat_mul, BitVec.toNat_setWidth,
      BitVec.toNat_setWidth, hdiv]
    generalize fb.pitch.toNat / 4 = q at hlt ⊢
    generalize hyq : y.toNat * q = yq at hlt
    rw [Nat.mod_eq_of_lt (a := y.toNat) (by omega), hyq]
    omega
  have hoffset : h.raster.offset (point x y) =
      4 * (x.toNat + y.toNat * (fb.pitch.toNat / 4)) := by
    show y.toNat * fb.pitch.toNat + 4 * x.toNat = _
    have hpitch := h.pitch_eq
    generalize fb.pitch.toNat / 4 = q at hpitch ⊢
    rw [hpitch, Nat.mul_left_comm]
    omega
  rw [Raster.addr, hoffset]
  refine congrArg _ (BitVec.eq_of_toNat_eq ?_)
  rw [BitVec.toNat_mul, BitVec.toNat_setWidth, BitVec.toNat_setWidth, hindex,
    BitVec.toNat_ofNat]
  show 4 * _ % 2 ^ 64 = _
  omega

/-- A coordinate against a size that fits into 32 bits. -/
theorem lt_setWidth_iff {size : Word} (hsize : size.toNat < 2 ^ 32)
    (x : BitVec 32) : x < size.setWidth 32 ↔ x.toNat < size.toNat := by
  rw [BitVec.lt_def, BitVec.toNat_setWidth, Nat.mod_eq_of_lt hsize]

theorem ge_setWidth_iff {size : Word} (hsize : size.toNat < 2 ^ 32)
    (x : BitVec 32) : x ≥ size.setWidth 32 ↔ ¬ x.toNat < size.toNat := by
  rw [ge_iff_le, ← BitVec.not_lt, lt_setWidth_iff hsize]

/-- A loop's next coordinate, below a size that fits. -/
theorem toNat_succ {size : Word} (hsize : size.toNat < 2 ^ 32) {x : BitVec 32}
    (h : x.toNat < size.toNat) : (x + 1).toNat = x.toNat + 1 := by
  rw [BitVec.toNat_add]
  exact Nat.mod_eq_of_lt (Nat.lt_of_le_of_lt h hsize)

/-- `fb_putpix` plots a dot, and says whether it was visible. -/
theorem fbPutpix_eq (h : Geometry fb) (hv : v.response = some fb)
    (x y color : BitVec 32) :
    fbPutpix x y color v =
      .ok (if h.raster.Visible (point x y) then 0 else 1)
        { v with mem := h.raster.plot v.mem ⟨point x y, color⟩ } := by
  have hw : x ≥ fb.width.setWidth 32 ↔ ¬ x.toNat < fb.width.toNat :=
    ge_setWidth_iff h.width_lt x
  have hh : y ≥ fb.height.setWidth 32 ↔ ¬ y.toNat < fb.height.toNat :=
    ge_setWidth_iff h.height_lt y
  rw [fbPutpix, run_bind_ok (fbGetWidth_some hv)]
  by_cases hx : x ≥ fb.width.setWidth 32
  · have hout : ¬ h.raster.Visible (point x y) := fun hp =>
      hw.1 hx hp.1
    rw [if_pos hx, if_neg hout, Raster.plot, if_neg hout]
    rfl
  · rw [if_neg hx, run_bind_ok (fbGetHeight_some hv)]
    by_cases hy : y ≥ fb.height.setWidth 32
    · have hout : ¬ h.raster.Visible (point x y) := fun hp =>
        hh.1 hy hp.2
      rw [if_pos hy, if_neg hout, Raster.plot, if_neg hout]
      rfl
    · have hp : h.raster.Visible (point x y) :=
        ⟨not_not.1 (mt hw.2 hx), not_not.1 (mt hh.2 hy)⟩
      rw [if_neg hy, run_bind_ok (FRAMEBUFFER_some hv),
        run_bind_ok (getIndex_some hv x y), if_pos hp, Raster.plot, if_pos hp,
        pixel_addr h hp]
      rfl

/-! ## Any framebuffer

Whatever the sizes the bootloader reports, the index has 32 bits. -/

/-- Nothing is touched but the pixels that an index of 32 bits names. -/
def IndexedOnly (v v' : Video) : Prop :=
  v'.response = v.response ∧ ∀ fb, v.response = some fb →
    ∀ a, ¬ Span fb.address (2 ^ 34) a → v'.mem a = v.mem a

theorem IndexedOnly.refl (v : Video) : IndexedOnly v v :=
  ⟨rfl, fun _ _ _ _ => rfl⟩

theorem IndexedOnly.trans (v v' v'' : Video) (h : IndexedOnly v v')
    (h' : IndexedOnly v' v'') : IndexedOnly v v'' := by
  refine ⟨h'.1.trans h.1, fun fb hfb a ha => ?_⟩
  rw [h'.2 fb (h.1.trans hfb) a ha, h.2 fb hfb a ha]

theorem span_indexed {a x : Word} {index : BitVec 32}
    (h : Span (a + 4 * index.setWidth 64) 4 x) : Span a (2 ^ 34) x := by
  simp only [Span] at h ⊢
  bv_omega

theorem along_fbPutpix (x y color : BitVec 32) :
    Along IndexedOnly (fbPutpix x y color) := by
  intro v
  cases hv : v.response with
  | none =>
      rw [fbPutpix_none hv]
      exact IndexedOnly.refl v
  | some fb =>
      rw [fbPutpix, run_bind_ok (fbGetWidth_some hv)]
      split
      · exact IndexedOnly.refl v
      rw [run_bind_ok (fbGetHeight_some hv)]
      split
      · exact IndexedOnly.refl v
      rw [run_bind_ok (FRAMEBUFFER_some hv), run_bind_ok (getIndex_some hv x y)]
      refine ⟨rfl, fun fb' hfb' a ha => ?_⟩
      obtain rfl := Option.some.inj (hv.symm.trans hfb')
      exact write32_of_not_span v.mem _ fun hspan => ha (span_indexed hspan)

end Putpix

/-! ## Clearing the screen -/

/-- The pixels of row `y` from column `x` on, `n` of them. -/
def rowDots (color : BitVec 32) (y x n : ℕ) : List Dot :=
  (List.range' x n).map fun i => ⟨(i, y), color⟩

/-- The rows from `y` on, `n` of them. -/
def clearDots (color : BitVec 32) (width y n : ℕ) : List Dot :=
  (List.range' y n).flatMap fun j => rowDots color j 0 width

section Clear

variable {fb : Framebuffer}

theorem fbClear_row_eq (h : Geometry fb) (color y : BitVec 32) (n : ℕ) :
    ∀ {x : BitVec 32} {fuel : ℕ} {v : Video}, x.toNat + n = fb.width.toNat →
      n < fuel → v.response = some fb →
      fbClear.row color y fuel x v =
        .ok () { v with
          mem := h.raster.paint v.mem (rowDots color y.toNat x.toNat n) } := by
  induction n with
  | zero =>
      intro x fuel v hx hfuel hv
      obtain ⟨k, rfl⟩ := Nat.exists_eq_add_of_lt hfuel
      have hend : ¬ x < fb.width.setWidth 32 :=
        mt (lt_setWidth_iff h.width_lt x).1 (by omega)
      rw [Nat.zero_add, fbClear.row, run_bind_ok (fbGetWidth_some hv),
        if_neg hend]
      rfl
  | succ n ih =>
      intro x fuel v hx hfuel hv
      obtain ⟨k, rfl⟩ : ∃ k, fuel = k + 1 := ⟨fuel - 1, by omega⟩
      have hlt : x.toNat < fb.width.toNat := by omega
      have hin := (lt_setWidth_iff h.width_lt x).2 hlt
      have hnext := toNat_succ h.width_lt hlt
      let v' : Video :=
        { v with mem := h.raster.plot v.mem ⟨point x y, color⟩ }
      have hv' : v'.response = some fb := hv
      rw [fbClear.row, run_bind_ok (fbGetWidth_some hv), if_pos hin,
        run_bind_ok (fbPutpix_eq h hv x y color)]
      refine (ih (by omega) (by omega) hv').trans ?_
      rw [hnext]
      rfl

theorem fbClear_rows_eq (h : Geometry fb) (color : BitVec 32) {cols : ℕ}
    (hcols : fb.width.toNat < cols) (n : ℕ) :
    ∀ {y : BitVec 32} {fuel : ℕ} {v : Video}, y.toNat + n = fb.height.toNat →
      n < fuel → v.response = some fb →
      fbClear.rows color cols fuel y v =
        .ok () { v with
          mem := h.raster.paint v.mem
            (clearDots color fb.width.toNat y.toNat n) } := by
  induction n with
  | zero =>
      intro y fuel v hy hfuel hv
      obtain ⟨k, rfl⟩ := Nat.exists_eq_add_of_lt hfuel
      have hend : ¬ y < fb.height.setWidth 32 :=
        mt (lt_setWidth_iff h.height_lt y).1 (by omega)
      rw [Nat.zero_add, fbClear.rows, run_bind_ok (fbGetHeight_some hv),
        if_neg hend]
      rfl
  | succ n ih =>
      intro y fuel v hy hfuel hv
      obtain ⟨k, rfl⟩ : ∃ k, fuel = k + 1 := ⟨fuel - 1, by omega⟩
      have hlt : y.toNat < fb.height.toNat := by omega
      have hin := (lt_setWidth_iff h.height_lt y).2 hlt
      have hnext := toNat_succ h.height_lt hlt
      have hrow := fbClear_row_eq h color y fb.width.toNat (x := 0) (v := v)
        (Nat.zero_add _) hcols hv
      let v' : Video :=
        { v with
          mem := h.raster.paint v.mem
            (rowDots color y.toNat 0 fb.width.toNat) }
      have hv' : v'.response = some fb := hv
      rw [fbClear.rows, run_bind_ok (fbGetHeight_some hv), if_pos hin,
        run_bind_ok hrow]
      refine (ih (by omega) (by omega) hv').trans ?_
      rw [hnext, ← Raster.paint_append]
      rfl

/-- The dots of `fb_clear` are the visible pixels, in one colour. -/
theorem mem_clearDots {color : BitVec 32} {width n : ℕ} {d : Dot} :
    d ∈ clearDots color width 0 n ↔
      (d.pos.1 < width ∧ d.pos.2 < n) ∧ d.color = color := by
  simp only [clearDots, rowDots, List.mem_flatMap, List.mem_map,
    List.mem_range'_1, Nat.zero_le, Nat.zero_add, true_and]
  constructor
  · intro ⟨j, hj, i, hi, heq⟩
    subst heq
    exact ⟨⟨hi, hj⟩, rfl⟩
  · intro ⟨⟨hi, hj⟩, hcolor⟩
    subst hcolor
    exact ⟨d.pos.2, hj, d.pos.1, hi, rfl⟩

/-- `fb_clear` paints all of the screen. -/
theorem fbClear_eq (h : Geometry fb) (color : BitVec 32) {fuel : ℕ}
    (hw : fb.width.toNat < fuel) (hh : fb.height.toNat < fuel) {v : Video}
    (hv : v.response = some fb) :
    fbClear fuel color v =
      .ok () { v with
        mem := h.raster.paint v.mem
          (clearDots color fb.width.toNat 0 fb.height.toNat) } :=
  fbClear_rows_eq h color hw fb.height.toNat (Nat.zero_add _) hh hv

theorem pixel_clear (h : Geometry fb) (color : BitVec 32) (m : Mem) {p : ℕ × ℕ}
    (hp : h.raster.Visible p) :
    h.raster.pixel (h.raster.paint m
      (clearDots color fb.width.toNat 0 fb.height.toNat)) p = color := by
  have hd : (⟨p, color⟩ : Dot) ∈
      clearDots color fb.width.toNat 0 fb.height.toNat :=
    mem_clearDots.2 ⟨hp, rfl⟩
  exact Raster.pixel_paint_of_mem hp hd rfl fun d' hd' _ =>
    (mem_clearDots.1 hd').2

end Clear

/-! ## The contract of the driver -/

/-- What `fb_putpix` does, by where the pixel is. -/
theorem fbPutpix_cases {fb : Framebuffer} (h : Geometry fb) {v : Video}
    (hv : v.response = some fb) (x y color : BitVec 32) :
    (h.raster.Visible (point x y) ∧
      fbPutpix x y color v = .ok 0 { v with
        mem := write32 v.mem (h.raster.addr (point x y)) color }) ∨
    (¬ h.raster.Visible (point x y) ∧ fbPutpix x y color v = .ok 1 v) := by
  rw [fbPutpix_eq h hv, Raster.plot]
  by_cases hp : h.raster.Visible (point x y)
  · rw [if_pos hp, if_pos hp]
    exact Or.inl ⟨hp, rfl⟩
  · rw [if_neg hp, if_neg hp]
    exact Or.inr ⟨hp, rfl⟩

/-- Pixels are set where they are visible and nowhere else, each in bytes of
its own, and clearing sets them all and leaves what lies between the rows. -/
theorem framebuffer_exact {fb : Framebuffer} (h : Geometry fb) {v : Video}
    (hv : v.response = some fb) :
    (∀ x y color : BitVec 32, ∃ (r : Int) (v' : Video),
      fbPutpix x y color v = .ok r v' ∧
      v'.response = v.response ∧
      (r = 0 ↔ x.toNat < fb.width.toNat ∧ y.toNat < fb.height.toNat) ∧
      (r = 0 → v'.mem = write32 v.mem (fb.address +
          BitVec.ofNat 64 (y.toNat * fb.pitch.toNat + 4 * x.toNat)) color ∧
        y.toNat * fb.pitch.toNat + 4 * x.toNat + 4 ≤
          fb.pitch.toNat * fb.height.toNat) ∧
      (r ≠ 0 → r = 1 ∧ v'.mem = v.mem)) ∧
    (∀ p q : ℕ × ℕ, h.raster.Visible p → h.raster.Visible q → p ≠ q →
      Apart (h.raster.addr p) 4 (h.raster.addr q) 4) ∧
    ∀ (fuel : ℕ) (color : BitVec 32), fb.width.toNat < fuel →
      fb.height.toNat < fuel → ∃ v' : Video,
        fbClear fuel color v = .ok () v' ∧
        v'.response = v.response ∧
        (∀ p, h.raster.Visible p → h.raster.pixel v'.mem p = color) ∧
        (∀ y k, y < fb.height.toNat → 4 * fb.width.toNat ≤ k →
          k < fb.pitch.toNat →
          v'.mem (fb.address + BitVec.ofNat 64 (y * fb.pitch.toNat + k)) =
            v.mem (fb.address + BitVec.ofNat 64 (y * fb.pitch.toNat + k))) ∧
        ∀ a, ¬ h.raster.Shown a → v'.mem a = v.mem a := by
  refine ⟨fun x y color => ?_, fun p q => Raster.addr_apart,
    fun fuel color hw hh => ?_⟩
  · rcases fbPutpix_cases h hv x y color with ⟨hp, hrun⟩ | ⟨hp, hrun⟩
    · refine ⟨0, _, hrun, rfl, iff_of_true rfl hp,
        fun _ => ⟨rfl, Raster.offset_lt hp⟩, fun hr => absurd rfl hr⟩
    · exact ⟨1, v, hrun, rfl, iff_of_false Int.one_ne_zero hp,
        fun hr => absurd hr Int.one_ne_zero, fun _ => ⟨rfl, rfl⟩⟩
  · refine ⟨_, fbClear_eq h color hw hh hv, rfl,
      fun p hp => pixel_clear h color v.mem hp, fun y k hy hk hk' => ?_,
      fun a ha => Raster.paint_frame ha _ v.mem⟩
    exact Raster.paint_frame (Raster.not_shown_padding hy hk hk') _ v.mem

/-- A screen of two by two pixels, its rows padded to three. -/
def padded : Framebuffer := ⟨0x1000, 2, 2, 12⟩

theorem geometry_padded : Geometry padded where
  width_lt := by decide
  height_lt := by decide
  pitch_mod := by decide
  row_le := by decide
  index_le := by decide

/-- The last pixel of the padded screen, and the padding of its first row. -/
theorem framebuffer_exact_padded :
    (∃ (r : Int) (v' : Video),
      fbPutpix 1 1 0xFFFFFF ⟨some padded, fun _ => 0⟩ = .ok r v' ∧
      v'.mem = write32 (fun _ => 0) 0x1010 0xFFFFFF) ∧
    ∃ v' : Video, fbClear 3 0xFFFFFF ⟨some padded, fun _ => 7⟩ = .ok () v' ∧
      geometry_padded.raster.pixel v'.mem (1, 1) = 0xFFFFFF ∧
      v'.mem 0x1008 = 7 := by
  constructor
  · obtain ⟨r, v', hrun, -, hzero, hwrite, -⟩ :=
      (framebuffer_exact geometry_padded (v := ⟨some padded, fun _ => 0⟩)
        rfl).1 1 1 0xFFFFFF
    exact ⟨r, v', hrun, (hwrite (hzero.2 (by decide))).1⟩
  · obtain ⟨v', hrun, -, hpixels, hpadding, -⟩ :=
      (framebuffer_exact geometry_padded (v := ⟨some padded, fun _ => 7⟩)
        rfl).2.2 3 0xFFFFFF (by decide) (by decide)
    exact ⟨v', hrun, hpixels (1, 1) (by decide),
      hpadding 0 8 (by decide) (by decide) (by decide)⟩

end VegaOS
