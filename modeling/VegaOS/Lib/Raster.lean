import VegaOS.Lib.Memory
import VegaOS.Lib.Updates

/-!
# Pixels in memory

A raster is a rectangle of 32-bit pixels, row by row from a base address on.
A row takes `pitch` bytes, which may be more than its pixels need. Distinct
pixels share no byte, so a raster is a finite map from positions to colours,
and painting a list of dots updates that map dot by dot. Dots outside the
rectangle are clipped.
-/

namespace ByteMem

/-- A raster that fits into the address space. -/
structure Raster where
  base : Word
  width : ℕ
  height : ℕ
  pitch : ℕ
  row_le : 4 * width ≤ pitch
  fits : pitch * height ≤ 2 ^ 64

/-- A pixel to be set. -/
structure Dot where
  pos : ℕ × ℕ
  color : BitVec 32
deriving DecidableEq, Repr

namespace Raster

variable (r : Raster)

def Visible (p : ℕ × ℕ) : Prop := p.1 < r.width ∧ p.2 < r.height

instance (p : ℕ × ℕ) : Decidable (r.Visible p) :=
  inferInstanceAs (Decidable (_ ∧ _))

def offset (p : ℕ × ℕ) : ℕ := p.2 * r.pitch + 4 * p.1

def addr (p : ℕ × ℕ) : Word := r.base + BitVec.ofNat 64 (r.offset p)

def pixel (m : Mem) (p : ℕ × ℕ) : BitVec 32 := read32 m (r.addr p)

/-- The bytes of the visible pixels. -/
def Shown (x : Word) : Prop := ∃ p, r.Visible p ∧ Span (r.addr p) 4 x

def plot (m : Mem) (d : Dot) : Mem :=
  if r.Visible d.pos then write32 m (r.addr d.pos) d.color else m

def paint (m : Mem) (dots : List Dot) : Mem := dots.foldl r.plot m

variable {r} {m : Mem} {p q : ℕ × ℕ}

/-! ## Where the pixels are -/

theorem row_end_le {y : ℕ} (hy : y < r.height) :
    y * r.pitch + r.pitch ≤ r.pitch * r.height := by
  rw [← Nat.succ_mul, Nat.mul_comm r.pitch]
  exact Nat.mul_le_mul_right _ hy

theorem offset_lt (hp : r.Visible p) :
    r.offset p + 4 ≤ r.pitch * r.height := by
  have hrow := row_end_le hp.2
  have hle := r.row_le
  have hx := hp.1
  rw [offset]
  omega

/-- Rows do not overlap. -/
theorem row_le_of_lt {y y' : ℕ} (h : y < y') :
    y * r.pitch + r.pitch ≤ y' * r.pitch := by
  rw [← Nat.succ_mul]
  exact Nat.mul_le_mul_right _ h

theorem offset_apart (hp : r.Visible p) (hq : r.Visible q) (h : p ≠ q) :
    r.offset p + 4 ≤ r.offset q ∨ r.offset q + 4 ≤ r.offset p := by
  have hle := r.row_le
  have hpx := hp.1
  have hqx := hq.1
  simp only [offset]
  rcases Nat.lt_trichotomy p.2 q.2 with hlt | heq | hgt
  · have := row_le_of_lt (r := r) hlt
    omega
  · have hx : p.1 ≠ q.1 := fun hx => h (Prod.ext hx heq)
    rw [heq]
    omega
  · have := row_le_of_lt (r := r) hgt
    omega

theorem toNat_offset (hp : r.Visible p) :
    (BitVec.ofNat 64 (r.offset p)).toNat = r.offset p := by
  have hlt := offset_lt hp
  have hfits := r.fits
  rw [BitVec.toNat_ofNat, Nat.mod_eq_of_lt (by omega)]

/-- What is shown lies between the first row and the last. -/
theorem Shown.span {x : Word} (hx : r.Shown x) :
    Span r.base (r.pitch * r.height) x := by
  obtain ⟨p, hp, hspan⟩ := hx
  have hpo := toNat_offset hp
  have hpl := offset_lt hp
  have hfits := r.fits
  simp only [Span, addr] at hspan ⊢
  generalize BitVec.ofNat 64 (r.offset p) = a at *
  generalize r.base = base at *
  bv_omega

/-- Distinct pixels share no byte. -/
theorem addr_apart (hp : r.Visible p) (hq : r.Visible q) (h : p ≠ q) :
    Apart (r.addr p) 4 (r.addr q) 4 := by
  have hpo := toNat_offset hp
  have hqo := toNat_offset hq
  have hpl := offset_lt hp
  have hql := offset_lt hq
  have hfits := r.fits
  have hapart := offset_apart hp hq h
  intro x hx hy
  simp only [Span, addr] at hx hy
  generalize BitVec.ofNat 64 (r.offset p) = a at *
  generalize BitVec.ofNat 64 (r.offset q) = b at *
  generalize r.base = base at *
  bv_omega

/-- What follows the pixels of a row belongs to none. -/
theorem not_shown_padding {y k : ℕ} (hy : y < r.height)
    (hk : 4 * r.width ≤ k) (hk' : k < r.pitch) :
    ¬ r.Shown (r.base + BitVec.ofNat 64 (y * r.pitch + k)) := by
  intro ⟨p, hp, hspan⟩
  have hpo := toNat_offset hp
  have hpl := offset_lt hp
  have hrow := row_end_le hy
  have hfits := r.fits
  have hpx := hp.1
  have hko : (BitVec.ofNat 64 (y * r.pitch + k)).toNat = y * r.pitch + k := by
    rw [BitVec.toNat_ofNat, Nat.mod_eq_of_lt (by omega)]
  have hnear : r.offset p ≤ y * r.pitch + k ∧
      y * r.pitch + k < r.offset p + 4 := by
    simp only [Span, addr] at hspan
    generalize BitVec.ofNat 64 (r.offset p) = a at *
    generalize BitVec.ofNat 64 (y * r.pitch + k) = b at *
    generalize r.base = base at *
    bv_omega
  simp only [offset] at hnear
  rcases Nat.lt_trichotomy p.2 y with hlt | rfl | hgt
  · have := row_le_of_lt (r := r) hlt
    omega
  · omega
  · have := row_le_of_lt (r := r) hgt
    omega

/-! ## What painting does -/

/-- One dot updates the map of the visible pixels at its position. -/
theorem pixel_plot (hp : r.Visible p) (d : Dot) :
    r.pixel (r.plot m d) p =
      Function.update (r.pixel m) d.pos d.color p := by
  rw [plot]
  by_cases hpos : p = d.pos
  · subst hpos
    rw [if_pos hp, Function.update_self]
    exact read32_write32 m _ _
  · rw [Function.update_of_ne hpos]
    split
    · rename_i hd
      exact read32_congr fun x hx => write32_of_not_span m _
        (addr_apart hp hd hpos x hx)
    · rfl

theorem pixel_paint (hp : r.Visible p) (dots : List Dot) : ∀ m : Mem,
    r.pixel (r.paint m dots) p =
      ((Updates.last Dot.pos dots p).map Dot.color).getD (r.pixel m p) := by
  intro m
  rw [← Updates.applyAll_eq_last]
  induction dots using List.reverseRecOn with
  | nil => rfl
  | append_singleton dots d ih =>
      rw [paint, List.foldl_append, Updates.applyAll_append]
      show r.pixel (r.plot (r.paint m dots) d) p = _
      rw [pixel_plot hp]
      by_cases hpos : p = d.pos
      · rw [hpos, Function.update_self, Function.update_self]
      · rw [Function.update_of_ne hpos, Function.update_of_ne hpos, ih]

theorem pixel_paint_of_not_mem (hp : r.Visible p) {dots : List Dot}
    (h : ∀ d ∈ dots, d.pos ≠ p) :
    r.pixel (r.paint m dots) p = r.pixel m p := by
  rw [pixel_paint hp, Updates.last_eq_none h]
  rfl

/-- A pixel is painted in the colour of its dots, if that is one colour. -/
theorem pixel_paint_of_mem (hp : r.Visible p) {dots : List Dot} {d : Dot}
    (hd : d ∈ dots) (hpos : d.pos = p)
    (h : ∀ d' ∈ dots, d'.pos = p → d'.color = d.color) :
    r.pixel (r.paint m dots) p = d.color := by
  obtain ⟨d', hlast⟩ : ∃ d', Updates.last Dot.pos dots d.pos = some d' :=
    Updates.exists_last hd
  rw [hpos] at hlast
  obtain ⟨hmem, hkey⟩ := Updates.mem_of_last hlast
  rw [pixel_paint hp, hlast]
  exact h d' hmem hkey

/-- Only bytes of visible pixels are written. -/
theorem paint_frame {x : Word} (hx : ¬ r.Shown x) (dots : List Dot) :
    ∀ m : Mem, r.paint m dots x = m x := by
  induction dots with
  | nil => exact fun _ => rfl
  | cons d dots ih =>
      intro m
      refine (ih (r.plot m d)).trans ?_
      rw [plot]
      split
      · rename_i hd
        exact write32_of_not_span m _ fun hspan => hx ⟨d.pos, hd, hspan⟩
      · rfl

theorem paint_append (dots dots' : List Dot) :
    r.paint m (dots ++ dots') = r.paint (r.paint m dots) dots' :=
  List.foldl_append

end Raster

end ByteMem
