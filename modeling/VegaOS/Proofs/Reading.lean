import VegaOS.Lib.Glyphs
import VegaOS.Proofs.PrintkScreen

/-!
# Reading the screen

No two characters of the font look alike, and no colour of `printk` is the
black it draws on. So what was printed can be read off the pixels again: in
every cell that is on the screen the character that stands there with its
colour, if it is not a blank, and nothing where no character stands.
-/

namespace VegaOS

open ByteMem Trace

/-! ## The font as an alphabet -/

/-- The first `n` glyphs of font data. -/
def glyphs : ℕ → List (BitVec 16) → List (List (BitVec 16))
  | 0, _ => []
  | n + 1, data =>
      data.take PTY_FONT_WIDTH :: glyphs n (data.drop PTY_FONT_WIDTH)

theorem length_glyphs (n : ℕ) : ∀ data, (glyphs n data).length = n := by
  induction n with
  | zero => exact fun _ => rfl
  | succ n ih => exact fun data => congrArg (· + 1) (ih _)

theorem getElem?_glyphs {n : ℕ} : ∀ {k : ℕ} (data : List (BitVec 16)), k < n →
    (glyphs n data)[k]? =
      some ((data.drop (k * PTY_FONT_WIDTH)).take PTY_FONT_WIDTH) := by
  induction n with
  | zero => exact fun _ hk => absurd hk (Nat.not_lt_zero _)
  | succ n ih =>
      intro k data hk
      cases k with
      | zero =>
          rw [Nat.zero_mul, List.drop_zero]
          rfl
      | succ k =>
          rw [glyphs, List.getElem?_cons_succ,
            ih _ (Nat.lt_of_succ_lt_succ hk), List.drop_drop, Nat.succ_mul,
            Nat.add_comm]

theorem glyphs_nodup : (glyphs 95 DEFAULT_FONT_DATA).Nodup := by
  decide +kernel

/-- No two glyphs have the same columns. -/
theorem glyph_injective {k k' : ℕ} (hk : k < 95) (hk' : k' < 95)
    (h : ∀ cx < PTY_FONT_WIDTH,
      DEFAULT_FONT_DATA.getD (k * PTY_FONT_WIDTH + cx) 0 =
        DEFAULT_FONT_DATA.getD (k' * PTY_FONT_WIDTH + cx) 0) : k = k' := by
  have hcolumns : (DEFAULT_FONT_DATA.drop (k * PTY_FONT_WIDTH)).take
      PTY_FONT_WIDTH = (DEFAULT_FONT_DATA.drop (k' * PTY_FONT_WIDTH)).take
        PTY_FONT_WIDTH := by
    refine List.ext_getElem? fun cx => ?_
    rw [List.getElem?_take, List.getElem?_take]
    split
    · rename_i hcx
      have hin {j : ℕ} (hj : j < 95) :
          j * PTY_FONT_WIDTH + cx < DEFAULT_FONT_DATA.length := by
        rw [length_fontData]
        simp only [PTY_FONT_WIDTH] at *
        omega
      have hget := h cx hcx
      rw [List.getD_eq_getElem?_getD, List.getD_eq_getElem?_getD,
        List.getElem?_eq_getElem (hin hk), List.getElem?_eq_getElem (hin hk'),
        Option.getD_some, Option.getD_some] at hget
      rw [List.getElem?_drop, List.getElem?_drop,
        List.getElem?_eq_getElem (hin hk), List.getElem?_eq_getElem (hin hk'),
        hget]
    · rfl
  have hindex : k < (glyphs 95 DEFAULT_FONT_DATA).length := by
    rw [length_glyphs]
    exact hk
  refine (List.getElem?_inj hindex glyphs_nodup).1 ?_
  rw [getElem?_glyphs _ hk, getElem?_glyphs _ hk', hcolumns]

/-- The pixels of a cell, by column and row. -/
def cellPixels : List (ℕ × ℕ) :=
  List.range PTY_FONT_WIDTH ×ˢ List.range PTY_FONT_HEIGHT

theorem mem_cellPixels {i : ℕ × ℕ} :
    i ∈ cellPixels ↔ i.1 < PTY_FONT_WIDTH ∧ i.2 < PTY_FONT_HEIGHT := by
  rw [cellPixels, List.mem_product, List.mem_range, List.mem_range]

/-- The characters of the font. -/
def printables : List Byte :=
  (List.range 95).map fun k => BitVec.ofNat 8 (k + 32)

theorem mem_printables {b : Byte} : b ∈ printables ↔ Printable b := by
  rw [printables, List.mem_map, Printable]
  constructor
  · rintro ⟨k, hk, rfl⟩
    rw [List.mem_range] at hk
    rw [BitVec.toNat_ofNat]
    omega
  · intro hb
    refine ⟨b.toNat - 32, List.mem_range.2 (by omega), ?_⟩
    rw [Nat.sub_add_cancel hb.1, BitVec.ofNat_toNat, BitVec.setWidth_eq]

def font : Glyphs.Alphabet Byte (ℕ × ℕ) where
  symbols := printables
  positions := cellPixels
  bit b i := Glyph.bit ⟨⟨0, 0⟩, b⟩ i.1 i.2
  distinct b hb b' hb' h := by
    obtain ⟨hlow, hhigh⟩ := mem_printables.1 hb
    obtain ⟨hlow', hhigh'⟩ := mem_printables.1 hb'
    have hk : b.toNat - 32 = b'.toNat - 32 := by
      refine glyph_injective (by omega) (by omega) fun cx hcx => ?_
      exact BitVec.eq_of_getLsbD_eq fun cy hcy =>
        h (cx, cy) (mem_cellPixels.2 ⟨hcx, hcy⟩)
    exact BitVec.eq_of_toNat_eq (by omega)

theorem blank_bit {i : ℕ × ℕ} (hi : i ∈ font.positions) :
    font.bit (ascii ' ') i = false := by
  have hcolumns : ∀ cx < PTY_FONT_WIDTH, DEFAULT_FONT_DATA.getD
      (((ascii ' ').toNat - 32) * PTY_FONT_WIDTH + cx) 0 = 0 := by
    decide
  show (DEFAULT_FONT_DATA.getD
    (((ascii ' ').toNat - 32) * PTY_FONT_WIDTH + i.1) 0).getLsbD i.2 = false
  rw [hcolumns i.1 (mem_cellPixels.1 hi).1]
  exact BitVec.getLsbD_zero

/-- Only the blank has no pixel set. -/
theorem exists_bit {b : Byte} (hb : Printable b) (hblank : b ≠ ascii ' ') :
    ∃ i ∈ font.positions, font.bit b i = true := by
  by_contra hnone
  refine hblank (font.distinct b (mem_printables.2 hb) (ascii ' ')
    (mem_printables.2 (by decide)) fun i hi => ?_)
  rw [blank_bit hi]
  exact Bool.eq_false_iff.2 fun hbit => hnone ⟨i, hi, hbit⟩

/-! ## A cell -/

/-- The cell is on the screen, all of it. -/
def OnScreen (r : Raster) (cell : ℕ × ℕ) : Prop :=
  (cell.2 + 1) * PTY_FONT_WIDTH ≤ r.width ∧
    (cell.1 + 1) * PTY_FONT_HEIGHT ≤ r.height

/-- A pixel of a cell. -/
def inCell (cell i : ℕ × ℕ) : ℕ × ℕ :=
  (cell.2 * PTY_FONT_WIDTH + i.1, cell.1 * PTY_FONT_HEIGHT + i.2)

/-- The character in a cell and its colour, as the pixels have it. -/
def readCell (r : Raster) (m : Mem) (cell : ℕ × ℕ) : Option (Byte × Color) :=
  font.read 0 fun i => r.pixel m (inCell cell i)

/-- What can be seen of a text in a cell. -/
def visible (out : Text) (cell : ℕ × ℕ) : Option (Byte × Color) :=
  (Lines.cell isNewline out cell).filter fun p => p.1 ≠ ascii ' '

/-- No part of the text is in black. -/
def Inked (out : Text) : Prop := ∀ p ∈ out, p.2 ≠ 0

section Cell

variable {cell i : ℕ × ℕ} (hi : i ∈ font.positions)
include hi

theorem visible_inCell {r : Raster} (hon : OnScreen r cell) :
    r.Visible (inCell cell i) := by
  obtain ⟨hx, hy⟩ := mem_cellPixels.1 hi
  obtain ⟨hwidth, hheight⟩ := hon
  rw [Nat.succ_mul] at hwidth hheight
  exact ⟨Nat.lt_of_lt_of_le (Nat.add_lt_add_left hx _) hwidth,
    Nat.lt_of_lt_of_le (Nat.add_lt_add_left hy _) hheight⟩

theorem cellOf_inCell : cellOf (inCell cell i) = cell := by
  obtain ⟨hx, hy⟩ := mem_cellPixels.1 hi
  rw [cellOf, inCell]
  simp only [PTY_FONT_WIDTH, PTY_FONT_HEIGHT] at *
  exact Prod.ext (by dsimp only; omega) (by dsimp only; omega)

theorem ink_inCell (char : Byte × Color) :
    ink char (inCell cell i) = font.drawn 0 char.1 char.2 i := by
  obtain ⟨hx, hy⟩ := mem_cellPixels.1 hi
  have hcol : (inCell cell i).1 % PTY_FONT_WIDTH = i.1 :=
    Nat.mul_add_mod_of_lt hx
  have hrow : (inCell cell i).2 % PTY_FONT_HEIGHT = i.2 :=
    Nat.mul_add_mod_of_lt hy
  rw [ink, hcol, hrow]
  rfl

end Cell

section Reads

variable {fb : Framebuffer} {h : Geometry fb} {init : Mem} {out : Text}
variable {st : Pty}

/-- On a screen that was black, every cell reads as what stands there. -/
theorem Shows.readCell (hst : Shows h init out st) (hdraw : Drawable out)
    (hink : Inked out)
    (hblack : ∀ p, h.raster.Visible p → h.raster.pixel init p = 0)
    {cell : ℕ × ℕ} (hon : OnScreen h.raster cell) :
    VegaOS.readCell h.raster st.video.mem cell = visible out cell := by
  have hpixel : ∀ i ∈ font.positions,
      h.raster.pixel st.video.mem (inCell cell i) =
        ((Lines.cell isNewline out cell).map fun char =>
          font.drawn 0 char.1 char.2 i).getD 0 := by
    intro i hi
    rw [hst.pixel _ (visible_inCell hi hon), shade, cellOf_inCell hi,
      hblack _ (visible_inCell hi hon)]
    congr 2
    exact funext fun char => ink_inCell hi char
  rw [VegaOS.readCell, visible]
  cases hcell : Lines.cell isNewline out cell with
  | none =>
      refine Glyphs.Alphabet.read_ground fun i hi => ?_
      rw [hpixel i hi, hcell]
      rfl
  | some char =>
      obtain ⟨hmem, hline⟩ := Lines.mem_of_cell hcell
      have hprint : Printable char.1 :=
        (hdraw char hmem).resolve_left (of_decide_eq_false hline)
      have hdrawn : ∀ i ∈ font.positions,
          h.raster.pixel st.video.mem (inCell cell i) =
            font.drawn 0 char.1 char.2 i := by
        intro i hi
        rw [hpixel i hi, hcell]
        rfl
      by_cases hblank : char.1 = ascii ' '
      · rw [Option.filter_some, if_neg (by simp [hblank])]
        refine Glyphs.Alphabet.read_ground fun i hi => ?_
        rw [hdrawn i hi, Glyphs.Alphabet.drawn, hblank, blank_bit hi]
        exact if_neg Bool.false_ne_true
      · obtain ⟨i, hi, hbit⟩ := exists_bit hprint hblank
        rw [Option.filter_some, if_pos (by simp [hblank])]
        exact Glyphs.Alphabet.read_drawn (mem_printables.2 hprint)
          (hink char hmem) hi hbit hdrawn

end Reads

/-! ## Every message -/

theorem getColor_ne_zero (code : Byte) : getColor code ≠ 0 := by
  simp only [getColor]
  split_ifs <;> decide

theorem inked_map {color : Color} (hcolor : color ≠ 0) (s : List Byte) :
    Inked (s.map fun c => (c, color)) := by
  intro p hp
  obtain ⟨c, -, rfl⟩ := List.mem_map.1 hp
  exact hcolor

theorem Inked.append {out out' : Text} (h : Inked out) (h' : Inked out') :
    Inked (out ++ out') :=
  List.forall_mem_append.2 ⟨h, h'⟩

theorem inked_render (args : List Arg) (fmt : List Byte) {color : Color}
    (hcolor : color ≠ 0) : Inked (render color args fmt).out := by
  induction color, args, fmt using render.induct with
  | case1 color args => exact fun p hp => absurd hp List.not_mem_nil
  | case2 color args b hend =>
      rw [render, if_pos hend]
      exact fun p hp => absurd hp List.not_mem_nil
  | case3 color args b hplain =>
      rw [render, if_neg hplain]
      exact inked_map hcolor [b]
  | case4 color args code s ih => exact ih (getColor_ne_zero code)
  | case5 color args d s _ ih =>
      exact (inked_map hcolor (convText d args)).append (ih hcolor)
  | case6 color args b d s hesc hpct ih =>
      rw [render, if_neg hesc, if_neg hpct]
      exact (inked_map hcolor [b]).append (ih hcolor)

theorem inked_allText {abi : Abi} {mem : Mem} (ms : List (Message abi mem)) :
    Inked (allText ms) := by
  have hdefault : PRINTK_DEFAULT_FG ≠ 0 := by decide
  intro p hp
  obtain ⟨m, -, hp⟩ := List.mem_flatMap.1 hp
  exact inked_render m.args m.fmt hdefault p hp

/-- Any run of `printk` on a black screen, from its corner on, where the messages
can be drawn and fit: afterwards every cell that is on the screen, as its pixels
are in memory, reads as what the messages have there. -/
theorem printk_reads {fb : Framebuffer} (h : Geometry fb) (t : Target)
    {mem : Mem} {st : Pty} (hfb : st.video.response = some fb)
    (hcursor : st.cursor = ⟨0, 0⟩)
    (hblack : ∀ p, h.raster.Visible p → h.raster.pixel st.video.mem p = 0)
    (ms : List (Message t.abi mem)) (rest : ℕ → Byte) {fuel n : ℕ}
    (hfuel : ∀ m ∈ ms, m.fmt.length < fuel) (hdraw : Drawable (allText ms))
    (hfit : Fits (allText ms)) (hn : (allText ms).length < n)
    (console : Console) : ∃ calls console' st',
      printkAll rest fuel ms console = .ok () console' ∧
      console'.calls = console.calls ++ calls ∧
      deliver t n mem calls st = .ok () st' ∧
      ∀ cell, OnScreen h.raster cell →
        readCell h.raster st'.video.mem cell = visible (allText ms) cell := by
  have hst : Shows h st.video.mem [] st := Shows.start hfb hcursor
  obtain ⟨calls, console', hrun, hcalls, hout⟩ :=
    run_printkAll rest hfuel console
  obtain ⟨st', hput, hst'⟩ := hst.putBytes t hdraw hfit
  rw [← deliver_eq t hn hout] at hput
  exact ⟨calls, console', st', hrun, hcalls, hput, fun cell hon =>
    hst'.readCell hdraw (inked_allText ms) hblack hon⟩

/-- A terminal that has drawn nothing yet, on a black screen. -/
def dark : Pty := ⟨⟨some console, fun _ => 0⟩, 0, 0, []⟩

/-- Two letters in red, the second in the last column there is. -/
theorem printk_reads_letters : ∃ calls console' st',
    printkAll (fun _ => 0) 7 [redLetters] noStrings = .ok () console' ∧
      deliver ⟨.aapcs64, fun _ => 0⟩ 3 (fun _ => 0) calls dark = .ok () st' ∧
      readCell geometry_console.raster st'.video.mem (0, 1) =
        some (ascii 'B', 0xFF0000) := by
  have hblack (a : Word) : read32 (fun _ => 0) a = 0 := by
    show ofBytes32 (fun _ => 0) = 0
    decide
  obtain ⟨calls, console', st', hrun, -, hdeliver, hread⟩ :=
    printk_reads geometry_console ⟨.aapcs64, fun _ => 0⟩
      (show dark.video.response = some console from rfl) rfl
      (fun p _ => hblack _) [redLetters] (fun _ => 0)
      (show ∀ m ∈ [redLetters], m.fmt.length < 7 by decide)
      (by decide) (by decide) (show _ < 3 by decide) noStrings
  refine ⟨calls, console', st', hrun, hdeliver, ?_⟩
  exact hread (0, 1) (show OnScreen _ _ from ⟨by decide, by decide⟩)

end VegaOS
