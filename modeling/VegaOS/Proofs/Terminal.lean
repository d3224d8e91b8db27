import VegaOS.Lib.Lines
import VegaOS.Proofs.PrintkRender

/-!
# What the screen shows

Seen from outside, the terminal is a sheet that text is written on: characters
stand in cells of nine by sixteen pixels, line by line from the top left
corner, and nothing scrolls. `Shows` says so of a state, pixel by pixel, and
drawing a byte keeps it, for the text with that byte appended. So whatever
calls of `pty_putstr` a run makes, the screen shows the text they deliver, each
character in the colour it came with.

Cells that do not fit on the screen are clipped, and a line or a column that
32 bits do not reach is excluded by `Fits`.
-/

namespace VegaOS

open ByteMem Trace

/-- A text, each byte with its colour. -/
abbrev Text := List (Byte × Color)

def isNewline (p : Byte × Color) : Bool := p.1 = ascii '\n'

/-- What the terminal can draw. -/
def Drawable (out : Text) : Prop :=
  ∀ p ∈ out, p.1 = ascii '\n' ∨ Printable p.1

instance (out : Text) : Decidable (Drawable out) :=
  List.decidableBAll (fun p : Byte × Color => p.1 = ascii '\n' ∨ Printable p.1) out

/-- Every character has a cell whose coordinates do not wrap. -/
def Fits (out : Text) : Prop :=
  Lines.Within isNewline (2 ^ 32 / PTY_FONT_WIDTH) (2 ^ 32 / PTY_FONT_HEIGHT)
    out

instance (out : Text) : Decidable (Fits out) :=
  inferInstanceAs (Decidable (Lines.Within _ _ _ _))

/-- Where a cell, given by its line and column, is drawn. -/
def Cursor.ofCell (cell : ℕ × ℕ) : Cursor :=
  ⟨BitVec.ofNat 32 (cell.2 * PTY_FONT_WIDTH),
    BitVec.ofNat 32 (cell.1 * PTY_FONT_HEIGHT)⟩

/-- The cell a pixel belongs to. -/
def cellOf (p : ℕ × ℕ) : ℕ × ℕ :=
  (p.2 / PTY_FONT_HEIGHT, p.1 / PTY_FONT_WIDTH)

/-- The colour of a pixel of a character's cell. -/
def ink (char : Byte × Color) (p : ℕ × ℕ) : Color :=
  if Glyph.bit ⟨.ofCell (cellOf p), char.1⟩ (p.1 % PTY_FONT_WIDTH)
    (p.2 % PTY_FONT_HEIGHT) then char.2 else 0

/-- The colour of a pixel under a text, if a character stands there. -/
def shade (out : Text) (p : ℕ × ℕ) : Option Color :=
  (Lines.cell isNewline out (cellOf p)).map fun char => ink char p

/-- The screen shows the text, and `init` where there is none. -/
structure Shows {fb : Framebuffer} (h : Geometry fb) (init : Mem) (out : Text)
    (st : Pty) : Prop where
  response : st.video.response = some fb
  cursor : st.cursor = .ofCell (Lines.next isNewline out)
  pixel : ∀ p, h.raster.Visible p → h.raster.pixel st.video.mem p =
    (shade out p).getD (h.raster.pixel init p)
  frame : ∀ a, ¬ h.raster.Shown a → st.video.mem a = init a

/-! ## Cells and cursors -/

theorem Cursor.advance_ofCell (b : Byte) (out : Text) (color : Color) :
    (Cursor.ofCell (Lines.next isNewline out)).advance b =
      .ofCell (Lines.next isNewline (out ++ [(b, color)])) := by
  by_cases hnl : b = ascii '\n'
  · subst hnl
    have hline : isNewline (ascii '\n', color) = true := decide_eq_true rfl
    rw [Cursor.advance_newline, Lines.next_concat_nl out hline, Cursor.ofCell,
      Cursor.ofCell, Nat.succ_mul, BitVec.ofNat_add, Nat.zero_mul]
    rfl
  · have hline : isNewline (b, color) = false := decide_eq_false hnl
    rw [Cursor.advance_char hnl, Lines.next_concat out hline, Cursor.ofCell,
      Cursor.ofCell, Nat.succ_mul, BitVec.ofNat_add]

section Cell

variable {cell : ℕ × ℕ} (hline : cell.1 < 2 ^ 32 / PTY_FONT_HEIGHT)
variable (hcol : cell.2 < 2 ^ 32 / PTY_FONT_WIDTH)
include hline hcol

theorem toNat_ofCell : (Cursor.ofCell cell).x.toNat = cell.2 * PTY_FONT_WIDTH ∧
    (Cursor.ofCell cell).y.toNat = cell.1 * PTY_FONT_HEIGHT := by
  simp only [PTY_FONT_WIDTH, PTY_FONT_HEIGHT] at *
  simp only [Cursor.ofCell, BitVec.toNat_ofNat, PTY_FONT_WIDTH,
    PTY_FONT_HEIGHT]
  omega

theorem moves_ofCell (b : Byte) (hnl : b ≠ ascii '\n') :
    (Cursor.ofCell cell).MovesAll [b] := by
  refine ⟨?_, trivial⟩
  rw [Cursor.Moves, if_neg hnl, (toNat_ofCell hline hcol).1]
  simp only [PTY_FONT_WIDTH] at *
  omega

/-- The pixels of a cell, from its corner on. -/
theorem pos_ofCell (b : Byte) {cx cy : ℕ} (hcx : cx < PTY_FONT_WIDTH)
    (hcy : cy < PTY_FONT_HEIGHT) : Glyph.pos ⟨.ofCell cell, b⟩ cx cy =
      (cell.2 * PTY_FONT_WIDTH + cx, cell.1 * PTY_FONT_HEIGHT + cy) := by
  obtain ⟨hx, hy⟩ := toNat_ofCell hline hcol
  rw [Glyph.pos_eq hcx hcy, hx, hy]
  simp only [PTY_FONT_WIDTH, PTY_FONT_HEIGHT] at *
  rw [Nat.mod_eq_of_lt (by omega), Nat.mod_eq_of_lt (by omega)]

/-- A character covers exactly the pixels of its cell. -/
theorem covers_ofCell (b : Byte) (p : ℕ × ℕ) :
    Glyph.Covers ⟨.ofCell cell, b⟩ p ↔ cellOf p = cell := by
  constructor
  · intro ⟨cx, hcx, cy, hcy, hp⟩
    rw [hp, pos_ofCell hline hcol b hcx hcy, cellOf]
    simp only [PTY_FONT_WIDTH, PTY_FONT_HEIGHT] at *
    exact Prod.ext (by dsimp only; omega) (by dsimp only; omega)
  · intro hcell
    refine ⟨p.1 % PTY_FONT_WIDTH, Nat.mod_lt _ (by decide),
      p.2 % PTY_FONT_HEIGHT, Nat.mod_lt _ (by decide), ?_⟩
    rw [pos_ofCell hline hcol b (Nat.mod_lt _ (by decide))
      (Nat.mod_lt _ (by decide)), ← hcell, cellOf, Nat.div_add_mod',
      Nat.div_add_mod']

end Cell

/-! ## One byte -/

section Draw

variable {fb : Framebuffer} {h : Geometry fb}

/-- The pixels after a character: those of its cell show it, and the others
are as they were. -/
theorem pixel_char {out : Text} {b : Byte} {color : Color}
    (hnl : b ≠ ascii '\n') (hfit : Fits (out ++ [(b, color)])) (m : Mem)
    {p : ℕ × ℕ} (hp : h.raster.Visible p) :
    h.raster.pixel (h.raster.paint m (textDots color
        (.ofCell (Lines.next isNewline out)) [b])) p =
      if cellOf p = Lines.next isNewline out then ink (b, color) p
      else h.raster.pixel m p := by
  obtain ⟨hline, hcol⟩ := hfit.next_lt (decide_eq_false hnl)
  have hfit' := moves_ofCell hline hcol b hnl
  have hplaced : placed (.ofCell (Lines.next isNewline out)) [b] =
      [⟨.ofCell (Lines.next isNewline out), b⟩] := placed_char hnl []
  by_cases hcell : cellOf p = Lines.next isNewline out
  · rw [if_pos hcell, ink, hcell]
    obtain ⟨cx, hcx, cy, hcy, rfl⟩ := (covers_ofCell hline hcol b p).2 hcell
    have hpixel := Pty.pixel_of_placed (h := h) hfit'
      (hplaced ▸ List.mem_singleton_self _) hcx hcy hp color m
    have hx : (cx + Prod.snd (Lines.next isNewline out) * PTY_FONT_WIDTH) %
        PTY_FONT_WIDTH = cx := by
      rw [Nat.add_mul_mod_self_right, Nat.mod_eq_of_lt hcx]
    have hy : (cy + Prod.fst (Lines.next isNewline out) * PTY_FONT_HEIGHT) %
        PTY_FONT_HEIGHT = cy := by
      rw [Nat.add_mul_mod_self_right, Nat.mod_eq_of_lt hcy]
    rw [hpixel, pos_ofCell hline hcol b hcx hcy, Nat.add_comm _ cx,
      Nat.add_comm _ cy, hx, hy]
  · rw [if_neg hcell]
    refine Pty.pixel_of_not_placed hp (fun g hg hcovers => hcell ?_) color m
    rw [hplaced, List.mem_singleton] at hg
    subst hg
    exact (covers_ofCell hline hcol b p).1 hcovers

theorem shade_newline (out : Text) (color : Color) :
    shade (out ++ [(ascii '\n', color)]) = shade out := by
  funext p
  rw [shade, Lines.cell_concat_nl out (decide_eq_true rfl), shade]

theorem shade_char {b : Byte} (hnl : b ≠ ascii '\n') (out : Text)
    (color : Color) (p : ℕ × ℕ) : shade (out ++ [(b, color)]) p =
      if cellOf p = Lines.next isNewline out then some (ink (b, color) p)
      else shade out p := by
  rw [shade, Lines.cell_concat out (decide_eq_false hnl), Function.update_apply]
  split
  · rfl
  · rfl

theorem shade_cons {b : Byte} (hnl : b ≠ ascii '\n') (out : Text)
    (color : Color) {p : ℕ × ℕ} (hp : cellOf p = (0, 0)) :
    shade ((b, color) :: out) p = some (ink (b, color) p) := by
  rw [shade, hp, Lines.cell_cons out (decide_eq_false hnl)]
  rfl

/-- Drawing a byte appends it to the text that is shown. -/
theorem Shows.putByte {init : Mem} {out : Text} {st : Pty}
    (hst : Shows h init out st) (t : Target) {b : Byte} {color : Color}
    (hb : b = ascii '\n' ∨ Printable b) (hfit : Fits (out ++ [(b, color)])) :
    ∃ st', Pty.putByte t b color st = .ok () st' ∧
      Shows h init (out ++ [(b, color)]) st' := by
  obtain ⟨st', hrun, hvideo, hcursor⟩ :=
    Pty.run_putByte (h := h) t color hb hst.response
  refine ⟨st', hrun, ?_, ?_, fun p hp => ?_, fun a ha => ?_⟩
  · rw [hvideo]
    exact hst.response
  · rw [hcursor, hst.cursor, Cursor.advance_ofCell]
  · rw [hvideo, hst.cursor]
    by_cases hnl : b = ascii '\n'
    · subst hnl
      rw [shade_newline]
      exact hst.pixel p hp
    · refine (pixel_char hnl hfit st.video.mem hp).trans ?_
      rw [shade_char hnl]
      split
      · rfl
      · exact hst.pixel p hp
  · rw [hvideo]
    exact (Raster.paint_frame ha _ st.video.mem).trans (hst.frame a ha)

/-! ## Any text -/

theorem Shows.putBytes {init : Mem} (t : Target) {more : Text}
    (hmore : Drawable more) : ∀ {out : Text} {st : Pty}, Shows h init out st →
      Fits (out ++ more) → ∃ st',
        (more.forM fun p => Pty.putByte t p.1 p.2) st = .ok () st' ∧
          Shows h init (out ++ more) st' := by
  induction more with
  | nil =>
      intro out st hst _
      exact ⟨st, rfl, by rwa [List.append_nil]⟩
  | cons p more ih =>
      intro out st hst hfit
      have hassoc : out ++ p :: more = (out ++ [p]) ++ more := by simp
      rw [hassoc] at hfit ⊢
      obtain ⟨st₁, hrun₁, hst₁⟩ := hst.putByte t
        (hmore p List.mem_cons_self) (hfit.of_append)
      obtain ⟨st', hrun, hst'⟩ := ih
        (fun q hq => hmore q (List.mem_cons_of_mem p hq)) hst₁ hfit
      exact ⟨st', (run_bind_ok hrun₁).trans hrun, hst'⟩

/-- An empty screen shows the empty text. -/
theorem Shows.start {st : Pty} (hst : st.video.response = some fb)
    (hcursor : st.cursor = ⟨0, 0⟩) : Shows h st.video.mem [] st where
  response := hst
  cursor := hcursor
  pixel p _ := by rw [shade, Lines.cell_nil, Option.map_none, Option.getD_none]
  frame _ _ := rfl

/-- A change elsewhere in memory, made before the text was drawn or after. -/
theorem Shows.localTo {init : Mem} {out : Text} {st : Pty}
    (hst : Shows h init out st) {B : Word → Prop} {f : Mem → Mem}
    (hf : LocalTo B f) (hB : ∀ a, B a → ¬ h.raster.Shown a) :
    Shows h (f init) out
      { st with video := { st.video with mem := f st.video.mem } } where
  response := hst.response
  cursor := hst.cursor
  pixel p hp := by
    have hkeeps : ∀ m, h.raster.pixel (f m) p = h.raster.pixel m p :=
      fun m => read32_congr fun x hx =>
        hf.frame m x fun hin => hB x hin ⟨p, hp, hx⟩
    rw [hkeeps, hkeeps]
    exact hst.pixel p hp
  frame a ha := by
    by_cases hin : B a
    · exact hf.congr _ _ (fun b hb => hst.frame b (hB b hb)) a hin
    · refine (hf.frame st.video.mem a hin).trans ?_
      rw [hf.frame init a hin]
      exact hst.frame a ha

end Draw

/-- Whatever calls of `pty_putstr` are made, one after another, from any state
whose screen shows a text: it then shows that text and behind it what the calls
deliver. -/
theorem deliver_shows {fb : Framebuffer} (h : Geometry fb) (t : Target)
    {mem init : Mem} {calls : List Putstr} {out out' : Text} {st : Pty}
    (hst : Shows h init out st) (hcalls : Delivers mem calls out')
    (hdraw : Drawable out') (hfit : Fits (out ++ out')) {fuel : ℕ}
    (hfuel : out'.length < fuel) : ∃ st',
      deliver t fuel mem calls st = .ok () st' ∧
        Shows h init (out ++ out') st' := by
  rw [deliver_eq t hfuel hcalls]
  exact hst.putBytes t hdraw hfit

/-- A terminal that has drawn nothing yet. -/
def blank : Pty := ⟨⟨some console, fun _ => 7⟩, 0, 0, []⟩

theorem shows_blank : Shows geometry_console blank.video.mem [] blank :=
  Shows.start rfl rfl

/-- `"A\n"` in white and `"B"` in red: the corner of the `B` on the second
line, and nothing to the right of the `A`. -/
theorem deliver_shows_letters : ∃ st',
    deliver ⟨.aapcs64, fun _ => 0⟩ 5 (fun _ => 0)
        [⟨none, .chars [ascii 'A', ascii '\n'], 0xFFFFFF⟩,
          ⟨none, .chars [ascii 'B'], 0xFF0000⟩] blank = .ok () st' ∧
      geometry_console.raster.pixel st'.video.mem (0, 16) = 0xFF0000 ∧
      geometry_console.raster.pixel st'.video.mem (12, 3) =
        geometry_console.raster.pixel blank.video.mem (12, 3) := by
  let calls : List Putstr := [⟨none, .chars [ascii 'A', ascii '\n'], 0xFFFFFF⟩,
    ⟨none, .chars [ascii 'B'], 0xFF0000⟩]
  let out : Text := [(ascii 'A', 0xFFFFFF), (ascii '\n', 0xFFFFFF),
    (ascii 'B', 0xFF0000)]
  have hcalls : Delivers (fun _ => 0) calls out :=
    ⟨[ascii 'A', ascii '\n'], [(ascii 'B', 0xFF0000)],
      isCString_chars (by decide),
      ⟨[ascii 'B'], [], isCString_chars (by decide), rfl, rfl⟩, rfl⟩
  have hfit : Fits ([] ++ out) := by decide
  obtain ⟨st', hrun, hst'⟩ := deliver_shows geometry_console
    ⟨.aapcs64, fun _ => 0⟩ shows_blank hcalls (by decide) hfit
    (show out.length < 5 by decide)
  exact ⟨st', hrun, hst'.pixel (0, 16) (by decide),
    hst'.pixel (12, 3) (by decide)⟩

end VegaOS
