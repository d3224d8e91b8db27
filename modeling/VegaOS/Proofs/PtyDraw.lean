import VegaOS.Proofs.PtyFont
import VegaOS.Proofs.PtyLayout

/-!
# What `pty_putstr` leaves on the screen

A string paints the dots of its characters, one cell after another. As no two
cells meet, each visible pixel of a cell ends up in the colour of its own dot,
and every other pixel is as before. The loop is a fold over the string: drawing
a string and then another is drawing the two as one.
-/

namespace VegaOS

open ByteMem Trace

namespace Glyph

/-- The pixels of a cell, column by column. -/
def dots (g : Glyph) (fg bg : BitVec 32) : List Dot :=
  (List.range PTY_FONT_WIDTH).flatMap fun cx =>
    (List.range PTY_FONT_HEIGHT).flatMap fun cy =>
      [⟨g.pos cx cy, if g.bit cx cy then fg else bg⟩]

theorem mem_dots {g : Glyph} {fg bg : BitVec 32} {d : Dot} :
    d ∈ g.dots fg bg ↔
      ∃ cx < PTY_FONT_WIDTH, ∃ cy < PTY_FONT_HEIGHT,
        d = ⟨g.pos cx cy, if g.bit cx cy then fg else bg⟩ := by
  simp only [dots, List.mem_flatMap, List.mem_range, List.mem_singleton]

end Glyph

/-- The dots of a string that is drawn from a cursor on. -/
def textDots (color : BitVec 32) (c : Cursor) (s : List Byte) : List Dot :=
  (placed c s).flatMap fun g => g.dots color 0

namespace Pty

/-! ## The loop is a fold -/

/-- What `pty_putstr` does with a byte. -/
def putByte (t : Target) (b : Byte) (color : BitVec 32) : Tty Unit :=
  if b = ascii '\n' then newline else drawChar t b color

theorem loop_eq (t : Target) {str : ℕ → Byte} (color : BitVec 32)
    {s : List Byte} (hs : ∀ b ∈ s, b ≠ 0) :
    ∀ {fuel i : ℕ}, s.length < fuel → ReadsAt str i (s ++ [0]) →
      ptyPutstr.loop t str color fuel i =
        s.forM fun b => putByte t b color := by
  induction s with
  | nil =>
      intro fuel i hfuel hstr
      obtain ⟨hend, -⟩ := hstr
      obtain ⟨n, rfl⟩ : ∃ n, fuel = n + 1 := ⟨fuel - 1, by omega⟩
      rw [ptyPutstr.loop, if_pos hend]
      rfl
  | cons b s ih =>
      intro fuel i hfuel hstr
      obtain ⟨hfirst, hrest⟩ := hstr
      rw [List.length_cons] at hfuel
      obtain ⟨n, rfl⟩ : ∃ n, fuel = n + 1 := ⟨fuel - 1, by omega⟩
      have hnext := ih (fun b' hb' => hs b' (List.mem_cons_of_mem b hb'))
        (show s.length < n by omega) hrest
      rw [ptyPutstr.loop, hfirst, if_neg (hs b List.mem_cons_self), hnext]
      simp only [List.forM_eq_forM, List.forM_cons, putByte]
      split
      · rfl
      · rfl

theorem ptyPutstr_eq_forM (t : Target) (color : BitVec 32) {s : List Byte}
    (hs : ∀ b ∈ s, b ≠ 0) (rest : ℕ → Byte) {fuel : ℕ}
    (hfuel : s.length < fuel) :
    ptyPutstr t fuel (terminated s rest) color =
      s.forM fun b => putByte t b color :=
  loop_eq t color hs hfuel (readsAt_terminated s rest)

/-- Drawing a string and then another is drawing the two as one. -/
theorem ptyPutstr_append (t : Target) (color : BitVec 32) {s u : List Byte}
    (hs : ∀ b ∈ s, b ≠ 0) (hu : ∀ b ∈ u, b ≠ 0) (rest rest' rest'' : ℕ → Byte)
    {m n k : ℕ} (hm : s.length < m) (hn : u.length < n)
    (hk : (s ++ u).length < k) :
    (ptyPutstr t m (terminated s rest) color >>= fun _ =>
      ptyPutstr t n (terminated u rest') color) =
        ptyPutstr t k (terminated (s ++ u) rest'') color := by
  have hsu : ∀ b ∈ s ++ u, b ≠ 0 := fun b hb =>
    (List.mem_append.1 hb).elim (hs b) (hu b)
  rw [ptyPutstr_eq_forM t color hs rest hm, ptyPutstr_eq_forM t color hu rest' hn,
    ptyPutstr_eq_forM t color hsu rest'' hk]
  exact List.forM_append.symm

/-! ## Drawing paints dots -/

section Paints

variable {fb : Framebuffer} (h : Geometry fb)

/-- On this framebuffer the code paints the dots and moves no cursor. -/
def Paints (dots : List Dot) (x : Tty Unit) : Prop :=
  ∀ s : Pty, s.video.response = some fb → ∃ s',
    x s = .ok () s' ∧
    s'.video = { s.video with mem := h.raster.paint s.video.mem dots } ∧
    s'.cursor = s.cursor

variable {h}

theorem Paints.bind {dots dots' : List Dot} {x y : Tty Unit}
    (hx : Paints h dots x) (hy : Paints h dots' y) :
    Paints h (dots ++ dots') (x >>= fun _ => y) := by
  intro s hs
  obtain ⟨s', hrun, hvideo, hcursor⟩ := hx s hs
  have hs' : s'.video.response = some fb := by rw [hvideo, ← hs]
  obtain ⟨s'', hrun', hvideo', hcursor'⟩ := hy s' hs'
  refine ⟨s'', (run_bind_ok hrun).trans hrun', ?_, hcursor'.trans hcursor⟩
  rw [hvideo', hvideo, Raster.paint_append]

theorem Paints.forM {α : Type} {f : α → Tty Unit} {dots : α → List Dot}
    {l : List α} (hf : ∀ a ∈ l, Paints h (dots a) (f a)) :
    Paints h (l.flatMap dots) (l.forM f) := by
  induction l with
  | nil => exact fun s _ => ⟨s, rfl, rfl, rfl⟩
  | cons a l ih =>
      exact Paints.bind (hf a List.mem_cons_self)
        (ih fun b hb => hf b (List.mem_cons_of_mem a hb))

/-- The one bit that is left of a column. -/
theorem shift_and_one (data : BitVec 16) (cy : ℕ) :
    ((data >>> cy) &&& 1 ≠ 0) ↔ data.getLsbD cy = true := by
  have hone : (data >>> cy) &&& 1#16 =
      (BitVec.ofBool (data.getLsbD cy)).setWidth 16 := by
    rw [BitVec.and_one_eq_setWidth_ofBool_getLsbD, BitVec.getLsbD_ushiftRight,
      Nat.add_zero]
  show (data >>> cy) &&& 1#16 ≠ 0#16 ↔ _
  rw [hone]
  cases data.getLsbD cy <;> decide

/-- What is read of the font for a printable character, on either platform. -/
theorem fontData_printable (t : Target) {b : Byte} (hb : Printable b) {cx : ℕ}
    (hcx : cx < PTY_FONT_WIDTH) (default : BitVec 16) :
    DEFAULT_FONT_DATA.getD (fontIndex t.abi (b - 32) cx).toNat default =
      DEFAULT_FONT_DATA.getD ((b.toNat - 32) * PTY_FONT_WIDTH + cx) 0 := by
  have hlt := (fontIndex_lt_iff t.abi b hcx).2 hb
  have hsub : (b - 32).toNat = b.toNat - 32 := by
    have hle := hb.1
    bv_omega
  have hindex : (fontIndex t.abi (b - 32) cx).toNat =
      (b.toNat - 32) * PTY_FONT_WIDTH + cx := by
    rcases toNat_fontIndex t.abi (b - 32) hcx with hval | ⟨hneg, -⟩
    · rw [hval, hsub]
      rfl
    · have hle := hb.2
      omega
  rw [hindex] at hlt ⊢
  rw [List.getD_eq_getElem?_getD, List.getD_eq_getElem?_getD,
    List.getElem?_eq_getElem hlt]
  rfl

theorem onVideo_ok {α : Type} {x : Fb α} {s : Pty} {a : α} {v : Video}
    (hx : x s.video = .ok a v) :
    onVideo x s = .ok a { s with video := v } := by
  rw [onVideo, hx]

theorem paints_drawDot (t : Target) {b : Byte} (hb : Printable b) (c : Cursor)
    (fg bg : BitVec 32) {cx : ℕ} (hcx : cx < PTY_FONT_WIDTH) (cy : ℕ) :
    Paints h [⟨Glyph.pos ⟨c, b⟩ cx cy,
        if Glyph.bit ⟨c, b⟩ cx cy then fg else bg⟩]
      (drawDot t c.x c.y (b - 32) fg bg cx cy) := by
  intro s hs
  have hdata : fontData t (fontIndex t.abi (b - 32) cx) s =
      .ok (DEFAULT_FONT_DATA.getD ((b.toNat - 32) * PTY_FONT_WIDTH + cx) 0)
        { s with fontReads := s.fontReads ++ [fontIndex t.abi (b - 32) cx] } := by
    rw [← fontData_printable t hb hcx (t.pastFont _)]
    rfl
  have hcolor : ∀ data : BitVec 16,
      (if (data >>> cy) &&& 1 ≠ 0 then fg else bg) =
        if data.getLsbD cy then fg else bg := fun data =>
    if_congr (shift_and_one data cy) rfl rfl
  rw [drawDot, run_bind_ok hdata, hcolor]
  exact ⟨_, run_bind_ok (onVideo_ok (fbPutpix_eq h hs _ _ _)), rfl, rfl⟩

theorem paints_ptyPutch (t : Target) {b : Byte} (hb : Printable b) (c : Cursor)
    (fg bg : BitVec 32) :
    Paints h (Glyph.dots ⟨c, b⟩ fg bg) (ptyPutch t c.x c.y b fg bg) :=
  Paints.forM fun _ hcx => Paints.forM fun cy _ =>
    paints_drawDot t hb c fg bg (List.mem_range.1 hcx) cy

theorem run_newline (s : Pty) : newline s = .ok () { s with
    cursorY := s.cursorY + BitVec.ofNat 32 PTY_FONT_HEIGHT, cursorX := 0 } :=
  rfl

theorem run_drawChar (t : Target) {b : Byte} (hb : Printable b)
    (color : BitVec 32) {s : Pty} (hs : s.video.response = some fb) : ∃ s',
      drawChar t b color s = .ok () s' ∧
      s'.video = { s.video with
        mem := h.raster.paint s.video.mem (Glyph.dots ⟨s.cursor, b⟩ color 0) } ∧
      s'.cursor =
        ⟨s.cursor.x + BitVec.ofNat 32 PTY_FONT_WIDTH, s.cursor.y⟩ := by
  have hget : (get : Tty Pty) s = .ok s s := rfl
  obtain ⟨s', hrun, hvideo, hcursor⟩ :=
    paints_ptyPutch (h := h) t hb s.cursor color 0 s hs
  rw [drawChar, run_bind_ok hget]
  refine ⟨_, run_bind_ok hrun, hvideo, ?_⟩
  rw [← hcursor]
  rfl

/-- A byte paints the dots of its character, if it has one, and moves the
cursor. -/
theorem run_putByte (t : Target) (color : BitVec 32) {b : Byte}
    (hb : b = ascii '\n' ∨ Printable b) {s : Pty}
    (hs : s.video.response = some fb) : ∃ s',
      putByte t b color s = .ok () s' ∧
      s'.video = { s.video with
        mem := h.raster.paint s.video.mem (textDots color s.cursor [b]) } ∧
      s'.cursor = s.cursor.advance b := by
  by_cases hnl : b = ascii '\n'
  · subst hnl
    rw [putByte, if_pos rfl, Cursor.advance_newline]
    exact ⟨_, run_newline s, rfl, rfl⟩
  · obtain ⟨s', hrun, hvideo, hcursor⟩ :=
      run_drawChar (h := h) t (hb.resolve_left hnl) color hs
    rw [putByte, if_neg hnl, Cursor.advance_char hnl, textDots, placed_char hnl]
    refine ⟨s', hrun, ?_, hcursor⟩
    rw [hvideo, placed, List.flatMap_singleton]

theorem textDots_cons (color : BitVec 32) (c : Cursor) (b : Byte)
    (s : List Byte) : textDots color c (b :: s) =
      textDots color c [b] ++ textDots color (c.advance b) s := by
  simp only [textDots]
  rw [← List.flatMap_append]
  congr 1
  by_cases hnl : b = ascii '\n'
  · rw [placed, placed, if_pos hnl, if_pos hnl, placed, List.nil_append]
  · rw [placed_char hnl, placed_char hnl, placed]
    rfl

/-- A string paints its dots and leaves the cursor behind them. -/
theorem run_putBytes (t : Target) (color : BitVec 32) {s : List Byte}
    (hs : ∀ b ∈ s, b = ascii '\n' ∨ Printable b) :
    ∀ {st : Pty}, st.video.response = some fb → ∃ st',
      (s.forM fun b => putByte t b color) st = .ok () st' ∧
      st'.video = { st.video with
        mem := h.raster.paint st.video.mem (textDots color st.cursor s) } ∧
      st'.cursor = st.cursor.advanceAll s := by
  induction s with
  | nil => exact fun {st} _ => ⟨st, rfl, rfl, rfl⟩
  | cons b s ih =>
      intro st hst
      obtain ⟨st₁, hrun₁, hvideo₁, hcursor₁⟩ :=
        run_putByte (h := h) t color (hs b List.mem_cons_self) hst
      have hst₁ : st₁.video.response = some fb := by rw [hvideo₁, ← hst]
      obtain ⟨st', hrun, hvideo, hcursor⟩ :=
        ih (fun b' hb' => hs b' (List.mem_cons_of_mem b hb')) hst₁
      refine ⟨st', ?_, ?_, ?_⟩
      · exact (run_bind_ok hrun₁).trans hrun
      · rw [hvideo, hvideo₁, hcursor₁, textDots_cons color st.cursor b s,
          Raster.paint_append]
      · rw [hcursor, hcursor₁]
        rfl

end Paints

/-! ## The screen after a string -/

section Screen

variable {fb : Framebuffer} {h : Geometry fb} {c : Cursor} {s : List Byte}

/-- In a cell every visible pixel has the colour of the font's bit. -/
theorem pixel_of_placed (hfit : c.MovesAll s) {g : Glyph} (hg : g ∈ placed c s)
    {cx cy : ℕ} (hcx : cx < PTY_FONT_WIDTH) (hcy : cy < PTY_FONT_HEIGHT)
    (hp : h.raster.Visible (g.pos cx cy)) (color : BitVec 32) (m : Mem) :
    h.raster.pixel (h.raster.paint m (textDots color c s)) (g.pos cx cy) =
      if g.bit cx cy then color else 0 := by
  have hd : (⟨g.pos cx cy, if g.bit cx cy then color else 0⟩ : Dot) ∈
      textDots color c s :=
    List.mem_flatMap.2 ⟨g, hg, Glyph.mem_dots.2 ⟨cx, hcx, cy, hcy, rfl⟩⟩
  refine Raster.pixel_paint_of_mem hp hd rfl fun d' hd' hpos => ?_
  obtain ⟨g', hg', hdot⟩ := List.mem_flatMap.1 hd'
  obtain ⟨cx', hcx', cy', hcy', rfl⟩ := Glyph.mem_dots.1 hdot
  -- another character's cell does not reach here, and in this one only one dot does
  by_cases heq : g' = g
  · subst heq
    obtain ⟨rfl, rfl⟩ := Glyph.pos_injective hcx' hcy' hcx hcy hpos
    rfl
  · have hapart := (placed_apart hfit).forall hg' hg heq
    exact absurd ⟨cx, hcx, cy, hcy, hpos⟩
      (hapart _ ⟨cx', hcx', cy', hcy', rfl⟩)

theorem pixel_of_not_placed {p : ℕ × ℕ} (hp : h.raster.Visible p)
    (hout : ∀ g ∈ placed c s, ¬ g.Covers p) (color : BitVec 32) (m : Mem) :
    h.raster.pixel (h.raster.paint m (textDots color c s)) p =
      h.raster.pixel m p := by
  refine Raster.pixel_paint_of_not_mem hp fun d hd hpos => ?_
  obtain ⟨g, hg, hdot⟩ := List.mem_flatMap.1 hd
  obtain ⟨cx, hcx, cy, hcy, rfl⟩ := Glyph.mem_dots.1 hdot
  exact hout g hg ⟨cx, hcx, cy, hcy, hpos.symm⟩

end Screen

end Pty

/-- What a string leaves on the screen, and that only the bytes count and not
how they come. -/
theorem ptyPutstr_screen {fb : Framebuffer} (h : Geometry fb) (t : Target)
    (color : BitVec 32) :
    (∀ (s : List Byte) (rest : ℕ → Byte) (fuel : ℕ) (st : Pty),
      (∀ b ∈ s, b = ascii '\n' ∨ Printable b) → s.length < fuel →
      st.video.response = some fb → st.cursor.MovesAll s → ∃ st',
        Pty.ptyPutstr t fuel (terminated s rest) color st = .ok () st' ∧
        st'.video.response = some fb ∧
        st'.cursor = st.cursor.advanceAll s ∧
        (placed st.cursor s).map Glyph.char = s.filter (· ≠ ascii '\n') ∧
        (∀ g ∈ placed st.cursor s,
          ∀ cx < PTY_FONT_WIDTH, ∀ cy < PTY_FONT_HEIGHT,
            h.raster.Visible (g.pos cx cy) →
            h.raster.pixel st'.video.mem (g.pos cx cy) =
              if g.bit cx cy then color else 0) ∧
        (∀ p, h.raster.Visible p → (∀ g ∈ placed st.cursor s, ¬ g.Covers p) →
          h.raster.pixel st'.video.mem p = h.raster.pixel st.video.mem p) ∧
        (∀ a, ¬ h.raster.Shown a → st'.video.mem a = st.video.mem a) ∧
        (placed st.cursor s).Pairwise Glyph.Apart ∧
        ∀ g ∈ placed st.cursor s,
          ∀ cx < PTY_FONT_WIDTH, ∀ cy < PTY_FONT_HEIGHT,
            g.cursor.y.toNat + cy < 2 ^ 32 →
            g.pos cx cy =
              (g.cursor.x.toNat + cx, g.cursor.y.toNat + cy)) ∧
    ∀ (s u : List Byte) (rest rest' rest'' : ℕ → Byte) (m n k : ℕ),
      (∀ b ∈ s, b ≠ 0) → (∀ b ∈ u, b ≠ 0) → s.length < m → u.length < n →
      (s ++ u).length < k →
      (Pty.ptyPutstr t m (terminated s rest) color >>= fun _ =>
        Pty.ptyPutstr t n (terminated u rest') color) =
          Pty.ptyPutstr t k (terminated (s ++ u) rest'') color := by
  refine ⟨fun s rest fuel st hs hfuel hst hfit => ?_,
    fun s u rest rest' rest'' m n k hs hu hm hn hk =>
      Pty.ptyPutstr_append t color hs hu rest rest' rest'' hm hn hk⟩
  have hzero : ∀ b ∈ s, b ≠ 0 := fun b hb => by
    rcases hs b hb with rfl | ⟨hle, -⟩
    · decide
    · rintro rfl
      exact absurd hle (by decide)
  obtain ⟨st', hrun, hvideo, hcursor⟩ :=
    Pty.run_putBytes (h := h) t color hs hst
  refine ⟨st', ?_, ?_, hcursor, map_char_placed s st.cursor, ?_, ?_, ?_,
    placed_apart hfit, ?_⟩
  · rw [Pty.ptyPutstr_eq_forM t color hzero rest hfuel, hrun]
  · rw [hvideo, ← hst]
  · intro g hg cx hcx cy hcy hp
    rw [hvideo]
    exact Pty.pixel_of_placed hfit hg hcx hcy hp color st.video.mem
  · intro p hp hout
    rw [hvideo]
    exact Pty.pixel_of_not_placed hp hout color st.video.mem
  · intro a ha
    rw [hvideo]
    exact Raster.paint_frame ha _ st.video.mem
  · intro g hg cx hcx cy hcy hy
    obtain ⟨-, hx⟩ := follows_of_placed hfit hg
    rw [Glyph.pos_eq hcx hcy, Nat.mod_eq_of_lt (by omega), Nat.mod_eq_of_lt hy]

/-- A screen of twenty by thirty pixels. -/
def console : Framebuffer := ⟨0x1000, 20, 30, 96⟩

theorem geometry_console : Geometry console where
  width_lt := by decide
  height_lt := by decide
  pitch_mod := by decide
  row_le := by decide
  index_le := by decide

/-- A terminal on it whose next character is clipped at the right edge. -/
def nearEdge : Pty := ⟨⟨some console, fun _ => 7⟩, 14, 5, []⟩

/-- `"A\nB"`: the top of the `A`, a pixel within it, and the corner of the
`B`, which is clipped at the bottom; in one call or two. -/
theorem ptyPutstr_screen_letters :
    (∃ st', Pty.ptyPutstr ⟨.aapcs64, fun _ => 0⟩ 4
        (terminated [ascii 'A', ascii '\n', ascii 'B'] fun _ => 0) 0xFFFFFF
          nearEdge = .ok () st' ∧
      st'.cursor = ⟨9, 21⟩ ∧
      geometry_console.raster.pixel st'.video.mem (16, 5) = 0xFFFFFF ∧
      geometry_console.raster.pixel st'.video.mem (17, 6) = 0 ∧
      geometry_console.raster.pixel st'.video.mem (0, 21) = 0xFFFFFF) ∧
    (Pty.ptyPutstr ⟨.aapcs64, fun _ => 0⟩ 3
        (terminated [ascii 'A', ascii '\n'] fun _ => 0) 0xFFFFFF >>= fun _ =>
      Pty.ptyPutstr ⟨.aapcs64, fun _ => 0⟩ 2
        (terminated [ascii 'B'] fun _ => 0) 0xFFFFFF) =
      Pty.ptyPutstr ⟨.aapcs64, fun _ => 0⟩ 4
        (terminated [ascii 'A', ascii '\n', ascii 'B'] fun _ => 0)
          0xFFFFFF := by
  obtain ⟨hscreen, happend⟩ :=
    ptyPutstr_screen geometry_console ⟨.aapcs64, fun _ => 0⟩ 0xFFFFFF
  refine ⟨?_, happend [ascii 'A', ascii '\n'] [ascii 'B'] (fun _ => 0)
    (fun _ => 0) (fun _ => 0) 3 2 4 (by decide) (by decide) (by decide)
    (by decide) (by decide)⟩
  have hfit : nearEdge.cursor.MovesAll [ascii 'A', ascii '\n', ascii 'B'] :=
    ⟨by decide, by decide, by decide, trivial⟩
  obtain ⟨st', hrun, -, hcursor, -, hpixels, -⟩ := hscreen
    [ascii 'A', ascii '\n', ascii 'B'] (fun _ => 0) 4 nearEdge (by decide)
    (by decide) rfl hfit
  have hA : (⟨⟨14, 5⟩, ascii 'A'⟩ : Glyph) ∈
      placed nearEdge.cursor [ascii 'A', ascii '\n', ascii 'B'] := by decide
  have hB : (⟨⟨0, 21⟩, ascii 'B'⟩ : Glyph) ∈
      placed nearEdge.cursor [ascii 'A', ascii '\n', ascii 'B'] := by decide
  exact ⟨st', hrun, hcursor,
    hpixels _ hA 2 (by decide) 0 (by decide) (by decide),
    hpixels _ hA 3 (by decide) 1 (by decide) (by decide),
    hpixels _ hB 0 (by decide) 0 (by decide) (by decide)⟩

/-! ## A screen of more than `2 ^ 32` pixels

The index of a pixel has 32 bits, so whatever is drawn stays with the first
`2 ^ 32` pixels: further down nothing can be painted at all. -/

namespace Pty

/-- The calls into the driver touch what an index can name. -/
def IndexedOnly (s s' : Pty) : Prop := VegaOS.IndexedOnly s.video s'.video

theorem IndexedOnly.refl (s : Pty) : IndexedOnly s s :=
  VegaOS.IndexedOnly.refl s.video

theorem IndexedOnly.trans (s t u : Pty) (hst : IndexedOnly s t)
    (htu : IndexedOnly t u) : IndexedOnly s u :=
  VegaOS.IndexedOnly.trans _ _ _ hst htu

theorem indexed_onVideo {α : Type} {x : Fb α}
    (hx : Along VegaOS.IndexedOnly x) : Along IndexedOnly (onVideo x) := by
  intro s
  have hvideo := hx s.video
  unfold onVideo IndexedOnly
  cases hr : x s.video with
  | ok a v => rwa [hr] at hvideo
  | error e v => rwa [hr] at hvideo

theorem indexed_drawDot (t : Target) (x y : BitVec 32) (c : Byte)
    (fg bg : BitVec 32) (cx cy : ℕ) :
    Along IndexedOnly (drawDot t x y c fg bg cx cy) := by
  have hread : Along IndexedOnly (fontData t (fontIndex t.abi c cx)) :=
    fun s => IndexedOnly.refl s
  refine Along.bind IndexedOnly.trans hread fun data => ?_
  exact Along.bind IndexedOnly.trans
    (indexed_onVideo (along_fbPutpix _ _ _))
    fun _ => Along.pure IndexedOnly.refl _

theorem indexed_drawChar (t : Target) (c : Byte) (color : BitVec 32) :
    Along IndexedOnly (drawChar t c color) := by
  refine Along.bind IndexedOnly.trans IndexedOnly.refl fun s => ?_
  refine Along.bind IndexedOnly.trans ?_ fun _ => IndexedOnly.refl
  refine Along.forM IndexedOnly.refl IndexedOnly.trans fun cx _ => ?_
  exact Along.forM IndexedOnly.refl IndexedOnly.trans fun cy _ =>
    indexed_drawDot t _ _ _ _ _ cx cy

/-- So does drawing any string. -/
theorem indexed_loop (t : Target) (str : ℕ → Byte) (color : BitVec 32)
    (fuel : ℕ) : ∀ i, Along IndexedOnly (ptyPutstr.loop t str color fuel i) := by
  induction fuel with
  | zero => exact fun i => Along.throw IndexedOnly.refl _
  | succ fuel ih =>
      intro i
      rw [ptyPutstr.loop]
      refine Along.ite (Along.pure IndexedOnly.refl _) (Along.ite ?_ ?_)
      · exact Along.bind IndexedOnly.trans IndexedOnly.refl fun _ => ih _
      · exact Along.bind IndexedOnly.trans (indexed_drawChar t _ color)
          fun _ => ih _

/-- On any framebuffer, `pty_putstr` leaves the rows alone that start `2 ^ 32`
pixels or more into it. -/
theorem ptyPutstr_below (t : Target) (fuel : ℕ) (str : ℕ → Byte)
    (color : BitVec 32) {st : Pty} {fb : Framebuffer}
    (hst : st.video.response = some fb) {a : Word}
    (ha : ¬ Span fb.address (2 ^ 34) a) :
    (after (ptyPutstr t fuel str color st)).video.mem a = st.video.mem a :=
  (indexed_loop t str color fuel 0 st).2 fb hst a ha

end Pty

/-- 65536 pixels a row and 65552 rows: sixteen rows too many. -/
def tall : Framebuffer := ⟨0, 0x10000, 0x10010, 0x40000⟩

/-- A terminal on it, with the cursor at row 65536. -/
def atTheBottom : Pty := ⟨⟨some tall, fun _ => 7⟩, 0, 0x10000, []⟩

/-- `"A"`, with the cell in full on the screen and a cursor that does not
wrap: a pixel of the top row of the letter is not painted. -/
theorem not_ptyPutstr_screen_tall :
    (tall.width.toNat < 2 ^ 32 ∧ tall.height.toNat < 2 ^ 32 ∧
      tall.pitch.toNat % 4 = 0 ∧ 4 * tall.width.toNat ≤ tall.pitch.toNat) ∧
    atTheBottom.video.response = some tall ∧
    atTheBottom.cursor.MovesAll [ascii 'A'] ∧
    Glyph.bit ⟨atTheBottom.cursor, ascii 'A'⟩ 2 0 = true ∧
    Glyph.pos ⟨atTheBottom.cursor, ascii 'A'⟩ 2 0 = (2, 0x10000) ∧
    (2 < tall.width.toNat ∧ 0x10000 < tall.height.toNat) ∧
    ∃ st', Pty.ptyPutstr ⟨.sysV, fun _ => 0⟩ 2
        (terminated [ascii 'A'] fun _ => 0) 0xFFFFFF atTheBottom =
          .ok () st' ∧
      read32 st'.video.mem (tall.address +
        BitVec.ofNat 64 (0x10000 * tall.pitch.toNat + 4 * 2)) = 0x07070707 := by
  refine ⟨by decide, rfl, ⟨by decide, trivial⟩, by decide, by decide,
    by decide, ?_⟩
  obtain ⟨_, st', hrun, -⟩ := Pty.keeps_drawChar ⟨.sysV, fun _ => 0⟩
    (ascii 'A') 0xFFFFFF atTheBottom rfl
  have hputstr : Pty.ptyPutstr ⟨.sysV, fun _ => 0⟩ 2
      (terminated [ascii 'A'] fun _ => 0) 0xFFFFFF atTheBottom =
        .ok () st' := by
    rw [Pty.ptyPutstr_eq_forM _ _ (by decide) _ (by decide)]
    exact run_bind_ok hrun
  refine ⟨st', hputstr, ?_⟩
  have hbelow := fun a => Pty.ptyPutstr_below ⟨.sysV, fun _ => 0⟩ 2
    (terminated [ascii 'A'] fun _ => 0) 0xFFFFFF
    (show atTheBottom.video.response = some tall from rfl) (a := a)
  rw [hputstr, after_ok] at hbelow
  have hpixel : read32 st'.video.mem (tall.address +
      BitVec.ofNat 64 (0x10000 * tall.pitch.toNat + 4 * 2)) =
        read32 atTheBottom.video.mem _ :=
    read32_congr fun a ha => hbelow a (fun hnear => by
      simp only [Span, tall] at ha hnear
      bv_omega)
  rw [hpixel]
  decide

end VegaOS
