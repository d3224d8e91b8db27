import VegaOS.Proofs.FbPixels
import VegaOS.Src.Pty

/-!
# Where the characters of a string go

The cursor moves by one cell for a character and to the start of the next line
for a newline, in 32 bits. As long as no such move wraps, every character of a
string has a cell of its own: on one line the cells follow each other, and the
lines are a multiple of the cell's height apart. The pixels of a cell are
computed in 32 bits as well, so at the very bottom of the coordinates a cell
continues at the top; not even there does it meet another one.
-/

namespace VegaOS

open ByteMem

structure Cursor where
  x : BitVec 32
  y : BitVec 32
deriving DecidableEq, Repr

def Pty.cursor (s : Pty) : Cursor := ⟨s.cursorX, s.cursorY⟩

namespace Cursor

/-- The cursor after a byte. -/
def advance (c : Cursor) (b : Byte) : Cursor :=
  if b = ascii '\n' then ⟨0, c.y + BitVec.ofNat 32 PTY_FONT_HEIGHT⟩
  else ⟨c.x + BitVec.ofNat 32 PTY_FONT_WIDTH, c.y⟩

def advanceAll (c : Cursor) (s : List Byte) : Cursor := s.foldl advance c

/-- The move for a byte does not wrap. -/
def Moves (c : Cursor) (b : Byte) : Prop :=
  if b = ascii '\n' then c.y.toNat + PTY_FONT_HEIGHT < 2 ^ 32
  else c.x.toNat + PTY_FONT_WIDTH < 2 ^ 32

instance (c : Cursor) (b : Byte) : Decidable (c.Moves b) :=
  inferInstanceAs (Decidable (if b = ascii '\n'
    then c.y.toNat + PTY_FONT_HEIGHT < 2 ^ 32
    else c.x.toNat + PTY_FONT_WIDTH < 2 ^ 32))

/-- No move for the bytes of a string wraps. -/
def MovesAll : Cursor → List Byte → Prop
  | _, [] => True
  | c, b :: s => c.Moves b ∧ MovesAll (c.advance b) s

/-- `d` is on the line of `c` and not left of it, or some lines below. -/
def Follows (c d : Cursor) : Prop :=
  ∃ lines, d.y.toNat = c.y.toNat + lines * PTY_FONT_HEIGHT ∧
    (lines = 0 → c.x.toNat ≤ d.x.toNat)

variable {c d e : Cursor} {b : Byte}

theorem Follows.refl (c : Cursor) : Follows c c :=
  ⟨0, by rw [Nat.zero_mul, Nat.add_zero], fun _ => Nat.le_refl _⟩

theorem Follows.trans (hcd : Follows c d) (hde : Follows d e) :
    Follows c e := by
  obtain ⟨m, hm, hx⟩ := hcd
  obtain ⟨n, hn, hx'⟩ := hde
  refine ⟨m + n, by rw [hn, hm, Nat.add_mul, Nat.add_assoc], fun h => ?_⟩
  exact Nat.le_trans (hx (by omega)) (hx' (by omega))

theorem advance_newline : c.advance (ascii '\n') =
    ⟨0, c.y + BitVec.ofNat 32 PTY_FONT_HEIGHT⟩ := if_pos rfl

theorem advance_char (hb : b ≠ ascii '\n') : c.advance b =
    ⟨c.x + BitVec.ofNat 32 PTY_FONT_WIDTH, c.y⟩ := if_neg hb

theorem x_advance (hb : b ≠ ascii '\n') (h : c.Moves b) :
    (c.advance b).x.toNat = c.x.toNat + PTY_FONT_WIDTH := by
  rw [Moves, if_neg hb] at h
  rw [advance_char hb, BitVec.toNat_add]
  exact Nat.mod_eq_of_lt h

theorem y_advance_newline (h : c.Moves (ascii '\n')) :
    (c.advance (ascii '\n')).y.toNat = c.y.toNat + PTY_FONT_HEIGHT := by
  rw [Moves, if_pos rfl] at h
  rw [advance_newline, BitVec.toNat_add]
  exact Nat.mod_eq_of_lt h

theorem follows_advance (h : c.Moves b) : Follows c (c.advance b) := by
  by_cases hb : b = ascii '\n'
  · subst hb
    refine ⟨1, ?_, fun h => absurd h Nat.one_ne_zero⟩
    rw [y_advance_newline h, Nat.one_mul]
  · refine ⟨0, ?_, fun _ => ?_⟩
    · rw [advance_char hb, Nat.zero_mul, Nat.add_zero]
    · rw [x_advance hb h]
      exact Nat.le_add_right _ _

end Cursor

/-- A character and where it is drawn. -/
structure Glyph where
  cursor : Cursor
  char : Byte
deriving DecidableEq, Repr

/-- The characters a string draws from a cursor on. -/
def placed : Cursor → List Byte → List Glyph
  | _, [] => []
  | c, b :: s =>
      if b = ascii '\n' then placed (c.advance b) s
      else ⟨c, b⟩ :: placed (c.advance b) s

namespace Glyph

/-- The pixel in column `cx` and row `cy` of the cell. -/
def pos (g : Glyph) (cx cy : ℕ) : ℕ × ℕ :=
  point (g.cursor.x + BitVec.ofNat 32 cx) (g.cursor.y + BitVec.ofNat 32 cy)

def Covers (g : Glyph) (p : ℕ × ℕ) : Prop :=
  ∃ cx < PTY_FONT_WIDTH, ∃ cy < PTY_FONT_HEIGHT, p = g.pos cx cy

/-- Whether the font has the pixel set. -/
def bit (g : Glyph) (cx cy : ℕ) : Bool :=
  (DEFAULT_FONT_DATA.getD
    ((g.char.toNat - 32) * PTY_FONT_WIDTH + cx) 0).getLsbD cy

/-- Two cells without a pixel in common. -/
def Apart (g g' : Glyph) : Prop := ∀ p, g.Covers p → ¬ g'.Covers p

instance : Std.Symm Apart := ⟨fun _ _ h p hp' hp => h p hp hp'⟩

variable {g g' : Glyph} {cx cy cx' cy' : ℕ}

theorem toNat_add_ofNat (x : BitVec 32) {n : ℕ} (hn : n < 2 ^ 32) :
    (x + BitVec.ofNat 32 n).toNat = (x.toNat + n) % 2 ^ 32 := by
  rw [BitVec.toNat_add, BitVec.toNat_ofNat, Nat.mod_eq_of_lt hn]

theorem pos_eq (hx : cx < PTY_FONT_WIDTH) (hy : cy < PTY_FONT_HEIGHT) :
    g.pos cx cy = ((g.cursor.x.toNat + cx) % 2 ^ 32,
      (g.cursor.y.toNat + cy) % 2 ^ 32) := by
  have hx' : cx < 9 := hx
  have hy' : cy < 16 := hy
  rw [pos, point, toNat_add_ofNat _ (by omega), toNat_add_ofNat _ (by omega)]

/-- The pixels of one cell are distinct. -/
theorem pos_injective (hx : cx < PTY_FONT_WIDTH) (hy : cy < PTY_FONT_HEIGHT)
    (hx' : cx' < PTY_FONT_WIDTH) (hy' : cy' < PTY_FONT_HEIGHT)
    (h : g.pos cx cy = g.pos cx' cy') : cx = cx' ∧ cy = cy' := by
  rw [pos_eq hx hy, pos_eq hx' hy', Prod.mk.injEq] at h
  simp only [PTY_FONT_WIDTH, PTY_FONT_HEIGHT] at hx hy hx' hy'
  omega

end Glyph

section Placed

variable {c : Cursor}

theorem placed_char {b : Byte} (hb : b ≠ ascii '\n') (s : List Byte) :
    placed c (b :: s) = ⟨c, b⟩ :: placed (c.advance b) s := if_neg hb

/-- Every byte but the newlines is drawn, in order. -/
theorem map_char_placed (s : List Byte) : ∀ c : Cursor,
    (placed c s).map Glyph.char = s.filter (· ≠ ascii '\n') := by
  induction s with
  | nil => exact fun _ => rfl
  | cons b s ih =>
      intro c
      by_cases hb : b = ascii '\n'
      · rw [placed, if_pos hb, ih, List.filter_cons_of_neg]
        exact fun hne => of_decide_eq_true hne hb
      · rw [placed_char hb, List.map_cons, ih, List.filter_cons_of_pos]
        exact decide_eq_true hb

/-- Every character is drawn where the cursor gets to, and its cell does not
wrap to the left. -/
theorem follows_of_placed {s : List Byte} {g : Glyph} :
    ∀ {c : Cursor}, c.MovesAll s → g ∈ placed c s →
      c.Follows g.cursor ∧ g.cursor.x.toNat + PTY_FONT_WIDTH < 2 ^ 32 := by
  induction s with
  | nil => exact fun _ h => absurd h List.not_mem_nil
  | cons b s ih =>
      intro c ⟨hb, hs⟩ hg
      have hlater : g ∈ placed (c.advance b) s → c.Follows g.cursor ∧
          g.cursor.x.toNat + PTY_FONT_WIDTH < 2 ^ 32 := fun hg =>
        ⟨(Cursor.follows_advance hb).trans (ih hs hg).1, (ih hs hg).2⟩
      by_cases hnl : b = ascii '\n'
      · rw [placed, if_pos hnl] at hg
        exact hlater hg
      · rw [placed_char hnl] at hg
        rcases List.mem_cons.1 hg with rfl | hg
        · rw [Cursor.Moves, if_neg hnl] at hb
          exact ⟨Cursor.Follows.refl c, hb⟩
        · exact hlater hg

/-- What is drawn after a character is drawn beside it or below. -/
theorem apart_of_follows {b : Byte} (hnl : b ≠ ascii '\n') (hb : c.Moves b)
    {g : Glyph} (hg : (c.advance b).Follows g.cursor)
    (hx : g.cursor.x.toNat + PTY_FONT_WIDTH < 2 ^ 32) :
    Glyph.Apart ⟨c, b⟩ g := by
  intro p ⟨cx, hcx, cy, hcy, hp⟩ ⟨cx', hcx', cy', hcy', h⟩
  subst hp
  obtain ⟨lines, hy, hsame⟩ := hg
  rw [Cursor.x_advance hnl hb] at hsame
  rw [Cursor.advance_char hnl] at hy
  rw [Cursor.Moves, if_neg hnl] at hb
  rw [Glyph.pos_eq hcx hcy, Glyph.pos_eq hcx' hcy', Prod.mk.injEq] at h
  have hlt := c.y.isLt
  have hlt' := g.cursor.y.isLt
  simp only [PTY_FONT_WIDTH, PTY_FONT_HEIGHT] at *
  omega

/-- No two characters of a string share a pixel. -/
theorem placed_apart {s : List Byte} :
    ∀ {c : Cursor}, c.MovesAll s → (placed c s).Pairwise Glyph.Apart := by
  induction s with
  | nil => exact fun _ => List.Pairwise.nil
  | cons b s ih =>
      intro c ⟨hb, hs⟩
      by_cases hnl : b = ascii '\n'
      · rw [placed, if_pos hnl]
        exact ih hs
      · rw [placed_char hnl]
        refine List.Pairwise.cons (fun g hg => ?_) (ih hs)
        obtain ⟨hfollows, hx⟩ := follows_of_placed hs hg
        exact apart_of_follows hnl hb hfollows hx

end Placed

end VegaOS
