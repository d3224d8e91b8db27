import VegaOS.Proofs.Fb
import VegaOS.Proofs.PrintkPieces
import VegaOS.Src.Pty

/-!
# Which entries of the font are read

A character is drawn from nine entries of `DEFAULT_FONT_DATA`, and which ones
is computed from the byte as it comes: less 32 as a `char`, widened, times
nine. The table has the 95 printable characters. Below them the subtraction
wraps, and above them the product is past the end, so every other byte that is
drawn is drawn from outside the table, on either platform, from its first
column on.
-/

namespace VegaOS

open ByteMem Trace

/-- A byte with a glyph. -/
def Printable (b : Byte) : Prop := 32 ≤ b.toNat ∧ b.toNat ≤ 126

instance (b : Byte) : Decidable (Printable b) :=
  inferInstanceAs (Decidable (_ ∧ _))

/-- Whatever else is in memory, on the screen and on its way: every index
`pty_putstr` reads the font at while it draws the string is in the table. -/
def FontSafe (abi : Abi) (s : List Byte) : Prop :=
  ∀ (pastFont : Word → BitVec 16) (rest : ℕ → Byte) (color : BitVec 32)
    (fuel : ℕ) (st : Pty), st.fontReads = [] →
    ∀ i ∈ (after (Pty.ptyPutstr ⟨abi, pastFont⟩ fuel (terminated s rest) color
      st)).fontReads, i.toNat < DEFAULT_FONT_DATA.length

namespace Pty

/-! ## The index -/

theorem toNat_widenChar (abi : Abi) (c : Byte) :
    (abi.widenChar c).toNat = c.toNat ∨
      128 ≤ c.toNat ∧ (abi.widenChar c).toNat = 2 ^ 64 - 256 + c.toNat := by
  have hc := c.isLt
  cases abi with
  | sysV =>
      rw [Abi.widenChar, BitVec.toNat_signExtend, BitVec.toNat_setWidth,
        BitVec.msb_eq_decide]
      split
      · rename_i hmsb
        simp at hmsb
        omega
      · omega
  | aapcs64 =>
      rw [Abi.widenChar, BitVec.toNat_setWidth]
      omega

/-- The index: past nine times the character, or wrapped to just below
`2 ^ 64`. -/
theorem toNat_fontIndex (abi : Abi) (c : Byte) {cx : ℕ} (hcx : cx < 9) :
    (fontIndex abi c cx).toNat = c.toNat * 9 + cx ∨
      128 ≤ c.toNat ∧ 2 ^ 63 < (fontIndex abi c cx).toNat := by
  have hc := c.isLt
  have hcx' : cx % 2 ^ 64 = cx := Nat.mod_eq_of_lt (by omega)
  have hnine : 9 % 2 ^ 64 = 9 := Nat.mod_eq_of_lt (by omega)
  rw [fontIndex, BitVec.toNat_add, BitVec.toNat_mul, BitVec.toNat_ofNat,
    BitVec.toNat_ofNat, PTY_FONT_WIDTH, hcx', hnine]
  rcases toNat_widenChar abi c with hpos | ⟨hneg, hval⟩
  · have hprod : c.toNat * 9 % 2 ^ 64 = c.toNat * 9 :=
      Nat.mod_eq_of_lt (by omega)
    rw [hpos, hprod, Nat.mod_eq_of_lt (by omega)]
    exact Or.inl rfl
  · have hsplit : (2 ^ 64 - 256 + c.toNat) * 9 =
        (2 ^ 64 - (256 - c.toNat) * 9) + 2 ^ 64 * 8 := by omega
    have hprod : (2 ^ 64 - 256 + c.toNat) * 9 % 2 ^ 64 =
        2 ^ 64 - (256 - c.toNat) * 9 := by
      rw [hsplit, Nat.add_mul_mod_self_left]
      exact Nat.mod_eq_of_lt (by omega)
    rw [hval, hprod, Nat.mod_eq_of_lt (by omega)]
    exact Or.inr ⟨hneg, by omega⟩

/-- The index is in the table exactly for the printable characters. -/
theorem fontIndex_lt_iff (abi : Abi) (b : Byte) {cx : ℕ}
    (hcx : cx < PTY_FONT_WIDTH) :
    (fontIndex abi (b - 32) cx).toNat < DEFAULT_FONT_DATA.length ↔
      Printable b := by
  have hb := b.isLt
  have hsub : (b - 32).toNat = (b.toNat + 224) % 256 := by bv_omega
  simp only [PTY_FONT_WIDTH] at hcx
  rw [length_fontData, Printable]
  rcases toNat_fontIndex abi (b - 32) hcx with hval | ⟨hneg, hval⟩
  · omega
  · omega

/-! ## Every run -/

/-- The reads since are ones that are allowed. -/
def ReadsOnly (ok : Word → Prop) (s s' : Pty) : Prop :=
  ∃ new, s'.fontReads = s.fontReads ++ new ∧ ∀ i ∈ new, ok i

section ReadsOnly

variable {ok : Word → Prop}

theorem ReadsOnly.refl (s : Pty) : ReadsOnly ok s s :=
  ⟨[], (List.append_nil _).symm, fun _ hi => absurd hi List.not_mem_nil⟩

theorem ReadsOnly.trans (s t u : Pty) (hst : ReadsOnly ok s t)
    (htu : ReadsOnly ok t u) : ReadsOnly ok s u := by
  obtain ⟨new, hnew, hok⟩ := hst
  obtain ⟨new', hnew', hok'⟩ := htu
  refine ⟨new ++ new', by rw [hnew', hnew, List.append_assoc], fun i hi => ?_⟩
  exact (List.mem_append.1 hi).elim (hok i) (hok' i)

theorem along_onVideo {α : Type} (x : Fb α) :
    Along (ReadsOnly ok) (onVideo x) := by
  intro s
  have hsame : (after (onVideo x s)).fontReads = s.fontReads := by
    unfold onVideo
    split <;> rfl
  refine ⟨[], ?_, fun _ hi => absurd hi List.not_mem_nil⟩
  rw [hsame, List.append_nil]

theorem along_fontData (t : Target) {index : Word} (h : ok index) :
    Along (ReadsOnly ok) (fontData t index) :=
  fun _ => ⟨[index], rfl, fun _ hi => List.mem_singleton.1 hi ▸ h⟩

theorem along_drawDot {t : Target} {c : Byte} {cx : ℕ}
    (h : ok (fontIndex t.abi c cx)) (x y fg bg : BitVec 32) (cy : ℕ) :
    Along (ReadsOnly ok) (drawDot t x y c fg bg cx cy) := by
  refine Along.bind ReadsOnly.trans (along_fontData t h) fun data => ?_
  exact Along.bind ReadsOnly.trans (along_onVideo _)
    fun _ => Along.pure ReadsOnly.refl _

theorem along_ptyPutch {t : Target} {c : Byte}
    (h : ∀ cx < PTY_FONT_WIDTH, ok (fontIndex t.abi (c - 32) cx))
    (x y fg bg : BitVec 32) :
    Along (ReadsOnly ok) (ptyPutch t x y c fg bg) := by
  refine Along.forM ReadsOnly.refl ReadsOnly.trans fun cx hcx => ?_
  exact Along.forM ReadsOnly.refl ReadsOnly.trans fun cy _ =>
    along_drawDot (h cx (List.mem_range.1 hcx)) x y fg bg cy

theorem along_drawChar {t : Target} {c : Byte}
    (h : ∀ cx < PTY_FONT_WIDTH, ok (fontIndex t.abi (c - 32) cx))
    (color : BitVec 32) : Along (ReadsOnly ok) (drawChar t c color) := by
  refine Along.bind ReadsOnly.trans ReadsOnly.refl fun s => ?_
  exact Along.bind ReadsOnly.trans (along_ptyPutch h _ _ _ _)
    fun _ => ReadsOnly.refl

/-- The reads of a string are those of the characters it draws. -/
theorem along_loop {t : Target} {str : ℕ → Byte} {s : List Byte}
    (h : ∀ b ∈ s, b ≠ ascii '\n' →
      ∀ cx < PTY_FONT_WIDTH, ok (fontIndex t.abi (b - 32) cx))
    (color : BitVec 32) (fuel : ℕ) :
    ∀ i, ReadsAt str i (s ++ [0]) →
      Along (ReadsOnly ok) (ptyPutstr.loop t str color fuel i) := by
  induction fuel generalizing s with
  | zero => exact fun i _ => Along.throw ReadsOnly.refl _
  | succ fuel ih =>
      intro i hstr
      rw [ptyPutstr.loop]
      cases s with
      | nil =>
          rw [if_pos hstr.1]
          exact Along.pure ReadsOnly.refl _
      | cons b s =>
          obtain ⟨hfirst, hrest⟩ := hstr
          have hnext := ih (fun b' hb' => h b' (List.mem_cons_of_mem b hb'))
            (i + 1) hrest
          rw [hfirst]
          refine Along.ite (Along.pure ReadsOnly.refl _) ?_
          split
          · exact Along.bind ReadsOnly.trans ReadsOnly.refl fun _ => hnext
          · rename_i hnl
            exact Along.bind ReadsOnly.trans
              (along_drawChar (h b List.mem_cons_self hnl) color)
              fun _ => hnext

end ReadsOnly

/-! ## A terminal with a framebuffer

There nothing keeps a string from being drawn to its end. -/

def HasFb (s : Pty) : Prop := s.video.response.isSome

theorem keeps_onVideo {α : Type} {x : Fb α}
    (h : Keeps (fun v => v.response.isSome) x) : Keeps HasFb (onVideo x) := by
  intro s hs
  obtain ⟨a, v, hrun, hv⟩ := h s.video hs
  exact ⟨a, { s with video := v }, by rw [onVideo, hrun], hv⟩

theorem keeps_fontData (t : Target) (index : Word) :
    Keeps HasFb (fontData t index) :=
  Keeps.bind (Keeps.modify fun _ hs => hs) fun _ => Keeps.pure _

theorem keeps_ptyPutch (t : Target) (x y : BitVec 32) (c : Byte)
    (fg bg : BitVec 32) : Keeps HasFb (ptyPutch t x y c fg bg) := by
  refine Keeps.forM fun cx _ => Keeps.forM fun cy _ => ?_
  refine Keeps.bind (keeps_fontData t _) fun data => ?_
  exact Keeps.bind (keeps_onVideo (keeps_fbPutpix _ _ _)) fun _ => Keeps.pure _

theorem keeps_drawChar (t : Target) (c : Byte) (color : BitVec 32) :
    Keeps HasFb (drawChar t c color) := by
  refine Keeps.bind (fun s hs => ⟨s, s, rfl, hs⟩) fun s => ?_
  exact Keeps.bind (keeps_ptyPutch t _ _ c _ _)
    fun _ => Keeps.modify fun _ hs => hs

theorem keeps_newline : Keeps HasFb newline := Keeps.modify fun _ hs => hs

/-! ## The first column -/

theorem grows_of_along {α : Type} {x : Tty α}
    (h : Along (ReadsOnly fun _ => True) x) : Grows Pty.fontReads x := by
  intro s i hi
  obtain ⟨new, hnew, -⟩ := h s
  rw [hnew]
  exact List.mem_append_left new hi

theorem forM_range_succ (n : ℕ) (f : ℕ → Tty PUnit) :
    (List.range (n + 1)).forM f =
      f 0 >>= fun _ => ((List.range n).map Nat.succ).forM f := by
  rw [List.range_succ_eq_map]
  rfl

/-- The first thing drawing does is to read the first column. -/
theorem reads_ptyPutch (t : Target) (x y : BitVec 32) (c : Byte)
    (fg bg : BitVec 32) (s : Pty) : fontIndex t.abi (c - 32) 0 ∈
      (after (ptyPutch t x y c fg bg s)).fontReads := by
  have hdot : ∀ cx cy, Grows Pty.fontReads
      (drawDot t x y (c - 32) fg bg cx cy) :=
    fun cx cy => grows_of_along (along_drawDot trivial x y fg bg cy)
  have hdots : ∀ cx (l : List ℕ), Grows Pty.fontReads
      (l.forM fun cy => drawDot t x y (c - 32) fg bg cx cy) :=
    fun cx l => Along.forM (fun _ _ => id) (fun _ _ _ h h' i hi => h' i (h i hi))
      fun cy _ => hdot cx cy
  have hcols : ∀ l : List ℕ, Grows Pty.fontReads
      (l.forM fun cx => (List.range PTY_FONT_HEIGHT).forM fun cy =>
        drawDot t x y (c - 32) fg bg cx cy) :=
    fun l => Along.forM (fun _ _ => id) (fun _ _ _ h h' i hi => h' i (h i hi))
      fun cx _ => hdots cx _
  rw [ptyPutch, PTY_FONT_WIDTH, forM_range_succ]
  refine of_after_bind (fun _ => hcols _) (fun _ h => h) _ ?_
  rw [PTY_FONT_HEIGHT, forM_range_succ]
  refine of_after_bind (fun _ => hdots 0 _) (fun _ h => h) _ ?_
  refine of_after_bind (fun data => ?_) (fun _ h => h) _
    (List.mem_append_right s.fontReads List.mem_cons_self)
  exact Grows.bind (grows_of_along (along_onVideo _)) fun _ => Grows.pure _

theorem reads_drawChar (t : Target) (c : Byte) (color : BitVec 32) (s : Pty) :
    fontIndex t.abi (c - 32) 0 ∈ (after (drawChar t c color s)).fontReads := by
  have hget : (get : Tty Pty) s = .ok s s := rfl
  rw [drawChar, run_bind_ok hget]
  exact of_after_bind (fun _ _ _ => id) (fun _ h => h) _
    (reads_ptyPutch t _ _ c color 0 s)

theorem grows_loop (t : Target) (str : ℕ → Byte) (color : BitVec 32)
    (fuel : ℕ) : ∀ i, Grows Pty.fontReads
      (ptyPutstr.loop t str color fuel i) := by
  induction fuel with
  | zero => exact fun i => Grows.throw _
  | succ fuel ih =>
      intro i
      rw [ptyPutstr.loop]
      refine Grows.ite (Grows.pure _) (Grows.ite ?_ ?_)
      · exact Grows.bind (fun _ _ => id) fun _ => ih _
      · exact Grows.bind (grows_of_along (along_drawChar
          (fun _ _ => trivial) color)) fun _ => ih _

/-- With a framebuffer every character of the string gets drawn. -/
theorem reads_loop {t : Target} {str : ℕ → Byte} {color : BitVec 32}
    {s : List Byte} (hs : ∀ b ∈ s, b ≠ 0) {b : Byte} (hb : b ∈ s)
    (hnl : b ≠ ascii '\n') {fuel : ℕ} (hfuel : s.length < fuel) :
    ∀ {i : ℕ} {st : Pty}, ReadsAt str i (s ++ [0]) → HasFb st →
      fontIndex t.abi (b - 32) 0 ∈
        (after (ptyPutstr.loop t str color fuel i st)).fontReads := by
  induction s generalizing fuel with
  | nil => exact absurd hb List.not_mem_nil
  | cons c s ih =>
      intro i st hstr hfb
      obtain ⟨hfirst, hrest⟩ := hstr
      have hc := hs c List.mem_cons_self
      obtain ⟨n, rfl⟩ : ∃ n, fuel = n + 1 :=
        ⟨fuel - 1, by rw [List.length_cons] at hfuel; omega⟩
      rw [List.length_cons] at hfuel
      rw [ptyPutstr.loop, hfirst, if_neg hc]
      have hlater : b ∈ s → ∀ {st' : Pty}, HasFb st' →
          fontIndex t.abi (b - 32) 0 ∈
            (after (ptyPutstr.loop t str color n (i + 1) st')).fontReads :=
        fun hmem st' hfb' => ih (fun d hd => hs d (List.mem_cons_of_mem c hd))
          hmem (by omega) hrest hfb'
      split
      · rename_i hc'
        obtain ⟨a, st', hrun, hfb'⟩ := keeps_newline st hfb
        rw [run_bind_ok hrun]
        rcases List.mem_cons.1 hb with rfl | hmem
        · exact absurd hc' hnl
        · exact hlater hmem hfb'
      · obtain ⟨a, st', hrun, hfb'⟩ := keeps_drawChar t c color st hfb
        rcases List.mem_cons.1 hb with rfl | hmem
        · exact of_after_bind (fun _ => grows_loop t str color n _)
            (fun _ h => h) _ (reads_drawChar t b color st)
        · rw [run_bind_ok hrun]
          exact hlater hmem hfb'

end Pty

/-- A byte that is drawn and has no glyph is drawn from outside the table. -/
theorem not_fontSafe {s : List Byte} (hs : ∀ b ∈ s, b ≠ 0) (abi : Abi)
    {b : Byte} (hb : b ∈ s) (hnl : b ≠ ascii '\n') (hprint : ¬ Printable b) :
    ¬ FontSafe abi s := by
  intro hsafe
  -- any screen will do, one of no size for instance
  let st : Pty := ⟨⟨some ⟨0, 0, 0, 0⟩, fun _ => 0⟩, 0, 0, []⟩
  have hread : Pty.fontIndex abi (b - 32) 0 ∈
      (after (Pty.ptyPutstr ⟨abi, fun _ => 0⟩ (s.length + 1)
        (terminated s fun _ => 0) 0 st)).fontReads :=
    Pty.reads_loop hs hb hnl (Nat.lt_succ_self _)
      (readsAt_terminated s fun _ => 0) rfl
  have hlt := hsafe (fun _ => 0) (fun _ => 0) 0 (s.length + 1) st rfl _ hread
  exact hprint ((Pty.fontIndex_lt_iff abi b (Nat.succ_pos 8)).1 hlt)

/-- Drawing stays inside the font exactly for the strings of newlines and
printable characters. -/
theorem fontSafe_iff {s : List Byte} (hs : ∀ b ∈ s, b ≠ 0) (abi : Abi) :
    FontSafe abi s ↔ ∀ b ∈ s, b = ascii '\n' ∨ Printable b := by
  constructor
  · intro hsafe b hb
    by_contra hbad
    obtain ⟨hnl, hprint⟩ := not_or.1 hbad
    exact not_fontSafe hs abi hb hnl hprint hsafe
  · intro hall pastFont rest color fuel st hst i hi
    have halong : Along
        (Pty.ReadsOnly fun i => i.toNat < DEFAULT_FONT_DATA.length)
        (Pty.ptyPutstr ⟨abi, pastFont⟩ fuel (terminated s rest) color) :=
      Pty.along_loop (fun b hb hnl cx hcx => (Pty.fontIndex_lt_iff abi b hcx).2
        ((hall b hb).resolve_left hnl)) color fuel 0 (readsAt_terminated s rest)
    obtain ⟨new, hnew, hok⟩ := halong st
    rw [hnew, hst, List.nil_append] at hi
    exact hok i hi

/-- `"A\n"`. -/
theorem fontSafe_letter : FontSafe .sysV [ascii 'A', ascii '\n'] :=
  (fontSafe_iff (by decide) .sysV).2 (by decide)

/-- The byte 127 is drawn from the nine entries past the end, on either
platform. -/
theorem not_fontSafe_del :
    Pty.fontIndex .sysV (0x7F - 32) 0 = 855 ∧ ¬ FontSafe .sysV [0x7F] ∧
      Pty.fontIndex .aapcs64 (0x7F - 32) 0 = 855 ∧
      ¬ FontSafe .aapcs64 [0x7F] := by
  have hmem : (0x7F : Byte) ∈ [(0x7F : Byte)] := List.mem_singleton_self _
  exact ⟨by decide, not_fontSafe (by simp) .sysV hmem (by decide) (by decide),
    by decide, not_fontSafe (by simp) .aapcs64 hmem (by decide) (by decide)⟩

end VegaOS
