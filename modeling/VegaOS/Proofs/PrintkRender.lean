import VegaOS.Proofs.PrintkArgs
import VegaOS.Proofs.PtyDraw

/-!
# What a message looks like

`render` is the meaning of a format, read off its bytes from the left: colour
escapes set the colour of what follows, conversions print their argument, any
other byte prints itself, each byte in the colour it is met with.

The calls of `pty_putstr` that `vprintk` makes deliver that and nothing else,
on x86-64, where each conversion finds its own argument. The proof takes the
pieces of the format one by one; what it needs of a piece is that its calls
deliver what `render` has for it.
-/

namespace VegaOS

open ByteMem Trace

/-! ## Rendering -/

/-- An argument of `printk`. -/
inductive Arg
  /-- a string, for `%s` -/
  | str (text : List Byte)
  /-- a character, for `%c` -/
  | chr (c : Byte)
  /-- a 64-bit number, for `%x` and `%d` -/
  | num (n : Word)

/-- The argument has the type the conversion asks for. -/
def Arg.Fits : Arg → Byte → Prop
  | .str _, fmtChar => fmtChar = ascii 's'
  | .chr _, fmtChar => fmtChar = ascii 'c'
  | .num _, fmtChar => fmtChar = ascii 'x' ∨ fmtChar = ascii 'd'

/-- There is an argument of the right type for every conversion. -/
def Matches : List Byte → List Arg → Prop
  | [], _ => True
  | _ :: _, [] => False
  | fmtChar :: fs, a :: args => a.Fits fmtChar ∧ Matches fs args

/-- What a conversion prints of its argument. -/
def Arg.text (fmtChar : Byte) : Arg → List Byte
  | .str text => text
  | .chr c => if c = 0 then [] else [c]
  | .num n => if fmtChar = ascii 'x' then hexNumeral n else decNumeral n

/-- The bytes printed, each with its colour, and what is left for the text
that follows: the colour and the arguments. -/
structure Rendering where
  out : List (Byte × Color)
  color : Color
  args : List Arg

def Rendering.after (out : List (Byte × Color)) (r : Rendering) : Rendering :=
  { r with out := out ++ r.out }

/-- The text printed for a conversion. A byte that is none takes no argument
and prints nothing. -/
def convText (fmtChar : Byte) (args : List Arg) : List Byte :=
  if IsConversion fmtChar then (args.head?.map (Arg.text fmtChar)).getD []
  else []

/-- The arguments left after a conversion. -/
def convRest (fmtChar : Byte) (args : List Arg) : List Arg :=
  if IsConversion fmtChar then args.tail else args

/-- The meaning of a format in a colour and with arguments. -/
def render (color : Color) (args : List Arg) : List Byte → Rendering
  | [] => ⟨[], color, args⟩
  | [b] =>
      if b = 0x01 ∨ b = ascii '%' then ⟨[], color, args⟩
      else ⟨[(b, color)], color, args⟩
  | b :: x :: s =>
      if b = 0x01 then render (getColor x) args s
      else if b = ascii '%' then
        (render color (convRest x args) s).after
          ((convText x args).map fun c => (c, color))
      else (render color args (x :: s)).after [(b, color)]

/-! ## Piece by piece -/

theorem Rendering.after_after (out out' : List (Byte × Color))
    (r : Rendering) : (r.after out').after out = r.after (out ++ out') := by
  simp [Rendering.after]

/-- What a piece means on its own. -/
def Piece.rendering (color : Color) (args : List Arg) : Piece → Rendering
  | .color code => ⟨[], getColor code, args⟩
  | .conv fmtChar =>
      ⟨(convText fmtChar args).map fun c => (c, color), color,
        convRest fmtChar args⟩
  | .plain c => ⟨[(c, color)], color, args⟩

/-- What follows a piece starts where the piece leaves off. -/
theorem render_piece {p : Piece} (hp : p.Ok) (color : Color)
    (args : List Arg) (s : List Byte) :
    render color args (p.bytes ++ s) =
      (render (p.rendering color args).color (p.rendering color args).args
        s).after (p.rendering color args).out := by
  cases p with
  | color code => rfl
  | conv fmtChar => rfl
  | plain c =>
      obtain ⟨_, hesc, hpct⟩ := hp
      cases s with
      | nil =>
          have hself : render color args [c] = ⟨[(c, color)], color, args⟩ := by
            rw [render, if_neg (not_or.2 ⟨hesc, hpct⟩)]
          exact hself
      | cons d s =>
          show render color args (c :: d :: s) = _
          rw [render, if_neg hesc, if_neg hpct]
          rfl

theorem scan_piece {p : Piece} (hp : p.Ok) (s : List Byte) :
    scan (p.bytes ++ s) = (p :: (scan s).1, (scan s).2) := by
  cases p with
  | color code => rfl
  | conv fmtChar => rfl
  | plain c =>
      obtain ⟨_, hesc, hpct⟩ := hp
      cases s with
      | nil =>
          have hself : scan [c] = ([.plain c], none) := by
            rw [scan, if_neg hesc, if_neg hpct]
          exact hself
      | cons d s =>
          show scan (c :: d :: s) = _
          rw [scan, if_neg hesc, if_neg hpct]

/-- A format that is not cut off is the bytes of its pieces. -/
theorem flatMap_scan {f : List Byte} (hcut : ¬ CutOff f) :
    (scan f).1.flatMap Piece.bytes = f := by
  have hbytes := scan_bytes f
  rw [CutOff, Option.not_isSome_iff_eq_none] at hcut
  rw [hcut, ending] at hbytes
  exact (List.append_cancel_right hbytes).symm

section Pieces

variable {ps : List Piece} (hps : ∀ p ∈ ps, p.Ok)
include hps

theorem scan_pieces (s : List Byte) :
    scan (ps.flatMap Piece.bytes ++ s) = (ps ++ (scan s).1, (scan s).2) := by
  induction ps with
  | nil => rfl
  | cons p ps ih =>
      rw [List.forall_mem_cons] at hps
      rw [List.flatMap_cons, List.append_assoc, scan_piece hps.1, ih hps.2]
      rfl

/-- The text of pieces is rendered without regard to what follows, and what
follows starts in its final colour, with the arguments it leaves. -/
theorem render_pieces (s : List Byte) : ∀ (color : Color) (args : List Arg),
    render color args (ps.flatMap Piece.bytes ++ s) =
      (render (render color args (ps.flatMap Piece.bytes)).color
        (render color args (ps.flatMap Piece.bytes)).args s).after
          (render color args (ps.flatMap Piece.bytes)).out := by
  induction ps with
  | nil => exact fun color args => rfl
  | cons p ps ih =>
      intro color args
      rw [List.forall_mem_cons] at hps
      rw [List.flatMap_cons, List.append_assoc, render_piece hps.1, ih hps.2,
        Rendering.after_after, render_piece hps.1]
      rfl

/-- It leaves the arguments its conversions do not take. -/
theorem args_pieces : ∀ (color : Color) (args : List Arg),
    (render color args (ps.flatMap Piece.bytes)).args =
      args.drop (ps.filterMap Piece.conversion).length := by
  induction ps with
  | nil => exact fun color args => rfl
  | cons p ps ih =>
      intro color args
      rw [List.forall_mem_cons] at hps
      rw [List.flatMap_cons, render_piece hps.1, Rendering.after, ih hps.2]
      cases p with
      | color code => rfl
      | plain c => rfl
      | conv d =>
          by_cases hd : IsConversion d
          · simp [Piece.rendering, Piece.conversion, convRest, hd]
          · simp [Piece.rendering, Piece.conversion, convRest, hd]

end Pieces

/-! ## A format and what follows it -/

section Append

variable {f : List Byte} (hf : ∀ b ∈ f, b ≠ 0) (hcut : ¬ CutOff f)
include hf hcut

theorem render_append (g : List Byte) (color : Color) (args : List Arg) :
    render color args (f ++ g) =
      (render (render color args f).color (render color args f).args g).after
        (render color args f).out := by
  have happend := render_pieces (pieces_ok hf) g color args
  rwa [flatMap_scan hcut] at happend

theorem scan_append (g : List Byte) :
    scan (f ++ g) = ((scan f).1 ++ (scan g).1, (scan g).2) := by
  have happend := scan_pieces (pieces_ok hf) g
  rwa [flatMap_scan hcut] at happend

theorem conversions_append (g : List Byte) :
    conversions (f ++ g) = conversions f ++ conversions g := by
  rw [conversions, scan_append hf hcut, List.filterMap_append]
  rfl

theorem args_render (color : Color) (args : List Arg) :
    (render color args f).args = args.drop (conversions f).length := by
  have hargs := args_pieces (pieces_ok hf) color args
  rwa [flatMap_scan hcut] at hargs

end Append

theorem matches_append {fs gs : List Byte} :
    ∀ {args : List Arg}, Matches (fs ++ gs) args ↔
      Matches fs args ∧ Matches gs (args.drop fs.length) := by
  induction fs with
  | nil => simp [Matches]
  | cons fmtChar fs ih =>
      intro args
      cases args with
      | nil => simp [Matches]
      | cons a args => simp [Matches, ih, and_assoc]

/-! ## Delivering -/

/-- The bytes of a string, from its start to its terminator. -/
def IsCString (bytes : ℕ → Byte) (text : List Byte) : Prop :=
  (∀ b ∈ text, b ≠ 0) ∧ ReadsAt bytes 0 (text ++ [0])

/-- A string in memory is its bytes, a terminator, and what follows. -/
theorem IsCString.eq_terminated {bytes : ℕ → Byte} {text : List Byte}
    (h : IsCString bytes text) : ∃ rest, bytes = terminated text rest := by
  refine ⟨fun j => bytes (j + (text.length + 1)), funext fun i => ?_⟩
  rw [terminated, List.getD_eq_getElem?_getD]
  cases hi : (text ++ [0])[i]? with
  | some c =>
      have hc := h.2.getElem i c hi
      rwa [Nat.zero_add] at hc
  | none =>
      have hle := List.getElem?_eq_none_iff.1 hi
      rw [List.length_append, List.length_singleton] at hle
      rw [Option.getD_none, Nat.sub_add_cancel hle]

theorem IsCString.congr {bytes bytes' : ℕ → Byte} {text : List Byte}
    (h : IsCString bytes text)
    (hsame : ∀ i ≤ text.length, bytes' i = bytes i) :
    IsCString bytes' text := by
  refine ⟨h.1, readsAt_of_getElem fun k c hc => ?_⟩
  have hk : k < (text ++ [0]).length := (List.getElem?_eq_some_iff.1 hc).1
  rw [List.length_append, List.length_singleton] at hk
  rw [Nat.zero_add, hsame k (Nat.le_of_lt_succ hk), ← Nat.zero_add k]
  exact h.2.getElem k c hc

/-- What calls of `pty_putstr` deliver: the bytes of each string, in the
colour of the call. -/
def Delivers (mem : Mem) : List Putstr → List (Byte × Color) → Prop
  | [], out => out = []
  | call :: calls, out => ∃ text rest,
      IsCString (call.str.bytes mem) text ∧ Delivers mem calls rest ∧
        out = text.map (fun b => (b, call.color)) ++ rest

/-- The argument is what a slot holds, a string by its address. -/
def Arg.At (mem : Mem) (slot : Word) : Arg → Prop
  | .str text => IsCString (fun i => mem (slot + BitVec.ofNat 64 i)) text
  | .chr c => slot.setWidth 8 = c
  | .num n => slot = n

/-- The arguments are in the slots from `ap` on. -/
def Passed (mem : Mem) (slots : ℕ → Word) : ℕ → List Arg → Prop
  | _, [] => True
  | ap, a :: args => a.At mem (slots ap) ∧ Passed mem slots (ap + 1) args

section Deliver

variable {mem : Mem} {slots : ℕ → Word}

theorem isCString_chars {text : List Byte} (h : ∀ b ∈ text, b ≠ 0) :
    IsCString ((Str.chars text).bytes mem) text :=
  ⟨h, readsAt_terminated text fun _ => 0⟩

theorem delivers_append {calls calls' : List Putstr} :
    ∀ {out out' : List (Byte × Color)}, Delivers mem calls out →
      Delivers mem calls' out' →
        Delivers mem (calls ++ calls') (out ++ out') := by
  induction calls with
  | nil =>
      intro out out' h h'
      rw [show out = [] from h]
      exact h'
  | cons call calls ih =>
      intro out out' ⟨text, rest, htext, hrest, hout⟩ h'
      exact ⟨text, rest ++ out', htext, ih hrest h',
        by rw [hout, List.append_assoc]⟩

theorem delivers_single {call : Putstr} {text : List Byte}
    (h : IsCString (call.str.bytes mem) text) :
    Delivers mem [call] (text.map fun b => (b, call.color)) :=
  ⟨text, [], h, rfl, (List.append_nil _).symm⟩

theorem isCString_asStr (c : Byte) :
    IsCString ((asStr c).bytes mem) (if c = 0 then [] else [c]) := by
  have htext : asStr c = .chars (if c = 0 then [] else [c]) := by
    rw [asStr, cString]
    by_cases hc : c = 0 <;> simp [hc, List.takeWhile_cons]
  rw [htext]
  refine isCString_chars fun b hb => ?_
  split at hb
  · exact absurd hb List.not_mem_nil
  · rename_i hc
    rwa [List.mem_singleton.1 hb]

/-- A conversion prints the argument in its slot. -/
theorem isCString_rendered {a : Arg} {fmtChar : Byte} {slot : Word}
    (hfits : a.Fits fmtChar) (hat : a.At mem slot) :
    IsCString ((rendered fmtChar slot).bytes mem) (a.text fmtChar) := by
  cases a with
  | str text =>
      obtain rfl : fmtChar = ascii 's' := hfits
      exact hat
  | chr c =>
      obtain rfl : fmtChar = ascii 'c' := hfits
      obtain rfl : slot.setWidth 8 = c := hat
      exact isCString_asStr _
  | num n =>
      obtain rfl : slot = n := hat
      rcases hfits with rfl | rfl
      · exact isCString_chars fun _ => ne_zero_of_mem_hexNumeral
      · exact isCString_chars fun _ => ne_zero_of_mem_decNumeral

/-- A conversion that finds an argument of its type, or that is none. -/
theorem delivers_conv {d : Byte} {fs : List Byte} {l : Locals}
    {args : List Arg} (hargs : Passed mem slots l.ap args)
    (hmatch : Matches ((Piece.conv d).conversion.toList ++ fs) args) :
    Delivers mem ((Piece.conv d).calls slots l)
        ((convText d args).map fun c => (c, l.color)) ∧
      Passed mem slots ((Piece.conv d).step .sysV l).ap (convRest d args) ∧
      Matches fs (convRest d args) := by
  by_cases hd : IsConversion d
  · simp only [Piece.calls, Piece.step, Piece.conversion, convText, convRest,
      if_pos hd] at hmatch ⊢
    cases args with
    | nil => exact absurd hmatch id
    | cons a args =>
        exact ⟨delivers_single (isCString_rendered hmatch.1 hargs.1), hargs.2,
          hmatch.2⟩
  · simp only [Piece.calls, Piece.step, Piece.conversion, convText, convRest,
      if_neg hd, Abi.afterCall_self] at hmatch ⊢
    exact ⟨rfl, hargs, hmatch⟩

/-- A piece prints what it means, and leaves the colour and the arguments it is
to leave. -/
theorem delivers_piece {p : Piece} (hp : p.Ok) {fs : List Byte} {l : Locals}
    {args : List Arg} (hargs : Passed mem slots l.ap args)
    (hmatch : Matches (p.conversion.toList ++ fs) args) :
    Delivers mem (p.calls slots l) (p.rendering l.color args).out ∧
      (p.step .sysV l).color = (p.rendering l.color args).color ∧
      Passed mem slots (p.step .sysV l).ap (p.rendering l.color args).args ∧
      Matches fs (p.rendering l.color args).args := by
  cases p with
  | color code => exact ⟨rfl, rfl, hargs, hmatch⟩
  | conv d =>
      obtain ⟨hcalls, hargs', hmatch'⟩ := delivers_conv hargs hmatch
      exact ⟨hcalls, rfl, hargs', hmatch'⟩
  | plain c =>
      have htext : IsCString ((asStr c).bytes mem) _ := isCString_asStr c
      rw [if_neg hp.1] at htext
      exact ⟨⟨[c], [], htext, rfl, rfl⟩, rfl, hargs, hmatch⟩

/-- And so do pieces one after another. -/
theorem delivers_pieces {ps : List Piece} (hps : ∀ p ∈ ps, p.Ok) :
    ∀ {l : Locals} {args : List Arg}, Passed mem slots l.ap args →
      Matches (ps.filterMap Piece.conversion) args →
      Delivers mem (callsAll .sysV slots l ps)
          (render l.color args (ps.flatMap Piece.bytes)).out ∧
        (stepAll .sysV l ps).color =
          (render l.color args (ps.flatMap Piece.bytes)).color ∧
        Passed mem slots (stepAll .sysV l ps).ap
          (render l.color args (ps.flatMap Piece.bytes)).args := by
  induction ps with
  | nil => exact fun hargs _ => ⟨rfl, rfl, hargs⟩
  | cons p ps ih =>
      intro l args hargs hmatch
      rw [List.forall_mem_cons] at hps
      have hfirst : (p :: ps).filterMap Piece.conversion =
          p.conversion.toList ++ ps.filterMap Piece.conversion := by
        cases h : p.conversion <;> simp [h]
      rw [hfirst] at hmatch
      obtain ⟨hcalls, hcolor, hargs', hmatch'⟩ :=
        delivers_piece hps.1 hargs hmatch
      have hrest := ih hps.2 hargs' hmatch'
      rw [List.flatMap_cons, render_piece hps.1, ← hcolor]
      exact ⟨delivers_append hcalls hrest.1, hrest.2⟩

end Deliver

/-! ## On the terminal -/

/-- What calls deliver is what they do on a terminal. -/
theorem deliver_eq (t : Target) {mem : Mem} {calls : List Putstr} :
    ∀ {fuel : ℕ} {out : List (Byte × Color)}, out.length < fuel →
      Delivers mem calls out →
        deliver t fuel mem calls = out.forM fun p => Pty.putByte t p.1 p.2 := by
  induction calls with
  | nil =>
      intro fuel out hfuel hout
      rw [show out = [] from hout]
      rfl
  | cons call calls ih =>
      intro fuel out hfuel ⟨text, rest, htext, hrest, hout⟩
      have hlen : out.length = text.length + rest.length := by simp [hout]
      have hhead : Pty.ptyPutstr t fuel (call.str.bytes mem) call.color =
          text.forM fun b => Pty.putByte t b call.color :=
        Pty.loop_eq t call.color htext.1 (by omega) htext.2
      have htail : deliver t fuel mem calls = _ := ih (by omega) hrest
      rw [deliver] at htail ⊢
      rw [hout]
      simp only [List.forM_eq_forM, List.forM_cons, List.forM_append,
        List.forM_map] at hhead htail ⊢
      rw [hhead, htail]

/-! ## `vprintk` -/

/-- On x86-64 the loop of `vprintk`, entered at the start of `f` with the list
at slot `ap` and in `color`, delivers `out`, and stops at the terminator with
the list at `ap'` and in `color'`. -/
def Prints (mem : Mem) (slots : ℕ → Word) (f : List Byte) (ap : ℕ)
    (color : Color) (out : List (Byte × Color)) (ap' : ℕ) (color' : Color) :
    Prop :=
  ∀ (rest : ℕ → Byte) (fuel : ℕ) (st : Console), f.length < fuel →
    ∃ calls s', vprintkLoop ⟨.sysV, terminated f rest, slots⟩ fuel
        ⟨0, ap, color⟩ st = .ok ⟨f.length, ap', color'⟩ s' ∧
      s'.calls = st.calls ++ calls ∧ Delivers mem calls out

/-- On x86-64 every conversion moves the list on by a slot. -/
theorem stepAll_ap (ps : List Piece) : ∀ l : Locals,
    (stepAll .sysV l ps).ap =
      l.ap + (ps.filterMap Piece.conversion).length := by
  induction ps with
  | nil => exact fun l => rfl
  | cons p ps ih =>
      intro l
      have hstep : stepAll .sysV l (p :: ps) =
          stepAll .sysV (p.step .sysV l) ps := rfl
      rw [hstep, ih]
      cases p with
      | color code => rfl
      | plain c => rfl
      | conv d =>
          by_cases hd : IsConversion d
          · simp [Piece.step, Piece.conversion, hd, Abi.afterCall]
            omega
          · simp [Piece.step, Piece.conversion, hd, Abi.afterCall]

theorem prints_render {f : List Byte} (hf : ∀ b ∈ f, b ≠ 0)
    (hcut : ¬ CutOff f) {mem : Mem} {slots : ℕ → Word} {ap : ℕ}
    {args : List Arg} (hargs : Passed mem slots ap args)
    (hmatch : Matches (conversions f) args) (color : Color) :
    Passed mem slots (ap + (conversions f).length)
        (render color args f).args ∧
      Prints mem slots f ap color (render color args f).out
        (ap + (conversions f).length) (render color args f).color := by
  let l : Locals := ⟨0, ap, color⟩
  have hargs' : Passed mem slots l.ap args := hargs
  obtain ⟨hout, hcolor, hleft⟩ := delivers_pieces (pieces_ok hf) hargs' hmatch
  rw [flatMap_scan hcut] at hout hcolor hleft
  have hap : (stepAll .sysV l (scan f).1).ap = ap + (conversions f).length :=
    stepAll_ap _ l
  rw [hap] at hleft
  refine ⟨hleft, fun rest fuel st hroom => ?_⟩
  obtain ⟨s', hrun, hend, hcalls, _⟩ := loop_format
    (c := ⟨.sysV, terminated f rest, slots⟩) (l := l) rfl hf hcut rfl st
  have hlen := length_scan_le f
  obtain ⟨k, rfl⟩ : ∃ k, fuel = (scan f).1.length + 1 + k :=
    Nat.exists_eq_add_of_le (by omega)
  refine ⟨_, s', ?_, hcalls, hout⟩
  rw [loop_mono k hrun, ← hend, ← hcolor, ← hap]

/-- `vprintk` delivers the rendering of its format, and a terminal draws that
byte by byte. And a format followed by another delivers what it does on its
own, and then what the other does when it is started in the colour and with the
arguments the first leaves. -/
theorem vprintk_renders {f : List Byte} (hf : ∀ b ∈ f, b ≠ 0)
    (hcut : ¬ CutOff f) {mem : Mem} {slots : ℕ → Word} {ap : ℕ}
    {args : List Arg} (hargs : Passed mem slots ap args)
    (hmatch : Matches (conversions f) args) :
    let r := render PRINTK_DEFAULT_FG args f
    let ap' := ap + (conversions f).length
    (∀ (rest : ℕ → Byte) (fuel : ℕ) (st : Console), f.length < fuel →
      ∃ calls s', vprintk ⟨.sysV, terminated f rest, slots⟩ fuel ap st =
          .ok () s' ∧ s'.calls = st.calls ++ calls ∧
        Delivers mem calls r.out ∧
        ∀ (t : Target) (n : ℕ), r.out.length < n →
          deliver t n mem calls = r.out.forM fun p => Pty.putByte t p.1 p.2) ∧
      Prints mem slots f ap PRINTK_DEFAULT_FG r.out ap' r.color ∧
      ∀ g : List Byte, (∀ b ∈ g, b ≠ 0) → ¬ CutOff g →
        Matches (conversions g) r.args →
          let r' := render r.color r.args g
          let ap'' := ap' + (conversions g).length
          Prints mem slots g ap' r.color r'.out ap'' r'.color ∧
            Prints mem slots (f ++ g) ap PRINTK_DEFAULT_FG (r.out ++ r'.out)
              ap'' r'.color := by
  obtain ⟨hleft, hprints⟩ := prints_render hf hcut hargs hmatch
    PRINTK_DEFAULT_FG
  refine ⟨fun rest fuel st hroom => ?_, hprints, fun g hg hgcut hgmatch => ?_⟩
  · obtain ⟨calls, s', hrun, hcalls, hout⟩ := hprints rest fuel st hroom
    refine ⟨calls, s', ?_, hcalls, hout, fun t n hn => deliver_eq t hn hout⟩
    rw [vprintk, run_bind_ok hrun]
    rfl
  · have hboth : ∀ b ∈ f ++ g, b ≠ 0 :=
      fun b hb => (List.mem_append.1 hb).elim (hf b) (hg b)
    have hbothcut : ¬ CutOff (f ++ g) := by
      rw [CutOff, scan_append hf hcut]
      exact hgcut
    rw [args_render hf hcut] at hgmatch
    have hbothmatch : Matches (conversions (f ++ g)) args := by
      rw [conversions_append hf hcut]
      exact matches_append.2 ⟨hmatch, hgmatch⟩
    have hjoin := (prints_render hboth hbothcut hargs hbothmatch
      PRINTK_DEFAULT_FG).2
    rw [render_append hf hcut, conversions_append hf hcut, List.length_append,
      ← Nat.add_assoc] at hjoin
    rw [← args_render hf hcut PRINTK_DEFAULT_FG] at hgmatch
    exact ⟨(prints_render hg hgcut hleft hgmatch _).2, hjoin⟩

/-- `"\0011%c"` with the argument `'A'`: one red letter. -/
theorem vprintk_renders_redLetter : ∃ calls s',
    vprintk ⟨.sysV, terminated [0x01, ascii '1', ascii '%', ascii 'c']
        fun _ => 0, fun _ => 0x41⟩ 5 0 noStrings = .ok () s' ∧
      s'.calls = [] ++ calls ∧
      Delivers (fun _ => 0) calls [(ascii 'A', 0xFF0000)] := by
  have hargs : Passed (fun _ => 0) (fun _ => 0x41) 0 [.chr (ascii 'A')] :=
    ⟨rfl, trivial⟩
  have hmatch : Matches
      (conversions [0x01, ascii '1', ascii '%', ascii 'c'])
      [.chr (ascii 'A')] := ⟨rfl, trivial⟩
  obtain ⟨calls, s', hrun, hcalls, hout, _⟩ :=
    (vprintk_renders (by decide) (by decide) hargs hmatch).1 (fun _ => 0) 5
      noStrings (by decide)
  exact ⟨calls, s', hrun, hcalls, hout⟩

end VegaOS
