import VegaOS.Lib.Trace
import VegaOS.Proofs.Numerals

/-!
# A format, piece by piece

One iteration of the loop of `vprintk` takes one piece of the format: a colour
escape, a conversion or a byte that stands for itself. `scan` cuts a string
into its pieces. It leaves over an escape or a `%` that is the last byte: the
piece the loop takes there is completed by the terminator.

`body_piece` says what an iteration does with a piece, and `loop_pieces` what
the loop does with the pieces of a string, whatever comes after them.
-/

namespace VegaOS

open ByteMem Buffer Trace

inductive Piece
  | color (code : Byte)
  | conv (fmtChar : Byte)
  | plain (c : Byte)
deriving DecidableEq, Repr

namespace Piece

def bytes : Piece → List Byte
  | color code => [0x01, code]
  | conv fmtChar => [ascii '%', fmtChar]
  | plain c => [c]

/-- A byte that stands for itself. -/
def Ok : Piece → Prop
  | plain c => c ≠ 0 ∧ c ≠ 0x01 ∧ c ≠ ascii '%'
  | _ => True

end Piece

/-- The pieces of a string, and the piece that its terminator completes. -/
def scan : List Byte → List Piece × Option Piece
  | [] => ([], none)
  | [c] =>
      if c = 0x01 then ([], some (.color 0))
      else if c = ascii '%' then ([], some (.conv 0))
      else ([.plain c], none)
  | c :: d :: s =>
      if c = 0x01 then (.color d :: (scan s).1, (scan s).2)
      else if c = ascii '%' then (.conv d :: (scan s).1, (scan s).2)
      else (.plain c :: (scan (d :: s)).1, (scan (d :: s)).2)

/-- The terminator completes the last piece. -/
def CutOff (s : List Byte) : Prop := (scan s).2.isSome

instance (s : List Byte) : Decidable (CutOff s) :=
  inferInstanceAs (Decidable (_ = true))

/-- How a string ends once its pieces have been taken. -/
def ending : Option Piece → List Byte
  | none => [0]
  | some p => p.bytes

/-- The pieces spell the string with its terminator. -/
theorem scan_bytes (s : List Byte) :
    s ++ [0] = (scan s).1.flatMap Piece.bytes ++ ending (scan s).2 := by
  induction s using scan.induct with
  | case1 => rfl
  | case2 => rfl
  | case3 => rfl
  | case4 c hesc hpct =>
      rw [scan, if_neg hesc, if_neg hpct]
      rfl
  | case5 d s ih =>
      rw [scan, if_pos rfl, List.flatMap_cons, List.append_assoc, ← ih]
      rfl
  | case6 d s hpct ih =>
      rw [scan, if_neg hpct, if_pos rfl, List.flatMap_cons, List.append_assoc,
        ← ih]
      rfl
  | case7 c d s hesc hpct ih =>
      rw [scan, if_neg hesc, if_neg hpct, List.flatMap_cons, List.append_assoc,
        ← ih]
      rfl

theorem scan_ok {s : List Byte} (hs : ∀ c ∈ s, c ≠ 0) :
    ∀ p ∈ (scan s).1 ++ (scan s).2.toList, p.Ok := by
  induction s using scan.induct with
  | case1 => simp [scan]
  | case2 => exact fun p hp => List.mem_singleton.1 hp ▸ trivial
  | case3 hpct =>
      rw [scan, if_neg hpct, if_pos rfl]
      exact fun p hp => List.mem_singleton.1 hp ▸ trivial
  | case4 c hesc hpct =>
      rw [scan, if_neg hesc, if_neg hpct]
      intro p hp
      rw [List.mem_singleton.1 hp]
      exact ⟨hs c List.mem_cons_self, hesc, hpct⟩
  | case5 d s ih =>
      rw [scan, if_pos rfl, List.cons_append, List.forall_mem_cons]
      exact ⟨trivial, ih fun c hc => hs c (by simp [hc])⟩
  | case6 d s hpct ih =>
      rw [scan, if_neg hpct, if_pos rfl, List.cons_append,
        List.forall_mem_cons]
      exact ⟨trivial, ih fun c hc => hs c (by simp [hc])⟩
  | case7 c d s hesc hpct ih =>
      rw [scan, if_neg hesc, if_neg hpct, List.cons_append,
        List.forall_mem_cons]
      exact ⟨⟨hs c List.mem_cons_self, hesc, hpct⟩,
        ih fun c hc => hs c (List.mem_cons_of_mem _ hc)⟩

theorem pieces_ok {s : List Byte} (hs : ∀ c ∈ s, c ≠ 0) :
    ∀ p ∈ (scan s).1, p.Ok :=
  fun p hp => scan_ok hs p (List.mem_append_left _ hp)

/-! ## Reading the format -/

/-- The bytes from offset `i` on begin with the list. -/
def ReadsAt (fmt : ℕ → Byte) : ℕ → List Byte → Prop
  | _, [] => True
  | i, c :: s => fmt i = c ∧ ReadsAt fmt (i + 1) s

theorem readsAt_append {fmt : ℕ → Byte} {s s' : List Byte} :
    ∀ {i : ℕ}, ReadsAt fmt i (s ++ s') ↔
      ReadsAt fmt i s ∧ ReadsAt fmt (i + s.length) s' := by
  induction s with
  | nil => simp [ReadsAt]
  | cons c s ih =>
      intro i
      rw [List.cons_append, ReadsAt, ReadsAt, ih, List.length_cons,
        Nat.add_right_comm i 1, Nat.add_assoc i, and_assoc]

theorem readsAt_of_getElem {fmt : ℕ → Byte} {s : List Byte} :
    ∀ {i : ℕ}, (∀ k c, s[k]? = some c → fmt (i + k) = c) → ReadsAt fmt i s := by
  induction s with
  | nil => exact fun _ => trivial
  | cons c s ih =>
      intro i h
      refine ⟨h 0 c rfl, ih fun k d hd => ?_⟩
      rw [Nat.add_assoc, Nat.add_comm 1]
      exact h (k + 1) d hd

theorem ReadsAt.getElem {fmt : ℕ → Byte} {s : List Byte} : ∀ {i : ℕ},
    ReadsAt fmt i s → ∀ k c, s[k]? = some c → fmt (i + k) = c := by
  induction s with
  | nil => exact fun _ k c hc => absurd hc (by simp)
  | cons b s ih =>
      intro i h k c hc
      cases k with
      | zero => exact h.1.trans (Option.some.inj hc)
      | succ k =>
          rw [Nat.add_comm k 1, ← Nat.add_assoc]
          exact ih h.2 k c hc

theorem readsAt_terminated (s : List Byte) (rest : ℕ → Byte) :
    ReadsAt (terminated s rest) 0 (s ++ [0]) := by
  refine readsAt_of_getElem fun k c hc => ?_
  rw [Nat.zero_add, terminated, List.getD_eq_getElem?_getD, hc]
  rfl

/-! ## One iteration -/

/-- The bytes `handle_format` takes an argument for. -/
def IsConversion (fmtChar : Byte) : Prop :=
  fmtChar ∈ [ascii 's', ascii 'c', ascii 'x', ascii 'd']

instance (fmtChar : Byte) : Decidable (IsConversion fmtChar) :=
  inferInstanceAs (Decidable (_ ∈ _))

/-- What a conversion prints of its argument. -/
def rendered (fmtChar : Byte) (arg : Word) : Str :=
  if fmtChar = ascii 's' then .ptr arg
  else if fmtChar = ascii 'c' then asStr (arg.setWidth 8)
  else if fmtChar = ascii 'x' then .chars (hexNumeral arg)
  else .chars (decNumeral arg)

namespace Piece

/-- What taking a piece does to the variables of `vprintk`. -/
def step (abi : Abi) (l : Locals) : Piece → Locals
  | color code => { l with fmt := l.fmt + 2, color := getColor code }
  | conv fmtChar =>
      { l with
        fmt := l.fmt + 2
        ap := abi.afterCall l.ap
          (if IsConversion fmtChar then l.ap + 1 else l.ap) }
  | plain _ => { l with fmt := l.fmt + 1 }

/-- What is printed for a piece. -/
def calls (args : ℕ → Word) (l : Locals) : Piece → List Putstr
  | color _ => []
  | conv fmtChar =>
      if IsConversion fmtChar then
        [⟨some fmtChar, rendered fmtChar (args l.ap), l.color⟩]
      else []
  | plain c => [⟨none, asStr c, l.color⟩]

end Piece

theorem step_fmt (abi : Abi) (l : Locals) (p : Piece) :
    (p.step abi l).fmt = l.fmt + p.bytes.length := by
  cases p <;> rfl

theorem get_run (s : Console) : (get : Print Console) s = .ok s s := rfl

/-- The console once offset `i` has been read. -/
def Console.read (s : Console) (i : ℕ) : Console :=
  { s with reads := s.reads ++ [i] }

@[simp] theorem Console.mem_read {s : Console} {i j : ℕ} :
    j ∈ (s.read i).reads ↔ j ∈ s.reads ∨ j = i := by
  simp [Console.read]

theorem deref_run (c : Caller) (i : ℕ) (s : Console) :
    deref c i s = .ok (c.fmt i) (s.read i) := rfl

theorem runHex2str_run (n : Word) (s : Console) : ∃ text, runHex2str n s =
    .ok (.chars (hexNumeral n)) { s with hexString := text } := by
  obtain ⟨text, hrun, htext⟩ := hex2str_spec s.hexString n
  refine ⟨text, ?_⟩
  rw [← htext, runHex2str, run_bind_ok (get_run s), hrun]
  rfl

theorem runDec2str_run (n : Word) (s : Console) : ∃ text, runDec2str n s =
    .ok (.chars (decNumeral n)) { s with decString := text } := by
  obtain ⟨text, hrun, htext⟩ := dec2str_spec s.decString n
  refine ⟨text, ?_⟩
  rw [← htext, runDec2str, run_bind_ok (get_run s), hrun]
  rfl

theorem isConversion_iff (fmtChar : Byte) : IsConversion fmtChar ↔
    fmtChar = ascii 's' ∨ fmtChar = ascii 'c' ∨ fmtChar = ascii 'x' ∨
      fmtChar = ascii 'd' := by
  simp [IsConversion]

theorem handleFormat_conv (args : ℕ → Word) {fmtChar : Byte}
    (h : IsConversion fmtChar) (ap : ℕ) (color : Color) (s : Console) : ∃ s',
    handleFormat args fmtChar ap color s = .ok (ap + 1) s' ∧
      s'.reads = s.reads ∧ s'.calls =
        s.calls ++ [⟨some fmtChar, rendered fmtChar (args ap), color⟩] := by
  rcases (isConversion_iff fmtChar).1 h with rfl | rfl | rfl | rfl
  · exact ⟨_, rfl, rfl, rfl⟩
  · exact ⟨_, rfl, rfl, rfl⟩
  · obtain ⟨text, hrun⟩ := runHex2str_run (args ap) s
    have hcode : handleFormat args (ascii 'x') ap color = (do
        ptyPutstr (some (ascii 'x')) (← runHex2str (args ap)) color
        return ap + 1) := rfl
    exact ⟨_, (congrFun hcode s).trans (run_bind_ok hrun), rfl, rfl⟩
  · obtain ⟨text, hrun⟩ := runDec2str_run (args ap) s
    have hcode : handleFormat args (ascii 'd') ap color = (do
        ptyPutstr (some (ascii 'd')) (← runDec2str (args ap)) color
        return ap + 1) := rfl
    exact ⟨_, (congrFun hcode s).trans (run_bind_ok hrun), rfl, rfl⟩

theorem handleFormat_other (args : ℕ → Word) {fmtChar : Byte}
    (h : ¬ IsConversion fmtChar) (ap : ℕ) (color : Color) :
    handleFormat args fmtChar ap color = pure ap := by
  simp only [isConversion_iff, not_or] at h
  obtain ⟨hs, hc, hx, hd⟩ := h
  rw [handleFormat, if_neg hs, if_neg hc, if_neg hx, if_neg hd]

theorem handleFormat_run (args : ℕ → Word) (fmtChar : Byte) (l : Locals)
    (s : Console) : ∃ s',
    handleFormat args fmtChar l.ap l.color s =
        .ok (if IsConversion fmtChar then l.ap + 1 else l.ap) s' ∧
      s'.reads = s.reads ∧
      s'.calls = s.calls ++ (Piece.conv fmtChar).calls args l := by
  by_cases h : IsConversion fmtChar
  · simp only [Piece.calls, if_pos h]
    exact handleFormat_conv args h l.ap l.color s
  · simp only [Piece.calls, if_neg h, List.append_nil]
    exact ⟨s, by rw [handleFormat_other args h]; rfl, rfl, rfl⟩

/-- One iteration of the loop, on a piece. -/
theorem body_piece {c : Caller} {l : Locals} {p : Piece} (hp : p.Ok)
    (hfmt : ReadsAt c.fmt l.fmt p.bytes) (s : Console) : ∃ s',
    vprintkBody c l s = .ok (p.step c.abi l) s' ∧
      s'.calls = s.calls ++ p.calls c.args l ∧
      ∀ i ∈ s'.reads, i ∈ s.reads ∨ i < l.fmt + p.bytes.length := by
  cases p with
  | color code =>
      obtain ⟨hfirst, hsecond, _⟩ := hfmt
      refine ⟨(s.read l.fmt).read (l.fmt + 1), ?_, ?_, fun i hi => ?_⟩
      · rw [vprintkBody, run_bind_ok (deref_run c _ s), if_pos hfirst,
          run_bind_ok (deref_run c _ _), hsecond]
        rfl
      · exact (List.append_nil s.calls).symm
      · show _ ∨ i < l.fmt + 2
        simp only [Console.mem_read] at hi
        grind
  | conv fmtChar =>
      obtain ⟨hfirst, hsecond, _⟩ := hfmt
      have hesc : ¬ ascii '%' = 0x01 := by decide
      obtain ⟨s', hrun, hreads, hcalls⟩ := handleFormat_run c.args fmtChar l
        (((s.read l.fmt).read l.fmt).read (l.fmt + 1))
      refine ⟨s', ?_, hcalls, fun i hi => ?_⟩
      · rw [vprintkBody, run_bind_ok (deref_run c _ s), hfirst, if_neg hesc,
          run_bind_ok (deref_run c _ _), hfirst, if_pos rfl,
          run_bind_ok (deref_run c _ _), hsecond, run_bind_ok hrun]
        rfl
      · show _ ∨ i < l.fmt + 2
        rw [hreads] at hi
        simp only [Console.mem_read] at hi
        grind
  | plain d =>
      obtain ⟨hfirst, _⟩ := hfmt
      obtain ⟨_, hesc, hpct⟩ := hp
      let s₃ := ((s.read l.fmt).read l.fmt).read l.fmt
      refine ⟨{ s₃ with calls := s₃.calls ++ [⟨none, asStr d, l.color⟩] },
        ?_, rfl, fun i hi => ?_⟩
      · rw [vprintkBody, run_bind_ok (deref_run c _ s), hfirst, if_neg hesc,
          run_bind_ok (deref_run c _ _), hfirst, if_neg hpct,
          run_bind_ok (deref_run c _ _), hfirst]
        rfl
      · show _ ∨ i < l.fmt + 1
        have hi : i ∈ s₃.reads := hi
        simp only [s₃, Console.mem_read] at hi
        grind

/-! ## The loop -/

/-- The variables of `vprintk` once the pieces have been taken. -/
def stepAll (abi : Abi) (l : Locals) (ps : List Piece) : Locals :=
  ps.foldl (fun l p => p.step abi l) l

/-- What is printed for the pieces. -/
def callsAll (abi : Abi) (args : ℕ → Word) : Locals → List Piece → List Putstr
  | _, [] => []
  | l, p :: ps => p.calls args l ++ callsAll abi args (p.step abi l) ps

theorem stepAll_fmt (abi : Abi) (ps : List Piece) : ∀ l : Locals,
    (stepAll abi l ps).fmt = l.fmt + (ps.flatMap Piece.bytes).length := by
  induction ps with
  | nil => exact fun l => rfl
  | cons p ps ih =>
      intro l
      rw [List.flatMap_cons, List.length_append, ← Nat.add_assoc,
        ← step_fmt abi l p]
      exact ih (p.step abi l)

theorem loop_nul {c : Caller} {l : Locals} (h : c.fmt l.fmt = 0) (fuel : ℕ)
    (s : Console) :
    vprintkLoop c (fuel + 1) l s = .ok l (s.read l.fmt) := by
  rw [vprintkLoop, run_bind_ok (deref_run c _ s), if_pos h]
  rfl

theorem Piece.Ok.first {p : Piece} (hp : p.Ok) :
    ∃ b bs, p.bytes = b :: bs ∧ b ≠ 0 := by
  cases p with
  | color code => exact ⟨_, _, rfl, by decide⟩
  | conv fmtChar => exact ⟨_, _, rfl, by decide⟩
  | plain d => exact ⟨_, _, rfl, hp.1⟩

theorem loop_piece {c : Caller} {l : Locals} {p : Piece} (hp : p.Ok)
    (hfmt : ReadsAt c.fmt l.fmt p.bytes) (s : Console) : ∃ s',
    (∀ fuel, vprintkLoop c (fuel + 1) l s =
      vprintkLoop c fuel (p.step c.abi l) s') ∧
      s'.calls = s.calls ++ p.calls c.args l ∧
      ∀ i ∈ s'.reads, i ∈ s.reads ∨ i < (p.step c.abi l).fmt := by
  obtain ⟨b, bs, hbytes, hb⟩ := hp.first
  obtain ⟨s', hrun, hcalls, hreads⟩ := body_piece hp hfmt (s.read l.fmt)
  rw [hbytes] at hfmt
  rw [← step_fmt c.abi] at hreads
  refine ⟨s', fun fuel => ?_, hcalls, fun i hi => ?_⟩
  · rw [vprintkLoop, run_bind_ok (deref_run c _ s), hfmt.1, if_neg hb,
      run_bind_ok hrun]
  · rcases hreads i hi with hold | hlt
    · rcases Console.mem_read.1 hold with hold | rfl
      · exact Or.inl hold
      · rw [step_fmt, hbytes, List.length_cons]
        exact Or.inr (by omega)
    · exact Or.inr hlt

/-- The loop takes the pieces it finds, and goes on behind them. -/
theorem loop_pieces {c : Caller} (ps : List Piece) :
    ∀ {l : Locals} (s : Console), (∀ p ∈ ps, p.Ok) →
      ReadsAt c.fmt l.fmt (ps.flatMap Piece.bytes) → ∃ s',
      (∀ fuel, vprintkLoop c (ps.length + fuel) l s =
        vprintkLoop c fuel (stepAll c.abi l ps) s') ∧
      s'.calls = s.calls ++ callsAll c.abi c.args l ps ∧
      ∀ i ∈ s'.reads, i ∈ s.reads ∨ i < (stepAll c.abi l ps).fmt := by
  induction ps with
  | nil =>
      intro l s _ _
      refine ⟨s, fun fuel => ?_, (List.append_nil _).symm, fun i => Or.inl⟩
      rw [List.length_nil, Nat.zero_add]
      rfl
  | cons p ps ih =>
      intro l s hok hfmt
      rw [List.flatMap_cons, readsAt_append, ← step_fmt c.abi] at hfmt
      rw [List.forall_mem_cons] at hok
      obtain ⟨s₁, hrun, hcalls, hreads⟩ := loop_piece hok.1 hfmt.1 s
      obtain ⟨s', hrest, hcalls', hreads'⟩ := ih s₁ hok.2 hfmt.2
      refine ⟨s', fun fuel => ?_, ?_, fun i hi => ?_⟩
      · rw [List.length_cons, Nat.add_right_comm, hrun, hrest]
        rfl
      · rw [hcalls', hcalls, callsAll, List.append_assoc]
      · rcases hreads' i hi with hmid | hlt
        · rcases hreads i hmid with hold | hlt
          · exact Or.inl hold
          · refine Or.inr (Nat.lt_of_lt_of_le hlt ?_)
            exact Nat.le.intro (stepAll_fmt c.abi ps _).symm
        · exact Or.inr hlt

/-! ## What is kept

The logs only grow, and what a run has done it does on more fuel as well. -/

def Console.Extends (s s' : Console) : Prop :=
  s.reads <+: s'.reads ∧ s.calls <+: s'.calls

theorem Console.Extends.refl (s : Console) : s.Extends s :=
  ⟨List.prefix_refl _, List.prefix_refl _⟩

theorem Console.Extends.trans (s t u : Console) (h : s.Extends t)
    (h' : t.Extends u) : s.Extends u :=
  ⟨h.1.trans h'.1, h.2.trans h'.2⟩

theorem extends_pure {α : Type} (a : α) :
    Along Console.Extends (pure a : Print α) :=
  Along.pure Console.Extends.refl a

theorem extends_bind {α β : Type} {x : Print α} {f : α → Print β}
    (hx : Along Console.Extends x) (hf : ∀ a, Along Console.Extends (f a)) :
    Along Console.Extends (x >>= f) :=
  Along.bind Console.Extends.trans hx hf

theorem extends_deref (c : Caller) (i : ℕ) :
    Along Console.Extends (deref c i) :=
  fun _ => ⟨List.prefix_append _ _, List.prefix_refl _⟩

theorem extends_ptyPutstr (conv : Option Byte) (str : Str) (color : Color) :
    Along Console.Extends (ptyPutstr conv str color) :=
  fun _ => ⟨List.prefix_refl _, List.prefix_append _ _⟩

theorem extends_handleFormat (args : ℕ → Word) (fmtChar : Byte) (ap : ℕ)
    (color : Color) :
    Along Console.Extends (handleFormat args fmtChar ap color) := by
  intro s
  obtain ⟨s', hrun, hreads, hcalls⟩ :=
    handleFormat_run args fmtChar ⟨0, ap, color⟩ s
  rw [hrun]
  refine ⟨?_, ?_⟩
  · rw [after_ok, hreads]
  · rw [after_ok, hcalls]
    exact List.prefix_append _ _

theorem extends_body (c : Caller) (l : Locals) :
    Along Console.Extends (vprintkBody c l) :=
  extends_bind (extends_deref c _) fun _ => Along.ite
    (extends_bind (extends_deref c _) fun _ => extends_pure _)
    (extends_bind (extends_deref c _) fun _ => Along.ite
      (extends_bind (extends_deref c _) fun _ =>
        extends_bind (extends_handleFormat _ _ _ _) fun _ => extends_pure _)
      (extends_bind (extends_deref c _) fun _ =>
        extends_bind (extends_ptyPutstr _ _ _) fun _ => extends_pure _))

theorem extends_loop (c : Caller) (fuel : ℕ) :
    ∀ l, Along Console.Extends (vprintkLoop c fuel l) := by
  induction fuel with
  | zero => exact fun _ => Along.throw Console.Extends.refl _
  | succ fuel ih =>
      exact fun l => extends_bind (extends_deref c _) fun _ => Along.ite
        (extends_pure l) (extends_bind (extends_body c l) ih)

/-- The first byte the loop reads. -/
theorem loop_reads (c : Caller) (fuel : ℕ) (l : Locals) (s : Console) :
    l.fmt ∈ (after (vprintkLoop c (fuel + 1) l s)).reads := by
  have hrest : Along Console.Extends (if c.fmt l.fmt = 0 then pure l
      else vprintkBody c l >>= vprintkLoop c fuel) :=
    Along.ite (extends_pure l)
      (extends_bind (extends_body c l) (extends_loop c fuel))
  rw [vprintkLoop, run_bind_ok (deref_run c _ s)]
  exact (hrest (s.read l.fmt)).1.subset (by simp)

/-- A run that returns does so on any larger fuel. -/
theorem loop_mono {c : Caller} {fuel : ℕ} (k : ℕ) :
    ∀ {l l' : Locals} {s s' : Console}, vprintkLoop c fuel l s = .ok l' s' →
      vprintkLoop c (fuel + k) l s = .ok l' s' := by
  induction fuel with
  | zero => exact fun h => nomatch h
  | succ fuel ih =>
      intro l l' s s' h
      rw [Nat.add_right_comm]
      rw [vprintkLoop, run_bind_ok (deref_run c _ s)] at h ⊢
      by_cases hnul : c.fmt l.fmt = 0
      · rwa [if_pos hnul] at h ⊢
      · rw [if_neg hnul] at h ⊢
        cases hbody : vprintkBody c l (s.read l.fmt) with
        | ok l₁ s₁ =>
            rw [run_bind_ok hbody] at h ⊢
            exact ih h
        | error e s₁ =>
            rw [run_bind_error hbody] at h
            cases h

end VegaOS
