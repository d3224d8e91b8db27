import VegaOS.Proofs.NumeralsRead
import VegaOS.Proofs.Terminal

/-!
# Messages on the screen

A run of `printk` calls from any screen: behind the text that is shown there
are then the renderings of the messages, each from the default colour on,
whatever colour the message before ended in. A panic adds its prefix and its
own message, and nothing after that is printed.

A conversion prints what it finds: its own argument on x86-64, and on aarch64
the first one, whichever conversion it is, taken for what the conversion
takes it for.
-/

namespace VegaOS

open ByteMem Trace

/-! ## What a conversion finds -/

/-- The argument a conversion takes a slot for, with the string there is at an
address. -/
def Arg.found (strings : Word → List Byte) (slot : Word) (fmtChar : Byte) :
    Arg :=
  if fmtChar = ascii 's' then .str (strings slot)
  else if fmtChar = ascii 'c' then .chr (slot.setWidth 8)
  else .num slot

/-- The arguments conversions find, where the ABI has them look. -/
def foundArgs (abi : Abi) (strings : Word → List Byte) (slots : ℕ → Word)
    (ap : ℕ) (fs : List Byte) : List Arg :=
  fs.mapIdx fun k f => .found strings (slots (abi.slot ap k)) f

/-- Where a `%s` looks there is a string. -/
def StringsAt (mem : Mem) (abi : Abi) (strings : Word → List Byte)
    (slots : ℕ → Word) (ap : ℕ) (fs : List Byte) : Prop :=
  ∀ k, fs[k]? = some (ascii 's') →
    (Arg.str (strings (slots (abi.slot ap k)))).At mem
      (slots (abi.slot ap k))

section Found

variable {mem : Mem} {abi : Abi} {strings : Word → List Byte}
variable {slots : ℕ → Word} {ap : ℕ} {slot : Word} {d : Byte} {fs : List Byte}

theorem foundArgs_cons : foundArgs abi strings slots ap (d :: fs) =
    .found strings (slots ap) d ::
      foundArgs abi strings slots (abi.afterCall ap (ap + 1)) fs := by
  rw [foundArgs, List.mapIdx_cons, Abi.slot_zero]
  simp only [Abi.slot_succ]
  rfl

theorem stringsAt_of_not_mem (h : ascii 's' ∉ fs) :
    StringsAt mem abi strings slots ap fs :=
  fun _ hk => absurd (List.mem_of_getElem? hk) h

theorem StringsAt.head (h : StringsAt mem abi strings slots ap (d :: fs))
    (hd : d = ascii 's') : (Arg.str (strings (slots ap))).At mem (slots ap) := by
  have hzero := h 0 (congrArg some hd)
  rwa [Abi.slot_zero] at hzero

theorem StringsAt.tail (h : StringsAt mem abi strings slots ap (d :: fs)) :
    StringsAt mem abi strings slots (abi.afterCall ap (ap + 1)) fs := by
  intro k hk
  have hsucc := h (k + 1) hk
  rwa [Abi.slot_succ] at hsucc

theorem Arg.found_fits (hd : IsConversion d) :
    (Arg.found strings slot d).Fits d := by
  rcases (isConversion_iff d).1 hd with rfl | rfl | rfl | rfl
  · exact rfl
  · exact rfl
  · exact Or.inl rfl
  · exact Or.inr rfl

theorem Arg.found_at
    (hstring : d = ascii 's' → (Arg.str (strings slot)).At mem slot) :
    (Arg.found strings slot d).At mem slot := by
  rw [Arg.found]
  split
  · rename_i hd
    exact hstring hd
  · split <;> rfl

/-- A conversion that finds its argument, or that is none. -/
theorem delivers_found_conv {l : Locals}
    (h : StringsAt mem abi strings slots l.ap
      ((Piece.conv d).conversion.toList ++ fs)) :
    Delivers mem ((Piece.conv d).calls slots l)
        ((convText d (foundArgs abi strings slots l.ap
          ((Piece.conv d).conversion.toList ++ fs))).map fun c =>
            (c, l.color)) ∧
      convRest d (foundArgs abi strings slots l.ap
          ((Piece.conv d).conversion.toList ++ fs)) =
        foundArgs abi strings slots ((Piece.conv d).step abi l).ap fs ∧
      StringsAt mem abi strings slots ((Piece.conv d).step abi l).ap fs := by
  by_cases hd : IsConversion d
  · rw [Piece.conversion, if_pos hd] at h ⊢
    rw [Piece.calls, Piece.step, convText, convRest, if_pos hd, if_pos hd,
      if_pos hd, if_pos hd]
    have hcons : foundArgs abi strings slots l.ap ((some d).toList ++ fs) = _ :=
      foundArgs_cons
    rw [hcons]
    exact ⟨delivers_single (isCString_rendered (Arg.found_fits hd)
      (Arg.found_at h.head)), rfl, h.tail⟩
  · rw [Piece.conversion, if_neg hd] at h ⊢
    rw [Piece.calls, Piece.step, convText, convRest, if_neg hd, if_neg hd,
      if_neg hd, if_neg hd, Abi.afterCall_self]
    exact ⟨rfl, rfl, h⟩

/-- A piece prints what it means with what its conversion finds, and what is
left is what the pieces behind it find. -/
theorem delivers_found_piece {p : Piece} (hp : p.Ok) {l : Locals}
    (h : StringsAt mem abi strings slots l.ap (p.conversion.toList ++ fs)) :
    Delivers mem (p.calls slots l) (p.rendering l.color (foundArgs abi strings
        slots l.ap (p.conversion.toList ++ fs))).out ∧
      (p.rendering l.color (foundArgs abi strings slots l.ap
          (p.conversion.toList ++ fs))).args =
        foundArgs abi strings slots (p.step abi l).ap fs ∧
      StringsAt mem abi strings slots (p.step abi l).ap fs := by
  cases p with
  | color code => exact ⟨rfl, rfl, h⟩
  | conv d => exact delivers_found_conv h
  | plain c =>
      have htext : IsCString ((asStr c).bytes mem) _ := isCString_asStr c
      rw [if_neg hp.1] at htext
      exact ⟨⟨[c], [], htext, rfl, rfl⟩, rfl, h⟩

/-- And so do pieces one after another. -/
theorem delivers_found {ps : List Piece} (hps : ∀ p ∈ ps, p.Ok) :
    ∀ {l : Locals},
      StringsAt mem abi strings slots l.ap (ps.filterMap Piece.conversion) →
      Delivers mem (callsAll abi slots l ps)
        (render l.color (foundArgs abi strings slots l.ap
          (ps.filterMap Piece.conversion)) (ps.flatMap Piece.bytes)).out := by
  induction ps with
  | nil => exact fun _ => rfl
  | cons p ps ih =>
      intro l h
      rw [List.forall_mem_cons] at hps
      have hfirst : (p :: ps).filterMap Piece.conversion =
          p.conversion.toList ++ ps.filterMap Piece.conversion := by
        cases hp : p.conversion <;> simp [hp]
      rw [hfirst] at h ⊢
      obtain ⟨hout, hargs, hrest⟩ := delivers_found_piece hps.1 h
      have hcolor : (p.step abi l).color = (p.rendering l.color (foundArgs abi
          strings slots l.ap (p.conversion.toList ++
            ps.filterMap Piece.conversion))).color := by
        cases p <;> rfl
      rw [List.flatMap_cons, render_piece hps.1, hargs, ← hcolor]
      exact delivers_append hout (ih hps.2 hrest)

end Found

/-! ## Plain text -/

/-- Bytes that stand for themselves in a format. -/
def IsPlain (s : List Byte) : Prop :=
  ∀ c ∈ s, c ≠ 0 ∧ c ≠ 0x01 ∧ c ≠ ascii '%'

instance (s : List Byte) : Decidable (IsPlain s) :=
  List.decidableBAll (fun c : Byte => c ≠ 0 ∧ c ≠ 0x01 ∧ c ≠ ascii '%') s

section Plain

variable {s : List Byte} (h : IsPlain s)
include h

theorem scan_plain : scan s = (s.map .plain, none) := by
  induction s with
  | nil => rfl
  | cons c s ih =>
      rw [IsPlain, List.forall_mem_cons] at h
      have hc : (Piece.plain c).Ok := h.1
      rw [List.map_cons, ← List.singleton_append,
        show [c] = (Piece.plain c).bytes from rfl, scan_piece hc, ih h.2]

theorem render_plain (color : Color) (args : List Arg) :
    render color args s = ⟨s.map fun c => (c, color), color, args⟩ := by
  induction s with
  | nil => rfl
  | cons c s ih =>
      rw [IsPlain, List.forall_mem_cons] at h
      have hc : (Piece.plain c).Ok := h.1
      have hrest := ih h.2
      rw [List.map_cons, ← List.singleton_append,
        show [c] = (Piece.plain c).bytes from rfl, render_piece hc]
      show (render color args s).after [(c, color)] = _
      rw [hrest]
      rfl

theorem conversions_plain : conversions s = [] := by
  rw [conversions, scan_plain h, List.filterMap_map]
  exact List.filterMap_eq_nil_iff.2 fun _ _ => rfl

theorem not_cutOff_plain : ¬ CutOff s := by
  rw [CutOff, scan_plain h]
  exact Bool.false_ne_true

end Plain

/-- A text in the default colour. -/
def inDefault (s : List Byte) : Text := s.map fun c => (c, PRINTK_DEFAULT_FG)

theorem length_inDefault (s : List Byte) : (inDefault s).length = s.length :=
  List.length_map _

/-- Bytes the terminal can draw. -/
def IsText (s : List Byte) : Prop := ∀ b ∈ s, b = ascii '\n' ∨ Printable b

instance (s : List Byte) : Decidable (IsText s) :=
  List.decidableBAll (fun b : Byte => b = ascii '\n' ∨ Printable b) s

theorem isText_append {s s' : List Byte} :
    IsText (s ++ s') ↔ IsText s ∧ IsText s' :=
  List.forall_mem_append

theorem Drawable.append {out out' : Text} (h : Drawable out)
    (h' : Drawable out') : Drawable (out ++ out') :=
  List.forall_mem_append.2 ⟨h, h'⟩

theorem IsText.drawable {s : List Byte} (h : IsText s) (color : Color) :
    Drawable (s.map fun c => (c, color)) := by
  intro p hp
  obtain ⟨b, hb, rfl⟩ := List.mem_map.1 hp
  exact h b hb

theorem isText_decNumeral (n : Word) : IsText (decNumeral n) := by
  have hdigit : ∀ c : Byte, (decValue c).isSome → Printable c := by decide
  exact fun b hb => Or.inr
    (hdigit b (Positional.isSome_of_read (readDec_decNumeral n) b hb))

theorem isText_hexNumeral (n : Word) : IsText (hexNumeral n) := by
  have hdigit : ∀ c : Byte, (hexValue c).isSome → Printable c := by decide
  have hread : Positional.read 16 hexValue (hexDigits n) = some n.toNat := by
    have h := readHex_hexNumeral n
    rw [hexNumeral_eq] at h
    exact h
  rw [hexNumeral_eq, isText_append]
  exact ⟨by decide, fun b hb => Or.inr
    (hdigit b (Positional.isSome_of_read hread b hb))⟩

theorem length_decNumeral (n : Word) : (decNumeral n).length ≤ 20 :=
  length_numeral_reverse_le (by decide) (by decide)
    (Nat.lt_of_lt_of_le n.isLt (by decide))

theorem length_hexNumeral (n : Word) : (hexNumeral n).length ≤ 18 := by
  rw [hexNumeral_eq, List.length_append]
  exact Nat.add_le_add_left (length_hexDigits n).2.1 2

/-- A text that is short enough fits in any case. -/
theorem fits_of_length {out : Text} (h : out.length < 2 ^ 28) : Fits out :=
  (Lines.within_length out).mono
    (Nat.le_trans (Nat.le_of_lt h) (by decide)) h

/-! ## Messages -/

/-- A format with its arguments, as `printk` can print it. -/
structure Message (abi : Abi) (mem : Mem) where
  fmt : List Byte
  slots : ℕ → Word
  strings : Word → List Byte
  noNul : ∀ b ∈ fmt, b ≠ 0
  whole : ¬ CutOff fmt
  stringsAt : StringsAt mem abi strings slots 0 (conversions fmt)

namespace Message

variable {abi : Abi} {mem : Mem}

/-- A format that is printed as it is, whatever the arguments are. -/
def plain (abi : Abi) (mem : Mem) (fmt : List Byte) (slots : ℕ → Word)
    (h : IsPlain fmt) : Message abi mem where
  fmt := fmt
  slots := slots
  strings := fun _ => []
  noNul b hb := (h b hb).1
  whole := not_cutOff_plain h
  stringsAt := by
    rw [conversions_plain h]
    exact stringsAt_of_not_mem List.not_mem_nil

/-- A format with one conversion, and the argument for it. -/
def single (abi : Abi) (fmt : List Byte) (arg : Word) (s : List Byte)
    {d : Byte} (hnul : 0 ∉ fmt) (hcut : ¬ CutOff fmt)
    (hconv : conversions fmt = [d])
    (hstring : d = ascii 's' → (Arg.str s).At mem arg) : Message abi mem where
  fmt := fmt
  slots := fun _ => arg
  strings := fun _ => s
  noNul _ hb hb0 := hnul (hb0 ▸ hb)
  whole := hcut
  stringsAt := by
    rw [hconv]
    intro k hk
    exact hstring (List.mem_singleton.1 (List.mem_of_getElem? hk)).symm

def args (m : Message abi mem) : List Arg :=
  foundArgs abi m.strings m.slots 0 (conversions m.fmt)

/-- What the message looks like. -/
def text (m : Message abi mem) : Text :=
  (render PRINTK_DEFAULT_FG m.args m.fmt).out

theorem plain_text {fmt : List Byte} (slots : ℕ → Word) (h : IsPlain fmt) :
    (plain abi mem fmt slots h).text = inDefault fmt :=
  congrArg Rendering.out (render_plain h PRINTK_DEFAULT_FG _)

/-- The call, with `rest` behind the format in memory. -/
def caller (m : Message abi mem) (rest : ℕ → Byte) : Caller :=
  ⟨abi, terminated m.fmt rest, m.slots⟩

/-- `printk` delivers the text of the message. -/
theorem run_printk (m : Message abi mem) (rest : ℕ → Byte) {fuel : ℕ}
    (hfuel : m.fmt.length < fuel) (st : Console) : ∃ calls s',
    printk (m.caller rest) fuel st = .ok () s' ∧
      s'.calls = st.calls ++ calls ∧ Delivers mem calls m.text := by
  let l : Locals := ⟨0, 0, PRINTK_DEFAULT_FG⟩
  obtain ⟨s', hrun, -, hcalls, -⟩ := loop_format (c := m.caller rest) (l := l)
    rfl m.noNul m.whole rfl st
  have hlen := length_scan_le m.fmt
  obtain ⟨k, rfl⟩ : ∃ k, fuel = (scan m.fmt).1.length + 1 + k :=
    Nat.exists_eq_add_of_le (by omega)
  refine ⟨callsAll abi m.slots l (scan m.fmt).1, s', ?_, hcalls, ?_⟩
  · rw [printk, vprintk, run_bind_ok (loop_mono k hrun)]
    rfl
  · have hout := delivers_found (pieces_ok m.noNul) (l := l) m.stringsAt
    rwa [flatMap_scan m.whole] at hout

end Message

section Runs

variable {abi : Abi} {mem : Mem}

/-- What a run of messages looks like. -/
def allText (ms : List (Message abi mem)) : Text := ms.flatMap Message.text

def printkAll (rest : ℕ → Byte) (fuel : ℕ) (ms : List (Message abi mem)) :
    Print Unit :=
  ms.forM fun m => printk (m.caller rest) fuel

theorem run_printkAll (rest : ℕ → Byte) {fuel : ℕ}
    {ms : List (Message abi mem)} (hfuel : ∀ m ∈ ms, m.fmt.length < fuel) :
    ∀ st : Console, ∃ calls s', printkAll rest fuel ms st = .ok () s' ∧
      s'.calls = st.calls ++ calls ∧ Delivers mem calls (allText ms) := by
  induction ms with
  | nil => exact fun st => ⟨[], st, rfl, (List.append_nil _).symm, rfl⟩
  | cons m ms ih =>
      intro st
      obtain ⟨calls, s₁, hrun, hcalls, hout⟩ :=
        m.run_printk rest (hfuel m List.mem_cons_self) st
      obtain ⟨calls', s', hrun', hcalls', hout'⟩ :=
        ih (fun m' hm' => hfuel m' (List.mem_cons_of_mem m hm')) s₁
      refine ⟨calls ++ calls', s', (run_bind_ok hrun).trans hrun', ?_,
        delivers_append hout hout'⟩
      rw [hcalls', hcalls, List.append_assoc]

/-- `__KERN_PANIC`, as a message. -/
def Message.kernPanic (abi : Abi) (mem : Mem) (slots : ℕ → Word) :
    Message abi mem where
  fmt := VegaOS.kernPanic
  slots := slots
  strings := fun _ => []
  noNul := by decide
  whole := by decide
  stringsAt := stringsAt_of_not_mem (by decide)

/-- What a panic puts in front of its message. -/
def panicPrefix : Text := (render PRINTK_DEFAULT_FG [] VegaOS.kernPanic).out

theorem drawable_panicPrefix : Drawable panicPrefix := by decide

theorem length_panicPrefix : panicPrefix.length = 11 := by decide

theorem panicPrefix_cons : ∃ out, panicPrefix = (ascii '[', 0xFFFFFF) :: out :=
  List.head?_eq_some_iff.1 rfl

/-- Whatever follows the bracket a prefix begins with, it is there. -/
theorem shade_bracket (out : Text) :
    shade ((ascii '[', 0xFFFFFF) :: out) (3, 2) = some 0xFFFFFF := by
  rw [shade_cons (by decide) out _ (by decide)]
  decide +kernel

theorem shade_panicPrefix (out : Text) :
    shade (panicPrefix ++ out) (3, 2) = some 0xFFFFFF := by
  obtain ⟨rest, hcons⟩ := panicPrefix_cons
  rw [hcons, List.cons_append, shade_bracket]

/-- What a panic looks like. -/
def Message.panicText (m : Message abi mem) : Text := panicPrefix ++ m.text

/-- A panic delivers its prefix and its message, and halts. -/
theorem Message.run_panic (m : Message abi mem) (rest rest' : ℕ → Byte)
    {fuel : ℕ} (hbegin : VegaOS.kernPanic.length < fuel)
    (hfuel : m.fmt.length < fuel) (st : Console) : ∃ calls s',
    panic (m.caller rest) rest' fuel st = .error .halted s' ∧
      s'.calls = st.calls ++ calls ∧ Delivers mem calls m.panicText := by
  obtain ⟨calls, s₁, hrun, hcalls, hout⟩ :=
    (Message.kernPanic abi mem m.slots).run_printk rest' hbegin st
  obtain ⟨calls', s', hrun', hcalls', hout'⟩ := m.run_printk rest hfuel s₁
  refine ⟨calls ++ calls', s', ?_, ?_, delivers_append hout hout'⟩
  · rw [panic]
    exact (run_bind_ok hrun).trans (run_bind_ok hrun')
  · rw [hcalls', hcalls, List.append_assoc]

end Runs

section Screen

variable {fb : Framebuffer} (h : Geometry fb) (t : Target) {mem init : Mem}
variable {out : Text} {st : Pty} (hst : Shows h init out st)
include hst

/-- Calls that deliver no more than `k` characters, where there is room for so
many in any case. -/
theorem Shows.deliver {calls : List Putstr} {out' : Text}
    (hcalls : Delivers mem calls out') (hdraw : Drawable out') {k n : ℕ}
    (hlen : out'.length ≤ k) (hroom : out.length + k < 2 ^ 28) (hn : k < n) :
    ∃ st', VegaOS.deliver t n mem calls st = .ok () st' ∧
      Shows h init (out ++ out') st' := by
  have hfit : Fits (out ++ out') := by
    refine fits_of_length (Nat.lt_of_le_of_lt ?_ hroom)
    rw [List.length_append]
    exact Nat.add_le_add_left hlen _
  rw [deliver_eq t (Nat.lt_of_le_of_lt hlen hn) hcalls]
  exact hst.putBytes t hdraw hfit

end Screen

/-! ## Strings in memory -/

/-- Strings, 64 bytes apart. -/
def packed (ss : List (List Byte)) : Mem := fun a =>
  (ss.getD (a.toNat / 64) []).getD (a.toNat % 64) 0

def packedAt (ss : List (List Byte)) (s : List Byte) : Word :=
  BitVec.ofNat 64 (64 * ss.idxOf s)

theorem getD_terminated {s : List Byte} {k : ℕ} {c : Byte}
    (h : (s ++ [0])[k]? = some c) : s.getD k 0 = c := by
  rw [List.getElem?_append] at h
  rw [List.getD_eq_getElem?_getD]
  split at h
  · rw [h]
    rfl
  · rename_i hk
    rw [List.getElem?_eq_none (Nat.le_of_not_lt hk)]
    exact (List.mem_singleton.1 (List.mem_of_getElem? h)).symm

theorem packed_at {ss : List (List Byte)} (hfew : ss.length < 2 ^ 32)
    (hss : ∀ s ∈ ss, 0 ∉ s ∧ s.length < 64) : ∀ s ∈ ss,
    (Arg.str s).At (packed ss) (packedAt ss s) := by
  intro s hs
  obtain ⟨hnul, hlen⟩ := hss s hs
  refine ⟨fun b hb hb0 => hnul (hb0 ▸ hb), readsAt_of_getElem fun k c hc => ?_⟩
  have hk : k < (s ++ [0]).length := (List.getElem?_eq_some_iff.1 hc).1
  rw [List.length_append, List.length_singleton] at hk
  have hidx : ss.idxOf s < ss.length := List.idxOf_lt_length_iff.2 hs
  have haddr : (packedAt ss s + BitVec.ofNat 64 (0 + k)).toNat =
      64 * ss.idxOf s + k := by
    simp only [packedAt, BitVec.toNat_add, BitVec.toNat_ofNat]
    omega
  have hdiv : (64 * ss.idxOf s + k) / 64 = ss.idxOf s := by omega
  have hmod : (64 * ss.idxOf s + k) % 64 = k := by omega
  have hget : ss.getD (ss.idxOf s) [] = s := by
    rw [List.getD_eq_getElem?_getD, List.getElem?_idxOf hs, Option.getD_some]
  rw [packed, haddr, hdiv, hmod, hget]
  exact getD_terminated hc

/-- `"\0011%c"` with the argument `'B'`. -/
def redLetter : Message .aapcs64 fun _ => 0 :=
  .single .aapcs64 [0x01, ascii '1', ascii '%', ascii 'c'] 0x42 []
    (by decide) (by decide)
    (show conversions [0x01, ascii '1', ascii '%', ascii 'c'] = [ascii 'c'] by
      decide)
    (fun h => absurd h (by decide))

/-- `"\0011%c%c"` with the arguments `'B'` and `'C'`. -/
def redLetters : Message .aapcs64 fun _ => 0 where
  fmt := [0x01, ascii '1', ascii '%', ascii 'c', ascii '%', ascii 'c']
  slots k := 0x42 + BitVec.ofNat 64 k
  strings := fun _ => []
  noNul := by decide
  whole := by decide
  stringsAt := stringsAt_of_not_mem (by decide)

end VegaOS
