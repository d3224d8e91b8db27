import VegaOS.Proofs.PrintkCursor

/-!
# Which argument a conversion gets

`vprintk` hands its `va_list` to `handle_format`, once for every `%`. Where a
`va_list` is an array, the call moves the list of the caller on, and the next
conversion reads the next argument. Where it is a struct, the caller's list
stays where it was, and every conversion reads the first argument again.
-/

namespace VegaOS

open ByteMem Trace

/-- The conversion a piece is. -/
def Piece.conversion : Piece → Option Byte
  | .conv fmtChar => if IsConversion fmtChar then some fmtChar else none
  | _ => none

/-- The conversions of a format. -/
def conversions (s : List Byte) : List Byte :=
  (scan s).1.filterMap Piece.conversion

/-- What the calls of `pty_putstr` print for conversions. -/
def converted (calls : List Putstr) : List (Byte × Str) :=
  calls.filterMap fun p => p.conv.map fun fmtChar => (fmtChar, p.str)

/-- Whatever the arguments are and whatever follows the format in memory, the
conversions of the format print the arguments, in order; and where the format
is not cut off, nothing else is printed for a conversion. -/
def OwnArguments (abi : Abi) (s : List Byte) : Prop :=
  ∀ (rest : ℕ → Byte) (args : ℕ → Word) (ap : ℕ)
    (hexString decString : StringBuffer),
    let own := (conversions s).mapIdx
      fun k f => (f, rendered f (args (ap + k)))
    (∀ fuel, s.length ≤ fuel →
      own <+: converted (after (vprintk ⟨abi, terminated s rest, args⟩ fuel ap
        (.start hexString decString))).calls) ∧
    (¬ CutOff s → ∀ fuel, s.length < fuel → ∃ s',
      vprintk ⟨abi, terminated s rest, args⟩ fuel ap
        (.start hexString decString) = .ok () s' ∧ converted s'.calls = own)

/-- The slot that the conversion number `k` after `ap` reads. -/
def Abi.slot : Abi → ℕ → ℕ → ℕ
  | .sysV, ap, k => ap + k
  | .aapcs64, ap, _ => ap

theorem Abi.slot_zero (abi : Abi) (ap : ℕ) : abi.slot ap 0 = ap := by
  cases abi <;> rfl

theorem Abi.slot_succ (abi : Abi) (ap k : ℕ) :
    abi.slot ap (k + 1) = abi.slot (abi.afterCall ap (ap + 1)) k := by
  cases abi with
  | sysV => exact (Nat.succ_add_eq_add_succ ap k).symm
  | aapcs64 => rfl

theorem Abi.afterCall_self (abi : Abi) (ap : ℕ) :
    abi.afterCall ap ap = ap := by
  cases abi <;> rfl

theorem converted_append (xs ys : List Putstr) :
    converted (xs ++ ys) = converted xs ++ converted ys :=
  List.filterMap_append

/-- What the pieces of a format print for its conversions. -/
theorem converted_callsAll (abi : Abi) (args : ℕ → Word) (ps : List Piece) :
    ∀ l : Locals, converted (callsAll abi args l ps) =
      (ps.filterMap Piece.conversion).mapIdx
        fun k f => (f, rendered f (args (abi.slot l.ap k))) := by
  induction ps with
  | nil => exact fun l => rfl
  | cons p ps ih =>
      intro l
      rw [callsAll, converted_append, ih]
      cases p with
      | color code => rfl
      | plain c => rfl
      | conv f =>
          by_cases hf : IsConversion f
          · simp [Piece.calls, Piece.conversion, Piece.step, hf, converted,
              List.mapIdx_cons, Abi.slot_zero, Abi.slot_succ]
          · simp [Piece.calls, Piece.conversion, Piece.step, hf, converted,
              Abi.afterCall_self]

theorem length_scan_le (s : List Byte) : (scan s).1.length ≤ s.length := by
  induction s using scan.induct with
  | case1 => exact Nat.le_refl _
  | case2 => exact Nat.zero_le _
  | case3 => exact Nat.zero_le _
  | case4 c hesc hpct =>
      rw [scan, if_neg hesc, if_neg hpct]
      exact Nat.le_refl _
  | case5 d s ih =>
      rw [scan, if_pos rfl]
      simp only [List.length_cons]
      omega
  | case6 d s hpct ih =>
      rw [scan, if_neg hpct, if_pos rfl]
      simp only [List.length_cons]
      omega
  | case7 c d s hesc hpct ih =>
      rw [scan, if_neg hesc, if_neg hpct]
      simp only [List.length_cons] at ih ⊢
      omega

theorem after_vprintk (c : Caller) (fuel ap : ℕ) (st : Console) :
    after (vprintk c fuel ap st) =
      after (vprintkLoop c fuel ⟨0, ap, PRINTK_DEFAULT_FG⟩ st) :=
  after_bind (fun _ _ => rfl) st

section Format

variable {s : List Byte} (hs : ∀ b ∈ s, b ≠ 0) (abi : Abi)
variable (rest : ℕ → Byte) (args : ℕ → Word) {fuel : ℕ}
variable (hfuel : s.length ≤ fuel) (ap : ℕ)

include hs hfuel

/-- The conversions of a format print what is in their slots. -/
theorem converted_vprintk (st : Console) :
    (converted st.calls ++ (conversions s).mapIdx
      fun k f => (f, rendered f (args (abi.slot ap k)))) <+:
        converted (after (vprintk ⟨abi, terminated s rest, args⟩ fuel ap
          st)).calls := by
  have hreads : ReadsAt (terminated s rest) 0 (s ++ [0]) :=
    readsAt_terminated s rest
  rw [scan_bytes, readsAt_append] at hreads
  obtain ⟨s', hrun, hcalls, _⟩ := loop_pieces (scan s).1 st (pieces_ok hs)
    (c := ⟨abi, terminated s rest, args⟩) (l := ⟨0, ap, PRINTK_DEFAULT_FG⟩)
    hreads.1
  obtain ⟨k, rfl⟩ :=
    Nat.exists_eq_add_of_le (Nat.le_trans (length_scan_le s) hfuel)
  have hext := (extends_loop ⟨abi, terminated s rest, args⟩ k
    (stepAll abi ⟨0, ap, PRINTK_DEFAULT_FG⟩ (scan s).1) s').2
  rw [← hrun, ← after_vprintk, hcalls] at hext
  rw [conversions, ← converted_callsAll abi args (scan s).1
    ⟨0, ap, PRINTK_DEFAULT_FG⟩, ← converted_append]
  exact hext.filterMap _

theorem converted_start (hexString decString : StringBuffer) :
    (conversions s).mapIdx
      (fun k f => (f, rendered f (args (abi.slot ap k)))) <+:
        converted (after (vprintk ⟨abi, terminated s rest, args⟩ fuel ap
          (.start hexString decString))).calls :=
  converted_vprintk hs abi rest args hfuel ap (.start hexString decString)

omit hfuel in
/-- On a format that is not cut off there are no other conversions. -/
theorem vprintk_returns (hcut : ¬ CutOff s) (hroom : s.length < fuel)
    (st : Console) : ∃ s',
    vprintk ⟨abi, terminated s rest, args⟩ fuel ap st = .ok () s' ∧
      converted s'.calls = converted st.calls ++ (conversions s).mapIdx
        fun k f => (f, rendered f (args (abi.slot ap k))) := by
  obtain ⟨s', hrun, _, hcalls, _⟩ := loop_format
    (c := ⟨abi, terminated s rest, args⟩) rfl hs hcut
    (l := ⟨0, ap, PRINTK_DEFAULT_FG⟩) rfl st
  have hlen := length_scan_le s
  obtain ⟨k, rfl⟩ : ∃ k, fuel = (scan s).1.length + 1 + k :=
    Nat.exists_eq_add_of_le (by omega)
  refine ⟨s', ?_, ?_⟩
  · rw [vprintk, run_bind_ok (loop_mono k hrun)]
    rfl
  · rw [hcalls, converted_append, converted_callsAll]
    rfl

end Format

/-- `panic` prints its prefix with a list of its own, so its message finds
its arguments where that of `vprintk` does. -/
theorem converted_panic {s : List Byte} (hs : ∀ b ∈ s, b ≠ 0) (abi : Abi)
    (rest rest' : ℕ → Byte) (args : ℕ → Word) {fuel : ℕ}
    (hbegin : kernPanic.length < fuel) (hfuel : s.length ≤ fuel)
    (hexString decString : StringBuffer) :
    (conversions s).mapIdx
      (fun k f => (f, rendered f (args (abi.slot 0 k)))) <+:
        converted (after (panic ⟨abi, terminated s rest, args⟩ rest' fuel
          (.start hexString decString))).calls := by
  have hnone : conversions kernPanic = [] := by decide
  obtain ⟨s₁, hrun, hcalls⟩ := vprintk_returns (s := kernPanic) (by decide) abi
    rest' args 0 (by decide) hbegin (.start hexString decString)
  rw [hnone] at hcalls
  have hmsg := converted_vprintk hs abi rest args hfuel 0 s₁
  rw [hcalls] at hmsg
  rw [panic, printk, run_bind_ok hrun, after_bind fun _ _ => rfl]
  exact hmsg

theorem rendered_ne (f : Byte) : rendered f 0x41 ≠ rendered f 0x42 := by
  have hhex : hexNumeral 0x41 ≠ hexNumeral 0x42 := by decide +kernel
  have hdec : decNumeral 0x41 ≠ decNumeral 0x42 := by decide +kernel
  rw [rendered, rendered]
  split
  · decide
  split
  · decide
  split
  · simpa using hhex
  · simpa using hdec

/-- It is enough that the slots are the ones of the arguments. -/
theorem ownArguments_of_slot (abi : Abi) {s : List Byte}
    (hs : ∀ b ∈ s, b ≠ 0)
    (hslot : ∀ ap k, k < (conversions s).length → abi.slot ap k = ap + k) :
    OwnArguments abi s := by
  intro rest args ap hexString decString
  have hown : (conversions s).mapIdx
      (fun k f => (f, rendered f (args (abi.slot ap k)))) =
        (conversions s).mapIdx fun k f => (f, rendered f (args (ap + k))) := by
    refine List.ext_getElem (by simp) fun k hk _ => ?_
    rw [List.length_mapIdx] at hk
    simp only [List.getElem_mapIdx, hslot ap k hk]
  refine ⟨fun fuel hfuel => ?_, fun hcut fuel hroom => ?_⟩
  · rw [← hown]
    exact converted_start hs abi rest args hfuel ap hexString decString
  · obtain ⟨s', hrun, hcalls⟩ := vprintk_returns hs abi rest args ap hcut hroom
      (.start hexString decString)
    exact ⟨s', hrun, hcalls.trans hown⟩

/-- With two conversions and two different arguments, the second conversion
prints the first argument. -/
theorem not_ownArguments_aapcs64 {s : List Byte} (hs : ∀ b ∈ s, b ≠ 0)
    (htwo : 1 < (conversions s).length) : ¬ OwnArguments .aapcs64 s := by
  intro hown
  let args : ℕ → Word := fun i => if i = 0 then 0x41 else 0x42
  have hasked := (hown (fun _ => 0) args 0 (.replicate 80 0)
    (.replicate 80 0)).1 s.length (Nat.le_refl _)
  have hdone := converted_start hs .aapcs64 (fun _ => 0) args (Nat.le_refl _) 0
    (.replicate 80 0) (.replicate 80 0)
  have hbegin := List.prefix_of_prefix_length_le hasked hdone (by simp)
  have hsame := hbegin.eq_of_length (by simp)
  match hconv : conversions s with
  | [] =>
      rw [hconv] at htwo
      simp at htwo
  | [f] =>
      rw [hconv] at htwo
      simp at htwo
  | f :: g :: fs =>
      rw [hconv] at hsame
      simp only [List.mapIdx_cons, List.cons.injEq, Prod.mk.injEq] at hsame
      exact rendered_ne g hsame.2.1.2.symm

/-- Every conversion gets its own argument exactly if the list is shared with
`handle_format` or nobody reads it twice. -/
theorem ownArguments_iff {s : List Byte} (hs : ∀ b ∈ s, b ≠ 0) (abi : Abi) :
    OwnArguments abi s ↔ abi = .sysV ∨ (conversions s).length ≤ 1 := by
  constructor
  · intro hown
    cases abi with
    | sysV => exact Or.inl rfl
    | aapcs64 =>
        refine Or.inr (Nat.not_lt.1 fun htwo => ?_)
        exact not_ownArguments_aapcs64 hs htwo hown
  · intro h
    refine ownArguments_of_slot abi hs fun ap k hk => ?_
    rcases h with rfl | hone
    · rfl
    · obtain rfl : k = 0 := by omega
      exact abi.slot_zero ap

theorem ownArguments_charThenHex :
    OwnArguments .sysV [ascii '%', ascii 'c', ascii '%', ascii 'x'] :=
  (ownArguments_iff (by decide) .sysV).2 (Or.inl rfl)

/-- `printk("%c%c", 'A', 'B')` prints `AA`. -/
theorem not_ownArguments_twoChars :
    ¬ OwnArguments .aapcs64 [ascii '%', ascii 'c', ascii '%', ascii 'c'] ∧
      (after (vprintk ⟨.aapcs64, terminated [ascii '%', ascii 'c', ascii '%',
        ascii 'c'] fun _ => 0, fun i => 0x41 + BitVec.ofNat 64 i⟩ 5 0
        noStrings)).calls.map Putstr.str = [.chars [0x41], .chars [0x41]] :=
  ⟨not_ownArguments_aapcs64 (by decide) (by decide), by decide +kernel⟩

end VegaOS
