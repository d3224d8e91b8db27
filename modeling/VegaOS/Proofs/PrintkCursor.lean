import VegaOS.Proofs.PrintkPieces

/-!
# How far the format is read

The loop of `vprintk` looks for the terminator only where a piece starts. If
the pieces of a format end with its last byte, the next piece starts at the
terminator and the loop stops there. If the terminator completes a piece, the
loop goes on behind it, and tests the byte after it.
-/

namespace VegaOS

open ByteMem Trace

/-- A console that has not been used. -/
def Console.start (hexString decString : StringBuffer) : Console :=
  ⟨hexString, decString, [], []⟩

/-- The loop of `vprintk` stops at the terminator of `s`, and no byte after it
has been read. -/
def StopsAtNul (abi : Abi) (s : List Byte) (rest : ℕ → Byte) (args : ℕ → Word)
    (ap : ℕ) (start : Console) : Prop :=
  ∃ fuel l s', vprintkLoop ⟨abi, terminated s rest, args⟩ fuel
      ⟨0, ap, PRINTK_DEFAULT_FG⟩ start = .ok l s' ∧
    l.fmt = s.length ∧ ∀ i ∈ s'.reads, i ≤ s.length

section Format

variable {c : Caller} {s : List Byte} {rest : ℕ → Byte}

/-- The loop on a format that is not cut off. -/
theorem loop_format (hfmt : c.fmt = terminated s rest)
    (hs : ∀ b ∈ s, b ≠ 0) (hcut : ¬ CutOff s) {l : Locals} (hl : l.fmt = 0)
    (st : Console) : ∃ s', vprintkLoop c ((scan s).1.length + 1) l st =
        .ok (stepAll c.abi l (scan s).1) s' ∧
      (stepAll c.abi l (scan s).1).fmt = s.length ∧
      s'.calls = st.calls ++ callsAll c.abi c.args l (scan s).1 ∧
      ∀ i ∈ s'.reads, i ∈ st.reads ∨ i ≤ s.length := by
  have hnone : (scan s).2 = none := Option.not_isSome_iff_eq_none.1 hcut
  have hbytes := scan_bytes s
  rw [hnone] at hbytes
  have hflat : (scan s).1.flatMap Piece.bytes = s :=
    (List.append_cancel_right hbytes).symm
  have hreads : ReadsAt c.fmt l.fmt (s ++ [0]) := by
    rw [hfmt, hl]
    exact readsAt_terminated s rest
  rw [readsAt_append, hl, Nat.zero_add] at hreads
  have hend : (stepAll c.abi l (scan s).1).fmt = s.length := by
    rw [stepAll_fmt, hflat, hl, Nat.zero_add]
  obtain ⟨s₁, hrun, hcalls, hbound⟩ := loop_pieces (scan s).1 st
    (pieces_ok hs) (by rw [hflat, hl]; exact hreads.1)
  rw [hend] at hbound
  refine ⟨s₁.read s.length, ?_, hend, hcalls, fun i hi => ?_⟩
  · rw [hrun, loop_nul (by rw [hend]; exact hreads.2.1), hend]
  · rcases Console.mem_read.1 hi with hold | rfl
    · exact (hbound i hold).imp_right Nat.le_of_lt
    · exact Or.inr (Nat.le_refl _)

/-- On a format that is cut off, a loop that returns has read past the
terminator. -/
theorem reads_past_nul (hfmt : c.fmt = terminated s rest)
    (hs : ∀ b ∈ s, b ≠ 0) (hcut : CutOff s) {l l' : Locals} (hl : l.fmt = 0)
    {st s' : Console} {fuel : ℕ} (hrun : vprintkLoop c fuel l st = .ok l' s') :
    s.length + 1 ∈ s'.reads := by
  obtain ⟨p, hp⟩ := Option.isSome_iff_exists.1 hcut
  have hbytes := scan_bytes s
  rw [hp, ending] at hbytes
  have hflat : ((scan s).1 ++ [p]).flatMap Piece.bytes = s ++ [0] := by
    rw [List.flatMap_append, List.flatMap_singleton, hbytes]
  have hok := scan_ok hs
  rw [hp, Option.toList_some] at hok
  have hreads : ReadsAt c.fmt l.fmt (s ++ [0]) := by
    rw [hfmt, hl]
    exact readsAt_terminated s rest
  obtain ⟨s₁, htake, _, _⟩ := loop_pieces ((scan s).1 ++ [p]) st hok
    (by rwa [hflat])
  have hend : (stepAll c.abi l ((scan s).1 ++ [p])).fmt = s.length + 1 := by
    rw [stepAll_fmt, hflat, hl, List.length_append, Nat.zero_add]
    rfl
  -- more fuel, so that the loop gets to the piece after the last
  have hmore := loop_mono (((scan s).1 ++ [p]).length + 1) hrun
  rw [Nat.add_left_comm, htake] at hmore
  have hvisit := loop_reads c fuel (stepAll c.abi l ((scan s).1 ++ [p])) s₁
  rwa [hmore, hend] at hvisit

theorem stopsAtNul_of_not_cutOff (hs : ∀ b ∈ s, b ≠ 0) (hcut : ¬ CutOff s)
    (abi : Abi) (args : ℕ → Word) (ap : ℕ)
    (hexString decString : StringBuffer) :
    StopsAtNul abi s rest args ap (.start hexString decString) := by
  obtain ⟨s', hrun, hend, _, hbound⟩ := loop_format
    (c := ⟨abi, terminated s rest, args⟩) rfl hs hcut
    (l := ⟨0, ap, PRINTK_DEFAULT_FG⟩) rfl (.start hexString decString)
  refine ⟨_, _, s', hrun, hend, fun i hi => ?_⟩
  exact (hbound i hi).resolve_left List.not_mem_nil

theorem not_stopsAtNul_of_cutOff (hs : ∀ b ∈ s, b ≠ 0) (hcut : CutOff s)
    (abi : Abi) (args : ℕ → Word) (ap : ℕ) (st : Console) :
    ¬ StopsAtNul abi s rest args ap st := by
  rintro ⟨fuel, l, s', hrun, _, hbound⟩
  have hpast := reads_past_nul (c := ⟨abi, terminated s rest, args⟩) rfl hs
    hcut rfl hrun
  exact absurd (hbound _ hpast) (Nat.not_succ_le_self _)

end Format

/-- The loop stays within a format exactly if the terminator does not complete
a piece. -/
theorem stopsAtNul_iff {s : List Byte} (hs : ∀ b ∈ s, b ≠ 0) (abi : Abi)
    (rest : ℕ → Byte) (args : ℕ → Word) (ap : ℕ)
    (hexString decString : StringBuffer) :
    StopsAtNul abi s rest args ap (.start hexString decString) ↔ ¬ CutOff s :=
  ⟨fun hstop hcut => not_stopsAtNul_of_cutOff hs hcut abi args ap _ hstop,
    fun hcut => stopsAtNul_of_not_cutOff hs hcut abi args ap _ _⟩

/-- Buffers that hold nothing. -/
def noStrings : Console := .start (.replicate 80 0) (.replicate 80 0)

theorem stopsAtNul_kernPanic :
    StopsAtNul .sysV kernPanic (fun _ => 0) (fun _ => 0) 0 noStrings :=
  (stopsAtNul_iff (by decide) .sysV _ _ 0 _ _).2 (by decide)

theorem not_stopsAtNul_percent :
    ¬ StopsAtNul .sysV [ascii '%'] (fun _ => 0) (fun _ => 0) 0 noStrings :=
  not_stopsAtNul_of_cutOff (by decide) (by decide) .sysV _ 0 _

end VegaOS
