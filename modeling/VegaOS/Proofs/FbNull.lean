import VegaOS.Proofs.Fb
import VegaOS.Proofs.PrintkCursor
import VegaOS.Src.Pty

/-!
# Without a framebuffer

`fb_assert` halts the kernel when the bootloader has reported no framebuffer,
but `get_index` is the only function that calls it, and by then `fb_putpix`
has asked for the width and the height. So no call gets to the assertion: the
first thing any of them does with the screen is to read through the response.

`printk` is followed through the calls of `pty_putstr` it makes, one after
another; a string that only moves the cursor touches no pixel and returns.
-/

namespace VegaOS

open ByteMem Trace

/-- A byte `pty_putstr` draws. -/
def Drawn (b : Byte) : Prop := b ≠ 0 ∧ b ≠ ascii '\n'

instance (b : Byte) : Decidable (Drawn b) :=
  inferInstanceAs (Decidable (_ ∧ _))

/-- The string has a byte that is drawn. -/
def Draws (str : ℕ → Byte) : Prop :=
  ∃ k, Drawn (str k) ∧ ∀ i, i < k → str i ≠ 0

/-- A call into the video code. -/
inductive VideoCall
  | fbPutpix (x y color : BitVec 32)
  | fbClear (color : BitVec 32)
  | fbGetWidth
  | fbGetHeight
  | ptyPutstr (str : ℕ → Byte) (color : BitVec 32)
  /-- `printk`, as far as it gets in `rounds` rounds of its loop, with the
  strings for `%s` in `mem` -/
  | printk (c : Caller) (rounds : ℕ) (mem : Mem)
      (hexString decString : StringBuffer)

/-- The calls of `pty_putstr` a `printk` makes. -/
def printkCalls (c : Caller) (rounds : ℕ) (hexString decString : StringBuffer) :
    List Putstr :=
  (after (printk c rounds (.start hexString decString))).calls

namespace VideoCall

def run (t : Target) (fuel : ℕ) : VideoCall → Tty Unit
  | fbPutpix x y color => do
      let _ ← onVideo (VegaOS.fbPutpix x y color)
  | fbClear color => onVideo (VegaOS.fbClear fuel color)
  | fbGetWidth => do
      let _ ← onVideo VegaOS.fbGetWidth
  | fbGetHeight => do
      let _ ← onVideo VegaOS.fbGetHeight
  | ptyPutstr str color => Pty.ptyPutstr t fuel str color
  | printk c rounds mem hexString decString =>
      deliver t fuel mem (printkCalls c rounds hexString decString)

/-- A call that has to do with pixels: for a string or a message, one with a
byte that is drawn, which no string without an end keeps from its turn. -/
def TouchesScreen : VideoCall → Prop
  | ptyPutstr str _ => Draws str
  | printk c rounds mem hexString decString =>
      ∃ pre call post,
        printkCalls c rounds hexString decString = pre ++ call :: post ∧
          Draws (call.str.bytes mem) ∧
          ∀ p ∈ pre, ∃ k, p.str.bytes mem k = 0
  | _ => True

/-- Without a framebuffer every run ends in `halt()`, on fuel enough. -/
def HaltsFirst (call : VideoCall) : Prop :=
  ∀ (t : Target) (st : Pty), st.video.response = none →
    ∃ N, ∀ fuel, N ≤ fuel → ∃ st', call.run t fuel st = .error .halted st'

/-- Without a framebuffer every run ends in a read through `NULL`. -/
def DerefsNull (call : VideoCall) : Prop :=
  ∀ (t : Target) (st : Pty), st.video.response = none →
    ∃ N, ∀ fuel, N ≤ fuel → ∃ st', call.run t fuel st = .error .nullDeref st'

end VideoCall

/-! ## The terminal -/

section None

variable {t : Target}

def NoFb (st : Pty) : Prop := st.video.response = none

theorem onVideo_error {α : Type} {x : Fb α} {e : Trap} {st : Pty}
    (h : x st.video = .error e st.video) :
    (onVideo x : Tty α) st = .error e st := by
  rw [onVideo, h]

namespace Pty

theorem drawDot_none {st : Pty} (h : NoFb st) (x y : BitVec 32) (c : Byte)
    (fg bg : BitVec 32) (cx cy : ℕ) :
    ∃ st', drawDot t x y c fg bg cx cy st = .error .nullDeref st' := by
  let st' : Pty :=
    { st with fontReads := st.fontReads ++ [fontIndex t.abi c cx] }
  have hread : fontData t (fontIndex t.abi c cx) st = .ok _ st' := rfl
  have hpix := fun color => @onVideo_error _ _ _ st'
    (fbPutpix_none h (x + BitVec.ofNat 32 cx) (y + BitVec.ofNat 32 cy) color)
  refine ⟨st', ?_⟩
  rw [drawDot, run_bind_ok hread]
  exact run_bind_error (hpix _)

theorem drawChar_none {st : Pty} (h : NoFb st) (c : Byte) (color : BitVec 32) :
    ∃ st', drawChar t c color st = .error .nullDeref st' := by
  have hget : (get : Tty Pty) st = .ok st st := rfl
  obtain ⟨st', hdot⟩ := drawDot_none (t := t) h st.cursorX st.cursorY (c - 32)
    color 0 0 0
  have hputch : ptyPutch t st.cursorX st.cursorY c color 0 st =
      .error .nullDeref st' := run_bind_error (run_bind_error hdot)
  refine ⟨st', ?_⟩
  rw [drawChar, run_bind_ok hget]
  exact run_bind_error hputch

theorem keeps_newline_none : Keeps NoFb newline := Keeps.modify fun _ hs => hs

/-- A string with a byte that is drawn gets to its first such byte. -/
theorem loop_drawn {str : ℕ → Byte} {color : BitVec 32} {k : ℕ} :
    ∀ {i fuel : ℕ} {st : Pty}, NoFb st → k < fuel → Drawn (str (i + k)) →
      (∀ j, j < k → str (i + j) ≠ 0) →
      ∃ st', ptyPutstr.loop t str color fuel i st = .error .nullDeref st' := by
  induction k with
  | zero =>
      intro i fuel st hst hfuel hdrawn _
      rw [Nat.add_zero] at hdrawn
      obtain ⟨n, rfl⟩ := Nat.exists_eq_add_of_lt hfuel
      obtain ⟨st', hrun⟩ := drawChar_none (t := t) hst (str i) color
      refine ⟨st', ?_⟩
      rw [Nat.zero_add, ptyPutstr.loop, if_neg hdrawn.1, if_neg hdrawn.2]
      exact run_bind_error hrun
  | succ k ih =>
      intro i fuel st hst hfuel hdrawn hpre
      obtain ⟨n, rfl⟩ : ∃ n, fuel = n + 1 := ⟨fuel - 1, by omega⟩
      have hfirst : str i ≠ 0 := hpre 0 (Nat.succ_pos k)
      rw [ptyPutstr.loop, if_neg hfirst]
      split
      · obtain ⟨a, st', hrun, hst'⟩ := keeps_newline_none st hst
        rw [run_bind_ok hrun]
        refine ih hst' (by omega) ?_ fun j hj => ?_
        · rwa [Nat.add_assoc, Nat.add_comm 1]
        · rw [Nat.add_assoc, Nat.add_comm 1]
          exact hpre (j + 1) (by omega)
      · obtain ⟨st', hrun⟩ := drawChar_none (t := t) hst (str i) color
        exact ⟨st', run_bind_error hrun⟩

/-- Any other string returns. -/
theorem loop_newlines {str : ℕ → Byte} {color : BitVec 32} {k : ℕ} :
    ∀ {i fuel : ℕ} {st : Pty}, NoFb st → k < fuel → str (i + k) = 0 →
      (∀ j, j < k → ¬ Drawn (str (i + j))) →
      ∃ st', ptyPutstr.loop t str color fuel i st = .ok () st' ∧
        NoFb st' := by
  induction k with
  | zero =>
      intro i fuel st hst hfuel hnul _
      rw [Nat.add_zero] at hnul
      obtain ⟨n, rfl⟩ := Nat.exists_eq_add_of_lt hfuel
      refine ⟨st, ?_, hst⟩
      rw [Nat.zero_add, ptyPutstr.loop, if_pos hnul]
      rfl
  | succ k ih =>
      intro i fuel st hst hfuel hnul hpre
      obtain ⟨n, rfl⟩ : ∃ n, fuel = n + 1 := ⟨fuel - 1, by omega⟩
      have hfirst : ¬ Drawn (str i) := hpre 0 (Nat.succ_pos k)
      rw [ptyPutstr.loop]
      by_cases hzero : str i = 0
      · rw [if_pos hzero]
        exact ⟨st, rfl, hst⟩
      · have hnl : str i = ascii '\n' := by
          by_contra hnl
          exact hfirst ⟨hzero, hnl⟩
        obtain ⟨a, st', hrun, hst'⟩ := keeps_newline_none st hst
        rw [if_neg hzero, if_pos hnl, run_bind_ok hrun]
        refine ih hst' (by omega) ?_ fun j hj => ?_
        · rwa [Nat.add_assoc, Nat.add_comm 1]
        · rw [Nat.add_assoc, Nat.add_comm 1]
          exact hpre (j + 1) (by omega)

/-- A string with an end is drawn from, or does nothing. -/
theorem putstr_terminated {str : ℕ → Byte} (h : ∃ k, str k = 0) :
    Draws str ∨ ∃ N, ∀ fuel, N ≤ fuel → ∀ color st, NoFb st →
      ∃ st', ptyPutstr t fuel str color st = .ok () st' ∧ NoFb st' := by
  classical
  by_cases hdraw : Draws str
  · exact Or.inl hdraw
  · refine Or.inr ⟨Nat.find h + 1, fun fuel hfuel color st hst => ?_⟩
    refine loop_newlines (k := Nat.find h) hst hfuel ?_ fun j hj hdrawn => ?_
    · rw [Nat.zero_add]
      exact Nat.find_spec h
    · rw [Nat.zero_add] at hdrawn
      exact hdraw ⟨j, hdrawn, fun i hi => Nat.find_min h (by omega)⟩

theorem putstr_draws {str : ℕ → Byte} (h : Draws str) :
    ∃ N, ∀ fuel, N ≤ fuel → ∀ color st, NoFb st →
      ∃ st', ptyPutstr t fuel str color st = .error .nullDeref st' := by
  obtain ⟨k, hdrawn, hpre⟩ := h
  refine ⟨k + 1, fun fuel hfuel color st hst => ?_⟩
  refine loop_drawn (k := k) hst hfuel ?_ fun j hj => ?_
  · rwa [Nat.zero_add]
  · rw [Nat.zero_add]
    exact hpre j hj

end Pty

/-- Calls one after another: the first that draws is where it ends. -/
theorem deliver_draws {mem : Mem} {call : Putstr} (post : List Putstr)
    (hcall : Draws (call.str.bytes mem)) {pre : List Putstr}
    (hpre : ∀ p ∈ pre, ∃ k, p.str.bytes mem k = 0) :
    ∃ N, ∀ fuel, N ≤ fuel → ∀ st, NoFb st →
      ∃ st', deliver t fuel mem (pre ++ call :: post) st =
        .error .nullDeref st' := by
  induction pre with
  | nil =>
      obtain ⟨N, hN⟩ := Pty.putstr_draws (t := t) hcall
      refine ⟨N, fun fuel hfuel st hst => ?_⟩
      obtain ⟨st', hrun⟩ := hN fuel hfuel call.color st hst
      exact ⟨st', run_bind_error hrun⟩
  | cons p pre ih =>
      obtain ⟨N, hN⟩ := ih fun q hq => hpre q (List.mem_cons_of_mem p hq)
      rcases Pty.putstr_terminated (t := t) (hpre p List.mem_cons_self) with
        hdraw | ⟨M, hM⟩
      · obtain ⟨M, hM⟩ := Pty.putstr_draws (t := t) hdraw
        refine ⟨M, fun fuel hfuel st hst => ?_⟩
        obtain ⟨st', hrun⟩ := hM fuel hfuel p.color st hst
        exact ⟨st', run_bind_error hrun⟩
      · refine ⟨max M N, fun fuel hfuel st hst => ?_⟩
        obtain ⟨st₁, hrun, hst₁⟩ := hM fuel (by omega) p.color st hst
        obtain ⟨st', hrest⟩ := hN fuel (by omega) st₁ hst₁
        exact ⟨st', (run_bind_ok hrun).trans hrest⟩

end None

/-! ## All calls -/

namespace VideoCall

theorem derefsNull {call : VideoCall} (h : call.TouchesScreen) :
    call.DerefsNull := by
  intro t st hst
  cases call with
  | fbPutpix x y color =>
      exact ⟨0, fun fuel _ =>
        ⟨st, run_bind_error (onVideo_error (fbPutpix_none hst x y color))⟩⟩
  | fbClear color =>
      refine ⟨1, fun fuel hfuel => ⟨st, ?_⟩⟩
      obtain ⟨n, rfl⟩ : ∃ n, fuel = n + 1 := ⟨fuel - 1, by omega⟩
      exact onVideo_error (fbClear_none hst n color)
  | fbGetWidth =>
      exact ⟨0, fun fuel _ =>
        ⟨st, run_bind_error (onVideo_error (fbGetWidth_none hst))⟩⟩
  | fbGetHeight =>
      exact ⟨0, fun fuel _ =>
        ⟨st, run_bind_error (onVideo_error (fbGetHeight_none hst))⟩⟩
  | ptyPutstr str color =>
      obtain ⟨N, hN⟩ := Pty.putstr_draws (t := t) h
      exact ⟨N, fun fuel hfuel => hN fuel hfuel color st hst⟩
  | printk c rounds mem hexString decString =>
      obtain ⟨pre, call, post, hcalls, hcall, hpre⟩ := h
      obtain ⟨N, hN⟩ := deliver_draws (t := t) post hcall hpre
      refine ⟨N, fun fuel hfuel => ?_⟩
      rw [run, hcalls]
      exact hN fuel hfuel st hst

/-- What ends in a read through `NULL` does not end in the assertion. -/
theorem DerefsNull.not_haltsFirst {call : VideoCall} (h : call.DerefsNull) :
    ¬ call.HaltsFirst := by
  intro hhalt
  let t : Target := ⟨.sysV, fun _ => 0⟩
  let st : Pty := ⟨⟨none, fun _ => 0⟩, 0, 0, []⟩
  obtain ⟨M, hM⟩ := h t st rfl
  obtain ⟨N, hN⟩ := hhalt t st rfl
  obtain ⟨st₁, hrun⟩ := hM (max M N) (by omega)
  obtain ⟨st₂, hrun'⟩ := hN (max M N) (by omega)
  rw [hrun] at hrun'
  simp at hrun'

/-- Whatever is called, and with whatever arguments: without a framebuffer the
run does not get to the assertion, it ends in a read through `NULL`. -/
theorem never_haltsFirst (call : VideoCall) (h : call.TouchesScreen) :
    ¬ call.HaltsFirst ∧ call.DerefsNull :=
  ⟨(derefsNull h).not_haltsFirst, derefsNull h⟩

/-- `pty_putstr("A", 0)`. -/
theorem never_haltsFirst_letter :
    ¬ (ptyPutstr (terminated [ascii 'A'] fun _ => 0) 0).HaltsFirst := by
  have hdraws : Draws (terminated [ascii 'A'] fun _ => 0) :=
    ⟨0, by decide, fun i hi => absurd hi (Nat.not_lt_zero i)⟩
  exact (never_haltsFirst (ptyPutstr _ 0) hdraws).1

/-- `fb_putpix(0, 0, 0)`. -/
theorem not_haltsFirst_putpix : ¬ (fbPutpix 0 0 0).HaltsFirst := by
  have htouches : (fbPutpix 0 0 0).TouchesScreen := trivial
  exact (derefsNull htouches).not_haltsFirst

end VideoCall

end VegaOS
