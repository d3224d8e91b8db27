import VegaOS.Lib.Trace
import VegaOS.Src.Fb

/-!
# The framebuffer driver with and without a framebuffer

Every entry point reads through the response of the bootloader. Where there is
one, a call returns and keeps it; where there is none, the first such read is
where the call ends.
-/

namespace VegaOS

open ByteMem Trace

section Some

theorem FRAMEBUFFER_some {v : Video} {fb : Framebuffer}
    (h : v.response = some fb) : FRAMEBUFFER v = .ok fb v := by
  have hget : (get : Fb Video) v = .ok v v := rfl
  rw [FRAMEBUFFER, run_bind_ok hget, h]
  rfl

theorem keeps_FRAMEBUFFER : Keeps (fun v => v.response.isSome) FRAMEBUFFER := by
  intro v hv
  obtain ⟨fb, hfb⟩ := Option.isSome_iff_exists.1 hv
  exact ⟨fb, v, FRAMEBUFFER_some hfb, hv⟩

theorem keeps_fbAssert : Keeps (fun v => v.response.isSome) fbAssert := by
  intro v hv
  have hget : (get : Fb Video) v = .ok v v := rfl
  have hsome : ¬ v.response.isNone = true := by
    rwa [Option.isNone_iff_eq_none, ← ne_eq, ← Option.isSome_iff_ne_none]
  refine ⟨(), v, ?_, hv⟩
  rw [fbAssert, run_bind_ok hget, if_neg hsome]
  rfl

theorem keeps_fbGetWidth : Keeps (fun v => v.response.isSome) fbGetWidth :=
  Keeps.bind keeps_FRAMEBUFFER fun _ => Keeps.pure _

theorem keeps_fbGetHeight : Keeps (fun v => v.response.isSome) fbGetHeight :=
  Keeps.bind keeps_FRAMEBUFFER fun _ => Keeps.pure _

theorem keeps_getIndex (x y : BitVec 32) :
    Keeps (fun v => v.response.isSome) (getIndex x y) := by
  refine Keeps.bind keeps_fbAssert fun _ => ?_
  exact Keeps.bind keeps_FRAMEBUFFER fun _ => Keeps.pure _

theorem keeps_fbPutpix (x y color : BitVec 32) :
    Keeps (fun v => v.response.isSome) (fbPutpix x y color) := by
  refine Keeps.bind keeps_fbGetWidth fun w => Keeps.ite (Keeps.pure _) ?_
  refine Keeps.bind keeps_fbGetHeight fun h => Keeps.ite (Keeps.pure _) ?_
  refine Keeps.bind keeps_FRAMEBUFFER fun fb => ?_
  refine Keeps.bind (keeps_getIndex x y) fun i => ?_
  exact Keeps.bind (Keeps.modify fun _ hv => hv) fun _ => Keeps.pure _

end Some

section None

variable {v : Video} (h : v.response = none)

include h

theorem FRAMEBUFFER_none : FRAMEBUFFER v = .error .nullDeref v := by
  have hget : (get : Fb Video) v = .ok v v := rfl
  rw [FRAMEBUFFER, run_bind_ok hget, h]
  rfl

theorem fbGetWidth_none : fbGetWidth v = .error .nullDeref v :=
  run_bind_error (FRAMEBUFFER_none h)

theorem fbGetHeight_none : fbGetHeight v = .error .nullDeref v :=
  run_bind_error (FRAMEBUFFER_none h)

/-- The bounds check comes before `get_index` and its assertion. -/
theorem fbPutpix_none (x y color : BitVec 32) :
    fbPutpix x y color v = .error .nullDeref v :=
  run_bind_error (fbGetWidth_none h)

theorem fbClear_none (fuel : ℕ) (color : BitVec 32) :
    fbClear (fuel + 1) color v = .error .nullDeref v :=
  run_bind_error (fbGetHeight_none h)

end None

end VegaOS
