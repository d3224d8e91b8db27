import Mathlib.Tactic.Common

/-!
# Programs that keep a log

For code in the state and exception monad whose state carries a log. `Along`
says how the end of every run relates to its start, and composes as the code
does; `Keeps` is the same for code that cannot throw where an invariant
holds. A statement about a whole run often assumes something of every event the
run logs; `Grows` is what lets a proof use that assumption in the middle of the
run: no later step removes an event.
-/

namespace Trace

variable {ε σ α β E : Type}

/-- The state a run ends in, whether it returns or throws. -/
def after : EStateM.Result ε σ α → σ
  | .ok _ s => s
  | .error _ s => s

@[simp] theorem after_ok (a : α) (s : σ) :
    after (.ok a s : EStateM.Result ε σ α) = s := rfl

@[simp] theorem after_error (e : ε) (s : σ) :
    after (.error e s : EStateM.Result ε σ α) = s := rfl

theorem run_bind_ok {x : EStateM ε σ α} {f : α → EStateM ε σ β} {s s' : σ}
    {a : α} (h : x s = .ok a s') : (x >>= f) s = f a s' := by
  show EStateM.bind x f s = _
  rw [EStateM.bind, h]

theorem run_bind_error {x : EStateM ε σ α} {f : α → EStateM ε σ β} {s s' : σ}
    {e : ε} (h : x s = .error e s') : (x >>= f) s = .error e s' := by
  show EStateM.bind x f s = _
  rw [EStateM.bind, h]

/-- Code that ends with a step that leaves the state alone. -/
theorem after_bind {x : EStateM ε σ α} {f : α → EStateM ε σ β}
    (hf : ∀ a s, after (f a s) = s) (s : σ) :
    after ((x >>= f) s) = after (x s) := by
  cases hr : x s with
  | ok a s' => rw [run_bind_ok hr, hf, after_ok]
  | error e s' => rw [run_bind_error hr, after_error, after_error]

section Along

/-- Every run of `x` ends in a state that `R` relates its start to. -/
def Along (R : σ → σ → Prop) (x : EStateM ε σ α) : Prop :=
  ∀ s, R s (after (x s))

variable {R : σ → σ → Prop}

theorem Along.pure (hrefl : ∀ s, R s s) (a : α) :
    Along R (pure a : EStateM ε σ α) :=
  hrefl

theorem Along.throw (hrefl : ∀ s, R s s) (e : ε) :
    Along R (throw e : EStateM ε σ α) :=
  hrefl

theorem Along.bind (htrans : ∀ s t u, R s t → R t u → R s u)
    {x : EStateM ε σ α} {f : α → EStateM ε σ β} (hx : Along R x)
    (hf : ∀ a, Along R (f a)) : Along R (x >>= f) := by
  intro s
  have hmid := hx s
  cases hr : x s with
  | ok a s' =>
      rw [run_bind_ok hr]
      rw [hr] at hmid
      exact htrans _ _ _ hmid (hf a s')
  | error err s' =>
      rw [run_bind_error hr]
      rwa [hr] at hmid

theorem Along.ite {c : Prop} [Decidable c] {x y : EStateM ε σ α}
    (hx : Along R x) (hy : Along R y) : Along R (if c then x else y) := by
  split
  · exact hx
  · exact hy

theorem Along.forM {γ : Type} (hrefl : ∀ s, R s s)
    (htrans : ∀ s t u, R s t → R t u → R s u) {f : γ → EStateM ε σ PUnit}
    {l : List γ} (hf : ∀ c ∈ l, Along R (f c)) : Along R (l.forM f) := by
  induction l with
  | nil => exact hrefl
  | cons c l ih =>
      exact Along.bind htrans (hf c List.mem_cons_self)
        fun _ => ih fun d hd => hf d (List.mem_cons_of_mem c hd)

end Along

section Keeps

/-- From a state that satisfies `I` the code returns, to such a state. -/
def Keeps (I : σ → Prop) (x : EStateM ε σ α) : Prop :=
  ∀ s, I s → ∃ a s', x s = .ok a s' ∧ I s'

variable {I : σ → Prop}

theorem Keeps.pure (a : α) : Keeps I (pure a : EStateM ε σ α) :=
  fun s hs => ⟨a, s, rfl, hs⟩

theorem Keeps.bind {x : EStateM ε σ α} {f : α → EStateM ε σ β}
    (hx : Keeps I x) (hf : ∀ a, Keeps I (f a)) : Keeps I (x >>= f) := by
  intro s hs
  obtain ⟨a, s', hrun, hs'⟩ := hx s hs
  rw [run_bind_ok hrun]
  exact hf a s' hs'

theorem Keeps.ite {c : Prop} [Decidable c] {x y : EStateM ε σ α}
    (hx : Keeps I x) (hy : Keeps I y) : Keeps I (if c then x else y) := by
  split
  · exact hx
  · exact hy

theorem Keeps.modify {f : σ → σ} (hf : ∀ s, I s → I (f s)) :
    Keeps I (modify f : EStateM ε σ PUnit) :=
  fun s hs => ⟨_, f s, rfl, hf s hs⟩

theorem Keeps.forM {γ : Type} {f : γ → EStateM ε σ PUnit} {l : List γ}
    (hf : ∀ c ∈ l, Keeps I (f c)) : Keeps I (l.forM f) := by
  induction l with
  | nil => exact Keeps.pure PUnit.unit
  | cons c l ih =>
      exact Keeps.bind (hf c List.mem_cons_self)
        fun _ => ih fun d hd => hf d (List.mem_cons_of_mem c hd)

end Keeps

/-- No run of `x` loses an event. -/
def Grows (log : σ → List E) (x : EStateM ε σ α) : Prop :=
  Along (fun s s' => ∀ e ∈ log s, e ∈ log s') x

variable {log : σ → List E}

theorem Grows.pure (a : α) : Grows log (pure a : EStateM ε σ α) :=
  Along.pure (fun _ _ he => he) a

theorem Grows.throw (e : ε) : Grows log (throw e : EStateM ε σ α) :=
  Along.throw (fun _ _ he => he) e

theorem Grows.bind {x : EStateM ε σ α} {f : α → EStateM ε σ β}
    (hx : Grows log x) (hf : ∀ a, Grows log (f a)) : Grows log (x >>= f) :=
  Along.bind (fun _ _ _ hst htu e he => htu e (hst e he)) hx hf

theorem Grows.ite {c : Prop} [Decidable c] {x y : EStateM ε σ α}
    (hx : Grows log x) (hy : Grows log y) : Grows log (if c then x else y) :=
  Along.ite hx hy

/-- What holds of every event of a run holds of every event of its first
part. -/
theorem of_after_bind {x : EStateM ε σ α} {f : α → EStateM ε σ β}
    (hf : ∀ a, Grows log (f a)) {P : E → Prop} {s : σ}
    (h : ∀ e ∈ log (after ((x >>= f) s)), P e) :
    ∀ e ∈ log (after (x s)), P e := by
  cases hr : x s with
  | ok a s' =>
      rw [run_bind_ok hr] at h
      exact fun e he => h e (hf a s' e he)
  | error err s' =>
      rw [run_bind_error hr] at h
      exact h

/-- What holds of every event at the end of `x` holds of every event before
it. -/
theorem Grows.of_after {x : EStateM ε σ α} (hx : Grows log x) {P : E → Prop}
    {s : σ} (h : ∀ e ∈ log (after (x s)), P e) : ∀ e ∈ log s, P e :=
  fun e he => h e (hx s e he)

end Trace
