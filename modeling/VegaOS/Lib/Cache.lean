import Mathlib.Data.Set.Defs
import Mathlib.Tactic.Common
import VegaOS.Lib.Runs

/-!
# A cache in front of a table

A table gives a key at most one value, and operations change it. It is looked
at through a cache: a look may be answered by the table or by what the cache
holds, and it may leave in the cache whatever the table has at the time. The
cache may forget entries, and it must where an operation flushes them.

An operation is asked to leave a value, or none, at its key. The value it finds
there, if it is another, is replaced: a look that is answered with it from then
on is stale, until some operation puts it back in the table. `replaced` keeps a
record of such values. An operation makes no look stale exactly if the table
does not keep the value that it is to replace, and neither does the cache.
-/

namespace Cache

variable {σ K V O : Type*}

structure System (σ K V O : Type*) where
  current : σ → K → Option V
  exec : σ → O → σ → Prop
  key : O → K
  /-- what an operation is asked to leave at its key -/
  wanted : O → Option V
  /-- the keys flushed on the way from one state to another -/
  Flushes : σ → σ → K → Prop

structure State (σ K V : Type*) where
  store : σ
  held : Set (K × V)
  replaced : Set (K × V)

inductive Action (K V O : Type*)
  | look (k : K) (answer : Option V)
  | op (o : O)

namespace System

variable (S : System σ K V O)

/-- What a look at a key may be answered with. -/
def Serves (s : State σ K V) (k : K) (answer : Option V) : Prop :=
  answer = S.current s.store k ∨ ∃ v, (k, v) ∈ s.held ∧ answer = some v

/-- The entry is the one that an operation is asked to put an end to. -/
def Replaces (s : σ) (o : O) (e : K × V) : Prop :=
  e.1 = S.key o ∧ S.current s e.1 = some e.2 ∧ S.wanted o ≠ some e.2

/-- The entry is put back in the table. -/
def Restores (s t : σ) (e : K × V) : Prop :=
  S.current s e.1 ≠ some e.2 ∧ S.current t e.1 = some e.2

def step (s : State σ K V) : Action K V O → State σ K V → Prop
  | .look k answer, t =>
      S.Serves s k answer ∧ t.store = s.store ∧ t.replaced = s.replaced ∧
        ∀ e ∈ t.held, e ∈ s.held ∨ S.current s.store e.1 = some e.2
  | .op o, t =>
      S.exec s.store o t.store ∧
        t.held = {e ∈ s.held | ¬ S.Flushes s.store t.store e.1} ∧
        t.replaced = {e | e ∈ s.replaced ∧ ¬ S.Restores s.store t.store e ∨
          S.Replaces s.store o e}

/-- No look is answered with a value that has been replaced. -/
def NoStale (s : State σ K V) : Prop :=
  ∀ k v, S.Serves s k (some v) → (k, v) ∉ s.replaced

variable {S} {s t : State σ K V}

theorem serves_current {k : K} {v : V} (h : S.current s.store k = some v) :
    S.Serves s k (some v) :=
  Or.inl h.symm

theorem serves_held {k : K} {v : V} (h : (k, v) ∈ s.held) :
    S.Serves s k (some v) :=
  Or.inr ⟨v, h, rfl⟩

theorem serves_some_iff {k : K} {v : V} :
    S.Serves s k (some v) ↔
      S.current s.store k = some v ∨ (k, v) ∈ s.held := by
  constructor
  · rintro (hcur | ⟨w, hheld, hw⟩)
    · exact Or.inl hcur.symm
    · obtain rfl : v = w := Option.some.inj hw
      exact Or.inr hheld
  · exact fun h => h.elim serves_current serves_held

theorem noStale_of_new (h : s.replaced = ∅) : S.NoStale s := by
  intro k v _ hrep
  rw [h] at hrep
  exact hrep

/-- A look makes none stale. -/
theorem noStale_look {k : K} {answer : Option V} (hs : S.NoStale s)
    (h : S.step s (.look k answer) t) : S.NoStale t := by
  obtain ⟨_, hstore, hreplaced, hheld⟩ := h
  intro k v hserves
  rw [hreplaced]
  apply hs k v
  rcases serves_some_iff.1 hserves with hcur | ht
  · rw [hstore] at hcur
    exact serves_current hcur
  · exact (hheld _ ht).elim serves_held serves_current

/-- What an operation replaces must be gone from the table and the cache. -/
theorem noStale_op_iff {o : O} (hs : S.NoStale s) (h : S.step s (.op o) t) :
    S.NoStale t ↔ ∀ v, S.Replaces s.store o (S.key o, v) →
      S.current t.store (S.key o) ≠ some v ∧
        ((S.key o, v) ∈ s.held →
          S.Flushes s.store t.store (S.key o)) := by
  obtain ⟨_, hheld, hreplaced⟩ := h
  constructor
  · intro hall v hv
    have hrep : (S.key o, v) ∈ t.replaced := by
      rw [hreplaced]
      exact Or.inr hv
    refine ⟨fun hcur => hall _ v (serves_current hcur) hrep, fun hold => ?_⟩
    by_contra hkept
    refine hall _ v (serves_held ?_) hrep
    rw [hheld]
    exact ⟨hold, hkept⟩
  · intro hgone k v hserves hrep
    have hserves' := serves_some_iff.1 hserves
    rw [hheld] at hserves'
    rw [hreplaced] at hrep
    rcases hrep with ⟨hold, hback⟩ | hnew
    · -- it was served before already
      refine hs k v (serves_some_iff.2 ?_) hold
      rcases hserves' with hcur | ht
      · exact Or.inl (by_contra fun hne => hback ⟨hne, hcur⟩)
      · exact Or.inr ht.1
    · obtain rfl : k = S.key o := hnew.1
      obtain ⟨hcur, hflush⟩ := hgone v hnew
      exact hserves'.elim hcur fun ht => ht.2 (hflush ht.1)

end System

end Cache
