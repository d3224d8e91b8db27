import Mathlib.Data.List.Induction
import Mathlib.Tactic.Common

/-!
# Radix trees whose tables live in a store

A multi-level table is a store of tables: which entry each frame holds in each
slot. An entry may link another frame; a walk from a root along a list of
indices follows the links. Nothing forces such a store to be a tree: frames
are names, and two slots may link the same one, or a table may link itself.

`IsTree` is the shape that makes a store behave like a finite map: up to a
given depth, no frame is reached along two different paths. Two updates are
enough to maintain it. Writing a slot of a bottom-level table changes no walk.
Linking a fresh, empty frame into a free slot adds exactly one walk and
changes no other. Both are stated against any new store that agrees with the
old one on the slots of the tables in use, so whatever happens to unused
frames is nobody's business. A tree that loses entries is a tree still
(`Thins`).

`lookup` is the map such a store stands for where an entry above the bottom
may hold a value as well, for all the paths below it. The same two updates
change what it finds along one path, or along the paths through the link.
-/

namespace Radix

variable {R F I E : Type*} {next : E → Option F} {S S' : F → I → E}
  {root : R → F} {depth : ℕ}

/-- The frame reached from `t` along the indices `p`. -/
def walk (next : E → Option F) (S : F → I → E) (t : F) (p : List I) :
    Option F :=
  p.foldlM (fun t i => next (S t i)) t

@[simp] theorem walk_nil {t : F} : walk next S t [] = some t := rfl

theorem walk_cons {t : F} {i : I} {p : List I} :
    walk next S t (i :: p) = (next (S t i)).bind fun u => walk next S u p := by
  rw [walk, List.foldlM_cons]
  rfl

theorem walk_snoc {t : F} {i : I} {p : List I} :
    walk next S t (p ++ [i]) =
      (walk next S t p).bind fun u => next (S u i) := by
  simp only [walk, List.foldlM_append, List.foldlM_cons, List.foldlM_nil]
  cases List.foldlM (fun t i => next (S t i)) t p <;> simp

/-- A path below a missing table leads nowhere. -/
theorem walk_append_of_none {t : F} {p : List I} (q : List I)
    (h : walk next S t p = none) : walk next S t (p ++ q) = none := by
  rw [walk, List.foldlM_append]
  show (walk next S t p).bind _ = none
  rw [h, Option.bind_none]

/-- A path that leads nowhere has a first entry that links nothing. -/
theorem exists_missing {t : F} {p : List I} (h : walk next S t p = none) :
    ∃ q i rest u, p = q ++ i :: rest ∧ walk next S t q = some u ∧
      next (S u i) = none := by
  induction p generalizing t with
  | nil => cases h
  | cons i p ih =>
      rw [walk_cons] at h
      cases hentry : next (S t i) with
      | none => exact ⟨[], i, p, t, rfl, rfl, hentry⟩
      | some v =>
          rw [hentry] at h
          obtain ⟨q, j, rest, u, rfl, hq, hj⟩ := ih h
          refine ⟨i :: q, j, rest, u, rfl, ?_, hj⟩
          rw [walk_cons, hentry]
          exact hq

/-- Every prefix of a path that exists, exists. -/
theorem exists_walk_of_snoc {t u : F} {i : I} {p : List I}
    (h : walk next S t (p ++ [i]) = some u) :
    ∃ v, walk next S t p = some v ∧ next (S v i) = some u := by
  rw [walk_snoc] at h
  exact Option.bind_eq_some_iff.mp h

/-- The frames in use: those some root reaches within `depth` links. -/
def Reachable (next : E → Option F) (S : F → I → E) (root : R → F)
    (depth : ℕ) (t : F) : Prop :=
  ∃ r p, p.length ≤ depth ∧ walk next S (root r) p = some t

/-- No frame in use is reached along two paths. -/
def IsTree (next : E → Option F) (S : F → I → E) (root : R → F)
    (depth : ℕ) : Prop :=
  ∀ r p r' p' t, p.length ≤ depth → p'.length ≤ depth →
    walk next S (root r) p = some t → walk next S (root r') p' = some t →
    r = r' ∧ p = p'

/-- `S'` keeps every slot of every frame in use, except perhaps slot `i` of
frame `t`. -/
def AgreesOff (next : E → Option F) (S S' : F → I → E) (root : R → F)
    (depth : ℕ) (t : F) (i : I) : Prop :=
  ∀ u j, Reachable next S root depth u → ¬ (u = t ∧ j = i) → S' u j = S u j

/-- Stores that agree on the frames in use have the same walks. -/
theorem walk_congr (hsame : ∀ u j, Reachable next S root depth u →
      S' u j = S u j) (r : R) (q : List I) (hq : q.length ≤ depth) :
    walk next S' (root r) q = walk next S (root r) q := by
  induction q using List.reverseRecOn with
  | nil => rfl
  | append_singleton q j ih =>
      rw [List.length_append, List.length_singleton] at hq
      rw [walk_snoc, walk_snoc, ih (by omega)]
      cases hu : walk next S (root r) q with
      | none => rfl
      | some u =>
          simp only [Option.bind_some]
          rw [hsame u j ⟨r, q, by omega, hu⟩]

/-! ## Writing a bottom-level slot -/

theorem walk_write_bottom (htree : IsTree next S root depth) {r : R}
    {p : List I} {t : F} {i : I} (hp : p.length = depth)
    (ht : walk next S (root r) p = some t)
    (hoff : AgreesOff next S S' root depth t i) (r' : R) (q : List I)
    (hq : q.length ≤ depth) :
    walk next S' (root r') q = walk next S (root r') q := by
  induction q using List.reverseRecOn with
  | nil => rfl
  | append_singleton q j ih =>
      rw [List.length_append, List.length_singleton] at hq
      rw [walk_snoc, walk_snoc, ih (by omega)]
      cases hu : walk next S (root r') q with
      | none => rfl
      | some u =>
          -- `u` is above the bottom, so it is not the table written to
          have hne : ¬ (u = t ∧ j = i) := by
            rintro ⟨rfl, -⟩
            have hpath := (htree r p r' q u (by omega) (by omega) ht hu).2
            rw [hpath] at hp
            omega
          simp only [Option.bind_some]
          rw [hoff u j ⟨r', q, by omega, hu⟩ hne]

theorem IsTree.write_bottom (htree : IsTree next S root depth) {r : R}
    {p : List I} {t : F} {i : I} (hp : p.length = depth)
    (ht : walk next S (root r) p = some t)
    (hoff : AgreesOff next S S' root depth t i) :
    IsTree next S' root depth := by
  intro r₁ p₁ r₂ p₂ u h₁ h₂ hw₁ hw₂
  rw [walk_write_bottom htree hp ht hoff _ _ h₁] at hw₁
  rw [walk_write_bottom htree hp ht hoff _ _ h₂] at hw₂
  exact htree r₁ p₁ r₂ p₂ u h₁ h₂ hw₁ hw₂

/-! ## Linking a fresh frame -/

/-- Slot `i` of the frame `t`, found at the path `p` under `r`, gets a link to
the empty frame `n`. -/
structure Links (next : E → Option F) (S S' : F → I → E) (root : R → F)
    (depth : ℕ) (r : R) (p : List I) (t : F) (i : I) (n : F) : Prop where
  above : p.length < depth
  here : walk next S (root r) p = some t
  free : next (S t i) = none
  fresh : ¬ Reachable next S root depth n
  linked : next (S' t i) = some n
  empty : ∀ j, next (S' n j) = none
  off : AgreesOff next S S' root depth t i

section Link

variable {r : R} {p : List I} {t n : F} {i : I}

/-- The new walks are the old ones and the path to the fresh frame. -/
theorem Links.walk_eq [DecidableEq R] [DecidableEq I]
    (h : Links next S S' root depth r p t i n)
    (htree : IsTree next S root depth) (r' : R) (q : List I)
    (hq : q.length ≤ depth) :
    walk next S' (root r') q =
      if r' = r ∧ q = p ++ [i] then some n else walk next S (root r') q := by
  have habove := h.above
  induction q using List.reverseRecOn with
  | nil => rw [if_neg (by simp)]; rfl
  | append_singleton q j ih =>
      rw [List.length_append, List.length_singleton] at hq
      rw [walk_snoc, walk_snoc, ih (by omega)]
      by_cases hnew : r' = r ∧ q = p ++ [i]
      · -- below the fresh frame there is nothing, before and after
        obtain ⟨rfl, rfl⟩ := hnew
        have hold : walk next S (root r') (p ++ [i]) = none := by
          rw [walk_snoc, h.here]
          exact h.free
        have hlong : ¬ (r' = r' ∧ p ++ [i] ++ [j] = p ++ [i]) := by
          rintro ⟨-, hlen⟩
          simpa using congrArg List.length hlen
        rw [if_pos ⟨rfl, rfl⟩, if_neg hlong, hold]
        exact h.empty j
      · rw [if_neg hnew]
        cases hu : walk next S (root r') q with
        | none =>
            have hmiss : ¬ (r' = r ∧ q ++ [j] = p ++ [i]) := by
              rintro ⟨rfl, heq⟩
              obtain ⟨rfl, -⟩ := List.append_inj' heq rfl
              rw [h.here] at hu
              cases hu
            rw [if_neg hmiss]
            rfl
        | some u =>
            simp only [Option.bind_some]
            by_cases hslot : u = t ∧ j = i
            · obtain ⟨rfl, rfl⟩ := hslot
              obtain ⟨rfl, rfl⟩ :=
                htree r p r' q u (by omega) (by omega) h.here hu
              rw [if_pos ⟨rfl, rfl⟩, h.linked]
            · have hmiss : ¬ (r' = r ∧ q ++ [j] = p ++ [i]) := by
                rintro ⟨rfl, heq⟩
                obtain ⟨rfl, hji⟩ := List.append_inj' heq rfl
                rw [h.here] at hu
                exact hslot ⟨(Option.some.inj hu).symm, by simpa using hji⟩
              rw [if_neg hmiss, h.off u j ⟨r', q, by omega, hu⟩ hslot]

theorem Links.isTree (h : Links next S S' root depth r p t i n)
    (htree : IsTree next S root depth) : IsTree next S' root depth := by
  classical
  intro r₁ p₁ r₂ p₂ u h₁ h₂ hw₁ hw₂
  rw [h.walk_eq htree _ _ h₁] at hw₁
  rw [h.walk_eq htree _ _ h₂] at hw₂
  split at hw₁ <;> rename_i hnew₁ <;> split at hw₂ <;> rename_i hnew₂
  · exact ⟨hnew₁.1.trans hnew₂.1.symm, hnew₁.2.trans hnew₂.2.symm⟩
  · exact absurd ⟨r₂, p₂, h₂, Option.some.inj hw₁ ▸ hw₂⟩ h.fresh
  · exact absurd ⟨r₁, p₁, h₁, Option.some.inj hw₂ ▸ hw₁⟩ h.fresh
  · exact htree r₁ p₁ r₂ p₂ u h₁ h₂ hw₁ hw₂

theorem Links.reachable_iff (h : Links next S S' root depth r p t i n)
    (htree : IsTree next S root depth) (u : F) :
    Reachable next S' root depth u ↔
      u = n ∨ Reachable next S root depth u := by
  classical
  have habove := h.above
  constructor
  · rintro ⟨r', q, hq, hw⟩
    rw [h.walk_eq htree _ _ hq] at hw
    split at hw
    · exact Or.inl (Option.some.inj hw).symm
    · exact Or.inr ⟨r', q, hq, hw⟩
  · rintro (rfl | ⟨r', q, hq, hw⟩)
    · have hlen : (p ++ [i]).length ≤ depth := by
        rw [List.length_append, List.length_singleton]
        exact habove
      refine ⟨r, p ++ [i], hlen, ?_⟩
      rw [h.walk_eq htree _ _ hlen, if_pos ⟨rfl, rfl⟩]
    · refine ⟨r', q, hq, ?_⟩
      rw [h.walk_eq htree _ _ hq, if_neg, hw]
      rintro ⟨rfl, rfl⟩
      rw [walk_snoc, h.here] at hw
      rw [Option.bind_some, h.free] at hw
      cases hw

end Link

/-! ## Losing entries -/

/-- Every entry in use is kept or links nothing any more, but for the link of
the empty frame `n` in slot `i` of `t`. -/
structure Thins (next : E → Option F) (S S' : F → I → E) (root : R → F)
    (depth : ℕ) (t : F) (i : I) (n : F) : Prop where
  entries : ∀ u j, Reachable next S root depth u →
    S' u j = S u j ∨ next (S' u j) = none ∨
      u = t ∧ j = i ∧ next (S' u j) = some n
  empty : ∀ j, next (S' n j) = none

section Thin

variable {t n : F} {i : I}

/-- The walks there still are, and those through the link. -/
theorem Thins.walk_cases (h : Thins next S S' root depth t i n) {r : R}
    {q : List I} : ∀ {w : F}, q.length ≤ depth →
      walk next S' (root r) q = some w →
      walk next S (root r) q = some w ∨
        w = n ∧ ∃ q', q = q' ++ [i] ∧ walk next S (root r) q' = some t := by
  induction q using List.reverseRecOn with
  | nil => exact fun _ hw => Or.inl hw
  | append_singleton q j ih =>
      intro w hq hw
      rw [List.length_append, List.length_singleton] at hq
      obtain ⟨v, hv, hentry⟩ := exists_walk_of_snoc hw
      rcases ih (by omega) hv with hold | ⟨rfl, -⟩
      · rcases h.entries v j ⟨r, q, by omega, hold⟩ with
          hsame | hnone | ⟨rfl, rfl, hlink⟩
        · refine Or.inl ?_
          rw [walk_snoc, hold, Option.bind_some, ← hsame, hentry]
        · rw [hnone] at hentry
          cases hentry
        · exact Or.inr
            ⟨Option.some.inj (hentry.symm.trans hlink), q, rfl, hold⟩
      · rw [h.empty] at hentry
        cases hentry

theorem Thins.reachable (h : Thins next S S' root depth t i n) {u : F} :
    Reachable next S' root depth u → Reachable next S root depth u ∨ u = n := by
  intro ⟨r, q, hq, hw⟩
  rcases h.walk_cases hq hw with hold | ⟨hn, -⟩
  · exact Or.inl ⟨r, q, hq, hold⟩
  · exact Or.inr hn

/-- A tree that loses entries is a tree. -/
theorem Thins.isTree (h : Thins next S S' root depth t i n)
    (htree : IsTree next S root depth)
    (hfresh : ¬ Reachable next S root depth n) :
    IsTree next S' root depth := by
  intro r₁ p₁ r₂ p₂ u h₁ h₂ hw₁ hw₂
  rcases h.walk_cases h₁ hw₁ with hold₁ | ⟨rfl, q₁, rfl, ht₁⟩
  · rcases h.walk_cases h₂ hw₂ with hold₂ | ⟨rfl, -⟩
    · exact htree r₁ p₁ r₂ p₂ u h₁ h₂ hold₁ hold₂
    · exact absurd ⟨r₁, p₁, h₁, hold₁⟩ hfresh
  · rcases h.walk_cases h₂ hw₂ with hold₂ | ⟨-, q₂, rfl, ht₂⟩
    · exact absurd ⟨r₂, p₂, h₂, hold₂⟩ hfresh
    · rw [List.length_append, List.length_singleton] at h₁ h₂
      obtain ⟨rfl, rfl⟩ :=
        htree r₁ q₁ r₂ q₂ t (by omega) (by omega) ht₁ ht₂
      exact ⟨rfl, rfl⟩

end Thin

/-! ## The paths there are -/

/-- The path leads from the root to a frame below it. -/
def HasPath (next : E → Option F) (S : F → I → E) (root : R → F) (depth : ℕ)
    (r : R) (p : List I) : Prop :=
  p ≠ [] ∧ p.length ≤ depth ∧ (walk next S (root r) p).isSome

theorem hasPath_write_bottom (htree : IsTree next S root depth) {r : R}
    {p : List I} {t : F} {i : I} (hp : p.length = depth)
    (ht : walk next S (root r) p = some t)
    (hoff : AgreesOff next S S' root depth t i) (r' : R) (q : List I) :
    HasPath next S' root depth r' q ↔ HasPath next S root depth r' q := by
  refine and_congr_right fun _ => and_congr_right fun hq => ?_
  rw [walk_write_bottom htree hp ht hoff r' q hq]

section Paths

variable {r : R} {p : List I} {t n : F} {i : I}

/-- A link adds one path. -/
theorem Links.hasPath_iff [DecidableEq R] [DecidableEq I]
    (h : Links next S S' root depth r p t i n)
    (htree : IsTree next S root depth) (r' : R) (q : List I) :
    HasPath next S' root depth r' q ↔
      (r' = r ∧ q = p ++ [i]) ∨ HasPath next S root depth r' q := by
  have hlen : (p ++ [i]).length ≤ depth := by
    rw [List.length_append]
    exact h.above
  constructor
  · intro ⟨hne, hq, hwalk⟩
    rw [h.walk_eq htree r' q hq] at hwalk
    split at hwalk
    · rename_i hnew
      exact Or.inl hnew
    · exact Or.inr ⟨hne, hq, hwalk⟩
  · rintro (⟨rfl, rfl⟩ | ⟨hne, hq, hwalk⟩)
    · refine ⟨by simp, hlen, ?_⟩
      rw [h.walk_eq htree r' _ hlen, if_pos ⟨rfl, rfl⟩]
      rfl
    · refine ⟨hne, hq, ?_⟩
      rw [h.walk_eq htree r' q hq]
      split
      · rfl
      · exact hwalk

theorem Links.not_hasPath (h : Links next S S' root depth r p t i n) :
    ¬ HasPath next S root depth r (p ++ [i]) := by
  intro ⟨_, _, hwalk⟩
  rw [walk_snoc, h.here, Option.bind_some, h.free] at hwalk
  cases hwalk

end Paths

/-! ## The links on the way -/

/-- The entries that link the frames on a path from `t`, as far as it leads. -/
def trail (next : E → Option F) (S : F → I → E) : F → List I → List E
  | _, [] => []
  | t, i :: p =>
      match next (S t i) with
      | some u => S t i :: trail next S u p
      | none => []

/-- Every link from a frame above the bottom has a property. -/
def EveryLink (next : E → Option F) (Q : E → Prop) (S : F → I → E)
    (root : R → F) (depth : ℕ) : Prop :=
  ∀ r p t i, p.length < depth → walk next S (root r) p = some t →
    (next (S t i)).isSome → Q (S t i)

section Trail

variable {Q : E → Prop} {r : R} {t : F} {i : I}

theorem EveryLink.trail (h : EveryLink next Q S root depth) {p : List I} :
    ∀ {t : F} {q : List I}, walk next S (root r) q = some t →
      q.length + p.length ≤ depth → ∀ e ∈ trail next S t p, Q e := by
  induction p with
  | nil => exact fun _ _ e he => absurd he List.not_mem_nil
  | cons i p ih =>
      intro t q hq hlen e he
      rw [List.length_cons] at hlen
      rw [Radix.trail] at he
      cases hlink : next (S t i) with
      | none =>
          rw [hlink] at he
          exact absurd he List.not_mem_nil
      | some u =>
          rw [hlink] at he
          rcases List.mem_cons.1 he with rfl | he
          · exact h r q t i (by omega) hq (by rw [hlink]; rfl)
          · refine ih (q := q ++ [i]) ?_ ?_ e he
            · rw [walk_snoc, hq]
              exact hlink
            · rw [List.length_append, List.length_singleton]
              omega

/-- A slot at the bottom is no link. -/
theorem EveryLink.write_bottom (h : EveryLink next Q S root depth)
    (htree : IsTree next S root depth) {p : List I} (hp : p.length = depth)
    (ht : walk next S (root r) p = some t)
    (hoff : AgreesOff next S S' root depth t i) :
    EveryLink next Q S' root depth := by
  intro r' q u j hq hwalk hlink
  rw [walk_write_bottom htree hp ht hoff r' q (Nat.le_of_lt hq)] at hwalk
  have hne : ¬ (u = t ∧ j = i) := by
    rintro ⟨rfl, -⟩
    have hpath :=
      (htree r p r' q u (Nat.le_of_eq hp) (Nat.le_of_lt hq) ht hwalk).2
    rw [hpath] at hp
    omega
  rw [hoff u j ⟨r', q, Nat.le_of_lt hq, hwalk⟩ hne] at hlink ⊢
  exact h r' q u j hq hwalk hlink

/-- A new link is the only one that is new. -/
theorem EveryLink.links (h : EveryLink next Q S root depth)
    (htree : IsTree next S root depth) {p : List I} {n : F}
    (hlinks : Links next S S' root depth r p t i n) (hnew : Q (S' t i)) :
    EveryLink next Q S' root depth := by
  classical
  intro r' q u j hq hwalk hlink
  rw [hlinks.walk_eq htree r' q (Nat.le_of_lt hq)] at hwalk
  split at hwalk
  · obtain rfl := Option.some.inj hwalk
    rw [hlinks.empty j] at hlink
    cases hlink
  · by_cases hslot : u = t ∧ j = i
    · rw [hslot.1, hslot.2]
      exact hnew
    · rw [hlinks.off u j ⟨r', q, Nat.le_of_lt hq, hwalk⟩ hslot] at hlink ⊢
      exact h r' q u j hq hwalk hlink

end Trail

/-! ## Looking up -/

section Lookup

variable {V : Type*} {leaf : ℕ → E → Option V}

/-- What a path from `t` finds: the value of its last entry, or of the first
entry before that links nothing. Such an entry stands for all the paths below
it; `leaf` is told how many indices they have left. -/
def lookup (next : E → Option F) (leaf : ℕ → E → Option V) (S : F → I → E) :
    F → List I → Option V
  | _, [] => none
  | t, [i] => leaf 0 (S t i)
  | t, i :: j :: p =>
      match next (S t i) with
      | some u => lookup next leaf S u (j :: p)
      | none => leaf (p.length + 1) (S t i)

theorem lookup_linked {t u : F} {i : I} {p : List I} (hp : p ≠ [])
    (h : next (S t i) = some u) :
    lookup next leaf S t (i :: p) = lookup next leaf S u p := by
  obtain ⟨j, p, rfl⟩ := List.exists_cons_of_ne_nil hp
  rw [lookup, h]

theorem lookup_not_linked {t : F} {i : I} {p : List I}
    (h : next (S t i) = none) :
    lookup next leaf S t (i :: p) = leaf p.length (S t i) := by
  cases p with
  | nil => rfl
  | cons j p =>
      rw [lookup, h]
      rfl

/-- A lookup goes on from the frame a walk reaches. -/
theorem lookup_append {t u : F} {q p : List I} (hp : p ≠ [])
    (h : walk next S t q = some u) :
    lookup next leaf S t (q ++ p) = lookup next leaf S u p := by
  induction q generalizing t with
  | nil =>
      obtain rfl : t = u := Option.some.inj h
      rfl
  | cons i q ih =>
      rw [walk_cons] at h
      obtain ⟨v, hv, hrest⟩ := Option.bind_eq_some_iff.mp h
      rw [List.cons_append, lookup_linked (by simp [hp]) hv]
      exact ih hrest

section Frame

variable {r : R} {q : List I} {t n : F} {i : I}

/-- A lookup looks at the entries on its path. -/
theorem lookup_of_not_through (htree : IsTree next S root depth)
    (hq : q.length ≤ depth) (ht : walk next S (root r) q = some t)
    (hoff : AgreesOff next S S' root depth t i) (r' : R) (p : List I) :
    ∀ {s : List I} {u : F}, s.length + p.length = depth + 1 →
      walk next S (root r') s = some u →
      ¬ (r' = r ∧ q ++ [i] <+: s ++ p) →
      lookup next leaf S' u p = lookup next leaf S u p := by
  induction p with
  | nil => exact fun _ _ _ => rfl
  | cons j p ih =>
      intro s u hlen hu hthrough
      rw [List.length_cons] at hlen
      have hslot : S' u j = S u j := by
        refine hoff u j ⟨r', s, by omega, hu⟩ ?_
        rintro ⟨rfl, rfl⟩
        obtain ⟨rfl, rfl⟩ := htree r' s r q u (by omega) hq hu ht
        exact hthrough ⟨rfl, p, by simp⟩
      cases hlink : next (S u j) with
      | none =>
          rw [lookup_not_linked hlink, lookup_not_linked (hslot ▸ hlink), hslot]
      | some w =>
          cases p with
          | nil => rw [lookup, lookup, hslot]
          | cons k p =>
              have hne : k :: p ≠ [] := List.cons_ne_nil k p
              rw [lookup_linked hne hlink, lookup_linked hne (hslot ▸ hlink)]
              refine ih (s := s ++ [j]) ?_ ?_ ?_
              · rw [List.length_append, List.length_singleton]
                omega
              · rw [walk_snoc, hu]
                exact hlink
              · rwa [List.append_assoc, List.singleton_append]

/-- The lookups that pass through a link to an empty frame find nothing, the
others what they found. -/
theorem Links.lookup_eq [DecidableEq R] [DecidableEq I]
    (h : Links next S S' root depth r q t i n)
    (htree : IsTree next S root depth)
    (hempty : ∀ k j, leaf k (S' n j) = none) (r' : R) {p : List I}
    (hp : p.length = depth + 1) :
    lookup next leaf S' (root r') p =
      if r' = r ∧ q ++ [i] <+: p then none
      else lookup next leaf S (root r') p := by
  have habove := h.above
  split
  · rename_i hthrough
    obtain ⟨rfl, rest, rfl⟩ := hthrough
    rw [List.length_append, List.length_append, List.length_singleton] at hp
    have hlen : (q ++ [i]).length ≤ depth := by
      rw [List.length_append, List.length_singleton]
      exact habove
    have hnew : walk next S' (root r') (q ++ [i]) = some n := by
      rw [h.walk_eq htree r' _ hlen, if_pos ⟨rfl, rfl⟩]
    cases rest with
    | nil =>
        rw [List.length_nil] at hp
        omega
    | cons j rest =>
        rw [lookup_append (List.cons_ne_nil j rest) hnew,
          lookup_not_linked (h.empty j), hempty]
  · rename_i hthrough
    exact lookup_of_not_through htree (Nat.le_of_lt habove) h.here h.off r' p
      (by simpa using hp) walk_nil hthrough

/-- A bottom-level slot is looked at along one path. -/
theorem lookup_write_bottom [DecidableEq R] [DecidableEq I]
    (htree : IsTree next S root depth) (hq : q.length = depth)
    (ht : walk next S (root r) q = some t)
    (hoff : AgreesOff next S S' root depth t i) (r' : R) {p : List I}
    (hp : p.length = depth + 1) :
    lookup next leaf S' (root r') p =
      if r' = r ∧ p = q ++ [i] then leaf 0 (S' t i)
      else lookup next leaf S (root r') p := by
  have hprefix : q ++ [i] <+: p ↔ p = q ++ [i] := by
    refine ⟨fun hpre => (hpre.eq_of_length (by simp [hq, hp])).symm, ?_⟩
    rintro rfl
    exact List.prefix_refl _
  split
  · rename_i hself
    obtain ⟨rfl, rfl⟩ := hself
    rw [← walk_write_bottom htree hq ht hoff r' q (Nat.le_of_eq hq)] at ht
    rw [lookup_append (List.cons_ne_nil i []) ht]
    rfl
  · rename_i hother
    rw [← hprefix] at hother
    exact lookup_of_not_through htree (Nat.le_of_eq hq) ht hoff r' p
      (by simpa using hp) walk_nil hother

end Frame

end Lookup

end Radix
