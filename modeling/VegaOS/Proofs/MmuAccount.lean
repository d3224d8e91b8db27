import Mathlib.Data.Finset.Card
import Mathlib.Data.Finset.Union
import VegaOS.Proofs.MmuRefine

/-!
# Which frames the tables take

A frame is taken for a level that is missing, and then linked at the one place
it was missing from. So the frames taken so far and the prefixes of the
addresses mapped so far are as many: one table for each prefix that ends at
level 0, 1 or 2, whatever was mapped first and whatever was unmapped since.
-/

namespace VegaOS

open ByteMem Trace

/-- The prefixes of an address that a table belongs to: its selector and its
first indices. -/
def prefixes (v : Word) : Finset (Fin 2 × List (Fin 512)) :=
  {(ttbrIndex v, [indexAt v 39]),
    (ttbrIndex v, [indexAt v 39, indexAt v 30]),
    (ttbrIndex v, [indexAt v 39, indexAt v 30, indexAt v 21])}

/-- The prefixes of a path from root `r`, the empty one left out. -/
def below (r : Fin 2) (q : List (Fin 512)) : Finset (Fin 2 × List (Fin 512)) :=
  (q.inits.toFinset.erase []).image fun q' => (r, q')

theorem mem_below {r r' : Fin 2} {q q' : List (Fin 512)} :
    (r', q') ∈ below r q ↔ r' = r ∧ q' ≠ [] ∧ q' <+: q := by
  simp only [below, Finset.mem_image, Finset.mem_erase, List.mem_toFinset,
    List.mem_inits, Prod.mk.injEq]
  constructor
  · intro ⟨_, hq, hr, hsame⟩
    exact ⟨hr.symm, hsame ▸ hq⟩
  · intro ⟨hr, hq⟩
    exact ⟨q', hq, hr.symm, rfl⟩

theorem below_snoc (r : Fin 2) (q : List (Fin 512)) (i : Fin 512) :
    below r (q ++ [i]) = insert (r, q ++ [i]) (below r q) := by
  ext ⟨r', q'⟩
  rw [Finset.mem_insert, mem_below, mem_below, List.prefix_concat_iff,
    Prod.mk.injEq]
  constructor
  · rintro ⟨rfl, hne, rfl | hq⟩
    · exact Or.inl ⟨rfl, rfl⟩
    · exact Or.inr ⟨rfl, hne, hq⟩
  · rintro (⟨rfl, rfl⟩ | ⟨rfl, hne, hq⟩)
    · exact ⟨rfl, by simp, Or.inl rfl⟩
    · exact ⟨rfl, hne, Or.inr hq⟩

theorem below_path (v : Word) :
    below (keyOf v).ttbr (keyOf v).path = prefixes v := by
  have hpath : (keyOf v).path =
      (([] ++ [indexAt v 39]) ++ [indexAt v 30]) ++ [indexAt v 21] := rfl
  rw [hpath, below_snoc, below_snoc, below_snoc]
  ext x
  show x ∈ insert (ttbrIndex v, [indexAt v 39, indexAt v 30, indexAt v 21])
    (insert (ttbrIndex v, [indexAt v 39, indexAt v 30])
      (insert (ttbrIndex v, [indexAt v 39]) ∅)) ↔ x ∈ prefixes v
  simp only [prefixes, Finset.mem_insert, Finset.mem_singleton,
    Finset.notMem_empty, or_false]
  tauto

inductive MmuCall
  | change (op : Op)
  | translate (vaddr : Word)
deriving DecidableEq

namespace MmuCall

def run (env : Env) (p : Pagemap) : MmuCall → Kernel Unit
  | .change op => op.run env p
  | .translate v => aarch64TranslateVaddr env p v >>= fun _ => pure ()

/-- The address the call maps, if it does. -/
def mapped : MmuCall → List Word
  | .change (.map v _ _) => [v]
  | .change (.unmap _) => []
  | .translate _ => []

end MmuCall

def runCalls (env : Env) (p : Pagemap) : List MmuCall → Kernel Unit
  | [] => pure ()
  | c :: calls => c.run env p >>= fun _ => runCalls env p calls

/-- The prefixes of the addresses that the calls map. -/
def mappedPrefixes (calls : List MmuCall) : Finset (Fin 2 × List (Fin 512)) :=
  (calls.flatMap MmuCall.mapped).toFinset.biUnion prefixes

theorem mappedPrefixes_cons (c : MmuCall) (calls : List MmuCall) :
    mappedPrefixes (c :: calls) =
      mappedPrefixes [c] ∪ mappedPrefixes calls := by
  rw [mappedPrefixes, mappedPrefixes, List.flatMap_cons, List.flatMap_singleton,
    List.toFinset_append, Finset.union_biUnion, mappedPrefixes]

/-- An event that stores to memory. -/
def Event.IsStore : Event → Bool
  | .memset _ _ => true
  | .link _ _ _ => true
  | .page _ _ _ => true
  | _ => false

/-- The stores on the way from `s` to `s'`, the latest first. -/
def Stores (s s' : Machine) (stores : List Event) : Prop :=
  ∃ new, s'.log = new ++ s.log ∧ new.filter Event.IsStore = stores

theorem Looks.stores {s s' : Machine} (h : Looks s s') : Stores s s' [] := by
  obtain ⟨new, hlog, hnew⟩ := h.log
  refine ⟨new, hlog, List.filter_eq_nil_iff.2 fun e he hstore => ?_⟩
  have hlook := hnew e he
  cases e <;> first | exact hlook | cases hstore

theorem Stores.wrote {s s' : Machine} {stores : List Event}
    (h : Stores s s' stores) (env : Env) (v desc t : Word) :
    Stores s (s'.wrote env v desc t)
      (.page t (BitVec.ofNat 64 (keyOf v).leaf) desc :: stores) := by
  obtain ⟨new, hlog, rfl⟩ := h
  refine ⟨.insn .isb :: .insn .dsbIsh :: .insn (.dcIsw (v >>> 12)) ::
    .insn .dsbIsh :: .page t (BitVec.ofNat 64 (keyOf v).leaf) desc :: new,
    ?_, rfl⟩
  rw [Machine.wrote, hlog]
  rfl

section Account

variable {env : Env} {p : Pagemap}

/-- The tables below the roots are the known ones, and each has taken a
frame. -/
structure Accounts (env : Env) (p : Pagemap)
    (known : Finset (Fin 2 × List (Fin 512))) (s : Machine) : Prop where
  shaped : TreeShaped env p s.mem
  paths : ∀ r q, Radix.HasPath linked (table env s.mem) p.ttbr 3 r q ↔
    (r, q) ∈ known
  taken : s.taken = known.card

variable {known : Finset (Fin 2 × List (Fin 512))} {s s' : Machine}

theorem Accounts.looks (h : Accounts env p known s) (hlooks : Looks s s') :
    Accounts env p known s' := by
  constructor
  · rw [hlooks.mem]
    exact h.shaped
  · rw [hlooks.mem]
    exact h.paths
  · rw [hlooks.taken]
    exact h.taken

/-- A created level is known from then on, and takes one frame. -/
theorem Accounts.created (h : Accounts env p known s) {r : Fin 2}
    {q : List (Fin 512)} {t : Word} {i : Fin 512}
    (hcreate : Creates env p s r q t i) :
    Accounts env p (insert (r, q ++ [i]) known) (s.created env t i) := by
  refine ⟨hcreate.treeShaped, fun r' q' => ?_, ?_⟩
  · rw [hcreate.links.hasPath_iff h.shaped.tree, Finset.mem_insert,
      Prod.mk.injEq, h.paths]
  · have hnew : (r, q ++ [i]) ∉ known := fun hin =>
      hcreate.links.not_hasPath ((h.paths r (q ++ [i])).2 hin)
    rw [Finset.card_insert_of_notMem hnew, ← h.taken]
    rfl

/-- Level-3 entries are nobody's tables. -/
theorem Accounts.wrote (h : Accounts env p known s) {v t : Word}
    (hleaf : leafTable env p s.mem (keyOf v) = some t) (desc : Word) :
    Accounts env p known (s.wrote env v desc t) := by
  refine ⟨(write_leaf h.shaped hleaf desc).1, fun r q => ?_, h.taken⟩
  have hoff := (walk_write_leaf h.shaped hleaf desc).1
  rw [← h.paths]
  exact Radix.hasPath_write_bottom h.shaped.tree (keyOf v).length_path hleaf
    hoff r q

/-- The walk of `aarch64_map_page` makes the prefixes of its path known. -/
theorem Accounts.descend (h : Accounts env p known s) (v : Word)
    (hclean : ∀ e ∈ (after (descend env (p.ttbr (keyOf v).ttbr) (keyOf v).path
      s)).log, e.Clean env p) :
    ∃ u s', VegaOS.descend env (p.ttbr (keyOf v).ttbr) (keyOf v).path s =
        .ok u s' ∧
      leafTable env p s'.mem (keyOf v) = some u ∧
      Accounts env p (known ∪ prefixes v) s' := by
  let r := (keyOf v).ttbr
  let P : Machine → List (Fin 512) → Prop := fun s₁ q =>
    Accounts env p (known ∪ below r q) s₁
  have hfound : ∀ {s₁ : Machine} {q : List (Fin 512)} {t u : Word}
      {i : Fin 512}, (q ++ [i]).length ≤ 3 →
      Radix.walk linked (table env s₁.mem) (p.ttbr r) (q ++ [i]) = some u →
      P s₁ q → P (s₁.visited t) (q ++ [i]) := by
    intro s₁ q t u i hlen hwalk hP
    have hthere : (r, q ++ [i]) ∈ known ∪ below r q :=
      (hP.paths r (q ++ [i])).1 ⟨by simp, hlen, by rw [hwalk]; rfl⟩
    have hsame : known ∪ below r (q ++ [i]) = known ∪ below r q := by
      rw [below_snoc, Finset.union_insert, Finset.insert_eq_of_mem hthere]
    show Accounts env p (known ∪ below r (q ++ [i])) _
    rw [hsame]
    exact hP.looks ((Looks.refl s₁).visited t)
  have hcreate : ∀ {s₁ : Machine} {q : List (Fin 512)} {t : Word} {i : Fin 512}
      {rest : List (Fin 512)}, (keyOf v).path = q ++ i :: rest →
      Creates env p s₁ r q t i → P s₁ q →
        P (s₁.created env t i) (q ++ [i]) := by
    intro s₁ q t i rest _ hnew hP
    show Accounts env p (known ∪ below r (q ++ [i])) _
    rw [below_snoc, Finset.union_insert]
    exact hP.created hnew
  have hstart : P s [] := by
    show Accounts env p (known ∪ below r []) s
    rwa [show below r [] = ∅ from rfl, Finset.union_empty]
  obtain ⟨u, s', hrun, _, hleaf, hP⟩ := descend_induct (P := P)
    (keyOf v).length_path hfound hcreate (keyOf v).path rfl h.shaped hstart
    Radix.walk_nil hclean
  rw [← below_path]
  exact ⟨u, s', hrun, hleaf, hP⟩

/-! ## Every call -/

theorem mapPage_accounts (h : Accounts env p known s) (v phys flags : Word)
    (hclean : ∀ e ∈ (after (aarch64MapPage env p v phys flags s)).log,
      e.Clean env p) :
    ∃ s', aarch64MapPage env p v phys flags s = .ok () s' ∧
      Accounts env p (known ∪ prefixes v) s' := by
  rw [aarch64MapPage_eq] at hclean ⊢
  obtain ⟨t, s', hrun, hleaf, h'⟩ :=
    h.descend v (of_after_bind (logs_writePage env v _) hclean)
  rw [run_bind_ok hrun]
  exact ⟨_, writePage_run env s' v _ t, h'.wrote hleaf _⟩

theorem unmapPage_accounts (h : Accounts env p known s) (v : Word) :
    ∃ s', aarch64UnmapPage env p v s = .ok () s' ∧
      Accounts env p known s' := by
  obtain ⟨s', hrun, hcases⟩ := unmapPage_cases h.shaped v
  refine ⟨s', hrun, ?_⟩
  rcases hcases with ⟨hlooks, _⟩ | ⟨t, s₁, hlooks, hleaf, rfl⟩
  · exact h.looks hlooks
  · rw [← hlooks.mem] at hleaf
    exact (h.looks hlooks).wrote hleaf 0

theorem translate_accounts (h : Accounts env p known s) (v : Word) :
    ∃ s', MmuCall.run env p (.translate v) s = .ok () s' ∧
      Accounts env p known s' := by
  obtain ⟨s', hrun, hlooks⟩ := translate_run env p v s
  exact ⟨s', run_bind_ok hrun, h.looks hlooks⟩

/-- A call makes the prefixes known of the address it maps. -/
theorem run_accounts (h : Accounts env p known s) (c : MmuCall)
    (hclean : ∀ e ∈ (after (c.run env p s)).log, e.Clean env p) :
    ∃ s', c.run env p s = .ok () s' ∧
      Accounts env p (known ∪ mappedPrefixes [c]) s' := by
  cases c with
  | change op =>
      cases op with
      | map v phys flags =>
          have hone : mappedPrefixes [.change (.map v phys flags)] =
              prefixes v := Finset.singleton_biUnion
          rw [hone]
          exact mapPage_accounts h v phys flags hclean
      | unmap v =>
          have hnone : mappedPrefixes [.change (.unmap v)] = ∅ := rfl
          rw [hnone, Finset.union_empty]
          exact unmapPage_accounts h v
  | translate v =>
      have hnone : mappedPrefixes [.translate v] = ∅ := rfl
      rw [hnone, Finset.union_empty]
      exact translate_accounts h v

theorem logs_translateVaddr (v : Word) :
    Logs (aarch64TranslateVaddr env p v) := by
  intro s
  obtain ⟨s', hrun, hlooks⟩ := translate_run env p v s
  obtain ⟨new, hlog, _⟩ := hlooks.log
  intro e he
  rw [hrun, after_ok, hlog]
  exact List.mem_append_right new he

theorem logs_runCalls (calls : List MmuCall) : Logs (runCalls env p calls) := by
  induction calls with
  | nil => exact .pure _
  | cons c calls ih =>
      refine Grows.bind ?_ fun _ => ih
      cases c with
      | change op =>
          cases op with
          | map v phys flags => exact logs_mapPage v phys flags
          | unmap v => exact logs_unmapPage v
      | translate v => exact (logs_translateVaddr v).bind fun _ => .pure _

theorem runCalls_accounts (calls : List MmuCall) :
    ∀ {known : Finset (Fin 2 × List (Fin 512))} {s : Machine},
      Accounts env p known s →
      (∀ e ∈ (after (runCalls env p calls s)).log, e.Clean env p) →
      ∃ s', runCalls env p calls s = .ok () s' ∧
        Accounts env p (known ∪ mappedPrefixes calls) s' := by
  induction calls with
  | nil =>
      intro known s h _
      refine ⟨s, rfl, ?_⟩
      rwa [show mappedPrefixes [] = ∅ from rfl, Finset.union_empty]
  | cons c calls ih =>
      intro known s h hclean
      rw [runCalls] at hclean ⊢
      obtain ⟨s₁, hrun, h₁⟩ :=
        run_accounts h c (of_after_bind (fun _ => logs_runCalls calls) hclean)
      rw [run_bind_ok hrun] at hclean ⊢
      obtain ⟨s₂, hrun₂, h₂⟩ := ih h₁ hclean
      refine ⟨s₂, hrun₂, ?_⟩
      rwa [mappedPrefixes_cons, ← Finset.union_assoc]

/-- Empty roots have no table below them. -/
theorem accounts_start {mem : Mem} (hroot : ∀ r, Frame (p.ttbr r))
    (hroots : ∀ r r', p.ttbr r = p.ttbr r' → r = r')
    (hempty : ∀ r i, linked (table env mem (p.ttbr r) i) = none) :
    Accounts env p ∅ (.start mem) := by
  refine ⟨treeShaped_start hroot hroots hempty, fun r q => ?_, rfl⟩
  refine iff_of_false (fun ⟨hne, _, hwalk⟩ => ?_) (Finset.notMem_empty _)
  obtain ⟨t, ht⟩ := Option.isSome_iff_exists.1 hwalk
  exact hne (walk_empty hempty ht).1

/-- From two empty roots, and over any sequence of calls that is given fresh
frames and zeroes none of them over a table: the tables are one for each prefix
of the addresses mapped so far, and as many frames have been taken. A call that
unmaps or translates takes none; what the one stores is a level-3 entry at most,
and the other stores nothing. -/
theorem frames_accounted {mem : Mem} (hroot : ∀ r, Frame (p.ttbr r))
    (hroots : p.ttbr TTBR0 ≠ p.ttbr TTBR1)
    (hempty : ∀ r i, linked (table env mem (p.ttbr r) i) = none)
    {calls : List MmuCall}
    (hfresh : ∀ e ∈ (after (runCalls env p calls (.start mem))).log,
      e.Fresh env p)
    (hspares : ∀ e ∈ (after (runCalls env p calls (.start mem))).log,
      e.Spares env p) :
    ∃ s, runCalls env p calls (.start mem) = .ok () s ∧
      s.taken = (mappedPrefixes calls).card ∧
      (∀ r q, Radix.HasPath linked (table env s.mem) p.ttbr 3 r q ↔
        (r, q) ∈ mappedPrefixes calls) ∧
      ∀ v,
        (∃ s', aarch64UnmapPage env p v s = .ok () s' ∧
          s'.taken = s.taken ∧
          ((Stores s s' [] ∧ s'.mem = s.mem) ∨
            ∃ t, leafTable env p s.mem (keyOf v) = some t ∧
              Stores s s' [.page t (BitVec.ofNat 64 (keyOf v).leaf) 0] ∧
              s'.mem = write64 s.mem (slot env.hhdm t (keyOf v).leaf) 0)) ∧
        ∃ phys s', aarch64TranslateVaddr env p v s = .ok phys s' ∧
          s'.taken = s.taken ∧ Stores s s' [] ∧ s'.mem = s.mem := by
  have hinj : ∀ r r', p.ttbr r = p.ttbr r' → r = r' := by
    refine Fin.forall_fin_two.2 ⟨Fin.forall_fin_two.2 ⟨fun _ => rfl, ?_⟩,
      Fin.forall_fin_two.2 ⟨?_, fun _ => rfl⟩⟩
    · exact fun h => absurd h hroots
    · exact fun h => absurd h.symm hroots
  obtain ⟨s, hrun, h⟩ :=
    runCalls_accounts calls (accounts_start hroot hinj hempty)
      fun e he => ⟨hfresh e he, hspares e he⟩
  rw [Finset.empty_union] at h
  refine ⟨s, hrun, h.taken, h.paths, fun v => ⟨?_, ?_⟩⟩
  · obtain ⟨s', hunmap, hcases⟩ := unmapPage_cases h.shaped v
    refine ⟨s', hunmap, ?_⟩
    rcases hcases with ⟨hlooks, _⟩ | ⟨t, s₁, hlooks, hleaf, rfl⟩
    · exact ⟨hlooks.taken, Or.inl ⟨hlooks.stores, hlooks.mem⟩⟩
    · refine ⟨hlooks.taken, Or.inr ⟨t, hleaf, hlooks.stores.wrote env v 0 t, ?_⟩⟩
      rw [wrote_mem, hlooks.mem]
  · obtain ⟨s', htranslate, hlooks⟩ := translate_run env p v s
    exact ⟨_, s', htranslate, hlooks.taken, hlooks.stores, hlooks.mem⟩

end Account

/-! ## Two pages that share their upper tables -/

section Stocked

variable {env : Env} {p : Pagemap} {Q : Word → Prop} {N : ℕ}

theorem run_call_stocked (hsupply : Supply env Q N) {s : Machine}
    (hs : Stocked env p Q N s) (c : MmuCall)
    (hN : s.taken + 3 * c.mapped.length ≤ N) :
    ∃ s', c.run env p s = .ok () s' ∧ Stocked env p Q N s' ∧
      s'.taken ≤ s.taken + 3 * c.mapped.length := by
  cases c with
  | change op =>
      cases op with
      | map v phys flags => exact mapPage_stocked hsupply hs hN v phys flags
      | unmap v =>
          obtain ⟨s', hrun, hs', htaken⟩ := unmapPage_stocked hs v
          exact ⟨s', hrun, hs', Nat.le_of_eq htaken⟩
  | translate v =>
      obtain ⟨s', hrun, hlooks⟩ := translate_run env p v s
      exact ⟨s', run_bind_ok hrun, hs.looks hlooks, Nat.le_of_eq hlooks.taken⟩

/-- Three frames for each mapping are enough. -/
theorem runCalls_stocked (hsupply : Supply env Q N) (calls : List MmuCall) :
    ∀ {s : Machine}, Stocked env p Q N s →
      s.taken + 3 * (calls.flatMap MmuCall.mapped).length ≤ N →
      Stocked env p Q N (after (runCalls env p calls s)) := by
  induction calls with
  | nil => exact fun {s} hs _ => hs
  | cons c calls ih =>
      intro s hs hN
      rw [List.flatMap_cons, List.length_append] at hN
      obtain ⟨s₁, hrun, hs₁, htaken⟩ := run_call_stocked hsupply hs c (by omega)
      rw [runCalls, run_bind_ok hrun]
      exact ih hs₁ (by omega)

end Stocked

/-- Two pages with one level-1 and one level-2 table between them. -/
def sharedTables : List MmuCall :=
  [.change (.map 0x400000 0x5000000 VMM_WRITABLE),
    .change (.map 0x600000 0x6000000 0),
    .change (.unmap 0x400000),
    .translate 0x600000]

/-- Four frames for six levels. -/
theorem frames_accounted_shared : ∃ s,
    runCalls bumpEnv twoRoots sharedTables (.start fun _ => 0) = .ok () s ∧
      s.taken = 4 := by
  have hs := runCalls_stocked supply_bumpEnv sharedTables stocked_bumpEnv
    (by decide)
  obtain ⟨s, hrun, htaken, -⟩ := frames_accounted (by decide) (by decide)
    (fun _ _ => linked_table_zero _ _ _) hs.fresh (hs.spares (by decide))
  exact ⟨s, hrun, htaken.trans (by decide +kernel)⟩

/-- A page under the one root, one under the other, and the first again. -/
def wrapCalls : List MmuCall :=
  [.change (.map 0x8000000000 0x5000 0),
    .change (.map 0x400000 0x5000000 0),
    .change (.map 0x8000000000 0x5000 0)]

/-- Nine frames for six prefixes: the second call clears the root of the first
page, and the third takes three frames once more. -/
theorem not_frames_accounted_wrap :
    (∀ r, Frame (wrapRoots.ttbr r)) ∧
      wrapRoots.ttbr TTBR0 ≠ wrapRoots.ttbr TTBR1 ∧
      (∀ r i, linked (table wrapEnv (fun _ => 0) (wrapRoots.ttbr r) i) =
        none) ∧
      (∀ e ∈ (after (runCalls wrapEnv wrapRoots wrapCalls
        (.start fun _ => 0))).log, e.Fresh wrapEnv wrapRoots) ∧
      (mappedPrefixes wrapCalls).card = 6 ∧
      ∃ s, runCalls wrapEnv wrapRoots wrapCalls (.start fun _ => 0) =
        .ok () s ∧ s.taken = 9 := by
  obtain ⟨s₁, s₂, hrun₁, hrun₂, hs₂, htaken₂, hempty⟩ := exists_cleared
  obtain ⟨s₃, hrun₃, hs₃, htaken₃, -⟩ := mapPage_empty_root (r := TTBR0)
    supply_wrapEnv hs₂ (by rw [htaken₂]) 0x8000000000 0x5000 0 (by decide)
    hempty
  have hrun : runCalls wrapEnv wrapRoots wrapCalls (.start fun _ => 0) =
      .ok () s₃ := by
    show (aarch64MapPage wrapEnv wrapRoots 0x8000000000 0x5000 0 >>= fun _ =>
      aarch64MapPage wrapEnv wrapRoots 0x400000 0x5000000 0 >>= fun _ =>
        aarch64MapPage wrapEnv wrapRoots 0x8000000000 0x5000 0 >>= fun _ =>
          pure ()) _ = _
    rw [run_bind_ok hrun₁, run_bind_ok hrun₂, run_bind_ok hrun₃]
    rfl
  refine ⟨by decide, by decide, fun _ _ => linked_table_zero _ _ _, ?_,
    by decide +kernel, s₃, hrun, by rw [htaken₃, htaken₂]⟩
  rw [hrun, after_ok]
  exact hs₃.fresh

end VegaOS
