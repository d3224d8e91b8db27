import VegaOS.Proofs.MmuSupply

/-!
# What the `memset` of a new table can clear

`next_level` zeroes a new table at its physical address, while all tables are
in the window. Where the image of a table is at the physical address of a frame,
the `memset` of the frame clears the table: the root of the one half when a page
of the other half is mapped, and with it every page of its half.
-/

namespace VegaOS

open ByteMem Trace

section Clear

variable {env : Env} {p : Pagemap} {Q : Word → Prop} {N : ℕ} {s : Machine}

/-- A root is on no walk from the other one. -/
theorem LeadsTo.ne_root {r r' : Fin 2} {q : List (Fin 512)} {t : Word}
    (ht : LeadsTo env p N s r q t) (hs : TreeShaped env p s.mem)
    (hq : q.length ≤ 3) (hr : r ≠ r') : p.ttbr r' ≠ t := by
  rintro rfl
  rcases ht with hwalk | ⟨hnone, -⟩
  · exact hr (hs.tree r q r' [] _ hq (Nat.zero_le 3) hwalk rfl).1
  · exact hnone ⟨r', [], Nat.zero_le 3, rfl⟩

/-- Mapping the first page under a root takes three frames. The other root
links nothing afterwards if it did not before, and also if its image is where
the first of the frames is zeroed. -/
theorem mapPage_empty_root (hsupply : Supply env Q N)
    (hs : Stocked env p Q N s) (hN : s.taken + 3 ≤ N) (v phys flags : Word)
    {r : Fin 2} (hr : (keyOf v).ttbr ≠ r)
    (hroot : ∀ j, linked (table env s.mem (p.ttbr (keyOf v).ttbr) j) = none) :
    ∃ s', aarch64MapPage env p v phys flags s = .ok () s' ∧
      Stocked env p Q N s' ∧ s'.taken = s.taken + 3 ∧
      ((∀ j, linked (table env s.mem (p.ttbr r) j) = none) ∨
          p.ttbr r + env.hhdm = env.frames s.taken →
        ∀ j, linked (table env s'.mem (p.ttbr r) j) = none) := by
  let Empty : Machine → Word → Prop := fun s₁ t =>
    ∀ j, linked (table env s₁.mem t j) = none
  let P : Machine → List (Fin 512) → Word → Prop := fun s₁ q t =>
    s₁.taken = s.taken + q.length ∧ Empty s₁ t ∧
      (Empty s (p.ttbr r) ∨ p.ttbr r + env.hhdm = env.frames s.taken →
        Empty s₁ (p.ttbr r) ∨
          q = [] ∧ p.ttbr r + env.hhdm = env.frames s.taken)
  have hfound : ∀ {s₁ : Machine} {q : List (Fin 512)} {t u : Word}
      {i : Fin 512}, linked (table env s₁.mem t i) = some u → P s₁ q t →
        P (s₁.visited t) (q ++ [i]) u := by
    intro s₁ q t u i hentry ⟨_, hempty, _⟩
    rw [hempty i] at hentry
    cases hentry
  have hcreate : ∀ {s₁ : Machine} {q : List (Fin 512)} {t : Word}
      {i : Fin 512}, Stocked env p Q N s₁ → s₁.taken < N → q.length ≤ 3 →
      LeadsTo env p N s₁ (keyOf v).ttbr q t → P s₁ q t →
        P (s₁.created env t i) (q ++ [i]) (env.frames s₁.taken) := by
    intro s₁ q t i hs₁ hlt hq ht ⟨htaken, _, hother⟩
    obtain ⟨hal, hoff⟩ := ht.off hs₁ hq
    have hthins := hs₁.thins (i := i) hsupply hlt hal
      (hoff s₁.taken (Nat.le_refl _) hlt)
    refine ⟨?_, hthins.empty, fun hcase => Or.inl fun j => ?_⟩
    · rw [List.length_append, List.length_singleton, ← Nat.add_assoc, ← htaken]
      rfl
    · have hral := (hs₁.shaped.root r).aligned
      have hfresh := hs₁.ahead s₁.taken (Nat.le_refl _) hlt
      rw [created_mem, table_write_of_ne _ _ hal hral
        fun h => ht.ne_root hs₁.shaped hq hr h.1]
      rcases hother hcase with hempty | ⟨rfl, himage⟩
      · rcases table_memset_cases hsupply.window s₁.mem hfresh.frame.aligned
          hral j with hsame | hzero
        · rw [hsame, hempty j]
        · rw [hzero, linked_zero]
      · rw [List.length_nil, Nat.add_zero] at htaken
        rw [table_memset_image s₁.mem (by rw [himage, htaken]), linked_zero]
  rw [aarch64MapPage_eq]
  obtain ⟨t, s', hrun, hs', -, ht, htaken, -, hother⟩ :=
    descend_stocked (P := P) (r := (keyOf v).ttbr) hsupply hfound hcreate
      (keyOf v).path (Nat.le_of_eq rfl) hs hN (Or.inl Radix.walk_nil)
      ⟨rfl, hroot, fun hcase => hcase.imp id fun himage => ⟨rfl, himage⟩⟩
  rw [run_bind_ok hrun]
  refine ⟨_, writePage_run env s' v _ t, hs'.wrote ht _, htaken,
    fun hcase j => ?_⟩
  have hempty := (hother hcase).resolve_right fun h => by cases h.1
  rw [wrote_mem, table_write_of_ne _ _ (ht.off hs' (Nat.le_refl 3)).1
    (hs'.shaped.root r).aligned
    fun h => ht.ne_root hs'.shaped (Nat.le_refl 3) hr h.1]
  exact hempty j

/-- Under a root that links nothing, nothing is translated. -/
theorem translate_empty_root (htree : TreeShaped env p s.mem) {w : Word}
    (hroot : ∀ j, linked (table env s.mem (p.ttbr (keyOf w).ttbr) j) = none) :
    ∃ s', aarch64TranslateVaddr env p w s = .ok 0 s' := by
  obtain ⟨s', hrun⟩ := translate_spec htree w
  have hview : view env p s.mem (keyOf w) = 0 := by
    refine view_eq_zero (q := [(keyOf w).upper.1]) rfl ?_
    rw [Radix.walk_cons, hroot]
    rfl
  have hzero : (0 : Word) &&& PTE_ADDR_MASK = 0 := BitVec.zero_and
  rw [hview, hzero] at hrun
  exact ⟨s', hrun⟩

end Clear

/-! ## A window that wraps around

The root for the higher half is seen in the window at `0x3000`, and that is
where `memset` zeroes the fourth frame. -/

def wrapEnv : Env :=
  ⟨0xFFFF800000000000,
    fun n => if n = 3 then 0x3000 else 0x10000 + 0x1000 * BitVec.ofNat 64 n⟩

def wrapRoots : Pagemap :=
  ⟨fun r => if r = TTBR0 then 0x1000 else 0x800000003000⟩

theorem supply_wrapEnv : Supply wrapEnv (fun _ => True) 9 :=
  ⟨by decide, by decide, fun _ _ => trivial⟩

theorem stocked_wrapEnv :
    Stocked wrapEnv wrapRoots (fun _ => True) 9 (.start fun _ => 0) :=
  stocked_empty (by decide) (by decide) (by decide)

/-- A page under the one root, and then a page under the other: the first is
gone. -/
theorem exists_cleared : ∃ s₁ s₂,
    aarch64MapPage wrapEnv wrapRoots 0x8000000000 0x5000 0
        (.start fun _ => 0) = .ok () s₁ ∧
      aarch64MapPage wrapEnv wrapRoots 0x400000 0x5000000 0 s₁ = .ok () s₂ ∧
      Stocked wrapEnv wrapRoots (fun _ => True) 9 s₂ ∧ s₂.taken = 6 ∧
      ∀ j, linked (table wrapEnv s₂.mem (wrapRoots.ttbr TTBR1) j) = none := by
  have hnone : ∀ r j, linked
      (table wrapEnv (fun _ => 0) (wrapRoots.ttbr r) j) = none :=
    fun _ _ => linked_table_zero _ _ _
  obtain ⟨s₁, hrun₁, hs₁, htaken₁, hother₁⟩ := mapPage_empty_root
    (r := TTBR0) supply_wrapEnv stocked_wrapEnv (by decide) 0x8000000000 0x5000
    0 (by decide) (hnone _)
  have htaken : s₁.taken = 3 := htaken₁
  obtain ⟨s₂, hrun₂, hs₂, htaken₂, hother₂⟩ := mapPage_empty_root
    (r := TTBR1) supply_wrapEnv hs₁ (by rw [htaken]; decide) 0x400000 0x5000000
    0 (by decide) (hother₁ (Or.inl (hnone _)))
  refine ⟨s₁, s₂, hrun₁, hrun₂, hs₂, by rw [htaken₂, htaken],
    hother₂ (Or.inr ?_)⟩
  rw [htaken]
  decide

end VegaOS
