import VegaOS.Proofs.MmuWrap

/-!
# The page tables refine a finite map

Over any sequence of calls the last one on a key decides what the key
translates to.
-/

namespace VegaOS

open ByteMem Trace

section Runs

variable {env : Env} {p : Pagemap}

theorem pageDesc_ne_zero (phys flags : Word) : pageDesc phys flags ≠ 0 := by
  intro h
  have hbit : (pageDesc phys flags).getLsbD 0 = true := by
    simp [pageDesc, PTE_P]
  rw [h] at hbit
  exact absurd hbit (by decide)

/-- The level-3 descriptor of a key that was last mapped. -/
theorem exists_leafTable {mem : Mem} {k : Key} {phys flags : Word}
    (h : view env p mem k = pageDesc phys flags) :
    ∃ t, leafTable env p mem k = some t ∧
      table env mem t k.leaf = pageDesc phys flags := by
  rw [view] at h
  cases hleaf : leafTable env p mem k with
  | none =>
      rw [hleaf] at h
      exact absurd h.symm (pageDesc_ne_zero phys flags)
  | some t =>
      rw [hleaf] at h
      exact ⟨t, rfl, h⟩

/-- From any tree-shaped tables, and over any sequence of calls that is given
fresh frames and zeroes none of them over a table: every call returns, every
address translates to what the last call on its key asked for, or to what it
did before if there was none, and a page that was mapped permits what its flags
ask for. -/
theorem translate_refines {mem : Mem} {ops : List Op}
    (htree : TreeShaped env p mem) (hops : ∀ op ∈ ops, op.Valid)
    (hfresh : ∀ e ∈ (after (runOps env p ops (.start mem))).log,
      e.Fresh env p)
    (hspares : ∀ e ∈ (after (runOps env p ops (.start mem))).log,
      e.Spares env p) :
    ∃ s, runOps env p ops (.start mem) = .ok () s ∧
      TreeShaped env p s.mem ∧ ∀ w,
        (∃ before s₀ s₁,
          aarch64TranslateVaddr env p w (.start mem) = .ok before s₀ ∧
          aarch64TranslateVaddr env p w s =
            .ok (((lastOn ops w).map Op.phys).getD before) s₁) ∧
        ∀ v phys flags, lastOn ops w = some (.map v phys flags) →
          ∃ t, leafTable env p s.mem (keyOf w) = some t ∧
            Grants (table env s.mem t (keyOf w).leaf) flags := by
  obtain ⟨s, hrun, htree', hview⟩ := runOps_spec ops htree
    fun e he => ⟨hfresh e he, hspares e he⟩
  refine ⟨s, hrun, htree', fun w => ?_⟩
  have hkey : view env p s.mem (keyOf w) =
      ((lastOn ops w).map Op.desc).getD (view env p mem (keyOf w)) := by
    rw [hview, lastOn_eq]
    exact Updates.applyAll_eq_last _ _ _ _ _
  have hvalid : ∀ op, lastOn ops w = some op → op.Valid := fun op hop =>
    hops op (Updates.mem_of_last ((lastOn_eq ops w).symm.trans hop)).1
  obtain ⟨s₀, hbefore⟩ := translate_spec (s := .start mem) htree w
  obtain ⟨s₁, hafter⟩ := translate_spec htree' w
  rw [hkey] at hafter
  refine ⟨⟨_, s₀, s₁, hbefore, hafter.trans ?_⟩, ?_⟩
  · cases hlast : lastOn ops w with
    | none => rfl
    | some op =>
        simp only [Option.map_some, Option.getD_some,
          (hvalid op hlast).desc_and_addrMask]
  · intro v phys flags hlast
    have hv := hvalid _ hlast
    rw [hlast] at hkey
    obtain ⟨t, hleaf, hdesc⟩ := exists_leafTable hkey
    refine ⟨t, hleaf, ?_⟩
    rw [hdesc]
    exact grants_pageDesc hv.1 hv.2 flags

end Runs

/-! ## An empty pagemap

Roots at `0x1000` and `0x2000`, and frames from `0x3000` on. -/

def bumpEnv : Env :=
  ⟨0xFFFF800000000000, fun n => 0x3000 + 0x1000 * BitVec.ofNat 64 n⟩

def twoRoots : Pagemap := ⟨fun r => if r = TTBR0 then 0x1000 else 0x2000⟩

theorem supply_bumpEnv : Supply bumpEnv (InWindow bumpEnv) 6 :=
  ⟨by decide, by decide, by decide⟩

theorem stocked_bumpEnv :
    Stocked bumpEnv twoRoots (InWindow bumpEnv) 6 (.start fun _ => 0) :=
  stocked_empty (by decide) (by decide) (by decide)

/-- A page is mapped, and mapped again elsewhere. -/
def remap : List Op :=
  [.map 0x400000 0x5000000 VMM_WRITABLE, .map 0x400000 0x6000000 VMM_EXEC]

theorem translate_refines_remap : ∃ s s₁,
    runOps bumpEnv twoRoots remap (.start fun _ => 0) = .ok () s ∧
      aarch64TranslateVaddr bumpEnv twoRoots 0x400123 s =
        .ok 0x6000000 s₁ := by
  have hvalid : ∀ op ∈ remap, op.Valid := by
    simp [remap, Op.Valid, PageAligned]
  obtain ⟨s, hrun, hs⟩ := runOps_stocked supply_bumpEnv remap stocked_bumpEnv
    (by decide)
  have hafter : after (runOps bumpEnv twoRoots remap (.start fun _ => 0)) =
      s := by
    rw [hrun, after_ok]
  obtain ⟨s', hrun', _, hall⟩ := translate_refines stocked_bumpEnv.shaped hvalid
    (hafter ▸ hs.fresh) (hafter ▸ hs.spares (by decide))
  obtain ⟨⟨_, _, s₁, _, hlast⟩, _⟩ := hall 0x400123
  exact ⟨s', s₁, hrun', hlast⟩

/-- Two pages under different roots. -/
def wrapOps : List Op :=
  [.map 0x8000000000 0x5000 0, .map 0x400000 0x5000000 0]

/-- The last call on the first page has mapped it, and it is not translated:
the table that the second call creates is zeroed over the first page's root. -/
theorem not_translate_refines_wrap :
    TreeShaped wrapEnv wrapRoots (fun _ => 0) ∧
      (∀ op ∈ wrapOps, op.Valid) ∧
      (∀ e ∈ (after (runOps wrapEnv wrapRoots wrapOps
        (.start fun _ => 0))).log, e.Fresh wrapEnv wrapRoots) ∧
      lastOn wrapOps 0x8000000000 = some (.map 0x8000000000 0x5000 0) ∧
      ∃ s s₁, runOps wrapEnv wrapRoots wrapOps (.start fun _ => 0) =
          .ok () s ∧
        aarch64TranslateVaddr wrapEnv wrapRoots 0x8000000000 s = .ok 0 s₁ := by
  obtain ⟨s₁, s₂, hrun₁, hrun₂, hs₂, -, hempty⟩ := exists_cleared
  have hrun : runOps wrapEnv wrapRoots wrapOps (.start fun _ => 0) =
      .ok () s₂ := by
    show (aarch64MapPage wrapEnv wrapRoots 0x8000000000 0x5000 0 >>= fun _ =>
      aarch64MapPage wrapEnv wrapRoots 0x400000 0x5000000 0 >>= fun _ =>
        pure ()) _ = _
    rw [run_bind_ok hrun₁, run_bind_ok hrun₂]
    rfl
  obtain ⟨s₃, htranslate⟩ :=
    translate_empty_root (w := 0x8000000000) hs₂.shaped hempty
  refine ⟨stocked_wrapEnv.shaped, ?_, ?_, by decide, s₂, s₃, hrun, htranslate⟩
  · simp [wrapOps, Op.Valid, PageAligned]
  · rw [hrun, after_ok]
    exact hs₂.fresh

end VegaOS
