import VegaOS.Proofs.MmuHardware

/-!
# Mapping a page where there are blocks

Mapping a page is meant to change the translation of that page. It changes
that of others in two cases. Where the walk ends at a block, `next_level` puts
an empty table in its place, and the rest of the block is gone. And where the
address is looked up under the root of the other half, the page that is mapped
is another one. In every other case the hardware translates every address
outside the page as before.
-/

namespace VegaOS

open ByteMem Trace Armv8

/-- `aarch64_map_page` leaves the hardware's translation of every address
outside the page of `v` alone. -/
def FramesOthers (env : Env) (p : Pagemap) (v phys flags : Word)
    (s : Machine) : Prop :=
  ∀ w, ¬ SamePage v w →
    hwTranslate env p (after (aarch64MapPage env p v phys flags s)).mem w =
      hwTranslate env p s.mem w

/-- The root the code selects is the one the hardware uses. -/
def UsesOwnRoot (v : Word) : Prop := HigherHalf v ∨ v.toNat < 2 ^ 37

theorem usesOwnRoot_iff (v : Word) :
    UsesOwnRoot v ↔ Canonical v ∧ hwKey v = keyOf v := by
  have hlt := v.isLt
  have hkey : hwKey v = keyOf v ↔ archTtbr v = ttbrIndex v := by
    simp [hwKey, keyOf]
  rw [hkey, ttbrIndex_eq, archTtbr, selector_eq_iff]
  unfold UsesOwnRoot Canonical LowerHalf HigherHalf
  omega

section Frame

variable {env : Env} {p : Pagemap} {s : Machine} {v phys flags : Word}

/-- Where no block is in the way, only the page at the key of `v` changes. -/
theorem hwTranslate_mapPage (htree : TreeShaped env p s.mem)
    (hclean : ∀ e ∈ (after (aarch64MapPage env p v phys flags s)).log,
      e.Clean env p) (hblock : ¬ EndsAtBlock env p s.mem (keyOf v)) {w : Word}
    (hw : Canonical w → hwKey w ≠ keyOf v) :
    hwTranslate env p (after (aarch64MapPage env p v phys flags s)).mem w =
      hwTranslate env p s.mem w := by
  by_cases hcan : Canonical w
  · rw [hwTranslate_canonical hcan, hwTranslate_canonical hcan,
      mapPage_lookupAt_of_ne htree hclean (hw hcan) fun _ => hblock]
  · rw [hwTranslate_not_canonical hcan, hwTranslate_not_canonical hcan]

theorem not_framesOthers_of_block (htree : TreeShaped env p s.mem)
    (hclean : ∀ e ∈ (after (aarch64MapPage env p v phys flags s)).log,
      e.Clean env p) (hblock : EndsAtBlock env p s.mem (keyOf v)) :
    ¬ FramesOthers env p v phys flags s := by
  intro hframes
  -- the page next to it in the same block
  obtain ⟨i, hi⟩ : ∃ i : Fin 512, i ≠ (keyOf v).leaf := by
    by_cases hzero : (keyOf v).leaf = 0
    · exact ⟨1, by rw [hzero]; decide⟩
    · exact ⟨0, fun h => hzero h.symm⟩
  obtain ⟨w, hcan, hkey⟩ := exists_hwKey { keyOf v with leaf := i }
  obtain ⟨hbefore, hafter⟩ := mapPage_lookupAt_block htree hclean hblock hi
  have hother : ¬ SamePage v w := by
    intro hsame
    have hleaf : indexAt w 12 = i := congrArg Key.leaf hkey
    apply hi
    rw [← hleaf]
    show indexAt w 12 = indexAt v 12
    rw [SamePage] at hsame
    simp only [indexAt, Fin.mk.injEq]
    omega
  have hsame := hframes w hother
  rw [hwTranslate_canonical hcan, hwTranslate_canonical hcan, hkey, hafter]
    at hsame
  exact hbefore hsame.symm

/-- The page at the key of `v`, where that is not the page of `v`. -/
theorem exists_other_page (hroot : ¬ UsesOwnRoot v) :
    ∃ w, Canonical w ∧ hwKey w = keyOf v ∧ ¬ SamePage v w := by
  obtain ⟨w, hcan, hkey⟩ := exists_hwKey (keyOf v)
  refine ⟨w, hcan, hkey, fun hsame => hroot ?_⟩
  have hv : Canonical v := by
    unfold SamePage at hsame
    unfold Canonical LowerHalf HigherHalf at *
    omega
  exact (usesOwnRoot_iff v).2 ⟨hv, ((hwKey_eq_iff hv hcan).2 hsame).trans hkey⟩

/-- With fresh frames that are zeroed over no table: everything outside the
page keeps its translation exactly if the walk ends at no block, and the page at
the key of `v` is the page of `v`, or is mapped in the same way already. -/
theorem framesOthers_iff (htree : TreeShaped env p s.mem)
    (hfresh : ∀ e ∈ (after (aarch64MapPage env p v phys flags s)).log,
      e.Fresh env p)
    (hspares : ∀ e ∈ (after (aarch64MapPage env p v phys flags s)).log,
      e.Spares env p) :
    FramesOthers env p v phys flags s ↔
      ¬ EndsAtBlock env p s.mem (keyOf v) ∧
        (UsesOwnRoot v ∨
          lookupAt env p s.mem (keyOf v) = some ⟨0, pageDesc phys flags⟩) := by
  have hclean : ∀ e ∈ (after (aarch64MapPage env p v phys flags s)).log,
      e.Clean env p := fun e he => ⟨hfresh e he, hspares e he⟩
  constructor
  · intro hframes
    have hblock : ¬ EndsAtBlock env p s.mem (keyOf v) :=
      fun h => not_framesOthers_of_block htree hclean h hframes
    refine ⟨hblock, or_iff_not_imp_left.2 fun hroot => ?_⟩
    obtain ⟨w, hcan, hkey, hother⟩ := exists_other_page hroot
    have hsame := hframes w hother
    rw [hwTranslate_canonical hcan, hwTranslate_canonical hcan, hkey,
      mapPage_lookupAt_self htree hclean] at hsame
    exact hsame.symm
  · intro ⟨hblock, hcases⟩ w hother
    by_cases hw : Canonical w ∧ hwKey w = keyOf v
    · obtain ⟨hcan, hkey⟩ := hw
      rcases hcases with hroot | hmapped
      · obtain ⟨hv, hown⟩ := (usesOwnRoot_iff v).1 hroot
        exact absurd ((hwKey_eq_iff hv hcan).1 (hown.trans hkey.symm)) hother
      · rw [hwTranslate_canonical hcan, hwTranslate_canonical hcan, hkey,
          mapPage_lookupAt_self htree hclean, hmapped]
    · exact hwTranslate_mapPage htree hclean hblock
        fun hcan hkey => hw ⟨hcan, hkey⟩

end Frame

/-! ## A block below an otherwise empty root -/

/-- The root at `0x1000` links a table at `0x9000`, whose first entry is a
block of 1 GiB at `0x40000000`. -/
def blockMem : Mem :=
  write64 (write64 (fun _ => 0) (bumpEnv.hhdm + 0x9000) 0x40000401)
    (bumpEnv.hhdm + 0x1000) 0x9003

theorem table_blockMem {t : Word} (ht : PageAligned t) (i : Fin 512) :
    table bumpEnv blockMem t i =
      if t = 0x1000 ∧ i = 0 then 0x9003
      else if t = 0x9000 ∧ i = 0 then 0x40000401
      else 0 := by
  have hroot : slot bumpEnv.hhdm 0x1000 0 = bumpEnv.hhdm + 0x1000 := by decide
  have htab : slot bumpEnv.hhdm 0x9000 0 = bumpEnv.hhdm + 0x9000 := by decide
  rw [blockMem, ← hroot, ← htab]
  by_cases h : t = 0x1000 ∧ i = 0
  · rw [if_pos h, h.1, h.2, table_write]
  · rw [if_neg h, table_write_of_ne _ _ (by decide) ht h]
    by_cases h' : t = 0x9000 ∧ i = 0
    · rw [if_pos h', h'.1, h'.2, table_write]
    · rw [if_neg h', table_write_of_ne _ _ (by decide) ht h']
      exact read64_eq_zero fun _ _ => rfl

theorem isTable_twoRoots {t : Word}
    (h : IsTable bumpEnv twoRoots (fun _ => 0) t) :
    ∃ r, t = twoRoots.ttbr r := by
  obtain ⟨r, q, _, hwalk⟩ := h
  exact ⟨r, (walk_empty (fun _ _ => linked_table_zero _ _ _) hwalk).2⟩

theorem links_blockMem :
    Radix.Links linked (table bumpEnv fun _ => 0) (table bumpEnv blockMem)
      twoRoots.ttbr 3 TTBR0 [] 0x1000 0 0x9000 := by
  have hpage : PageAligned 0x9000 := by decide
  have hroot : ∀ r, twoRoots.ttbr r ≠ 0x9000 ∧
      PageAligned (twoRoots.ttbr r) := by decide
  refine ⟨by decide, rfl, linked_table_zero _ _ _, fun h => ?_, ?_,
    fun j => ?_, fun u j hu hne => ?_⟩
  · obtain ⟨r, hr⟩ := isTable_twoRoots h
    exact (hroot r).1 hr.symm
  · rw [table_blockMem (by decide)]
    decide
  · rw [table_blockMem hpage]
    split
    · rename_i hroot
      exact absurd hroot.1 (by decide)
    · split <;> decide
  · obtain ⟨r, rfl⟩ := isTable_twoRoots hu
    rw [table_blockMem (hroot r).2, if_neg hne,
      if_neg fun h => (hroot r).1 h.1]
    exact (read64_eq_zero fun _ _ => rfl).symm

theorem isTable_blockMem {t : Word} (h : IsTable bumpEnv twoRoots blockMem t) :
    t = 0x9000 ∨ ∃ r, t = twoRoots.ttbr r := by
  rcases (links_blockMem.reachable_iff stocked_bumpEnv.shaped.tree t).1 h with
    hnew | hold
  · exact Or.inl hnew
  · exact Or.inr (isTable_twoRoots hold)

theorem blockMem_eq_zero {t x : Word} (ht : PageAligned t)
    (hroot : t ≠ 0x1000) (htab : t ≠ 0x9000)
    (hx : Span (t + bumpEnv.hhdm) 4096 x) : blockMem x = 0 := by
  have hpage : ∀ u, PageAligned u → t ≠ u →
      ¬ Span (bumpEnv.hhdm + u) 8 x := by
    intro u hu hne hin
    refine page_apart ht hu hne x hx ?_
    rw [BitVec.add_comm]
    exact Nat.lt_trans hin (by decide)
  rw [blockMem, write64_of_not_span _ _ (hpage _ (by decide) hroot),
    write64_of_not_span _ _ (hpage _ (by decide) htab)]

theorem stocked_blockMem :
    Stocked bumpEnv twoRoots (InWindow bumpEnv) 6 (.start blockMem) := by
  have hroot : ∀ r, Frame (twoRoots.ttbr r) ∧
      InWindow bumpEnv (twoRoots.ttbr r) := by decide
  have hframe : ∀ n, n < 6 → Frame (bumpEnv.frames n) ∧
      bumpEnv.frames n ≠ 0x9000 ∧ ∀ r, bumpEnv.frames n ≠ twoRoots.ttbr r := by
    decide
  have hframe9 : Frame 0x9000 := by decide
  refine stocked_of_tables
    ⟨links_blockMem.isTree stocked_bumpEnv.shaped.tree, fun t ht => ?_⟩
    (fun t ht => ?_) (fun n hn => ?_) fun n hn x hx => ?_
  · rcases isTable_blockMem ht with rfl | ⟨r, rfl⟩
    · exact hframe9
    · exact (hroot r).1
  · rcases isTable_blockMem ht with rfl | ⟨r, rfl⟩
    · decide
    · exact (hroot r).2
  · obtain ⟨hfr, hnew, hroots⟩ := hframe n hn
    refine ⟨hfr, fun ht => ?_⟩
    rcases isTable_blockMem ht with heq | ⟨r, heq⟩
    · exact hnew heq
    · exact hroots r heq
  · obtain ⟨hfr, hnew, hroots⟩ := hframe n hn
    exact blockMem_eq_zero hfr.aligned (hroots TTBR0) hnew hx

theorem stocked_mapBlock (v phys flags : Word) :
    Stocked bumpEnv twoRoots (InWindow bumpEnv) 6
      (after (aarch64MapPage bumpEnv twoRoots v phys flags
        (.start blockMem))) := by
  obtain ⟨s, hrun, hs, _⟩ := mapPage_stocked supply_bumpEnv stocked_blockMem
    (by decide) v phys flags
  rwa [hrun]

/-- A page of the next GiB. -/
theorem framesOthers_blockMem :
    FramesOthers bumpEnv twoRoots 0x40400000 0x5000000 0 (.start blockMem) := by
  have hs := stocked_mapBlock 0x40400000 0x5000000 0
  refine (framesOthers_iff stocked_blockMem.shaped hs.fresh
    (hs.spares (by decide))).2 ⟨?_, Or.inl (Or.inr (by decide))⟩
  intro ⟨l, hl, _⟩
  have hnone : lookupAt bumpEnv twoRoots blockMem (keyOf 0x40400000) = none := by
    decide +kernel
  cases hnone.symm.trans hl

/-- A page of the block: the one after it is not translated any more. -/
theorem not_framesOthers_blockMem :
    TreeShaped bumpEnv twoRoots blockMem ∧
      (∀ e ∈ (after (aarch64MapPage bumpEnv twoRoots 0x400000 0x5000000 0
        (.start blockMem))).log,
        e.Fresh bumpEnv twoRoots ∧ e.Spares bumpEnv twoRoots) ∧
      ¬ SamePage 0x400000 0x401000 ∧
      hwTranslate bumpEnv twoRoots blockMem 0x401000 =
        some ⟨2, 0x40000401⟩ ∧
      Leaf.addr ⟨2, 0x40000401⟩ 0x401000 = 0x40401000 ∧
      hwTranslate bumpEnv twoRoots (after (aarch64MapPage bumpEnv twoRoots
        0x400000 0x5000000 0 (.start blockMem))).mem 0x401000 = none ∧
      ¬ FramesOthers bumpEnv twoRoots 0x400000 0x5000000 0
        (.start blockMem) := by
  have hclean := (stocked_mapBlock 0x400000 0x5000000 0).clean (by decide)
  have hother : ¬ SamePage 0x400000 0x401000 := by
    rw [SamePage]
    decide
  have hbefore : hwTranslate bumpEnv twoRoots blockMem 0x401000 =
      some ⟨2, 0x40000401⟩ := by decide +kernel
  have hblock : EndsAtBlock bumpEnv twoRoots blockMem (keyOf 0x400000) :=
    ⟨⟨2, 0x40000401⟩, by decide +kernel, by decide⟩
  have hkey : hwKey 0x401000 = { keyOf 0x400000 with leaf := 1 } := by decide
  have hafter : hwTranslate bumpEnv twoRoots (after (aarch64MapPage bumpEnv
      twoRoots 0x400000 0x5000000 0 (.start blockMem))).mem 0x401000 =
        none := by
    rw [hwTranslate_canonical (Or.inl (by decide)), hkey]
    exact (mapPage_lookupAt_block stocked_blockMem.shaped hclean hblock
      (by decide)).2
  refine ⟨stocked_blockMem.shaped, hclean, hother, hbefore, by decide, hafter,
    fun hframes => ?_⟩
  have hsame := hframes 0x401000 hother
  rw [hafter] at hsame
  cases hsame.trans hbefore

end VegaOS
