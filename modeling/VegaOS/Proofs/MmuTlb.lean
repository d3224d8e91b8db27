import VegaOS.Lib.Cache
import VegaOS.Proofs.MmuBlocks

/-!
# Translations that outlive their mapping

The hardware looks at the tables through a TLB, which may go on serving a
translation until a `TLBI` for its address. `invalidate_page` has none: it is
two barriers around a data cache instruction, and a barrier for the
instruction stream. So nothing `mmu.c` does takes anything out of a TLB, and an
address that was accessed before it is unmapped, or mapped elsewhere, may still
be translated as before.

It goes well only as long as no call is to replace a translation that the TLB
holds, or one that the call does not find: a part of a block, or an address
that is looked up under the wrong root. All of this is about calls that zero no
new table over another.
-/

namespace VegaOS

open ByteMem Trace Armv8

/-- Whether the entries of a page are dropped: that takes a `TLBI`. -/
def Insn.Invalidates : Insn → ℕ → Prop
  | .dsbIsh, _ => False
  | .dcIsw _, _ => False
  | .isb, _ => False

def Event.insn? : Event → Option Insn
  | .insn i => some i
  | _ => none

/-- The instructions executed on the way from `s` to `t`. -/
def executed (s t : Machine) : List Insn :=
  (t.log.take (t.log.length - s.log.length)).filterMap Event.insn?

def pageOf (v : Word) : ℕ := v.toNat / 4096

/-- The translation that a call is asked to leave for its address. -/
def Op.leaf : Op → Option Leaf
  | .map _ phys flags => some ⟨0, pageDesc phys flags⟩
  | .unmap _ => none

/-- The hardware, and the calls of `mmu.c` that change its tables. A call is
made with an allocator that answers with fresh frames. -/
def tlb (env : Env) (p : Pagemap) : Cache.System Machine ℕ Leaf Op where
  current s page := hwTranslate env p s.mem (BitVec.ofNat 64 (4096 * page))
  exec s op t := op.run env p s = .ok () t ∧ ∀ e ∈ t.log, e.Fresh env p
  key op := pageOf op.vaddr
  wanted op := op.leaf
  Flushes s t page := ∃ i ∈ executed s t, i.Invalidates page

/-- A machine and its TLB. -/
abbrev Cpu := Cache.State Machine ℕ Leaf

/-- Accesses to pages, and calls. -/
abbrev CpuStep := Cache.Action ℕ Leaf Op

/-- A translation that a call is to replace is one that it does replace (it
looks under the root of the address, and unmaps no part of a block), and the
TLB does not hold it. -/
def ReplacesUnheld (env : Env) (p : Pagemap) (s : Cpu) : CpuStep → Prop
  | .look _ _ => True
  | .op op =>
      ∀ l, hwTranslate env p s.store.mem op.vaddr = some l →
        op.leaf ≠ some l →
          (UsesOwnRoot op.vaddr ∧ (op.leaf = none → l.height = 0)) ∧
            (pageOf op.vaddr, l) ∉ s.held

/-- Where a call zeroes a new table, it overwrites no other. -/
def ZeroesNoTable (env : Env) (p : Pagemap) (s : Cpu) : CpuStep → Prop
  | .look _ _ => True
  | .op op => ∀ e ∈ (after (op.run env p s.store)).log, e.Spares env p

/-- The steps that do not. -/
abbrev sparing (env : Env) (p : Pagemap) : Cpu → CpuStep → Cpu → Prop :=
  Runs.Guarded (tlb env p).step (ZeroesNoTable env p)

theorem not_invalidates (i : Insn) (page : ℕ) : ¬ i.Invalidates page := by
  cases i <;> exact id

section Own

variable {env : Env} {p : Pagemap}

/-- An address is translated as its page is. -/
theorem hwTranslate_samePage {mem : Mem} {v w : Word} (h : SamePage v w) :
    hwTranslate env p mem v = hwTranslate env p mem w := by
  have hcan : Canonical v ↔ Canonical w := by
    have hv := v.isLt
    have hw := w.isLt
    unfold SamePage at h
    unfold Canonical LowerHalf HigherHalf
    omega
  by_cases hv : Canonical v
  · have hw := hcan.1 hv
    rw [hwTranslate_canonical hv, hwTranslate_canonical hw,
      (hwKey_eq_iff hv hw).2 h]
  · rw [hwTranslate_not_canonical hv,
      hwTranslate_not_canonical (mt hcan.2 hv)]

theorem current_pageOf (s : Machine) (v : Word) :
    (tlb env p).current s (pageOf v) = hwTranslate env p s.mem v := by
  have hlt := v.isLt
  refine hwTranslate_samePage ?_
  rw [SamePage, BitVec.toNat_ofNat, pageOf]
  omega

/-- Under the other root an address is not found at its key. -/
theorem hwKey_ttbr_ne {v : Word} (hroot : ¬ UsesOwnRoot v)
    (hcan : Canonical v) : (hwKey v).ttbr ≠ (keyOf v).ttbr := by
  intro h
  refine hroot ((usesOwnRoot_iff v).2 ⟨hcan, ?_⟩)
  rw [hwKey, show archTtbr v = (keyOf v).ttbr from h]

variable {s t : Machine} {v : Word}

theorem hwTranslate_run_other (htree : TreeShaped env p s.mem) {op : Op}
    (hrun : op.run env p s = .ok () t) (hclean : ∀ e ∈ t.log, e.Clean env p)
    (hroot : ¬ UsesOwnRoot op.vaddr) :
    hwTranslate env p t.mem op.vaddr = hwTranslate env p s.mem op.vaddr := by
  by_cases hcan : Canonical op.vaddr
  · have httbr := hwKey_ttbr_ne hroot hcan
    have hne : hwKey op.vaddr ≠ keyOf op.vaddr :=
      fun h => httbr (congrArg Key.ttbr h)
    rw [hwTranslate_canonical hcan, hwTranslate_canonical hcan]
    cases op with
    | map v phys flags =>
        have hmap : aarch64MapPage env p v phys flags s = .ok () t := hrun
        have hlog : ∀ e ∈ (after (aarch64MapPage env p v phys flags s)).log,
            e.Clean env p := by
          rw [hmap]
          exact hclean
        have hafter := mapPage_lookupAt_of_ne htree hlog hne
          fun h => absurd h httbr
        rw [hmap, after_ok] at hafter
        exact hafter
    | unmap v =>
        have hunmap : aarch64UnmapPage env p v s = .ok () t := hrun
        by_cases hblock : EndsAtBlock env p s.mem (keyOf v)
        · have hafter := unmapPage_lookupAt_block htree hblock
          rw [hunmap, after_ok] at hafter
          rw [hafter]
        · have hafter := unmapPage_lookupAt htree hblock
          rw [hunmap, after_ok] at hafter
          rw [hafter]
          exact Function.update_of_ne hne _ _
  · rw [hwTranslate_not_canonical hcan, hwTranslate_not_canonical hcan]

theorem hwTranslate_own {mem : Mem} (hroot : UsesOwnRoot v) :
    hwTranslate env p mem v = lookupAt env p mem (keyOf v) := by
  obtain ⟨hcan, hkey⟩ := (usesOwnRoot_iff v).1 hroot
  rw [hwTranslate_canonical hcan, hkey]

theorem hwTranslate_run_map (htree : TreeShaped env p s.mem)
    {phys flags : Word} (hrun : aarch64MapPage env p v phys flags s = .ok () t)
    (hclean : ∀ e ∈ t.log, e.Clean env p) (hroot : UsesOwnRoot v) :
    hwTranslate env p t.mem v = some ⟨0, pageDesc phys flags⟩ := by
  have hlog : ∀ e ∈ (after (aarch64MapPage env p v phys flags s)).log,
      e.Clean env p := by
    rw [hrun]
    exact hclean
  have hself := mapPage_lookupAt_self htree hlog
  rw [hrun, after_ok] at hself
  rw [hwTranslate_own hroot, hself]

/-- A page is gone, a block stays. -/
theorem hwTranslate_run_unmap (htree : TreeShaped env p s.mem)
    (hrun : aarch64UnmapPage env p v s = .ok () t) (hroot : UsesOwnRoot v)
    {l : Leaf} (hl : hwTranslate env p s.mem v = some l) :
    hwTranslate env p t.mem v = if l.height ≠ 0 then some l else none := by
  rw [hwTranslate_own hroot] at hl ⊢
  by_cases hblock : EndsAtBlock env p s.mem (keyOf v)
  · have hafter := unmapPage_lookupAt_block htree hblock
    rw [hrun, after_ok] at hafter
    obtain ⟨l', hl', hheight⟩ := hblock
    obtain rfl : l = l' := Option.some.inj (hl.symm.trans hl')
    rw [hafter, if_pos hheight, hl]
  · have hafter := unmapPage_lookupAt htree hblock
    rw [hrun, after_ok] at hafter
    rw [hafter, Function.update_self, if_neg fun h => hblock ⟨l, hl, h⟩]

/-- When a call replaces the translation that it is to replace. -/
theorem hwTranslate_run_ne_iff (htree : TreeShaped env p s.mem) {op : Op}
    (hrun : op.run env p s = .ok () t) (hclean : ∀ e ∈ t.log, e.Clean env p)
    {l : Leaf} (hl : hwTranslate env p s.mem op.vaddr = some l)
    (hne : op.leaf ≠ some l) :
    hwTranslate env p t.mem op.vaddr ≠ some l ↔
      UsesOwnRoot op.vaddr ∧ (op.leaf = none → l.height = 0) := by
  by_cases hroot : UsesOwnRoot op.vaddr
  · cases op with
    | map v phys flags =>
        have hmapped : hwTranslate env p t.mem v =
            some ⟨0, pageDesc phys flags⟩ :=
          hwTranslate_run_map htree hrun hclean hroot
        refine ⟨fun _ => ⟨hroot, fun h => ?_⟩, fun _ h => ?_⟩
        · exact absurd h (Option.some_ne_none _)
        · exact hne (hmapped.symm.trans h)
    | unmap v =>
        have hafter : hwTranslate env p t.mem v =
            if l.height ≠ 0 then some l else none :=
          hwTranslate_run_unmap htree hrun hroot hl
        show hwTranslate env p t.mem v ≠ some l ↔ _
        rw [hafter]
        by_cases hheight : l.height = 0
        · rw [if_neg fun h => h hheight]
          exact ⟨fun _ => ⟨hroot, fun _ => hheight⟩,
            fun _ h => Option.some_ne_none l h.symm⟩
        · rw [if_pos hheight]
          exact ⟨fun h => absurd rfl h, fun h => absurd (h.2 rfl) hheight⟩
  · rw [hwTranslate_run_other htree hrun hclean hroot, hl]
    exact ⟨fun h => absurd rfl h, fun h => absurd h.1 hroot⟩

end Own

/-! ## Runs -/

section Runs

variable {env : Env} {p : Pagemap}

theorem not_flushes (s t : Machine) (page : ℕ) :
    ¬ (tlb env p).Flushes s t page :=
  fun ⟨i, _, hi⟩ => not_invalidates i page hi

theorem clean_of_sparing {s t : Cpu} {op : Op}
    (h : sparing env p s (.op op) t) :
    op.run env p s.store = .ok () t.store ∧
      ∀ e ∈ t.store.log, e.Clean env p := by
  obtain ⟨hspares, ⟨hrun, hfresh⟩, -⟩ := h
  have hrun' : op.run env p s.store = .ok () t.store := hrun
  have hlog : ∀ e ∈ (after (op.run env p s.store)).log, e.Spares env p :=
    hspares
  rw [hrun'] at hlog
  exact ⟨hrun', fun e he => ⟨hfresh e he, hlog e he⟩⟩

theorem replacesUnheld_iff {s t : Cpu} {op : Op}
    (htree : TreeShaped env p s.store.mem) (hs : (tlb env p).NoStale s)
    (h : sparing env p s (.op op) t) :
    (tlb env p).NoStale t ↔ ReplacesUnheld env p s (.op op) := by
  obtain ⟨hrun, hclean⟩ := clean_of_sparing h
  have hcurrent : ∀ m : Machine, (tlb env p).current m ((tlb env p).key op) =
      hwTranslate env p m.mem op.vaddr := fun m => current_pageOf m op.vaddr
  have hgone : ∀ l, hwTranslate env p s.store.mem op.vaddr = some l →
      op.leaf ≠ some l →
        (hwTranslate env p t.store.mem op.vaddr ≠ some l ↔
          UsesOwnRoot op.vaddr ∧ (op.leaf = none → l.height = 0)) :=
    fun l hl hne => hwTranslate_run_ne_iff htree hrun hclean hl hne
  rw [Cache.System.noStale_op_iff hs h.2]
  constructor
  · intro hall l hl hne
    obtain ⟨hnow, hflush⟩ := hall l ⟨rfl, (hcurrent _).trans hl, hne⟩
    rw [hcurrent] at hnow
    exact ⟨(hgone l hl hne).1 hnow,
      fun hheld => not_flushes _ _ _ (hflush hheld)⟩
  · rintro hall l ⟨_, hl, hne⟩
    have hl' := (hcurrent s.store).symm.trans hl
    obtain ⟨hroot, hheld⟩ := hall l hl' hne
    rw [hcurrent]
    exact ⟨(hgone l hl' hne).2 hroot, fun hold => absurd hold hheld⟩

theorem treeShaped_step {s t : Cpu} {a : CpuStep}
    (htree : TreeShaped env p s.store.mem) (h : sparing env p s a t) :
    TreeShaped env p t.store.mem := by
  cases a with
  | look page answer =>
      obtain ⟨-, -, hstore, -⟩ := h
      rw [hstore]
      exact htree
  | op op =>
      obtain ⟨hrun, hclean⟩ := clean_of_sparing h
      have hlog : ∀ e ∈ (after (op.run env p s.store)).log,
          e.Clean env p := by
        rw [hrun]
        exact hclean
      obtain ⟨t', ht', htree', _⟩ := run_spec htree op hlog
      rw [hrun] at ht'
      cases ht'
      exact htree'

/-- In every order of accesses and calls, no access is served a translation
that an earlier call was to replace, as long as each call zeroes no table over
another, does replace what it is to replace and does not find it in the TLB;
and of the calls that zero no table over another, the first that does not leaves
a state in which an access is served with it. -/
theorem noStale_exact {s₀ s : Cpu} (htree : TreeShaped env p s₀.store.mem)
    (hnew : s₀.replaced = ∅)
    (h : Runs.Reaches
      (Runs.Guarded (sparing env p) (ReplacesUnheld env p)) s₀ s) :
    (tlb env p).NoStale s ∧ ∀ a t, (tlb env p).step s a t →
      ZeroesNoTable env p s a →
        ((tlb env p).NoStale t ↔ ReplacesUnheld env p s a) := by
  let Inv : Cpu → Prop := fun s => TreeShaped env p s.store.mem
  have hinv : ∀ s a t, Inv s → sparing env p s a t → Inv t :=
    fun _ _ _ hs hstep => treeShaped_step hs hstep
  have hinv₀ : Inv s₀ := htree
  have hguard : ∀ s a t, Inv s → (tlb env p).NoStale s →
      sparing env p s a t →
        ((tlb env p).NoStale t ↔ ReplacesUnheld env p s a) := by
    intro s a t hs hns hstep
    cases a with
    | look page answer =>
        exact ⟨fun _ => trivial,
          fun _ => Cache.System.noStale_look hns hstep.2⟩
    | op op => exact replacesUnheld_iff hs hns hstep
  obtain ⟨hns, hexact⟩ := Runs.guarded_exact hinv₀
    (Cache.System.noStale_of_new hnew) hinv hguard h
  exact ⟨hns, fun a t hstep hzero => hexact a t ⟨hzero, hstep⟩⟩

/-- A call on a stocked machine. -/
theorem exists_op_step {N : ℕ} (hwindow : 2 ^ 48 ≤ env.hhdm.toNat) {s : Cpu}
    (op : Op) {m : Machine} (hrun : op.run env p s.store = .ok () m)
    (hm : Stocked env p (InWindow env) N m) :
    ∃ t, sparing env p s (.op op) t ∧ t.store = m ∧ t.held = s.held := by
  let t : Cpu :=
    { store := m
      held := {e ∈ s.held | ¬ (tlb env p).Flushes s.store m e.1}
      replaced := {e | e ∈ s.replaced ∧
          ¬ (tlb env p).Restores s.store m e ∨
        (tlb env p).Replaces s.store op e} }
  have hspares : ZeroesNoTable env p s (.op op) := by
    show ∀ e ∈ (after (op.run env p s.store)).log, _
    rw [hrun]
    exact hm.spares hwindow
  refine ⟨t, ⟨hspares, ⟨hrun, hm.fresh⟩, rfl, rfl⟩, rfl, ?_⟩
  exact Set.ext fun e => ⟨fun h => h.1, fun h => ⟨h, not_flushes _ _ _⟩⟩

/-- A translation that was replaced is served no more. -/
theorem not_serves {s t : Cpu} {op : Op} {l : Leaf}
    (hstep : (tlb env p).step s (.op op) t) (ht : (tlb env p).NoStale t)
    (hl : hwTranslate env p s.store.mem op.vaddr = some l)
    (hne : op.leaf ≠ some l) :
    ¬ (tlb env p).Serves t (pageOf op.vaddr) (some l) := by
  intro hserves
  refine ht _ l hserves ?_
  rw [hstep.2.2]
  exact Or.inr ⟨rfl, (current_pageOf _ _).trans hl, hne⟩

end Runs

/-! ## A page that is mapped, accessed and unmapped -/

/-- Empty tables and an empty TLB. -/
def coldCpu : Cpu := ⟨.start fun _ => 0, ∅, ∅⟩

/-- A page is mapped that the TLB holds nothing of. -/
theorem exists_mapped {s : Cpu} (phys flags : Word)
    (hs : Stocked bumpEnv twoRoots (InWindow bumpEnv) 6 s.store)
    (hN : s.store.taken + 3 ≤ 6) (hheld : s.held = ∅) :
    ∃ t, Runs.Guarded (sparing bumpEnv twoRoots)
        (ReplacesUnheld bumpEnv twoRoots) s
        (.op (.map 0x400000 phys flags)) t ∧
      Stocked bumpEnv twoRoots (InWindow bumpEnv) 6 t.store ∧
      t.store.taken ≤ s.store.taken + 3 ∧ t.held = ∅ ∧
      hwTranslate bumpEnv twoRoots t.store.mem 0x400000 =
        some ⟨0, pageDesc phys flags⟩ := by
  have hroot : UsesOwnRoot 0x400000 := Or.inr (by decide)
  obtain ⟨m, hrun, hm, htaken⟩ := run_stocked supply_bumpEnv hs hN
    (.map 0x400000 phys flags)
  obtain ⟨t, hstep, rfl, hsame⟩ := exists_op_step (by decide) _ hrun hm
  have hguard : ReplacesUnheld bumpEnv twoRoots s
      (.op (.map 0x400000 phys flags)) := by
    intro l _ _
    refine ⟨⟨hroot, fun h => absurd h (Option.some_ne_none _)⟩, ?_⟩
    rw [hheld]
    exact id
  exact ⟨t, ⟨hguard, hstep⟩, hm, htaken, hsame.trans hheld,
    hwTranslate_run_map hs.shaped hrun (hm.clean (by decide)) hroot⟩

/-- A page is mapped, mapped elsewhere and unmapped, and not accessed before
that: no access is served with either translation afterwards. -/
theorem noStale_coldCpu : ∃ s₁ s₂ s₃ : Cpu, ∃ l₁ l₂ : Leaf,
    (tlb bumpEnv twoRoots).step coldCpu (.op (.map 0x400000 0x5000000 0)) s₁ ∧
      hwTranslate bumpEnv twoRoots s₁.store.mem 0x400000 = some l₁ ∧
      (tlb bumpEnv twoRoots).step s₁
        (.op (.map 0x400000 0x6000000 VMM_WRITABLE)) s₂ ∧
      hwTranslate bumpEnv twoRoots s₂.store.mem 0x400000 = some l₂ ∧
      ¬ (tlb bumpEnv twoRoots).Serves s₂ (pageOf 0x400000) (some l₁) ∧
      (tlb bumpEnv twoRoots).step s₂ (.op (.unmap 0x400000)) s₃ ∧
      ¬ (tlb bumpEnv twoRoots).Serves s₃ (pageOf 0x400000) (some l₂) := by
  have hroot : UsesOwnRoot 0x400000 := Or.inr (by decide)
  have hstocked : Stocked bumpEnv twoRoots (InWindow bumpEnv) 6 coldCpu.store :=
    stocked_bumpEnv
  obtain ⟨s₁, hstep₁, hs₁, htaken₁, hheld₁, hl₁⟩ :=
    exists_mapped 0x5000000 0 hstocked (by decide) rfl
  obtain ⟨s₂, hstep₂, hs₂, -, hheld₂, hl₂⟩ :=
    exists_mapped 0x6000000 VMM_WRITABLE hs₁
      (Nat.add_le_add_right htaken₁ 3) hheld₁
  obtain ⟨m, hrun, hm, -⟩ := unmapPage_stocked hs₂ 0x400000
  obtain ⟨s₃, hunmap, -, -⟩ :=
    exists_op_step (by decide) (.unmap 0x400000) hrun hm
  have hguard : ReplacesUnheld bumpEnv twoRoots s₂
      (.op (.unmap 0x400000)) := by
    intro l hl _
    obtain rfl := Option.some.inj (hl.symm.trans hl₂)
    refine ⟨⟨hroot, fun _ => rfl⟩, ?_⟩
    rw [hheld₂]
    exact id
  have hreach₂ : Runs.Reaches (Runs.Guarded (sparing bumpEnv twoRoots)
      (ReplacesUnheld bumpEnv twoRoots)) coldCpu s₂ :=
    .tail (.single ⟨_, hstep₁⟩) ⟨_, hstep₂⟩
  have hother : Op.leaf (.map 0x400000 0x6000000 VMM_WRITABLE) ≠
      some ⟨0, pageDesc 0x5000000 0⟩ := by decide
  have hns₂ := (noStale_exact stocked_bumpEnv.shaped rfl hreach₂).1
  have hns₃ := (noStale_exact stocked_bumpEnv.shaped rfl
    (hreach₂.tail ⟨_, hguard, hunmap⟩)).1
  have hgone₁ := not_serves hstep₂.2.2 hns₂ hl₁ hother
  have hgone₂ := not_serves hunmap.2 hns₃ hl₂ (Option.some_ne_none _).symm
  exact ⟨s₁, s₂, s₃, _, _, hstep₁.2.2, hl₁, hstep₂.2.2, hl₂, hgone₁, hunmap.2,
    hgone₂⟩

/-- Once it has been accessed, it goes on being translated after it was
unmapped. -/
theorem not_noStale_unmapped : ∃ s₁ s₂ s₃ : Cpu, ∃ l : Leaf,
    (tlb bumpEnv twoRoots).step coldCpu (.op (.map 0x400000 0x5000000 0)) s₁ ∧
      (tlb bumpEnv twoRoots).step s₁ (.look (pageOf 0x400000) (some l)) s₂ ∧
      (tlb bumpEnv twoRoots).step s₂ (.op (.unmap 0x400000)) s₃ ∧
      hwTranslate bumpEnv twoRoots s₃.store.mem 0x400000 = none ∧
      (tlb bumpEnv twoRoots).step s₃ (.look (pageOf 0x400000) (some l)) s₃ ∧
      l.addr 0x400123 = 0x5000123 ∧ ¬ (tlb bumpEnv twoRoots).NoStale s₃ := by
  have hroot : UsesOwnRoot 0x400000 := Or.inr (by decide)
  let l : Leaf := ⟨0, pageDesc 0x5000000 0⟩
  have hstocked : Stocked bumpEnv twoRoots (InWindow bumpEnv) 6 coldCpu.store :=
    stocked_bumpEnv
  obtain ⟨s₁, ⟨-, -, hmap⟩, hs₁, -, -, hmapped⟩ :=
    exists_mapped 0x5000000 0 hstocked (by decide) rfl
  -- the access leaves its translation in the TLB
  let s₂ : Cpu := ⟨s₁.store, {e | e = (pageOf 0x400000, l)}, s₁.replaced⟩
  have hcurrent : (tlb bumpEnv twoRoots).current s₁.store (pageOf 0x400000) =
      some l := (current_pageOf _ _).trans hmapped
  have hlook : (tlb bumpEnv twoRoots).step s₁
      (.look (pageOf 0x400000) (some l)) s₂ := by
    refine ⟨Or.inl hcurrent.symm, rfl, rfl, fun e he => Or.inr ?_⟩
    obtain rfl : e = (pageOf 0x400000, l) := he
    exact hcurrent
  obtain ⟨m, hrun, hm, -⟩ := unmapPage_stocked (s := s₂.store) hs₁ 0x400000
  obtain ⟨s₃, ⟨-, hunmap⟩, -, hheld₃⟩ :=
    exists_op_step (s := s₂) (by decide) (.unmap 0x400000) hrun hm
  have hgone : hwTranslate bumpEnv twoRoots s₃.store.mem 0x400000 = none :=
    (hwTranslate_run_unmap hs₁.shaped hunmap.1.1 hroot hmapped).trans
      (if_neg fun h => h rfl)
  have hserves : (tlb bumpEnv twoRoots).Serves s₃ (pageOf 0x400000)
      (some l) := by
    refine Or.inr ⟨l, ?_, rfl⟩
    rw [hheld₃]
    rfl
  refine ⟨s₁, s₂, s₃, l, hmap, hlook, hunmap, hgone,
    ⟨hserves, rfl, rfl, fun e he => Or.inl he⟩, by decide, fun hns => ?_⟩
  refine hns _ l hserves ?_
  rw [hunmap.2.2]
  exact Or.inr ⟨rfl, hcurrent, fun h => Option.some_ne_none l h.symm⟩

end VegaOS
