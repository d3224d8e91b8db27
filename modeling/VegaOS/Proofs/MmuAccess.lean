import VegaOS.Lib.Armv8Access
import VegaOS.Proofs.MmuTlb

/-!
# What the processor lets a program do

From page tables to accesses: which exception level may read, write or execute
at an address, and at which physical address it then does. A run of
`aarch64_map_page` and `aarch64_unmap_page` decides what a walk of the tables
makes of an address by its last call on the slot the hardware reads, and by
nothing else. What a call grants is what its flags say, but for two things:
`VMM_EXEC` lets EL0 execute a page of the kernel as well, and keeps EL1 from
executing one that EL0 may write.

The tables on the way restrict nothing, as long as none did to begin with.
Whether the top byte of an address counts is left open: `aarch64_mmu_init`
writes a `TCR_EL1` with which it does not.
-/

namespace VegaOS

open ByteMem Trace Armv8

/-! ## Plain tables -/

/-- Every table descriptor of the pagemap leaves the permissions to the
page. -/
def PlainTables (env : Env) (p : Pagemap) (mem : Mem) : Prop :=
  Radix.EveryLink linked Plain (table env mem) p.ttbr 3

theorem getLsbD_eq_false_of_lt {x : Word} {n : ℕ} (hx : x.toNat < 2 ^ n)
    {i : ℕ} (hi : n ≤ i) : x.getLsbD i = false := by
  rw [← BitVec.testBit_toNat]
  exact Nat.testBit_lt_two_pow
    (Nat.lt_of_lt_of_le hx (Nat.pow_le_pow_right (by decide) hi))

theorem plain_linkDesc {next : Word} (h : Frame next) :
    Plain (next ||| PTE_P ||| PTE_TBL) := by
  have hbit : ∀ i, 48 ≤ i → next.getLsbD i = false := fun i =>
    getLsbD_eq_false_of_lt h.lt
  have hflag : ∀ i, i = 59 ∨ i = 60 ∨ i = 61 ∨ i = 62 →
      (next ||| PTE_P ||| PTE_TBL).getLsbD i = false := by
    intro i hi
    rw [BitVec.getLsbD_or, BitVec.getLsbD_or, hbit i (by omega)]
    rcases hi with rfl | rfl | rfl | rfl
    · rfl
    · rfl
    · rfl
    · rfl
  exact ⟨hflag 59 (by simp), hflag 60 (by simp), hflag 61 (by simp),
    hflag 62 (by simp)⟩

section Plain

variable {env : Env} {p : Pagemap} {s : Machine}

theorem Creates.plain {r : Fin 2} {q : List (Fin 512)} {t : Word} {i : Fin 512}
    (h : Creates env p s r q t i) (hplain : PlainTables env p s.mem) :
    PlainTables env p (s.created env t i).mem := by
  refine Radix.EveryLink.links hplain h.shaped.tree h.links ?_
  rw [created_mem, table_write]
  exact plain_linkDesc h.clean.frame

theorem plain_write_leaf {mem : Mem} (htree : TreeShaped env p mem)
    (hplain : PlainTables env p mem) {k : Key} {t : Word}
    (hleaf : leafTable env p mem k = some t) (desc : Word) :
    PlainTables env p (write64 mem (slot env.hhdm t k.leaf) desc) :=
  Radix.EveryLink.write_bottom hplain htree.tree k.length_path hleaf
    (walk_write_leaf htree hleaf desc).1

/-- Mapping keeps the tables plain, and so does unmapping. -/
theorem run_plain (htree : TreeShaped env p s.mem)
    (hplain : PlainTables env p s.mem) (op : Op)
    (hclean : ∀ e ∈ (after (op.run env p s)).log, e.Clean env p) :
    PlainTables env p (after (op.run env p s)).mem := by
  cases op with
  | map v phys flags =>
      rw [Op.run, aarch64MapPage_eq] at hclean ⊢
      obtain ⟨t, s', hrun, htree', hleaf, hplain'⟩ :=
        descend_induct (P := fun s' _ => PlainTables env p s'.mem)
          (keyOf v).length_path (fun _ _ h => h) (fun _ hnew h => hnew.plain h)
          (keyOf v).path rfl htree hplain Radix.walk_nil
          (of_after_bind (logs_writePage env v _) hclean)
      rw [run_bind_ok hrun, writePage_run, after_ok, wrote_mem]
      exact plain_write_leaf htree' hplain' hleaf _
  | unmap v =>
      obtain ⟨s', hrun, hmem⟩ := unmapPage_run htree v
      rw [Op.run, hrun, after_ok]
      rcases hmem with ⟨hmem, _⟩ | ⟨t, hleaf, hmem⟩
      · rwa [hmem]
      · rw [hmem]
        exact plain_write_leaf htree hplain hleaf 0

end Plain

/-! ## What is found after a run -/

/-- What a call leaves is a page. -/
theorem Op.height_of_leaf {op : Op} {l : Leaf} (h : op.leaf = some l) :
    l.height = 0 := by
  cases op with
  | map v phys flags => rw [← Option.some.inj h]
  | unmap v => cases h

section Runs

variable {env : Env} {p : Pagemap}

/-- One call, unless a block is in its way, changes what is found at its key
and nowhere else. -/
theorem run_lookupAt {s : Machine} (htree : TreeShaped env p s.mem) (op : Op)
    (hblock : ¬ EndsAtBlock env p s.mem op.key)
    (hclean : ∀ e ∈ (after (op.run env p s)).log, e.Clean env p) :
    lookupAt env p (after (op.run env p s)).mem =
      Function.update (lookupAt env p s.mem) op.key op.leaf := by
  cases op with
  | map v phys flags =>
      funext k
      by_cases hk : k = keyOf v
      · rw [hk, Op.key, Op.vaddr, Function.update_self, Op.leaf]
        exact mapPage_lookupAt_self htree hclean
      · rw [Op.key, Op.vaddr, Function.update_of_ne hk]
        exact mapPage_lookupAt_of_ne htree hclean hk fun _ => hblock
  | unmap v => exact unmapPage_lookupAt htree hblock

/-- A page is not a block. -/
theorem endsAtBlock_of_update {mem mem' : Mem} {op : Op}
    (h : lookupAt env p mem' =
      Function.update (lookupAt env p mem) op.key op.leaf) {k : Key}
    (hblock : EndsAtBlock env p mem' k) : EndsAtBlock env p mem k := by
  obtain ⟨l, hl, hheight⟩ := hblock
  rw [h] at hl
  by_cases hk : k = op.key
  · rw [hk, Function.update_self] at hl
    exact absurd (Op.height_of_leaf hl) hheight
  · rw [Function.update_of_ne hk] at hl
    exact ⟨l, hl, hheight⟩

/-- From plain tables, with no block in the way of a call: after the run they
are plain, and the last call on a key decides what is found there. -/
theorem runOps_lookupAt (ops : List Op) : ∀ {s : Machine},
    TreeShaped env p s.mem → PlainTables env p s.mem →
    (∀ op ∈ ops, ¬ EndsAtBlock env p s.mem op.key) →
    (∀ e ∈ (after (runOps env p ops s)).log, e.Clean env p) →
    ∃ s', runOps env p ops s = .ok () s' ∧ PlainTables env p s'.mem ∧
      lookupAt env p s'.mem =
        Updates.applyAll Op.key Op.leaf (lookupAt env p s.mem) ops := by
  induction ops with
  | nil => exact fun {s} _ hplain _ _ => ⟨s, rfl, hplain, rfl⟩
  | cons op ops ih =>
      intro s htree hplain hblocks hclean
      rw [runOps] at hclean ⊢
      have hfirst := of_after_bind (fun _ => logs_runOps ops) hclean
      obtain ⟨s₁, hrun, htree₁, -⟩ := run_spec htree op hfirst
      have hplain₁ := run_plain htree hplain op hfirst
      have hlookup₁ := run_lookupAt htree op (hblocks op List.mem_cons_self)
        hfirst
      rw [hrun, after_ok] at hplain₁ hlookup₁
      rw [run_bind_ok hrun] at hclean ⊢
      obtain ⟨s₂, hrun₂, hplain₂, hlookup₂⟩ := ih htree₁ hplain₁
        (fun op' hop' hblock => hblocks op' (List.mem_cons_of_mem op hop')
          (endsAtBlock_of_update hlookup₁ hblock)) hclean
      exact ⟨s₂, hrun₂, hplain₂, by rw [hlookup₂, hlookup₁]; rfl⟩

end Runs

/-! ## Accesses -/

/-- The access of an exception level at an address, by a walk of the tables. -/
def hwAccess (env : Env) (p : Pagemap) (mem : Mem) (tbi : Bool) (v : Word)
    (level : Level) (use : Use) : Option Word :=
  Armv8.access (table env mem) (p.ttbr TTBR0) (p.ttbr TTBR1) tbi v level use

/-- The access that what is found allows. -/
def leafAccess (v : Word) (level : Level) (use : Use) (l : Leaf) :
    Option Word :=
  if accessed l.desc && (rights [] l.desc).allow level use then some (l.addr v)
  else none

section Access

variable {env : Env} {p : Pagemap} {mem : Mem}

theorem plain_tablesTo (hplain : PlainTables env p mem) (v : Word) :
    ∀ t ∈ tablesTo (table env mem) (p.ttbr TTBR0) (p.ttbr TTBR1) v,
      Plain t := by
  have htrail : ∀ r, ∀ t ∈ trail (table env mem) (p.ttbr r) v, Plain t := by
    intro r t ht
    rw [trail, show nextTable = linked from
      funext fun entry => (linked_eq_nextTable entry).symm] at ht
    have hlen : ([] : List (Fin 512)).length +
        [field v 39, field v 30, field v 21].length ≤ 3 := Nat.le_refl 3
    exact hplain.trail Radix.walk_nil hlen t ht
  rw [tablesTo]
  split
  · exact htrail 0
  · exact htrail 1

/-- In plain tables an access depends on what is found. -/
theorem hwAccess_canonical (hplain : PlainTables env p mem) {tbi : Bool}
    {v : Word} (hv : Canonical (effective tbi v)) (level : Level) (use : Use) :
    hwAccess env p mem tbi v level use =
      (lookupAt env p mem (hwKey (effective tbi v))).bind
        (leafAccess (effective tbi v) level use) := by
  rw [hwAccess, Armv8.access, ← hwTranslate_canonical hv, hwTranslate]
  simp only [rights_plain (plain_tablesTo hplain _)]
  rfl

theorem hwAccess_not_canonical {tbi : Bool} {v : Word}
    (hv : ¬ Canonical (effective tbi v)) (level : Level) (use : Use) :
    hwAccess env p mem tbi v level use = none := by
  rw [hwAccess, Armv8.access, ← hwTranslate, hwTranslate_not_canonical hv]
  rfl

end Access

/-! ## What a page allows -/

/-- What the flags of a call let each exception level do. -/
def Permits (flags : Word) : Level → Use → Prop
  | .el0, .read => flags &&& VMM_USER ≠ 0
  | .el0, .write => flags &&& VMM_USER ≠ 0 ∧ flags &&& VMM_WRITABLE ≠ 0
  | .el0, .execute => flags &&& VMM_EXEC ≠ 0
  | .el1, .read => True
  | .el1, .write => flags &&& VMM_WRITABLE ≠ 0
  | .el1, .execute => flags &&& VMM_EXEC ≠ 0 ∧
      (flags &&& VMM_USER = 0 ∨ flags &&& VMM_WRITABLE = 0)

instance (flags : Word) (level : Level) (use : Use) :
    Decidable (Permits flags level use) := by
  cases level <;> cases use <;> unfold Permits <;> infer_instance

theorem getLsbD_ite_or (c : Prop) [Decidable c] (x y : Word) (i : ℕ) :
    (if c then x ||| y else x).getLsbD i =
      (x.getLsbD i || (decide c && y.getLsbD i)) := by
  split
  · rename_i h
    rw [BitVec.getLsbD_or, decide_eq_true h, Bool.true_and]
  · rename_i h
    rw [decide_eq_false h, Bool.false_and, Bool.or_false]

theorem getLsbD_pteFlags (flags : Word) (i : ℕ) :
    (pteFlags flags).getLsbD i =
      ((PTE_P ||| PTE_AF ||| PTE_TBL).getLsbD i ||
        (decide (flags &&& VMM_WRITABLE = 0) && PTE_RO.getLsbD i) ||
        (decide (flags &&& VMM_EXEC = 0) && PTE_NX.getLsbD i) ||
        (decide (flags &&& VMM_USER ≠ 0) && PTE_U.getLsbD i)) := by
  unfold pteFlags
  dsimp only
  rw [getLsbD_ite_or, getLsbD_ite_or, getLsbD_ite_or]

section Page

variable {phys : Word} (ha : PageAligned phys) (hlt : phys.toNat < 2 ^ 48)
variable (flags : Word)
include ha hlt

/-- The bits of a page descriptor around its address. -/
theorem getLsbD_pageDesc {i : ℕ} (hi : i < 12 ∨ 48 ≤ i) :
    (pageDesc phys flags).getLsbD i = (pteFlags flags).getLsbD i := by
  have hphys : phys.getLsbD i = false := by
    rcases hi with hlow | hhigh
    · have hmod := Nat.testBit_mod_two_pow phys.toNat 12 i
      rw [PageAligned] at ha
      rw [show phys.toNat % 2 ^ 12 = 0 from ha, Nat.zero_testBit,
        decide_eq_true hlow, Bool.true_and] at hmod
      exact hmod.symm
    · exact getLsbD_eq_false_of_lt hlt hhigh
  rw [pageDesc, BitVec.getLsbD_or, BitVec.getLsbD_or, hphys, Bool.or_false,
    getLsbD_pteFlags, ← Bool.or_assoc, ← Bool.or_assoc, ← Bool.or_assoc,
    Bool.or_self]

theorem rights_pageDesc : rights [] (pageDesc phys flags) =
    ⟨decide (flags &&& VMM_USER ≠ 0), decide (flags &&& VMM_WRITABLE = 0),
      decide (flags &&& VMM_EXEC = 0), decide (flags &&& VMM_EXEC = 0)⟩ := by
  rw [rights, Rights.mk.injEq]
  simp only [List.all_nil, List.any_nil, Bool.and_true, Bool.or_false]
  have hbit : ∀ i, i < 12 ∨ 48 ≤ i → _ := fun i hi =>
    (getLsbD_pageDesc ha hlt flags hi).trans (getLsbD_pteFlags flags i)
  rw [hbit 6 (by decide), hbit 7 (by decide), hbit 54 (by decide),
    hbit 53 (by decide)]
  generalize decide (flags &&& VMM_WRITABLE = 0) = readOnly
  generalize decide (flags &&& VMM_EXEC = 0) = never
  generalize decide (flags &&& VMM_USER ≠ 0) = user
  revert readOnly never user
  decide

theorem accessed_pageDesc : accessed (pageDesc phys flags) = true := by
  rw [accessed, getLsbD_pageDesc ha hlt flags (by decide), getLsbD_pteFlags]
  rfl

theorem addr_pageDesc (v : Word) : Leaf.addr ⟨0, pageDesc phys flags⟩ v =
    phys + BitVec.ofNat 64 (v.toNat % 4096) := by
  have hdesc := toNat_and_addrMask (pageDesc phys flags)
  rw [pageDesc_and_addrMask ha hlt] at hdesc
  apply BitVec.eq_of_toNat_eq
  rw [toNat_addr_page, BitVec.toNat_add, BitVec.toNat_ofNat]
  omega

/-- A page allows what the flags of its call permit. -/
theorem access_pageDesc (v : Word) (level : Level) (use : Use) :
    leafAccess v level use ⟨0, pageDesc phys flags⟩ =
      if Permits flags level use then
        some (phys + BitVec.ofNat 64 (v.toNat % 4096))
      else none := by
  rw [leafAccess, accessed_pageDesc ha hlt, rights_pageDesc ha hlt,
    addr_pageDesc ha hlt, Bool.true_and]
  refine if_congr ?_ rfl rfl
  cases level <;> cases use <;> simp [Rights.allow, Permits]

end Page

/-! ## Runs -/

/-- The last call on the slot the hardware reads for `w`: its root is the one
of `w`'s half, and bits 47 to 12 agree. -/
def lastAt (ops : List Op) (w : Word) : Option Op :=
  ops.reverse.find? fun op =>
    ttbrIndex op.vaddr = archTtbr w ∧ pageBits op.vaddr = pageBits w

theorem lastAt_eq (ops : List Op) (w : Word) :
    lastAt ops w = Updates.last Op.key ops (hwKey w) := by
  have hkey : ∀ op : Op, (ttbrIndex op.vaddr = archTtbr w ∧
      pageBits op.vaddr = pageBits w) ↔ op.key = hwKey w := by
    intro op
    rw [pageBits_eq_iff]
    simp only [Op.key, hwKey, keyOf, Key.mk.injEq, Prod.mk.injEq, indexAt,
      Fin.mk.injEq]
    omega
  simp only [lastAt, Updates.last, hkey]

/-- The access an operation leaves at an address. -/
def Op.access (w : Word) (level : Level) (use : Use) : Op → Option Word
  | .map _ phys flags =>
      if Permits flags level use then
        some (phys + BitVec.ofNat 64 (w.toNat % 4096))
      else none
  | .unmap _ => none

theorem Op.Valid.leaf_access {op : Op} (h : op.Valid) (w : Word)
    (level : Level) (use : Use) :
    op.leaf.bind (leafAccess w level use) = op.access w level use := by
  cases op with
  | map v phys flags => exact access_pageDesc h.1 h.2 flags w level use
  | unmap v => rfl

/-- From any plain tables, over any run of calls with no block in their way,
on fresh frames that are zeroed over no table: at every address, what a walk
lets an exception level do and where is what the last call on the address's slot
permits, and what it was before if there was none. -/
theorem runOps_access {env : Env} {p : Pagemap} {mem : Mem} {ops : List Op}
    (htree : TreeShaped env p mem) (hplain : PlainTables env p mem)
    (hblocks : ∀ op ∈ ops, ¬ EndsAtBlock env p mem op.key)
    (hops : ∀ op ∈ ops, op.Valid)
    (hfresh : ∀ e ∈ (after (runOps env p ops (.start mem))).log,
      e.Fresh env p)
    (hspares : ∀ e ∈ (after (runOps env p ops (.start mem))).log,
      e.Spares env p) :
    ∃ s, runOps env p ops (.start mem) = .ok () s ∧
      ∀ tbi w level use,
        (Canonical (effective tbi w) → hwAccess env p s.mem tbi w level use =
          match lastAt ops (effective tbi w) with
          | some op => op.access (effective tbi w) level use
          | none => hwAccess env p mem tbi w level use) ∧
        (¬ Canonical (effective tbi w) →
          hwAccess env p s.mem tbi w level use = none) := by
  obtain ⟨s, hrun, hplain', hlookup⟩ :=
    runOps_lookupAt ops (s := .start mem) htree hplain hblocks
      fun e he => ⟨hfresh e he, hspares e he⟩
  refine ⟨s, hrun, fun tbi w level use => ⟨fun hw => ?_, fun hw =>
    hwAccess_not_canonical hw level use⟩⟩
  rw [hwAccess_canonical hplain' hw, hlookup, Updates.applyAll_eq_last,
    ← lastAt_eq]
  cases hlast : lastAt ops (effective tbi w) with
  | none => exact (hwAccess_canonical hplain hw level use).symm
  | some op =>
      rw [lastAt_eq] at hlast
      exact (hops op (Updates.mem_of_last hlast).1).leaf_access _ level use

/-! ## Empty tables -/

theorem plain_of_empty {env : Env} {p : Pagemap} {mem : Mem}
    (hempty : ∀ r i, linked (table env mem (p.ttbr r) i) = none) :
    PlainTables env p mem := by
  intro r q t i _ hwalk hlink
  obtain ⟨rfl, rfl⟩ := walk_empty hempty hwalk
  rw [hempty] at hlink
  cases hlink

theorem lookupAt_zero (env : Env) (p : Pagemap) (k : Key) :
    lookupAt env p (fun _ => 0) k = none := by
  have hpath : k.path = [] ++ k.upper.1 :: [k.upper.2.1, k.upper.2.2] := rfl
  rw [lookupAt_of_missing hpath Radix.walk_nil (linked_table_zero _ _ _), table,
    read64_eq_zero fun _ _ => rfl, leafAt_zero]

/-- A page that is mapped again, for execution: EL0 may execute it, though the
page is not `VMM_USER`, and EL1 may no longer write to it. The page has other
addresses where the top byte is ignored. -/
theorem runOps_access_remap : ∃ s,
    runOps bumpEnv twoRoots remap (.start fun _ => 0) = .ok () s ∧
      hwAccess bumpEnv twoRoots s.mem false 0x400123 .el0 .execute =
        some 0x6000123 ∧
      hwAccess bumpEnv twoRoots s.mem false 0x400123 .el0 .read = none ∧
      hwAccess bumpEnv twoRoots s.mem false 0x400123 .el1 .write = none ∧
      hwAccess bumpEnv twoRoots s.mem true 0x5A00000000400123 .el0 .execute =
        some 0x6000123 ∧
      hwAccess bumpEnv twoRoots s.mem false 0x5A00000000400123 .el0 .execute =
        none := by
  have hvalid : ∀ op ∈ remap, op.Valid := by
    simp [remap, Op.Valid, PageAligned]
  have hblocks : ∀ op ∈ remap,
      ¬ EndsAtBlock bumpEnv twoRoots (fun _ => 0) op.key := by
    intro op _ hblock
    obtain ⟨l, hl, -⟩ := hblock
    rw [lookupAt_zero] at hl
    cases hl
  obtain ⟨s, hrun, hs⟩ := runOps_stocked supply_bumpEnv remap stocked_bumpEnv
    (by decide)
  have hafter : after (runOps bumpEnv twoRoots remap (.start fun _ => 0)) =
      s := by
    rw [hrun, after_ok]
  obtain ⟨s', hrun', hall⟩ := runOps_access stocked_bumpEnv.shaped
    (plain_of_empty fun _ _ => linked_table_zero _ _ _) hblocks hvalid
    (hafter ▸ hs.fresh) (hafter ▸ hs.spares (by decide))
  have hcanonical : ∀ tbi, Canonical (effective tbi 0x400123) := by
    intro tbi
    cases tbi <;> exact Or.inl (by decide)
  exact ⟨s', hrun', (hall false 0x400123 .el0 .execute).1 (hcanonical false),
    (hall false 0x400123 .el0 .read).1 (hcanonical false),
    (hall false 0x400123 .el1 .write).1 (hcanonical false),
    (hall true 0x5A00000000400123 .el0 .execute).1 (hcanonical true),
    (hall false 0x5A00000000400123 .el0 .execute).2
      (not_or.2 ⟨by decide, by decide⟩)⟩

end VegaOS
