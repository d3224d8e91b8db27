import VegaOS.Lib.Armv8
import VegaOS.Proofs.MmuSelector

/-!
# The tables as the hardware reads them

The hardware finds an address under the root of its half, and it knows blocks.
`lookupAt` is what it finds at a key, and `hwKey` the key it looks at: the one
`mmu.c` uses, but for the root. Mapping and unmapping change `lookupAt` at one
key, unless a block is in the way: then `next_level`, which takes a block for a
missing table, replaces it with an empty one.
-/

namespace VegaOS

open ByteMem Trace Armv8

theorem kind_eq_three_iff (entry : Word) :
    kind entry = 3 ↔ entry &&& (PTE_P ||| PTE_TBL) = PTE_P ||| PTE_TBL := by
  have hmask : (PTE_P ||| PTE_TBL).toNat = 2 ^ 2 - 1 := rfl
  rw [← BitVec.toNat_inj, BitVec.toNat_and, hmask,
    Nat.and_two_pow_sub_one_eq_mod]
  exact Iff.rfl

theorem linked_eq_nextTable (entry : Word) : linked entry = nextTable entry := by
  have haddr : entry &&& PTE_ADDR_MASK =
      BitVec.ofNat 64 (entry.toNat % 2 ^ 48 / 4096 * 4096) := by
    apply BitVec.eq_of_toNat_eq
    rw [toNat_and_addrMask, BitVec.toNat_ofNat]
    omega
  simp only [linked, nextTable, ← kind_eq_three_iff, haddr]

/-- What the hardware finds at a key. -/
def lookupAt (env : Env) (p : Pagemap) (mem : Mem) (k : Key) : Option Leaf :=
  Radix.lookup linked leafAt (table env mem) (p.ttbr k.ttbr)
    (k.path ++ [k.leaf])

/-- The key the hardware looks at. -/
def hwKey (v : Word) : Key := { keyOf v with ttbr := archTtbr v }

/-- What the hardware makes of an address. -/
def hwTranslate (env : Env) (p : Pagemap) (mem : Mem) (v : Word) :
    Option Leaf :=
  Armv8.translate (table env mem) (p.ttbr TTBR0) (p.ttbr TTBR1) v

section Addresses

variable {env : Env} {p : Pagemap} {mem : Mem} {v w : Word}

theorem walk_keyOf (v : Word) (r : Fin 2) :
    walk (table env mem) (p.ttbr r) v =
      lookupAt env p mem { keyOf v with ttbr := r } := by
  rw [walk, lookupAt, show nextTable = linked from
    funext fun entry => (linked_eq_nextTable entry).symm]
  rfl

theorem hwTranslate_canonical (h : Canonical v) :
    hwTranslate env p mem v = lookupAt env p mem (hwKey v) := by
  rw [hwTranslate, Armv8.translate, hwKey, archTtbr]
  rcases h with hlow | hhigh
  · have hnot : ¬ HigherHalf v := by
      unfold LowerHalf HigherHalf at *
      omega
    rw [if_pos (show v.toNat < 2 ^ 48 from hlow), if_neg hnot]
    exact walk_keyOf v 0
  · have hnot : ¬ v.toNat < 2 ^ 48 := by
      unfold HigherHalf at hhigh
      omega
    rw [if_neg hnot, if_pos (show 2 ^ 64 - 2 ^ 48 ≤ v.toNat from hhigh),
      if_pos hhigh]
    exact walk_keyOf v 1

theorem hwTranslate_not_canonical (h : ¬ Canonical v) :
    hwTranslate env p mem v = none := by
  rw [Canonical, not_or] at h
  rw [hwTranslate, Armv8.translate, if_neg (show ¬ v.toNat < 2 ^ 48 from h.1)]
  exact if_neg h.2

/-- The addresses of one page. -/
def SamePage (v w : Word) : Prop := v.toNat / 4096 = w.toNat / 4096

theorem hwKey_eq_iff (hv : Canonical v) (hw : Canonical w) :
    hwKey v = hwKey w ↔ SamePage v w := by
  have hvlt := v.isLt
  have hwlt := w.isLt
  simp only [hwKey, keyOf, Key.mk.injEq, Prod.mk.injEq, indexAt, Fin.mk.injEq,
    archTtbr, selector_eq_iff, SamePage]
  unfold Canonical LowerHalf HigherHalf at *
  omega

/-- Every key is looked at for some address. -/
theorem exists_hwKey (k : Key) : ∃ w, Canonical w ∧ hwKey w = k := by
  obtain ⟨r, ⟨a, b, c⟩, d⟩ := k
  have ha := a.isLt
  have hb := b.isLt
  have hc := c.isLt
  have hd := d.isLt
  obtain ⟨base, hbase⟩ : ∃ base : ℕ, base = 0 ∧ r = TTBR0 ∨
      base = 2 ^ 64 - 2 ^ 48 ∧ r = TTBR1 := by
    revert r
    exact Fin.forall_fin_two.2
      ⟨⟨_, Or.inl ⟨rfl, rfl⟩⟩, ⟨_, Or.inr ⟨rfl, rfl⟩⟩⟩
  let n : ℕ :=
    base + a * 2 ^ 39 + b * 2 ^ 30 + c * 2 ^ 21 + d * 2 ^ 12
  have hn : (BitVec.ofNat 64 n).toNat = n := by
    rw [BitVec.toNat_ofNat]
    exact Nat.mod_eq_of_lt (by omega)
  refine ⟨BitVec.ofNat 64 n, ?_, ?_⟩
  · unfold Canonical LowerHalf HigherHalf
    rw [hn]
    omega
  · simp only [hwKey, keyOf, indexAt, archTtbr, HigherHalf, hn, Key.mk.injEq,
      Prod.mk.injEq, Fin.ext_iff]
    refine ⟨?_, ⟨by omega, by omega, by omega⟩, by omega⟩
    rcases hbase with ⟨_, rfl⟩ | ⟨_, rfl⟩
    · rw [if_neg (by omega)]
    · rw [if_pos (by omega)]

end Addresses

/-! ## What changes -/

section Change

variable {env : Env} {p : Pagemap}

/-- The hardware's walk along a key ends at a block. -/
def EndsAtBlock (env : Env) (p : Pagemap) (mem : Mem) (k : Key) : Prop :=
  ∃ l, lookupAt env p mem k = some l ∧ l.height ≠ 0

/-- Where there is a level-3 table, its entry decides. -/
theorem lookupAt_of_leafTable {mem : Mem} {k : Key} {t : Word}
    (h : leafTable env p mem k = some t) :
    lookupAt env p mem k = leafAt 0 (table env mem t k.leaf) :=
  Radix.lookup_append (List.cons_ne_nil _ []) h

/-- Where there is none, an entry above decides, for every page under it. -/
theorem lookupAt_of_missing {mem : Mem} {k : Key} {t : Word} {i : Fin 512}
    {q rest : List (Fin 512)} (hpath : k.path = q ++ i :: rest)
    (hwalk : Radix.walk linked (table env mem) (p.ttbr k.ttbr) q = some t)
    (hmissing : linked (table env mem t i) = none) :
    lookupAt env p mem k = leafAt (rest.length + 1) (table env mem t i) := by
  rw [lookupAt, hpath, List.append_assoc, List.cons_append,
    Radix.lookup_append (List.cons_ne_nil i _) hwalk,
    Radix.lookup_not_linked hmissing, List.length_append,
    List.length_singleton]

theorem height_of_leafAt {height : ℕ} {desc : Word} {l : Leaf}
    (h : leafAt height desc = some l) : l.height = height := by
  rw [leafAt] at h
  split at h
  · rw [← Option.some.inj h]
  · cases h

/-- A walk that ends at no block stops at nothing where a level is missing. -/
theorem leafAt_eq_none {mem : Mem} {k : Key} {t : Word} {i : Fin 512}
    {q rest : List (Fin 512)} (hblock : ¬ EndsAtBlock env p mem k)
    (hpath : k.path = q ++ i :: rest)
    (hwalk : Radix.walk linked (table env mem) (p.ttbr k.ttbr) q = some t)
    (hmissing : linked (table env mem t i) = none) :
    leafAt (rest.length + 1) (table env mem t i) = none := by
  rw [← lookupAt_of_missing hpath hwalk hmissing]
  refine Option.eq_none_iff_forall_ne_some.2 fun l hl => hblock ⟨l, hl, ?_⟩
  rw [lookupAt_of_missing hpath hwalk hmissing] at hl
  rw [height_of_leafAt hl]
  exact Nat.succ_ne_zero _

theorem leafTable_of_block {mem : Mem} {k : Key}
    (hblock : EndsAtBlock env p mem k) : leafTable env p mem k = none := by
  obtain ⟨l, hl, hheight⟩ := hblock
  refine Option.eq_none_iff_forall_ne_some.2 fun t ht => hheight ?_
  rw [lookupAt_of_leafTable ht] at hl
  exact height_of_leafAt hl

/-- Away from blocks the hardware finds what the map holds. -/
theorem lookupAt_eq_view {mem : Mem} {k : Key}
    (hblock : ¬ EndsAtBlock env p mem k) :
    lookupAt env p mem k = leafAt 0 (view env p mem k) := by
  cases hleaf : leafTable env p mem k with
  | some t => rw [lookupAt_of_leafTable hleaf, view_of_leafTable hleaf]
  | none =>
      obtain ⟨q, i, rest, t, hpath, hwalk, hmissing⟩ :=
        Radix.exists_missing hleaf
      have hzero : view env p mem k = 0 := by rw [view, hleaf]
      rw [lookupAt_of_missing hpath hwalk hmissing,
        leafAt_eq_none hblock hpath hwalk hmissing, hzero, leafAt_zero]

/-- Linking an empty table where there was nothing changes nothing. -/
theorem Creates.lookupAt_eq {s : Machine} {r : Fin 2} {q : List (Fin 512)}
    {t : Word} {i : Fin 512} (h : Creates env p s r q t i) {k : Key}
    (hnone : k.ttbr = r →
      leafAt (3 - q.length) (table env s.mem t i) = none) :
    lookupAt env p (s.created env t i).mem k = lookupAt env p s.mem k := by
  have hlen : (k.path ++ [k.leaf]).length = 3 + 1 := rfl
  have hempty : ∀ height j, leafAt height
      (table env (s.created env t i).mem (env.frames s.taken) j) = none :=
    fun height j => by rw [h.table_new, leafAt_zero]
  unfold lookupAt
  rw [h.links.lookup_eq h.shaped.tree hempty k.ttbr hlen]
  split
  · rename_i hthrough
    obtain ⟨hr, rest, hpath⟩ := hthrough
    have hrest : rest.length = 3 - q.length := by
      rw [← hpath, List.length_append, List.length_append,
        List.length_singleton] at hlen
      omega
    rw [← hpath, List.append_assoc, hr,
      Radix.lookup_append (by simp) h.here, List.singleton_append,
      Radix.lookup_not_linked h.missing, hrest, hnone hr]
  · rfl

/-- The walk to the level-3 table of `k`: unless it ends at a block, the
hardware finds what it found, and under the other root it does so anyway. -/
theorem descend_lookupAt {k k' : Key} {s : Machine}
    (htree : TreeShaped env p s.mem)
    (hblock : k'.ttbr = k.ttbr → ¬ EndsAtBlock env p s.mem k)
    (hclean : ∀ e ∈ (after (descend env (p.ttbr k.ttbr) k.path s)).log,
      e.Clean env p) :
    ∃ u s', descend env (p.ttbr k.ttbr) k.path s = .ok u s' ∧
      TreeShaped env p s'.mem ∧ leafTable env p s'.mem k = some u ∧
      lookupAt env p s'.mem k' = lookupAt env p s.mem k' := by
  let P : Machine → List (Fin 512) → Prop := fun s₁ _ =>
    lookupAt env p s₁.mem k' = lookupAt env p s.mem k' ∧
      (k'.ttbr = k.ttbr → ¬ EndsAtBlock env p s₁.mem k)
  have hstep : ∀ {s₁ : Machine} {q : List (Fin 512)} {t : Word} {i : Fin 512}
      {rest : List (Fin 512)}, k.path = q ++ i :: rest →
      Creates env p s₁ k.ttbr q t i → P s₁ q →
        P (s₁.created env t i) (q ++ [i]) := by
    intro s₁ q t i rest hpath hcreate ⟨hsame, hblock₁⟩
    have hlen : q.length + (rest.length + 1) = 3 := by
      rw [← k.length_path, hpath, List.length_append, List.length_cons]
    have hnone : k'.ttbr = k.ttbr →
        leafAt (3 - q.length) (table env s₁.mem t i) = none := by
      intro hr
      rw [show 3 - q.length = rest.length + 1 by omega]
      exact leafAt_eq_none (hblock₁ hr) hpath hcreate.here hcreate.missing
    refine ⟨(hcreate.lookupAt_eq hnone).trans hsame, fun hr => ?_⟩
    rw [EndsAtBlock, hcreate.lookupAt_eq fun _ => hnone hr]
    exact hblock₁ hr
  obtain ⟨u, s', hrun, htree', hleaf, hP⟩ :=
    descend_induct (P := P) k.length_path (fun _ _ hP => hP) hstep k.path rfl
      htree ⟨rfl, hblock⟩ Radix.walk_nil hclean
  exact ⟨u, s', hrun, htree', hleaf, hP.1⟩

/-- Writing a level-3 entry changes what is found at its key. -/
theorem lookupAt_write_leaf {mem : Mem} (htree : TreeShaped env p mem)
    {k : Key} {t : Word} (hleaf : leafTable env p mem k = some t)
    (desc : Word) :
    lookupAt env p (write64 mem (slot env.hhdm t k.leaf) desc) =
      Function.update (lookupAt env p mem) k (leafAt 0 desc) := by
  funext k'
  have hlen : (k'.path ++ [k'.leaf]).length = 3 + 1 := rfl
  have hoff := (walk_write_leaf htree hleaf desc).1
  have hkey : k'.ttbr = k.ttbr ∧ k'.path ++ [k'.leaf] = k.path ++ [k.leaf] ↔
      k' = k := by
    constructor
    · intro ⟨ht, hpath⟩
      obtain ⟨hp, hl⟩ := List.append_inj' hpath rfl
      exact Key.ext_path ht hp (by simpa using hl)
    · rintro rfl
      exact ⟨rfl, rfl⟩
  unfold lookupAt
  rw [Radix.lookup_write_bottom htree.tree k.length_path hleaf hoff k'.ttbr
    hlen, table_write]
  by_cases hk : k' = k
  · rw [if_pos (hkey.2 hk), hk, Function.update_self]
  · rw [if_neg (mt hkey.1 hk), Function.update_of_ne hk]

theorem leafAt_pageDesc (phys flags : Word) :
    leafAt 0 (pageDesc phys flags) = some ⟨0, pageDesc phys flags⟩ := by
  have hsplit : pageDesc phys flags =
      (PTE_AF ||| phys ||| pteFlags flags) ||| (PTE_P ||| PTE_TBL) := by
    rw [pageDesc]
    ac_rfl
  have hkind : kind (pageDesc phys flags) = 3 := by
    rw [kind_eq_three_iff, hsplit, or_and_self_right]
  exact if_pos (Or.inl ⟨rfl, hkind⟩)

section Map

variable {s : Machine} {v phys flags : Word}

/-- The page that was mapped. -/
theorem mapPage_lookupAt_self (htree : TreeShaped env p s.mem)
    (hclean : ∀ e ∈ (after (aarch64MapPage env p v phys flags s)).log,
      e.Clean env p) :
    lookupAt env p (after (aarch64MapPage env p v phys flags s)).mem
      (keyOf v) = some ⟨0, pageDesc phys flags⟩ := by
  obtain ⟨s', hrun, _, hview⟩ := mapPage_spec htree v phys flags hclean
  have hself : view env p s'.mem (keyOf v) = pageDesc phys flags := by
    rw [hview, Function.update_self]
  obtain ⟨t, hleaf, hdesc⟩ := exists_leafTable hself
  rw [hrun, after_ok, lookupAt_of_leafTable hleaf, hdesc, leafAt_pageDesc]

/-- Every other one. -/
theorem mapPage_lookupAt_of_ne (htree : TreeShaped env p s.mem)
    (hclean : ∀ e ∈ (after (aarch64MapPage env p v phys flags s)).log,
      e.Clean env p) {k : Key} (hne : k ≠ keyOf v)
    (hblock : k.ttbr = (keyOf v).ttbr → ¬ EndsAtBlock env p s.mem (keyOf v)) :
    lookupAt env p (after (aarch64MapPage env p v phys flags s)).mem k =
      lookupAt env p s.mem k := by
  rw [aarch64MapPage_eq] at hclean ⊢
  have hwalk := of_after_bind (logs_writePage env v _) hclean
  obtain ⟨t, s', hok, htree', hleaf, hsame⟩ :=
    descend_lookupAt htree hblock hwalk
  rw [run_bind_ok hok, writePage_run, after_ok, wrote_mem,
    lookupAt_write_leaf htree' hleaf, Function.update_of_ne hne, hsame]

/-- The neighbours of a page in a block lose their translation. -/
theorem mapPage_lookupAt_block (htree : TreeShaped env p s.mem)
    (hclean : ∀ e ∈ (after (aarch64MapPage env p v phys flags s)).log,
      e.Clean env p) (hblock : EndsAtBlock env p s.mem (keyOf v))
    {i : Fin 512} (hi : i ≠ (keyOf v).leaf) :
    lookupAt env p s.mem { keyOf v with leaf := i } ≠ none ∧
      lookupAt env p (after (aarch64MapPage env p v phys flags s)).mem
        { keyOf v with leaf := i } = none := by
  let k : Key := { keyOf v with leaf := i }
  have hne : k ≠ keyOf v := fun heq => hi (congrArg Key.leaf heq)
  have hmiss := leafTable_of_block hblock
  have hnone : leafTable env p s.mem k = none := hmiss
  constructor
  · obtain ⟨l, hl, _⟩ := hblock
    obtain ⟨q, j, rest, t, hpath, hwalk, hmissing⟩ :=
      Radix.exists_missing hnone
    have hsame := lookupAt_of_missing (k := keyOf v) hpath hwalk hmissing
    rw [lookupAt_of_missing (k := k) hpath hwalk hmissing, ← hsame, hl]
    exact Option.some_ne_none l
  · obtain ⟨s', hrun, _, hview⟩ := mapPage_spec htree v phys flags hclean
    have hself : view env p s'.mem (keyOf v) = pageDesc phys flags := by
      rw [hview, Function.update_self]
    obtain ⟨t, hleaf, _⟩ := exists_leafTable hself
    have hleaf' : leafTable env p s'.mem k = some t := hleaf
    have hzero : table env s'.mem t i = 0 := by
      rw [← view_of_leafTable hleaf', hview, Function.update_of_ne hne, view,
        hnone]
    rw [hrun, after_ok, lookupAt_of_leafTable hleaf', hzero, leafAt_zero]

end Map

section Unmap

variable {s : Machine} {v : Word}

theorem unmapPage_lookupAt (htree : TreeShaped env p s.mem)
    (hblock : ¬ EndsAtBlock env p s.mem (keyOf v)) :
    lookupAt env p (after (aarch64UnmapPage env p v s)).mem =
      Function.update (lookupAt env p s.mem) (keyOf v) none := by
  obtain ⟨s', hrun, hmem⟩ := unmapPage_run htree v
  rw [hrun, after_ok]
  rcases hmem with ⟨hmem, hzero⟩ | ⟨t, hleaf, hmem⟩
  · have hnone := lookupAt_eq_view hblock
    rw [hzero, leafAt_zero] at hnone
    rw [hmem, Function.update_eq_self_iff.2 hnone.symm]
  · rw [hmem, lookupAt_write_leaf htree hleaf, leafAt_zero]

/-- A block is taken for a missing level. -/
theorem unmapPage_lookupAt_block (htree : TreeShaped env p s.mem)
    (hblock : EndsAtBlock env p s.mem (keyOf v)) :
    lookupAt env p (after (aarch64UnmapPage env p v s)).mem =
      lookupAt env p s.mem := by
  obtain ⟨s', hrun, hmem⟩ := unmapPage_run htree v
  rw [hrun, after_ok]
  rcases hmem with ⟨hmem, _⟩ | ⟨t, hleaf, _⟩
  · rw [hmem]
  · rw [leafTable_of_block hblock] at hleaf
    cases hleaf

end Unmap

end Change

end VegaOS
