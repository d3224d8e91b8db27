import VegaOS.Proofs.MmuRefine

/-!
# Which root an address selects

The selector mask covers bits 63 to 37, so it sends an address to TTBR1 from
`2 ^ 37` on, while the lower half reaches up to `2 ^ 48`. Addresses in between
are looked up under the wrong root, and there they meet the addresses of the
higher half that agree with them in the low 48 bits. Everywhere else distinct
pages have distinct slots, and the functions of `mmu.c` leave each other's
addresses alone.
-/

namespace VegaOS

open ByteMem Trace

/-- Bits 63 to 48 are all 0. -/
def LowerHalf (v : Word) : Prop := v.toNat < 2 ^ 48

/-- Bits 63 to 48 are all 1. -/
def HigherHalf (v : Word) : Prop := 2 ^ 64 - 2 ^ 48 ≤ v.toNat

instance (v : Word) : Decidable (LowerHalf v) :=
  inferInstanceAs (Decidable (_ < _))

instance (v : Word) : Decidable (HigherHalf v) :=
  inferInstanceAs (Decidable (_ ≤ _))

def Canonical (v : Word) : Prop := LowerHalf v ∨ HigherHalf v

/-- The translation table base register the architecture uses. -/
def archTtbr (v : Word) : Fin 2 := if HigherHalf v then TTBR1 else TTBR0

theorem ttbrIndex_eq (v : Word) :
    ttbrIndex v = if 2 ^ 37 ≤ v.toNat then 1 else 0 := by
  have hmask : v &&& (0x7FFFFFF#64 <<< 37) = (v >>> 37) <<< 37 :=
    and_highMask (by decide) v
  have hnat : ((v >>> 37) <<< 37).toNat = v.toNat / 2 ^ 37 * 2 ^ 37 := by
    have hlt := v.isLt
    rw [BitVec.toNat_shiftLeft, BitVec.toNat_ushiftRight, Nat.shiftLeft_eq,
      Nat.shiftRight_eq_div_pow]
    omega
  rw [ttbrIndex, hmask]
  by_cases h : 2 ^ 37 ≤ v.toNat
  · rw [if_pos h, if_pos]
    intro hzero
    rw [hzero] at hnat
    have : (0 : Word).toNat = 0 := rfl
    omega
  · rw [if_neg h, if_neg]
    rw [not_not]
    apply BitVec.eq_of_toNat_eq
    rw [hnat]
    show _ = 0
    omega

theorem selector_eq_iff (c d : Prop) [Decidable c] [Decidable d] :
    (if c then (1 : Fin 2) else 0) = (if d then 1 else 0) ↔ (c ↔ d) := by
  split <;> split <;> simp_all

section Separate

variable {env : Env} {p : Pagemap}

/-- Distinct keys have distinct level-3 slots. -/
theorem slot_ne_of_key_ne {mem : Mem} (htree : TreeShaped env p mem)
    {k k' : Key} (hne : k ≠ k') {t t' : Word}
    (ht : leafTable env p mem k = some t)
    (ht' : leafTable env p mem k' = some t') :
    slot env.hhdm t k.leaf ≠ slot env.hhdm t' k'.leaf := by
  have htab : IsTable env p mem t := ⟨k.ttbr, k.path, Nat.le_refl 3, ht⟩
  have htab' : IsTable env p mem t' := ⟨k'.ttbr, k'.path, Nat.le_refl 3, ht'⟩
  have hdiff : ¬ (t = t' ∧ k.leaf = k'.leaf) := by
    rintro ⟨rfl, hl⟩
    have hsame := htree.tree k.ttbr k.path k'.ttbr k'.path t (Nat.le_refl 3)
      (Nat.le_refl 3) ht ht'
    exact hne (Key.ext_path hsame.1 hsame.2 hl)
  have hapart : Apart (slot env.hhdm t k.leaf) 8
      (slot env.hhdm t' k'.leaf) 8 :=
    slot_apart (htree.frame t htab).aligned (htree.frame t' htab').aligned hdiff
  intro heq
  rw [heq] at hapart
  have hself := span_self (slot env.hhdm t' k'.leaf) (n := 8) (by decide)
  exact hapart _ hself hself

/-- A call on another key leaves a translation alone. -/
theorem translate_run_of_key_ne {s : Machine} (htree : TreeShaped env p s.mem)
    {w : Word} (op : Op) (hne : op.key ≠ keyOf w)
    (hclean : ∀ e ∈ (after (op.run env p s)).log, e.Clean env p) :
    ∃ x s' s₀ s₁, op.run env p s = .ok () s' ∧
      aarch64TranslateVaddr env p w s = .ok x s₀ ∧
      aarch64TranslateVaddr env p w s' = .ok x s₁ := by
  obtain ⟨s', hrun, htree', hview⟩ := run_spec htree op hclean
  obtain ⟨s₀, hbefore⟩ := translate_spec htree w
  obtain ⟨s₁, hafter⟩ := translate_spec htree' w
  rw [hview, Function.update_of_ne (Ne.symm hne)] at hafter
  exact ⟨_, s', s₀, s₁, hrun, hbefore, hafter⟩

end Separate

/-- What is expected of a call on its page and another one: the page is found
under the root its half is translated through, the two are found in different
places, and the call does not change what the other one translates to. -/
structure SlotsSeparate (env : Env) (p : Pagemap) (s : Machine) (op : Op)
    (w : Word) : Prop where
  root : op.key.ttbr = archTtbr op.vaddr
  key_ne : op.key ≠ keyOf w
  slot_ne : ∀ t t', leafTable env p s.mem op.key = some t →
    leafTable env p s.mem (keyOf w) = some t' →
    slot env.hhdm t op.key.leaf ≠ slot env.hhdm t' (keyOf w).leaf
  frame : ∃ x s' s₀ s₁, op.run env p s = .ok () s' ∧
    aarch64TranslateVaddr env p w s = .ok x s₀ ∧
    aarch64TranslateVaddr env p w s' = .ok x s₁

theorem key_separate_iff {v w : Word} (hw : Canonical w)
    (hva : PageAligned v) (hwa : PageAligned w) (hne : v ≠ w) :
    (keyOf v).ttbr = archTtbr v ∧ keyOf v ≠ keyOf w ↔
      (HigherHalf v ∨ v.toNat < 2 ^ 37) ∧
        ¬ (HigherHalf v ∧ LowerHalf w ∧ 2 ^ 37 ≤ w.toNat ∧
          v.toNat % 2 ^ 48 = w.toNat % 2 ^ 48) := by
  have hne' : v.toNat ≠ w.toNat := fun h => hne (BitVec.eq_of_toNat_eq h)
  have hvlt := v.isLt
  have hwlt := w.isLt
  rw [ne_eq, keyOf_eq_iff, pageBits_eq_iff]
  show ttbrIndex v = archTtbr v ∧ _ ↔ _
  rw [ttbrIndex_eq, ttbrIndex_eq, archTtbr, selector_eq_iff, selector_eq_iff]
  unfold Canonical LowerHalf HigherHalf at *
  unfold PageAligned at hva hwa
  omega

/-- In any state of the tables, with fresh frames that are zeroed over no
table: a call on `v` keeps `w` apart exactly when `v` is in the higher half or
below `2 ^ 37`, and `w` is not its neighbour in the lower half above that. -/
theorem slotsSeparate_iff {env : Env} {p : Pagemap} {s : Machine} {op : Op}
    {w : Word} (htree : TreeShaped env p s.mem)
    (hfresh : ∀ e ∈ (after (op.run env p s)).log, e.Fresh env p)
    (hspares : ∀ e ∈ (after (op.run env p s)).log, e.Spares env p)
    (hw : Canonical w) (hva : PageAligned op.vaddr) (hwa : PageAligned w)
    (hne : op.vaddr ≠ w) :
    SlotsSeparate env p s op w ↔
      (HigherHalf op.vaddr ∨ op.vaddr.toNat < 2 ^ 37) ∧
        ¬ (HigherHalf op.vaddr ∧ LowerHalf w ∧ 2 ^ 37 ≤ w.toNat ∧
          op.vaddr.toNat % 2 ^ 48 = w.toNat % 2 ^ 48) := by
  rw [← key_separate_iff hw hva hwa hne]
  constructor
  · exact fun h => ⟨h.root, h.key_ne⟩
  · intro ⟨hroot, hkey⟩
    exact ⟨hroot, hkey, fun _ _ => slot_ne_of_key_ne htree hkey,
      translate_run_of_key_ne htree op hkey
        fun e he => ⟨hfresh e he, hspares e he⟩⟩

/-- The first page of the higher half and a page at 4 MiB, on empty tables. -/
theorem slotsSeparate_4MiB : SlotsSeparate bumpEnv twoRoots
    (.start fun _ => 0) (.map 0xFFFF800000000000 0x5000000 0) 0x400000 := by
  obtain ⟨s, hrun, hs, -⟩ := run_stocked supply_bumpEnv stocked_bumpEnv
    (by decide) (.map 0xFFFF800000000000 0x5000000 0)
  have hafter : after (Op.run bumpEnv twoRoots
      (.map 0xFFFF800000000000 0x5000000 0) (.start fun _ => 0)) = s := by
    rw [hrun, after_ok]
  exact (slotsSeparate_iff stocked_bumpEnv.shaped (hafter ▸ hs.fresh)
    (hafter ▸ hs.spares (by decide)) (Or.inl (by decide)) (by decide)
    (by decide) (by decide)).2 (by decide)

/-- Two canonical pages of different halves with one key: mapping the one maps
the other. -/
theorem not_slotsSeparate_2_37 :
    HigherHalf 0xFFFF002000000000 ∧ LowerHalf 0x2000000000 ∧
      ¬ SlotsSeparate bumpEnv twoRoots (.start fun _ => 0)
        (.map 0xFFFF002000000000 0x5000000 0) 0x2000000000 ∧
      ∃ s s₀ s₁,
        aarch64MapPage bumpEnv twoRoots 0xFFFF002000000000 0x5000000 0
          (.start fun _ => 0) = .ok () s ∧
        aarch64TranslateVaddr bumpEnv twoRoots 0x2000000000
          (.start fun _ => 0) = .ok 0 s₀ ∧
        aarch64TranslateVaddr bumpEnv twoRoots 0x2000000000 s =
          .ok 0x5000000 s₁ := by
  have hkey : keyOf 0xFFFF002000000000 = keyOf 0x2000000000 := by decide
  obtain ⟨s, hrun, hs, _⟩ := mapPage_stocked supply_bumpEnv stocked_bumpEnv
    (by decide) 0xFFFF002000000000 0x5000000 0
  have hclean : ∀ e ∈ (after (aarch64MapPage bumpEnv twoRoots
      0xFFFF002000000000 0x5000000 0 (.start fun _ => 0))).log,
        e.Clean bumpEnv twoRoots := by
    rw [hrun]
    exact hs.clean (by decide)
  obtain ⟨s', hrun', htree, hview⟩ := mapPage_spec stocked_bumpEnv.shaped
    0xFFFF002000000000 0x5000000 0 hclean
  rw [hrun] at hrun'
  cases hrun'
  obtain ⟨s₀, hbefore⟩ := translate_spec stocked_bumpEnv.shaped 0x2000000000
  obtain ⟨s₁, hafter⟩ := translate_spec htree 0x2000000000
  rw [hview, ← hkey, Function.update_self] at hafter
  have hzero : view bumpEnv twoRoots (fun _ => 0) (keyOf 0x2000000000) = 0 := by
    rw [view, leafTable, Key.path, Radix.walk_cons]
    rw [show table bumpEnv (fun _ => 0) _ _ = 0 from
      read64_eq_zero fun _ _ => rfl]
    rfl
  refine ⟨by decide, by decide, fun h => h.key_ne hkey, s, s₀, s₁, hrun,
    hbefore.trans ?_, hafter.trans ?_⟩
  · show EStateM.Result.ok (view bumpEnv twoRoots (fun _ => 0) _ &&& _) _ = _
    rw [hzero]
    rfl
  · rfl

end VegaOS
