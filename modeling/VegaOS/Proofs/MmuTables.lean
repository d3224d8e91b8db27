import VegaOS.Lib.Radix
import VegaOS.Proofs.Bitmap
import VegaOS.Src.Mmu

/-!
# Page tables as a radix tree

The bit-level facts of `mmu.c`, once: what a descriptor links, what
`PTE_ADDR_MASK` keeps of it, what the flags put into it, and how a virtual
address splits into a selector and four indices. After this file a pagemap is
a radix tree of depth three with two roots, and a virtual address is a key.
-/

namespace VegaOS

open ByteMem

/-! ## Frames and descriptors -/

/-- A physical frame a table may live in. -/
structure Frame (t : Word) : Prop where
  ne_zero : t ≠ 0
  aligned : PageAligned t
  lt : t.toNat < 2 ^ 48

instance (t : Word) : Decidable (Frame t) :=
  decidable_of_iff (t ≠ 0 ∧ PageAligned t ∧ t.toNat < 2 ^ 48)
    ⟨fun ⟨hne, hal, hlt⟩ => ⟨hne, hal, hlt⟩,
      fun h => ⟨h.ne_zero, h.aligned, h.lt⟩⟩

theorem or_and_self_right (a b : Word) : (a ||| b) &&& b = b := by
  apply BitVec.eq_of_getLsbD_eq
  intro i _
  rw [BitVec.getLsbD_and, BitVec.getLsbD_or]
  cases a.getLsbD i <;> cases b.getLsbD i <;> rfl

theorem toNat_and_addrMask (x : Word) :
    (x &&& PTE_ADDR_MASK).toNat = x.toNat / 4096 % 2 ^ 36 * 4096 := by
  have hmask : ∀ i, i < 64 →
      PTE_ADDR_MASK.getLsbD i = decide (12 ≤ i ∧ i < 48) := by decide
  have hshift : x &&& PTE_ADDR_MASK =
      ((x >>> 12).setWidth 36).setWidth 64 <<< 12 := by
    apply BitVec.eq_of_getLsbD_eq
    intro i hi
    rw [BitVec.getLsbD_and, hmask i hi]
    simp only [BitVec.getLsbD_shiftLeft, BitVec.getLsbD_setWidth,
      BitVec.getLsbD_ushiftRight]
    by_cases hlo : i < 12
    · simp [hlo, show ¬ 12 ≤ i by omega]
    · by_cases hhi : i < 48
      · simp [hi, hlo, hhi, show 12 ≤ i by omega, show i - 12 < 64 by omega,
          show i - 12 < 36 by omega, show 12 + (i - 12) = i by omega]
      · simp [hhi, show ¬ i - 12 < 36 by omega]
  rw [hshift, BitVec.toNat_shiftLeft, BitVec.toNat_setWidth,
    BitVec.toNat_setWidth, BitVec.toNat_ushiftRight, Nat.shiftLeft_eq,
    Nat.shiftRight_eq_div_pow]
  omega

theorem pageAligned_and_addrMask (x : Word) :
    PageAligned (x &&& PTE_ADDR_MASK) := by
  rw [PageAligned, toNat_and_addrMask]
  exact Nat.mul_mod_left _ _

/-- A page-aligned 48-bit address passes the mask unchanged. -/
theorem and_addrMask_eq_self {t : Word} (ha : PageAligned t)
    (hlt : t.toNat < 2 ^ 48) : t &&& PTE_ADDR_MASK = t := by
  apply BitVec.eq_of_toNat_eq
  rw [toNat_and_addrMask]
  rw [PageAligned] at ha
  omega

theorem Frame.and_addrMask {t : Word} (h : Frame t) : t &&& PTE_ADDR_MASK = t :=
  and_addrMask_eq_self h.aligned h.lt

/-- The table a descriptor links, if it is a table descriptor. -/
def linked (entry : Word) : Option Word :=
  if entry &&& (PTE_P ||| PTE_TBL) = PTE_P ||| PTE_TBL then
    some (entry &&& PTE_ADDR_MASK)
  else none

theorem linked_zero : linked 0 = none := by decide

theorem linked_linkDesc (next : Word) :
    linked (next ||| PTE_P ||| PTE_TBL) = some (next &&& PTE_ADDR_MASK) := by
  rw [linked, BitVec.or_assoc, if_pos (or_and_self_right next _),
    BitVec.and_or_distrib_right]
  congr 1
  exact BitVec.or_zero

theorem linkDesc_ne_zero (next : Word) : next ||| PTE_P ||| PTE_TBL ≠ 0 := by
  intro h
  have hmask := or_and_self_right next (PTE_P ||| PTE_TBL)
  rw [← BitVec.or_assoc, h] at hmask
  exact absurd hmask (by decide)

theorem linked_pageAligned {entry t : Word} (h : linked entry = some t) :
    PageAligned t := by
  rw [linked] at h
  split at h
  · rw [← Option.some.inj h]
    exact pageAligned_and_addrMask entry
  · cases h

/-! ## Level-3 descriptors -/

theorem pteFlags_and (flags m : Word)
    (h : (PTE_P ||| PTE_AF ||| PTE_TBL) &&& m = 0#64) :
    pteFlags flags &&& m =
      (if flags &&& VMM_WRITABLE = 0 then PTE_RO &&& m else 0) |||
        (if flags &&& VMM_EXEC = 0 then PTE_NX &&& m else 0) |||
        (if flags &&& VMM_USER ≠ 0 then PTE_U &&& m else 0) := by
  unfold pteFlags
  dsimp only
  generalize PTE_P ||| PTE_AF ||| PTE_TBL = base at h ⊢
  split <;> split <;> split <;> simp [BitVec.and_or_distrib_right, h]

/-- The part of a level-3 descriptor under a mask that spares the three bits
every descriptor has. -/
theorem pageDesc_and (phys flags m : Word)
    (h : (PTE_P ||| PTE_AF ||| PTE_TBL) &&& m = 0#64) :
    pageDesc phys flags &&& m = (phys &&& m) ||| (pteFlags flags &&& m) := by
  rw [pageDesc, BitVec.and_or_distrib_right, BitVec.and_or_distrib_right, h,
    BitVec.zero_or]

/-- The address in a level-3 descriptor is the one that was asked for. -/
theorem pageDesc_and_addrMask {phys : Word} (ha : PageAligned phys)
    (hlt : phys.toNat < 2 ^ 48) (flags : Word) :
    pageDesc phys flags &&& PTE_ADDR_MASK = phys := by
  have hflags : pteFlags flags &&& PTE_ADDR_MASK = 0#64 := by
    rw [pteFlags_and flags _ (by decide)]
    split <;> split <;> split <;> decide
  rw [pageDesc_and _ _ _ (by decide), hflags, BitVec.or_zero,
    and_addrMask_eq_self ha hlt]

/-- The address leaves the attribute bits alone. -/
theorem pageDesc_and_attr {phys m : Word} (ha : PageAligned phys)
    (hlt : phys.toNat < 2 ^ 48) (flags : Word)
    (hm : (PTE_P ||| PTE_AF ||| PTE_TBL ||| PTE_ADDR_MASK) &&& m = 0#64) :
    pageDesc phys flags &&& m = pteFlags flags &&& m := by
  rw [BitVec.and_or_distrib_right, BitVec.or_eq_zero_iff] at hm
  rw [pageDesc_and _ _ _ hm.1, ← and_addrMask_eq_self ha hlt, BitVec.and_assoc,
    hm.2, BitVec.and_zero, BitVec.zero_or]

/-- The three bits every descriptor has. -/
theorem pageDesc_and_base (phys flags : Word) :
    pageDesc phys flags &&& (PTE_P ||| PTE_AF ||| PTE_TBL) =
      PTE_P ||| PTE_AF ||| PTE_TBL := by
  have hsplit : pageDesc phys flags =
      (phys ||| pteFlags flags) ||| (PTE_P ||| PTE_AF ||| PTE_TBL) := by
    rw [pageDesc]
    ac_rfl
  rw [hsplit, or_and_self_right]

/-- Descriptor `e` is that of a page that may be accessed, and permits what
`flags` asks for, and no more. -/
structure Grants (e flags : Word) : Prop where
  valid : e &&& (PTE_P ||| PTE_AF ||| PTE_TBL) = PTE_P ||| PTE_AF ||| PTE_TBL
  writable : e &&& PTE_RO = 0 ↔ flags &&& VMM_WRITABLE ≠ 0
  user : e &&& PTE_U ≠ 0 ↔ flags &&& VMM_USER ≠ 0
  kernelExec : e &&& PTE_PXN = 0 ↔ flags &&& VMM_EXEC ≠ 0
  userExec : e &&& PTE_UXN = 0 ↔ flags &&& VMM_EXEC ≠ 0

theorem grants_pageDesc {phys : Word} (ha : PageAligned phys)
    (hlt : phys.toNat < 2 ^ 48) (flags : Word) :
    Grants (pageDesc phys flags) flags := by
  have hattr : ∀ m : Word,
      (PTE_P ||| PTE_AF ||| PTE_TBL ||| PTE_ADDR_MASK) &&& m = 0#64 →
      (PTE_P ||| PTE_AF ||| PTE_TBL) &&& m = 0#64 →
      pageDesc phys flags &&& m =
        (if flags &&& VMM_WRITABLE = 0 then PTE_RO &&& m else 0) |||
          (if flags &&& VMM_EXEC = 0 then PTE_NX &&& m else 0) |||
          (if flags &&& VMM_USER ≠ 0 then PTE_U &&& m else 0) :=
    fun m hm hbase => (pageDesc_and_attr ha hlt flags hm).trans
      (pteFlags_and flags m hbase)
  refine ⟨pageDesc_and_base phys flags, ?_, ?_, ?_, ?_⟩
  · rw [hattr _ (by decide) (by decide)]
    split <;> split <;> split <;> simp_all <;> decide
  · rw [hattr _ (by decide) (by decide)]
    split <;> split <;> split <;> simp_all <;> decide
  · rw [hattr _ (by decide) (by decide)]
    split <;> split <;> split <;> simp_all <;> decide
  · rw [hattr _ (by decide) (by decide)]
    split <;> split <;> split <;> simp_all <;> decide

/-! ## Virtual addresses -/

/-- The nine bits of `vaddr` from `shift` on. -/
def indexAt (vaddr : Word) (shift : ℕ) : Fin 512 :=
  ⟨vaddr.toNat / 2 ^ shift % 512, Nat.mod_lt _ (by decide)⟩

theorem levelIndex_eq (vaddr : Word) (shift : ℕ) :
    levelIndex vaddr shift = BitVec.ofNat 64 (indexAt vaddr shift) := by
  apply BitVec.eq_of_toNat_eq
  rw [levelIndex, indexAt, BitVec.toNat_and, BitVec.toNat_ushiftRight,
    BitVec.toNat_ofNat, Nat.shiftRight_eq_div_pow]
  show _ &&& (2 ^ 9 - 1) = _
  rw [Nat.and_two_pow_sub_one_eq_mod]
  show _ = _ % 512 % 2 ^ 64
  omega

/-- Where the functions of `mmu.c` look for an address: the root, the index
at levels 0 to 2, and the index at level 3. -/
structure Key where
  ttbr : Fin 2
  upper : Fin 512 × Fin 512 × Fin 512
  leaf : Fin 512
deriving DecidableEq

/-- The path from the root to the level-3 table. -/
def Key.path (k : Key) : List (Fin 512) := [k.upper.1, k.upper.2.1, k.upper.2.2]

theorem Key.length_path (k : Key) : k.path.length = 3 := rfl

theorem Key.ext_path {k k' : Key} (ht : k.ttbr = k'.ttbr)
    (hp : k.path = k'.path) (hl : k.leaf = k'.leaf) : k = k' := by
  obtain ⟨t, ⟨a, b, c⟩, d⟩ := k
  obtain ⟨t', ⟨a', b', c'⟩, d'⟩ := k'
  simp_all [Key.path]

def keyOf (vaddr : Word) : Key :=
  ⟨ttbrIndex vaddr, (indexAt vaddr 39, indexAt vaddr 30, indexAt vaddr 21),
    indexAt vaddr 12⟩

/-- Bits 47 to 12. -/
def pageBits (vaddr : Word) : BitVec 36 := vaddr.extractLsb' 12 36

theorem pageBits_eq_iff (v w : Word) : pageBits v = pageBits w ↔
    v.toNat / 4096 % 2 ^ 36 = w.toNat / 4096 % 2 ^ 36 := by
  have hbits : ∀ x : Word, (pageBits x).toNat = x.toNat / 4096 % 2 ^ 36 := by
    intro x
    rw [pageBits, BitVec.extractLsb'_toNat, Nat.shiftRight_eq_div_pow]
  rw [← hbits, ← hbits]
  exact ⟨congrArg _, BitVec.eq_of_toNat_eq⟩

/-- A key is the selector together with bits 47 to 12. -/
theorem keyOf_eq_iff (v w : Word) :
    keyOf v = keyOf w ↔
      ttbrIndex v = ttbrIndex w ∧ pageBits v = pageBits w := by
  rw [pageBits_eq_iff]
  simp only [keyOf, Key.mk.injEq, Prod.mk.injEq, indexAt, Fin.mk.injEq]
  constructor
  · rintro ⟨ht, ⟨h0, h1, h2⟩, h3⟩
    exact ⟨ht, by omega⟩
  · rintro ⟨ht, h⟩
    exact ⟨ht, ⟨by omega, by omega, by omega⟩, by omega⟩

/-! ## Tables -/

/-- Entry `i` of the table at `t`, through the window. -/
def table (env : Env) (mem : Mem) (t : Word) (i : Fin 512) : Word :=
  read64 mem (slot env.hhdm t i)

section Tree

variable (env : Env) (p : Pagemap) (mem : Mem)

/-- A table of the pagemap, of any level. -/
def IsTable (t : Word) : Prop :=
  Radix.Reachable linked (table env mem) p.ttbr 3 t

/-- The tables of the pagemap are distinct frames. -/
structure TreeShaped : Prop where
  tree : Radix.IsTree linked (table env mem) p.ttbr 3
  frame : ∀ t, IsTable env p mem t → Frame t

/-- The table that holds the level-3 descriptor of a key, if it exists. -/
def leafTable (k : Key) : Option Word :=
  Radix.walk linked (table env mem) (p.ttbr k.ttbr) k.path

/-- The finite map a pagemap stands for: the level-3 descriptor of every key,
0 where there is no table for it. -/
def view (k : Key) : Word :=
  match leafTable env p mem k with
  | some t => table env mem t k.leaf
  | none => 0

/-- What is assumed of an answer of `pmm_alloc(1)` to `next_level`, given with
memory at the time of the call. -/
structure FreshFrame (next : Word) : Prop where
  frame : Frame next
  unused : ¬ IsTable env p mem next
  /-- the frame reads as zero through the window after the `memset` -/
  zeroed : ∀ x, Span (next + env.hhdm) 4096 x → memset mem next 0 4096 x = 0

/-- The `memset` of `next_level` is at the physical address of the frame. Of a
table, which is in the window, it overwrites nothing but zeros. -/
def SparesTables (next : Word) : Prop :=
  ∀ t, IsTable env p mem t → ∀ x, Span next 4096 x →
    Span (t + env.hhdm) 4096 x → mem x = 0

/-- A fresh frame whose `memset` leaves the tables alone. -/
structure CleanFrame (next : Word) : Prop extends
    FreshFrame env p mem next where
  spares : SparesTables env p mem next

end Tree

/-- Every frame the log says was allocated was fresh. -/
def Event.Fresh (env : Env) (p : Pagemap) : Event → Prop
  | .alloc next mem => FreshFrame env p mem next
  | _ => True

/-- Zeroing it left the tables alone. -/
def Event.Spares (env : Env) (p : Pagemap) : Event → Prop
  | .alloc next mem => SparesTables env p mem next
  | _ => True

def Event.Clean (env : Env) (p : Pagemap) (e : Event) : Prop :=
  e.Fresh env p ∧ e.Spares env p

theorem Event.Clean.frame {env : Env} {p : Pagemap} {next : Word} {mem : Mem}
    (h : (Event.alloc next mem).Clean env p) : CleanFrame env p mem next :=
  ⟨h.1, h.2⟩

/-- The window does not wrap around on a page. -/
def InWindow (env : Env) (t : Word) : Prop :=
  t.toNat + env.hhdm.toNat + 4096 ≤ 2 ^ 64

instance (env : Env) (t : Word) : Decidable (InWindow env t) :=
  inferInstanceAs (Decidable (_ ≤ _))

/-- In a higher-half window that does not wrap around on the tables, `memset`
at a physical address overwrites no table. -/
theorem apart_of_higherHalf {env : Env} {t next : Word}
    (hwindow : 2 ^ 48 ≤ env.hhdm.toNat) (ht : InWindow env t)
    (hnext : PageAligned next) (hlt : next.toNat < 2 ^ 48) :
    Apart next 4096 (t + env.hhdm) 4096 := by
  intro x hx hy
  simp only [Span, PageAligned, InWindow] at *
  generalize env.hhdm = off at *
  bv_omega

/-- At an allocation every table had a property. -/
def Event.Tables (env : Env) (p : Pagemap) (Q : Word → Prop) : Event → Prop
  | .alloc _ mem => ∀ t, IsTable env p mem t → Q t
  | _ => True

/-- In such a window no fresh frame does harm. -/
theorem Event.Fresh.spares {env : Env} {p : Pagemap} {e : Event}
    (hwindow : 2 ^ 48 ≤ env.hhdm.toNat)
    (htables : e.Tables env p (InWindow env)) (h : e.Fresh env p) :
    e.Spares env p := by
  cases e with
  | alloc next mem =>
      intro t ht x hx hy
      have hfresh : FreshFrame env p mem next := h
      exact absurd hy (apart_of_higherHalf hwindow (htables t ht)
        hfresh.frame.aligned hfresh.frame.lt x hx)
  | _ => trivial

end VegaOS
