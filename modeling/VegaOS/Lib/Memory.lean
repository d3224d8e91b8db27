import Mathlib.Algebra.Group.Nat.Defs
import Mathlib.Logic.Function.Basic
import Mathlib.Tactic.Common

/-!
# Byte memory with 64-bit addresses

A memory is a function from 64-bit addresses to bytes, so every address is
backed and address arithmetic wraps. The access widths are a single byte and
little-endian words of 64 and of 32 bits.

Everything a proof asks of such a memory is whether two accesses can meet.
`Span a n` is the set of the `n` addresses from `a` on, wrap-around included;
a word write changes only its own span, a word read depends only on its own
span, and disjoint spans therefore commute past each other. The page lemmas
at the end decide disjointness for the layout a page table has: 4096-byte
pages seen through one constant offset, eight bytes a slot.
-/

namespace ByteMem

abbrev Word := BitVec 64
abbrev Byte := BitVec 8
abbrev Mem := Word → Byte

/-- The `n` addresses from `a` on, modulo the size of the address space. -/
def Span (a : Word) (n : Nat) (x : Word) : Prop := (x - a).toNat < n

instance (a : Word) (n : Nat) (x : Word) : Decidable (Span a n x) :=
  inferInstanceAs (Decidable (_ < _))

/-- Two spans with no address in common. -/
def Apart (a : Word) (n : Nat) (b : Word) (k : Nat) : Prop :=
  ∀ x, Span a n x → ¬ Span b k x

theorem Apart.symm {a b : Word} {n k : Nat} (h : Apart a n b k) :
    Apart b k a n :=
  fun x hb ha => h x ha hb

/-- Shrinking either side keeps two spans apart. -/
theorem Apart.mono {a b a' b' : Word} {n k n' k' : Nat}
    (h : Apart a n b k) (ha : ∀ x, Span a' n' x → Span a n x)
    (hb : ∀ x, Span b' k' x → Span b k x) : Apart a' n' b' k' :=
  fun x hx hy => h x (ha x hx) (hb x hy)

theorem span_self (a : Word) {n : Nat} (hn : 0 < n) : Span a n a := by
  simpa [Span] using hn

theorem span_add (a : Word) {i n : Nat} (hi : i < n) (hn : n ≤ 2 ^ 64) :
    Span a n (a + BitVec.ofNat 64 i) := by
  have h : (a + BitVec.ofNat 64 i - a) = BitVec.ofNat 64 i := by
    rw [BitVec.add_comm, BitVec.add_sub_cancel]
  rw [Span, h, BitVec.toNat_ofNat, Nat.mod_eq_of_lt (by omega)]
  exact hi

/-- A mask of all bits from `k` on clears the bits below. -/
theorem and_highMask {m : Word} {k : Nat}
    (hm : ∀ i : Fin 64, m.getLsbD i = decide (k ≤ (i : Nat))) (x : Word) :
    x &&& m = (x >>> k) <<< k := by
  apply BitVec.eq_of_getLsbD_eq
  intro i hi
  rw [BitVec.getLsbD_and, hm ⟨i, hi⟩, BitVec.getLsbD_shiftLeft,
    BitVec.getLsbD_ushiftRight]
  by_cases h : k ≤ i
  · simp [h, hi, show k + (i - k) = i by omega, show ¬ i < k by omega]
  · simp [h, show i < k by omega]

/-! ## Bytes -/

def store (m : Mem) (a : Word) (b : Byte) : Mem :=
  fun x => if x = a then b else m x

@[simp] theorem store_same (m : Mem) (a : Word) (b : Byte) :
    store m a b a = b := if_pos rfl

theorem store_of_ne (m : Mem) {a x : Word} (b : Byte) (h : x ≠ a) :
    store m a b x = m x := if_neg h

/-! ## Local changes -/

/-- A change that a part of memory keeps to itself: it touches no byte outside,
and what it makes of the bytes inside depends on these alone. -/
structure LocalTo (B : Word → Prop) (f : Mem → Mem) : Prop where
  frame : ∀ m a, ¬ B a → f m a = m a
  congr : ∀ m m', (∀ a, B a → m a = m' a) → ∀ a, B a → f m a = f m' a

namespace LocalTo

variable {B : Word → Prop}

theorem id : LocalTo B fun m => m := ⟨fun _ _ _ => rfl, fun _ _ h => h⟩

/-- What is stored may depend on what was there. -/
theorem store {a : Word} (ha : B a) (v : Byte → Byte) :
    LocalTo B fun m => store m a (v (m a)) where
  frame m x hx := store_of_ne m _ fun heq => hx (heq ▸ ha)
  congr m m' hsame x hx := by
    by_cases heq : x = a
    · rw [heq, store_same, store_same, hsame a ha]
    · rw [store_of_ne m _ heq, store_of_ne m' _ heq]
      exact hsame x hx

theorem comp {f g : Mem → Mem} (hf : LocalTo B f) (hg : LocalTo B g) :
    LocalTo B fun m => g (f m) where
  frame m a ha := (hg.frame _ a ha).trans (hf.frame m a ha)
  congr m m' hsame := hg.congr _ _ (hf.congr m m' hsame)

theorem foldl {α : Type*} {f : Mem → α → Mem} {xs : List α}
    (h : ∀ x ∈ xs, LocalTo B fun m => f m x) :
    LocalTo B fun m => xs.foldl f m := by
  induction xs with
  | nil => exact LocalTo.id
  | cons x xs ih =>
      exact (h x List.mem_cons_self).comp
        (ih fun y hy => h y (List.mem_cons_of_mem x hy))

end LocalTo

/-! ## Words -/

/-- The word with the given bytes, the least significant one first. -/
def ofBytes (b : Nat → Byte) : Word :=
  b 7 ++ b 6 ++ b 5 ++ b 4 ++ b 3 ++ b 2 ++ b 1 ++ b 0

/-- Byte `i` of a word, counted from the least significant one. -/
def byteOf (v : Word) (i : Nat) : Byte := v.extractLsb' (8 * i) 8

theorem ofBytes_congr {b b' : Nat → Byte} (h : ∀ i, i < 8 → b i = b' i) :
    ofBytes b = ofBytes b' := by
  simp only [ofBytes]
  rw [h 0 (by decide), h 1 (by decide), h 2 (by decide), h 3 (by decide),
    h 4 (by decide), h 5 (by decide), h 6 (by decide), h 7 (by decide)]

theorem ofBytes_byteOf (v : Word) : ofBytes (byteOf v) = v := by
  apply BitVec.eq_of_getLsbD_eq
  intro i hi
  simp only [ofBytes, byteOf, BitVec.getLsbD_append, BitVec.getLsbD_extractLsb']
  repeat' split
  all_goals
    rw [decide_eq_true (by omega), Bool.true_and]
    congr 1
    omega

/-- The word whose least significant byte is at `a`. -/
def read64 (m : Mem) (a : Word) : Word :=
  ofBytes fun i => m (a + BitVec.ofNat 64 i)

/-- The memory after `v` is written at `a`, least significant byte first. -/
def write64 (m : Mem) (a v : Word) : Mem :=
  fun x => if (x - a).toNat < 8 then byteOf v (x - a).toNat else m x

theorem write64_of_not_span (m : Mem) {a x : Word} (v : Word)
    (h : ¬ Span a 8 x) : write64 m a v x = m x := if_neg h

/-- A word read looks at its own eight bytes only. -/
theorem read64_congr {m m' : Mem} {a : Word}
    (h : ∀ x, Span a 8 x → m x = m' x) : read64 m a = read64 m' a :=
  ofBytes_congr fun _ hi => h _ (span_add a hi (by decide))

theorem read64_write64_of_apart (m : Mem) {a b : Word} (v : Word)
    (h : Apart a 8 b 8) : read64 (write64 m a v) b = read64 m b :=
  read64_congr fun x hx => write64_of_not_span m v (h.symm x hx)

@[simp] theorem read64_write64 (m : Mem) (a v : Word) :
    read64 (write64 m a v) a = v := by
  have hbyte : ∀ i, i < 8 →
      write64 m a v (a + BitVec.ofNat 64 i) = byteOf v i := by
    intro i hi
    have hi' : (a + BitVec.ofNat 64 i - a).toNat = i := by
      rw [BitVec.add_comm, BitVec.add_sub_cancel, BitVec.toNat_ofNat]
      omega
    rw [write64, if_pos (by omega), hi']
  calc
    read64 (write64 m a v) a = ofBytes (byteOf v) := ofBytes_congr hbyte
    _ = v := ofBytes_byteOf v

/-- Eight zero bytes read as the word zero. -/
theorem read64_eq_zero {m : Mem} {a : Word}
    (h : ∀ x, Span a 8 x → m x = 0) : read64 m a = 0 := by
  have hbyte : ∀ i, i < 8 → m (a + BitVec.ofNat 64 i) = 0 :=
    fun i hi => h _ (span_add a hi (by decide))
  calc
    read64 m a = ofBytes fun _ => 0 := ofBytes_congr hbyte
    _ = 0 := by decide

/-- The memory after the 32-bit `v` is written at `a`, least significant byte
first. -/
def write32 (m : Mem) (a : Word) (v : BitVec 32) : Mem :=
  fun x =>
    if (x - a).toNat < 4 then v.extractLsb' (8 * (x - a).toNat) 8 else m x

theorem write32_of_not_span (m : Mem) {a x : Word} (v : BitVec 32)
    (h : ¬ Span a 4 x) : write32 m a v x = m x := if_neg h

/-- The 32-bit word with the given bytes. -/
def ofBytes32 (b : Nat → Byte) : BitVec 32 := b 3 ++ (b 2 ++ (b 1 ++ b 0))

theorem ofBytes32_congr {b b' : Nat → Byte} (h : ∀ i, i < 4 → b i = b' i) :
    ofBytes32 b = ofBytes32 b' := by
  simp only [ofBytes32]
  rw [h 0 (by decide), h 1 (by decide), h 2 (by decide), h 3 (by decide)]

theorem ofBytes32_extract (v : BitVec 32) :
    ofBytes32 (fun i => v.extractLsb' (8 * i) 8) = v := by
  apply BitVec.eq_of_getLsbD_eq
  intro i hi
  simp only [ofBytes32, BitVec.getLsbD_append, BitVec.getLsbD_extractLsb']
  repeat' split
  all_goals
    rw [decide_eq_true (by omega), Bool.true_and]
    congr 1
    omega

/-- The 32-bit word whose least significant byte is at `a`. -/
def read32 (m : Mem) (a : Word) : BitVec 32 :=
  ofBytes32 fun i => m (a + BitVec.ofNat 64 i)

theorem read32_congr {m m' : Mem} {a : Word}
    (h : ∀ x, Span a 4 x → m x = m' x) : read32 m a = read32 m' a :=
  ofBytes32_congr fun _ hi => h _ (span_add a hi (by decide))

@[simp] theorem read32_write32 (m : Mem) (a : Word) (v : BitVec 32) :
    read32 (write32 m a v) a = v := by
  have hbyte : ∀ i, i < 4 →
      write32 m a v (a + BitVec.ofNat 64 i) = v.extractLsb' (8 * i) 8 := by
    intro i hi
    have hi' : (a + BitVec.ofNat 64 i - a).toNat = i := by
      rw [BitVec.add_comm, BitVec.add_sub_cancel, BitVec.toNat_ofNat]
      omega
    rw [write32, if_pos (by omega), hi']
  calc
    read32 (write32 m a v) a = ofBytes32 fun i => v.extractLsb' (8 * i) 8 :=
      ofBytes32_congr hbyte
    _ = v := ofBytes32_extract v

/-! ## Pages behind an offset

A table is a 4096-byte page at a page-aligned address, seen through one
constant offset, and its slot `i` is the word `8 * i` bytes into it. -/

def PageAligned (t : Word) : Prop := t.toNat % 4096 = 0

instance (t : Word) : Decidable (PageAligned t) :=
  inferInstanceAs (Decidable (_ = _))

def slot (off t : Word) (i : Fin 512) : Word :=
  t + off + 8 * BitVec.ofNat 64 i

/-- A slot lies inside the image of its page. -/
theorem span_page_of_slot {off t : Word} {i : Fin 512} {x : Word}
    (h : Span (slot off t i) 8 x) : Span (t + off) 4096 x := by
  have hi := i.isLt
  simp only [Span, slot] at h ⊢
  generalize (i : Nat) = k at h hi
  bv_omega

/-- Distinct pages have distinct images. -/
theorem page_apart {off t u : Word} (ht : PageAligned t) (hu : PageAligned u)
    (hne : t ≠ u) : Apart (t + off) 4096 (u + off) 4096 := by
  intro x hx hy
  simp only [Span, PageAligned] at *
  bv_omega

/-- Distinct slots never share a byte. -/
theorem slot_apart {off t u : Word} {i j : Fin 512} (ht : PageAligned t)
    (hu : PageAligned u) (hne : ¬ (t = u ∧ i = j)) :
    Apart (slot off t i) 8 (slot off u j) 8 := by
  by_cases htu : t = u
  · subst htu
    have hij : (i : Nat) ≠ j := fun h => hne ⟨rfl, Fin.ext h⟩
    have hi := i.isLt
    have hj := j.isLt
    intro x hx hy
    simp only [Span, slot] at hx hy
    generalize (i : Nat) = k at *
    generalize (j : Nat) = l at *
    bv_omega
  · exact (page_apart ht hu htu).mono (fun _ => span_page_of_slot)
      (fun _ => span_page_of_slot)

/-- The memory with the page at `a` filled with copies of the word `v`. -/
def fillPage (m : Mem) (a v : Word) : Mem :=
  fun x => if Span a 4096 x then byteOf v ((x - a).toNat % 8) else m x

theorem read64_fillPage (m : Mem) (off t v : Word) (i : Fin 512) :
    read64 (fillPage m (t + off) v) (slot off t i) = v := by
  have hbyte : ∀ k, k < 8 →
      fillPage m (t + off) v (slot off t i + BitVec.ofNat 64 k) =
        byteOf v k := by
    intro k hk
    have hi := i.isLt
    have hoff : (slot off t i + BitVec.ofNat 64 k - (t + off)).toNat =
        8 * i + k := by
      simp only [slot]
      generalize (i : Nat) = n at hi ⊢
      bv_omega
    have hspan : Span (t + off) 4096 (slot off t i + BitVec.ofNat 64 k) := by
      rw [Span, hoff]
      omega
    have hmod : (8 * (i : Nat) + k) % 8 = k := by omega
    rw [fillPage, if_pos hspan, hoff, hmod]
  calc
    read64 (fillPage m (t + off) v) (slot off t i) = ofBytes (byteOf v) :=
      ofBytes_congr hbyte
    _ = v := ofBytes_byteOf v

end ByteMem
