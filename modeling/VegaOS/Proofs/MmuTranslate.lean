import VegaOS.Proofs.MmuHardware

/-!
# Translating as the hardware does

`aarch64_translate_vaddr` against the architectural walk, over tables of any
contents. Both follow the same links as long as these lead to tables at
addresses other than 0, so all that can differ is what each makes of the entry
it ends at. The hardware adds the offset, faults at an invalid level-3 entry
and ends at a block; the code reads the address field of whatever it finds at
level 3, and gives up on everything else.
-/

namespace VegaOS

open ByteMem Trace Armv8

/-- The answer that is right for a translation: the output address, or 0 for
a fault. -/
def answer (l : Option Leaf) (v : Word) : Word :=
  (l.map fun l => l.addr v).getD 0

/-- `aarch64_translate_vaddr` answers as the architecture does, which walks
from the same root. -/
def TranslatesRight (env : Env) (p : Pagemap) (v : Word) (s : Machine) :
    Prop :=
  ∃ s', aarch64TranslateVaddr env p v s =
    .ok (answer (walk (table env s.mem) (startTable p v) v) v) s'

/-- A walk that ends so gives 0, or faults. -/
def GivesZero (l : Option Leaf) (v : Word) : Prop := ∀ a ∈ l, a.addr v = 0

/-- The entries on the path from a table are of the kinds that both walks
treat alike. -/
def TreatedAlike (S : Word → Fin 512 → Word) (v : Word) :
    Word → List (Fin 512) → Prop
  | _, [] => True
  | t, [i] =>
      -- a page from its first byte on, or no page and no address in the entry
      if kind (S t i) = 3 then PageAligned v
      else S t i &&& PTE_ADDR_MASK = 0
  | t, i :: j :: path =>
      match nextTable (S t i) with
      | some u =>
          -- the code takes a table at address 0 for a missing one
          if u = 0 then
            GivesZero (Radix.lookup nextTable leafAt S u (j :: path)) v
          else TreatedAlike S v u (j :: path)
      | none => GivesZero (leafAt (path.length + 1) (S t i)) v

/-! ## The two walks -/

theorem answer_eq_zero_iff (l : Option Leaf) (v : Word) :
    0 = answer l v ↔ GivesZero l v := by
  cases l with
  | none => simp [answer, GivesZero]
  | some a => simp [answer, GivesZero, eq_comm]

/-- At level 3. -/
theorem leaf_eq_answer_iff (entry v : Word) :
    entry &&& PTE_ADDR_MASK = answer (leafAt 0 entry) v ↔
      if kind entry = 3 then PageAligned v else entry &&& PTE_ADDR_MASK = 0 := by
  split
  · rename_i hpage
    have hleaf : leafAt 0 entry = some ⟨0, entry⟩ := if_pos (Or.inl ⟨rfl, hpage⟩)
    rw [hleaf, ← BitVec.toNat_inj, toNat_and_addrMask]
    show _ = (Leaf.addr ⟨0, entry⟩ v).toNat ↔ _
    rw [toNat_addr_page, PageAligned]
    omega
  · rename_i hpage
    have hleaf : leafAt 0 entry = none := if_neg (by simp [IsLeaf, hpage])
    rw [hleaf]
    exact Iff.rfl

theorem indices_eq (v : Word) :
    indices v = (keyOf v).path ++ [(keyOf v).leaf] := rfl

theorem softWalk_eq_answer_iff (S : Word → Fin 512 → Word) (v : Word)
    (path : List (Fin 512)) : ∀ t : Word,
      softWalk S t path =
          answer (Radix.lookup nextTable leafAt S t path) v ↔
        TreatedAlike S v t path := by
  induction path with
  | nil => exact fun t => ⟨fun _ => trivial, fun _ => rfl⟩
  | cons i path ih =>
      intro t
      cases path with
      | nil => exact leaf_eq_answer_iff (S t i) v
      | cons j path =>
          rw [softWalk, TreatedAlike, linked_eq_nextTable]
          cases hlink : nextTable (S t i) with
          | none =>
              rw [Radix.lookup_not_linked hlink]
              exact answer_eq_zero_iff _ v
          | some u =>
              rw [Radix.lookup_linked (List.cons_ne_nil j path) hlink]
              by_cases hu : u = 0
              · simp only [if_pos hu]
                exact answer_eq_zero_iff _ v
              · simp only [if_neg hu]
                exact ih u

theorem translatesRight_softWalk {env : Env} {p : Pagemap} {v : Word}
    {s : Machine} :
    TranslatesRight env p v s ↔
      softWalk (table env s.mem) (startTable p v) (indices v) =
        answer (walk (table env s.mem) (startTable p v) v) v := by
  obtain ⟨s₀, hrun, _⟩ := translate_run env p v s
  constructor
  · intro ⟨s', hright⟩
    rw [hrun] at hright
    injection hright
  · intro heq
    refine ⟨s₀, ?_⟩
    rw [hrun, ← indices_eq, heq]

/-- The answer is right exactly where every entry on the path is of a kind
that both walks treat alike. -/
theorem translatesRight_iff (env : Env) (p : Pagemap) (v : Word)
    (s : Machine) :
    TranslatesRight env p v s ↔
      TreatedAlike (table env s.mem) v (startTable p v) (indices v) :=
  translatesRight_softWalk.trans (softWalk_eq_answer_iff _ v _ _)

/-- The code answers `code` where `right` is right. -/
def Misreads (env : Env) (p : Pagemap) (s : Machine) (v code right : Word) :
    Prop :=
  (∃ s', aarch64TranslateVaddr env p v s = .ok code s') ∧
    answer (walk (table env s.mem) (startTable p v) v) v = right ∧
    ¬ TranslatesRight env p v s

theorem misreads_of_ne {env : Env} {p : Pagemap} {s : Machine}
    {v code right : Word}
    (hcode : softWalk (table env s.mem) (startTable p v) (indices v) = code)
    (hright : answer (walk (table env s.mem) (startTable p v) v) v = right)
    (hne : code ≠ right) : Misreads env p s v code right := by
  obtain ⟨s₀, hrun, _⟩ := translate_run env p v s
  refine ⟨⟨s₀, by rw [hrun, ← indices_eq, hcode]⟩, hright, fun h => hne ?_⟩
  rw [← hcode, ← hright]
  exact translatesRight_softWalk.1 h

/-- Four tables, at `0x1000` and up: a page at `0x5000`, next to it an invalid
entry with an address in it, and a block of 1 GiB. -/
def fourTables : Machine :=
  .start (List.foldl (fun mem e => write64 mem e.1 e.2) (fun _ => 0)
    [(0x1000, 0x2003), (0x2000, 0x3003), (0x2008, 0x40000401),
      (0x3000, 0x4003), (0x4000, 0x5403), (0x4008, 0x6000)])

/-- An offset is lost, an invalid entry is taken for a page, and a block for a
fault. -/
theorem misreads_fourTables :
    let env : Env := ⟨0, fun _ => 0⟩
    let p : Pagemap := ⟨fun _ => 0x1000⟩
    Misreads env p fourTables 0x123 0x5000 0x5123 ∧
      Misreads env p fourTables 0x1000 0x6000 0 ∧
      Misreads env p fourTables 0x40001234 0 0x40001234 := by
  intro env p
  refine ⟨misreads_of_ne ?_ ?_ ?_, misreads_of_ne ?_ ?_ ?_,
    misreads_of_ne ?_ ?_ ?_⟩
  all_goals decide +kernel

end VegaOS
