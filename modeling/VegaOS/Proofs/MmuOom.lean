import VegaOS.Proofs.MmuRefine

/-!
# Out of memory

`next_level` tests the descriptor for 0 after the flag bits have been put into
it, so the test never fires and no call of `aarch64_map_page` panics. When
`pmm_alloc` answers 0, the descriptor `PTE_P | PTE_TBL` is stored, frame 0 is
the next table, and the level-3 entry is written as if nothing had happened.

Nothing is assumed of the tables or of the other answers here.
-/

namespace VegaOS

open ByteMem Trace

/-- The event takes `t` for a table. -/
def Event.Uses (t : Word) (e : Event) : Prop :=
  e = .visit t ∨ ∃ i d, e = .page t i d

/-- How a call of `aarch64_map_page` that runs out of memory is to end. -/
structure OomSafe (r : EStateM.Result String Machine Unit) : Prop where
  panics : ∃ msg s, r = .error msg s
  not_linked : ∀ t i d, .link t i d ∈ (after r).log → d &&& PTE_ADDR_MASK ≠ 0
  not_used : ∀ e ∈ (after r).log, ¬ e.Uses 0
  not_mapped : ∀ t i d, .page t i d ∉ (after r).log

section Oom

variable {env : Env}

/-- `next_level` has been told to link frame 0. -/
def LinksZero (log : List Event) : Prop :=
  ∃ t i d, .link t i d ∈ log ∧ d &&& PTE_ADDR_MASK = 0

theorem LinksZero.mono {α : Type} {x : Kernel α} (hx : Logs x) {s : Machine}
    (h : LinksZero s.log) : LinksZero (after (x s)).log := by
  obtain ⟨t, i, d, hmem, hd⟩ := h
  exact ⟨t, i, d, hx s _ hmem, hd⟩

/-- `next_level` returns on any tables and any answer. An answer of 0 is
linked, and makes frame 0 the level to go on from. -/
theorem nextLevel_oom (s : Machine) (t : Word) (i : Fin 512) :
    ∃ u s', nextLevel env t (BitVec.ofNat 64 i) true s = .ok u s' ∧
      .visit t ∈ s'.log ∧ ∀ m, .alloc 0 m ∈ s'.log →
        .alloc 0 m ∈ s.log ∨ (LinksZero s'.log ∧ u = 0) := by
  cases hentry : linked (table env s.mem t i) with
  | some u =>
      refine ⟨u, _, nextLevel_linked env true hentry, .head _, fun m hm => ?_⟩
      cases hm with
      | tail _ hm => exact Or.inl hm
  | none =>
      refine ⟨_, _, nextLevel_created env hentry,
        .tail _ (.tail _ (.tail _ (.head _))), fun m hm => ?_⟩
      simp only [Machine.created, List.mem_cons, reduceCtorEq, false_or,
        Event.alloc.injEq] at hm
      rcases hm with ⟨hzero, _⟩ | hold
      · have hdesc : (env.frames s.taken ||| PTE_P ||| PTE_TBL) &&&
            PTE_ADDR_MASK = 0 := by
          rw [← hzero]
          decide
        exact Or.inr ⟨⟨t, _, _, .head _, hdesc⟩, by rw [← hzero]; decide⟩
      · exact Or.inl hold

/-- The walk returns, and a frame 0 on the way is visited unless it is where
the walk ends. -/
theorem descend_oom (path : List (Fin 512)) :
    ∀ (s : Machine) (t : Word), ∃ u s', descend env t path s = .ok u s' ∧
      (u = t ∨ .visit t ∈ s'.log) ∧ ∀ m, .alloc 0 m ∈ s'.log →
        .alloc 0 m ∈ s.log ∨
          (LinksZero s'.log ∧ (u = 0 ∨ .visit 0 ∈ s'.log)) := by
  induction path with
  | nil => exact fun s t => ⟨t, s, rfl, Or.inl rfl, fun m hm => Or.inl hm⟩
  | cons i path ih =>
      intro s t
      obtain ⟨u, s₁, hrun, hvisit, hoom⟩ := @nextLevel_oom env s t i
      obtain ⟨w, s₂, hrest, hnext, hoom'⟩ := ih s₁ u
      have hgrows := logs_descend env path u s₁
      rw [hrest] at hgrows
      refine ⟨w, s₂, by rw [descend, run_bind_ok hrun, hrest],
        Or.inr (hgrows _ hvisit), fun m hm => ?_⟩
      rcases hoom' m hm with hmid | hzero
      · rcases hoom m hmid with hold | ⟨⟨t', i', d, hlink, hd⟩, rfl⟩
        · exact Or.inl hold
        · exact Or.inr ⟨⟨t', i', d, hgrows _ hlink, hd⟩, hnext⟩
      · exact Or.inr hzero

/-- Every call returns. One that is told it is out of memory has linked frame
0, used it as a table, and written a level-3 entry. -/
theorem mapPage_oom (p : Pagemap) (v phys flags : Word) (mem : Mem) :
    ∃ s, aarch64MapPage env p v phys flags (.start mem) = .ok () s ∧
      (∃ t i d, .page t i d ∈ s.log) ∧ ∀ m, .alloc 0 m ∈ s.log →
        LinksZero s.log ∧ ∃ e ∈ s.log, e.Uses 0 := by
  obtain ⟨u, s, hrun, _, hoom⟩ := @descend_oom env (keyOf v).path
    (.start mem) (p.ttbr (keyOf v).ttbr)
  have hwrite := writePage_run env s v (pageDesc phys flags) u
  have hpage : .page u (BitVec.ofNat 64 (keyOf v).leaf) (pageDesc phys flags) ∈
      (s.wrote env v (pageDesc phys flags) u).log := by
    simp [Machine.wrote]
  refine ⟨_, by rw [aarch64MapPage_eq, run_bind_ok hrun, hwrite],
    ⟨_, _, _, hpage⟩, fun m hm => ?_⟩
  simp only [Machine.wrote, List.mem_cons, reduceCtorEq, false_or] at hm
  rcases hoom m hm with hnone | ⟨hlink, huse⟩
  · exact absurd hnone List.not_mem_nil
  · have hgrows := logs_writePage env v (pageDesc phys flags) u
    refine ⟨hlink.mono hgrows, ?_⟩
    rcases huse with rfl | hvisit
    · exact ⟨_, hpage, Or.inr ⟨_, _, rfl⟩⟩
    · exact ⟨_, hgrows s _ hvisit, Or.inl rfl⟩

/-- A call that finds level 0 missing asks for a frame. -/
theorem alloc_mem_of_missing {p : Pagemap} {v : Word} (phys flags : Word)
    {mem : Mem} (h : linked (table env mem (p.ttbr (keyOf v).ttbr)
      (keyOf v).upper.1) = none) :
    .alloc (env.frames 0) mem ∈
      (after (aarch64MapPage env p v phys flags (.start mem))).log := by
  have hrun := nextLevel_created (s := .start mem) env h
  have hgrows := fun u => (logs_descend env [(keyOf v).upper.2.1,
    (keyOf v).upper.2.2] u).bind (logs_writePage env v (pageDesc phys flags))
  rw [aarch64MapPage_eq, Key.path, descend, bind_assoc, run_bind_ok hrun]
  exact hgrows _ _ _ (.tail _ (.tail _ (.head _)))

/-- A call that is told it is out of memory never ends as it is to. -/
theorem not_oomSafe (p : Pagemap) (v phys flags : Word) (mem : Mem)
    (hoom : ∃ m, .alloc 0 m ∈
      (after (aarch64MapPage env p v phys flags (.start mem))).log) :
    ¬ OomSafe (aarch64MapPage env p v phys flags (.start mem)) ∧
      ∃ s, aarch64MapPage env p v phys flags (.start mem) = .ok () s ∧
        LinksZero s.log ∧ (∃ e ∈ s.log, e.Uses 0) ∧
        ∃ t i d, .page t i d ∈ s.log := by
  obtain ⟨m, hm⟩ := hoom
  obtain ⟨s, hrun, hpage, hzero⟩ := mapPage_oom p v phys flags mem
  rw [hrun] at hm ⊢
  refine ⟨fun hsafe => ?_, s, rfl, (hzero m hm).1, (hzero m hm).2, hpage⟩
  obtain ⟨_, _, herr⟩ := hsafe.panics
  cases herr

end Oom

/-- A kernel that has no frame left. -/
def noFrames : Env := ⟨0xFFFF800000000000, fun _ => 0⟩

theorem alloc_mem_noFrames :
    .alloc 0 (fun _ => 0) ∈ (after (aarch64MapPage noFrames twoRoots 0x400000
      0x5000000 0 (.start fun _ => 0))).log :=
  alloc_mem_of_missing 0x5000000 0 (linked_table_zero _ _ _)

theorem not_oomSafe_noFrames :
    ¬ OomSafe (aarch64MapPage noFrames twoRoots 0x400000 0x5000000 0
      (.start fun _ => 0)) :=
  (not_oomSafe _ _ _ _ _ ⟨_, alloc_mem_noFrames⟩).1

/-- The first level is missing, there is no frame for it, and the call
returns. -/
theorem mapPage_returns_noFrames : ∃ s,
    .alloc 0 (fun _ => 0) ∈ s.log ∧
      aarch64MapPage noFrames twoRoots 0x400000 0x5000000 0
        (.start fun _ => 0) = .ok () s ∧
      ¬ OomSafe (.ok () s) := by
  obtain ⟨s, hrun, _⟩ := @mapPage_oom noFrames twoRoots 0x400000
    0x5000000 0 fun _ => 0
  have hmem := alloc_mem_noFrames
  rw [hrun] at hmem
  refine ⟨s, hmem, hrun, fun hsafe => ?_⟩
  obtain ⟨_, _, herr⟩ := hsafe.panics
  cases herr

end VegaOS
