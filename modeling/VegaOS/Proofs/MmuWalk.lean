import VegaOS.Lib.Trace
import VegaOS.Proofs.MmuTables

/-!
# What one call of `next_level` does

`next_level` has three outcomes: the level is there and only read; it is
missing and stays missing; or it is missing and a frame is allocated, zeroed
and linked. Each is one equation about the run, and nothing after this file
unfolds the function.

Under a clean frame the last outcome is a link of the radix tree: the tables
stay tree-shaped, one path is added, and the finite map they stand for does
not change.
-/

namespace VegaOS

open ByteMem Trace

/-! ## The log -/

/-- No run of `x` removes an event from the log. -/
abbrev Logs {α : Type} (x : Kernel α) : Prop := Grows Machine.log x

theorem logs_emit (e : Event) : Logs (emit e) :=
  fun _ _ he => List.mem_cons_of_mem _ he

theorem logs_load (addr : Word) : Logs (load addr) := fun _ _ he => he

theorem logs_storeEntry (env : Env) (event : Word → Word → Word → Event)
    (t index desc : Word) : Logs (storeEntry env event t index desc) :=
  fun _ _ he => List.mem_cons_of_mem _ he

theorem logs_allocFrame (env : Env) : Logs (allocFrame env) :=
  fun _ _ he => List.mem_cons_of_mem _ he

theorem logs_zeroFrame (next : Word) : Logs (zeroFrame next) :=
  fun _ _ he => List.mem_cons_of_mem _ he

theorem logs_invalidatePage (vaddr : Word) : Logs (invalidatePage vaddr) :=
  (logs_emit _).bind fun _ => (logs_emit _).bind fun _ =>
    (logs_emit _).bind fun _ => logs_emit _

theorem logs_createLevel (env : Env) (t index : Word) :
    Logs (createLevel env t index) :=
  (logs_allocFrame env).bind fun _ => (logs_zeroFrame _).bind fun _ =>
    (logs_storeEntry env _ _ _ _).bind fun _ => (logs_load _).bind fun _ =>
      .ite (.throw _) (.pure _)

theorem logs_nextLevel (env : Env) (t index : Word) (alloc : Bool) :
    Logs (nextLevel env t index alloc) :=
  (logs_emit _).bind fun _ => (logs_load _).bind fun _ =>
    .ite (.ite ((logs_createLevel env _ _).bind fun _ =>
      (logs_load _).bind fun _ => .pure _) (.pure _)) (.pure _)

/-! ## Three outcomes -/

section Outcomes

variable (env : Env) {s : Machine} {t : Word} {i : Fin 512}

theorem linked_eq_none {entry : Word} (h : linked entry = none) :
    entry &&& (PTE_P ||| PTE_TBL) ≠ PTE_P ||| PTE_TBL := by
  intro heq
  rw [linked, if_pos heq] at h
  cases h

theorem linked_eq_some {entry u : Word} (h : linked entry = some u) :
    entry &&& (PTE_P ||| PTE_TBL) = PTE_P ||| PTE_TBL ∧
      entry &&& PTE_ADDR_MASK = u := by
  rw [linked] at h
  split at h
  · rename_i hbits
    exact ⟨hbits, Option.some.inj h⟩
  · cases h

/-- The machine after a look into table `t`. -/
def Machine.visited (s : Machine) (t : Word) : Machine :=
  { s with log := .visit t :: s.log }

/-- The machine after a missing level is created below entry `i` of `t`. -/
def Machine.created (env : Env) (s : Machine) (t : Word) (i : Fin 512) :
    Machine :=
  let next := env.frames s.taken
  let desc := next ||| PTE_P ||| PTE_TBL
  { mem := write64 (memset s.mem next 0 4096) (slot env.hhdm t i) desc
    taken := s.taken + 1
    log := .link t (BitVec.ofNat 64 i) desc :: .memset next 4096 ::
      .alloc next s.mem :: .visit t :: s.log }

theorem created_mem (s : Machine) (t : Word) (i : Fin 512) :
    (s.created env t i).mem =
      write64 (memset s.mem (env.frames s.taken) 0 4096) (slot env.hhdm t i)
        (env.frames s.taken ||| PTE_P ||| PTE_TBL) := rfl

theorem allocFrame_run (s : Machine) :
    allocFrame env s = .ok (env.frames s.taken)
      { s with
        taken := s.taken + 1
        log := .alloc (env.frames s.taken) s.mem :: s.log } := rfl

theorem zeroFrame_run (next : Word) (s : Machine) :
    zeroFrame next s = .ok ()
      { s with
        mem := memset s.mem next 0 4096
        log := .memset next 4096 :: s.log } := rfl

theorem storeEntry_run (event : Word → Word → Word → Event)
    (t index desc : Word) (s : Machine) :
    storeEntry env event t index desc s = .ok ()
      { s with
        mem := write64 s.mem (t + env.hhdm + 8 * index) desc
        log := event t index desc :: s.log } := rfl

theorem emit_visit : emit (.visit t) s = .ok () (s.visited t) := rfl

theorem nextLevel_linked {u : Word} (alloc : Bool)
    (h : linked (table env s.mem t i) = some u) :
    nextLevel env t (BitVec.ofNat 64 i) alloc s = .ok u (s.visited t) := by
  obtain ⟨hbits, rfl⟩ := linked_eq_some h
  have hload : load (t + env.hhdm + 8 * BitVec.ofNat 64 i) (s.visited t) =
      .ok (table env s.mem t i) (s.visited t) := rfl
  rw [nextLevel, run_bind_ok emit_visit, run_bind_ok hload,
    if_neg (not_not.2 hbits)]
  rfl

theorem nextLevel_missing (h : linked (table env s.mem t i) = none) :
    nextLevel env t (BitVec.ofNat 64 i) false s = .ok 0 (s.visited t) := by
  have hload : load (t + env.hhdm + 8 * BitVec.ofNat 64 i) (s.visited t) =
      .ok (table env s.mem t i) (s.visited t) := rfl
  rw [nextLevel, run_bind_ok emit_visit, run_bind_ok hload,
    if_pos (linked_eq_none h)]
  rfl

theorem createLevel_run :
    createLevel env t (BitVec.ofNat 64 i) (s.visited t) =
      .ok () (s.created env t i) := by
  have hload : load (t + env.hhdm + 8 * BitVec.ofNat 64 i) (s.created env t i) =
      .ok (env.frames s.taken ||| PTE_P ||| PTE_TBL) (s.created env t i) := by
    show EStateM.Result.ok (read64 _ _) _ = _
    rw [created_mem, slot, read64_write64]
  rw [createLevel, run_bind_ok (allocFrame_run env _),
    run_bind_ok (zeroFrame_run _ _), run_bind_ok (storeEntry_run env _ _ _ _ _)]
  show (load _ >>= _) (s.created env t i) = _
  rw [run_bind_ok hload, if_neg (linkDesc_ne_zero _)]
  rfl

/-- The test for a descriptor of 0 never fires: the two flag bits are in it
whatever `pmm_alloc` answered. -/
theorem nextLevel_created (h : linked (table env s.mem t i) = none) :
    nextLevel env t (BitVec.ofNat 64 i) true s =
      .ok (env.frames s.taken &&& PTE_ADDR_MASK) (s.created env t i) := by
  have hload : load (t + env.hhdm + 8 * BitVec.ofNat 64 i) (s.visited t) =
      .ok (table env s.mem t i) (s.visited t) := rfl
  have hreload : load (t + env.hhdm + 8 * BitVec.ofNat 64 i)
      (s.created env t i) =
        .ok (env.frames s.taken ||| PTE_P ||| PTE_TBL) (s.created env t i) := by
    show EStateM.Result.ok (read64 _ _) _ = _
    rw [created_mem, slot, read64_write64]
  have hmask := linked_eq_some (linked_linkDesc (env.frames s.taken))
  rw [nextLevel, run_bind_ok emit_visit, run_bind_ok hload,
    if_pos (linked_eq_none h)]
  show (createLevel env t (BitVec.ofNat 64 i) >>= _) (s.visited t) = _
  rw [run_bind_ok (createLevel_run env), run_bind_ok hreload, ← hmask.2]
  rfl

end Outcomes

/-! ## Creating a level -/

section Create

variable {env : Env} {p : Pagemap} {s : Machine} {t : Word} {i : Fin 512}
  {r : Fin 2} {q : List (Fin 512)}

/-- Zeroing a clean frame changes no table, and leaves the frame empty. -/
theorem CleanFrame.table_memset {mem : Mem} {next u : Word}
    (h : CleanFrame env p mem next) (hu : IsTable env p mem u) (j : Fin 512) :
    table env (memset mem next 0 4096) u j = table env mem u j := by
  refine read64_congr fun x hx => ?_
  rw [memset_apply]
  split
  · rename_i hin
    exact (h.spares u hu x hin (span_page_of_slot hx)).symm
  · rfl

theorem FreshFrame.table_memset_self {mem : Mem} {next : Word}
    (h : FreshFrame env p mem next) (j : Fin 512) :
    table env (memset mem next 0 4096) next j = 0 :=
  read64_eq_zero fun x hx => h.zeroed x (span_page_of_slot hx)

/-- A store into one entry leaves every other entry alone. -/
theorem table_write_of_ne (mem : Mem) (desc : Word) {u : Word} {j : Fin 512}
    (ht : PageAligned t) (hu : PageAligned u) (hne : ¬ (u = t ∧ j = i)) :
    table env (write64 mem (slot env.hhdm t i) desc) u j =
      table env mem u j :=
  read64_write64_of_apart mem desc
    (slot_apart ht hu fun h => hne ⟨h.1.symm, h.2.symm⟩)

theorem table_write (mem : Mem) (desc : Word) :
    table env (write64 mem (slot env.hhdm t i) desc) t i = desc :=
  read64_write64 _ _ _

/-- The state in which `next_level` is about to link a clean frame into entry
`i` of the table `t`, which is found at the path `q` below the root `r`. -/
structure Creates (env : Env) (p : Pagemap) (s : Machine) (r : Fin 2)
    (q : List (Fin 512)) (t : Word) (i : Fin 512) : Prop where
  shaped : TreeShaped env p s.mem
  clean : CleanFrame env p s.mem (env.frames s.taken)
  above : q.length < 3
  here : Radix.walk linked (table env s.mem) (p.ttbr r) q = some t
  missing : linked (table env s.mem t i) = none

namespace Creates

theorem isTable (h : Creates env p s r q t i) : IsTable env p s.mem t :=
  ⟨r, q, Nat.le_of_lt h.above, h.here⟩

theorem aligned (h : Creates env p s r q t i) : PageAligned t :=
  (h.shaped.frame t h.isTable).aligned

theorem frame_ne (h : Creates env p s r q t i) : env.frames s.taken ≠ t :=
  fun heq => h.clean.unused (heq ▸ h.isTable)

theorem table_new (h : Creates env p s r q t i) (j : Fin 512) :
    table env (s.created env t i).mem (env.frames s.taken) j = 0 := by
  rw [created_mem, table_write_of_ne _ _ h.aligned h.clean.frame.aligned
    fun heq => h.frame_ne heq.1, h.clean.table_memset_self]

theorem links (h : Creates env p s r q t i) :
    Radix.Links linked (table env s.mem) (table env (s.created env t i).mem)
      p.ttbr 3 r q t i (env.frames s.taken) := by
  refine ⟨h.above, h.here, h.missing, h.clean.unused, ?_, ?_, ?_⟩
  · rw [created_mem, table_write, linked_linkDesc,
      h.clean.frame.and_addrMask]
  · intro j
    rw [h.table_new, linked_zero]
  · intro u j hu hslot
    rw [created_mem,
      table_write_of_ne _ _ h.aligned (h.shaped.frame u hu).aligned hslot,
      h.clean.table_memset hu]

theorem treeShaped (h : Creates env p s r q t i) :
    TreeShaped env p (s.created env t i).mem := by
  refine ⟨h.links.isTree h.shaped.tree, fun u hu => ?_⟩
  rcases (h.links.reachable_iff h.shaped.tree u).1 hu with rfl | hold
  · exact h.clean.frame
  · exact h.shaped.frame u hold

theorem walk_new (h : Creates env p s r q t i) (hlen : (q ++ [i]).length ≤ 3) :
    Radix.walk linked (table env (s.created env t i).mem) (p.ttbr r)
      (q ++ [i]) = some (env.frames s.taken) := by
  rw [h.links.walk_eq h.shaped.tree r _ hlen, if_pos ⟨rfl, rfl⟩]

/-- A new table holds zeros, which is what the map held without it. -/
theorem view_eq (h : Creates env p s r q t i) :
    view env p (s.created env t i).mem = view env p s.mem := by
  funext k
  have hlen := Nat.le_of_eq k.length_path
  unfold view leafTable
  rw [h.links.walk_eq h.shaped.tree k.ttbr k.path hlen]
  by_cases hk : k.ttbr = r ∧ k.path = q ++ [i]
  · -- the path of `k` ends in the new table
    have hold : Radix.walk linked (table env s.mem) (p.ttbr k.ttbr) k.path =
        none := by
      rw [hk.1, hk.2, Radix.walk_snoc, h.here]
      exact h.missing
    rw [if_pos hk, hold]
    exact h.table_new k.leaf
  · rw [if_neg hk]
    cases hu : Radix.walk linked (table env s.mem) (p.ttbr k.ttbr) k.path with
    | none => rfl
    | some u =>
        -- a level-3 table is not the one that was linked from
        have hslot : ¬ (u = t ∧ k.leaf = i) := by
          rintro ⟨rfl, -⟩
          have habove := h.above
          have hsame := (h.shaped.tree r q k.ttbr k.path u
            (Nat.le_of_lt habove) hlen h.here hu).2
          rw [hsame, k.length_path] at habove
          exact Nat.lt_irrefl 3 habove
        exact h.links.off u k.leaf ⟨k.ttbr, k.path, hlen, hu⟩ hslot

end Creates

end Create

end VegaOS
