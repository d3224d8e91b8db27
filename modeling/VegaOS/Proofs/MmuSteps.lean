import VegaOS.Lib.Updates
import VegaOS.Proofs.MmuWalk

/-!
# Mapping, unmapping, translating

`view` reads a pagemap as a map from keys to level-3 descriptors.
`aarch64_map_page` and `aarch64_unmap_page` update that map at the key of
their address and nowhere else, whatever levels they have to create, and
`aarch64_translate_vaddr` reads it.
-/

namespace VegaOS

open ByteMem Trace

/-! ## Mapping -/

/-- The walk of `aarch64_map_page`: one call of `next_level` an index. -/
def descend (env : Env) (t : Word) : List (Fin 512) → Kernel Word
  | [] => pure t
  | i :: path => nextLevel env t (BitVec.ofNat 64 i) true >>= fun u =>
      descend env u path

theorem logs_descend (env : Env) (path : List (Fin 512)) :
    ∀ t, Logs (descend env t path) := by
  induction path with
  | nil => exact fun t => .pure t
  | cons i path ih => exact fun t => (logs_nextLevel env t _ true).bind ih

/-- `pte[index] = desc` and the invalidation that follows it. -/
def writePage (env : Env) (vaddr desc t : Word) : Kernel Unit :=
  storeEntry env .page t (BitVec.ofNat 64 (keyOf vaddr).leaf) desc >>= fun _ =>
    invalidatePage vaddr

/-- The machine after a level-3 descriptor is written. -/
def Machine.wrote (env : Env) (s : Machine) (vaddr desc t : Word) : Machine :=
  let i := (keyOf vaddr).leaf
  { s with
    mem := write64 s.mem (slot env.hhdm t i) desc
    log := .insn .isb :: .insn .dsbIsh :: .insn (.dcIsw (vaddr >>> 12)) ::
      .insn .dsbIsh :: .page t (BitVec.ofNat 64 i) desc :: s.log }

theorem writePage_run (env : Env) (s : Machine) (vaddr desc t : Word) :
    writePage env vaddr desc t s = .ok () (s.wrote env vaddr desc t) := rfl

theorem wrote_mem (env : Env) (s : Machine) (vaddr desc t : Word) :
    (s.wrote env vaddr desc t).mem =
      write64 s.mem (slot env.hhdm t (keyOf vaddr).leaf) desc := rfl

theorem logs_writePage (env : Env) (vaddr desc t : Word) :
    Logs (writePage env vaddr desc t) :=
  (logs_storeEntry env _ _ _ _).bind fun _ => logs_invalidatePage vaddr

theorem aarch64MapPage_eq (env : Env) (p : Pagemap) (v phys flags : Word) :
    aarch64MapPage env p v phys flags =
      descend env (p.ttbr (keyOf v).ttbr) (keyOf v).path >>= fun t =>
        writePage env v (pageDesc phys flags) t := by
  simp [aarch64MapPage, descend, writePage, levelIndex_eq, keyOf, Key.path]

/-- A walk returns, and takes at most a frame a level. -/
theorem descend_taken (env : Env) (path : List (Fin 512)) :
    ∀ (s : Machine) (t : Word), ∃ u s', descend env t path s = .ok u s' ∧
      s'.taken ≤ s.taken + path.length := by
  induction path with
  | nil => exact fun s t => ⟨t, s, rfl, Nat.le_refl _⟩
  | cons i path ih =>
      intro s t
      cases hentry : linked (table env s.mem t i) with
      | some u =>
          obtain ⟨w, s', hrun, htaken⟩ := ih (s.visited t) u
          rw [descend, run_bind_ok (nextLevel_linked env true hentry)]
          exact ⟨w, s', hrun, Nat.le_succ_of_le htaken⟩
      | none =>
          obtain ⟨w, s', hrun, htaken⟩ :=
            ih (s.created env t i) (env.frames s.taken &&& PTE_ADDR_MASK)
          rw [descend, run_bind_ok (nextLevel_created env hentry)]
          have hsucc : s'.taken ≤ s.taken + 1 + path.length := htaken
          exact ⟨w, s', hrun, by rw [List.length_cons]; omega⟩

theorem mapPage_taken (env : Env) (p : Pagemap) (v phys flags : Word)
    (s : Machine) :
    (after (aarch64MapPage env p v phys flags s)).taken ≤ s.taken + 3 := by
  obtain ⟨t, s', hrun, htaken⟩ :=
    descend_taken env (keyOf v).path s (p.ttbr (keyOf v).ttbr)
  rw [aarch64MapPage_eq, run_bind_ok hrun, writePage_run]
  exact htaken

/-! ## Translating -/

/-- The table `aarch64_translate_vaddr` starts from. -/
def startTable (p : Pagemap) (v : Word) : Word :=
  p.ttbr (ttbrIndex v) &&& ~~~0x1FF

/-- What it computes from the entries on a path. -/
def softWalk (S : Word → Fin 512 → Word) : Word → List (Fin 512) → Word
  | _, [] => 0
  | t, [i] => S t i &&& PTE_ADDR_MASK
  | t, i :: j :: path =>
      match linked (S t i) with
      | some u => if u = 0 then 0 else softWalk S u (j :: path)
      | none => 0

section SoftWalk

variable {S : Word → Fin 512 → Word} {t : Word} {i : Fin 512}
  {path : List (Fin 512)}

theorem softWalk_stop (hpath : path ≠ [])
    (h : (linked (S t i)).getD 0 = 0) : softWalk S t (i :: path) = 0 := by
  obtain ⟨j, path, rfl⟩ := List.exists_cons_of_ne_nil hpath
  rw [softWalk]
  split
  · rename_i u hu
    rw [hu] at h
    exact if_pos h
  · rfl

theorem softWalk_step (hpath : path ≠ [])
    (h : (linked (S t i)).getD 0 ≠ 0) :
    softWalk S t (i :: path) =
      softWalk S ((linked (S t i)).getD 0) path := by
  obtain ⟨j, path, rfl⟩ := List.exists_cons_of_ne_nil hpath
  rw [softWalk]
  split
  · rename_i u hu
    rw [hu] at h ⊢
    exact if_neg h
  · rename_i hu
    rw [hu] at h
    exact absurd rfl h

end SoftWalk

/-- An event of a walk that stores nothing. -/
def Event.IsLook : Event → Prop
  | .visit _ => True
  | .printk _ => True
  | _ => False

/-- On the way from `s` to `s'` the tables have been looked at. -/
structure Looks (s s' : Machine) : Prop where
  mem : s'.mem = s.mem
  taken : s'.taken = s.taken
  log : ∃ new, s'.log = new ++ s.log ∧ ∀ e ∈ new, e.IsLook

theorem Looks.refl (s : Machine) : Looks s s :=
  ⟨rfl, rfl, [], rfl, fun _ he => absurd he List.not_mem_nil⟩

theorem Looks.emit {s s' : Machine} (h : Looks s s') {e : Event}
    (he : e.IsLook) : Looks s { s' with log := e :: s'.log } := by
  obtain ⟨hmem, htaken, new, hlog, hnew⟩ := h
  exact ⟨hmem, htaken, e :: new, congrArg (e :: ·) hlog,
    List.forall_mem_cons.2 ⟨he, hnew⟩⟩

theorem Looks.visited {s s' : Machine} (h : Looks s s') (t : Word) :
    Looks s (s'.visited t) := h.emit (e := .visit t) trivial

/-- A level that is only looked at. -/
theorem nextLevel_run (env : Env) {s : Machine} {mem : Mem} (hs : s.mem = mem)
    (t : Word) (i : Fin 512) :
    nextLevel env t (BitVec.ofNat 64 i) false s =
      .ok ((linked (table env mem t i)).getD 0) (s.visited t) := by
  subst hs
  cases hentry : linked (table env s.mem t i) with
  | none => exact nextLevel_missing env hentry
  | some u => exact nextLevel_linked env false hentry

/-- Whatever the tables hold, the call returns, and has only looked at
them. -/
theorem translate_run (env : Env) (p : Pagemap) (v : Word) (s : Machine) :
    ∃ s', aarch64TranslateVaddr env p v s =
      .ok (softWalk (table env s.mem) (startTable p v)
        ((keyOf v).path ++ [(keyOf v).leaf])) s' ∧ Looks s s' := by
  unfold aarch64TranslateVaddr
  simp only [levelIndex_eq]
  show ∃ s', (nextLevel env (startTable p v) (BitVec.ofNat 64 (indexAt v 39))
    false >>= _) s = .ok (softWalk (table env s.mem) (startTable p v)
      [indexAt v 39, indexAt v 30, indexAt v 21, indexAt v 12]) s' ∧ Looks s s'
  have hlook : ∀ s' : Machine, s'.mem = s.mem → ∀ t (i : Fin 512),
      nextLevel env t (BitVec.ofNat 64 i) false s' =
        .ok ((linked (table env s.mem t i)).getD 0) (s'.visited t) :=
    fun s' hs' => nextLevel_run env hs'
  have h₀ := Looks.refl s
  rw [run_bind_ok (hlook s rfl _ _)]
  split
  · rename_i hzero
    rw [softWalk_stop (by simp) hzero]
    exact ⟨_, rfl, (h₀.visited _).emit (e := .printk "AAA!\n") trivial⟩
  · rename_i hne
    rw [softWalk_step (by simp) hne, run_bind_ok (hlook (s.visited _) rfl _ _)]
    split
    · rename_i hzero
      rw [softWalk_stop (by simp) hzero]
      exact ⟨_, rfl, (h₀.visited _).visited _⟩
    · rename_i hne
      rw [softWalk_step (by simp) hne,
        run_bind_ok (hlook ((s.visited _).visited _) rfl _ _)]
      split
      · rename_i hzero
        rw [softWalk_stop (by simp) hzero]
        exact ⟨_, rfl, ((h₀.visited _).visited _).visited _⟩
      · rename_i hne
        rw [softWalk_step (by simp) hne]
        exact ⟨_, rfl, ((h₀.visited _).visited _).visited _⟩

section Steps

variable {env : Env} {p : Pagemap}

/-- A walk down to a level-3 table, in a run whose log says that every frame
was clean. `P` speaks of the machine and the indices behind, and is kept by
every level on the way, found or created. The tables are a tree still, and the
path leads to the answer. -/
theorem descend_induct {r : Fin 2} {full : List (Fin 512)}
    (hfull : full.length = 3) {P : Machine → List (Fin 512) → Prop}
    (hfound : ∀ {s : Machine} {q : List (Fin 512)} {t u : Word} {i : Fin 512},
      (q ++ [i]).length ≤ 3 →
      Radix.walk linked (table env s.mem) (p.ttbr r) (q ++ [i]) = some u →
      P s q → P (s.visited t) (q ++ [i]))
    (hcreate : ∀ {s : Machine} {q : List (Fin 512)} {t : Word} {i : Fin 512}
      {rest : List (Fin 512)}, full = q ++ i :: rest →
      Creates env p s r q t i → P s q → P (s.created env t i) (q ++ [i]))
    (path : List (Fin 512)) :
    ∀ {s : Machine} {t : Word} {q : List (Fin 512)}, full = q ++ path →
      TreeShaped env p s.mem → P s q →
      Radix.walk linked (table env s.mem) (p.ttbr r) q = some t →
      (∀ e ∈ (after (descend env t path s)).log, e.Clean env p) →
      ∃ u s', descend env t path s = .ok u s' ∧ TreeShaped env p s'.mem ∧
        Radix.walk linked (table env s'.mem) (p.ttbr r) full = some u ∧
        P s' full := by
  induction path with
  | nil =>
      intro s t q hq htree hP hwalk _
      rw [List.append_nil] at hq
      exact ⟨t, s, rfl, htree, hq ▸ hwalk, hq ▸ hP⟩
  | cons i path ih =>
      intro s t q hq htree hP hwalk hlog
      have hq' : full = (q ++ [i]) ++ path := by simp [hq]
      have hlen : (q ++ [i]).length ≤ 3 := by
        rw [← hfull, hq']
        exact (List.prefix_append (q ++ [i]) path).length_le
      cases hentry : linked (table env s.mem t i) with
      | some u =>
          rw [descend, run_bind_ok (nextLevel_linked env true hentry)] at hlog ⊢
          have hnext : Radix.walk linked (table env s.mem) (p.ttbr r)
              (q ++ [i]) = some u := by
            rw [Radix.walk_snoc, hwalk]
            exact hentry
          exact ih (s := s.visited t) hq' htree (hfound hlen hnext hP) hnext
            hlog
      | none =>
          rw [descend, run_bind_ok (nextLevel_created env hentry)] at hlog ⊢
          -- the frame the log has an entry for is clean
          have hframe : CleanFrame env p s.mem (env.frames s.taken) :=
            ((logs_descend env path _).of_after hlog (.alloc _ _)
              (.tail _ (.tail _ (.head _)))).frame
          have habove : q.length < 3 := by
            rw [List.length_append] at hlen
            exact hlen
          have hnew : Creates env p s r q t i :=
            ⟨htree, hframe, habove, hwalk, hentry⟩
          rw [hframe.frame.and_addrMask] at hlog ⊢
          exact ih hq' hnew.treeShaped (hcreate hq hnew hP) (hnew.walk_new hlen)
            hlog

/-- The map is the one it was. -/
theorem descend_spec {k : Key} {s : Machine} (htree : TreeShaped env p s.mem)
    (hclean : ∀ e ∈ (after (descend env (p.ttbr k.ttbr) k.path s)).log,
      e.Clean env p) :
    ∃ u s', descend env (p.ttbr k.ttbr) k.path s = .ok u s' ∧
      TreeShaped env p s'.mem ∧ leafTable env p s'.mem k = some u ∧
      view env p s'.mem = view env p s.mem :=
  descend_induct (P := fun s' _ => view env p s'.mem = view env p s.mem)
    k.length_path (fun _ _ hP => hP)
    (fun _ hcreate hP => hcreate.view_eq.trans hP) k.path rfl htree rfl
    Radix.walk_nil hclean

/-- Writing a level-3 descriptor changes no path. -/
theorem walk_write_leaf {mem : Mem} (htree : TreeShaped env p mem) {k : Key}
    {t : Word} (hleaf : leafTable env p mem k = some t) (desc : Word) :
    Radix.AgreesOff linked (table env mem)
      (table env (write64 mem (slot env.hhdm t k.leaf) desc)) p.ttbr 3 t
      k.leaf ∧
    ∀ r q, q.length ≤ 3 →
      Radix.walk linked (table env (write64 mem (slot env.hhdm t k.leaf) desc))
        (p.ttbr r) q = Radix.walk linked (table env mem) (p.ttbr r) q := by
  have ht : IsTable env p mem t := ⟨k.ttbr, k.path, Nat.le_refl 3, hleaf⟩
  have htp := (htree.frame t ht).aligned
  have hoff : Radix.AgreesOff linked (table env mem)
      (table env (write64 mem (slot env.hhdm t k.leaf) desc)) p.ttbr 3 t
      k.leaf := fun u j hu hne =>
    table_write_of_ne mem desc htp (htree.frame u hu).aligned hne
  exact ⟨hoff, Radix.walk_write_bottom htree.tree k.length_path hleaf hoff⟩

theorem isTable_write_leaf {mem : Mem} (htree : TreeShaped env p mem) {k : Key}
    {t : Word} (hleaf : leafTable env p mem k = some t) (desc u : Word)
    (hu : IsTable env p (write64 mem (slot env.hhdm t k.leaf) desc) u) :
    IsTable env p mem u := by
  obtain ⟨r, q, hq, hwalk⟩ := hu
  rw [(walk_write_leaf htree hleaf desc).2 r q hq] at hwalk
  exact ⟨r, q, hq, hwalk⟩

/-- It updates the map at one key. -/
theorem view_of_leafTable {mem : Mem} {k : Key} {t : Word}
    (h : leafTable env p mem k = some t) :
    view env p mem k = table env mem t k.leaf := by
  rw [view, h]

theorem write_leaf {mem : Mem} (htree : TreeShaped env p mem) {k : Key}
    {t : Word} (hleaf : leafTable env p mem k = some t) (desc : Word) :
    TreeShaped env p (write64 mem (slot env.hhdm t k.leaf) desc) ∧
      view env p (write64 mem (slot env.hhdm t k.leaf) desc) =
        Function.update (view env p mem) k desc := by
  obtain ⟨hoff, hwalk⟩ := walk_write_leaf htree hleaf desc
  refine ⟨⟨htree.tree.write_bottom k.length_path hleaf hoff, fun u hu =>
    htree.frame u (isTable_write_leaf htree hleaf desc u hu)⟩, ?_⟩
  have hleaf' : ∀ k', leafTable env p (write64 mem (slot env.hhdm t k.leaf)
      desc) k' = leafTable env p mem k' := fun k' =>
    hwalk k'.ttbr k'.path (Nat.le_of_eq k'.length_path)
  funext k'
  by_cases hk : k' = k
  · rw [hk, Function.update_self, view_of_leafTable ((hleaf' k).trans hleaf)]
    exact table_write mem desc
  · rw [Function.update_of_ne hk]
    cases hu : leafTable env p mem k' with
    | none => rw [view, view, hleaf', hu]
    | some u =>
        have hlen := Nat.le_of_eq k'.length_path
        rw [view_of_leafTable ((hleaf' k').trans hu), view_of_leafTable hu]
        refine hoff u k'.leaf ⟨k'.ttbr, k'.path, hlen, hu⟩ ?_
        rintro ⟨rfl, hl⟩
        have hsame := htree.tree k'.ttbr k'.path k.ttbr k.path u hlen
          (Nat.le_of_eq k.length_path) hu hleaf
        exact hk (Key.ext_path hsame.1 hsame.2 hl)

theorem mapPage_spec {s : Machine} (htree : TreeShaped env p s.mem)
    (v phys flags : Word)
    (hclean : ∀ e ∈ (after (aarch64MapPage env p v phys flags s)).log,
      e.Clean env p) :
    ∃ s', aarch64MapPage env p v phys flags s = .ok () s' ∧
      TreeShaped env p s'.mem ∧
      view env p s'.mem =
        Function.update (view env p s.mem) (keyOf v) (pageDesc phys flags) := by
  rw [aarch64MapPage_eq] at hclean ⊢
  have hwalk := of_after_bind (logs_writePage env v _) hclean
  obtain ⟨t, s', hok, htree', hleaf, hview⟩ := descend_spec htree hwalk
  rw [run_bind_ok hok]
  have hwrite := write_leaf htree' hleaf (pageDesc phys flags)
  exact ⟨_, writePage_run env s' v _ t, hwrite.1,
    hwrite.2.trans (by rw [hview])⟩

/-! ## Looking and unmapping -/

/-- One level of the walks that create nothing: the answer is 0 exactly when
the path does not go on. -/
theorem look {mem : Mem} {t : Word} {r : Fin 2} {q : List (Fin 512)}
    (htree : TreeShaped env p mem) (hq : q.length < 3)
    (hwalk : Radix.walk linked (table env mem) (p.ttbr r) q = some t)
    (i : Fin 512) :
    (Radix.walk linked (table env mem) (p.ttbr r) (q ++ [i]) = none ∧
      ∀ s : Machine, s.mem = mem →
        nextLevel env t (BitVec.ofNat 64 i) false s = .ok 0 (s.visited t)) ∨
    ∃ u, Radix.walk linked (table env mem) (p.ttbr r) (q ++ [i]) = some u ∧
      u ≠ 0 ∧ ∀ s : Machine, s.mem = mem →
        nextLevel env t (BitVec.ofNat 64 i) false s = .ok u (s.visited t) := by
  have hsnoc : Radix.walk linked (table env mem) (p.ttbr r) (q ++ [i]) =
      linked (table env mem t i) := by
    rw [Radix.walk_snoc, hwalk]
    rfl
  have hlen : (q ++ [i]).length ≤ 3 := by
    rw [List.length_append]
    exact hq
  rw [hsnoc]
  cases hentry : linked (table env mem t i) with
  | none =>
      refine Or.inl ⟨rfl, fun s hs => nextLevel_missing env ?_⟩
      rw [hs, hentry]
  | some u =>
      have hu : IsTable env p mem u := ⟨r, q ++ [i], hlen, hsnoc.trans hentry⟩
      refine Or.inr ⟨u, rfl, (htree.frame u hu).ne_zero, fun s hs => ?_⟩
      exact nextLevel_linked env false (by rw [hs, hentry])

theorem TreeShaped.root {mem : Mem} (h : TreeShaped env p mem) (r : Fin 2) :
    Frame (p.ttbr r) := h.frame _ ⟨r, [], Nat.zero_le 3, rfl⟩

/-- A page-aligned root passes the other mask unchanged. -/
theorem TreeShaped.root_mask {mem : Mem} (h : TreeShaped env p mem)
    (r : Fin 2) : p.ttbr r &&& ~~~0x1FF = p.ttbr r := by
  rw [← (h.root r).and_addrMask, BitVec.and_assoc]
  rfl

/-- A level that is missing leaves the key without a descriptor. -/
theorem view_eq_zero {mem : Mem} {k : Key} {q rest : List (Fin 512)}
    (hpath : k.path = q ++ rest)
    (h : Radix.walk linked (table env mem) (p.ttbr k.ttbr) q = none) :
    view env p mem k = 0 := by
  rw [view, leafTable, hpath, Radix.walk_append_of_none rest h]

/-- The code's walk gives the address field of the level-3 entry. -/
theorem softWalk_eq {mem : Mem} (htree : TreeShaped env p mem) {r : Fin 2}
    (i : Fin 512) (path : List (Fin 512)) :
    ∀ {t : Word} {q : List (Fin 512)}, q.length + path.length = 3 →
      Radix.walk linked (table env mem) (p.ttbr r) q = some t →
      softWalk (table env mem) t (path ++ [i]) =
        ((Radix.walk linked (table env mem) t path).map fun u =>
          table env mem u i &&& PTE_ADDR_MASK).getD 0 := by
  induction path with
  | nil => exact fun _ _ => rfl
  | cons j path ih =>
      intro t q hlen hwalk
      rw [List.length_cons] at hlen
      have hrest : path ++ [i] ≠ [] := by simp
      have hnext : Radix.walk linked (table env mem) (p.ttbr r) (q ++ [j]) =
          linked (table env mem t j) := by
        rw [Radix.walk_snoc, hwalk]
        rfl
      have hlen' : (q ++ [j]).length + path.length = 3 := by
        rw [List.length_append, List.length_singleton]
        omega
      rw [List.cons_append, Radix.walk_cons]
      cases hentry : linked (table env mem t j) with
      | none => exact softWalk_stop hrest (by rw [hentry]; rfl)
      | some u =>
          rw [hentry] at hnext
          have hu : u ≠ 0 :=
            (htree.frame u ⟨r, q ++ [j], by omega, hnext⟩).ne_zero
          rw [softWalk_step hrest (by rw [hentry]; exact hu), hentry]
          exact ih hlen' hnext

theorem translate_spec {s : Machine} (htree : TreeShaped env p s.mem)
    (v : Word) :
    ∃ s', aarch64TranslateVaddr env p v s =
      .ok (view env p s.mem (keyOf v) &&& PTE_ADDR_MASK) s' := by
  obtain ⟨s', hrun, _⟩ := translate_run env p v s
  refine ⟨s', hrun.trans ?_⟩
  have hroot : startTable p v = p.ttbr (keyOf v).ttbr := htree.root_mask _
  rw [hroot, softWalk_eq htree _ (keyOf v).path rfl Radix.walk_nil, view,
    leafTable]
  cases Radix.walk linked (table env s.mem) (p.ttbr (keyOf v).ttbr)
      (keyOf v).path with
  | none => simp
  | some t => rfl

/-- Unmapping looks for the level-3 table. It either finds none or clears one
entry of it. -/
theorem unmapPage_cases {s : Machine} (htree : TreeShaped env p s.mem)
    (v : Word) :
    ∃ s', aarch64UnmapPage env p v s = .ok () s' ∧
      ((Looks s s' ∧ view env p s.mem (keyOf v) = 0) ∨
        ∃ t s₁, Looks s s₁ ∧ leafTable env p s.mem (keyOf v) = some t ∧
          s' = s₁.wrote env v 0 t) := by
  have h₀ := Looks.refl s
  unfold aarch64UnmapPage
  simp only [levelIndex_eq]
  rcases look htree (by simp) Radix.walk_nil (indexAt v 39) with
    ⟨hnone, hrun⟩ | ⟨l1, hl1, hne1, hrun⟩
  · rw [run_bind_ok (hrun s rfl), if_pos rfl]
    exact ⟨_, rfl, Or.inl ⟨h₀.visited _, view_eq_zero rfl hnone⟩⟩
  · rw [run_bind_ok (hrun s rfl), if_neg hne1]
    rcases look htree (by simp) hl1 (indexAt v 30) with
      ⟨hnone, hrun⟩ | ⟨l2, hl2, hne2, hrun⟩
    · rw [run_bind_ok (hrun (s.visited _) rfl), if_pos rfl]
      exact ⟨_, rfl, Or.inl ⟨(h₀.visited _).visited _,
        view_eq_zero rfl hnone⟩⟩
    · rw [run_bind_ok (hrun (s.visited _) rfl), if_neg hne2]
      rcases look htree (by simp) hl2 (indexAt v 21) with
        ⟨hnone, hrun⟩ | ⟨l3, hl3, hne3, hrun⟩
      · rw [run_bind_ok (hrun ((s.visited _).visited _) rfl), if_pos rfl]
        exact ⟨_, rfl, Or.inl ⟨((h₀.visited _).visited _).visited _,
          view_eq_zero rfl hnone⟩⟩
      · rw [run_bind_ok (hrun ((s.visited _).visited _) rfl), if_neg hne3]
        exact ⟨_, writePage_run env _ v 0 l3, Or.inr ⟨l3, _,
          ((h₀.visited _).visited _).visited _, hl3, rfl⟩⟩

/-- What that means for memory. -/
theorem unmapPage_run {s : Machine} (htree : TreeShaped env p s.mem)
    (v : Word) :
    ∃ s', aarch64UnmapPage env p v s = .ok () s' ∧
      ((s'.mem = s.mem ∧ view env p s.mem (keyOf v) = 0) ∨
        ∃ t, leafTable env p s.mem (keyOf v) = some t ∧
          s'.mem = write64 s.mem (slot env.hhdm t (keyOf v).leaf) 0) := by
  obtain ⟨s', hrun, hcases⟩ := unmapPage_cases htree v
  refine ⟨s', hrun, ?_⟩
  rcases hcases with ⟨hlooks, hzero⟩ | ⟨t, s₁, hlooks, hleaf, rfl⟩
  · exact Or.inl ⟨hlooks.mem, hzero⟩
  · refine Or.inr ⟨t, hleaf, ?_⟩
    rw [wrote_mem, hlooks.mem]

theorem unmapPage_spec {s : Machine} (htree : TreeShaped env p s.mem)
    (v : Word) :
    ∃ s', aarch64UnmapPage env p v s = .ok () s' ∧
      TreeShaped env p s'.mem ∧
      view env p s'.mem = Function.update (view env p s.mem) (keyOf v) 0 := by
  obtain ⟨s', hrun, hmem⟩ := unmapPage_run htree v
  refine ⟨s', hrun, ?_⟩
  rcases hmem with ⟨hmem, hzero⟩ | ⟨t, hleaf, hmem⟩
  · rw [hmem, Function.update_eq_self_iff.2 hzero.symm]
    exact ⟨htree, rfl⟩
  · rw [hmem]
    exact write_leaf htree hleaf 0

end Steps

/-! ## Sequences of calls -/

inductive Op
  | map (vaddr phys flags : Word)
  | unmap (vaddr : Word)
deriving DecidableEq

namespace Op

def vaddr : Op → Word
  | .map v _ _ => v
  | .unmap v => v

def run (env : Env) (p : Pagemap) : Op → Kernel Unit
  | .map v phys flags => aarch64MapPage env p v phys flags
  | .unmap v => aarch64UnmapPage env p v

def key (op : Op) : Key := keyOf op.vaddr

/-- What the operation leaves in the level-3 slot of its key. -/
def desc : Op → Word
  | .map _ phys flags => pageDesc phys flags
  | .unmap _ => 0

/-- A page-aligned physical address of at most 48 bits. -/
def Valid : Op → Prop
  | .map _ phys _ => PageAligned phys ∧ phys.toNat < 2 ^ 48
  | .unmap _ => True

/-- What the operation makes its key translate to. -/
def phys : Op → Word
  | .map _ phys _ => phys
  | .unmap _ => 0

theorem Valid.desc_and_addrMask {op : Op} (h : op.Valid) :
    op.desc &&& PTE_ADDR_MASK = op.phys := by
  cases op with
  | map v phys flags => exact pageDesc_and_addrMask h.1 h.2 flags
  | unmap v => exact BitVec.zero_and

end Op

def runOps (env : Env) (p : Pagemap) : List Op → Kernel Unit
  | [] => pure ()
  | op :: ops => op.run env p >>= fun _ => runOps env p ops

/-- The last operation on the key of `w`: its selector and its bits 47 to
12. -/
def lastOn (ops : List Op) (w : Word) : Option Op :=
  ops.reverse.find? fun op =>
    ttbrIndex op.vaddr = ttbrIndex w ∧ pageBits op.vaddr = pageBits w

theorem lastOn_eq (ops : List Op) (w : Word) :
    lastOn ops w = Updates.last Op.key ops (keyOf w) := by
  simp only [lastOn, Updates.last, Op.key, keyOf_eq_iff]

section Runs

variable {env : Env} {p : Pagemap}

theorem logs_unmapPage (v : Word) : Logs (aarch64UnmapPage env p v) :=
  (logs_nextLevel _ _ _ _).bind fun _ => .ite (.pure _) <|
    (logs_nextLevel _ _ _ _).bind fun _ => .ite (.pure _) <|
      (logs_nextLevel _ _ _ _).bind fun _ => .ite (.pure _) <|
        (logs_storeEntry _ _ _ _ _).bind fun _ => logs_invalidatePage v

theorem logs_mapPage (v phys flags : Word) :
    Logs (aarch64MapPage env p v phys flags) := by
  rw [aarch64MapPage_eq]
  exact (logs_descend env _ _).bind (logs_writePage env v _)

theorem logs_runOps (ops : List Op) : Logs (runOps env p ops) := by
  induction ops with
  | nil => exact .pure _
  | cons op ops ih =>
      refine Grows.bind ?_ fun _ => ih
      cases op with
      | map v phys flags => exact logs_mapPage v phys flags
      | unmap v => exact logs_unmapPage v

/-- One call updates the map at its key. -/
theorem run_spec {s : Machine} (htree : TreeShaped env p s.mem) (op : Op)
    (hclean : ∀ e ∈ (after (op.run env p s)).log, e.Clean env p) :
    ∃ s', op.run env p s = .ok () s' ∧ TreeShaped env p s'.mem ∧
      view env p s'.mem =
        Function.update (view env p s.mem) op.key op.desc := by
  cases op with
  | map v phys flags => exact mapPage_spec htree v phys flags hclean
  | unmap v => exact unmapPage_spec htree v

theorem runOps_spec (ops : List Op) :
    ∀ {s : Machine}, TreeShaped env p s.mem →
      (∀ e ∈ (after (runOps env p ops s)).log, e.Clean env p) →
      ∃ s', runOps env p ops s = .ok () s' ∧ TreeShaped env p s'.mem ∧
        view env p s'.mem =
          Updates.applyAll Op.key Op.desc (view env p s.mem) ops := by
  induction ops with
  | nil => exact fun {s} htree _ => ⟨s, rfl, htree, rfl⟩
  | cons op ops ih =>
      intro s htree hclean
      rw [runOps] at hclean ⊢
      obtain ⟨s₁, hrun, htree₁, hview₁⟩ :=
        run_spec htree op (of_after_bind (fun _ => logs_runOps ops) hclean)
      rw [run_bind_ok hrun] at hclean ⊢
      obtain ⟨s₂, hrun₂, htree₂, hview₂⟩ := ih htree₁ hclean
      exact ⟨s₂, hrun₂, htree₂, by rw [hview₂, hview₁]; rfl⟩

end Runs

end VegaOS
