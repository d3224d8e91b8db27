import VegaOS.Proofs.MmuSteps

/-!
# A supply of fresh frames

The assumption that every `pmm_alloc(1)` of a run answers with a fresh frame
is one about the run. It follows from one about the machine the run starts on:
that the next `N` answers are distinct frames outside the tables which read as
zero. Every call takes at most three of them, so what is in stock covers
`N / 3` calls.

Nothing is asked of where the window is, but that it starts at a page. The
`memset` of a new table may then hit a page of another table in the window; it
clears the whole of it, and what is left is a tree. So the frames stay fresh
even where the tables lose entries. That no entry is lost is the other
assumption about a run, and it follows from a property that all tables have:
that the window does not wrap around on them.
-/

namespace VegaOS

open ByteMem Trace

/-- An allocator whose first `N` answers are distinct and have a property. -/
structure Supply (env : Env) (Q : Word → Prop) (N : ℕ) : Prop where
  window : PageAligned env.hhdm
  distinct : ∀ m, m < N → ∀ n, n < N → env.frames m = env.frames n → m = n
  known : ∀ n, n < N → Q (env.frames n)

/-- A machine on which the first `N` answers that are still to come are fresh.
-/
structure Stocked (env : Env) (p : Pagemap) (Q : Word → Prop) (N : ℕ)
    (s : Machine) : Prop where
  shaped : TreeShaped env p s.mem
  tables : ∀ t, IsTable env p s.mem t → Q t
  ahead : ∀ n, s.taken ≤ n → n < N → FreshFrame env p s.mem (env.frames n)
  logged : ∀ e ∈ s.log, e.Fresh env p ∧ e.Tables env p Q

section Persist

variable {env : Env} {p : Pagemap} {Q : Word → Prop} {N : ℕ}

/-- A frame stays fresh as long as it is written with zeros only and no table
is linked at it. -/
theorem FreshFrame.persist {mem mem' : Mem} {g : Word}
    (h : FreshFrame env p mem g)
    (hbytes : ∀ x, Span (g + env.hhdm) 4096 x → mem' x = mem x ∨ mem' x = 0)
    (htables : ∀ u, IsTable env p mem' u → IsTable env p mem u ∨ u ≠ g) :
    FreshFrame env p mem' g := by
  refine ⟨h.frame, fun hg => ?_, fun x hx => ?_⟩
  · rcases htables g hg with hold | hne
    · exact h.unused hold
    · exact hne rfl
  · have hzero := h.zeroed x hx
    rw [memset_apply] at hzero ⊢
    split at hzero
    · rename_i hin
      exact if_pos hin
    · rename_i hout
      rw [if_neg hout]
      rcases hbytes x hx with hsame | hnew
      · rw [hsame, hzero]
      · exact hnew

/-- The image of a page meets no entry of another. -/
theorem not_span_slot {g t : Word} {i : Fin 512} (hg : PageAligned g)
    (ht : PageAligned t) (hne : g ≠ t) {x : Word}
    (hx : Span (g + env.hhdm) 4096 x) : ¬ Span (slot env.hhdm t i) 8 x :=
  fun hin => page_apart hg ht hne x hx (span_page_of_slot hin)

/-- Zeroing the image of a table clears its entries. -/
theorem table_memset_image (mem : Mem) {next u : Word}
    (heq : u + env.hhdm = next) (j : Fin 512) :
    table env (memset mem next 0 4096) u j = 0 := by
  refine read64_eq_zero fun x hx => ?_
  have hin := span_page_of_slot hx
  rw [heq] at hin
  exact (memset_apply _ _ _ _ x).trans (if_pos hin)

/-- Zeroing a page clears the entries of a table or keeps them. -/
theorem table_memset_cases (hwindow : PageAligned env.hhdm) (mem : Mem)
    {next u : Word} (hnext : PageAligned next) (hu : PageAligned u)
    (j : Fin 512) :
    table env (memset mem next 0 4096) u j = table env mem u j ∨
      table env (memset mem next 0 4096) u j = 0 := by
  by_cases heq : u + env.hhdm = next
  · exact Or.inr (table_memset_image mem heq j)
  · refine Or.inl (read64_congr fun x hx => ?_)
    have hpage : PageAligned (u + env.hhdm) := by
      simp only [PageAligned, BitVec.toNat_add] at *
      omega
    have hapart : Apart (next + 0#64) 4096 (u + env.hhdm + 0#64) 4096 :=
      page_apart hnext hpage (Ne.symm heq)
    rw [BitVec.add_zero, BitVec.add_zero] at hapart
    exact (memset_apply _ _ _ _ x).trans
      (if_neg fun hin => hapart x hin (span_page_of_slot hx))

theorem Stocked.looks {s s' : Machine} (h : Stocked env p Q N s)
    (hlooks : Looks s s') : Stocked env p Q N s' := by
  constructor
  · rw [hlooks.mem]
    exact h.shaped
  · rw [hlooks.mem]
    exact h.tables
  · rw [hlooks.mem, hlooks.taken]
    exact h.ahead
  · obtain ⟨new, hlog, hnew⟩ := hlooks.log
    rw [hlog]
    refine List.forall_mem_append.2 ⟨fun e he => ?_, h.logged⟩
    have hlook := hnew e he
    cases e <;> first | exact hlook.elim | exact ⟨trivial, trivial⟩

theorem Stocked.visited {s : Machine} (h : Stocked env p Q N s) (t : Word) :
    Stocked env p Q N (s.visited t) :=
  h.looks ((Looks.refl s).visited t)

/-! ## The walk of `aarch64_map_page` -/

/-- What a walk has come to behind the path `q`: the table that is there, or a
page that is no table, or none any more, and links nothing. -/
def LeadsTo (env : Env) (p : Pagemap) (N : ℕ) (s : Machine) (r : Fin 2)
    (q : List (Fin 512)) (t : Word) : Prop :=
  Radix.walk linked (table env s.mem) (p.ttbr r) q = some t ∨
    (¬ IsTable env p s.mem t ∧ PageAligned t ∧
      (∀ n, s.taken ≤ n → n < N → t ≠ env.frames n) ∧
      ∀ j, linked (table env s.mem t j) = none)

section Create

variable {s : Machine} {r : Fin 2} {q : List (Fin 512)} {t : Word}

/-- Such a page is none of the frames in stock. -/
theorem LeadsTo.off (h : LeadsTo env p N s r q t)
    (hs : Stocked env p Q N s) (hq : q.length ≤ 3) :
    PageAligned t ∧ ∀ n, s.taken ≤ n → n < N → t ≠ env.frames n := by
  rcases h with hwalk | ⟨-, hal, hoff, -⟩
  · have ht : IsTable env p s.mem t := ⟨r, q, hq, hwalk⟩
    exact ⟨(hs.shaped.frame t ht).aligned,
      fun n hn hnN heq => (hs.ahead n hn hnN).unused (heq ▸ ht)⟩
  · exact ⟨hal, hoff⟩

variable {i : Fin 512}

/-- A new table is linked, and others may have lost their entries. -/
theorem Stocked.thins (hs : Stocked env p Q N s) (hsupply : Supply env Q N)
    (hlt : s.taken < N) (hal : PageAligned t) (hne : t ≠ env.frames s.taken) :
    Radix.Thins linked (table env s.mem) (table env (s.created env t i).mem)
      p.ttbr 3 t i (env.frames s.taken) := by
  have hfresh := hs.ahead s.taken (Nat.le_refl _) hlt
  refine ⟨fun u j hu => ?_, fun j => ?_⟩
  · have hual := (hs.shaped.frame u hu).aligned
    by_cases hslot : u = t ∧ j = i
    · obtain ⟨rfl, rfl⟩ := hslot
      refine Or.inr (Or.inr ⟨rfl, rfl, ?_⟩)
      rw [created_mem, table_write, linked_linkDesc,
        hfresh.frame.and_addrMask]
    · rw [created_mem, table_write_of_ne _ _ hal hual hslot]
      rcases table_memset_cases hsupply.window s.mem hfresh.frame.aligned hual
        j with hsame | hzero
      · exact Or.inl hsame
      · exact Or.inr (Or.inl (by rw [hzero, linked_zero]))
  · rw [created_mem, table_write_of_ne _ _ hal hfresh.frame.aligned
      fun h => hne h.1.symm, hfresh.table_memset_self, linked_zero]

theorem Stocked.created (hsupply : Supply env Q N) (hs : Stocked env p Q N s)
    (hlt : s.taken < N) (hlen : (q ++ [i]).length ≤ 3)
    (ht : LeadsTo env p N s r q t) :
    Stocked env p Q N (s.created env t i) ∧
      LeadsTo env p N (s.created env t i) r (q ++ [i])
        (env.frames s.taken) := by
  have hfresh := hs.ahead s.taken (Nat.le_refl _) hlt
  have hq : q.length < 3 := by
    rw [List.length_append] at hlen
    exact hlen
  obtain ⟨hal, hoff⟩ := ht.off hs (Nat.le_of_lt hq)
  have hne := hoff s.taken (Nat.le_refl _) hlt
  have hthins := hs.thins (i := i) hsupply hlt hal hne
  have hdistinct : ∀ n, s.taken + 1 ≤ n → n < N →
      env.frames s.taken ≠ env.frames n := fun n hn hnN heq => by
    have hsame := hsupply.distinct _ hlt _ hnN heq
    omega
  have htables : ∀ u, IsTable env p (s.created env t i).mem u →
      IsTable env p s.mem u ∨ u = env.frames s.taken :=
    fun u hu => hthins.reachable hu
  refine ⟨⟨⟨hthins.isTree hs.shaped.tree hfresh.unused, fun u hu => ?_⟩,
    fun u hu => ?_, fun n hn hnN => ?_, ?_⟩, ?_⟩
  · rcases htables u hu with hold | rfl
    · exact hs.shaped.frame u hold
    · exact hfresh.frame
  · rcases htables u hu with hold | rfl
    · exact hs.tables u hold
    · exact hsupply.known _ hlt
  · have hn' : s.taken + 1 ≤ n := hn
    have hahead := hs.ahead n (Nat.le_of_succ_le hn') hnN
    refine hahead.persist (fun x hx => ?_) fun u hu => ?_
    · -- only the `memset` of the new table can have come by
      rw [created_mem, write64_of_not_span _ _ (not_span_slot
        hahead.frame.aligned hal (hoff n (Nat.le_of_succ_le hn') hnN).symm hx),
        memset_apply]
      split
      · exact Or.inr rfl
      · exact Or.inl rfl
    · rcases htables u hu with hold | rfl
      · exact Or.inl hold
      · exact Or.inr (hdistinct n hn' hnN)
  · refine List.forall_mem_cons.2 ⟨⟨trivial, trivial⟩,
      List.forall_mem_cons.2 ⟨⟨trivial, trivial⟩,
      List.forall_mem_cons.2 ⟨⟨hfresh, hs.tables⟩, (hs.visited t).logged⟩⟩⟩
  · by_cases hnew : IsTable env p (s.created env t i).mem (env.frames s.taken)
    · -- it is found where it was linked
      obtain ⟨r', q', hq', hw⟩ := hnew
      rcases hthins.walk_cases hq' hw with hold | ⟨-, q₁, rfl, ht'⟩
      · exact absurd ⟨r', q', hq', hold⟩ hfresh.unused
      · rw [List.length_append, List.length_singleton] at hq'
        rcases ht with hwalk | ⟨hnone, -⟩
        · obtain ⟨rfl, rfl⟩ := hs.shaped.tree r' q₁ r q t (by omega)
            (Nat.le_of_lt hq) ht' hwalk
          exact Or.inl hw
        · exact absurd ⟨r', q₁, by omega, ht'⟩ hnone
    · exact Or.inr ⟨hnew, hfresh.frame.aligned, hdistinct, hthins.empty⟩

/-- A walk on a stocked machine. `P` speaks of the machine, the indices behind
and the page the walk has come to. -/
theorem descend_stocked (hsupply : Supply env Q N)
    {P : Machine → List (Fin 512) → Word → Prop}
    (hfound : ∀ {s : Machine} {q : List (Fin 512)} {t u : Word} {i : Fin 512},
      linked (table env s.mem t i) = some u → P s q t →
        P (s.visited t) (q ++ [i]) u)
    (hcreate : ∀ {s : Machine} {q : List (Fin 512)} {t : Word} {i : Fin 512},
      Stocked env p Q N s → s.taken < N → q.length ≤ 3 →
      LeadsTo env p N s r q t → P s q t →
        P (s.created env t i) (q ++ [i]) (env.frames s.taken))
    (path : List (Fin 512)) :
    ∀ {s : Machine} {q : List (Fin 512)} {t : Word},
      q.length + path.length ≤ 3 → Stocked env p Q N s →
      s.taken + path.length ≤ N → LeadsTo env p N s r q t → P s q t →
      ∃ u s', descend env t path s = .ok u s' ∧ Stocked env p Q N s' ∧
        s'.taken ≤ s.taken + path.length ∧
        LeadsTo env p N s' r (q ++ path) u ∧ P s' (q ++ path) u := by
  induction path with
  | nil =>
      intro s q t _ hs _ ht hP
      rw [List.append_nil]
      exact ⟨t, s, rfl, hs, Nat.le_refl _, ht, hP⟩
  | cons i path ih =>
      intro s q t hlen hs hN ht hP
      rw [List.length_cons] at hlen hN
      have hlen' : (q ++ [i]).length + path.length ≤ 3 := by
        rw [List.length_append, List.length_singleton]
        omega
      have hpath : q ++ i :: path = (q ++ [i]) ++ path := by simp
      rw [hpath]
      cases hentry : linked (table env s.mem t i) with
      | some u =>
          have hnext : Radix.walk linked (table env s.mem) (p.ttbr r)
              (q ++ [i]) = some u := by
            rcases ht with hwalk | ⟨-, -, -, hnone⟩
            · rw [Radix.walk_snoc, hwalk]
              exact hentry
            · rw [hnone] at hentry
              cases hentry
          obtain ⟨w, s', hrun, hs', htaken, hw⟩ :=
            ih (s := s.visited t) hlen' (hs.visited t)
              (Nat.le_of_succ_le hN) (Or.inl hnext) (hfound hentry hP)
          rw [descend, run_bind_ok (nextLevel_linked env true hentry)]
          exact ⟨w, s', hrun, hs', Nat.le_succ_of_le htaken, hw⟩
      | none =>
          have hlt : s.taken < N := by omega
          obtain ⟨hs₁, ht₁⟩ := hs.created (i := i) hsupply hlt (by omega) ht
          have hN₁ : (s.created env t i).taken + path.length ≤ N := by
            show s.taken + 1 + path.length ≤ N
            omega
          obtain ⟨w, s', hrun, hs', htaken, hw⟩ :=
            ih hlen' hs₁ hN₁ ht₁ (hcreate hs hlt (by omega) ht hP)
          have hframe := (hs.ahead s.taken (Nat.le_refl _) hlt).frame
          rw [descend, run_bind_ok (nextLevel_created env hentry),
            hframe.and_addrMask]
          have htaken' : s'.taken ≤ s.taken + 1 + path.length := htaken
          exact ⟨w, s', hrun, hs', by rw [List.length_cons]; omega, hw⟩

end Create

/-! ## Stores -/

/-- Memory that is the same to every table holds the same tables. -/
theorem TreeShaped.of_same {mem mem' : Mem} (h : TreeShaped env p mem)
    (hsame : ∀ u j, IsTable env p mem u →
      table env mem' u j = table env mem u j) :
    TreeShaped env p mem' ∧
      ∀ u, IsTable env p mem' u → IsTable env p mem u := by
  have hwalk : ∀ r q, q.length ≤ 3 →
      Radix.walk linked (table env mem') (p.ttbr r) q =
        Radix.walk linked (table env mem) (p.ttbr r) q :=
    Radix.walk_congr hsame
  have htables : ∀ u, IsTable env p mem' u → IsTable env p mem u := by
    intro u ⟨r, q, hq, hw⟩
    exact ⟨r, q, hq, (hwalk r q hq).symm.trans hw⟩
  refine ⟨⟨fun r q r' q' t hq hq' hw hw' => ?_, fun u hu =>
    h.frame u (htables u hu)⟩, htables⟩
  rw [hwalk r q hq] at hw
  rw [hwalk r' q' hq'] at hw'
  exact h.tree r q r' q' t hq hq' hw hw'

theorem Stocked.wrote {s : Machine} {v t : Word} (hs : Stocked env p Q N s)
    (ht : LeadsTo env p N s (keyOf v).ttbr (keyOf v).path t) (desc : Word) :
    Stocked env p Q N (s.wrote env v desc t) := by
  obtain ⟨hal, hoff⟩ := ht.off hs (Nat.le_of_eq (keyOf v).length_path)
  have hshaped : TreeShaped env p (s.wrote env v desc t).mem ∧
      ∀ u, IsTable env p (s.wrote env v desc t).mem u →
        IsTable env p s.mem u := by
    rw [wrote_mem]
    rcases ht with hleaf | ⟨hnone, -⟩
    · exact ⟨(write_leaf hs.shaped hleaf desc).1,
        isTable_write_leaf hs.shaped hleaf desc⟩
    · refine hs.shaped.of_same fun u j hu => ?_
      exact table_write_of_ne _ _ hal (hs.shaped.frame u hu).aligned
        fun h => hnone (h.1 ▸ hu)
  refine ⟨hshaped.1, fun u hu => hs.tables u (hshaped.2 u hu),
    fun n hn hnN => ?_, ?_⟩
  · have hahead := hs.ahead n hn hnN
    refine hahead.persist (fun x hx => Or.inl ?_)
      fun u hu => Or.inl (hshaped.2 u hu)
    rw [wrote_mem, write64_of_not_span _ _ (not_span_slot
      hahead.frame.aligned hal (hoff n hn hnN).symm hx)]
  · simpa [Machine.wrote, Event.Fresh, Event.Tables] using hs.logged

end Persist

/-! ## Runs -/

section Runs

variable {env : Env} {p : Pagemap} {Q : Word → Prop} {N : ℕ}

theorem mapPage_stocked (hsupply : Supply env Q N) {s : Machine}
    (hs : Stocked env p Q N s) (hN : s.taken + 3 ≤ N) (v phys flags : Word) :
    ∃ s', aarch64MapPage env p v phys flags s = .ok () s' ∧
      Stocked env p Q N s' ∧ s'.taken ≤ s.taken + 3 := by
  rw [aarch64MapPage_eq]
  have hstart : LeadsTo env p N s (keyOf v).ttbr [] (p.ttbr (keyOf v).ttbr) :=
    Or.inl Radix.walk_nil
  obtain ⟨t, s', hrun, hs', htaken, ht, -⟩ :=
    descend_stocked (P := fun _ _ _ => True) hsupply (fun _ _ => trivial)
      (fun _ _ _ _ _ => trivial) (keyOf v).path (Nat.le_of_eq rfl) hs hN
      hstart trivial
  rw [run_bind_ok hrun]
  exact ⟨_, writePage_run env s' v _ t, hs'.wrote ht _, htaken⟩

theorem unmapPage_stocked {s : Machine} (hs : Stocked env p Q N s) (v : Word) :
    ∃ s', aarch64UnmapPage env p v s = .ok () s' ∧ Stocked env p Q N s' ∧
      s'.taken = s.taken := by
  obtain ⟨s', hrun, hcases⟩ := unmapPage_cases hs.shaped v
  refine ⟨s', hrun, ?_⟩
  rcases hcases with ⟨hlooks, _⟩ | ⟨t, s₁, hlooks, hleaf, rfl⟩
  · exact ⟨hs.looks hlooks, hlooks.taken⟩
  · rw [← hlooks.mem] at hleaf
    exact ⟨(hs.looks hlooks).wrote (Or.inl hleaf) 0, hlooks.taken⟩

theorem run_stocked (hsupply : Supply env Q N) {s : Machine}
    (hs : Stocked env p Q N s) (hN : s.taken + 3 ≤ N) (op : Op) :
    ∃ s', op.run env p s = .ok () s' ∧ Stocked env p Q N s' ∧
      s'.taken ≤ s.taken + 3 := by
  cases op with
  | map v phys flags => exact mapPage_stocked hsupply hs hN v phys flags
  | unmap v =>
      obtain ⟨s', hrun, hs', htaken⟩ := unmapPage_stocked hs v
      exact ⟨s', hrun, hs', by omega⟩

/-- A stocked machine stays stocked. -/
theorem runOps_stocked (hsupply : Supply env Q N) (ops : List Op) :
    ∀ {s : Machine}, Stocked env p Q N s → s.taken + 3 * ops.length ≤ N →
      ∃ s', runOps env p ops s = .ok () s' ∧ Stocked env p Q N s' := by
  induction ops with
  | nil => exact fun {s} hs _ => ⟨s, rfl, hs⟩
  | cons op ops ih =>
      intro s hs hN
      rw [List.length_cons] at hN
      obtain ⟨s₁, hrun, hs₁, htaken⟩ := run_stocked hsupply hs (by omega) op
      obtain ⟨s₂, hrun₂, hs₂⟩ := ih hs₁ (by omega)
      exact ⟨s₂, by rw [runOps, run_bind_ok hrun, hrun₂], hs₂⟩

theorem Stocked.fresh {s : Machine} (hs : Stocked env p Q N s) :
    ∀ e ∈ s.log, e.Fresh env p := fun e he => (hs.logged e he).1

/-- Where the window does not wrap around on any table, none has lost an
entry. -/
theorem Stocked.spares (hwindow : 2 ^ 48 ≤ env.hhdm.toNat) {s : Machine}
    (hs : Stocked env p (InWindow env) N s) : ∀ e ∈ s.log, e.Spares env p :=
  fun e he => (hs.logged e he).1.spares hwindow (hs.logged e he).2

theorem Stocked.clean (hwindow : 2 ^ 48 ≤ env.hhdm.toNat) {s : Machine}
    (hs : Stocked env p (InWindow env) N s) : ∀ e ∈ s.log, e.Clean env p :=
  fun e he => ⟨hs.fresh e he, hs.spares hwindow e he⟩

/-- A machine before the first call. -/
def Machine.start (mem : Mem) : Machine := ⟨mem, 0, []⟩

/-- The tables of a pagemap whose roots link nothing. -/
theorem walk_empty {mem : Mem}
    (hempty : ∀ r i, linked (table env mem (p.ttbr r) i) = none) {r : Fin 2}
    {q : List (Fin 512)} {t : Word}
    (h : Radix.walk linked (table env mem) (p.ttbr r) q = some t) :
    q = [] ∧ t = p.ttbr r := by
  cases q with
  | nil => exact ⟨rfl, (Option.some.inj h).symm⟩
  | cons i q =>
      rw [Radix.walk_cons, hempty] at h
      cases h

/-- `N` zeroed frames next to the tables. -/
theorem stocked_of_tables {mem : Mem} (htree : TreeShaped env p mem)
    (htables : ∀ t, IsTable env p mem t → Q t)
    (hframe : ∀ n, n < N → Frame (env.frames n) ∧
      ¬ IsTable env p mem (env.frames n))
    (hzero : ∀ n, n < N → ∀ x, Span (env.frames n + env.hhdm) 4096 x →
      mem x = 0) :
    Stocked env p Q N (.start mem) := by
  refine ⟨htree, htables, fun n _ hn => ⟨(hframe n hn).1, (hframe n hn).2,
    fun x hx => ?_⟩, fun e he => absurd he List.not_mem_nil⟩
  rw [memset_apply]
  split
  · rfl
  · exact hzero n hn x hx

/-- Two distinct empty roots. -/
theorem treeShaped_start {mem : Mem} (hroot : ∀ r, Frame (p.ttbr r))
    (hroots : ∀ r r', p.ttbr r = p.ttbr r' → r = r')
    (hempty : ∀ r i, linked (table env mem (p.ttbr r) i) = none) :
    TreeShaped env p mem := by
  constructor
  · intro r q r' q' t _ _ h h'
    obtain ⟨rfl, rfl⟩ := walk_empty hempty h
    obtain ⟨rfl, heq⟩ := walk_empty hempty h'
    exact ⟨hroots r r' heq, rfl⟩
  · intro t ⟨r, q, _, h⟩
    rw [(walk_empty hempty h).2]
    exact hroot r

theorem linked_table_zero (env : Env) (t : Word) (i : Fin 512) :
    linked (table env (fun _ => 0) t i) = none := by
  rw [table, read64_eq_zero fun _ _ => rfl, linked_zero]

/-- Empty memory, with two roots in it and `N` frames next to them. -/
theorem stocked_empty (hroot : ∀ r, Frame (p.ttbr r) ∧ Q (p.ttbr r))
    (hroots : ∀ r r', p.ttbr r = p.ttbr r' → r = r')
    (hframe : ∀ n, n < N →
      Frame (env.frames n) ∧ ∀ r, env.frames n ≠ p.ttbr r) :
    Stocked env p Q N (.start fun _ => 0) := by
  have hempty : ∀ r i, linked (table env (fun _ => 0) (p.ttbr r) i) = none :=
    fun _ _ => linked_table_zero env _ _
  have htables : ∀ t, IsTable env p (fun _ => 0) t → ∃ r, t = p.ttbr r := by
    intro t ⟨r, q, _, hwalk⟩
    exact ⟨r, (walk_empty hempty hwalk).2⟩
  refine stocked_of_tables
    (treeShaped_start (fun r => (hroot r).1) hroots hempty) (fun t ht => ?_)
    (fun n hn => ⟨(hframe n hn).1, fun ht => ?_⟩) fun _ _ _ _ => rfl
  · obtain ⟨r, rfl⟩ := htables t ht
    exact (hroot r).2
  · obtain ⟨r, hr⟩ := htables _ ht
    exact (hframe n hn).2 r hr

end Runs

end VegaOS
