import VegaOS.Proofs.MmuRefine

/-!
# The window and the physical address

`next_level` reads and writes descriptors through the window, and zeroes a new
table at its physical address. Where the two are not the same address the
`memset` misses the table, and the table is linked with whatever the frame
held before.

A call that creates no level is not affected, and neither is any call if the
window is at offset 0. Every other call fails on some contents of the frames
it is given: descriptors that link the new frame to itself survive, are
followed, and stay behind in it.
-/

namespace VegaOS

open ByteMem Trace

/-- The bytes an event stores to. -/
def Event.store (env : Env) : Event → Option (Word × ℕ)
  | .memset ptr length => some (ptr, length.toNat)
  | .link t i _ => some (t + env.hhdm + 8 * i, 8)
  | .page t i _ => some (t + env.hhdm + 8 * i, 8)
  | _ => none

section Window

variable (env : Env) (p : Pagemap) (mem : Mem)

/-- `t` was a table of the pagemap in `mem`, or has been allocated since. -/
def Known (s : Machine) (t : Word) : Prop :=
  IsTable env p mem t ∨ ∃ n, n < s.taken ∧ t = env.frames n

/-- The call has written entry `j` of the table `t`. -/
def Filled (s : Machine) (t : Word) (j : Fin 512) : Prop :=
  ∃ d, .link t (BitVec.ofNat 64 j) d ∈ s.log ∨
    .page t (BitVec.ofNat 64 j) d ∈ s.log

/-- What the stores of a call that started in `mem` and ended in `s` are to
be: each falls inside the image of a table or of a frame just allocated, and a
newly linked table is zero except where the call has written it. -/
structure WindowSafe (s : Machine) : Prop where
  stores : ∀ e ∈ s.log, ∀ a n, e.store env = some (a, n) →
    ∃ t, Known env p mem s t ∧
      ∀ x, Span a n x → Span (t + env.hhdm) 4096 x
  zeroed : ∀ t i d, .link t i d ∈ s.log → ∀ j,
    ¬ Filled s (d &&& PTE_ADDR_MASK) j →
    table env s.mem (d &&& PTE_ADDR_MASK) j = 0

/-- `mem'` is `mem` with other contents in the frames to be handed out. -/
def DiffersInFrames (mem' : Mem) : Prop :=
  ∀ x, (∀ n, n < 3 → ¬ Span (env.frames n + env.hhdm) 4096 x) → mem' x = mem x

/-- A call of `aarch64_map_page` is window-safe whatever the frames it may be
given hold. -/
def StoresInWindow (v phys flags : Word) : Prop :=
  ∀ mem', DiffersInFrames env mem mem' →
    WindowSafe env p mem'
      (after (aarch64MapPage env p v phys flags (.start mem')))

/-- The roots are page-aligned, and the next three answers of `pmm_alloc(1)`
are distinct frames outside the pagemap. -/
structure NextFrames : Prop where
  root : ∀ r, PageAligned (p.ttbr r)
  frame : ∀ n, n < 3 → Frame (env.frames n)
  distinct : ∀ m, m < 3 → ∀ n, n < 3 → env.frames m = env.frames n → m = n
  unused : ∀ n, n < 3 → ¬ IsTable env p mem (env.frames n)

end Window

section Contents

variable {env : Env} {p : Pagemap} {mem mem' : Mem}

theorem IsTable.aligned (hroot : ∀ r, PageAligned (p.ttbr r)) {t : Word}
    (h : IsTable env p mem t) : PageAligned t := by
  obtain ⟨r, q, _, hwalk⟩ := h
  induction q using List.reverseRecOn with
  | nil =>
      rw [← Option.some.inj hwalk]
      exact hroot r
  | append_singleton q i _ =>
      obtain ⟨_, _, hlink⟩ := Radix.exists_walk_of_snoc hwalk
      exact linked_pageAligned hlink

/-- Other contents of the frames change no table. -/
theorem NextFrames.table_eq (h : NextFrames env p mem)
    (hdiff : DiffersInFrames env mem mem') {t : Word}
    (ht : IsTable env p mem t) (j : Fin 512) :
    table env mem' t j = table env mem t j := by
  refine read64_congr fun x hx => hdiff x fun n hn hin => ?_
  have hne : env.frames n ≠ t := fun heq => h.unused n hn (heq ▸ ht)
  exact page_apart (h.frame n hn).aligned (ht.aligned h.root) hne x hin
    (span_page_of_slot hx)

theorem NextFrames.walk_eq (h : NextFrames env p mem)
    (hdiff : DiffersInFrames env mem mem') (r : Fin 2) {q : List (Fin 512)}
    (hq : q.length ≤ 3) :
    Radix.walk linked (table env mem') (p.ttbr r) q =
      Radix.walk linked (table env mem) (p.ttbr r) q :=
  Radix.walk_congr (fun _ j hu => h.table_eq hdiff hu j) r q hq

theorem NextFrames.isTable_iff (h : NextFrames env p mem)
    (hdiff : DiffersInFrames env mem mem') (t : Word) :
    IsTable env p mem' t ↔ IsTable env p mem t := by
  constructor
  · rintro ⟨r, q, hq, hwalk⟩
    exact ⟨r, q, hq, by rwa [← h.walk_eq hdiff r hq]⟩
  · rintro ⟨r, q, hq, hwalk⟩
    exact ⟨r, q, hq, by rwa [h.walk_eq hdiff r hq]⟩

theorem NextFrames.of_differs (h : NextFrames env p mem)
    (hdiff : DiffersInFrames env mem mem') : NextFrames env p mem' :=
  ⟨h.root, h.frame, h.distinct,
    fun n hn ht => h.unused n hn ((h.isTable_iff hdiff _).1 ht)⟩

end Contents

/-! ## No level is missing -/

/-- Only lookups have been logged since `s`. -/
def OnlyVisits (s s' : Machine) : Prop :=
  ∀ e ∈ s'.log, e ∈ s.log ∨ ∃ t, e = .visit t

theorem descend_present {env : Env} (path : List (Fin 512)) :
    ∀ {s : Machine} {t u : Word},
      Radix.walk linked (table env s.mem) t path = some u →
      ∃ s', descend env t path s = .ok u s' ∧ s'.mem = s.mem ∧
        s'.taken = s.taken ∧ OnlyVisits s s' := by
  induction path with
  | nil =>
      intro s t u hwalk
      obtain rfl := Option.some.inj hwalk
      exact ⟨s, rfl, rfl, rfl, fun e he => Or.inl he⟩
  | cons i path ih =>
      intro s t u hwalk
      rw [Radix.walk_cons] at hwalk
      obtain ⟨w, hentry, hrest⟩ := Option.bind_eq_some_iff.1 hwalk
      obtain ⟨s', hrun, hmem, htaken, hvisits⟩ := ih (s := s.visited t) hrest
      refine ⟨s', ?_, hmem, htaken, fun e he => ?_⟩
      · rw [descend, run_bind_ok (nextLevel_linked env true hentry), hrun]
      · rcases hvisits e he with hold | hvisit
        · cases hold with
          | head => exact Or.inr ⟨t, rfl⟩
          | tail _ hold => exact Or.inl hold
        · exact Or.inr hvisit

section Present

variable {env : Env} {p : Pagemap} {mem : Mem}

/-- A call that finds its level-3 table makes one store. -/
theorem windowSafe_of_present {v t : Word} (phys flags : Word)
    (hleaf : leafTable env p mem (keyOf v) = some t) :
    WindowSafe env p mem
      (after (aarch64MapPage env p v phys flags (.start mem))) := by
  obtain ⟨s, hrun, _, _, hvisits⟩ :=
    descend_present (s := .start mem) (keyOf v).path hleaf
  rw [aarch64MapPage_eq, run_bind_ok hrun, writePage_run, after_ok]
  have hlog : ∀ e ∈ (s.wrote env v (pageDesc phys flags) t).log,
      (∃ i, e = .insn i) ∨ (∃ u, e = .visit u) ∨
        e = .page t (BitVec.ofNat 64 (keyOf v).leaf) (pageDesc phys flags) := by
    intro e he
    simp only [Machine.wrote, List.mem_cons] at he
    rcases he with rfl | rfl | rfl | rfl | rfl | hold
    · exact Or.inl ⟨_, rfl⟩
    · exact Or.inl ⟨_, rfl⟩
    · exact Or.inl ⟨_, rfl⟩
    · exact Or.inl ⟨_, rfl⟩
    · exact Or.inr (Or.inr rfl)
    · rcases hvisits e hold with hnone | hvisit
      · exact absurd hnone List.not_mem_nil
      · exact Or.inr (Or.inl hvisit)
  have ht : IsTable env p mem t :=
    ⟨(keyOf v).ttbr, (keyOf v).path, Nat.le_refl 3, hleaf⟩
  refine ⟨fun e he a n hstore => ?_, fun u i d hlink => ?_⟩
  · rcases hlog e he with ⟨i, rfl⟩ | ⟨u, rfl⟩ | rfl
    · cases hstore
    · cases hstore
    · cases hstore
      exact ⟨t, Or.inl ht, fun x hx => span_page_of_slot hx⟩
  · rcases hlog _ hlink with ⟨_, h⟩ | ⟨_, h⟩ | h
    · cases h
    · cases h
    · cases h

end Present

/-! ## The window at offset 0 -/

section Identity

variable {env : Env} {p : Pagemap} {mem : Mem}

/-- `WindowSafe`, in the middle of a call. -/
structure Safe (env : Env) (p : Pagemap) (mem : Mem) (s : Machine) : Prop where
  stores : ∀ e ∈ s.log, ∀ a n, e.store env = some (a, n) →
    ∃ t, Known env p mem s t ∧ ∀ x, Span a n x → Span (t + env.hhdm) 4096 x
  zeroed : ∀ n, n < s.taken → ∀ j, ¬ Filled s (env.frames n) j →
    table env s.mem (env.frames n) j = 0
  links : ∀ t i d, .link t i d ∈ s.log →
    ∃ n, n < s.taken ∧ d &&& PTE_ADDR_MASK = env.frames n

theorem Safe.windowSafe {s : Machine} (h : Safe env p mem s) :
    WindowSafe env p mem s := by
  refine ⟨h.stores, fun t i d hlink j hfilled => ?_⟩
  obtain ⟨n, hn, hd⟩ := h.links t i d hlink
  rw [hd] at hfilled ⊢
  exact h.zeroed n hn j hfilled

theorem safe_start : Safe env p mem (.start mem) :=
  ⟨fun _ he => absurd he List.not_mem_nil,
    fun _ hn => absurd hn (Nat.not_lt_zero _),
    fun _ _ _ he => absurd he List.not_mem_nil⟩

theorem Known.mono {s s' : Machine} (hle : s.taken ≤ s'.taken) {t : Word}
    (h : Known env p mem s t) : Known env p mem s' t := by
  rcases h with htab | ⟨n, hn, rfl⟩
  · exact Or.inl htab
  · exact Or.inr ⟨n, Nat.lt_of_lt_of_le hn hle, rfl⟩

theorem Filled.mono {s s' : Machine} (hlog : ∀ e ∈ s.log, e ∈ s'.log)
    {t : Word} {j : Fin 512} (h : Filled s t j) : Filled s' t j := by
  obtain ⟨d, hd⟩ := h
  rcases hd with hlink | hpage
  · exact ⟨d, Or.inl (hlog _ hlink)⟩
  · exact ⟨d, Or.inr (hlog _ hpage)⟩

theorem Known.aligned (hnext : NextFrames env p mem) {s : Machine}
    (hle : s.taken ≤ 3) {t : Word} (h : Known env p mem s t) :
    PageAligned t := by
  rcases h with htab | ⟨n, hn, rfl⟩
  · exact htab.aligned hnext.root
  · exact (hnext.frame n (by omega)).aligned

/-- The next answer is none of the tables so far. -/
theorem Known.ne_next (hnext : NextFrames env p mem) {s : Machine}
    (hlt : s.taken < 3) {t : Word} (h : Known env p mem s t) :
    t ≠ env.frames s.taken := by
  rintro rfl
  rcases h with htab | ⟨n, hn, heq⟩
  · exact hnext.unused _ hlt htab
  · have := hnext.distinct _ hlt _ (by omega) heq
    omega

theorem Safe.visited {s : Machine} (h : Safe env p mem s) (t : Word) :
    Safe env p mem (s.visited t) := by
  have hlog : ∀ e ∈ s.log, e ∈ (s.visited t).log :=
    fun e he => List.mem_cons_of_mem _ he
  refine ⟨fun e he a n hstore => ?_, fun n hn j hfilled => ?_,
    fun u i d hlink => ?_⟩
  · cases he with
    | head => cases hstore
    | tail _ he => exact h.stores e he a n hstore
  · exact h.zeroed n hn j fun hold => hfilled (hold.mono hlog)
  · cases hlink with
    | tail _ hlink => exact h.links u i d hlink

/-- With the window at 0 the `memset` does zero the new table. -/
theorem Safe.created (hnext : NextFrames env p mem) (hzero : env.hhdm = 0)
    {s : Machine} (h : Safe env p mem s) (hlt : s.taken < 3) {t : Word}
    (ht : Known env p mem s t) (i : Fin 512) :
    Safe env p mem (s.created env t i) ∧
      ∀ j, table env (s.created env t i).mem (env.frames s.taken) j = 0 := by
  have hta := ht.aligned hnext (Nat.le_of_lt hlt)
  have hna := (hnext.frame s.taken hlt).aligned
  have hne := ht.ne_next hnext hlt
  have hlog : ∀ e ∈ s.log, e ∈ (s.created env t i).log := fun e he =>
    .tail _ (.tail _ (.tail _ (.tail _ he)))
  have hknown : ∀ u, Known env p mem s u →
      Known env p mem (s.created env t i) u :=
    fun u hu => hu.mono (Nat.le_succ s.taken)
  have himage : ∀ u, u + env.hhdm = u := fun u => by
    rw [hzero]
    exact BitVec.add_zero u
  have hempty : ∀ j,
      table env (s.created env t i).mem (env.frames s.taken) j = 0 := by
    intro j
    rw [created_mem, table_write_of_ne _ _ hta hna fun heq => hne heq.1.symm]
    refine read64_eq_zero fun x hx => ?_
    have hspan := span_page_of_slot hx
    rw [himage] at hspan
    rw [memset_apply]
    exact if_pos hspan
  refine ⟨⟨fun e he a n hstore => ?_, fun n hn j hfilled => ?_,
    fun u k d hlink => ?_⟩, hempty⟩
  · simp only [Machine.created, List.mem_cons] at he
    rcases he with rfl | rfl | rfl | rfl | hold
    · cases hstore
      exact ⟨t, hknown t ht, fun x hx => span_page_of_slot hx⟩
    · cases hstore
      refine ⟨env.frames s.taken, Or.inr ⟨s.taken, Nat.lt_succ_self _, rfl⟩,
        fun x hx => ?_⟩
      rwa [himage]
    · cases hstore
    · cases hstore
    · obtain ⟨u, hu, hspan⟩ := h.stores e hold a n hstore
      exact ⟨u, hknown u hu, hspan⟩
  · rcases Nat.lt_succ_iff_lt_or_eq.1 hn with hold | rfl
    · -- an earlier frame: neither zeroed again nor written here
      have hfa := (hnext.frame n (by omega)).aligned
      have hfne := Known.ne_next hnext hlt (Or.inr ⟨n, hold, rfl⟩)
      have hslot : ¬ (env.frames n = t ∧ j = i) := by
        rintro ⟨rfl, rfl⟩
        exact hfilled ⟨_, Or.inl (.head _)⟩
      rw [created_mem, table_write_of_ne _ _ hta hfa hslot,
        ← h.zeroed n hold j fun hf => hfilled (hf.mono hlog)]
      refine read64_congr fun x hx => ?_
      rw [memset_apply]
      refine if_neg fun hin => ?_
      have hspan := span_page_of_slot hx
      have hapart : Apart (env.frames n + env.hhdm) 4096
          (env.frames s.taken + env.hhdm) 4096 := page_apart hfa hna hfne
      rw [himage (env.frames s.taken)] at hapart
      exact hapart x hspan hin
    · exact hempty j
  · simp only [Machine.created, List.mem_cons, Event.link.injEq, reduceCtorEq,
      false_or] at hlink
    rcases hlink with ⟨rfl, rfl, rfl⟩ | hold
    · refine ⟨s.taken, Nat.lt_succ_self _, ?_⟩
      have hmask := linked_eq_some (linked_linkDesc (env.frames s.taken))
      rw [hmask.2, (hnext.frame s.taken hlt).and_addrMask]
    · obtain ⟨n, hn, hd⟩ := h.links u k d hold
      exact ⟨n, Nat.lt_succ_of_lt hn, hd⟩

theorem Safe.wrote (hnext : NextFrames env p mem) {s : Machine}
    (h : Safe env p mem s) (hle : s.taken ≤ 3) {t : Word}
    (ht : Known env p mem s t) (v desc : Word) :
    Safe env p mem (s.wrote env v desc t) := by
  have hlog : ∀ e ∈ s.log, e ∈ (s.wrote env v desc t).log := fun e he =>
    .tail _ (.tail _ (.tail _ (.tail _ (.tail _ he))))
  refine ⟨fun e he a n hstore => ?_, fun n hn j hfilled => ?_,
    fun u k d hlink => ?_⟩
  · simp only [Machine.wrote, List.mem_cons] at he
    rcases he with rfl | rfl | rfl | rfl | rfl | hold
    · cases hstore
    · cases hstore
    · cases hstore
    · cases hstore
    · cases hstore
      exact ⟨t, ht, fun x hx => span_page_of_slot hx⟩
    · exact h.stores e hold a n hstore
  · have hslot : ¬ (env.frames n = t ∧ j = (keyOf v).leaf) := by
      rintro ⟨rfl, rfl⟩
      exact hfilled ⟨desc, Or.inr (.tail _ (.tail _ (.tail _ (.tail _
        (.head _)))))⟩
    rw [← h.zeroed n hn j fun hf => hfilled (hf.mono hlog)]
    have hn' : n < s.taken := hn
    exact table_write_of_ne _ _ (ht.aligned hnext hle)
      (hnext.frame n (by omega)).aligned hslot
  · simp only [Machine.wrote, List.mem_cons, reduceCtorEq, false_or] at hlink
    exact h.links u k d hlink

/-- Down to the first missing level the walk meets the tables there were, and
from then on empty ones. -/
theorem descend_safe (hnext : NextFrames env p mem) (hzero : env.hhdm = 0)
    {r : Fin 2} (path : List (Fin 512)) :
    ∀ {s : Machine} {t : Word}, Safe env p mem s →
      s.taken + path.length ≤ 3 →
      ((s.mem = mem ∧ ∃ q, q.length + path.length = 3 ∧
          Radix.walk linked (table env mem) (p.ttbr r) q = some t) ∨
        (Known env p mem s t ∧ ∀ j, table env s.mem t j = 0)) →
      ∃ u s', descend env t path s = .ok u s' ∧ Safe env p mem s' ∧
        s'.taken ≤ 3 ∧ Known env p mem s' u := by
  induction path with
  | nil =>
      intro s t hs htaken hat
      refine ⟨t, s, rfl, hs, htaken, ?_⟩
      rcases hat with ⟨_, q, hq, hwalk⟩ | ⟨hknown, _⟩
      · exact Or.inl ⟨r, q, Nat.le_of_eq hq, hwalk⟩
      · exact hknown
  | cons i path ih =>
      intro s t hs htaken hat
      rw [List.length_cons] at htaken hat
      cases hentry : linked (table env s.mem t i) with
      | none =>
          have hknown : Known env p mem s t := by
            rcases hat with ⟨_, q, hq, hwalk⟩ | ⟨hknown, _⟩
            · exact Or.inl ⟨r, q, by omega, hwalk⟩
            · exact hknown
          obtain ⟨hs', hempty⟩ := hs.created hnext hzero (by omega) hknown i
          have htaken' : (s.created env t i).taken + path.length ≤ 3 := by
            show s.taken + 1 + path.length ≤ 3
            omega
          rw [descend, run_bind_ok (nextLevel_created env hentry),
            (hnext.frame s.taken (by omega)).and_addrMask]
          exact ih hs' htaken' (Or.inr
            ⟨Or.inr ⟨s.taken, Nat.lt_succ_self _, rfl⟩, hempty⟩)
      | some u =>
          rw [descend, run_bind_ok (nextLevel_linked env true hentry)]
          have htaken' : (s.visited t).taken + path.length ≤ 3 := by
            show s.taken + path.length ≤ 3
            omega
          rcases hat with ⟨hmem, q, hq, hwalk⟩ | ⟨_, hempty⟩
          · refine ih (hs.visited t) htaken' (Or.inl ⟨hmem, q ++ [i], ?_, ?_⟩)
            · rw [List.length_append, List.length_singleton]
              omega
            · rw [Radix.walk_snoc, hwalk, ← hmem]
              exact hentry
          · rw [hempty i, linked_zero] at hentry
            cases hentry

theorem windowSafe_of_identity (hnext : NextFrames env p mem)
    (hzero : env.hhdm = 0) (v phys flags : Word) :
    WindowSafe env p mem
      (after (aarch64MapPage env p v phys flags (.start mem))) := by
  have hstart : (Machine.start mem).mem = mem ∧ ∃ q : List (Fin 512),
      q.length + (keyOf v).path.length = 3 ∧
      Radix.walk linked (table env mem) (p.ttbr (keyOf v).ttbr) q =
        some (p.ttbr (keyOf v).ttbr) := ⟨rfl, [], rfl, rfl⟩
  obtain ⟨u, s, hrun, hs, hle, hknown⟩ := descend_safe hnext hzero
    (keyOf v).path safe_start (Nat.le_refl 3) (Or.inl hstart)
  rw [aarch64MapPage_eq, run_bind_ok hrun, writePage_run, after_ok]
  exact (hs.wrote hnext hle hknown v (pageDesc phys flags)).windowSafe

end Identity

/-! ## A stale frame -/

section Stale

variable {env : Env} {p : Pagemap} {mem : Mem}

theorem descend_append (env : Env) (path path' : List (Fin 512)) :
    ∀ t, descend env t (path ++ path') =
      descend env t path >>= fun u => descend env u path' := by
  induction path with
  | nil => exact fun t => (pure_bind t fun u => descend env u path').symm
  | cons i path ih =>
      intro t
      rw [List.cons_append, descend, descend, bind_assoc]
      exact congrArg _ (funext ih)

/-- Memory in which the next frame is full of descriptors that link it. -/
def staleMem (env : Env) (mem : Mem) : Mem :=
  fillPage mem (env.frames 0 + env.hhdm) (env.frames 0 ||| PTE_P ||| PTE_TBL)

theorem differsInFrames_staleMem : DiffersInFrames env mem (staleMem env mem) :=
  fun _ hx => if_neg (hx 0 (by decide))

theorem walk_self {S : Word → Fin 512 → Word} {t : Word}
    (h : ∀ j, linked (S t j) = some t) (path : List (Fin 512)) :
    Radix.walk linked S t path = some t := by
  induction path with
  | nil => rfl
  | cons i path ih =>
      rw [Radix.walk_cons, h i]
      exact ih

/-- The first missing level, on the stale memory. -/
theorem descend_to_missing (hnext : NextFrames env p mem) {v : Word}
    (hmiss : leafTable env p mem (keyOf v) = none) :
    ∃ s t i rest, s.mem = staleMem env mem ∧ s.taken = 0 ∧
      OnlyVisits (.start (staleMem env mem)) s ∧ t ≠ env.frames 0 ∧
      PageAligned t ∧
      descend env (p.ttbr (keyOf v).ttbr) (keyOf v).path
          (.start (staleMem env mem)) =
        descend env (env.frames 0) rest (s.created env t i) := by
  have hlen := (keyOf v).length_path
  obtain ⟨q, i, rest, t, hpath, hwalk, hnone⟩ := Radix.exists_missing hmiss
  rw [hpath, List.length_append, List.length_cons] at hlen
  have ht : IsTable env p mem t := ⟨(keyOf v).ttbr, q, by omega, hwalk⟩
  have hdiff : DiffersInFrames env mem (staleMem env mem) :=
    differsInFrames_staleMem
  rw [← hnext.walk_eq hdiff _ (by omega)] at hwalk
  obtain ⟨s, hrun, hmem, htaken, hvisits⟩ :=
    descend_present (s := .start (staleMem env mem)) q hwalk
  have hentry : linked (table env s.mem t i) = none := by
    rw [hmem]
    exact (congrArg linked (hnext.table_eq hdiff ht i)).trans hnone
  have htaken0 : s.taken = 0 := htaken
  refine ⟨s, t, i, rest, hmem, htaken0, hvisits,
    fun heq => hnext.unused 0 (by decide) (heq ▸ ht), ht.aligned hnext.root, ?_⟩
  rw [hpath, descend_append, run_bind_ok hrun, descend,
    run_bind_ok (nextLevel_created env hentry), htaken0,
    (hnext.frame 0 (by decide)).and_addrMask]

/-- The `memset` misses the window image of the frame, and every entry of it
links the frame still. -/
theorem table_created_stale (hnext : NextFrames env p mem)
    (hoff : env.hhdm ≠ 0) (haligned : PageAligned env.hhdm) {s : Machine}
    {t : Word} {i : Fin 512} (hmem : s.mem = staleMem env mem)
    (htaken : s.taken = 0) (hne : t ≠ env.frames 0) (ht : PageAligned t)
    (j : Fin 512) :
    table env (s.created env t i).mem (env.frames 0) j =
      env.frames 0 ||| PTE_P ||| PTE_TBL := by
  have hfa := (hnext.frame 0 (by decide)).aligned
  have hzero : PageAligned 0 := by decide
  have hapart : Apart (0 + env.frames 0) 4096 (env.hhdm + env.frames 0) 4096 :=
    page_apart hzero haligned (Ne.symm hoff)
  rw [BitVec.add_comm env.hhdm] at hapart
  rw [created_mem, table_write_of_ne _ _ ht hfa fun heq => hne heq.1.symm,
    htaken, hmem]
  have hstale := read64_fillPage mem env.hhdm (env.frames 0)
    (env.frames 0 ||| PTE_P ||| PTE_TBL) j
  refine (read64_congr fun x hx => ?_).trans hstale
  rw [memset_apply]
  refine if_neg fun hin => hapart x ?_ (span_page_of_slot hx)
  rwa [show 0 + env.frames 0 = env.frames 0 from BitVec.zero_add _]

/-- A window image that covers the page at a physical address is page-aligned
at that address. -/
theorem pageAligned_of_span {a t off : Word} (ha : PageAligned a)
    (ht : PageAligned t)
    (h : ∀ x, Span a 4096 x → Span (t + off) 4096 x) : PageAligned off := by
  have hlo := h a (span_self a (by decide))
  have hlast : Span a 4096 (a + 4095) := by
    simp only [Span]
    bv_omega
  have hhi := h (a + 4095) hlast
  simp only [Span, PageAligned] at *
  bv_omega

/-- Wherever the window is, the `memset` of the stale frame is logged. -/
theorem memset_mem_of_missing (hnext : NextFrames env p mem) {v : Word}
    (hmiss : leafTable env p mem (keyOf v) = none) (phys flags : Word) :
    .memset (env.frames 0) 4096 ∈ (after
      (aarch64MapPage env p v phys flags (.start (staleMem env mem)))).log := by
  obtain ⟨s, t, i, rest, _, htaken, _, _, _, hrun⟩ :=
    descend_to_missing hnext hmiss
  have hgrows := (logs_descend env rest (env.frames 0)).bind
    (logs_writePage env v (pageDesc phys flags))
  have hmem : .memset (env.frames 0) 4096 ∈ (s.created env t i).log := by
    simp [Machine.created, htaken]
  have hsame : aarch64MapPage env p v phys flags (.start (staleMem env mem)) =
      (descend env (env.frames 0) rest >>= fun u =>
        writePage env v (pageDesc phys flags) u) (s.created env t i) := by
    rw [aarch64MapPage_eq]
    show EStateM.bind _ _ _ = EStateM.bind _ _ _
    rw [EStateM.bind, hrun]
    rfl
  rw [hsame]
  exact hgrows _ _ hmem

/-- The log of a walk that creates one level. -/
theorem log_created {m : Mem} {s s' : Machine} {t : Word} {i : Fin 512}
    (hvisits : OnlyVisits (.start m) s)
    (hvisits' : OnlyVisits (s.created env t i) s') : ∀ e ∈ s'.log,
      e = .link t (BitVec.ofNat 64 i)
        (env.frames s.taken ||| PTE_P ||| PTE_TBL) ∨
      e = .memset (env.frames s.taken) 4096 ∨
      e = .alloc (env.frames s.taken) s.mem ∨ ∃ u, e = .visit u := by
  intro e he
  rcases hvisits' e he with hcreated | hvisit
  · simp only [Machine.created, List.mem_cons] at hcreated
    rcases hcreated with h | h | h | h | h
    · exact Or.inl h
    · exact Or.inr (Or.inl h)
    · exact Or.inr (Or.inr (Or.inl h))
    · exact Or.inr (Or.inr (Or.inr ⟨t, h⟩))
    · rcases hvisits e h with hnone | hvisit
      · exact absurd hnone List.not_mem_nil
      · exact Or.inr (Or.inr (Or.inr hvisit))
  · exact Or.inr (Or.inr (Or.inr hvisit))

/-- In a window at a page-aligned offset the stale frame is linked, followed,
and left as it was. -/
theorem stale_run (hnext : NextFrames env p mem) (hoff : env.hhdm ≠ 0)
    (haligned : PageAligned env.hhdm) {v : Word}
    (hmiss : leafTable env p mem (keyOf v) = none) (phys flags : Word) :
    ∃ s, aarch64MapPage env p v phys flags (.start (staleMem env mem)) =
        .ok () s ∧
      (∃ t i, .link t i (env.frames 0 ||| PTE_P ||| PTE_TBL) ∈ s.log) ∧
      ∀ j, j ≠ (keyOf v).leaf → ¬ Filled s (env.frames 0) j ∧
        table env s.mem (env.frames 0) j =
          env.frames 0 ||| PTE_P ||| PTE_TBL := by
  obtain ⟨s, t, i, rest, hmem, htaken, hvisits, hne, hta, hrun⟩ :=
    descend_to_missing hnext hmiss
  have hfa := (hnext.frame 0 (by decide)).aligned
  have hstale := table_created_stale (i := i) hnext hoff haligned hmem htaken
    hne hta
  have hself : ∀ j, linked
      (table env (s.created env t i).mem (env.frames 0) j) =
        some (env.frames 0) := fun j => by
    rw [hstale, linked_linkDesc, (hnext.frame 0 (by decide)).and_addrMask]
  obtain ⟨s', hrest, hmem', _, hvisits'⟩ :=
    descend_present rest (walk_self hself rest)
  have hall : aarch64MapPage env p v phys flags
      (.start (staleMem env mem)) =
        .ok () (s'.wrote env v (pageDesc phys flags) (env.frames 0)) := by
    rw [aarch64MapPage_eq, run_bind_ok (hrun.trans hrest), writePage_run]
  have hlink : .link t (BitVec.ofNat 64 i)
      (env.frames s.taken ||| PTE_P ||| PTE_TBL) ∈ s'.log := by
    have hgrows := logs_descend env rest (env.frames 0) (s.created env t i)
    rw [hrest] at hgrows
    exact hgrows _ (.head _)
  rw [htaken] at hlink
  refine ⟨_, hall, ⟨t, BitVec.ofNat 64 i, by simp [Machine.wrote, hlink]⟩,
    fun j hj => ⟨?_, ?_⟩⟩
  · -- the log holds one link, from `t`, and one page, at the index of `v`
    rintro ⟨d, hd⟩
    have hinj : BitVec.ofNat 64 (j : ℕ) ≠
        BitVec.ofNat 64 ((keyOf v).leaf : ℕ) := by
      intro heq
      have hnat := congrArg BitVec.toNat heq
      rw [BitVec.toNat_ofNat, BitVec.toNat_ofNat] at hnat
      exact hj (Fin.ext (by omega))
    simp only [Machine.wrote, List.mem_cons, reduceCtorEq, false_or,
      Event.page.injEq, hinj, false_and, and_false] at hd
    rcases hd with hd | hd
    · rcases log_created hvisits hvisits' _ hd with h | h | h | ⟨u, h⟩
      · exact hne (Event.link.inj h).1.symm
      · cases h
      · cases h
      · cases h
    · rcases log_created hvisits hvisits' _ hd with h | h | h | ⟨u, h⟩
      · cases h
      · cases h
      · cases h
      · cases h
  · have hslot : ¬ (env.frames 0 = env.frames 0 ∧ j = (keyOf v).leaf) :=
      fun h => hj h.2
    rw [wrote_mem, table_write_of_ne _ _ hfa hfa hslot, hmem', hstale]

theorem not_windowSafe_of_missing (hnext : NextFrames env p mem)
    (hoff : env.hhdm ≠ 0) {v : Word}
    (hmiss : leafTable env p mem (keyOf v) = none) (phys flags : Word) :
    ¬ WindowSafe env p (staleMem env mem) (after
      (aarch64MapPage env p v phys flags (.start (staleMem env mem)))) := by
  intro hsafe
  have hnext' := hnext.of_differs differsInFrames_staleMem
  have hmemset := memset_mem_of_missing hnext hmiss phys flags
  obtain ⟨t, ht, hspan⟩ := hsafe.stores _ hmemset _ _ rfl
  have haligned : PageAligned env.hhdm :=
    pageAligned_of_span (hnext.frame 0 (by decide)).aligned
      (ht.aligned hnext' (mapPage_taken env p v phys flags _)) hspan
  obtain ⟨s, hrun, ⟨u, i, hlink⟩, hstale⟩ :=
    stale_run hnext hoff haligned hmiss phys flags
  rw [hrun, after_ok] at hsafe
  obtain ⟨j, hj⟩ : ∃ j : Fin 512, j ≠ (keyOf v).leaf := by
    by_cases h : (keyOf v).leaf = 0
    · exact ⟨1, by rw [h]; decide⟩
    · exact ⟨0, Ne.symm h⟩
  obtain ⟨hfilled, hentry⟩ := hstale j hj
  have hmask := linked_eq_some (linked_linkDesc (env.frames 0))
  have hzero := hsafe.zeroed u i _ hlink j
  rw [hmask.2, (hnext.frame 0 (by decide)).and_addrMask] at hzero
  rw [hzero hfilled] at hentry
  exact linkDesc_ne_zero _ hentry.symm

/-- For a pagemap that is about to be given fresh frames: every store stays in
the window and every new table is empty, whatever the frames hold, exactly
when the window is at offset 0 or no level is missing. -/
theorem storesInWindow_iff (hnext : NextFrames env p mem)
    (v phys flags : Word) :
    StoresInWindow env p mem v phys flags ↔
      env.hhdm = 0 ∨ ∃ t, leafTable env p mem (keyOf v) = some t := by
  constructor
  · intro hall
    by_contra hno
    obtain ⟨hoff, hmiss⟩ := not_or.1 hno
    have hnone : leafTable env p mem (keyOf v) = none := by
      cases hleaf : leafTable env p mem (keyOf v) with
      | none => rfl
      | some t => exact absurd ⟨t, hleaf⟩ hmiss
    exact not_windowSafe_of_missing hnext hoff hnone phys flags
      (hall _ differsInFrames_staleMem)
  · intro h mem' hdiff
    rcases h with hzero | ⟨t, hleaf⟩
    · exact windowSafe_of_identity (hnext.of_differs hdiff) hzero v phys flags
    · have hleaf' : leafTable env p mem' (keyOf v) = some t := by
        have hlen := Nat.le_of_eq (keyOf v).length_path
        rw [leafTable, hnext.walk_eq hdiff _ hlen]
        exact hleaf
      exact windowSafe_of_present phys flags hleaf'

end Stale

theorem nextFrames_bumpEnv : NextFrames bumpEnv twoRoots fun _ => 0 := by
  have hfresh : ∀ n, n < 3 → FreshFrame bumpEnv twoRoots (fun _ => 0)
      (bumpEnv.frames n) := fun n hn =>
    stocked_bumpEnv.ahead n (Nat.zero_le n) (Nat.lt_trans hn (by decide))
  exact ⟨by decide, fun n hn => (hfresh n hn).frame, by decide,
    fun n hn => (hfresh n hn).unused⟩

theorem leafTable_twoRoots (k : Key) :
    leafTable bumpEnv twoRoots (fun _ => 0) k = none := by
  rw [leafTable, Key.path, Radix.walk_cons, linked_table_zero]
  rfl

/-- An empty pagemap behind the higher-half window. -/
theorem storesInWindow_bumpEnv :
    StoresInWindow bumpEnv twoRoots (fun _ => 0) 0x400000 0x5000000 0 ↔
      bumpEnv.hhdm = 0 ∨ ∃ t, leafTable bumpEnv twoRoots (fun _ => 0)
        (keyOf 0x400000) = some t :=
  storesInWindow_iff nextFrames_bumpEnv 0x400000 0x5000000 0

theorem not_storesInWindow_bumpEnv :
    NextFrames bumpEnv twoRoots (fun _ => 0) ∧
      ¬ StoresInWindow bumpEnv twoRoots (fun _ => 0) 0x400000 0x5000000 0 := by
  refine ⟨nextFrames_bumpEnv, fun hall => ?_⟩
  exact not_windowSafe_of_missing nextFrames_bumpEnv (by decide)
    (leafTable_twoRoots _) 0x5000000 0 (hall _ differsInFrames_staleMem)

end VegaOS
