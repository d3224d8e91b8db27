import VegaOS.Proofs.MmuRefine
import VegaOS.Proofs.PmmAlloc

/-!
# Page tables on the kernel's own allocator

`next_level` clears a new table at its physical address, so it runs only where
physical addresses are mapped to themselves. There the window and that mapping
are two views of one memory, and memory is taken by physical address here: the
window is at 0.

`pmm_alloc` marks nothing, so while the bitmap is not written to it gives one
answer only, and every missing level is created in the same frame: cleared
again for each, it ends up with the last link and the page, whatever it held
before. What a pagemap translates after such a call is said exactly, for every
address.
-/

namespace VegaOS

open ByteMem Trace

/-! ## One answer -/

/-- A scan looks at no byte but those of the bitmap. -/
theorem scan_congr {mem mem' : Mem} {bitmap frames : Word} {len : ℕ}
    (hsame : ∀ x, Span bitmap len x → mem' x = mem x) : ∀ (n : ℕ)
    (currentBit bit found : Word), currentBit.toNat + n ≤ 8 * len →
      currentBit.toNat + n < 2 ^ 64 →
      pmmAlloc.scan mem' bitmap frames n currentBit bit found =
        pmmAlloc.scan mem bitmap frames n currentBit bit found := by
  intro n
  induction n with
  | zero => exact fun _ _ _ _ _ => rfl
  | succ n ih =>
      intro currentBit bit found hle hlt
      have hspan : Span bitmap len (bitmap + currentBit / 8) := by
        have hdiv := toNat_div_eight currentBit
        rw [Span]
        generalize currentBit / 8 = d at hdiv ⊢
        bv_omega
      have htest : bitmapTestBit mem' bitmap currentBit =
          bitmapTestBit mem bitmap currentBit := by
        rw [bitmapTestBit, bitmapTestBit, hsame _ hspan]
      have hnext : (currentBit + 1).toNat = currentBit.toNat + 1 := by
        bv_omega
      have hrest := fun bit found =>
        ih (currentBit + 1) bit found (by omega) (by omega)
      simp only [pmmAlloc.scan, htest, hrest]

/-- The answer depends on the bitmap, which takes `size` bytes. -/
theorem pmmAlloc_congr {st : Pmm} {size : Word} {mem : Mem}
    (hsize : getBitmapSize st.mmap = .ok size)
    (hsame : ∀ x, Span st.bitmap size.toNat x → mem x = st.mem x)
    (frames : Word) :
    pmmAlloc { st with mem := mem } frames = pmmAlloc st frames := by
  have hmul : (size * 8).toNat ≤ 8 * size.toNat := by
    rw [BitVec.toNat_mul, Nat.mul_comm 8]
    exact Nat.mod_le _ _
  have hlt := (size * 8).isLt
  have hstart := st.bitmapStartBit.isLt
  rw [pmmAlloc, pmmAlloc, hsize]
  refine congrArg Except.ok ?_
  show pmmAlloc.scan mem st.bitmap frames
      ((size * 8).toNat - st.bitmapStartBit.toNat) st.bitmapStartBit 0 0 =
    pmmAlloc.scan st.mem st.bitmap frames
      ((size * 8).toNat - st.bitmapStartBit.toNat) st.bitmapStartBit 0 0
  by_cases hbelow : st.bitmapStartBit.toNat ≤ (size * 8).toNat
  · exact scan_congr hsame _ _ _ _ (by omega) (by omega)
  · rw [Nat.sub_eq_zero_of_le (Nat.le_of_not_le hbelow)]
    rfl

/-- Memory by physical address, and an allocator with one answer. -/
def ownEnv (frame : Word) : Env := ⟨0, fun _ => frame⟩

/-- The descriptor of the one table there is. -/
def ownLink (frame : Word) : Word := frame ||| PTE_P ||| PTE_TBL

/-- The answer of `pmm_alloc(1)`, and where it lies: it is none of the roots,
and neither it nor the roots are where the bitmap is. The roots link nothing
else yet. -/
structure OwnFrame (pmm : Pmm) (p : Pagemap) (size frame : Word) : Prop where
  size_eq : getBitmapSize pmm.mmap = .ok size
  answer : pmmAlloc pmm 1 = .ok frame
  isFrame : Frame frame
  root : ∀ r, Frame (p.ttbr r)
  root_ne : ∀ r, p.ttbr r ≠ frame
  frame_apart : Apart frame 4096 pmm.bitmap size.toNat
  root_apart : ∀ r, Apart (p.ttbr r) 4096 pmm.bitmap size.toNat
  links : ∀ r i, linked (table (ownEnv frame) pmm.mem (p.ttbr r) i) = none ∨
    linked (table (ownEnv frame) pmm.mem (p.ttbr r) i) = some frame

/-! ## Creating a level -/

section Create

variable {frame t u : Word} {s : Machine} {i j : Fin 512}

theorem linked_ownLink (h : Frame frame) : linked (ownLink frame) = some frame := by
  rw [ownLink, linked_linkDesc, h.and_addrMask]

theorem nextLevel_own (hframe : Frame frame)
    (h : linked (table (ownEnv frame) s.mem t i) = none) :
    nextLevel (ownEnv frame) t (BitVec.ofNat 64 i) true s =
      .ok frame (s.created (ownEnv frame) t i) := by
  have hmask : (ownEnv frame).frames s.taken &&& PTE_ADDR_MASK = frame :=
    hframe.and_addrMask
  rw [nextLevel_created (ownEnv frame) h, hmask]

/-- A level that is created in the one frame clears it. -/
theorem table_created_own (hframe : PageAligned frame) (ht : PageAligned t)
    (hu : PageAligned u) :
    table (ownEnv frame) (s.created (ownEnv frame) t i).mem u j =
      if u = t ∧ j = i then ownLink frame
      else if u = frame then 0 else table (ownEnv frame) s.mem u j := by
  have hself : ∀ a : Word, a + (ownEnv frame).hhdm = a := BitVec.add_zero
  rw [created_mem]
  by_cases hslot : u = t ∧ j = i
  · rw [if_pos hslot, hslot.1, hslot.2]
    exact table_write _ _
  · rw [if_neg hslot, table_write_of_ne _ _ ht hu hslot]
    split
    · rename_i hnew
      subst hnew
      refine read64_eq_zero fun x hx => ?_
      have hspan := span_page_of_slot hx
      rw [hself] at hspan
      rw [memset_apply]
      exact if_pos hspan
    · rename_i hold
      refine read64_congr fun x hx => ?_
      have hapart : ¬ Span (frame + (ownEnv frame).hhdm) 4096 x :=
        page_apart hu hframe hold x (span_page_of_slot hx)
      rw [hself] at hapart
      rw [memset_apply]
      exact if_neg hapart

/-- It writes to the frame and to the table it is linked from. -/
theorem created_of_apart {x : Word} (hframe : ¬ Span frame 4096 x)
    (ht : ¬ Span t 4096 x) :
    (s.created (ownEnv frame) t i).mem x = s.mem x := by
  have hslot : ¬ Span (slot (ownEnv frame).hhdm t i) 8 x := by
    intro hx
    have hspan := span_page_of_slot hx
    rw [show t + (ownEnv frame).hhdm = t from BitVec.add_zero t] at hspan
    exact ht hspan
  rw [created_mem, write64_of_not_span _ _ hslot, memset_apply]
  exact if_neg hframe

end Create

/-! ## The walk down -/

section Descend

variable {pmm : Pmm} {p : Pagemap} {size frame : Word}

/-- The machine runs on the memory of the allocator, or on one that agrees
with it about the bitmap, and every answer since `s₀` is the allocator's. -/
structure OwnRun (pmm : Pmm) (size : Word) (s₀ s : Machine) : Prop where
  bitmap : ∀ x, Span pmm.bitmap size.toNat x → s.mem x = pmm.mem x
  answers : ∀ f m, Event.alloc f m ∈ s.log → Event.alloc f m ∈ s₀.log ∨
    pmmAlloc { pmm with mem := m } 1 = .ok f

theorem OwnRun.visited {s₀ s : Machine} (h : OwnRun pmm size s₀ s) (t : Word) :
    OwnRun pmm size s₀ (s.visited t) := by
  refine ⟨h.bitmap, fun f m hmem => ?_⟩
  cases hmem with
  | tail _ hmem => exact h.answers f m hmem

theorem OwnRun.created (hown : OwnFrame pmm p size frame) {s₀ s : Machine}
    (h : OwnRun pmm size s₀ s) {t : Word}
    (ht : Apart t 4096 pmm.bitmap size.toNat) (i : Fin 512) :
    OwnRun pmm size s₀ (s.created (ownEnv frame) t i) := by
  refine ⟨fun x hx => ?_, fun f m hmem => ?_⟩
  · rw [created_of_apart (fun hin => hown.frame_apart x hin hx)
      fun hin => ht x hin hx]
    exact h.bitmap x hx
  · have hcases : Event.alloc f m ∈ s.log ∨ f = frame ∧ m = s.mem := by
      simpa [Machine.created, ownEnv, or_comm] using hmem
    rcases hcases with hold | ⟨rfl, rfl⟩
    · exact h.answers f m hold
    · refine Or.inr ?_
      rw [pmmAlloc_congr hown.size_eq h.bitmap]
      exact hown.answer

/-- What the entries are once the walk has been down: the frame holds one
link, the last one. -/
def walked (old : Word → Fin 512 → Word) (frame root : Word)
    (i₀ i₂ : Fin 512) (u : Word) (j : Fin 512) : Word :=
  if u = frame then if j = i₂ then ownLink frame else 0
  else if u = root ∧ j = i₀ then ownLink frame else old u j

/-- Every level is missing, except that the frame links itself already where
the indices of levels 1 and 2 agree. -/
theorem descend_own (hown : OwnFrame pmm p size frame) {s₀ s : Machine}
    (hs : OwnRun pmm size s₀ s) {r : Fin 2} {i₀ : Fin 512} (i₁ i₂ : Fin 512)
    (hmissing : linked (table (ownEnv frame) s.mem (p.ttbr r) i₀) = none) :
    ∃ s', descend (ownEnv frame) (p.ttbr r) [i₀, i₁, i₂] s = .ok frame s' ∧
      OwnRun pmm size s₀ s' ∧ ∀ u j, PageAligned u →
        table (ownEnv frame) s'.mem u j =
          walked (table (ownEnv frame) s.mem) frame (p.ttbr r) i₀ i₂ u j := by
  have hframe := hown.isFrame.aligned
  have hroot := (hown.root r).aligned
  have hne := hown.root_ne r
  let s₁ := s.created (ownEnv frame) (p.ttbr r) i₀
  have hs₁ : OwnRun pmm size s₀ s₁ := hs.created hown (hown.root_apart r) i₀
  have ht₁ : ∀ u j, PageAligned u → table (ownEnv frame) s₁.mem u j =
      if u = p.ttbr r ∧ j = i₀ then ownLink frame
      else if u = frame then 0 else table (ownEnv frame) s.mem u j :=
    fun u j hu => table_created_own hframe hroot hu
  have hempty : linked (table (ownEnv frame) s₁.mem frame i₁) = none := by
    rw [ht₁ _ _ hframe, if_neg fun h => hne h.1.symm, if_pos rfl, linked_zero]
  let s₂ := s₁.created (ownEnv frame) frame i₁
  have hs₂ : OwnRun pmm size s₀ s₂ := hs₁.created hown hown.frame_apart i₁
  have ht₂ : ∀ u j, PageAligned u → table (ownEnv frame) s₂.mem u j =
      walked (table (ownEnv frame) s.mem) frame (p.ttbr r) i₀ i₁ u j := by
    intro u j hu
    rw [table_created_own hframe hframe hu, ht₁ u j hu, walked]
    by_cases h : u = frame
    · by_cases hj : j = i₁ <;> simp [h, hj]
    · simp [h]
  rw [descend, run_bind_ok (nextLevel_own hown.isFrame hmissing), descend,
    run_bind_ok (nextLevel_own hown.isFrame hempty), descend]
  by_cases hi : i₂ = i₁
  · have hlink : linked (table (ownEnv frame) s₂.mem frame i₂) = some frame := by
      rw [ht₂ _ _ hframe, walked, if_pos rfl, if_pos hi,
        linked_ownLink hown.isFrame]
    rw [run_bind_ok (nextLevel_linked _ true hlink), hi]
    exact ⟨_, rfl, hs₂.visited frame, ht₂⟩
  · have hlink : linked (table (ownEnv frame) s₂.mem frame i₂) = none := by
      rw [ht₂ _ _ hframe, walked, if_pos rfl, if_neg hi, linked_zero]
    rw [run_bind_ok (nextLevel_own hown.isFrame hlink)]
    refine ⟨_, rfl, hs₂.created hown hown.frame_apart i₂, fun u j hu => ?_⟩
    rw [table_created_own hframe hframe hu, ht₂ u j hu, walked, walked]
    by_cases h : u = frame
    · by_cases hj : j = i₂ <;> simp [h, hj]
    · simp [h]

end Descend

/-! ## Reading the tables back -/

section Read

variable {S : Word → Fin 512 → Word} {frame phys desc : Word} {i₂ i₃ : Fin 512}

/-- What is found below the frame by the indices of levels 1, 2 and 3. If the
page is that frame, its entry is a second link. -/
def oneFrameWalk (frame phys : Word) (i₂ i₃ j₁ j₂ j₃ : Fin 512) : Word :=
  if phys = frame then
    if (j₁ = i₂ ∨ j₁ = i₃) ∧ (j₂ = i₂ ∨ j₂ = i₃) ∧ (j₃ = i₂ ∨ j₃ = i₃) then
      frame
    else 0
  else if j₁ = i₂ ∧ j₂ = i₂ ∧ i₂ ≠ i₃ then
    if j₃ = i₃ then phys else if j₃ = i₂ then frame else 0
  else 0

/-- When the page is found where it was asked for. -/
theorem oneFrameWalk_self (hphys : phys ≠ 0) (j₁ : Fin 512) :
    oneFrameWalk frame phys i₂ i₃ j₁ i₂ i₃ = phys ↔
      if phys = frame then j₁ = i₂ ∨ j₁ = i₃ else j₁ = i₂ ∧ i₂ ≠ i₃ := by
  rw [oneFrameWalk]
  by_cases hown : phys = frame
  · rw [if_pos hown, if_pos hown, ← hown]
    split
    · rename_i hall
      exact iff_of_true rfl hall.1
    · rename_i hnot
      exact iff_of_false hphys.symm
        fun h => hnot ⟨h, Or.inl rfl, Or.inr rfl⟩
  · rw [if_neg hown, if_neg hown, if_pos rfl]
    split
    · rename_i hall
      exact iff_of_true rfl ⟨hall.1, hall.2.2⟩
    · rename_i hnot
      exact iff_of_false hphys.symm fun h => hnot ⟨h.1, rfl, h.2⟩

/-- Above level 3 a page is taken for a table. -/
theorem linked_pageDesc (ha : PageAligned phys) (hlt : phys.toNat < 2 ^ 48)
    (flags : Word) : linked (pageDesc phys flags) = some phys := by
  have hsplit : pageDesc phys flags =
      (PTE_AF ||| phys ||| pteFlags flags) ||| (PTE_P ||| PTE_TBL) := by
    rw [pageDesc]
    ac_rfl
  rw [linked, if_pos, pageDesc_and_addrMask ha hlt]
  rw [hsplit, or_and_self_right]

/-- A page of zeros is no way on. -/
theorem softWalk_zeros (hdata : ∀ j, S phys j = 0) (path : List (Fin 512)) :
    softWalk S phys path = 0 := by
  match path with
  | [] => rfl
  | [i] =>
      rw [softWalk, hdata]
      exact BitVec.zero_and
  | i :: j :: path =>
      rw [softWalk, hdata, linked_zero]

/-- A level found in the frame: only the link leads on. -/
theorem softWalk_frame (hframe : Frame frame)
    (hS : ∀ j, S frame j =
      if j = i₃ then desc else if j = i₂ then ownLink frame else 0)
    (hdesc : linked desc = some phys) (hdata : ∀ j, S phys j = 0)
    {path : List (Fin 512)} (hpath : path ≠ []) (j : Fin 512) :
    softWalk S frame (j :: path) =
      if j = i₂ ∧ i₂ ≠ i₃ then softWalk S frame path else 0 := by
  by_cases hj₃ : j = i₃
  · have hentry : linked (S frame j) = some phys := by
      rw [hS, if_pos hj₃, hdesc]
    rw [if_neg fun h => h.2 (h.1 ▸ hj₃)]
    by_cases hzero : phys = 0
    · exact softWalk_stop hpath (by rw [hentry]; exact hzero)
    · rw [softWalk_step hpath (by rw [hentry]; exact hzero), hentry]
      exact softWalk_zeros hdata path
  · by_cases hj₂ : j = i₂
    · have hentry : linked (S frame j) = some frame := by
        rw [hS, if_neg hj₃, if_pos hj₂, linked_ownLink hframe]
      have hne : i₂ ≠ i₃ := fun h => hj₃ (hj₂.trans h)
      rw [if_pos ⟨hj₂, hne⟩, softWalk_step hpath
        (by rw [hentry]; exact hframe.ne_zero), hentry]
      rfl
    · rw [if_neg fun h => hj₂ h.1, softWalk_stop hpath]
      rw [hS, if_neg hj₃, if_neg hj₂, linked_zero]
      rfl

/-- Two links, if the page is the frame. -/
theorem softWalk_ownPage (hframe : Frame frame)
    (hS : ∀ j, S frame j =
      if j = i₃ then desc else if j = i₂ then ownLink frame else 0)
    (hdesc : linked desc = some frame) {path : List (Fin 512)}
    (hpath : path ≠ []) (j : Fin 512) :
    softWalk S frame (j :: path) =
      if j = i₂ ∨ j = i₃ then softWalk S frame path else 0 := by
  by_cases hj : j = i₂ ∨ j = i₃
  · have hentry : linked (S frame j) = some frame := by
      rw [hS]
      split
      · exact hdesc
      · rename_i hj₃
        rw [if_pos (hj.resolve_right hj₃), linked_ownLink hframe]
    rw [if_pos hj, softWalk_step hpath
      (by rw [hentry]; exact hframe.ne_zero), hentry]
    rfl
  · rw [if_neg hj, softWalk_stop hpath]
    rw [not_or] at hj
    rw [hS, if_neg hj.2, if_neg hj.1, linked_zero]
    rfl

theorem softWalk_oneFrame (hframe : Frame frame)
    (hS : ∀ j, S frame j =
      if j = i₃ then desc else if j = i₂ then ownLink frame else 0)
    (hdesc : linked desc = some phys)
    (hdata : phys ≠ frame → ∀ j, S phys j = 0) (j₁ j₂ j₃ : Fin 512) :
    softWalk S frame [j₁, j₂, j₃] = oneFrameWalk frame phys i₂ i₃ j₁ j₂ j₃ := by
  have hmask : ownLink frame &&& PTE_ADDR_MASK = frame :=
    (linked_eq_some (linked_ownLink hframe)).2
  have hlast : softWalk S frame [j₃] =
      if j₃ = i₃ then phys else if j₃ = i₂ then frame else 0 := by
    rw [softWalk, hS, ← (linked_eq_some hdesc).2]
    split
    · rfl
    · split
      · exact hmask
      · exact BitVec.zero_and
  by_cases hown : phys = frame
  · subst hown
    rw [softWalk_ownPage hframe hS hdesc (by simp),
      softWalk_ownPage hframe hS hdesc (by simp), hlast, oneFrameWalk,
      if_pos rfl]
    by_cases h₁ : j₁ = i₂ ∨ j₁ = i₃ <;> by_cases h₂ : j₂ = i₂ ∨ j₂ = i₃ <;>
      by_cases h₃ : j₃ = i₃ <;> simp [h₁, h₂, h₃]
  · rw [softWalk_frame hframe hS hdesc (hdata hown) (by simp),
      softWalk_frame hframe hS hdesc (hdata hown) (by simp), hlast,
      oneFrameWalk, if_neg hown]
    by_cases h₁ : j₁ = i₂ <;> by_cases h₂ : j₂ = i₂ <;>
      by_cases h₃ : i₂ = i₃ <;> simp [h₁, h₂, h₃]

end Read

/-- The entry of level 0 that `w` goes through is the one the call on `v`
links, or one that was linked before. -/
def SharesRoot (p : Pagemap) (frame : Word) (mem : Mem) (v w : Word) : Prop :=
  p.ttbr (ttbrIndex w) = p.ttbr (ttbrIndex v) ∧ indexAt w 39 = indexAt v 39 ∨
    linked (table (ownEnv frame) mem (p.ttbr (ttbrIndex w)) (indexAt w 39)) =
      some frame

instance (p : Pagemap) (frame : Word) (mem : Mem) (v w : Word) :
    Decidable (SharesRoot p frame mem v w) :=
  inferInstanceAs (Decidable (_ ∧ _ ∨ _))

/-- What the entries are after the call. -/
theorem table_wrote_own {frame : Word} {s : Machine} (hframe : PageAligned frame)
    (v desc : Word) {u : Word} (hu : PageAligned u) (j : Fin 512) :
    table (ownEnv frame) (s.wrote (ownEnv frame) v desc frame).mem u j =
      if u = frame ∧ j = indexAt v 12 then desc
      else table (ownEnv frame) s.mem u j := by
  rw [wrote_mem]
  split
  · rename_i hslot
    rw [hslot.1, hslot.2]
    exact table_write _ _
  · rename_i hslot
    exact table_write_of_ne _ _ hframe hu hslot

/-- What is found from a root, once the call on `v` has made its entries. -/
theorem softWalk_ownAlloc {pmm : Pmm} {p : Pagemap} {size frame : Word}
    (hown : OwnFrame pmm p size frame) {v phys desc : Word}
    (hphys : PageAligned phys) (hroot : ∀ r, phys ≠ p.ttbr r)
    (hdata : phys ≠ frame → ∀ j, table (ownEnv frame) pmm.mem phys j = 0)
    (hdesc : linked desc = some phys) {S : Word → Fin 512 → Word}
    (hentry : ∀ u j, PageAligned u → S u j =
      if u = frame ∧ j = indexAt v 12 then desc
      else walked (table (ownEnv frame) pmm.mem) frame
        (p.ttbr (ttbrIndex v)) (indexAt v 39) (indexAt v 21) u j) (w : Word) :
    softWalk S (startTable p w) ((keyOf w).path ++ [(keyOf w).leaf]) =
      if SharesRoot p frame pmm.mem v w then
        oneFrameWalk frame phys (indexAt v 21) (indexAt v 12)
          (indexAt w 30) (indexAt w 21) (indexAt w 12)
      else 0 := by
  have hr := hown.root (ttbrIndex w)
  have hmask : startTable p w = p.ttbr (ttbrIndex w) := by
    rw [startTable, ← hr.and_addrMask, BitVec.and_assoc]
    rfl
  have hlevel₀ : S (p.ttbr (ttbrIndex w)) (indexAt w 39) =
      if p.ttbr (ttbrIndex w) = p.ttbr (ttbrIndex v) ∧
        indexAt w 39 = indexAt v 39 then ownLink frame
      else table (ownEnv frame) pmm.mem (p.ttbr (ttbrIndex w))
        (indexAt w 39) := by
    rw [hentry _ _ hr.aligned, if_neg fun h => hown.root_ne _ h.1, walked,
      if_neg (hown.root_ne _)]
  have hS : ∀ j, S frame j =
      if j = indexAt v 12 then desc
      else if j = indexAt v 21 then ownLink frame else 0 := by
    intro j
    rw [hentry frame j hown.isFrame.aligned, walked, if_pos rfl]
    simp only [true_and]
  have hzeros : phys ≠ frame → ∀ j, S phys j = 0 := by
    intro hne j
    rw [hentry phys j hphys, if_neg fun h => hne h.1, walked, if_neg hne,
      if_neg fun h => hroot _ h.1, hdata hne]
  have hbelow := softWalk_oneFrame hown.isFrame hS hdesc hzeros
    (indexAt w 30) (indexAt w 21) (indexAt w 12)
  rw [hmask]
  show softWalk _ _ (indexAt w 39 :: [indexAt w 30, indexAt w 21, indexAt w 12])
    = _
  by_cases hshares : SharesRoot p frame pmm.mem v w
  · have hlink : linked (S (p.ttbr (ttbrIndex w)) (indexAt w 39)) =
        some frame := by
      rw [hlevel₀]
      split
      · exact linked_ownLink hown.isFrame
      · rename_i hother
        exact hshares.resolve_left hother
    rw [if_pos hshares, softWalk_step (by simp)
      (by rw [hlink]; exact hown.isFrame.ne_zero), hlink, Option.getD_some,
      hbelow]
  · have hnolink : linked (S (p.ttbr (ttbrIndex w)) (indexAt w 39)) =
        none := by
      rw [hlevel₀, if_neg fun h => hshares (Or.inl h)]
      exact (hown.links _ _).resolve_right fun h => hshares (Or.inr h)
    rw [if_neg hshares, softWalk_stop (by simp) (by rw [hnolink]; rfl)]

/-- A bitmap of one page at address 0, with frame 9 the first that is free. -/
def ninePmm : Pmm :=
  ⟨[⟨0x8000, 0x3000, LIMINE_MEMMAP_USABLE⟩], 0, 9, fun _ => 0, []⟩

theorem ownFrame_nine : OwnFrame ninePmm twoRoots 0x1000 0x9000 where
  size_eq := by decide
  answer := by decide
  isFrame := by decide
  root := by decide
  root_ne := by decide
  frame_apart x hx hx' := by
    simp only [Span, ninePmm] at hx hx'
    bv_omega
  root_apart := by
    have hroot : ∀ r, twoRoots.ttbr r = 0x1000 ∨ twoRoots.ttbr r = 0x2000 := by
      decide
    intro r x hx hx'
    simp only [Span, ninePmm] at hx hx'
    rcases hroot r with h | h
    · rw [h] at hx
      bv_omega
    · rw [h] at hx
      bv_omega
  links _ _ := Or.inl (linked_table_zero _ _ _)

end VegaOS
