import VegaOS.Proofs.InitText
import VegaOS.Proofs.PmmInit

/-!
# What a start shows

There is one memory. Drawing a message changes what the memory manager works
on, and placing the bitmap changes what the messages are drawn on. Where the
screen, the bitmap and the strings are apart, neither notices the other: the
memory manager goes through the states it would go through if nothing were
printed, and the screen shows the messages on top of what would be there then.
`Booting` says so of a state of the start, with the state of the memory manager
that prints nothing beside it.

So the run ends as the memory manager does on the map it is given: in the last
loop, in a panic, or in a loop that no fuel is enough for.
-/

namespace VegaOS

open ByteMem Trace

/-- The state `pmm_init` starts from, the memory map apart. -/
def Pmm.start (mem : Mem) : Pmm := ⟨[], 0, 0, mem, []⟩

/-! ## Printing -/

section Booting

variable {fb : Framebuffer} (h : Geometry fb)

/-- The memory manager is where `g` is, which prints nothing, and the screen
shows a text on top of the memory of `g`. -/
structure Booting (g : Pmm) (out : Text) (k : Statics) : Prop where
  pmm : k.pmm = { g with mem := k.pmm.mem }
  shows : Shows h g.mem out k.pty

theorem Booting.bitmap {h : Geometry fb} {g : Pmm} {out : Text} {k : Statics}
    (hk : Booting h g out k) : k.pmm.bitmap = g.bitmap := by
  have hbitmap := congrArg Pmm.bitmap hk.pmm
  exact hbitmap

theorem Booting.mmap {h : Geometry fb} {g : Pmm} {out : Text} {k : Statics}
    (hk : Booting h g out k) : k.pmm.mmap = g.mmap := by
  have hmmap := congrArg Pmm.mmap hk.pmm
  exact hmmap

/-- The strings are where the kernel looks for them, and nothing is drawn
there. -/
def Strings {abi : Abi} (env : Build abi) (mem : Mem) : Prop :=
  ∀ s ∈ kernelStrings, env.Has mem s ∧
    ∀ i ≤ s.length, ¬ h.raster.Shown (env.addr s + BitVec.ofNat 64 i)

variable {h} {abi : Abi} {env : Build abi} {g : Pmm} {out : Text} {k : Statics}

/-- So they are there whatever has been drawn. -/
theorem Booting.strings (hk : Booting h g out k) (hs : Strings h env g.mem) :
    ∀ s ∈ kernelStrings, env.Has k.pmm.mem s := by
  intro s hmem
  obtain ⟨hhas, hoff⟩ := hs s hmem
  refine hhas.congr fun i hi => ?_
  rw [← k.shared]
  exact hk.shows.frame _ (hoff i hi)

theorem boot_get (k : Statics) : (get : Boot Statics) k = .ok k k := rfl

theorem boot_set (k k' : Statics) : (set k' : Boot PUnit) k = .ok ⟨⟩ k' := rfl

variable (hput : 800 < env.putFuel) {text : Text} (hshort : Short 800 text)
variable (hroom : (out ++ text).length < 2 ^ 28)
include hput hshort hroom

/-- What is printed is drawn behind the text on the screen. -/
theorem Booting.draw (hk : Booting h g out k) {c : Console}
    (hc : Printed k.pmm.mem k.console c text) : ∃ k',
    draw env (c.calls.drop k.console.calls.length) { k with console := c } =
        .ok () k' ∧ Booting h g (out ++ text) k' := by
  obtain ⟨calls, hcalls, hout⟩ := hc
  rw [hcalls, List.drop_left]
  have hlen : text.length < env.putFuel := Nat.lt_of_le_of_lt hshort.2 hput
  obtain ⟨pty, hdeliver, hpty⟩ := deliver_shows h ⟨abi, env.pastFont⟩
    hk.shows hout hshort.1 (fits_of_length hroom) hlen
  refine ⟨Statics.setPty { k with console := c } pty, ?_, ?_, hpty⟩
  · rw [VegaOS.draw, hdeliver]
  · exact congrArg (fun pmm : Pmm => { pmm with mem := pty.video.mem }) hk.pmm

/-- Also if it is the last thing before a panic. -/
theorem Booting.onConsole (hk : Booting h g out k) {p : Print Unit}
    (hc : Printed k.pmm.mem k.console (after (p k.console)) text) : ∃ k',
    Booting h g (out ++ text) k' ∧ onConsole env p k =
      match p k.console with
      | .ok _ _ => .ok () k'
      | .error f _ => .error (.console f) k' := by
  obtain ⟨k', hdraw, hk'⟩ := hk.draw hput hshort hroom hc
  refine ⟨k', hk', ?_⟩
  rw [VegaOS.onConsole]
  refine (run_bind_ok (boot_get k)).trans ?_
  cases hp : p k.console with
  | ok a c =>
      rw [hp, after_ok] at hdraw
      exact (run_bind_ok (boot_set k _)).trans (run_bind_ok hdraw)
  | error f c =>
      rw [hp, after_error] at hdraw
      exact (run_bind_ok (boot_set k _)).trans (run_bind_ok hdraw)

end Booting

section Kinfo

variable {fb : Framebuffer} {h : Geometry fb} {abi : Abi} {env : Build abi}
variable {g : Pmm} {out : Text} {k : Statics}
variable (hfuel : 50 ≤ env.fuel) (hput : 800 < env.putFuel)
variable (hs : Strings h env g.mem)
include hput hs

theorem Booting.runPrintk (hk : Booting h g out k) {fmt : List Byte}
    {args : ℕ → Word} {text : Text} (ht : Tells env fmt args text)
    (hshort : Short 800 text) (hroom : (out ++ text).length < 2 ^ 28) : ∃ k',
    runPrintk env fmt args k = .ok () k' ∧ Booting h g (out ++ text) k' := by
  obtain ⟨c, hrun, hout⟩ := ht _ (hk.strings hs) k.console
  rw [← after_ok () c, ← hrun] at hout
  obtain ⟨k', hk', hsame⟩ := hk.onConsole hput hshort hroom hout
  rw [hrun] at hsame
  exact ⟨k', (run_bind_ok (boot_get k)).trans hsame, hk'⟩

include hfuel

theorem Booting.kinfo (hk : Booting h g out k) {module fmt : List Byte}
    {args : ℕ → Word} {text : Text} (hmodule : module ∈ argStrings)
    (ht : Tells env fmt args text) (hshort : Short 100 text)
    (hroom : (out ++ (kinfoText module ++ text)).length < 2 ^ 28) : ∃ k',
    kinfo env module fmt args k = .ok () k' ∧
      Booting h g (out ++ (kinfoText module ++ text)) k' := by
  rw [← List.append_assoc] at hroom ⊢
  have hroom₁ : (out ++ kinfoText module).length < 2 ^ 28 := by
    rw [List.length_append] at hroom
    omega
  obtain ⟨k₁, hrun₁, hk₁⟩ := hk.runPrintk hput hs (tells_begin hfuel hmodule)
    ((short_kinfoText hmodule).mono (by omega)) hroom₁
  obtain ⟨k', hrun, hk'⟩ :=
    hk₁.runPrintk hput hs ht (hshort.mono (by omega)) hroom
  exact ⟨k', (run_bind_ok hrun₁).trans hrun, hk'⟩

end Kinfo

/-! ## Where the bitmap is -/

/-- The bytes of the bitmap: those that are filled with ones, and those of the
bits that are then unset, which may be behind them. -/
def BitmapStore (hhdm : Word) (mmap : List MemmapEntry) (a : Word) : Prop :=
  ∃ size host mmap', getBitmapSize mmap = .ok size ∧
    placeBitmap size mmap = some (host, mmap') ∧
    (Span (host.base + hhdm) size.toNat a ∨
      ∃ bit ∈ framesToUnset size mmap', a = host.base + hhdm + bit / 8)

theorem framesToUnset_short {size : Word} {es : List MemmapEntry}
    (hplace : placeBitmap size es = none) : framesToUnset size es = [] := by
  induction es with
  | nil => rfl
  | cons e rest ih =>
      have hmiss : ¬ (e.Usable ∧ size ≤ e.length) := fun hc => by
        rw [placeBitmap_hit hc] at hplace
        cases hplace
      rw [placeBitmap_miss hmiss, Option.map_eq_none_iff] at hplace
      rw [framesToUnset, if_neg hmiss]
      exact ih hplace

section Store

variable (hhdm : Word) {size : Word} {mmap : List MemmapEntry} (st : Pmm)
variable (hmap : st.mmap = mmap) (hsize : getBitmapSize mmap = .ok size)
include hmap hsize

/-- Placing the bitmap is a change of its bytes. -/
theorem hostBitmap_local : ∃ f, LocalTo (BitmapStore hhdm mmap) f ∧
    ∀ m, hostBitmap hhdm size { st with mem := m } =
      { hostBitmap hhdm size st with mem := f m } := by
  cases hplace : placeBitmap size mmap with
  | none =>
      refine ⟨fun m => m, LocalTo.id, fun m => ?_⟩
      simp only [hostBitmap, hmap, hplace]
  | some placed =>
      obtain ⟨host, mmap'⟩ := placed
      refine ⟨fun m => memset m (host.base + hhdm) 0xFF size,
        localTo_memset (fun a ha => ?_) 0xFF, fun m => ?_⟩
      · exact ⟨size, host, mmap', hsize, hplace, Or.inl ha⟩
      · simp only [hostBitmap, hmap, hplace]

/-- So is unsetting its bits. -/
theorem unsetFrames_local {g : Pmm} (hg : g = hostBitmap hhdm size st) :
    LocalTo (BitmapStore hhdm mmap) fun m =>
      (framesToUnset size g.mmap).foldl
        (fun m bit => bitmapUnsetBit m g.bitmap bit) m := by
  refine LocalTo.foldl fun bit hbit => localTo_bitmapUnsetBit ?_
  cases hplace : placeBitmap size mmap with
  | none =>
      have hnone : g.mmap = mmap := by simp only [hg, hostBitmap, hmap, hplace]
      rw [hnone, framesToUnset_short hplace] at hbit
      exact absurd hbit List.not_mem_nil
  | some placed =>
      obtain ⟨host, mmap'⟩ := placed
      have hhost : g.bitmap = host.base + hhdm ∧ g.mmap = mmap' := by
        simp only [hg, hostBitmap, hmap, hplace, and_self]
      rw [hhost.2] at hbit
      rw [hhost.1]
      exact ⟨size, host, mmap', hsize, hplace, Or.inr ⟨bit, hbit, rfl⟩⟩

end Store

/-- Where the screen, the bitmap and the strings are: the strings are in
memory, and the three are apart. -/
structure Layout {fb : Framebuffer} (h : Geometry fb) {abi : Abi}
    (env : Build abi) (hhdm : Word) (mmap : List MemmapEntry) (mem : Mem) :
    Prop where
  strings : Strings h env mem
  kept : ∀ s ∈ kernelStrings, ∀ i ≤ s.length,
    ¬ BitmapStore hhdm mmap (env.addr s + BitVec.ofNat 64 i)
  screen : ∀ a, BitmapStore hhdm mmap a → ¬ h.raster.Shown a

section Local

variable {fb : Framebuffer} {h : Geometry fb} {abi : Abi} {env : Build abi}
variable {hhdm : Word} {mmap : List MemmapEntry} {mem : Mem} {f : Mem → Mem}
variable (hf : LocalTo (BitmapStore hhdm mmap) f)
include hf

theorem Layout.localTo (hlayout : Layout h env hhdm mmap mem) :
    Layout h env hhdm mmap (f mem) where
  strings s hs := ⟨(hlayout.strings s hs).1.congr fun i hi =>
    hf.frame mem _ (hlayout.kept s hs i hi), (hlayout.strings s hs).2⟩
  kept := hlayout.kept
  screen := hlayout.screen

/-- A step of the memory manager that changes the bytes of the bitmap. -/
theorem Booting.setPmm (hlayout : Layout h env hhdm mmap mem) {g g' : Pmm}
    {out : Text} {k : Statics} (hk : Booting h g out k) {st : Pmm}
    (hg' : g'.mem = f g.mem) (hst : st = { g' with mem := f k.pmm.mem }) :
    Booting h g' out (k.setPmm st) where
  pmm := by
    show st = { g' with mem := st.mem }
    rw [hst]
  shows := by
    have hshows := hk.shows.localTo hf hlayout.screen
    rw [← hg', k.shared] at hshows
    rw [hst]
    exact hshows

end Local

theorem Booting.setMmap {fb : Framebuffer} {h : Geometry fb} {abi : Abi}
    {env : Build abi} {hhdm : Word} {mmap : List MemmapEntry} {init : Mem}
    (hlayout : Layout h env hhdm mmap init) {out : Text} {k : Statics}
    (hk : Booting h (.start init) out k) :
    Booting h ⟨mmap, 0, 0, init, []⟩ out
      (k.setPmm { k.pmm with mmap := mmap }) :=
  hk.setPmm LocalTo.id hlayout rfl
    (congrArg (fun pmm : Pmm => { pmm with mmap := mmap }) hk.pmm)

/-! ## The memory manager -/

/-- The ways a run can end that begins with `pmm_init`, and what is on the
screen then. Fuel for the longest entry there can be is enough for it to get to
its end, if any is; a panic and a loop that goes on do not depend on it. -/
inductive Ends {fb : Framebuffer} (h : Geometry fb) (hhdm : Word)
    (mmap : List MemmapEntry) (init : Mem) (shown done : Text) {α : Type}
    (run : ℕ → EStateM.Result Abort Statics α) (a : α) : Prop
  | returns (g : Pmm) (k : Statics)
      (hrun : ∀ loopFuel, 2 ^ 52 < loopFuel →
        pmmInit hhdm loopFuel mmap init = .ok g ∧ run loopFuel = .ok a k)
      (hk : Booting h g done k)
  | panics (k : Statics)
      (hrun : ∀ loopFuel,
        pmmInit hhdm loopFuel mmap init =
            .error (.panic "pmm: Could not find highest entry!\n") ∧
          run loopFuel = .error (.console .halted) k)
      (hk : Booting h ⟨mmap, 0, 0, init, []⟩ shown k)
  | loops (size : Word) (k : Statics)
      (hsize : getBitmapSize mmap = .ok size)
      (hrun : ∀ loopFuel, pmmInit hhdm loopFuel mmap init = .error .fuel ∧
        run loopFuel = .error .initBitmap k)
      (hk : Booting h (hostBitmap hhdm size ⟨mmap, 0, 0, init, []⟩) shown k)

section Run

variable {fb : Framebuffer} {h : Geometry fb} {abi : Abi} {env : Build abi}
variable (hfuel : 50 ≤ env.fuel) (hput : 800 < env.putFuel) {hhdm : Word}
variable {mmap : List MemmapEntry} {init : Mem}

/-- The memory manager leaves everything in its place. -/
theorem Layout.booted (hlayout : Layout h env hhdm mmap init) {loopFuel : ℕ}
    (hloop : 2 ^ 52 < loopFuel) {g : Pmm}
    (hg : pmmInit hhdm loopFuel mmap init = .ok g) :
    Layout h env hhdm mmap g.mem := by
  obtain ⟨size, hsize, hunset⟩ := pmmInit_ok hg
  let st : Pmm := ⟨mmap, 0, 0, init, []⟩
  obtain ⟨f, hf, hhost⟩ := hostBitmap_local hhdm st rfl hsize
  have hmem : (hostBitmap hhdm size st).mem = f init :=
    congrArg Pmm.mem (hhost init)
  by_cases hend : ∃ e ∈ (hostBitmap hhdm size st).mmap,
      (e.Usable ∧ size ≤ e.length) ∧ e.Endless
  · rw [unsetUsable_endless hend] at hunset
    cases hunset
  · rw [unsetUsable_ends hloop hend] at hunset
    obtain rfl := Except.ok.inj hunset
    have hlayout' := (hlayout.localTo hf).localTo
      (unsetFrames_local hhdm st rfl hsize rfl)
    rw [foldl_unsetFrame_mem, hmem]
    exact hlayout'

variable {out : Text} {k : Statics}
include hfuel hput

/-- `pmm_init` up to the loop that unsets bits. -/
theorem run_tillLoop (hlayout : Layout h env hhdm mmap init)
    (hk : Booting h (.start init) out k) {size : Word}
    (hsize : getBitmapSize mmap = .ok size)
    (hroom : (out ++ pmmText hhdm mmap init).length < 2 ^ 28) : ∃ k',
    Booting h (hostBitmap hhdm size ⟨mmap, 0, 0, init, []⟩)
      (out ++ pmmText hhdm mmap init) k' ∧
    ∀ loopFuel, runPmmInit env hhdm loopFuel mmap k =
      match unsetUsable size loopFuel k'.pmm.mmap k'.pmm with
      | .ok pmm => .ok () (k'.setPmm pmm)
      | .error _ => .error .initBitmap k' := by
  let st : Pmm := ⟨mmap, 0, 0, init, []⟩
  let k₀ := k.setPmm { k.pmm with mmap := mmap }
  have hk₀ : Booting h st out k₀ := hk.setMmap hlayout
  have hget : runGetBitmapSize env k₀ = .ok size k₀ := by
    rw [runGetBitmapSize]
    refine (run_bind_ok (boot_get _)).trans ?_
    have hmap : k₀.pmm.mmap = mmap := rfl
    simp only [hmap, hsize]
    rfl
  simp only [pmmText, hsize] at hroom ⊢
  rw [← List.append_assoc] at hroom ⊢
  have hpmm : text "pmm" ∈ argStrings := List.mem_cons_self
  obtain ⟨k₁, hrun₁, hk₁⟩ := hk₀.kinfo hfuel hput hlayout.strings hpmm
    (tells_required hfuel size) ((short_requiredLine size).mono (by omega))
    (by rw [List.length_append] at hroom; omega)
  obtain ⟨f, hf, hhost⟩ := hostBitmap_local hhdm st rfl hsize
  have hmem : (hostBitmap hhdm size st).mem = f init :=
    congrArg Pmm.mem (hhost init)
  have hk₂ : Booting h (hostBitmap hhdm size st) _
      (k₁.setPmm (hostBitmap hhdm size k₁.pmm)) :=
    hk₁.setPmm hf hlayout hmem
      ((congrArg (hostBitmap hhdm size) hk₁.pmm).trans (hhost _))
  have hlayout₂ := hlayout.localTo hf
  rw [← hmem] at hlayout₂
  obtain ⟨k₃, hrun₃, hk₃⟩ := hk₂.kinfo hfuel hput hlayout₂.strings hpmm
    (tells_found hfuel _) ((short_foundLine _).mono (by omega)) hroom
  refine ⟨k₃, hk₃, fun loopFuel => ?_⟩
  have hstart : runPmmInit env hhdm loopFuel mmap k =
      runInitBitmap env hhdm loopFuel k₀ := rfl
  refine hstart.trans ((run_bind_ok hget).trans ((run_bind_ok hrun₁).trans ?_))
  rw [← hk₂.bitmap] at hrun₃
  refine (run_bind_ok hrun₃).trans ?_
  show (match unsetUsable size loopFuel k₃.pmm.mmap k₃.pmm with
    | .ok pmm => modify fun k => k.setPmm pmm
    | .error _ => throw .initBitmap : Boot Unit) k₃ = _
  cases unsetUsable size loopFuel k₃.pmm.mmap k₃.pmm <;> rfl

/-- `pmm_init` ends as it does if nothing is printed, and shows its messages. -/
theorem run_pmmInit (hlayout : Layout h env hhdm mmap init)
    (hk : Booting h (.start init) out k)
    (hroom : (out ++ pmmText hhdm mmap init).length < 2 ^ 28) :
    Ends h hhdm mmap init (out ++ pmmText hhdm mmap init)
      (out ++ pmmText hhdm mmap init)
      (fun loopFuel => runPmmInit env hhdm loopFuel mmap k) () := by
  cases hsize : getBitmapSize mmap with
  | error stop =>
      obtain rfl := getBitmapSize_error hsize
      let k₀ := k.setPmm { k.pmm with mmap := mmap }
      have hk₀ := hk.setMmap hlayout
      simp only [pmmText, hsize] at hroom ⊢
      obtain ⟨c, hrun, hout⟩ :=
        panic_noEntry hfuel (hk₀.strings hlayout.strings) k₀.console
      rw [← after_error Fault.halted c, ← hrun] at hout
      obtain ⟨k', hk', hsame⟩ := hk₀.onConsole hput
        (short_noEntry.mono (by omega)) hroom hout
      rw [hrun] at hsame
      refine .panics k' (fun loopFuel =>
        ⟨pmmInit_of_error hhdm loopFuel init hsize, ?_⟩) hk'
      have hget : runGetBitmapSize env k₀ = .error (.console .halted) k' := by
        rw [runGetBitmapSize]
        refine (run_bind_ok (boot_get _)).trans ?_
        have hmap : k₀.pmm.mmap = mmap := rfl
        simp only [hmap, hsize]
        exact run_bind_error ((run_bind_ok (boot_get _)).trans hsame)
      have hstart : runPmmInit env hhdm loopFuel mmap k =
          runInitBitmap env hhdm loopFuel k₀ := rfl
      exact hstart.trans (run_bind_error hget)
  | ok size =>
      obtain ⟨k', hk', hrun⟩ := run_tillLoop hfuel hput hlayout hk hsize hroom
      let st : Pmm := ⟨mmap, 0, 0, init, []⟩
      let g := hostBitmap hhdm size st
      simp only [hk'.mmap] at hrun
      by_cases hend : ∃ e ∈ g.mmap, (e.Usable ∧ size ≤ e.length) ∧ e.Endless
      · refine .loops size k' hsize (fun loopFuel => ⟨?_, ?_⟩) hk'
        · rw [pmmInit_of_size hhdm loopFuel init hsize]
          exact unsetUsable_endless hend loopFuel _
        · rw [hrun, unsetUsable_endless hend]
      · let bits := framesToUnset size g.mmap
        refine .returns (bits.foldl unsetFrame g)
          (k'.setPmm (bits.foldl unsetFrame k'.pmm))
          (fun loopFuel hloop => ⟨?_, ?_⟩) ?_
        · rw [pmmInit_of_size hhdm loopFuel init hsize]
          exact unsetUsable_ends hloop hend _
        · rw [hrun, unsetUsable_ends hloop hend]
        · refine hk'.setPmm (unsetFrames_local hhdm st rfl hsize rfl) hlayout
            (foldl_unsetFrame_mem bits g) ?_
          exact (congrArg (bits.foldl unsetFrame) hk'.pmm).trans
            (foldl_unsetFrame_withMem bits g k'.pmm.mem)

end Run

/-! ## The architecture -/

/-- What `arch_init` leaves: the tables loaded and the handlers registered, or
the vectors in place and the memory attributes set. -/
def Arch.done : Arch → ArchState
  | .x86_64 isr => .x86_64 ((archInitAmd64 isr).foldl InitStep.run .start)
  | .aarch64 addr s r _ =>
      .aarch64 ((s.setX X0 (addr .vectorTbl)).setSys .vbarEl1 (addr .vectorTbl))
        (aarch64MmuInit r).1 (aarch64MmuInit r).2

section Start

variable {fb : Framebuffer} (h : Geometry fb) (arch : Arch)
variable {env : Build arch.abi} (hfuel : 50 ≤ env.fuel)
variable (hput : 800 < env.putFuel)
include hfuel hput

theorem run_archInit {g : Pmm} {out : Text} {k : Statics}
    (hs : Strings h env g.mem) (hk : Booting h g out k)
    (hroom : (out ++ archText arch).length < 2 ^ 28) : ∃ k',
    archInit env arch k = .ok arch.done k' ∧
      Booting h g (out ++ archText arch) k' := by
  cases arch with
  | x86_64 isr =>
      refine ⟨k, rfl, ?_⟩
      rw [archText, List.append_nil]
      exact hk
  | aarch64 addr s r midrEl1 =>
      rw [archText, ← List.append_assoc, ← List.append_assoc] at hroom ⊢
      have hroom₂ := hroom
      rw [List.length_append] at hroom₂
      have hroom₁ := hroom₂
      rw [List.length_append] at hroom₁
      obtain ⟨k₁, hrun₁, hk₁⟩ := hk.kinfo hfuel hput hs mmu_mem
        (tells_plain hfuel wroteFormat_mem fun _ => 0)
        ((short_plain wroteFormat_mem).mono (by omega)) (by omega)
      obtain ⟨k₂, hrun₂, hk₂⟩ := hk₁.kinfo hfuel hput hs kinit_mem
        (tells_plain hfuel (boardFormat_mem midrEl1) fun _ => 0)
        ((short_plain (boardFormat_mem midrEl1)).mono (by omega)) (by omega)
      obtain ⟨k', hrun, hk'⟩ := hk₂.kinfo hfuel hput hs kinit_mem
        (tells_vendor hfuel (getVendor_mem midrEl1))
        ((short_vendorLine (getVendor_mem midrEl1)).mono (by omega)) hroom
      exact ⟨k', (run_bind_ok hrun₁).trans
        (run_bind_ok ((run_bind_ok hrun₂).trans hrun)), hk'⟩

/-! ## The start -/

end Start

/-! ## One start -/

def someArch : Arch :=
  .aarch64 (fun _ => 0x800) ⟨fun _ => 7, fun _ => 0, false⟩ ⟨0, 0, 5, 0, 0⟩
    0x410FD083

def someBuild : Build someArch.abi where
  addr := packedAt kernelStrings
  pastPanic _ := 7
  pastFont _ := 0
  fuel := 50
  putFuel := 801

def someMap : List MemmapEntry := [⟨0x100000, 0x3000, LIMINE_MEMMAP_USABLE⟩]

/-- The strings at the bottom of memory, an empty screen above them. -/
def someStart : Statics where
  console := noStrings
  pmm := .start (packed kernelStrings)
  pty := ⟨⟨some console, packed kernelStrings⟩, 0, 0, []⟩
  shared := rfl

theorem someMap_store {a : Word} (ha : BitmapStore 0 someMap a) :
    0x100000 ≤ a.toNat := by
  obtain ⟨size, host, mmap', hsize, hplace, hin⟩ := ha
  have hsize' : getBitmapSize someMap = .ok 0x1000 := rfl
  obtain rfl := Except.ok.inj (hsize.symm.trans hsize')
  have hplace' : placeBitmap 0x1000 someMap =
      some (⟨0x100000, 0x3000, 0⟩, [⟨0x101000, 0x2000, 0⟩]) := rfl
  obtain ⟨rfl, rfl⟩ := Prod.mk.inj (Option.some.inj (hplace.symm.trans hplace'))
  rcases hin with hspan | ⟨bit, hbit, rfl⟩
  · simp only [Span] at hspan
    bv_omega
  · have hframes : framesToUnset 0x1000 [⟨0x101000, 0x2000, 0⟩] =
        [0x101, 0x102] := by decide
    rw [hframes, List.mem_pair] at hbit
    rcases hbit with rfl | rfl <;> decide

theorem layout_someStart :
    Layout geometry_console someBuild 0 someMap (packed kernelStrings) := by
  have hlow : ∀ s ∈ kernelStrings, ∀ i ≤ s.length,
      (someBuild.addr s + BitVec.ofNat 64 i).toNat < 0x1000 := by
    intro s hs i hi
    have hidx : kernelStrings.idxOf s < kernelStrings.length :=
      List.idxOf_lt_length_iff.2 hs
    have hcount : kernelStrings.length = 28 := rfl
    have hlen := (kernelStrings_ok s hs).2
    simp only [someBuild, packedAt, BitVec.toNat_add, BitVec.toNat_ofNat]
    omega
  have hshown : ∀ {a}, geometry_console.raster.Shown a →
      0x1000 ≤ a.toNat ∧ a.toNat < 0x100000 := by
    intro a ha
    have hspan : Span 0x1000 (96 * 30) a := ha.span
    simp only [Span] at hspan
    bv_omega
  refine ⟨fun s hs => ⟨?_, fun i hi ha => ?_⟩, fun s hs i hi ha => ?_,
    fun a ha ha' => ?_⟩
  · refine packed_at (by decide) (fun s hs => ?_) s hs
    obtain ⟨hnul, hlen⟩ := kernelStrings_ok s hs
    exact ⟨hnul, Nat.lt_trans hlen (by decide)⟩
  · exact absurd (hshown ha).1 (Nat.not_le.2 (hlow s hs i hi))
  · exact absurd (someMap_store ha) (by have := hlow s hs i hi; omega)
  · exact absurd (hshown ha').2 (Nat.not_lt.2 (someMap_store ha))

end VegaOS
