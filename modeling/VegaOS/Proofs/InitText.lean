import VegaOS.Proofs.PrintkScreen
import VegaOS.Src.Init

/-!
# The messages of the start

Every message of the start has at most one conversion, which both ABIs print
alike. The strings it refers to are looked up in memory when it is printed, and
what it then delivers is the same in every memory that has them.
-/

namespace VegaOS

open ByteMem Trace

/-- The calls from one state of the console to another deliver a text. -/
def Printed (mem : Mem) (c c' : Console) (out : Text) : Prop :=
  ∃ calls, c'.calls = c.calls ++ calls ∧ Delivers mem calls out

/-! ## The prefix -/

/-- `KERN_INFO`. -/
def infoPrefix : Text :=
  (render PRINTK_DEFAULT_FG [] (text "\x012[\x013 INFO\x012 ]\x010 ")).out

/-- What `kinfo` puts in front of a message. -/
def kinfoText (module : List Byte) : Text :=
  infoPrefix ++ (module ++ text ": ").map fun c => (c, 0xF8A611)

theorem infoPrefix_cons : ∃ out, infoPrefix = (ascii '[', 0xFFFFFF) :: out :=
  List.head?_eq_some_iff.1 rfl

theorem render_kinfoPrefix (module : List Byte) :
    (render PRINTK_DEFAULT_FG [.str module] kinfoPrefix).out =
      kinfoText module := by
  rw [kinfoText, List.map_append]
  rfl

/-! ## The strings -/

def noEntryFormat : List Byte := text "pmm: Could not find highest entry!\n"

theorem switch_mem (cases : List (BitVec 32 × List Byte)) (default : List Byte)
    (value : BitVec 32) :
    switch cases default value ∈ default :: cases.map Prod.snd := by
  rw [switch]
  cases h : cases.find? fun c => c.1 = value with
  | none => exact List.mem_cons_self
  | some c =>
      exact List.mem_cons_of_mem _
        (List.mem_map_of_mem (List.mem_of_find?_eq_some h))

/-- The formats that are printed as they are. -/
def plainStrings : List (List Byte) :=
  [noEntryFormat, wroteFormat] ++ (unknownBoard :: boards.map Prod.snd)

/-- The strings that are arguments. -/
def argStrings : List (List Byte) :=
  [text "pmm", text "mmu", text "kinit"] ++
    (unrecognizedVendor :: vendors.map Prod.snd)

/-- The strings of the messages, formats and arguments. -/
def kernelStrings : List (List Byte) :=
  argStrings ++
    ([kinfoPrefix, requiredFormat, foundFormat, vendorFormat] ++ plainStrings)

theorem plainStrings_ok : ∀ s ∈ plainStrings,
    IsPlain s ∧ IsText s ∧ s.length < 40 := by
  decide +kernel

theorem argStrings_ok : ∀ s ∈ argStrings,
    0 ∉ s ∧ IsText s ∧ s.length < 50 := by
  decide +kernel

theorem kernelStrings_ok : ∀ s ∈ kernelStrings, 0 ∉ s ∧ s.length < 50 := by
  decide +kernel

theorem argStrings_sub {s : List Byte} (hs : s ∈ argStrings) :
    s ∈ kernelStrings :=
  List.mem_append_left _ hs

theorem plainStrings_sub {s : List Byte} (hs : s ∈ plainStrings) :
    s ∈ kernelStrings :=
  List.mem_append_right _ (List.mem_append_right _ hs)

theorem boardFormat_mem (midrEl1 : BitVec 32) :
    boardFormat midrEl1 ∈ plainStrings :=
  List.mem_append_right _ (switch_mem _ _ _)

theorem getVendor_mem (midrEl1 : BitVec 32) : getVendor midrEl1 ∈ argStrings :=
  List.mem_append_right _ (switch_mem _ _ _)

/-! ## The messages -/

def requiredLine (size : Word) : List Byte :=
  text "Required bitmap size: " ++ (decNumeral size ++ text " bytes\n")

def foundLine (bitmap : Word) : List Byte :=
  text "Found space for bitmap at " ++ (hexNumeral bitmap ++ text "\n")

def vendorLine (vendor : List Byte) : List Byte :=
  text "Detected vendor: " ++ (vendor ++ text "\n")

section Messages

variable {abi : Abi} {env : Build abi}

/-- A string is where the kernel looks for it. -/
def Build.Has (env : Build abi) (mem : Mem) (s : List Byte) : Prop :=
  (Arg.str s).At mem (env.addr s)

theorem Build.Has.congr {mem mem' : Mem} {s : List Byte} (h : env.Has mem s)
    (hsame : ∀ i ≤ s.length, mem' (env.addr s + BitVec.ofNat 64 i) =
      mem (env.addr s + BitVec.ofNat 64 i)) : env.Has mem' s :=
  IsCString.congr h hsame

/-- A format that is there, as `printk` reads it. -/
theorem Build.Has.caller {mem : Mem} {fmt : List Byte} (h : env.Has mem fmt)
    (args : ℕ → Word) :
    ∃ rest, env.caller mem fmt args = ⟨abi, terminated fmt rest, args⟩ := by
  obtain ⟨rest, hrest⟩ := IsCString.eq_terminated h
  exact ⟨rest, by rw [Build.caller, hrest]⟩

/-- A call prints a text, whatever else there is in a memory with the strings
of the kernel. -/
def Tells (env : Build abi) (fmt : List Byte) (args : ℕ → Word) (out : Text) :
    Prop :=
  ∀ mem, (∀ s ∈ kernelStrings, env.Has mem s) → ∀ c, ∃ c',
    printk (env.caller mem fmt args) env.fuel c = .ok () c' ∧
      Printed mem c c' out

variable (hfuel : 50 ≤ env.fuel)
include hfuel

/-- A format with one conversion, whose argument may be one of the strings. -/
theorem tells_single {fmt : List Byte} {arg : Word} {s : List Byte} {d : Byte}
    (hfmt : fmt ∈ kernelStrings) (hcut : ¬ CutOff fmt)
    (hconv : conversions fmt = [d])
    (hs : d = ascii 's' → s ∈ argStrings ∧ env.addr s = arg) :
    Tells env fmt (fun _ => arg) (render PRINTK_DEFAULT_FG (foundArgs abi
      (fun _ => s) (fun _ => arg) 0 (conversions fmt)) fmt).out := by
  obtain ⟨hnul, hshort⟩ := kernelStrings_ok fmt hfmt
  intro mem hmem c
  obtain ⟨rest, hcaller⟩ := (hmem fmt hfmt).caller fun _ => arg
  let m : Message abi mem := .single abi fmt arg s hnul hcut hconv fun hd =>
    (hs hd).2 ▸ hmem s (argStrings_sub (hs hd).1)
  obtain ⟨calls, c', hrun, hcalls, hout⟩ :=
    m.run_printk rest (Nat.lt_of_lt_of_le hshort hfuel) c
  rw [hcaller]
  exact ⟨c', hrun, calls, hcalls, hout⟩

theorem tells_begin {module : List Byte} (hmodule : module ∈ argStrings) :
    Tells env kinfoPrefix (fun _ => env.addr module) (kinfoText module) := by
  rw [← render_kinfoPrefix]
  exact tells_single hfuel (by simp [kernelStrings]) (by decide)
    (show conversions kinfoPrefix = [ascii 's'] by decide)
    fun _ => ⟨hmodule, rfl⟩

theorem tells_plain {s : List Byte} (hs : s ∈ plainStrings) (args : ℕ → Word) :
    Tells env s args (inDefault s) := by
  obtain ⟨hplain, -, hshort⟩ := plainStrings_ok s hs
  have hforty : 40 ≤ env.fuel := Nat.le_trans (by decide) hfuel
  intro mem hmem c
  obtain ⟨rest, hcaller⟩ := (hmem s (plainStrings_sub hs)).caller args
  let m : Message abi mem := .plain abi mem s args hplain
  obtain ⟨calls, c', hrun, hcalls, hout⟩ :=
    m.run_printk rest (Nat.lt_of_lt_of_le hshort hforty) c
  rw [Message.plain_text] at hout
  rw [hcaller]
  exact ⟨c', hrun, calls, hcalls, hout⟩

theorem tells_required (size : Word) :
    Tells env requiredFormat (fun _ => size)
      (inDefault (requiredLine size)) := by
  have htext : (render PRINTK_DEFAULT_FG [.num size] requiredFormat).out =
      inDefault (requiredLine size) := by
    rw [inDefault, requiredLine, List.map_append, List.map_append]
    rfl
  rw [← htext]
  exact tells_single (s := []) hfuel (by simp [kernelStrings]) (by decide)
    (show conversions requiredFormat = [ascii 'd'] by decide)
    fun h => absurd h (by decide)

theorem tells_found (bitmap : Word) :
    Tells env foundFormat (fun _ => bitmap) (inDefault (foundLine bitmap)) := by
  have htext : (render PRINTK_DEFAULT_FG [.num bitmap] foundFormat).out =
      inDefault (foundLine bitmap) := by
    rw [inDefault, foundLine, List.map_append, List.map_append]
    rfl
  rw [← htext]
  exact tells_single (s := []) hfuel (by simp [kernelStrings]) (by decide)
    (show conversions foundFormat = [ascii 'x'] by decide)
    fun h => absurd h (by decide)

theorem tells_vendor {vendor : List Byte} (hvendor : vendor ∈ argStrings) :
    Tells env vendorFormat (fun _ => env.addr vendor)
      (inDefault (vendorLine vendor)) := by
  have htext : (render PRINTK_DEFAULT_FG [.str vendor] vendorFormat).out =
      inDefault (vendorLine vendor) := by
    rw [inDefault, vendorLine, List.map_append, List.map_append]
    rfl
  rw [← htext]
  exact tells_single hfuel (by simp [kernelStrings]) (by decide)
    (show conversions vendorFormat = [ascii 's'] by decide)
    fun _ => ⟨hvendor, rfl⟩

theorem panic_noEntry {mem : Mem} (hmem : ∀ s ∈ kernelStrings, env.Has mem s)
    (c : Console) : ∃ c',
    panic (env.caller mem noEntryFormat fun _ => 0) env.pastPanic env.fuel c =
        .error .halted c' ∧
      Printed mem c c' (panicPrefix ++ inDefault noEntryFormat) := by
  obtain ⟨hplain, -, hshort⟩ := plainStrings_ok noEntryFormat List.mem_cons_self
  have hbegin : kernPanic.length < 40 := by decide
  have hforty : 40 ≤ env.fuel := Nat.le_trans (by decide) hfuel
  obtain ⟨rest, hcaller⟩ :=
    (hmem _ (plainStrings_sub List.mem_cons_self)).caller fun _ => 0
  let m : Message abi mem := .plain abi mem noEntryFormat (fun _ => 0) hplain
  obtain ⟨calls, c', hrun, hcalls, hout⟩ := m.run_panic rest env.pastPanic
    (Nat.lt_of_lt_of_le hbegin hforty) (Nat.lt_of_lt_of_le hshort hforty) c
  rw [Message.panicText, Message.plain_text] at hout
  rw [hcaller]
  exact ⟨c', hrun, calls, hcalls, hout⟩

end Messages

/-! ## Their text -/

/-- What the memory manager shows. A bitmap that is not placed is reported at
address 0. -/
def pmmText (hhdm : Word) (mmap : List MemmapEntry) (mem : Mem) : Text :=
  match getBitmapSize mmap with
  | .error _ => panicPrefix ++ inDefault noEntryFormat
  | .ok size =>
      (kinfoText (text "pmm") ++ inDefault (requiredLine size)) ++
        (kinfoText (text "pmm") ++ inDefault (foundLine
          (hostBitmap hhdm size ⟨mmap, 0, 0, mem, []⟩).bitmap))

/-- What `arch_init` shows. -/
def archText : Arch → Text
  | .x86_64 _ => []
  | .aarch64 _ _ _ midrEl1 =>
      (kinfoText (text "mmu") ++ inDefault wroteFormat) ++
        ((kinfoText (text "kinit") ++ inDefault (boardFormat midrEl1)) ++
          (kinfoText (text "kinit") ++
            inDefault (vendorLine (getVendor midrEl1))))

/-- The terminal can draw a text, and it has no more than `n` characters. -/
def Short (n : ℕ) (out : Text) : Prop := Drawable out ∧ out.length ≤ n

theorem Short.append {n n' : ℕ} {out out' : Text} (h : Short n out)
    (h' : Short n' out') : Short (n + n') (out ++ out') := by
  refine ⟨h.1.append h'.1, ?_⟩
  rw [List.length_append]
  exact Nat.add_le_add h.2 h'.2

theorem Short.mono {n n' : ℕ} {out : Text} (h : Short n out) (hn : n ≤ n') :
    Short n' out :=
  ⟨h.1, Nat.le_trans h.2 hn⟩

theorem short_inDefault {s : List Byte} {n : ℕ} (h : IsText s)
    (hn : s.length ≤ n) : Short n (inDefault s) :=
  ⟨h.drawable _, (length_inDefault s).trans_le hn⟩

theorem short_kinfoText {module : List Byte} (h : module ∈ argStrings) :
    Short 70 (kinfoText module) := by
  obtain ⟨-, htext, hlen⟩ := argStrings_ok module h
  have hfront : Drawable infoPrefix ∧ infoPrefix.length = 9 := by decide
  have hcolon : IsText (text ": ") ∧ (text ": ").length = 2 := by decide
  refine ⟨hfront.1.append ((isText_append.2 ⟨htext, hcolon.1⟩).drawable _), ?_⟩
  rw [kinfoText, List.length_append, List.length_map, List.length_append]
  omega

theorem short_plain {s : List Byte} (hs : s ∈ plainStrings) :
    Short 40 (inDefault s) :=
  short_inDefault (plainStrings_ok s hs).2.1
    (Nat.le_of_lt (plainStrings_ok s hs).2.2)

theorem short_requiredLine (size : Word) :
    Short 60 (inDefault (requiredLine size)) := by
  have hbegin : IsText (text "Required bitmap size: ") ∧
      (text "Required bitmap size: ").length = 22 := by decide
  have hend : IsText (text " bytes\n") ∧ (text " bytes\n").length = 7 := by
    decide
  have hlen := length_decNumeral size
  refine short_inDefault (isText_append.2 ⟨hbegin.1, isText_append.2
    ⟨isText_decNumeral size, hend.1⟩⟩) ?_
  rw [requiredLine, List.length_append, List.length_append]
  omega

theorem short_foundLine (bitmap : Word) :
    Short 60 (inDefault (foundLine bitmap)) := by
  have hbegin : IsText (text "Found space for bitmap at ") ∧
      (text "Found space for bitmap at ").length = 26 := by decide
  have hend : IsText (text "\n") ∧ (text "\n").length = 1 := by decide
  have hlen := length_hexNumeral bitmap
  refine short_inDefault (isText_append.2 ⟨hbegin.1, isText_append.2
    ⟨isText_hexNumeral bitmap, hend.1⟩⟩) ?_
  rw [foundLine, List.length_append, List.length_append]
  omega

theorem short_vendorLine {vendor : List Byte} (h : vendor ∈ argStrings) :
    Short 70 (inDefault (vendorLine vendor)) := by
  have hbegin : IsText (text "Detected vendor: ") ∧
      (text "Detected vendor: ").length = 17 := by decide
  have hend : IsText (text "\n") ∧ (text "\n").length = 1 := by decide
  obtain ⟨-, htext, hlen⟩ := argStrings_ok vendor h
  refine short_inDefault
    (isText_append.2 ⟨hbegin.1, isText_append.2 ⟨htext, hend.1⟩⟩) ?_
  rw [vendorLine, List.length_append, List.length_append]
  omega

theorem short_noEntry : Short 400 (panicPrefix ++ inDefault noEntryFormat) := by
  have hfront : Short 11 panicPrefix :=
    ⟨drawable_panicPrefix, Nat.le_of_eq length_panicPrefix⟩
  exact (hfront.append (short_plain List.mem_cons_self)).mono (by omega)

theorem short_pmmText (hhdm : Word) (mmap : List MemmapEntry) (mem : Mem) :
    Short 400 (pmmText hhdm mmap mem) := by
  have hpmm : Short 70 (kinfoText (text "pmm")) :=
    short_kinfoText List.mem_cons_self
  rw [pmmText]
  split
  · exact short_noEntry
  · exact ((hpmm.append (short_requiredLine _)).append
      (hpmm.append (short_foundLine _))).mono (by omega)

theorem mmu_mem : text "mmu" ∈ argStrings := by simp [argStrings]

theorem kinit_mem : text "kinit" ∈ argStrings := by simp [argStrings]

theorem wroteFormat_mem : wroteFormat ∈ plainStrings := by simp [plainStrings]

theorem short_archText (arch : Arch) : Short 400 (archText arch) := by
  cases arch with
  | x86_64 isr => exact ⟨fun _ hp => absurd hp List.not_mem_nil, Nat.zero_le _⟩
  | aarch64 addr s r midrEl1 =>
      exact (((short_kinfoText mmu_mem).append
        (short_plain wroteFormat_mem)).append
        (((short_kinfoText kinit_mem).append
          (short_plain (boardFormat_mem midrEl1))).append
          ((short_kinfoText kinit_mem).append
            (short_vendorLine (getVendor_mem midrEl1))))).mono (by omega)

/-- Both prefixes begin with a bracket, so whatever happens it is there. -/
theorem shade_pmmText (hhdm : Word) (mmap : List MemmapEntry) (mem : Mem)
    (out : Text) :
    shade (pmmText hhdm mmap mem ++ out) (3, 2) = some 0xFFFFFF := by
  rw [pmmText]
  split
  · rw [List.append_assoc, shade_panicPrefix]
  · obtain ⟨rest, hcons⟩ := infoPrefix_cons
    rw [kinfoText, hcons]
    exact shade_bracket _

end VegaOS
