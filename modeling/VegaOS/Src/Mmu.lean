import VegaOS.Src.Bitmap

/-!
# Page tables on aarch64

`aarch64/mm/mmu.c` from `invalidate_page` to `aarch64_unmap_page`, with the
constants of `aarch64/mm/mmu.h` and `mm/vmm.h` they use.

Memory is addressed the way the compiled code addresses it, by virtual
address: a table at physical address `p` is reached through the window at
`p + VMM_HIGHER_HALF`, while `memset` in `next_level` is handed a physical
address and uses it as it is.

`pmm_alloc(1)` is a parameter, the sequence of its answers. The machine keeps
a log of what the functions do, which no function reads: it is what statements
about stores and allocations are stated with.

The `asid` of a pagemap and the argument `pagesize` are never read, and are
left out.
-/

namespace VegaOS

open ByteMem

def PTE_P : Word := 1#64 <<< 0
def PTE_TBL : Word := 1#64 <<< 1
def PTE_U : Word := 1#64 <<< 6
def PTE_RO : Word := 1#64 <<< 7
def PTE_AF : Word := 1#64 <<< 10
def PTE_PXN : Word := 1#64 <<< 53
def PTE_UXN : Word := 1#64 <<< 54
def PTE_NX : Word := PTE_PXN ||| PTE_UXN
def PTE_ADDR_MASK : Word := 0x0000FFFFFFFFF000

def VMM_WRITABLE : Word := 1#64 <<< 1
def VMM_USER : Word := 1#64 <<< 2
def VMM_EXEC : Word := 1#64 <<< 3

/-- `struct aarch64_pagemap`. -/
structure Pagemap where
  ttbr : Fin 2 → Word

abbrev TTBR0 : Fin 2 := 0
abbrev TTBR1 : Fin 2 := 1

/-- What the code takes from the rest of the kernel. -/
structure Env where
  /-- `VMM_HIGHER_HALF` -/
  hhdm : Word
  /-- what `pmm_alloc(1)` answers, call by call -/
  frames : ℕ → Word

/-- The instructions of `invalidate_page`. -/
inductive Insn
  | dsbIsh
  | dcIsw (pageNumber : Word)
  | isb
deriving DecidableEq, Repr

inductive Event
  /-- `next_level` looks into a table -/
  | visit (table : Word)
  /-- `pmm_alloc(1)` has answered, with memory as it was then -/
  | alloc (frame : Word) (mem : Mem)
  | memset (ptr length : Word)
  /-- a descriptor for a next-level table is stored -/
  | link (table index desc : Word)
  /-- a level-3 descriptor is stored -/
  | page (table index desc : Word)
  | insn (i : Insn)
  | printk (msg : String)

structure Machine where
  mem : Mem
  /-- calls of `pmm_alloc(1)` so far -/
  taken : ℕ
  /-- latest first -/
  log : List Event

/-- Code that runs on the machine and may `panic` with a message. -/
abbrev Kernel := EStateM String Machine

def emit (e : Event) : Kernel Unit :=
  modify fun s => { s with log := e :: s.log }

def load (addr : Word) : Kernel Word := do
  return read64 (← get).mem addr

/-- `level_virt[index] = desc`, logged as `event`. -/
def storeEntry (env : Env) (event : Word → Word → Word → Event)
    (levelPhys index desc : Word) : Kernel Unit :=
  modify fun s =>
    { s with
      mem := write64 s.mem (levelPhys + env.hhdm + 8 * index) desc
      log := event levelPhys index desc :: s.log }

/-- `pmm_alloc(1)`. -/
def allocFrame (env : Env) : Kernel Word :=
  modifyGet fun s =>
    let next := env.frames s.taken
    (next, { s with taken := s.taken + 1, log := .alloc next s.mem :: s.log })

/-- `memset((void *)next, 0, 4096)`. -/
def zeroFrame (next : Word) : Kernel Unit :=
  modify fun s =>
    { s with
      mem := memset s.mem next 0 4096
      log := .memset next 4096 :: s.log }

def invalidatePage (vaddr : Word) : Kernel Unit := do
  let pageNumber := vaddr >>> 12
  emit (.insn .dsbIsh)
  emit (.insn (.dcIsw pageNumber))
  emit (.insn .dsbIsh)
  emit (.insn .isb)

/-- What `next_level` does about a missing level. -/
def createLevel (env : Env) (levelPhys index : Word) : Kernel Unit := do
  let next ← allocFrame env
  zeroFrame next
  storeEntry env .link levelPhys index (next ||| PTE_P ||| PTE_TBL)
  if (← load (levelPhys + env.hhdm + 8 * index)) = 0 then
    throw "Could not allocate next level\n"

def nextLevel (env : Env) (levelPhys index : Word) (alloc : Bool) :
    Kernel Word := do
  emit (.visit levelPhys)
  let entry ← load (levelPhys + env.hhdm + 8 * index)
  if entry &&& (PTE_P ||| PTE_TBL) ≠ PTE_P ||| PTE_TBL then
    if alloc then
      createLevel env levelPhys index
      let entry ← load (levelPhys + env.hhdm + 8 * index)
      return entry &&& PTE_ADDR_MASK
    else return 0
  else return entry &&& PTE_ADDR_MASK

def ttbrIndex (vaddr : Word) : Fin 2 :=
  if vaddr &&& (0x7FFFFFF#64 <<< 37) ≠ 0 then 1 else 0

/-- `(vaddr >> shift) & 0x1FF`. -/
def levelIndex (vaddr : Word) (shift : ℕ) : Word := (vaddr >>> shift) &&& 0x1FF

def aarch64TranslateVaddr (env : Env) (p : Pagemap) (vaddr : Word) :
    Kernel Word := do
  let l0 := p.ttbr (ttbrIndex vaddr) &&& ~~~0x1FF
  let l1 ← nextLevel env l0 (levelIndex vaddr 39) false
  if l1 = 0 then
    emit (.printk "AAA!\n")
    return 0
  else
    let l2 ← nextLevel env l1 (levelIndex vaddr 30) false
    if l2 = 0 then return 0
    else
      let l3 ← nextLevel env l2 (levelIndex vaddr 21) false
      if l3 = 0 then return 0
      else
        let pte ← load (l3 + env.hhdm + 8 * levelIndex vaddr 12)
        return pte &&& PTE_ADDR_MASK

/-- `pte_flags`, as `aarch64_map_page` computes it. -/
def pteFlags (flags : Word) : Word :=
  let pte := PTE_P ||| PTE_AF ||| PTE_TBL
  let pte := if flags &&& VMM_WRITABLE = 0 then pte ||| PTE_RO else pte
  let pte := if flags &&& VMM_EXEC = 0 then pte ||| PTE_NX else pte
  if flags &&& VMM_USER ≠ 0 then pte ||| PTE_U else pte

/-- The level-3 descriptor `aarch64_map_page` stores. -/
def pageDesc (phys flags : Word) : Word :=
  PTE_P ||| PTE_AF ||| PTE_TBL ||| phys ||| pteFlags flags

def aarch64MapPage (env : Env) (p : Pagemap) (vaddr phys flags : Word) :
    Kernel Unit := do
  let l0 := p.ttbr (ttbrIndex vaddr)
  let l1 ← nextLevel env l0 (levelIndex vaddr 39) true
  let l2 ← nextLevel env l1 (levelIndex vaddr 30) true
  let l3 ← nextLevel env l2 (levelIndex vaddr 21) true
  storeEntry env .page l3 (levelIndex vaddr 12) (pageDesc phys flags)
  invalidatePage vaddr

def aarch64UnmapPage (env : Env) (p : Pagemap) (vaddr : Word) :
    Kernel Unit := do
  let l0 := p.ttbr (ttbrIndex vaddr)
  let l1 ← nextLevel env l0 (levelIndex vaddr 39) false
  if l1 = 0 then return ()
  else
    let l2 ← nextLevel env l1 (levelIndex vaddr 30) false
    if l2 = 0 then return ()
    else
      let l3 ← nextLevel env l2 (levelIndex vaddr 21) false
      if l3 = 0 then return ()
      else
        storeEntry env .page l3 (levelIndex vaddr 12) 0
        invalidatePage vaddr

end VegaOS
