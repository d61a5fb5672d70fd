import Cosiris.Kernel.Files
import Mathlib.Algebra.Order.Group.Nat
import Mathlib.Logic.Function.Basic

/-!
# Paging

`mem.c` with paging on. The physical memory is made of frames of 1024 words. A
virtual address is the number of its page and of a word in it, and is translated by two
levels of tables from the current page directory, whose last entry maps the directory
itself: the directory is the page `PDIR_ADDR` and table `i` the page `PTABLES_ADDR + i`.
Every other frame is accessed through the reserved page `RESV_PAGE`.

A physical address is a natural number, a multiple of 4096 for a frame; the low 12 bits
of an entry are its flags. The accessed and dirty flags that the processor itself sets
are left out, and so are the interrupts and the translation cache (each entry that
is changed is flushed).
-/

namespace Cosiris.Mem

open Prog

/-- The contents of the physical memory, by frame and word. -/
abbrev Memory := ℕ → ℕ → ℕ

/-- The machine: its memory, the frame of the current page directory, the list of free frames
(`last_free_page`, `num_pages`) and the end of the kernel heap (`kernel_heap->end_addr`). -/
structure Machine where
  mem : Memory
  dir : ℕ
  lastFreePage : ℕ
  numPages : ℕ
  heapEnd : ℕ

/-- Code of the memory manager. -/
abbrev MemM := Prog Halt Machine

/-- The page of `PDIR_ADDR`. -/
def pdirPage : ℕ := 0xFFFFF

/-- The page of `PTABLES_ADDR`. -/
def ptablesPage : ℕ := 0xFFC00

/-- The page of `RESV_PAGE`. -/
def resvPage : ℕ := 0xFFBFE

/-- The memory with a word written. -/
def Memory.set (mem : Memory) (f w v : ℕ) : Memory :=
  Function.update mem f (Function.update (mem f) w v)

/-- The memory with a frame written. -/
def Memory.fill (mem : Memory) (f : ℕ) (c : ℕ → ℕ) : Memory := Function.update mem f c

/-- What a page is mapped to: the flags of the directory and of the table entry, and the
frame. -/
structure Mapping where
  dirFlags : ℕ
  flags : ℕ
  frame : ℕ
  deriving DecidableEq

/-- The translation of a page by the directory in frame `d`. -/
def walk (mem : Memory) (d page : ℕ) : Option Mapping :=
  let pde := mem d (page / 1024)
  let pte := mem (pde / 4096) (page % 1024)
  if pde % 2 = 1 ∧ pte % 2 = 1 then some ⟨pde % 4096, pte % 4096, pte / 4096⟩ else none

/-- The frame of a page, or a page fault. -/
def translate (page : ℕ) : MemM ℕ := do
  let m ← read
  match walk m.mem m.dir page with
  | some x => return x.frame
  | none => halt .fault

/-- Read a word of a page. -/
def vread (page w : ℕ) : MemM ℕ := do
  let f ← translate page
  let m ← read
  return m.mem f w

/-- Write a word of a page. -/
def vwrite (page w v : ℕ) : MemM Unit := do
  let f ← translate page
  modify fun m => { m with mem := m.mem.set f w v }

/-- `memset(page, 0, PAGE_SIZE)`. -/
def memsetPage (page : ℕ) : MemM Unit := do
  let f ← translate page
  modify fun m => { m with mem := m.mem.fill f fun _ => 0 }

/-- `memcpy(to, from, PAGE_SIZE)` of whole pages. -/
def memcpyPage (dst src : ℕ) : MemM Unit := do
  let f ← translate src
  let g ← translate dst
  modify fun m => { m with mem := m.mem.fill g (m.mem f) }

/-- `map` of a page, with `alloc` for the frame of a table that is missing. -/
def mapWith (alloc : MemM ℕ) (page phys flags : ℕ) : MemM Unit := do
  let pde ← vread pdirPage (page / 1024)
  if pde = 0 then do
    let table ← alloc
    vwrite pdirPage (page / 1024) (table ||| flags)
    memsetPage (ptablesPage + page / 1024)
  vwrite (ptablesPage + page / 1024) (page % 1024) (phys ||| flags)

/-- `map` of the reserved page. Without a table for it the allocation of one would map the
reserved page again, without end. -/
def mapResv (phys flags : ℕ) : MemM Unit := mapWith (halt .fault) resvPage phys flags

/-- `temp_map`. -/
def tempMap (phys : ℕ) : MemM Unit := mapResv phys 3

/-- `temp_unmap`. -/
def tempUnmap : MemM Unit := mapResv 0 0

/-- `frame_alloc`. -/
def frameAlloc : MemM ℕ := do
  let m ← read
  kassert "last_free_page != 0" (decide (m.lastFreePage ≠ 0))
  let addr := m.lastFreePage
  tempMap addr
  let next ← vread resvPage 0
  modify fun m => { m with lastFreePage := next }
  vwrite resvPage 0 0
  tempUnmap
  modify fun m => { m with numPages := m.numPages - 1 }
  return addr

/-- `frame_calloc`. -/
def frameCalloc : MemM ℕ := do
  let addr ← frameAlloc
  tempMap addr
  memsetPage resvPage
  tempUnmap
  return addr

/-- `frame_free`. -/
def frameFree (addr : ℕ) : MemM Unit := do
  kassert "!(addr & 0xFFF)" (decide (addr % 4096 = 0))
  tempMap addr
  let m ← read
  vwrite resvPage 0 m.lastFreePage
  tempUnmap
  modify fun m => { m with lastFreePage := addr, numPages := m.numPages + 1 }

/-- `map`. -/
def map (page phys flags : ℕ) : MemM Unit := mapWith frameAlloc page phys flags

/-- `unmap`. -/
def unmap (page : ℕ) : MemM Unit := map page 0 0

/-- `is_mapped`. -/
def isMapped (page : ℕ) : MemM Bool := do
  let pde ← vread pdirPage (page / 1024)
  if pde % 2 = 0 then return false
  let pte ← vread (ptablesPage + page / 1024) (page % 1024)
  return decide (pte % 2 = 1)

/-- `virt_to_phys`. -/
def virtToPhys (page : ℕ) : MemM ℕ := do
  let mapped ← isMapped page
  if !mapped then halt (.panic "%p is not mapped\n")
  let pte ← vread (ptablesPage + page / 1024) (page % 1024)
  return pte / 4096 * 4096

/-! ### Directories -/

/-- `recursively_map_page_directory`. -/
def recursivelyMapPageDirectory (dir : ℕ) : MemM Unit := do
  tempMap dir
  vwrite resvPage 1023 (dir ||| 3)
  tempUnmap

/-- `link_pde`. -/
def linkPde (newDir pdIdx : ℕ) : MemM Unit := do
  tempMap newDir
  let pde ← vread pdirPage pdIdx
  vwrite resvPage pdIdx pde
  tempUnmap

/-- The body of the loop of `clone_pde`: the page `ptIdx` of the table is copied. -/
def clonePte (pde pdIdx ptIdx : ℕ) : MemM Unit := do
  let entry ← vread (ptablesPage + pdIdx) ptIdx
  if entry % 2 = 1 then do
    let pte ← frameCalloc
    tempMap pte
    memcpyPage resvPage (pdIdx * 1024 + ptIdx)
    tempUnmap
    tempMap pde
    vwrite resvPage ptIdx (pte ||| entry % 4096)
    tempUnmap

/-- `clone_pde`. -/
def clonePde (newDir pdIdx : ℕ) : MemM Unit := do
  let old ← vread pdirPage pdIdx
  let pde ← frameCalloc
  tempMap newDir
  vwrite resvPage pdIdx (pde ||| old % 4096)
  tempUnmap
  upTo (clonePte pde pdIdx) 1024

/-- The directory entries that every process shares: those below `USER_STACK_LOW`, and those of the
kernel heap. -/
def Linked (pdIdx : ℕ) : Prop := pdIdx < 63 ∨ 832 ≤ pdIdx ∧ pdIdx < 896

instance : DecidablePred Linked := fun _ => inferInstanceAs (Decidable (_ ∨ _))

/-- The body of the loop of `clone_directory`. -/
def cloneEntry (newDir pdIdx : ℕ) : MemM Unit := do
  let pde ← vread pdirPage pdIdx
  if pde % 2 = 1 then
    if Linked pdIdx then linkPde newDir pdIdx else clonePde newDir pdIdx

/-- `clone_directory`. -/
def cloneDirectory : MemM ℕ := do
  let newDir ← frameCalloc
  upTo (cloneEntry newDir) 1023
  recursivelyMapPageDirectory newDir
  return newDir

/-- The body of the loop of `free_pde`. -/
def freePte (pde ptIdx : ℕ) : MemM Unit := do
  tempMap (pde / 4096 * 4096)
  let pte ← vread resvPage ptIdx
  tempUnmap
  if pte % 2 = 1 then frameFree (pte / 4096 * 4096)

/-- `free_pde`. -/
def freePde (dir pdIdx : ℕ) : MemM Unit := do
  tempMap dir
  let pde ← vread resvPage pdIdx
  tempUnmap
  if pde % 2 = 1 then do
    upTo (freePte pde) 1024
    frameFree (pde / 4096 * 4096)

/-- `free_directory`. -/
def freeDirectory (dir : ℕ) : MemM Unit := do
  let curr ← virtToPhys pdirPage
  kassert "(virt_to_phys(PDIR_ADDR) != (phys_t)dir)" (decide (curr ≠ dir))
  upTo (fun pdIdx => if Linked pdIdx then pure () else freePde dir pdIdx) 1023
  frameFree dir

/-! ### The kernel heap -/

/-- `HEAP_START`. -/
def heapStart : ℕ := 0xD0000000

/-- `HEAP_END`. -/
def heapMax : ℕ := 0xE0000000

/-- The loop of `_sbrk` of the kernel heap that maps `n` more pages: false when the heap has
reached its end. -/
def growLoop : ℕ → MemM Bool
  | 0 => return true
  | n + 1 => do
    let frame ← frameAlloc
    let m ← read
    map (m.heapEnd / 4096) frame 3
    modify fun m => { m with heapEnd := m.heapEnd + 4096 }
    let m ← read
    if m.heapEnd ≥ heapMax then return false
    growLoop n

/-- `sbrk` of the kernel heap, for a positive increment: the old end, or `none` for `-1`. -/
def sbrk (increment : ℕ) : MemM (Option ℕ) := do
  let m ← read
  let iterations := increment / 4096 + if increment % 4096 ≠ 0 then 1 else 0
  let grown ← growLoop iterations
  return if grown then some m.heapEnd else none

end Cosiris.Mem
