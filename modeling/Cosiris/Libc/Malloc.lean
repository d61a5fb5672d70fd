import Cosiris.Lib.Prog
import Mathlib.Algebra.Order.Group.Nat
import Mathlib.Algebra.Order.Ring.Int
import Mathlib.Logic.Function.Basic

/-!
# The heap of the C library

`lib/malloc.c` over `_sbrk` of `mem.c`. The heap is a list of blocks, each a header
(`block_meta_t`) followed by its payload, linked by address from `first_block`.

An address is a natural number below `2^32` and the memory is the headers in it, by
address; payloads are written by the program that owns them and are not
represented, only that an access to them stays below the break. The break is the
`end_addr` of a heap that `sbrk` moves by whole pages. A run in which `sbrk` cannot give
a page ends there (`Stop.nomem`): `malloc` does not look at its result.
-/

namespace Cosiris.Libc

open Function Prog

/-- The ways a program that uses the library stops. -/
inductive Stop where
  /-- An `assert` that fails. -/
  | assert (cond : String)
  /-- An access to memory that is not there. -/
  | fault
  /-- A loop that never ends. -/
  | loops
  /-- `sbrk` cannot grow the heap. -/
  | nomem
  deriving DecidableEq

/-- `PAGE_SIZE`. -/
def pageSize : ℕ := 4096

/-- `sizeof(block_meta_t)`. -/
def metaSize : ℕ := 20

/-- `MAGIC_HEAD`. -/
def magicHead : ℕ := 0xDEADC0DE

/-- `MAGIC_END`. -/
def magicEnd : ℕ := 0xDEADBABA

/-- The header of a block (`block_meta_t`). -/
structure BlockMeta where
  magicHead : ℕ
  size : ℕ
  free : Bool
  next : ℕ
  magicEnd : ℕ
  deriving DecidableEq

/-- The header `malloc` and `init_first_block` write. -/
def newMeta (size : ℕ) (free : Bool) (next : ℕ) : BlockMeta :=
  ⟨magicHead, size, free, next, magicEnd⟩

/-- Where the kernel places a heap: whole pages from `start_addr`, below `max_addr`. -/
structure Region where
  startAddr : ℕ
  maxAddr : ℕ
  pos : 0 < startAddr
  aligned : startAddr % pageSize = 0
  size_le : maxAddr ≤ startAddr + 2 ^ 31
  max_le : maxAddr ≤ 2 ^ 32

/-- The heap of a user task (`UHEAP_START`, `UHEAP_END`). -/
def userHeap : Region := ⟨0x20000000, 0x30000000, by decide, by decide, by decide, by decide⟩

/-- The heap of the kernel (`HEAP_START`, `HEAP_END`). -/
def kernelHeap : Region := ⟨0xD0000000, 0xE0000000, by decide, by decide, by decide, by decide⟩

/-- The memory of the heap, `first_block` (`0` for `NULL`) and the break, and how often `abort` was
called. -/
structure Heap where
  mem : ℕ → Option BlockMeta
  firstBlock : ℕ
  endAddr : ℕ
  aborts : ℕ

/-- A heap before the first call. -/
def Heap.init (R : Region) : Heap := ⟨fun _ => none, 0, R.startAddr, 0⟩

/-- Write the header at `p`. -/
def Heap.write (h : Heap) (p : ℕ) (b : BlockMeta) : Heap :=
  { h with mem := update h.mem p (some b) }

/-- `assert`. -/
def assert (cond : String) (b : Bool) : Prog Stop Heap Unit :=
  if b then pure () else halt (.assert cond)

/-- An access to `n` bytes at `p`. -/
def access (p n : ℕ) : Prog Stop Heap Unit := do
  let h ← read
  if p + n ≤ h.endAddr then return () else halt .fault

/-- The header at `p`. -/
def load (p : ℕ) : Prog Stop Heap BlockMeta := do
  access p metaSize
  let h ← read
  match h.mem p with
  | some b => return b
  | none => halt .fault

/-- Write the header at `p`, if it is there. -/
def store (p : ℕ) (b : BlockMeta) : Prog Stop Heap Unit := do
  access p metaSize
  modify (·.write p b)

/-- The pages `n` bytes take. -/
def pages (n : ℕ) : ℕ := n / pageSize + if n % pageSize ≠ 0 then 1 else 0

/-- `_sbrk`: the old break. -/
def sbrk (R : Region) (increment : ℤ) : Prog Stop Heap ℕ := do
  let h ← read
  let n := pages increment.natAbs * pageSize
  if increment = 0 then return h.endAddr
  else if 0 < increment then
    if h.endAddr + n < R.maxAddr then
      modify fun h => { h with endAddr := h.endAddr + n }
      return h.endAddr
    else halt .nomem
  else
    if R.startAddr + n ≤ h.endAddr then
      modify fun h => { h with endAddr := h.endAddr - n }
      return h.endAddr
    else halt .fault

/-- An `unsigned int` taken for an `int`. -/
def toInt (x : ℕ) : ℤ := if x < 2 ^ 31 then x else (x : ℤ) - 2 ^ 32

/-- The difference of two `unsigned int`s. -/
def sub32 (x y : ℕ) : ℕ := (x + 2 ^ 32 - y % 2 ^ 32) % 2 ^ 32

/-- More steps than any walk through the heap can take without coming back to a block. -/
def maxSteps : ℕ := 2 ^ 33

/-- `init_first_block`. -/
def initFirstBlock (R : Region) : Prog Stop Heap Unit := do
  let startAddr ← sbrk R pageSize
  modify fun h => { h with firstBlock := startAddr }
  store startAddr (newMeta (pageSize - metaSize) true 0)

/-- The block at `p`, with header `b`, is split: the first `size` bytes are taken and the rest
is a free block. -/
def split (p size : ℕ) (b : BlockMeta) : Prog Stop Heap ℕ := do
  assert "p->size >= size + sizeof(block_meta_t)" (decide ((size + metaSize) % 2 ^ 32 ≤ b.size))
  let nextSize := sub32 (sub32 b.size size) metaSize
  let n := (p + metaSize + size) % 2 ^ 32
  store p { b with size := size, free := false, next := n }
  store n (newMeta nextSize true b.next)
  return p + metaSize

/-- The `while` loop of `malloc`. -/
def mallocLoop (R : Region) (size searchSize : ℕ) : ℕ → ℕ → Prog Stop Heap ℕ
  | 0, _ => halt .loops
  | fuel + 1, p =>
    if p = 0 then return 0
    else do
      let b ← load p
      if !b.free then mallocLoop R size searchSize fuel b.next
      else if b.next = 0 ∧ b.size < searchSize then
        let _ ← sbrk R pageSize
        store p { b with size := (b.size + pageSize) % 2 ^ 32 }
        mallocLoop R size searchSize fuel p
      else if searchSize ≤ b.size then split p size b
      else mallocLoop R size searchSize fuel b.next

/-- `size`, aligned to 4 bytes. -/
def align4 (size : ℕ) : ℕ := if size % 4 ≠ 0 then (size / 4 + 1) * 4 % 2 ^ 32 else size

/-- `malloc`. -/
def malloc (R : Region) (size : ℕ) : Prog Stop Heap ℕ := do
  let size := align4 size
  let h ← read
  if h.firstBlock = 0 then initFirstBlock R
  let h ← read
  let b ← load h.firstBlock
  assert "first_block->magic_head == MAGIC_HEAD" (decide (b.magicHead = magicHead))
  mallocLoop R size ((size + metaSize) % 2 ^ 32) maxSteps h.firstBlock

/-- The last block, from `p` on. -/
def lastBlock : ℕ → ℕ → Prog Stop Heap ℕ
  | 0, _ => halt .loops
  | fuel + 1, p => do
    let b ← load p
    if b.next ≠ 0 then lastBlock fuel b.next else return p

/-- `heap_contract`. -/
def heapContract (R : Region) : Prog Stop Heap Unit := do
  let h ← read
  let p ← lastBlock maxSteps h.firstBlock
  let b ← load p
  if pageSize < b.size then
    let endAddr ← sbrk R 0
    assert "(unsigned int)(p+1) + p->size == end_addr"
      (decide ((p + metaSize + b.size) % 2 ^ 32 = endAddr))
    let newEnd := ((p + metaSize) / pageSize * pageSize + pageSize * 2) % 2 ^ 32
    store p { b with size := sub32 newEnd (p + metaSize) }
    let _ ← sbrk R (toInt (sub32 newEnd endAddr))

/-- The block at `p` is joined to the next, if that is free. -/
def mergeNext (p : ℕ) : Prog Stop Heap Unit := do
  let b ← load p
  if b.next ≠ 0 then
    let n ← load b.next
    if n.free then store p { b with size := (b.size + n.size + metaSize) % 2 ^ 32, next := n.next }

/-- The block at `prev` is joined to the next, at `p`, if it is free. -/
def mergePrev (prev p : ℕ) : Prog Stop Heap Unit := do
  if prev ≠ 0 then
    let a ← load prev
    if a.free then
      let b ← load p
      store prev { a with size := (a.size + b.size + metaSize) % 2 ^ 32, next := b.next }

/-- The block at `p`, after `prev`, is marked free and joined to its free neighbours. -/
def release (prev p : ℕ) : Prog Stop Heap Unit := do
  let b ← load p
  assert "p->magic_head == MAGIC_HEAD" (decide (b.magicHead = magicHead))
  assert "p->magic_end == MAGIC_END" (decide (b.magicEnd = magicEnd))
  store p { b with free := true }
  mergeNext p
  mergePrev prev p

/-- `abort` queues a signal for the task, and returns. -/
def Heap.abort (h : Heap) : Heap := { h with aborts := h.aborts + 1 }

/-- The `for` loop of `free`. -/
def freeLoop (ptr : ℕ) : ℕ → ℕ → ℕ → Prog Stop Heap Unit
  | 0, _, _ => halt .loops
  | fuel + 1, prev, p =>
    if p + metaSize = ptr then release prev p
    else do
      let b ← load p
      if b.next = 0 ∧ b.free ∧ b.magicHead = magicHead ∧ b.magicEnd = magicEnd ∧
        0 < b.size then modify Heap.abort
      freeLoop ptr fuel p b.next

/-- `free`. -/
def free (R : Region) (ptr : ℕ) : Prog Stop Heap Unit := do
  if ptr ≠ 0 then
    let h ← read
    freeLoop ptr maxSteps 0 h.firstBlock
    heapContract R

/-- `calloc`. -/
def calloc (R : Region) (nmemb size : ℕ) : Prog Stop Heap ℕ := do
  let nbytes := nmemb * size % 2 ^ 32
  let p ← malloc R nbytes
  access p nbytes
  return p

/-- `realloc`. -/
def realloc (R : Region) (ptr size : ℕ) : Prog Stop Heap ℕ := do
  if ptr = 0 then malloc R size
  else
    if size = 0 then free R ptr
    let p := ptr - metaSize
    let b ← load p
    assert "p->magic_head == MAGIC_HEAD" (decide (b.magicHead = magicHead))
    assert "p->magic_end == MAGIC_END" (decide (b.magicEnd = magicEnd))
    let n ← malloc R size
    let b ← load p
    access ptr (min size b.size)
    access n (min size b.size)
    free R ptr
    return n

end Cosiris.Libc
