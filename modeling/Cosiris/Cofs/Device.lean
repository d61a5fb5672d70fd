import Cosiris.Kernel.Files
import Cosiris.Lib.Bytes

/-!
# The disk and its free-block bitmap

The blocks of the COFS partition as `get_hd_buf` shows them, and the functions of
`cofs.c` that work on whole blocks: `block_zero`, `block_alloc`, `block_free`. The
disk is an array of blocks of 512 bytes (`BLOCK_SIZE`); a bitmap block holds 4096
bits (`BITS_PER_BLOCK`).

A buffer is locked from `get_hd_buf` to `put_hd_buf`, so that a second
`get_hd_buf` of the same block by the same process never returns. The device also
keeps the list of the calls of `block_free`, each with the state of the bit it
found; no function reads it.
-/

namespace Cosiris.Cofs

open Function Prog

/-! ### Blocks -/

/-- The contents of a block: its bytes `0` to `511`. -/
abbrev Block := ℕ → UInt8

/-- A block seen as an array of `uint32_t`. -/
def word (b : Block) (k : ℕ) : ℕ := getLe b (4 * k) 4

/-- Write an entry of a block seen as an array of `uint32_t`. -/
def setWord (b : Block) (k v : ℕ) : Block := putLe b (4 * k) 4 v

/-- The block of zeros. -/
def zeroBlock : Block := fun _ => 0

@[simp] theorem word_zeroBlock (k : ℕ) : word zeroBlock k = 0 := getLe_zero _ _

theorem word_setWord_self (b : Block) (k : ℕ) {v : ℕ} (hv : v < 2 ^ 32) :
    word (setWord b k v) k = v := by
  unfold word setWord
  rw [getLe_putLe]
  exact Nat.mod_eq_of_lt hv

theorem word_setWord_ne (b : Block) {k j : ℕ} (v : ℕ) (h : j ≠ k) :
    word (setWord b k v) j = word b j :=
  getLe_putLe_disjoint (by omega)

/-! ### The superblock -/

/-- The fields of `cofs_superblock` that the file system uses. -/
structure Superblock where
  /-- Total size of the file system, in blocks. -/
  size : ℕ
  /-- Number of inodes. -/
  numInodes : ℕ
  /-- Where the free bitmap starts. -/
  bitmapStart : ℕ
  /-- Where the inodes start. -/
  inodeStart : ℕ
  deriving DecidableEq

namespace Superblock

variable (sb : Superblock)

/-- `BITMAP_BLOCK`. -/
def bitmapBlock (block : ℕ) : ℕ := block / 4096 + sb.bitmapStart

/-- `INO_BLK`: a block holds eight inodes (`NUM_INOPB`). -/
def inoBlk (ino : ℕ) : ℕ := ino / 8 + sb.inodeStart

/-- The number of bitmap blocks that `block_alloc` visits. -/
def numMaps : ℕ := (sb.size + 4095) / 4096

/-- The number of bits in the bitmap blocks that `block_alloc` visits. -/
def numBits : ℕ := 4096 * sb.numMaps

/-- The first block after the inodes, as `mkcofs` lays them out: the blocks below it are
the metadata blocks. -/
def dataStart : ℕ := sb.inodeStart + sb.numInodes / 8 + 1

/-- A block of the bitmap. -/
def InBitmap (b : ℕ) : Prop := sb.bitmapStart ≤ b ∧ b < sb.bitmapStart + sb.numMaps

/-- The layout `mkcofs` gives a partition: an unused block, the superblock, the bitmap, the
inodes, the data. The partition is no larger than a terabyte and the number of its inodes is one
of 32 bits. -/
structure Layout : Prop where
  bitmap : 2 ≤ sb.bitmapStart
  inodes : sb.bitmapStart + sb.numMaps ≤ sb.inodeStart
  data : sb.dataStart ≤ sb.size
  size : sb.size ≤ 2 ^ 31
  root : 1 < sb.numInodes
  width : sb.numInodes < 2 ^ 32

variable {sb}

theorem Layout.dataStart_le (h : sb.Layout) : sb.dataStart ≤ sb.numBits := by
  have := h.data
  unfold numBits numMaps
  omega

theorem Layout.numBits_lt (h : sb.Layout) : sb.numBits < 2 ^ 32 := by
  have := h.size
  unfold numBits numMaps
  omega

theorem InBitmap.lt_dataStart (h : sb.Layout) {b : ℕ} (hb : sb.InBitmap b) : b < sb.dataStart := by
  have := h.inodes
  have := hb.2
  unfold dataStart
  omega

theorem inBitmap_bitmapBlock {b : ℕ} (hb : b < sb.numBits) : sb.InBitmap (sb.bitmapBlock b) := by
  unfold numBits at hb
  unfold InBitmap bitmapBlock
  omega

theorem inoBlk_not_inBitmap (h : sb.Layout) (i : ℕ) : ¬ sb.InBitmap (sb.inoBlk i) := by
  have := h.inodes
  unfold InBitmap inoBlk
  omega

theorem inoBlk_lt_dataStart {i : ℕ} (hi : i < sb.numInodes) : sb.inoBlk i < sb.dataStart := by
  unfold inoBlk dataStart
  omega

end Superblock

/-! ### Buffers -/

/-- The partition, the locked buffers, and the calls of `block_free` so far. -/
structure Dev where
  superb : Superblock
  disk : ℕ → Block
  held : List ℕ
  freed : List (ℕ × Bool)

/-- `get_hd_buf`: the buffer of a block, locked. -/
def getHdBuf (b : ℕ) : Prog Halt Dev Block := do
  let d ← read
  if b ∈ d.held then halt .deadlock
  modify fun d => { d with held := b :: d.held }
  return d.disk b

/-- `put_hd_buf`. -/
def putHdBuf (b : ℕ) : Prog Halt Dev Unit := modify fun d => { d with held := d.held.erase b }

/-- Change the contents of a buffer. -/
def setBuf (b : ℕ) (buf : Block) : Prog Halt Dev Unit := modify fun d =>
  { d with disk := update d.disk b buf }

section

variable {d : Dev} {b : ℕ} {E : Halt → Dev → Prop}

@[simp] theorem wp_getHdBuf {Q : Block → Dev → Prop} :
    wp (getHdBuf b) Q E d =
      if b ∈ d.held then E .deadlock d else Q (d.disk b) { d with held := b :: d.held } := by
  simp only [getHdBuf, wp_bind, wp_read, wp_ite, wp_halt, wp_pure, wp_modify]

@[simp] theorem wp_putHdBuf {Q : Unit → Dev → Prop} :
    wp (putHdBuf b) Q E d = Q () { d with held := d.held.erase b } := rfl

@[simp] theorem wp_setBuf {buf : Block} {Q : Unit → Dev → Prop} :
    wp (setBuf b buf) Q E d = Q () { d with disk := update d.disk b buf } := rfl

end

/-- `block_zero`. -/
def blockZero (block : ℕ) : Prog Halt Dev Unit := do
  let _ ← getHdBuf block
  setBuf block zeroBlock
  putHdBuf block

/-- A word of a bitmap block has a clear bit. -/
def notFull (buf : Block) (k : ℕ) : Bool := decide (word buf k ≠ 0xFFFFFFFF)

/-- The index of a clear bit in a bitmap block: a word that is not full is looked for first,
then a clear bit in it. -/
def clearIdx (buf : Block) : Option ℕ :=
  let scan := (List.range 128).findIdx (notFull buf)
  if scan ≠ 128 then
    ((List.range 32).map (scan * 32 + ·)).find? fun idx =>
      decide (buf (idx / 8) &&& UInt8.ofNat (2 ^ (idx % 8)) = 0)
  else none

/-- The loop of `block_alloc` from bit `block`, with `n` bitmap blocks to go. -/
def blockAllocFrom : ℕ → ℕ → Prog Halt Dev ℕ
  | 0, _ => halt (.panic "Cannot find any free block")
  | n + 1, block => do
    let d ← read
    let buf ← getHdBuf (d.superb.bitmapBlock block)
    match clearIdx buf with
    | some idx =>
      setBuf (d.superb.bitmapBlock block) (setBit buf idx)
      putHdBuf (d.superb.bitmapBlock block)
      blockZero (block + idx)
      return block + idx
    | none =>
      putHdBuf (d.superb.bitmapBlock block)
      blockAllocFrom n (block + 4096)

/-- `block_alloc`: the first unallocated block, zeroed. -/
def blockAlloc : Prog Halt Dev ℕ := do
  let d ← read
  blockAllocFrom d.superb.numMaps 0

/-- `block_free`. -/
def blockFree (block : ℕ) : Prog Halt Dev Unit := do
  let d ← read
  let buf ← getHdBuf (d.superb.bitmapBlock block)
  let idx := block % 4096
  modify fun d => { d with freed := (block, bitAt buf idx) :: d.freed }
  if buf (idx / 8) &&& UInt8.ofNat (2 ^ (idx % 8)) = 0 then halt (.panic "Block allready free")
  setBuf (d.superb.bitmapBlock block) (clearBit buf idx)
  putHdBuf (d.superb.bitmapBlock block)

/-! ### What the bitmap says -/

/-- The bitmap bit of a block. -/
def Dev.used (d : Dev) (b : ℕ) : Bool := bitAt (d.disk (d.superb.bitmapBlock b)) (b % 4096)

/-- `d'` is `d` with the first unallocated block `b` taken and zeroed. -/
structure Dev.Taken (d : Dev) (b : ℕ) (d' : Dev) : Prop where
  superb : d'.superb = d.superb
  held : d'.held = d.held
  freed : d'.freed = d.freed
  lt : b < d.superb.numBits
  fresh : d.used b = false
  least : ∀ c, c < b → d.used c = true
  used : ∀ c, c < d.superb.numBits → d'.used c = (d.used c || decide (c = b))
  zero : d'.disk b = zeroBlock
  same : ∀ c, ¬ d.superb.InBitmap c → c ≠ b → d'.disk c = d.disk c

/-- `d'` is `d` with the bit of block `b`, which was set, cleared. -/
structure Dev.Released (d : Dev) (b : ℕ) (d' : Dev) : Prop where
  superb : d'.superb = d.superb
  held : d'.held = d.held
  freed : d'.freed = (b, true) :: d.freed
  used : ∀ c, c < d.superb.numBits → d'.used c = (d.used c && !decide (c = b))
  same : ∀ c, ¬ d.superb.InBitmap c → d'.disk c = d.disk c

/-- A metadata block is never free. -/
def Dev.MetaUsed (d : Dev) : Prop := ∀ b, b < d.superb.dataStart → d.used b = true

theorem testMask_iff (buf : Block) (idx : ℕ) :
    buf (idx / 8) &&& UInt8.ofNat (2 ^ (idx % 8)) = 0 ↔ bitAt buf idx = false :=
  and_two_pow_eq_zero_iff _ (Nat.mod_lt _ (by decide))

/-- The index found is that of the first clear bit. -/
theorem clearIdx_some {buf : Block} {idx : ℕ} (h : clearIdx buf = some idx) :
    idx < 4096 ∧ bitAt buf idx = false ∧ ∀ j, j < idx → bitAt buf j = true := by
  unfold clearIdx at h
  dsimp only at h
  have hle : (List.range 128).findIdx (notFull buf) ≤ (List.range 128).length :=
    List.findIdx_le_length
  rw [List.length_range] at hle
  split_ifs at h
  obtain ⟨hbit, i, hi, hidx, hmin⟩ := List.find?_eq_some_iff_getElem.mp h
  simp only [List.length_map, List.length_range] at hi
  simp only [List.getElem_map, List.getElem_range] at hidx hmin
  refine ⟨by omega, (testMask_iff _ _).mp (by simpa using hbit), fun j hj => ?_⟩
  by_cases hj' : j / 32 < (List.range 128).findIdx (notFull buf)
  · have hfull := List.not_of_lt_findIdx hj'
    have := (getLe_full_iff buf (j / 32)).mp (by simpa [notFull, word] using hfull) (j % 32)
      (Nat.mod_lt _ (by decide))
    rwa [show 32 * (j / 32) + j % 32 = j by omega] at this
  · generalize (List.range 128).findIdx (notFull buf) = scan at *
    have := hmin (j - scan * 32) (by omega)
    rw [show scan * 32 + (j - scan * 32) = j by omega] at this
    simp only [Bool.not_eq_true', decide_eq_false_iff_not, testMask_iff] at this
    simpa using this

/-- Nothing is found only in a full bitmap block. -/
theorem clearIdx_none {buf : Block} (h : clearIdx buf = none) {j : ℕ} (hj : j < 4096) :
    bitAt buf j = true := by
  unfold clearIdx at h
  dsimp only at h
  have hfull : word buf (j / 32) = 0xFFFFFFFF := by
    have hle : (List.range 128).findIdx (notFull buf) ≤ (List.range 128).length :=
      List.findIdx_le_length
    rw [List.length_range] at hle
    by_cases hne : (List.range 128).findIdx (notFull buf) = 128
    · have hlt : j / 32 < (List.range 128).findIdx (notFull buf) := by omega
      have := List.not_of_lt_findIdx hlt
      simpa [notFull] using this
    · exfalso
      rw [if_pos hne] at h
      have hlt : (List.range 128).findIdx (notFull buf) < (List.range 128).length := by
        rw [List.length_range]
        omega
      have hword : notFull buf (List.range 128)[(List.range 128).findIdx (notFull buf)] = true :=
        List.findIdx_getElem
      rw [List.getElem_range] at hword
      generalize (List.range 128).findIdx (notFull buf) = scan at *
      simp only [notFull, decide_eq_true_eq] at hword
      refine hword ((getLe_full_iff buf scan).mpr fun i hi => ?_)
      have := List.find?_eq_none.mp h (scan * 32 + i)
        (List.mem_map.mpr ⟨i, List.mem_range.mpr hi, rfl⟩)
      simp only [decide_eq_true_eq, testMask_iff] at this
      rw [Nat.mul_comm]
      simpa using this
  have := (getLe_full_iff buf (j / 32)).mp hfull (j % 32) (Nat.mod_lt _ (by decide))
  rwa [show 32 * (j / 32) + j % 32 = j by omega] at this

/-! ### What the functions do -/

/-- The bitmap after one of its blocks is written. -/
theorem used_update_bitmap (d : Dev) (b : ℕ) (buf : Block) (h : List ℕ)
    (f : List (ℕ × Bool)) (c : ℕ) :
    Dev.used ⟨d.superb, update d.disk (d.superb.bitmapBlock b) buf, h, f⟩ c =
      if c / 4096 = b / 4096 then bitAt buf (c % 4096) else d.used c := by
  unfold Dev.used Superblock.bitmapBlock
  dsimp only
  split_ifs with hc
  · rw [hc, update_self]
  · rw [update_of_ne (by omega)]

/-- A block outside the bitmap is written: the bitmap stays. -/
theorem used_update_of_not_inBitmap {d : Dev} {b c : ℕ} (buf : Block) (h : List ℕ)
    (f : List (ℕ × Bool)) (hb : ¬ d.superb.InBitmap b) (hc : c < d.superb.numBits) :
    Dev.used ⟨d.superb, update d.disk b buf, h, f⟩ c = d.used c := by
  unfold Dev.used
  have hne : d.superb.bitmapBlock c ≠ b := fun e => hb (e ▸ Superblock.inBitmap_bitmapBlock hc)
  dsimp only
  rw [update_of_ne hne]

/-- **`block_free` clears the bit of its block, and stops when it is clear.** -/
theorem blockFree_spec {d : Dev} {b : ℕ} (hh : d.superb.bitmapBlock b ∉ d.held)
    (hb : b < d.superb.numBits) :
    wp (blockFree b) (fun _ d' => d.used b = true ∧ d.Released b d')
      (fun e d' => d.used b = false ∧ e = .panic "Block allready free" ∧
        d'.freed = (b, false) :: d.freed) d := by
  simp only [blockFree, wp_bind, wp_read, wp_getHdBuf, if_neg hh, wp_modify, wp_ite, wp_halt,
    wp_setBuf, wp_putHdBuf, testMask_iff]
  by_cases hbit : bitAt (d.disk (d.superb.bitmapBlock b)) (b % 4096) = false
  · rw [if_pos hbit]
    exact ⟨hbit, trivial, by rw [hbit]⟩
  · rw [if_neg hbit]
    rw [Bool.not_eq_false] at hbit
    refine ⟨hbit, rfl, List.erase_cons_head _ _, by rw [hbit], fun c hc => ?_, fun c hc => ?_⟩
    · rw [used_update_bitmap]
      split_ifs with hdiv
      · rw [bitAt_clearBit]
        unfold Dev.used Superblock.bitmapBlock
        rw [hdiv]
        congr 3
        exact propext ⟨fun _ => by omega, fun e => by rw [e]⟩
      · have hne : c ≠ b := fun e => hdiv (by rw [e])
        simp [hne]
    · have hne : c ≠ d.superb.bitmapBlock b := fun e => hc (e ▸ Superblock.inBitmap_bitmapBlock hb)
      dsimp only
      rw [update_of_ne hne]

theorem bitmapBlock_add (sb : Superblock) {k j : ℕ} (hj : j < 4096) :
    sb.bitmapBlock (4096 * k + j) = sb.bitmapBlock (4096 * k) := by
  unfold Superblock.bitmapBlock
  omega

theorem used_add (d : Dev) {k j : ℕ} (hj : j < 4096) :
    d.used (4096 * k + j) = bitAt (d.disk (d.superb.bitmapBlock (4096 * k))) j := by
  unfold Dev.used
  rw [bitmapBlock_add _ hj, show (4096 * k + j) % 4096 = j by omega]

/-- The loop of `block_alloc` finds the first clear bit from where it stands. -/
theorem blockAllocFrom_spec {d : Dev} (hl : d.superb.Layout) (hm : d.MetaUsed)
    (hh : ∀ c ∈ d.held, ¬ d.superb.InBitmap c ∧ d.used c = true) (n k : ℕ)
    (hnk : n + k = d.superb.numMaps)
    (hlow : ∀ c, c < 4096 * k → d.used c = true) :
    wp (blockAllocFrom n (4096 * k)) (fun b d' => d.Taken b d')
      (fun e d' => e = .panic "Cannot find any free block" ∧ d' = d ∧
        ∀ c, c < d.superb.numBits → d.used c = true) d := by
  induction n generalizing k with
  | zero =>
    refine ⟨rfl, rfl, fun c hc => hlow c ?_⟩
    unfold Superblock.numBits at hc
    omega
  | succ n ih =>
    have hin : d.superb.InBitmap (d.superb.bitmapBlock (4096 * k)) := by
      apply Superblock.inBitmap_bitmapBlock
      unfold Superblock.numBits
      omega
    have hnot : d.superb.bitmapBlock (4096 * k) ∉ d.held := fun hmem => (hh _ hmem).1 hin
    simp only [blockAllocFrom, wp_bind, wp_read, wp_getHdBuf, if_neg hnot]
    cases hidx : clearIdx (d.disk (d.superb.bitmapBlock (4096 * k))) with
    | none =>
      simp only [wp_bind, wp_putHdBuf, List.erase_cons_head]
      refine ih (k + 1) (by omega) fun c hc => ?_
      by_cases hc' : c < 4096 * k
      · exact hlow c hc'
      · rw [show c = 4096 * k + (c - 4096 * k) by omega, used_add _ (by omega)]
        exact clearIdx_none hidx (by omega)
    | some idx =>
      obtain ⟨hlt, hclear, hmin⟩ := clearIdx_some hidx
      have hfresh : d.used (4096 * k + idx) = false := by rw [used_add _ hlt, hclear]
      have hbits : 4096 * k + idx < d.superb.numBits := by
        unfold Superblock.numBits
        omega
      have hnotin : ¬ d.superb.InBitmap (4096 * k + idx) := by
        intro h
        have := hm _ (h.lt_dataStart hl)
        rw [hfresh] at this
        exact Bool.false_ne_true this
      have hfree : 4096 * k + idx ∉ d.held := by
        intro h
        have := (hh _ h).2
        rw [hfresh] at this
        exact Bool.false_ne_true this
      simp only [blockZero, wp_bind, wp_setBuf, wp_putHdBuf, wp_getHdBuf, wp_pure,
        List.erase_cons_head, if_neg hfree]
      have hneb : d.superb.bitmapBlock (4096 * k) ≠ 4096 * k + idx := fun e => hnotin (e ▸ hin)
      refine ⟨rfl, rfl, rfl, hbits, hfresh, fun c hc => ?_, fun c hc => ?_, ?_, fun c hc hcb => ?_⟩
      · by_cases hc' : c < 4096 * k
        · exact hlow c hc'
        · rw [show c = 4096 * k + (c - 4096 * k) by omega, used_add _ (by omega)]
          exact hmin _ (by omega)
      · have h1 := used_update_of_not_inBitmap
          (d := ⟨d.superb, update d.disk (d.superb.bitmapBlock (4096 * k))
          (setBit (d.disk (d.superb.bitmapBlock (4096 * k))) idx), d.held, d.freed⟩)
            zeroBlock d.held
            d.freed hnotin hc
        refine h1.trans ?_
        rw [used_update_bitmap]
        split_ifs with hdiv
        · rw [bitAt_setBit, ← used_add _ (Nat.mod_lt _ (by decide)), show 4096 * k + c % 4096 =
            c by omega]
          congr 2
          exact propext ⟨fun _ => by omega, fun e => by omega⟩
        · have hne : c ≠ 4096 * k + idx := by omega
          simp [hne]
      · dsimp only
        rw [update_self]
      · have hne : c ≠ d.superb.bitmapBlock (4096 * k) := fun e => hc (e ▸ hin)
        dsimp only
        rw [update_of_ne hcb, update_of_ne hne]

/-- **`block_alloc` takes the first unallocated block**, and stops when there is none. -/
theorem blockAlloc_spec {d : Dev} (hl : d.superb.Layout) (hm : d.MetaUsed)
    (hh : ∀ c ∈ d.held, ¬ d.superb.InBitmap c ∧ d.used c = true) :
    wp blockAlloc (fun b d' => d.Taken b d')
      (fun e d' => e = .panic "Cannot find any free block" ∧ d' = d ∧
        ∀ c, c < d.superb.numBits → d.used c = true) d := by
  simp only [blockAlloc, wp_bind, wp_read]
  exact blockAllocFrom_spec hl hm hh _ 0 (by omega) (by omega)

end Cosiris.Cofs
