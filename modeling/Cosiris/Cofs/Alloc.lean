import Cosiris.Cofs.Device

/-!
# Allocating a block on any partition

`block_alloc` from any state of the bitmap, on a partition of any size that `mkcofs` formats.
The loop goes by the blocks of the bitmap, and its counter has 32 bits. The last block of the
bitmap has bits past the end of the partition, which the loop does not tell from the others.
-/

namespace Cosiris.Cofs

open Function Prog

/-- The geometry that `main` of `mkcofs` writes for a partition of `size` blocks. -/
def Superblock.mkcofs (size : ℕ) : Superblock where
  size := size
  numInodes := size * 512 % 2 ^ 32 / 4096
  bitmapStart := 2
  inodeStart := 2 + (size / 4096 + 1)

/-- The loop of `block_alloc` with its counter of 32 bits, for at most `n` rounds. -/
def blockAllocLoop : ℕ → ℕ → Prog Halt Dev ℕ
  | 0, _ => halt .deadlock
  | n + 1, block => do
    let d ← read
    if block < d.superb.size then
      let buf ← getHdBuf (d.superb.bitmapBlock block)
      match clearIdx buf with
      | some idx =>
        setBuf (d.superb.bitmapBlock block) (setBit buf idx)
        putHdBuf (d.superb.bitmapBlock block)
        blockZero (block + idx)
        return block + idx
      | none =>
        putHdBuf (d.superb.bitmapBlock block)
        blockAllocLoop n ((block + 4096) % 2 ^ 32)
    else halt (.panic "Cannot find any free block")

/-- `block_alloc` with its counter of 32 bits. After `2 ^ 20` rounds the counter is back at `0`
and the bitmap is as it was, so that the loop never ends. -/
def blockAllocCounted : Prog Halt Dev ℕ := blockAllocLoop (2 ^ 20) 0

/-! ### The counter does not wrap -/

theorem getHdBuf_bind_of_mem {β : Type} {f : Block → Prog Halt Dev β} {d : Dev} {b : ℕ}
    (hb : b ∈ d.held) :
    (getHdBuf b >>= f) d = .halt .deadlock d := by
  apply bind_of_halt
  simp only [getHdBuf, read_bind, if_pos hb]
  rfl

theorem getHdBuf_bind_of_not_mem {β : Type} {f : Block → Prog Halt Dev β} {d : Dev} {b : ℕ}
    (hb : b ∉ d.held) :
    (getHdBuf b >>= f) d = f (d.disk b) { d with held := b :: d.held } := by
  apply bind_of_ok
  simp only [getHdBuf, read_bind, if_neg hb]
  rfl

/-- Where the counter does not wrap, the loop is the one of `blockAlloc`. -/
theorem blockAllocLoop_eq {n m k : ℕ} {d : Dev} (hs : d.superb.size ≤ 2 ^ 32 - 4096)
    (hk : n + k = d.superb.numMaps) :
    blockAllocLoop (n + 1 + m) (4096 * k) d = blockAllocFrom n (4096 * k) d := by
  have hmaps : d.superb.numMaps = (d.superb.size + 4095) / 4096 := rfl
  induction n generalizing k d with
  | zero =>
    rw [show 0 + 1 + m = m + 1 by omega, blockAllocLoop, blockAllocFrom]
    show (if 4096 * k < d.superb.size then _ else halt _ : Prog Halt Dev ℕ) d = _
    rw [if_neg (by omega)]
  | succ n ih =>
    rw [show n + 1 + 1 + m = (n + 1 + m) + 1 by omega, blockAllocLoop, blockAllocFrom]
    show (if 4096 * k < d.superb.size then _ else halt _ : Prog Halt Dev ℕ) d =
      (getHdBuf _ >>= fun _ => _) d
    rw [if_pos (by omega), show (4096 * k + 4096) % 2 ^ 32 = 4096 * (k + 1) by omega,
      ← Nat.mul_succ]
    by_cases hb : d.superb.bitmapBlock (4096 * k) ∈ d.held
    · rw [getHdBuf_bind_of_mem hb, getHdBuf_bind_of_mem hb]
    · rw [getHdBuf_bind_of_not_mem hb, getHdBuf_bind_of_not_mem hb]
      cases clearIdx (d.disk (d.superb.bitmapBlock (4096 * k))) with
      | some idx => rfl
      | none =>
        have hk' : n + (k + 1) = d.superb.numMaps := by omega
        exact ih hs hk' hmaps

/-- On a partition that leaves the counter room, `blockAlloc` is `block_alloc`. -/
theorem blockAllocCounted_eq {d : Dev} (hs : d.superb.size ≤ 2 ^ 32 - 4096) :
    blockAllocCounted d = blockAlloc d := by
  have hmaps : d.superb.numMaps = (d.superb.size + 4095) / 4096 := rfl
  have h := blockAllocLoop_eq (n := d.superb.numMaps) (m := 2 ^ 20 - 1 - d.superb.numMaps)
    (k := 0) hs rfl
  rw [show d.superb.numMaps + 1 + (2 ^ 20 - 1 - d.superb.numMaps) = 2 ^ 20 by omega] at h
  exact h

/-! ### The first clear bit -/

/-- Block `b` is the first whose bit is clear. -/
def Dev.FirstFree (d : Dev) (b : ℕ) : Prop := d.used b = false ∧ ∀ c, c < b → d.used c = true

/-- The bit of a block is set and the block is zeroed. -/
def Dev.grab (d : Dev) (b : ℕ) : Dev :=
  { d with
    disk := update
      (update d.disk (d.superb.bitmapBlock b) (setBit (d.disk (d.superb.bitmapBlock b)) (b % 4096)))
      b zeroBlock }

theorem Dev.FirstFree.unique {d : Dev} {b c : ℕ} (hb : d.FirstFree b)
    (hc : d.FirstFree c) : b = c := by
  rcases lt_trichotomy b c with h | h | h
  · exact absurd (hc.2 b h) (by simp [hb.1])
  · exact h
  · exact absurd (hb.2 c h) (by simp [hc.1])

/-- The loop of `block_alloc` takes the first block whose bit is clear, whichever it is; it stops
when no bit is clear, or when its buffer is locked. -/
theorem blockAllocLoop_spec {d : Dev} (hs : d.superb.size < 2 ^ 32)
    (hh : ∀ c ∈ d.held, ¬ d.superb.InBitmap c)
    {n k : ℕ} (hnk : n + k = 2 ^ 20) (hk : 4096 * k < d.superb.size + 4096)
    (hlow : ∀ c, c < 4096 * k → d.used c = true) :
    wp (blockAllocLoop n (4096 * k % 2 ^ 32))
      (fun b d' => d.FirstFree b ∧ b < d.superb.numBits ∧ b ∉ d.held ∧ d' = d.grab b)
      (fun e _ =>
        (∀ c, c < d.superb.numBits → d.used c = true) ∧ e = .panic "Cannot find any free block" ∧
          d.superb.size ≤ 2 ^ 32 - 4096 ∨
        (∀ c, c < d.superb.numBits → d.used c = true) ∧ e = .deadlock ∧
          2 ^ 32 - 4096 < d.superb.size ∨
        e = .deadlock ∧ ∃ b, d.FirstFree b ∧ b < d.superb.numBits ∧ b ∈ d.held) d := by
  have hmaps : d.superb.numMaps = (d.superb.size + 4095) / 4096 := rfl
  have hbits : d.superb.numBits = 4096 * d.superb.numMaps := rfl
  induction n generalizing k with
  | zero =>
    exact .inr (.inl ⟨fun c hc => hlow c (by omega), rfl, by omega⟩)
  | succ n ih =>
    rw [Nat.mod_eq_of_lt (by omega)]
    simp only [blockAllocLoop, wp_bind, wp_read, wp_ite, wp_halt]
    split_ifs with hlt
    · have hin : d.superb.InBitmap (d.superb.bitmapBlock (4096 * k)) :=
        Superblock.inBitmap_bitmapBlock (by omega)
      have hnot : d.superb.bitmapBlock (4096 * k) ∉ d.held := fun hmem => hh _ hmem hin
      simp only [wp_getHdBuf, if_neg hnot]
      cases hidx : clearIdx (d.disk (d.superb.bitmapBlock (4096 * k))) with
      | none =>
        simp only [wp_bind, wp_putHdBuf, List.erase_cons_head]
        rw [show 4096 * k + 4096 = 4096 * (k + 1) by omega]
        refine ih (by omega) (by omega) fun c hc => ?_
        by_cases hc' : c < 4096 * k
        · exact hlow c hc'
        · rw [show c = 4096 * k + (c - 4096 * k) by omega, used_add _ (by omega)]
          exact clearIdx_none hidx (by omega)
      | some idx =>
        obtain ⟨hidx4, hclear, hmin⟩ := clearIdx_some hidx
        have hfirst : d.FirstFree (4096 * k + idx) := by
          refine ⟨by rw [used_add _ hidx4, hclear], fun c hc => ?_⟩
          by_cases hc' : c < 4096 * k
          · exact hlow c hc'
          · rw [show c = 4096 * k + (c - 4096 * k) by omega, used_add _ (by omega)]
            exact hmin _ (by omega)
        have hgrab : d.grab (4096 * k + idx) = { d with
            disk := update (update d.disk (d.superb.bitmapBlock (4096 * k))
              (setBit (d.disk (d.superb.bitmapBlock (4096 * k))) idx))
                (4096 * k + idx) zeroBlock } := by
          unfold Dev.grab
          rw [bitmapBlock_add _ hidx4, show (4096 * k + idx) % 4096 = idx by omega]
        simp only [blockZero, wp_bind, wp_setBuf, wp_putHdBuf, wp_getHdBuf, wp_pure,
          List.erase_cons_head]
        split_ifs with hheld
        · exact .inr (.inr ⟨trivial, _, hfirst, by omega, hheld⟩)
        · exact ⟨hfirst, by omega, hheld, hgrab.symm⟩
    · exact .inl ⟨fun c hc => hlow c (by omega), trivial, by omega⟩

/-- What `block_alloc` does, from any state in which no block of the bitmap is locked. -/
theorem blockAllocCounted_spec {d : Dev} (hs : d.superb.size < 2 ^ 32)
    (hh : ∀ c ∈ d.held, ¬ d.superb.InBitmap c) :
    wp blockAllocCounted
      (fun b d' => d.FirstFree b ∧ b < d.superb.numBits ∧ b ∉ d.held ∧ d' = d.grab b)
      (fun e _ =>
        (∀ c, c < d.superb.numBits → d.used c = true) ∧ e = .panic "Cannot find any free block" ∧
          d.superb.size ≤ 2 ^ 32 - 4096 ∨
        (∀ c, c < d.superb.numBits → d.used c = true) ∧ e = .deadlock ∧
          2 ^ 32 - 4096 < d.superb.size ∨
        e = .deadlock ∧ ∃ b, d.FirstFree b ∧ b < d.superb.numBits ∧ b ∈ d.held) d :=
  blockAllocLoop_spec (n := 2 ^ 20) (k := 0) hs hh (by omega) (by omega) (by omega)

/-! ### Exactly when the allocation is right -/

/-- `block_alloc` takes the first block whose bit is clear, sets exactly this bit and zeroes
exactly this block, which is one of the partition; or it panics, all blocks of the partition being
in use. -/
def Dev.AllocRight (d : Dev) : Prop :=
  wp blockAllocCounted
    (fun b d' => d.FirstFree b ∧ b < d.superb.size ∧
      d'.disk (d.superb.bitmapBlock b) = setBit (d.disk (d.superb.bitmapBlock b)) (b % 4096) ∧
      d'.disk b = zeroBlock ∧ ∀ c, c ≠ d.superb.bitmapBlock b → c ≠ b → d'.disk c = d.disk c)
    (fun e _ => e = .panic "Cannot find any free block" ∧ ∀ c, c < d.superb.size →
      d.used c = true) d

theorem Dev.grab_right {d : Dev} {b : ℕ} (hb : d.superb.bitmapBlock b ≠ b) :
    (d.grab b).disk (d.superb.bitmapBlock b) = setBit (d.disk (d.superb.bitmapBlock b)) (b % 4096) ∧
      (d.grab b).disk b = zeroBlock ∧ ∀ c, c ≠ d.superb.bitmapBlock b → c ≠ b →
        (d.grab b).disk c = d.disk c := by
  unfold Dev.grab
  refine ⟨?_, update_self _ _ _, fun c h1 h2 => ?_⟩
  · exact (update_of_ne hb _ _).trans (update_self _ _ _)
  · exact (update_of_ne h2 _ _).trans (update_of_ne h1 _ _)

/-- A bitmap block that holds its own bit is zeroed after the bit is set. -/
theorem Dev.grab_bitmap (d : Dev) (b : ℕ) : (d.grab b).disk b ≠ setBit (d.disk b) (b % 4096) := by
  intro h
  have hzero : (d.grab b).disk b = zeroBlock := update_self _ _ _
  have hbit := bitAt_setBit (d.disk b) (b % 4096) (b % 4096)
  rw [← h, hzero] at hbit
  simp [bitAt, zeroBlock] at hbit

theorem Superblock.size_le_numBits (sb : Superblock) : sb.size ≤ sb.numBits := by
  unfold numBits numMaps
  omega

/-- **`block_alloc`, called with no bitmap block locked, is right exactly** when the first clear bit
of the bitmap is that of a block of the partition, other than the bitmap block that holds this bit
and no locked buffer; or when all bits of the bitmap blocks are set, those past the end of the
partition too, and the counter has room. -/
theorem alloc_right_iff {d : Dev} {size : ℕ} (hsize : size < 2 ^ 32) (hd : d.superb = .mkcofs size)
    (hh : ∀ c ∈ d.held, ¬ d.superb.InBitmap c) :
    d.AllocRight ↔
      (∃ b, d.FirstFree b ∧ b < d.superb.size ∧ d.superb.bitmapBlock b ≠ b ∧ b ∉ d.held) ∨
      (∀ c, c < d.superb.numBits → d.used c = true) ∧ d.superb.size ≤ 2 ^ 32 - 4096 := by
  have hs : d.superb.size < 2 ^ 32 := by
    rw [hd]
    exact hsize
  have hle := d.superb.size_le_numBits
  have hspec := blockAllocCounted_spec hs hh
  unfold Dev.AllocRight
  unfold wp at hspec ⊢
  cases hrun : blockAllocCounted d with
  | ok b d' =>
    rw [hrun] at hspec
    obtain ⟨hfirst, hbits, hheld, rfl⟩ := hspec
    constructor
    · rintro ⟨-, hlt, hset, -, -⟩
      refine .inl ⟨b, hfirst, hlt, fun e => ?_, hheld⟩
      rw [e] at hset
      exact d.grab_bitmap b hset
    · rintro (⟨c, hc, hlt, hne, -⟩ | ⟨hall, -⟩)
      · obtain rfl := hc.unique hfirst
        exact ⟨hc, hlt, Dev.grab_right hne⟩
      · exact absurd (hall b hbits) (by simp [hfirst.1])
  | halt e d' =>
    rw [hrun] at hspec
    obtain ⟨hall, rfl, hwrap⟩ | ⟨hall, rfl, hwrap⟩ | ⟨rfl, b, hfirst, hbits, hheld⟩ := hspec
    · exact ⟨fun _ => .inr ⟨hall, hwrap⟩, fun _ => ⟨rfl, fun c hc => hall c (by omega)⟩⟩
    · constructor
      · rintro ⟨he, -⟩
        cases he
      · rintro (⟨c, hc, hlt, -⟩ | ⟨-, hroom⟩)
        · exact absurd (hall c (by omega)) (by simp [hc.1])
        · omega
    · constructor
      · rintro ⟨he, -⟩
        cases he
      · rintro (⟨c, hc, -, -, hnot⟩ | ⟨hall, -⟩)
        · exact absurd hheld (hc.unique hfirst ▸ hnot)
        · exact absurd (hall b hbits) (by simp [hfirst.1])

/-- A partition of 100 blocks, with the given bitmap. -/
def hundred (bits : Block) : Dev :=
  ⟨.mkcofs 100, fun b => if b = 2 then bits else zeroBlock, [], []⟩

/-- The bitmap of a partition with nothing but the root directory, in block 5. -/
def rootOnly : Block := fun q => if q = 0 then 0x3F else 0

/-- The bitmap of a partition of 100 blocks, all in use. -/
def allHundred : Block := fun q => if q < 12 then 0xFF else if q = 12 then 0x0F else 0

theorem alloc_right_hundred : (hundred rootOnly).AllocRight := by
  have hsize : 100 < 2 ^ 32 := by decide
  refine (alloc_right_iff hsize rfl (by simp [hundred])).mpr (.inl ⟨6, ?_, ?_, ?_, ?_⟩)
  · exact ⟨by decide, by decide⟩
  · decide
  · decide
  · exact List.not_mem_nil

/-- **All blocks of the partition are in use, and `block_alloc` returns the block past its end.** -/
theorem alloc_past_end : (blockAllocCounted (hundred allHundred)).value? = some 100 ∧
    ¬ (hundred allHundred).AllocRight := by
  have hrun : (blockAllocCounted (hundred allHundred)).value? = some 100 := by decide +kernel
  refine ⟨hrun, fun h => ?_⟩
  unfold Dev.AllocRight wp at h
  cases hr : blockAllocCounted (hundred allHundred) with
  | ok b d' =>
    rw [hr] at h hrun
    obtain ⟨-, hlt, -⟩ := h
    obtain rfl : b = 100 := Option.some.inj hrun
    exact absurd hlt (by decide)
  | halt e d' =>
    rw [hr] at hrun
    cases hrun

end Cosiris.Cofs
