import Cosiris.Libc.Tiling
import Cosiris.Lib.Runs

/-!
# The heap stays tiled

Each function of `lib/malloc.c` as an operation on the list of blocks: `malloc` splits
a free block, or the last one after growing it; `free` marks a block free and joins it
to its free neighbours; `heap_contract` shrinks the last block and the heap with it.
All keep the heap tiled, and they fail only where `sbrk` does.
-/

namespace Cosiris.Libc

open Function Prog

variable {R : Region} {h : Heap} {l l₂ : List Block} {E : Stop → Heap → Prop}

/-! ### `malloc` -/

/-- A free block is split in two. -/
theorem Tiled.split {s size : ℕ} (hL : Tiled R h (l ++ ⟨s, true⟩ :: l₂)) (h4 : size % 4 = 0)
    (hs : size + metaSize ≤ s) :
    wp (split (h.firstBlock + len l) size
      (newMeta s true (link l₂ (h.firstBlock + len l + metaSize + s))))
      (fun a h' => a = h.firstBlock + len l + metaSize ∧
        Tiled R h' (l ++ ⟨size, false⟩ :: ⟨s - size - metaSize, true⟩ :: l₂) ∧
        Kept R.startAddr (l ++ ⟨s, true⟩ :: l₂) h h') E h := by
  obtain ⟨-, hend⟩ := hL.header
  have hfirst := hL.first
  have hlt := hL.end_lt
  have hms : metaSize = 20 := rfl
  set x := h.firstBlock + len l with hx
  dsimp only at hend
  have hn : (x + metaSize + size) % 2 ^ 32 = x + metaSize + size := by omega
  have hnext : sub32 (sub32 s size) metaSize = s - size - metaSize := by
    rw [sub32_eq (x := s) (by omega) (by omega), sub32_eq (by omega) (by omega)]
  have hsum : (size + metaSize) % 2 ^ 32 ≤ s := by omega
  have hz : x + metaSize + size + metaSize + (s - size - metaSize) = x + metaSize + s := by omega
  simp only [Libc.split, newMeta, wp_bind, hn, hnext]
  rw [wp_assert (by exact decide_eq_true hsum), wp_store (by omega),
    wp_store (by simp only [Heap.write_endAddr]; omega), wp_pure]
  refine ⟨rfl,
    ⟨hL.replace (k := [⟨s, true⟩]) (by simp)
      (List.cons_ne_nil ⟨size, false⟩ [⟨s - size - metaSize, true⟩])
    ?_ ?_ ?_ ?_ ?_ ?_ ?_, ?_⟩,
      (Kept.refl.write (not_shielded_free rfl ?_ ?_)).write (not_shielded_free rfl ?_ ?_)⟩
  · rfl
  · rfl
  · simp only [len_cons, len_nil]
    omega
  · intro y hy
    simp only [len_cons, len_nil, ← hx] at hy
    rw [Heap.write_ne (by omega), Heap.write_ne (by omega)]
  · intro htail
    refine ⟨?_, ?_, ?_⟩
    · rw [Heap.write_ne (by omega)]
      simp [newMeta, hx]
    · simp [newMeta, ← hx, hz]
    · show Chain _ _ l₂
      simpa only [len_cons, len_nil, Nat.add_zero, Nat.add_assoc] using htail
  · have := hL.sizes ⟨s, true⟩ (by simp)
    simp only [List.mem_cons, List.not_mem_nil, or_false, forall_eq_or_imp, forall_eq]
    dsimp only at this
    omega
  · intro hlast
    cases l₂ with
    | nil => simp
    | cons c l₂ => simpa using hlast
  · obtain ⟨hbefore, hafter⟩ := List.isChain_split.mp hL.apart
    exact List.isChain_append_cons_cons.mpr
      ⟨apart_append nofun hbefore, by simp [Apart], apart_cons (fun _ => rfl) hafter⟩
  all_goals
    try dsimp only
    omega

theorem wp_sbrk_page {Q : ℕ → Heap → Prop} :
    wp (sbrk R pageSize) Q E h =
      if h.endAddr + pageSize < R.maxAddr then
        Q h.endAddr { h with endAddr := h.endAddr + pageSize }
      else E .nomem h := by
  have hpages : pages (pageSize : ℤ).natAbs * pageSize = pageSize := by decide
  have h0 : (pageSize : ℤ) ≠ 0 := by decide
  have hpos : 0 < (pageSize : ℤ) := by decide
  simp only [sbrk, wp_bind, wp_read, hpages, wp_ite, if_neg h0, if_pos hpos, wp_modify, wp_pure,
    wp_halt]

/-- The last block changes its size, and the break moves with it. -/
theorem Tiled.resize {h' : Heap} {l : List Block} {s s' : ℕ} (hL : Tiled R h (l ++ [⟨s, true⟩]))
    (hmem : h'.mem = (h.write (h.firstBlock + len l) (newMeta s' true 0)).mem)
    (hfirst : h'.firstBlock = h.firstBlock)
    (h4 : s' % 4 = 0) (hend : h.firstBlock + len l + metaSize + s' = h'.endAddr)
    (haligned : h'.endAddr % pageSize = 0)
    (hbound : h'.endAddr < R.maxAddr) : Tiled R h' (l ++ [⟨s', true⟩]) := by
  obtain ⟨hseg, -⟩ := chain_append.mp hL.chain
  refine ⟨⟨hfirst.trans hL.first, ?_, ?_, ?_, by simp, haligned, hbound⟩,
    apart_append (fun _ => rfl) hL.apart⟩
  · rw [hmem, hfirst]
    exact chain_append.mpr ⟨hseg.congr fun y _ hy => Heap.write_ne (by omega),
      Heap.write_self, trivial⟩
  · simp only [len_append, len_cons, len_nil, hfirst]
    omega
  · intro b hb
    rcases List.mem_append.mp hb with hb | hb
    · exact hL.sizes b (List.mem_append_left _ hb)
    · obtain rfl := List.mem_singleton.mp hb
      exact h4

/-- The last block grows by a page. -/
theorem Tiled.grow {l : List Block} {s : ℕ} (hL : Tiled R h (l ++ [⟨s, true⟩]))
    (hlt : h.endAddr + pageSize < R.maxAddr) :
    Tiled R (({ h with endAddr := h.endAddr + pageSize } : Heap).write (h.firstBlock + len l)
      (newMeta (s + pageSize) true 0)) (l ++ [⟨s + pageSize, true⟩]) := by
  have hs := hL.sizes ⟨s, true⟩ (by simp)
  have haligned := hL.aligned
  obtain ⟨-, hend⟩ := hL.header
  dsimp only [len_nil] at hs hend
  refine hL.resize rfl rfl ?_ ?_ ?_ hlt
  · unfold pageSize
    omega
  · simp only [Heap.write_endAddr]
    omega
  · simp only [Heap.write_endAddr]
    unfold pageSize at *
    omega

/-- A block of `size` bytes at `x` is taken into use. -/
def Taken (p x size : ℕ) (L L' : List Block) : Prop :=
  ∃ A₁ A₂, inUse p L = A₁ ++ A₂ ∧ inUse p L' = A₁ ++ (x, size) :: A₂

/-- What `malloc` leaves: a block of at least `size` bytes has been taken, and the pointer is to
its payload. -/
def Mallocd (R : Region) (L : List Block) (size a : ℕ) (h' : Heap) : Prop :=
  ∃ L' x, Tiled R h' L' ∧ Taken R.startAddr x size L L' ∧ a = x + metaSize

theorem taken_split {p s size : ℕ} :
    Taken p (p + len l) size (l ++ ⟨s, true⟩ :: l₂)
      (l ++ ⟨size, false⟩ :: ⟨s - size - metaSize, true⟩ :: l₂) ∨
      s < size + metaSize := by
  by_cases hs : s < size + metaSize
  · exact .inr hs
  · have hz : p + len l + metaSize + size + metaSize + (s - size - metaSize) =
      p + len l + metaSize + s := by
      omega
    refine .inl ⟨inUse p l, inUse (p + len l + metaSize + s) l₂, ?_, ?_⟩
    · rw [inUse_append, inUse_free rfl]
    · rw [inUse_append, inUse_used rfl, inUse_free rfl]
      dsimp only
      rw [hz]

/-- Splitting a free block is what `malloc` promises. -/
theorem Tiled.mallocd_split {s size : ℕ} (hL : Tiled R h (l ++ ⟨s, true⟩ :: l₂)) (h4 : size % 4 = 0)
    (hs : size + metaSize ≤ s) :
    wp (Libc.split (h.firstBlock + len l) size
      (newMeta s true (link l₂ (h.firstBlock + len l + metaSize + s))))
      (fun a h' => Mallocd R (l ++ ⟨s, true⟩ :: l₂) size a h' ∧
        Kept R.startAddr (l ++ ⟨s, true⟩ :: l₂) h h') E h := by
  refine (hL.split h4 hs).mono ?_ fun _ _ => id
  rintro _ h' ⟨rfl, hL', hkept⟩
  refine ⟨⟨_, _, hL', ?_, rfl⟩, hkept⟩
  rw [hL.first]
  exact taken_split.resolve_right (by omega)

/-- The `while` loop of `malloc`, at the block after `l`. The walk takes a step for each block
and one for each page that the last block lacks. -/
theorem Tiled.mallocLoop {size : ℕ} (h4 : size % 4 = 0)
    (hsize : size + metaSize < 2 ^ 32) (fuel : ℕ) {s : ℕ} {k : List Block}
    (hL : Tiled R h (l ++ (k ++ [⟨s, true⟩])))
    (hfuel : k.length + 1 + (size + metaSize - s + 4095) / 4096 ≤ fuel) :
    wp (mallocLoop R size (size + metaSize) fuel (h.firstBlock + len l))
      (fun a h' => Mallocd R (l ++ (k ++ [⟨s, true⟩])) size a h' ∧
        Kept R.startAddr (l ++ (k ++ [⟨s, true⟩])) h h')
      (fun e _ => e = .nomem) h := by
  induction fuel generalizing h l k s with
  | zero => omega
  | succ fuel ih =>
    have hpos := hL.first_pos
    have hp : h.firstBlock + len l ≠ 0 := by omega
    have hms : metaSize = 20 := rfl
    rw [Libc.mallocLoop, if_neg hp, wp_bind]
    cases k with
    | nil =>
      simp only [List.nil_append, List.length_nil] at hL hfuel ⊢
      have hend := hL.header.2
      have hlt := hL.end_lt
      simp only [len_nil] at hend
      rw [hL.wp_load]
      by_cases hs : s < size + metaSize
      · -- the last block is too small: another page
        simp only [newMeta, link_nil, Bool.not_true, Bool.false_eq_true, if_false,
          true_and, if_pos hs, wp_bind]
        rw [wp_sbrk_page]
        split
        · rename_i hroom
          have hgrown := hL.grow hroom
          have hmod : (s + pageSize) % 2 ^ 32 = s + pageSize := by
            unfold pageSize at hroom ⊢
            have := R.max_le
            omega
          have hstep := ih (k := []) (l := l) hgrown (by simp; unfold pageSize; omega)
          rw [wp_store (by simp; omega), hmod]
          refine hstep.mono ?_ fun _ _ => id
          rintro a h' ⟨⟨L', x, hL', ⟨A₁, A₂, hA, hA'⟩, ha⟩, hkept⟩
          have huse : inUse R.startAddr (l ++ [⟨s, true⟩]) =
            inUse R.startAddr (l ++ ([] ++ [⟨s + pageSize, true⟩])) := by
            simp [inUse]
          have hgrow : Kept R.startAddr (l ++ [⟨s, true⟩]) h
            (({ h with endAddr := h.endAddr + pageSize } : Heap).write
              (h.firstBlock + len l) (newMeta (s + pageSize) true 0)) := by
            rw [hL.first]
            exact Kept.write (fun _ _ => rfl) not_shielded_start
          exact ⟨⟨L', x, hL', ⟨A₁, A₂, huse.trans hA, hA'⟩, ha⟩,
            hgrow.trans (hkept.of_inUse huse) fun _ => id⟩
        · rfl
      · have hs' : size + metaSize ≤ s := by omega
        simp only [newMeta_free, newMeta_size, Bool.not_true, Bool.false_eq_true, if_false, hs,
          and_false, hs', if_true]
        exact hL.mallocd_split h4 hs'
    | cons b k =>
      simp only [List.cons_append, List.length_cons] at hL hfuel ⊢
      have hnext : link (k ++ [⟨s, true⟩]) (h.firstBlock + len l + metaSize + b.size) =
          h.firstBlock + len (l ++ [b]) := by
        unfold link
        rw [if_neg (by simp)]
        simp only [len_append, len_cons, len_nil]
        omega
      have hskip :
        wp (Libc.mallocLoop R size (size + metaSize) fuel (h.firstBlock + len (l ++ [b])))
          (fun a h' => Mallocd R (l ++ b :: (k ++ [⟨s, true⟩])) size a h' ∧
            Kept R.startAddr (l ++ b :: (k ++ [⟨s, true⟩])) h h') (fun e _ => e = .nomem) h := by
        have := ih (l := l ++ [b]) (k := k) (s := s) (h := h) (by simpa using hL) (by omega)
        simpa using this
      have hne : h.firstBlock + len (l ++ [b]) ≠ 0 := by omega
      rw [hL.wp_load, hnext]
      obtain ⟨t, free⟩ := b
      cases free
      · simpa only [newMeta, Bool.not_false, if_true] using hskip
      · by_cases ht : size + metaSize ≤ t
        · have hsplit := hL.mallocd_split (E := fun e _ => e = .nomem) h4 ht
          rw [hnext] at hsplit
          simpa only [newMeta_free, newMeta_size, newMeta_next, Bool.not_true, Bool.false_eq_true,
            if_false, hne, false_and, ht, if_true] using hsplit
        · simpa only [newMeta_free, newMeta_size, newMeta_next, Bool.not_true, Bool.false_eq_true,
            if_false, hne, false_and, ht] using hskip

/-- The heap before the first call, or tiled. -/
def Ready (R : Region) (h : Heap) (L : List Block) : Prop :=
  (h.firstBlock = 0 ∧ h.endAddr = R.startAddr ∧ L = []) ∨ Tiled R h L

theorem LastFree.split {L : List Block} (hL : LastFree L) : ∃ k s, L = k ++ [⟨s, true⟩] := by
  obtain ⟨⟨s, free⟩, hlast, hfree⟩ := hL
  obtain ⟨k, rfl⟩ := List.getLast?_eq_some_iff.mp hlast
  exact ⟨k, s, by rw [← hfree]⟩

/-- A walk through a tiled heap is short. -/
theorem Tiled.length_lt {L : List Block} (hL : Tiled R h L) : L.length < 2 ^ 32 := by
  have := length_le_len L
  have := hL.tiles
  have := hL.end_lt
  unfold metaSize at *
  omega

/-- `malloc` on a tiled heap. -/
theorem wp_malloc_tiled {L : List Block} {size : ℕ} (hL : Tiled R h L) (h4 : size % 4 = 0)
    (hsize : size + metaSize < 2 ^ 32) :
    wp (do
      let h ← read
      let b ← load h.firstBlock
      assert "first_block->magic_head == MAGIC_HEAD" (decide (b.magicHead = magicHead))
      mallocLoop R size ((size + metaSize) % 2 ^ 32) maxSteps h.firstBlock : Prog Stop Heap ℕ)
      (fun a h' => Mallocd R L size a h' ∧ Kept R.startAddr L h h') (fun e _ => e = .nomem) h := by
  obtain ⟨k, s, rfl⟩ := hL.last.split
  have hlen := hL.length_lt
  have hload : ∀ {Q : BlockMeta → Heap → Prop} {E : Stop → Heap → Prop},
    (∀ b, b.magicHead = magicHead → Q b h) →
      wp (load h.firstBlock) Q E h := by
    intro Q E hQ
    cases k with
    | nil =>
      have := @Laid.wp_load R h [] [] ⟨s, true⟩ E hL.toLaid Q
      rw [len_nil, Nat.add_zero] at this
      rw [this]
      exact hQ _ rfl
    | cons b k =>
      have := @Laid.wp_load R h [] (k ++ [(⟨s, true⟩ : Block)]) b E hL.toLaid Q
      rw [len_nil, Nat.add_zero] at this
      rw [this]
      exact hQ _ rfl
  simp only [wp_bind, wp_read]
  refine hload fun b hb => ?_
  rw [wp_assert (by simpa using hb), Nat.mod_eq_of_lt hsize]
  have hfuel : k.length + 1 + (size + metaSize - s + 4095) / 4096 ≤ maxSteps := by
    rw [List.length_append] at hlen
    unfold maxSteps metaSize at *
    simp at hlen
    omega
  have := Tiled.mallocLoop (l := []) h4 hsize maxSteps hL hfuel
  rwa [len_nil, Nat.add_zero] at this

/-- `init_first_block`. -/
theorem wp_initFirstBlock {Q : Unit → Heap → Prop} (hend : h.endAddr = R.startAddr)
    (hQ : ∀ h', Tiled R h' [⟨pageSize - metaSize, true⟩] → Kept R.startAddr [] h h' → Q () h') :
    wp (initFirstBlock R) Q (fun e _ => e = .nomem) h := by
  simp only [initFirstBlock, wp_bind]
  rw [wp_sbrk_page]
  split
  case isFalse => rfl
  case isTrue hroom =>
    rw [wp_modify, wp_store (by simp [pageSize, metaSize])]
    have hkept : ¬Shielded R.startAddr [] h.endAddr := by
      rw [hend]
      exact @not_shielded_start R.startAddr [] []
    refine hQ _ ⟨⟨hend, ⟨?_, trivial⟩, ?_, ?_, ?_, ?_, hroom⟩, List.IsChain.singleton _⟩
      (Kept.write (fun _ _ => rfl) hkept)
    · exact Heap.write_self
    · simp [pageSize, metaSize]
    · simp [pageSize, metaSize]
    · simp
    · have := R.aligned
      simp only [Heap.write_endAddr, hend]
      unfold pageSize at *
      omega

theorem align4_spec {n : ℕ} (hn : n + 4100 ≤ 2 ^ 32) :
    n ≤ align4 n ∧ align4 n % 4 = 0 ∧ align4 n + metaSize < 2 ^ 32 := by
  unfold align4 metaSize
  split <;> omega

/-- **`malloc`**: a block of at least `n` bytes is taken into use, unless `sbrk` fails. -/
theorem malloc_spec {L : List Block} {n : ℕ} (hL : Ready R h L) (hn : n + 4100 ≤ 2 ^ 32) :
    wp (malloc R n) (fun a h' => Mallocd R L (align4 n) a h' ∧ Kept R.startAddr L h h')
      (fun e _ => e = .nomem) h := by
  obtain ⟨-, h4, hsize⟩ := align4_spec hn
  rcases hL with ⟨hfirst, hend, rfl⟩ | hL
  · have hinit : Mallocd R [⟨pageSize - metaSize, true⟩] (align4 n) = Mallocd R [] (align4 n) := rfl
    simp only [malloc, wp_bind, wp_read, wp_ite, hfirst, if_true]
    refine wp_initFirstBlock hend fun h' hL hkept => ?_
    have htail :=
      (wp_malloc_tiled hL h4 hsize).mono (fun a t ht => (⟨ht.1, hkept.trans ht.2 fun _ => id⟩ :
      Mallocd R _ (align4 n) a t ∧ Kept R.startAddr [] _ t)) fun _ _ => id
    simp only [wp_bind, wp_read, hinit] at htail
    exact htail
  · have hne : h.firstBlock ≠ 0 := hL.first_pos.ne'
    have htail := wp_malloc_tiled hL h4 hsize
    simp only [wp_bind, wp_read] at htail
    simpa only [malloc, wp_bind, wp_read, wp_ite, hne, if_false, wp_pure] using htail

/-! ### `heap_contract` -/

theorem Laid.lastBlock {s : ℕ} {k : List Block} (fuel : ℕ) (hL : Laid R h (l ++ (k ++ [⟨s, true⟩])))
    (hfuel : k.length + 1 ≤ fuel) :
    wp (Libc.lastBlock fuel (h.firstBlock + len l)) (fun p h' => p = h.firstBlock + len (l ++ k) ∧
      h' = h) E h := by
  induction fuel generalizing l k with
  | zero => omega
  | succ fuel ih =>
    rw [Libc.lastBlock, wp_bind]
    cases k with
    | nil =>
      simp only [List.nil_append] at hL
      rw [hL.wp_load]
      simp
    | cons b k =>
      simp only [List.cons_append, List.length_cons] at hL hfuel
      have hpos := hL.first_pos
      have hnext : link (k ++ [⟨s, true⟩]) (h.firstBlock + len l + metaSize + b.size) =
          h.firstBlock + len (l ++ [b]) := by
        unfold link
        rw [if_neg (by simp)]
        simp only [len_append, len_cons, len_nil]
        omega
      have hne : h.firstBlock + len (l ++ [b]) ≠ 0 := by omega
      have hrest := ih (l := l ++ [b]) (k := k) (by simpa using hL) (by omega)
      rw [hL.wp_load, hnext]
      simpa [hpos.ne'] using hrest

theorem wp_sbrk_zero {Q : ℕ → Heap → Prop} : wp (sbrk R 0) Q E h = Q h.endAddr h := by
  simp [sbrk]

/-- `sbrk` gives back whole pages. -/
theorem wp_sbrk_back {d : ℕ} {Q : ℕ → Heap → Prop} (hd : d % pageSize = 0)
    (hroom : R.startAddr + d ≤ h.endAddr) :
    wp (sbrk R (-d)) Q E h = Q h.endAddr { h with endAddr := h.endAddr - d } := by
  have hpages : pages (-(d : ℤ)).natAbs * pageSize = d := by
    rw [Int.natAbs_neg, Int.natAbs_natCast]
    unfold pages
    rw [if_neg (by simp [hd])]
    unfold pageSize at hd ⊢
    omega
  have hneg : ¬0 < -(d : ℤ) := by omega
  simp only [sbrk, wp_bind, wp_read, hpages, wp_ite, hneg, if_false, if_pos hroom,
    wp_modify, wp_pure]
  split
  · rename_i h0
    have : d = 0 := by omega
    simp [this]
  · rfl

/-- **`heap_contract`**: the assertion holds, and the last block and the heap shrink together.
Where the heap may end at most plays no part. -/
theorem Tiled.contract {R' : Region} {L : List Block} (hL : Tiled R h L)
    (hR : R'.startAddr = R.startAddr) :
    wp (heapContract R')
      (fun _ h' => ∃ L', Tiled R h' L' ∧ inUse R.startAddr L' = inUse R.startAddr L ∧
      Kept R.startAddr L h h') (fun _ _ => False) h := by
  obtain ⟨k, s, rfl⟩ := hL.last.split
  have hlen := hL.length_lt
  have hfuel : k.length + 1 ≤ maxSteps := by
    rw [List.length_append] at hlen
    unfold maxSteps
    simp at hlen
    omega
  have hlast := Laid.lastBlock (l := []) (E := fun _ _ => False) maxSteps hL.toLaid hfuel
  rw [len_nil, Nat.add_zero, List.nil_append] at hlast
  simp only [heapContract, wp_bind, wp_read]
  refine hlast.mono ?_ fun _ _ => id
  rintro _ _ ⟨rfl, rfl⟩
  rw [hL.wp_load]
  obtain ⟨-, hend⟩ := hL.header
  dsimp only [len_nil] at hend
  rw [wp_ite]
  split
  case isFalse => exact ⟨_, hL, rfl, .refl⟩
  case isTrue hbig =>
    rename_i h
    have hlt := hL.end_lt
    have haligned := hL.aligned
    have hfirst := hL.first
    have hmax := R.size_le
    have hbound := hL.bound
    have hms : metaSize = 20 := rfl
    have h4 := hL.sizes ⟨s, true⟩ (by simp)
    dsimp only at h4
    replace hbig : pageSize < s := hbig
    have hassert : (h.firstBlock + len k + metaSize + s) % 2 ^ 32 = h.endAddr := by omega
    rw [wp_bind, wp_sbrk_zero, wp_bind,
      wp_assert (by rw [decide_eq_true_eq, newMeta_size]; exact hassert), wp_bind,
      wp_store (by omega), wp_bind]
    set x := h.firstBlock + len k + metaSize with hx
    -- the new end of the heap is a page boundary below the old one
    obtain ⟨e, he⟩ : ∃ e, e = x / pageSize * pageSize + pageSize * 2 := ⟨_, rfl⟩
    have hle : e ≤ h.endAddr ∧ x ≤ e ∧ e % pageSize = 0 ∧ (h.endAddr - e) % pageSize = 0 ∧
      (e - x) % 4 = 0 := by
      unfold pageSize at *
      omega
    have hnew : (x / pageSize * pageSize + pageSize * 2) % 2 ^ 32 = e := by
      rw [← he]
      omega
    have hsize : sub32 e x = e - x := sub32_eq hle.2.1 (by omega)
    have hback : toInt (sub32 e h.endAddr) = -((h.endAddr - e : ℕ) : ℤ) := by
      unfold toInt sub32
      split <;> omega
    rw [hnew, hsize, hback, wp_sbrk_back hle.2.2.2.1 (by simp only [Heap.write_endAddr]; omega),
      wp_pure]
    have hkept : ¬Shielded R.startAddr (k ++ [⟨s, true⟩]) (h.firstBlock + len k) := by
      rw [hfirst]
      exact not_shielded_start
    refine ⟨k ++ [⟨e - x, true⟩], hL.resize ?_ ?_ hle.2.2.2.2 ?_ ?_ ?_, ?_, Kept.refl.write hkept⟩
    · rfl
    · rfl
    · simp only [Heap.write_endAddr]
      omega
    · simp only [Heap.write_endAddr]
      rw [show h.endAddr - (h.endAddr - e) = e by omega]
      exact hle.2.2.1
    · simp only [Heap.write_endAddr]
      omega
    · simp [inUse]

/-! ### `free` -/

/-- `prev` is the block before the place after `l`. -/
def PrevOf (p : ℕ) (l : List Block) (prev : ℕ) : Prop :=
  (l = [] ∧ prev = 0) ∨ ∃ l₀ a, l = l₀ ++ [a] ∧ prev = p + len l₀

/-- What comes of a free block and the blocks that follow it. -/
def joinNext (s : ℕ) : List Block → List Block
  | c :: l => if c.free then ⟨s + c.size + metaSize, true⟩ :: l else ⟨s, true⟩ :: c :: l
  | [] => [⟨s, true⟩]

/-- The block that comes of it, and the rest: the next block was free and is gone, or it is not
free. -/
theorem joinNext_cases (s : ℕ) (l : List Block) :
    ∃ t k, joinNext s l = ⟨t, true⟩ :: k ∧
      ((t = s ∧ k = l ∧ ∀ c ∈ l.head?, c.free = false) ∨
        ∃ c, c.free = true ∧ l = c :: k ∧ t = s + c.size + metaSize) := by
  unfold joinNext
  split
  case h_2 => exact ⟨s, [], rfl, .inl ⟨rfl, rfl, by simp⟩⟩
  case h_1 c l =>
    split
    case isTrue hc => exact ⟨_, l, rfl, .inr ⟨c, hc, rfl, rfl⟩⟩
    case isFalse hc => exact ⟨s, _, rfl, .inl ⟨rfl, rfl, by simpa using hc⟩⟩

theorem inUse_joinNext (p s : ℕ) (l : List Block) :
    inUse p (joinNext s l) = inUse (p + metaSize + s) l := by
  obtain ⟨t, k, hk, ⟨rfl, rfl, -⟩ | ⟨c, hc, rfl, rfl⟩⟩ := joinNext_cases s l
  · rw [hk, inUse_free rfl]
  · rw [hk, inUse_free rfl, inUse_free hc]
    congr 1
    dsimp only
    omega

/-- What follows the block that comes of it is not free. -/
theorem apart_joinNext {s t : ℕ} {l k : List Block} (hl : l.IsChain Apart)
    (hk : joinNext s l = ⟨t, true⟩ :: k) (x : ℕ) :
    (⟨x, true⟩ :: k : List Block).IsChain Apart := by
  obtain ⟨t', k', hk', hcases⟩ := joinNext_cases s l
  obtain ⟨-, rfl⟩ := List.cons_eq_cons.mp (hk'.symm.trans hk)
  rcases hcases with ⟨-, rfl, hhead⟩ | ⟨c, hc, rfl, -⟩
  · rw [List.isChain_cons]
    exact ⟨fun c hmem hboth => by simp [hhead c hmem] at hboth, hl⟩
  · exact apart_cons (fun _ => hc) hl

/-- Two blocks become one. -/
theorem Laid.merge {a b : Block} (hL : Laid R h (l ++ a :: b :: l₂)) (ha : a.free = true) :
    Laid R (h.write (h.firstBlock + len l)
        { newMeta a.size a.free (link (b :: l₂) (h.firstBlock + len l + metaSize + a.size)) with
          size := (a.size + b.size + metaSize) % 2 ^ 32
          next := link l₂ (h.firstBlock + len l + metaSize + a.size + metaSize + b.size) })
      (l ++ ⟨a.size + b.size + metaSize, true⟩ :: l₂) := by
  have hlt := hL.end_lt
  have hend := hL.header.2
  have hms : metaSize = 20 := rfl
  have h4a := hL.sizes a (by simp)
  have h4b := hL.sizes b (by simp)
  simp only [len_cons] at hend
  have hmod : (a.size + b.size + metaSize) % 2 ^ 32 = a.size + b.size + metaSize := by omega
  have hz : h.firstBlock + len l + metaSize + a.size + metaSize + b.size =
      h.firstBlock + len l + metaSize + (a.size + b.size + metaSize) := by omega
  have hjoin :=
    Laid.join (k := [a, b]) (b := ⟨a.size + b.size + metaSize, true⟩) hL (by simp) ?_ ?_ ?_
  · rw [hmod, hz, ha]
    exact hjoin
  · simp only [len_cons, len_nil]
    omega
  · dsimp only
    omega
  · intro hlast
    cases l₂ with
    | nil => simp
    | cons c l₂ => simpa using hlast

/-- A free block is joined to a free one that follows it. -/
theorem Laid.mergeNext {s : ℕ} (hL : Laid R h (l ++ ⟨s, true⟩ :: l₂)) :
    wp (mergeNext (h.firstBlock + len l))
      (fun _ h' => h'.firstBlock = h.firstBlock ∧ Laid R h' (l ++ joinNext s l₂) ∧
        ∀ y, y ≠ h.firstBlock + len l → h'.mem y = h.mem y) E h := by
  have hpos := hL.first_pos
  rw [Libc.mergeNext, wp_bind, hL.wp_load]
  cases l₂ with
  | nil => exact ⟨rfl, hL, fun _ _ => rfl⟩
  | cons c l₂ =>
    have hL' : Laid R h ((l ++ [⟨s, true⟩]) ++ c :: l₂) := by simpa using hL
    have haddr : h.firstBlock + len l + metaSize + s = h.firstBlock + len (l ++ [⟨s, true⟩]) := by
      simp only [len_append, len_cons, len_nil]
      omega
    have hne : h.firstBlock + len l + metaSize + s ≠ 0 := by omega
    have hend := hL.header.2
    dsimp only [link_cons] at hend
    rw [wp_ite, if_pos (by simpa using hne), wp_bind, newMeta_next, link_cons]
    dsimp only
    rw [haddr, hL'.wp_load, wp_ite]
    cases hc : c.free
    · simpa [joinNext, hc] using hL
    · rw [newMeta_free, if_pos rfl, wp_store (by omega)]
      have hmerge := hL.merge rfl
      dsimp only [link_cons] at hmerge
      rw [haddr] at hmerge
      refine ⟨rfl, ?_, fun y hy => Heap.write_ne hy⟩
      simp only [joinNext, hc, if_true]
      exact hmerge

/-- A free block is joined to a free one before it. -/
theorem Laid.mergePrev {t prev : ℕ} {k : List Block} (hL : Laid R h (l ++ ⟨t, true⟩ :: k))
    (hprev : PrevOf h.firstBlock l prev) :
    wp (mergePrev prev (h.firstBlock + len l)) (fun _ h' =>
      (Laid R h' (l ++ ⟨t, true⟩ :: k) ∧ (∀ l₀ a, l = l₀ ++ [a] → a.free = false) ∧
        h'.mem = h.mem) ∨
      ∃ l₀ a, l = l₀ ++ [a] ∧ a.free = true ∧ Laid R h' (l₀ ++ ⟨a.size + t + metaSize, true⟩ :: k) ∧
        ∀ y, y ≠ h.firstBlock + len l₀ → h'.mem y = h.mem y) E h := by
  rcases hprev with ⟨rfl, rfl⟩ | ⟨l₀, a, rfl, rfl⟩
  · rw [Libc.mergePrev, if_neg (by simp), wp_pure]
    exact .inl ⟨hL, by simp, rfl⟩
  · have hpos := hL.first_pos
    have hL' : Laid R h (l₀ ++ a :: ⟨t, true⟩ :: k) := by simpa using hL
    have hne : h.firstBlock + len l₀ ≠ 0 := by omega
    have hend := hL'.header.2
    rw [Libc.mergePrev, if_pos hne, wp_bind, hL'.wp_load, wp_ite]
    cases ha : a.free
    · rw [newMeta_free, if_neg (by simp), wp_pure]
      refine .inl ⟨hL, fun l a' h => ?_, rfl⟩
      obtain ⟨-, h⟩ := List.append_inj' h rfl
      cases h
      exact ha
    · rw [newMeta_free, if_pos rfl, wp_bind, hL.wp_load, wp_store (by omega)]
      refine .inr ⟨l₀, a, rfl, ha, ?_, fun y hy => Heap.write_ne hy⟩
      have hmerge := hL'.merge ha
      have haddr : h.firstBlock + len (l₀ ++ [a]) = h.firstBlock + len l₀ + metaSize + a.size := by
        simp only [len_append, len_cons, len_nil]
        omega
      rw [ha] at hmerge
      rw [haddr]
      exact hmerge

/-- **`release`**: the block at `x` is taken out of use. -/
theorem Tiled.release {s prev : ℕ} (hL : Tiled R h (l ++ ⟨s, false⟩ :: l₂))
    (hprev : PrevOf h.firstBlock l prev) :
    wp (release prev (h.firstBlock + len l)) (fun _ h' => ∃ L', Tiled R h' L' ∧
      Taken R.startAddr (h.firstBlock + len l) s L' (l ++ ⟨s, false⟩ :: l₂) ∧
        Kept R.startAddr (l ++ ⟨s, false⟩ :: l₂) h h') E h := by
  have hend := hL.header.2
  rw [Libc.release, wp_bind, hL.wp_load, wp_bind, wp_assert (by simp [newMeta]), wp_bind,
    wp_assert (by simp [newMeta]),
    wp_bind, wp_store (by omega), wp_bind]
  have hfreed :
    Laid R (h.write (h.firstBlock + len l)
      (newMeta s true (link l₂ (h.firstBlock + len l + metaSize + s))))
      (l ++ ⟨s, true⟩ :: l₂) := by
    refine Laid.join (k := [⟨s, false⟩]) (b := ⟨s, true⟩) hL.toLaid (by simp) rfl ?_ fun hlast => ?_
    · exact hL.sizes ⟨s, false⟩ (by simp)
    · cases l₂ with
      | nil => simp at hlast
      | cons c l₂ => simpa using hlast
  refine (Laid.mergeNext hfreed).mono ?_ fun _ _ => id
  rintro - h₁ ⟨hfirst, hlaid, hsame⟩
  replace hfirst : h.firstBlock = h₁.firstBlock := hfirst.symm
  have hkept : Kept R.startAddr (l ++ ⟨s, false⟩ :: l₂) h h₁ := by
    intro y hy
    have hne : y ≠ h.firstBlock + len l := by
      rintro rfl
      rw [hL.first] at hy
      exact not_shielded_start hy
    exact (hsame y hne).trans (Heap.write_ne hne)
  -- the list before the block, and the list that comes of it and what follows
  obtain ⟨hbefore, hafter⟩ := List.isChain_split.mp hL.apart
  obtain ⟨t, k, hk, -⟩ := joinNext_cases s l₂
  have huse : ∀ p, inUse (p + metaSize + t) k = inUse (p + metaSize + s) l₂ := by
    intro p
    rw [← inUse_joinNext p s l₂, hk, inUse_free rfl]
  have hkapart := apart_joinNext hafter.tail hk
  have hused : inUse R.startAddr (l ++ ⟨s, false⟩ :: l₂) =
      inUse R.startAddr l ++
        (h.firstBlock + len l, s) :: inUse (h.firstBlock + len l + metaSize + s) l₂ := by
    rw [inUse_append, inUse_used rfl, hL.first]
  rw [hk] at hlaid
  rw [hfirst] at hprev
  have hprevspec := Laid.mergePrev (E := E) hlaid hprev
  rw [← hfirst] at hprevspec
  refine hprevspec.mono ?_ fun _ _ => id
  rintro - h₂ (⟨hlaid₂, hnotfree, hmem⟩ | ⟨l₀, a, rfl, ha, hlaid₂, hmem⟩)
  · refine ⟨_, ⟨hlaid₂, List.isChain_split.mpr ⟨?_, hkapart t⟩⟩, ⟨_, _, ?_, hused⟩,
      fun y hy => (congrFun hmem y).trans (hkept y hy)⟩
    · rw [List.isChain_append] at hbefore ⊢
      refine ⟨hbefore.1, List.IsChain.singleton _, fun x hx y hy hboth => ?_⟩
      obtain ⟨l₀, rfl⟩ := List.getLast?_eq_some_iff.mp hx
      simp [hnotfree l₀ x rfl] at hboth
    · rw [inUse_append, inUse_free rfl, huse, hL.first]
  · refine ⟨_, ⟨hlaid₂, List.isChain_split.mpr ⟨?_, hkapart _⟩⟩,
      ⟨_, _, ?_, hused⟩, fun y hy => (hmem y ?_).trans (hkept y hy)⟩
    · exact apart_append (fun _ => ha) (List.isChain_append.mp hbefore).1
    · rw [inUse_append, inUse_free rfl, inUse_append, inUse_free ha, hL.first, ← huse]
      simp only [inUse, List.append_nil, len_append, len_cons, len_nil]
      congr 2
      omega
    · rintro rfl
      rw [hL.first, List.append_assoc] at hy
      exact not_shielded_start hy

/-- The `for` loop of `free`, at the block after `l`, looking for the block after `l ++ k`. -/
theorem Tiled.freeLoop {s prev : ℕ} {k : List Block} (fuel : ℕ)
    (hL : Tiled R h (l ++ (k ++ ⟨s, false⟩ :: l₂)))
    (hprev : PrevOf h.firstBlock l prev) (hfuel : k.length + 1 ≤ fuel) :
    wp (freeLoop (h.firstBlock + len (l ++ k) + metaSize) fuel prev (h.firstBlock + len l))
      (fun _ h' => ∃ L', Tiled R h' L' ∧
        Taken R.startAddr (h.firstBlock + len (l ++ k)) s L' (l ++ (k ++ ⟨s, false⟩ :: l₂)) ∧
        Kept R.startAddr (l ++ (k ++ ⟨s, false⟩ :: l₂)) h h') E h := by
  induction fuel generalizing l k prev with
  | zero => omega
  | succ fuel ih =>
    rw [Libc.freeLoop]
    cases k with
    | nil =>
      simp only [List.append_nil, List.nil_append, if_true] at hL ⊢
      exact hL.release hprev
    | cons b k =>
      simp only [List.cons_append, List.length_cons] at hL hfuel ⊢
      have hms : metaSize = 20 := rfl
      have hne : h.firstBlock + len l + metaSize ≠ h.firstBlock + len (l ++ b :: k) + metaSize := by
        simp only [len_append, len_cons]
        omega
      have hnext : link (k ++ ⟨s, false⟩ :: l₂) (h.firstBlock + len l + metaSize + b.size) =
          h.firstBlock + len (l ++ [b]) := by
        unfold link
        rw [if_neg (by simp)]
        simp only [len_append, len_cons, len_nil]
        omega
      have hpos := hL.first_pos
      have hprev' : PrevOf h.firstBlock (l ++ [b]) (h.firstBlock + len l) := .inr ⟨l, b, rfl, rfl⟩
      have hrest := @ih (l ++ [b]) (h.firstBlock + len l) k (by simpa using hL) hprev' (by omega)
      rw [if_neg hne, wp_bind, hL.wp_load, hnext]
      simpa [hpos.ne'] using hrest

/-- **`free`** of a block in use. -/
theorem Tiled.free {R' : Region} {L : List Block} {x s : ℕ} (hL : Tiled R h L)
    (hx : (x, s) ∈ inUse R.startAddr L)
    (hR : R'.startAddr = R.startAddr) :
    wp (free R' (x + metaSize)) (fun _ h' => ∃ L', Tiled R h' L' ∧ Taken R.startAddr x s L' L ∧
      Kept R.startAddr L' h h')
      (fun _ _ => False) h := by
  obtain ⟨k, l₂, rfl, haddr⟩ := mem_inUse_split hx
  have hlen := hL.length_lt
  have hms : metaSize = 20 := rfl
  have hfuel : k.length + 1 ≤ maxSteps := by
    rw [List.length_append] at hlen
    unfold maxSteps
    simp at hlen
    omega
  dsimp only at haddr
  subst haddr
  rw [Libc.free, if_pos (by omega), wp_bind, wp_read, wp_bind]
  have hloop := Tiled.freeLoop (l := []) (E := fun _ _ => False) maxSteps hL (.inl ⟨rfl, rfl⟩) hfuel
  rw [len_nil, Nat.add_zero, List.nil_append, hL.first] at hloop
  rw [hL.first]
  refine hloop.mono ?_ fun _ _ => id
  rintro - h₁ ⟨L₁, hL₁, ⟨A₁, A₂, hA, hA'⟩, hkept⟩
  have hkept₁ : Kept R.startAddr L₁ h h₁ := hkept.mono fun y hy => by
    rw [hA] at hy
    rw [hA']
    exact ((List.sublist_cons_self _ A₂).append_left A₁).subset hy
  refine (hL₁.contract hR).mono ?_ fun _ _ => id
  rintro - h₂ ⟨L₂, hL₂, huse, hkept₂⟩
  exact ⟨L₂, hL₂, ⟨A₁, A₂, huse.trans hA, hA'⟩, (hkept₁.trans hkept₂ fun _ => id).of_inUse huse⟩

/-! ### A program that uses the heap -/

/-- A call of the library. -/
inductive Call where
  | malloc (size : ℕ)
  | calloc (nmemb size : ℕ)
  | free (ptr : ℕ)
  | realloc (ptr size : ℕ)

/-- A heap, and the pointers a program has been given and not freed, with the bytes it asked
for. -/
structure User where
  heap : Heap
  live : List (ℕ × ℕ)

/-- Execute a call. -/
def Call.exec (R : Region) : Call → Prog Stop Heap ℕ
  | .malloc size => Libc.malloc R size
  | .calloc nmemb size => Libc.calloc R nmemb size
  | .free ptr => do Libc.free R ptr; return 0
  | .realloc ptr size => Libc.realloc R ptr size

/-- The calls a program makes: it asks for no size within 4100 bytes of `2^32`, and frees and
resizes only what it has. -/
def Call.Allowed (u : User) : Call → Prop
  | .malloc size => size + 4100 ≤ 2 ^ 32
  | .calloc nmemb size => nmemb * size + 4100 ≤ 2 ^ 32
  | .free ptr => ∃ n, (ptr, n) ∈ u.live
  | .realloc ptr size => 0 < size ∧ size + 4100 ≤ 2 ^ 32 ∧ (ptr = 0 ∨ ∃ n, (ptr, n) ∈ u.live)

/-- The live pointers without one of them. -/
def without (ptr : ℕ) (live : List (ℕ × ℕ)) : List (ℕ × ℕ) := live.filter fun x => x.1 ≠ ptr

/-- The live pointers after a call that returned `q`. -/
def Call.live (live : List (ℕ × ℕ)) (q : ℕ) : Call → List (ℕ × ℕ)
  | .malloc size => (q, size) :: live
  | .calloc nmemb size => (q, nmemb * size) :: live
  | .free ptr => without ptr live
  | .realloc ptr size => (q, size) :: without ptr live

/-- A call that returns. -/
inductive User.Step (R : Region) : User → User → Prop where
  | call {u : User} {c : Call} {q : ℕ} {h : Heap} (hc : c.Allowed u)
      (hq : c.exec R u.heap = .ok q h) :
      Step R u ⟨h, c.live u.live q⟩

/-- A program before its first call. -/
def User.init (R : Region) : User := ⟨Heap.init R, []⟩

/-- The live pointers are those of distinct blocks in use, which are large enough. -/
structure Backed (R : Region) (L : List Block) (live : List (ℕ × ℕ)) : Prop where
  nodup : (live.map Prod.fst).Nodup
  block : ∀ y ∈ live, ∃ x s, y.1 = x + metaSize ∧ (x, s) ∈ inUse R.startAddr L ∧ y.2 ≤ s

/-- The invariant of the program. -/
def User.Inv (R : Region) (u : User) : Prop := ∃ L, Ready R u.heap L ∧ Backed R L u.live

section

variable {L L' : List Block} {live : List (ℕ × ℕ)} {x s : ℕ}

/-- A block that is taken into use was not in use. -/
theorem Taken.ne {p : ℕ} (hT : Taken p x s L L') {y : ℕ × ℕ} (hy : y ∈ inUse p L) : y.1 ≠ x := by
  obtain ⟨A₁, A₂, hA, hA'⟩ := hT
  have hms : metaSize = 20 := rfl
  have hpair := inUse_pairwise p L'
  rw [hA', List.pairwise_append] at hpair
  rw [hA] at hy
  rcases List.mem_append.mp hy with hy | hy
  · have := hpair.2.2 y hy (x, s) (by simp)
    dsimp only at this
    omega
  · have := (List.pairwise_cons.mp hpair.2.1).1 y hy
    dsimp only at this
    omega

theorem Taken.mem {p : ℕ} (hT : Taken p x s L L') : (x, s) ∈ inUse p L' := by
  obtain ⟨A₁, A₂, -, hA'⟩ := hT
  simp [hA']

theorem Taken.mem_iff {p : ℕ} (hT : Taken p x s L L') {y : ℕ × ℕ} :
    y ∈ inUse p L' ↔ y = (x, s) ∨ y ∈ inUse p L := by
  obtain ⟨A₁, A₂, hA, hA'⟩ := hT
  rw [hA, hA']
  simp only [List.mem_append, List.mem_cons]
  tauto

theorem Backed.take (hB : Backed R L live) (hT : Taken R.startAddr x s L L') {n : ℕ} (hn : n ≤ s) :
    Backed R L' ((x + metaSize, n) :: live) := by
  refine ⟨List.nodup_cons.mpr ⟨?_, hB.nodup⟩, ?_⟩
  · intro hmem
    obtain ⟨y, hy, heq⟩ := List.mem_map.mp hmem
    obtain ⟨x', s', hx', hin, -⟩ := hB.block y hy
    have := hT.ne hin
    dsimp only at this heq
    omega
  · intro y hy
    rcases List.mem_cons.mp hy with rfl | hy
    · exact ⟨x, s, rfl, hT.mem, hn⟩
    · obtain ⟨x', s', hx', hin, hle⟩ := hB.block y hy
      exact ⟨x', s', hx', hT.mem_iff.mpr (.inr hin), hle⟩

theorem Backed.drop (hB : Backed R L live) (hT : Taken R.startAddr x s L' L) :
    Backed R L' (without (x + metaSize) live) := by
  refine ⟨hB.nodup.sublist (List.filter_sublist.map _), ?_⟩
  intro y hy
  obtain ⟨hy, hne⟩ := List.mem_filter.mp hy
  obtain ⟨x', s', hx', hin, hle⟩ := hB.block y hy
  refine ⟨x', s', hx', (hT.mem_iff.mp hin).resolve_left ?_, hle⟩
  rintro heq
  cases heq
  simp [hx'] at hne

/-- The header of a block in use. -/
theorem Tiled.used (hL : Tiled R h L) (hx : (x, s) ∈ inUse R.startAddr L) :
    x + metaSize + s ≤ h.endAddr ∧ ∃ next, h.mem x = some (newMeta s false next) := by
  obtain ⟨l, l₂, rfl, haddr⟩ := mem_inUse_split hx
  obtain ⟨hm, hend⟩ := hL.header
  dsimp only at haddr hm hend
  rw [hL.first, ← haddr] at hm hend
  exact ⟨by omega, _, hm⟩

/-- **`realloc`** of a block in use: another block is taken into use, and then this one out of
use. -/
theorem Tiled.realloc {size : ℕ} (hL : Tiled R h L) (hx : (x, s) ∈ inUse R.startAddr L)
    (hpos : 0 < size)
    (hsize : size + 4100 ≤ 2 ^ 32) :
    wp (realloc R (x + metaSize) size) (fun q h' => ∃ y L₁ L', q = y + metaSize ∧
      Taken R.startAddr y (align4 size) L L₁ ∧ Taken R.startAddr x s L' L₁ ∧ Tiled R h' L' ∧
      ∀ a, a < R.startAddr → h'.mem a = h.mem a) (fun e _ => e = .nomem) h := by
  have hms : metaSize = 20 := rfl
  have hle := (align4_spec hsize).1
  obtain ⟨hend, next, hm⟩ := hL.used hx
  rw [Libc.realloc, if_neg (by omega)]
  dsimp only
  rw [if_neg (by omega), Nat.add_sub_cancel, wp_bind, wp_load_of (by omega) hm, wp_bind,
    wp_assert (by simp [newMeta]), wp_bind,
    wp_assert (by simp [newMeta]), wp_bind]
  refine (malloc_spec (.inr hL) hsize).mono ?_ fun _ _ => id
  rintro _ h₁ ⟨⟨L₁, y, hL₁, hT, rfl⟩, hkept⟩
  have hx₁ := hT.mem_iff.mpr (.inr hx)
  obtain ⟨hend₁, next₁, hm₁⟩ := hL₁.used hx₁
  obtain ⟨hend₂, -⟩ := hL₁.used hT.mem
  rw [wp_bind, wp_load_of (by omega) hm₁, wp_bind, wp_access (by simp; omega), wp_bind,
    wp_access (by simp; omega), wp_bind]
  refine (hL₁.free hx₁ rfl).mono ?_ fun _ _ => False.elim
  rintro - h₂ ⟨L', hL', hT', hkept'⟩
  exact ⟨y, L₁, L', rfl, hT, hT', hL', fun a ha => (hkept' a (.inl ha)).trans (hkept a (.inl ha))⟩

end

/-- **Every call keeps the invariant** and what is below the heap, or stops where `sbrk` fails. -/
theorem Call.exec_spec {u : User} {c : Call} (hu : u.Inv R) (hc : c.Allowed u) :
    wp (c.exec R) (fun q h => (⟨h, c.live u.live q⟩ : User).Inv R ∧ ∀ a, a < R.startAddr →
      h.mem a = u.heap.mem a)
      (fun e _ => e = .nomem) u.heap := by
  obtain ⟨L, hL, hB⟩ := hu
  have htiled : u.live ≠ [] → Tiled R u.heap L := by
    rintro hne
    rcases hL with ⟨-, -, rfl⟩ | hL
    · obtain ⟨y, hy⟩ := List.exists_mem_of_ne_nil _ hne
      obtain ⟨x, s, -, hin, -⟩ := hB.block y hy
      simp [inUse] at hin
    · exact hL
  have hmalloc : ∀ n, n + 4100 ≤ 2 ^ 32 → wp (Libc.malloc R n)
      (fun q h => ((⟨h, (q, n) :: u.live⟩ : User).Inv R ∧ ∀ a, a < R.startAddr →
        h.mem a = u.heap.mem a) ∧ q + n ≤ h.endAddr)
      (fun e _ => e = .nomem) u.heap := by
    intro n hn
    have hle := (align4_spec hn).1
    refine (malloc_spec hL hn).mono ?_ fun _ _ => id
    rintro _ h ⟨⟨L', x, hL', hT, rfl⟩, hkept⟩
    have hend := (hL'.used hT.mem).1
    exact ⟨⟨⟨L', .inr hL', hB.take hT hle⟩, fun a ha => hkept a (.inl ha)⟩, by omega⟩
  cases c with
  | malloc n => exact (hmalloc n hc).mono (fun _ _ h => h.1) fun _ _ => id
  | calloc nmemb size =>
    have hmod : nmemb * size % 2 ^ 32 = nmemb * size := Nat.mod_eq_of_lt (by
      simp only [Call.Allowed] at hc
      omega)
    simp only [Call.exec, Libc.calloc, hmod, wp_bind]
    refine (hmalloc _ hc).mono ?_ fun _ _ => id
    rintro q h ⟨hinv, hend⟩
    rw [wp_access hend]
    exact hinv
  | free ptr =>
    obtain ⟨n, hn⟩ := hc
    obtain ⟨x, s, hx, hin, -⟩ := hB.block _ hn
    dsimp only at hx
    subst hx
    simp only [Call.exec, wp_bind]
    refine ((htiled (List.ne_nil_of_mem hn)).free hin rfl).mono ?_ fun _ _ => False.elim
    rintro - h ⟨L', hL', hT, hkept⟩
    exact ⟨⟨L', .inr hL', hB.drop hT⟩, fun a ha => hkept a (.inl ha)⟩
  | realloc ptr size =>
    obtain ⟨hpos, hsize, rfl | ⟨n, hn⟩⟩ := hc
    · have hzero : without 0 u.live = u.live := by
        refine List.filter_eq_self.mpr fun y hy => ?_
        obtain ⟨x, s, hx, -⟩ := hB.block y hy
        simp [hx, metaSize]
      simp only [Call.exec, Libc.realloc, if_true, Call.live, hzero]
      exact (hmalloc size hsize).mono (fun _ _ h => h.1) fun _ _ => id
    · obtain ⟨x, s, hx, hin, -⟩ := hB.block _ hn
      dsimp only at hx
      subst hx
      refine ((htiled (List.ne_nil_of_mem hn)).realloc hin hpos hsize).mono ?_ fun _ _ => id
      rintro _ h ⟨y, L₁, L', rfl, hT, hT', hL', hbelow⟩
      have hne : x ≠ y := hT.ne hin
      have hlive : without (x + metaSize) ((y + metaSize, size) :: u.live) =
          (y + metaSize, size) :: without (x + metaSize) u.live :=
        List.filter_cons_of_pos (by simpa using hne.symm)
      have hbacked := (hB.take hT (align4_spec hsize).1).drop hT'
      rw [hlive] at hbacked
      exact ⟨⟨L', .inr hL', hbacked⟩, hbelow⟩

theorem User.init_inv (R : Region) : (User.init R).Inv R :=
    ⟨[], .inl ⟨rfl, rfl, rfl⟩, List.nodup_nil, by simp [User.init]⟩

/-- The bytes of the payload at `ptr`. -/
def Heap.payload (h : Heap) (ptr : ℕ) : ℕ := (h.mem (ptr - metaSize)).elim 0 (·.size)

/-- **The heap is partitioned**: in every state of a program, unless it has not called yet, the
blocks from `first_block` tile the heap up to the break; live payloads lie in the heap, are
at least as large as asked for and do not overlap; and no call can stop the program,
by an assertion or otherwise, except where `sbrk` gives no page. -/
theorem heap_partition (R : Region) (u : User) (hu : Reach (User.Step R) (User.init R) u) :
    ((u.heap.firstBlock = 0 ∧ u.live = []) ∨ ∃ L, Tiled R u.heap L) ∧
    (∀ y ∈ u.live, y.2 ≤ u.heap.payload y.1 ∧ u.heap.firstBlock < y.1 ∧
      y.1 + u.heap.payload y.1 ≤ u.heap.endAddr) ∧
    u.live.Pairwise (fun y z => y.1 + u.heap.payload y.1 ≤ z.1 ∨ z.1 + u.heap.payload z.1 ≤ y.1) ∧
    ∀ c : Call, c.Allowed u → wp (c.exec R) (fun _ _ => True) (fun e _ => e = .nomem) u.heap := by
  have hinv : u.Inv R :=
    Reach.invariant (fun u _ hu ⟨hc, hq⟩ => ((Call.exec_spec hu hc).ok hq).1) (User.init_inv R) hu
  have hcalls : ∀ c : Call, c.Allowed u →
    wp (c.exec R) (fun _ _ => True) (fun e _ => e = .nomem) u.heap :=
    fun c hc => (Call.exec_spec hinv hc).mono (fun _ _ _ => trivial) fun _ _ => id
  obtain ⟨L, ⟨hfirst, -, rfl⟩ | hL, hB⟩ := hinv
  · have hlive : u.live = [] := by
      refine List.eq_nil_iff_forall_not_mem.mpr fun y hy => ?_
      obtain ⟨x, s, -, hin, -⟩ := hB.block y hy
      simp [inUse] at hin
    exact ⟨.inl ⟨hfirst, hlive⟩, by simp [hlive], by simp [hlive], hcalls⟩
  · have hpayload : ∀ y ∈ u.live, (y.1 - metaSize, u.heap.payload y.1) ∈ inUse R.startAddr L ∧
        metaSize ≤ y.1 ∧ y.2 ≤ u.heap.payload y.1 := by
      intro y hy
      obtain ⟨x, s, hx, hin, hle⟩ := hB.block y hy
      obtain ⟨-, next, hm⟩ := hL.used hin
      have hsize : u.heap.payload y.1 = s := by simp [Heap.payload, hx, hm]
      rw [hsize, hx, Nat.add_sub_cancel]
      exact ⟨hin, by omega, hle⟩
    have hms : metaSize = 20 := rfl
    refine ⟨.inr ⟨L, hL⟩, fun y hy => ?_, ?_, hcalls⟩
    · obtain ⟨hin, hge, hle⟩ := hpayload y hy
      have hbounds := mem_inUse_bounds hin
      have hend := (hL.used hin).1
      have hfirst := hL.first
      dsimp only at hbounds
      omega
    · refine (List.pairwise_map.mp hB.nodup).imp_of_mem fun {y z} hy hz hne => ?_
      obtain ⟨hin, hge, -⟩ := hpayload y hy
      obtain ⟨hin', hge', -⟩ := hpayload z hz
      have hdisj := inUse_disjoint hin hin' fun heq => hne (by
        have := congrArg Prod.fst heq
        dsimp only at this
        omega)
      dsimp only at hdisj
      omega

/-- A program asks for more than a page. -/
theorem heap_partition_grown :
    ∃ u, Reach (User.Step userHeap) (User.init userHeap) u ∧ (∃ q, u.live = [(q, 5000)]) ∧
      ∃ L, Tiled userHeap u.heap L := by
  have hret : ((Call.malloc 5000).exec userHeap (Heap.init userHeap)).returned = true := by
    decide +kernel
  cases ho : (Call.malloc 5000).exec userHeap (Heap.init userHeap) with
  | halt e h =>
    rw [ho] at hret
    cases hret
  | ok q h =>
    have hreach : Reach (User.Step userHeap) (User.init userHeap) ⟨h, [(q, 5000)]⟩ :=
      .single (.call (c := .malloc 5000) (show 5000 + 4100 ≤ 2 ^ 32 by decide) ho)
    refine ⟨_, hreach, ⟨q, rfl⟩, ?_⟩
    rcases (heap_partition userHeap _ hreach).1 with ⟨-, hlive⟩ | hL
    · cases hlive
    · exact hL

end Cosiris.Libc
