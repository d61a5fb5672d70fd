import Cosiris.Libc.Heap

/-!
# Allocation when memory runs out

`malloc` and `calloc` on a machine with a number of free frames, for every size of 32 bits.
`_sbrk` maps a page and moves the break before it compares the break with the limit of
the heap: what it returns past the limit is `-1`, but the page is there. `malloc` looks at
this result only in `init_first_block`. Where no frame is free, `frame_alloc` stops the
machine.
-/

namespace Cosiris.Libc.Bounded

open Function Prog

/-! ### The functions -/

/-- `_sbrk` of a page, with `frames` pages that can be mapped: the old break, `none` for `-1`. -/
def sbrkPage (R : Region) (frames : ℕ) : Prog Stop Heap (Option ℕ) := do
  let h ← read
  if frames = 0 then halt (.assert "last_free_page != 0")
  modify fun h => { h with endAddr := h.endAddr + pageSize }
  return if R.maxAddr ≤ h.endAddr + pageSize then none else some h.endAddr

/-- `init_first_block`. -/
def initFirstBlock (R : Region) (frames : ℕ) : Prog Stop Heap Unit := do
  match ← sbrkPage R frames with
  | none => return ()
  | some startAddr =>
    modify fun h => { h with firstBlock := startAddr }
    store startAddr (newMeta (pageSize - metaSize) true 0)

/-- The `while` loop of `malloc`. -/
def mallocLoop (R : Region) (size searchSize : ℕ) : ℕ → ℕ → ℕ → Prog Stop Heap ℕ
  | 0, _, _ => halt .loops
  | fuel + 1, frames, p =>
    if p = 0 then return 0
    else do
      let b ← load p
      if !b.free then mallocLoop R size searchSize fuel frames b.next
      else if b.next = 0 ∧ b.size < searchSize then
        let _ ← sbrkPage R frames
        store p { b with size := (b.size + pageSize) % 2 ^ 32 }
        mallocLoop R size searchSize fuel (frames - 1) p
      else if searchSize ≤ b.size then split p size b
      else mallocLoop R size searchSize fuel frames b.next

/-- `malloc`. -/
def malloc (R : Region) (frames size : ℕ) : Prog Stop Heap ℕ := do
  let size := align4 size
  let h ← read
  if h.firstBlock = 0 then initFirstBlock R frames
  let frames := if h.firstBlock = 0 then frames - 1 else frames
  let h ← read
  let b ← load h.firstBlock
  assert "first_block->magic_head == MAGIC_HEAD" (decide (b.magicHead = magicHead))
  mallocLoop R size ((size + metaSize) % 2 ^ 32) maxSteps frames h.firstBlock

/-- `calloc`. -/
def calloc (R : Region) (frames nmemb size : ℕ) : Prog Stop Heap ℕ := do
  let nbytes := nmemb * size % 2 ^ 32
  let p ← malloc R frames nbytes
  access p nbytes
  return p

/-! ### Recorded blocks -/

/-- The blocks that are recorded from `first_block` on end at the break, and the last one is free.
-/
structure Recorded (R : Region) (h : Heap) (L : List Block) : Prop where
  first : h.firstBlock = R.startAddr
  chain : Chain h.mem h.firstBlock L
  tiles : h.firstBlock + len L = h.endAddr
  last : LastFree L

variable {R : Region} {h : Heap} {l l₂ L : List Block} {b : Block} {Q : ℕ → Heap → Prop}
    {E : Stop → Heap → Prop}

theorem Recorded.first_pos (hL : Recorded R h L) : 0 < h.firstBlock := hL.first ▸ R.pos

/-- The header of a block is in the heap. -/
theorem Recorded.header (hL : Recorded R h (l ++ b :: l₂)) :
    h.mem (h.firstBlock + len l) =
        some (newMeta b.size b.free (link l₂ (h.firstBlock + len l + metaSize + b.size))) ∧
      h.firstBlock + len l + metaSize + b.size + len l₂ = h.endAddr := by
  refine ⟨(chain_append.mp hL.chain).2.1, ?_⟩
  have := hL.tiles
  simp only [len_append, len_cons] at this
  omega

/-- Reading the header of a block. -/
theorem Recorded.wp_load (hL : Recorded R h (l ++ b :: l₂)) {Q : BlockMeta → Heap → Prop} :
    wp (load (h.firstBlock + len l)) Q E h =
      Q (newMeta b.size b.free (link l₂ (h.firstBlock + len l + metaSize + b.size))) h := by
  obtain ⟨hm, hend⟩ := hL.header
  exact wp_load_of (by omega) hm

/-- The last block grows by a page. -/
theorem Recorded.grow {s : ℕ} (hL : Recorded R h (l ++ [⟨s, true⟩])) :
    Recorded R (({ h with endAddr := h.endAddr + pageSize } : Heap).write (h.firstBlock + len l)
      (newMeta (s + pageSize) true 0)) (l ++ [⟨s + pageSize, true⟩]) := by
  obtain ⟨-, hend⟩ := hL.header
  obtain ⟨hseg, -⟩ := chain_append.mp hL.chain
  dsimp only [len_nil] at hend
  refine ⟨hL.first, ?_, ?_, by simp⟩
  · exact chain_append.mpr ⟨hseg.congr fun y _ hy => Heap.write_ne (by omega),
      Heap.write_self, trivial⟩
  · simp only [len_append, len_cons, len_nil, Heap.write_firstBlock, Heap.write_endAddr]
    omega

/-- A free block is split in two. -/
theorem Recorded.split {s size : ℕ} (hL : Recorded R h (l ++ ⟨s, true⟩ :: l₂))
    (hend : h.endAddr < 2 ^ 32)
    (hs : size + metaSize ≤ s) :
    wp (split (h.firstBlock + len l) size
      (newMeta s true (link l₂ (h.firstBlock + len l + metaSize + s))))
      (fun a h' => a = h.firstBlock + len l + metaSize ∧
        Recorded R h' (l ++ ⟨size, false⟩ :: ⟨s - size - metaSize, true⟩ :: l₂) ∧
          h'.endAddr = h.endAddr ∧
        h'.firstBlock = h.firstBlock) E h := by
  obtain ⟨-, hblock⟩ := hL.header
  obtain ⟨hseg, hrest⟩ := chain_append.mp hL.chain
  have hms : metaSize = 20 := rfl
  set x := h.firstBlock + len l with hx
  dsimp only at hblock hrest
  have hn : (x + metaSize + size) % 2 ^ 32 = x + metaSize + size := by omega
  have hnext : sub32 (sub32 s size) metaSize = s - size - metaSize := by
    rw [sub32_eq (x := s) (by omega) (by omega), sub32_eq (by omega) (by omega)]
  have hsum : (size + metaSize) % 2 ^ 32 ≤ s := by omega
  have hz : x + metaSize + size + metaSize + (s - size - metaSize) = x + metaSize + s := by omega
  simp only [Libc.split, newMeta, wp_bind, hn, hnext]
  rw [wp_assert (by exact decide_eq_true hsum), wp_store (by omega),
    wp_store (by simp only [Heap.write_endAddr]; omega), wp_pure]
  refine ⟨rfl, ⟨hL.first, chain_append.mpr ⟨?_, ?_, ?_, ?_⟩, ?_, ?_⟩, rfl, rfl⟩
  · refine hseg.congr fun y _ hy => ?_
    rw [Heap.write_ne (by omega), Heap.write_ne (by omega)]
  · rw [Heap.write_firstBlock, Heap.write_firstBlock, ← hx, Heap.write_ne (by omega),
      Heap.write_self]
    rfl
  · simp only [Heap.write_firstBlock, ← hx, Heap.write_self, hz]
    rfl
  · simp only [Heap.write_firstBlock, ← hx, hz]
    refine hrest.2.congr fun y hy _ => ?_
    have hy : x + metaSize + s ≤ y := hy
    rw [Heap.write_ne (by omega), Heap.write_ne (by omega)]
  · have := hL.tiles
    simp only [len_append, len_cons, Heap.write_firstBlock, Heap.write_endAddr] at this ⊢
    omega
  · have hlast := hL.last
    cases l₂ with
    | nil => simp
    | cons c l₂ => simpa using hlast

theorem wp_sbrkPage {frames : ℕ} {Q : Option ℕ → Heap → Prop} :
    wp (sbrkPage R frames) Q E h =
      if frames = 0 then E (.assert "last_free_page != 0") h
      else Q (if R.maxAddr ≤ h.endAddr + pageSize then none else some h.endAddr)
        { h with endAddr := h.endAddr + pageSize } := by
  simp only [sbrkPage, wp_bind, wp_read, wp_ite, wp_halt, wp_pure, wp_modify]

/-! ### The walk -/

/-- A free block has `need` bytes, or the last one, with `s` bytes, grows to this size. -/
def Enough (frames need : ℕ) (k : List Block) (s : ℕ) : Prop :=
  (∃ b ∈ k, b.free = true ∧ need ≤ b.size) ∨ need ≤ s + 4096 * frames

theorem enough_cons {frames need s : ℕ} {k : List Block} (hb : ¬ (b.free = true ∧ need ≤ b.size)) :
    Enough frames need (b :: k) s ↔ Enough frames need k s := by
  unfold Enough
  simp only [List.mem_cons, exists_eq_or_imp, hb, false_or]

/-- **The `while` loop of `malloc`**, at the block after `l`: it splits a free block of at least
`need` bytes if there is one or the last can grow to it, otherwise the machine stops. -/
theorem Recorded.wp_mallocLoop {size need : ℕ} (fuel : ℕ) {frames s : ℕ} {k : List Block}
    (hL : Recorded R h (l ++ (k ++ [⟨s, true⟩]))) (hend : h.endAddr + 4096 * frames < 2 ^ 32)
    (hfuel : k.length + 1 + frames ≤ fuel)
    (hsplit : Enough frames need k s →
      ∀ h₁ l₁ t l₂, Recorded R h₁ (l₁ ++ ⟨t, true⟩ :: l₂) → need ≤ t →
      h₁.endAddr < 2 ^ 32 → wp (Libc.split (h₁.firstBlock + len l₁) size
        (newMeta t true (link l₂ (h₁.firstBlock + len l₁ + metaSize + t)))) Q E h₁)
    (hstop : ¬ Enough frames need k s → ∀ h₁, E (.assert "last_free_page != 0") h₁) :
    wp (mallocLoop R size need fuel frames (h.firstBlock + len l)) Q E h := by
  induction fuel generalizing h l k s frames with
  | zero => omega
  | succ fuel ih =>
    have hp : h.firstBlock + len l ≠ 0 := by
      have := hL.first_pos
      omega
    have hpage : pageSize = 4096 := rfl
    rw [Bounded.mallocLoop, if_neg hp, wp_bind]
    cases k with
    | nil =>
      simp only [List.nil_append, List.length_nil] at hL hfuel
      obtain ⟨-, hblock⟩ := hL.header
      dsimp only [len_nil] at hblock
      rw [hL.wp_load]
      by_cases hs : s < need
      · simp only [newMeta, link_nil, Bool.not_true, Bool.false_eq_true, if_false,
          true_and, if_pos hs, wp_bind]
        rw [wp_sbrkPage]
        split_ifs with h0
        · refine hstop (fun he => ?_) h
          obtain ⟨b, hb, -⟩ | he := he
          · cases hb
          · rw [h0] at he
            omega
        · have hmod : (s + pageSize) % 2 ^ 32 = s + pageSize := Nat.mod_eq_of_lt (by omega)
          rw [wp_store (by simp; omega), hmod]
          have hiff : Enough (frames - 1) need [] (s + pageSize) ↔ Enough frames need [] s := by
            unfold Enough
            simp only [List.not_mem_nil, false_and, exists_false, false_or]
            omega
          exact ih (k := []) (l := l) hL.grow (by simp; omega) (by simp; omega)
            (fun he => hsplit (hiff.mp he)) fun he => hstop fun he' => he (hiff.mpr he')
      · have hle : need ≤ s := by omega
        simp only [newMeta_free, newMeta_size, Bool.not_true, Bool.false_eq_true, if_false, hs,
          and_false, hle, if_true]
        exact hsplit (.inr (by omega)) h l s [] hL hle (by omega)
    | cons b k =>
      simp only [List.cons_append, List.length_cons] at hL hfuel
      have hnext : link (k ++ [⟨s, true⟩]) (h.firstBlock + len l + metaSize + b.size) =
          h.firstBlock + len (l ++ [b]) := by
        unfold link
        rw [if_neg (by simp)]
        simp only [len_append, len_cons, len_nil]
        omega
      have hne : h.firstBlock + len (l ++ [b]) ≠ 0 := by
        have := hL.first_pos
        omega
      have hskip : ¬ (b.free = true ∧ need ≤ b.size) →
          wp (Bounded.mallocLoop R size need fuel frames (h.firstBlock + len (l ++ [b])))
            Q E h := by
        intro hb
        exact ih (l := l ++ [b]) (by simpa using hL) hend (by omega)
          (fun he => hsplit ((enough_cons hb).mpr he))
          fun he => hstop fun he' => he ((enough_cons hb).mp he')
      rw [hL.wp_load, hnext]
      obtain ⟨t, free⟩ := b
      cases free
      · simpa only [newMeta, Bool.not_false, if_true] using hskip (by simp)
      · by_cases ht : need ≤ t
        · have hgo := hsplit (.inl ⟨⟨t, true⟩, List.mem_cons_self, rfl, ht⟩) h l t
            (k ++ [⟨s, true⟩]) hL ht (by omega)
          rw [hnext] at hgo
          simpa only [newMeta_free, newMeta_size, newMeta_next, Bool.not_true, Bool.false_eq_true,
            if_false, hne, false_and, ht, if_true] using hgo
        · simpa only [newMeta_free, newMeta_size, newMeta_next, Bool.not_true, Bool.false_eq_true,
            if_false, hne, false_and, ht] using hskip (by simp [ht])

/-! ### `malloc` -/

/-- The heap before the first call, or with its blocks recorded. -/
def State (R : Region) (h : Heap) (L : List Block) : Prop :=
  (h.firstBlock = 0 ∧ h.endAddr = R.startAddr ∧ h.mem 0 = none ∧ L = []) ∨ Recorded R h L

/-- There is memory for a block of `need` bytes with its header: in the first page and the pages
that can follow it, in a free block, or in the last block and the pages that can follow it. -/
def Has (R : Region) (frames : ℕ) (h : Heap) (L : List Block) (need : ℕ) : Prop :=
  if h.firstBlock = 0 then
    frames ≠ 0 ∧ h.endAddr + pageSize < R.maxAddr ∧ need ≤ pageSize - metaSize + 4096 * (frames - 1)
  else (∃ b ∈ L, b.free = true ∧ need ≤ b.size) ∨ ∃ b, L.getLast? = some b ∧
    need ≤ b.size + 4096 * frames

theorem enough_iff {frames need s : ℕ} {k : List Block} :
    Enough frames need k s ↔ (∃ b ∈ k ++ [⟨s, true⟩], b.free = true ∧ need ≤ b.size) ∨
      ∃ b, (k ++ [(⟨s, true⟩ : Block)]).getLast? = some b ∧ need ≤ b.size + 4096 * frames := by
  simp only [List.getLast?_append, List.getLast?_singleton, Option.some_or, Option.some.injEq,
    exists_eq_left', List.mem_append, List.mem_singleton]
  constructor
  · rintro (⟨b, hb, hfree, hle⟩ | hle)
    · exact .inl ⟨b, .inl hb, hfree, hle⟩
    · exact .inr hle
  · rintro (⟨b, hb | rfl, hfree, hle⟩ | hle)
    · exact .inl ⟨b, hb, hfree, hle⟩
    · exact .inr (Nat.le_trans hle (Nat.le_add_right _ _))
    · exact .inr hle

/-- The part of `malloc` after `init_first_block`. -/
theorem Recorded.wp_search {frames size need : ℕ} (hL : Recorded R h L)
    (hend : h.endAddr + 4096 * frames < 2 ^ 32)
    (hsplit : (∃ b ∈ L, b.free = true ∧ need ≤ b.size) ∨
      (∃ b, L.getLast? = some b ∧ need ≤ b.size + 4096 * frames) →
      ∀ h₁ l₁ t l₂, Recorded R h₁ (l₁ ++ ⟨t, true⟩ :: l₂) → need ≤ t →
      h₁.endAddr < 2 ^ 32 → wp (Libc.split (h₁.firstBlock + len l₁) size
        (newMeta t true (link l₂ (h₁.firstBlock + len l₁ + metaSize + t)))) Q E h₁)
    (hstop : ¬ ((∃ b ∈ L, b.free = true ∧ need ≤ b.size) ∨ ∃ b, L.getLast? = some b ∧
      need ≤ b.size + 4096 * frames) →
      ∀ e h₁, E e h₁) :
    wp (do
      let h ← read
      let b ← load h.firstBlock
      assert "first_block->magic_head == MAGIC_HEAD" (decide (b.magicHead = magicHead))
      mallocLoop R size need maxSteps frames h.firstBlock : Prog Stop Heap ℕ) Q E h := by
  obtain ⟨k, s, rfl⟩ := hL.last.split
  rw [← enough_iff] at hsplit hstop
  have hload : ∀ {Q : BlockMeta → Heap → Prop}, (∀ b, b.magicHead = magicHead → Q b h) →
      wp (load h.firstBlock) Q E h := by
    intro Q hQ
    obtain ⟨b, k', hk⟩ : ∃ b k', k ++ [(⟨s, true⟩ : Block)] = [] ++ b :: k' := by
      cases k with
      | nil => exact ⟨_, [], rfl⟩
      | cons b k => exact ⟨b, k ++ [⟨s, true⟩], rfl⟩
    have hat := Recorded.wp_load (E := E) (Q := Q) (hk ▸ hL)
    rw [len_nil, Nat.add_zero] at hat
    rw [hat]
    exact hQ _ rfl
  have hlen : k.length + 1 + frames ≤ maxSteps := by
    have h1 := length_le_len (k ++ [(⟨s, true⟩ : Block)])
    have h2 := hL.tiles
    rw [List.length_append, List.length_singleton] at h1
    unfold maxSteps metaSize at *
    omega
  simp only [wp_bind, wp_read]
  refine hload fun b hb => ?_
  rw [wp_assert (by simpa using hb)]
  have hloop :=
    Recorded.wp_mallocLoop (l := []) (Q := Q) (E := E) maxSteps hL hend hlen hsplit fun hn h₁ =>
      hstop hn _ h₁
  rwa [len_nil, Nat.add_zero] at hloop

/-- **`malloc`** splits a free block if there is memory for it, and does not return otherwise. -/
theorem wp_malloc {frames n : ℕ} (hL : State R h L) (hend : h.endAddr + 4096 * frames < 2 ^ 32)
    (hsplit : Has R frames h L ((align4 n + metaSize) % 2 ^ 32) →
      ∀ h₁ l₁ t l₂, Recorded R h₁ (l₁ ++ ⟨t, true⟩ :: l₂) →
      (align4 n + metaSize) % 2 ^ 32 ≤ t → h₁.endAddr < 2 ^ 32 →
        wp (Libc.split (h₁.firstBlock + len l₁) (align4 n)
        (newMeta t true (link l₂ (h₁.firstBlock + len l₁ + metaSize + t)))) Q E h₁)
    (hstop : ¬ Has R frames h L ((align4 n + metaSize) % 2 ^ 32) → ∀ e h₁, E e h₁) :
    wp (malloc R frames n) Q E h := by
  rcases hL with ⟨hfirst, hstart, hnull, rfl⟩ | hL
  · simp only [malloc, wp_bind, wp_read, wp_ite, hfirst, if_true, initFirstBlock, wp_sbrkPage]
    unfold Has at hsplit hstop
    rw [if_pos hfirst] at hsplit hstop
    split_ifs with h0 hmax
    · exact hstop (fun hc => hc.1 h0) _ _
    · rw [wp_pure, load, wp_bind, wp_access (by simp [metaSize, pageSize])]
      simp only [wp_bind, wp_read, hnull, wp_halt]
      exact hstop (fun hc => absurd hc.2.1 (by omega)) _ _
    · have hroom : h.endAddr + pageSize < R.maxAddr := by omega
      simp only [wp_bind, wp_modify]
      rw [wp_store (by simp [pageSize, metaSize])]
      have hL : Recorded R (({ h with
          firstBlock := h.endAddr
          endAddr := h.endAddr + pageSize } : Heap).write h.endAddr
            (newMeta (pageSize - metaSize) true 0)) [⟨pageSize - metaSize, true⟩] :=
        ⟨hstart, ⟨Heap.write_self, trivial⟩, by simp [pageSize, metaSize], by simp⟩
      have hiff : ∀ need,
        ((∃ b ∈ [(⟨pageSize - metaSize, true⟩ : Block)], b.free = true ∧ need ≤ b.size) ∨
          ∃ b, [(⟨pageSize - metaSize, true⟩ : Block)].getLast? = some b ∧
            need ≤ b.size + 4096 * (frames - 1)) ↔
          need ≤ pageSize - metaSize + 4096 * (frames - 1) := by
        intro need
        simp only [List.mem_singleton, exists_eq_left, List.getLast?_singleton, Option.some.injEq,
          exists_eq_left', true_and]
        omega
      have hleft : h.endAddr + pageSize + 4096 * (frames - 1) < 2 ^ 32 := by
        simp only [pageSize]
        omega
      have hsearch := hL.wp_search hleft (fun hc => hsplit ⟨h0, hroom, (hiff _).mp hc⟩)
        fun hc => hstop fun hc' => hc ((hiff _).mpr hc'.2.2)
      simpa only [wp_bind, wp_read] using hsearch
  · have hne : h.firstBlock ≠ 0 := hL.first_pos.ne'
    unfold Has at hsplit hstop
    rw [if_neg hne] at hsplit hstop
    have hsearch := hL.wp_search hend hsplit hstop
    simp only [wp_bind, wp_read] at hsearch
    simpa only [malloc, wp_bind, wp_read, wp_ite, hne, if_false, wp_pure] using hsearch

/-! ### Exactly when allocation is right -/

/-- The pointer is to a payload of at least `n` bytes below the break, where the recorded blocks
end. -/
structure Given (n q : ℕ) (h : Heap) : Prop where
  payload : n ≤ h.payload q
  below : q + h.payload q ≤ h.endAddr
  recorded : ∃ L, Chain h.mem h.firstBlock L ∧ h.firstBlock + len L = h.endAddr

/-- An allocation of `n` bytes returns `NULL` with the blocks unchanged, or a pointer to `n`
bytes. -/
def Right (m : Prog Stop Heap ℕ) (n : ℕ) (h : Heap) : Prop :=
  wp m (fun q h' => (q = 0 ∧ h'.mem = h.mem ∧ h'.firstBlock = h.firstBlock) ∨
    (q ≠ 0 ∧ Given n q h'))
    (fun _ _ => False) h

/-- `n` rounded up to a multiple of 4, with a header. -/
def need (n : ℕ) : ℕ := (n + 3) / 4 * 4 + metaSize

theorem align4_of_le {n : ℕ} (hn : n + 24 ≤ 2 ^ 32) :
    n ≤ align4 n ∧ align4 n + metaSize = need n ∧ need n < 2 ^ 32 := by
  unfold align4 need metaSize
  split <;> omega

theorem wp_split_any {p size : ℕ} {c : BlockMeta} :
    wp (split p size c) (fun q h' => q = p + metaSize ∧ h'.endAddr = h.endAddr)
      (fun _ _ => True) h := by
  unfold split assert
  simp only [wp_bind, wp_ite, wp_halt, wp_pure, store, access, wp_read, wp_modify]
  split_ifs
  simp

theorem startAddr_ge (R : Region) : 4096 ≤ R.startAddr := by
  have h1 := R.pos
  have h2 := R.aligned
  unfold pageSize at h2
  omega

section

variable {frames n : ℕ} (hL : State R h L) (hend : h.endAddr + 4096 * frames < 2 ^ 32)

include hL hend

/-- Whatever the size, `malloc` returns an address in the heap if it returns. -/
theorem wp_malloc_any :
    wp (malloc R frames n) (fun q h' => R.startAddr ≤ q ∧ h'.endAddr < 2 ^ 32)
      (fun _ _ => True) h := by
  refine wp_malloc hL hend (fun _ h₁ l₁ t l₂ hL₁ _ hend₁ => ?_) fun _ _ _ => trivial
  refine wp_split_any.mono ?_ fun _ _ => id
  rintro _ h' ⟨rfl, he⟩
  rw [he, ← hL₁.first]
  exact ⟨by omega, hend₁⟩

/-- Without memory for the block `malloc` does not return. -/
theorem wp_malloc_never (hn : n + 24 ≤ 2 ^ 32) (hno : ¬ Has R frames h L (need n)) :
    wp (malloc R frames n) (fun _ _ => False) (fun _ _ => True) h := by
  obtain ⟨-, heq, hlt⟩ := align4_of_le hn
  refine wp_malloc hL hend (fun hc => ?_) fun _ _ _ => trivial
  rw [Nat.mod_eq_of_lt (heq ▸ hlt), heq] at hc
  exact absurd hc hno

/-- With memory for the block `malloc` returns a pointer to it. -/
theorem wp_malloc_given (hn : n + 24 ≤ 2 ^ 32) (hhas : Has R frames h L (need n)) :
    wp (malloc R frames n) (fun q h' => q ≠ 0 ∧ Given n q h') (fun _ _ => False) h := by
  obtain ⟨hle, heq, hlt⟩ := align4_of_le hn
  have hmod : (align4 n + metaSize) % 2 ^ 32 = align4 n + metaSize := Nat.mod_eq_of_lt (heq ▸ hlt)
  refine wp_malloc hL hend (fun _ h₁ l₁ t l₂ hL₁ ht hend₁ => ?_) fun hc => ?_
  · rw [hmod] at ht
    refine (hL₁.split hend₁ ht).mono ?_ fun _ _ => id
    rintro _ h' ⟨rfl, hL', he, hf⟩
    obtain ⟨hm, hblock⟩ := hL'.header
    rw [hf] at hm hblock
    have hpay : h'.payload (h₁.firstBlock + len l₁ + metaSize) = align4 n := by
      unfold Heap.payload
      rw [Nat.add_sub_cancel, hm]
      rfl
    dsimp only at hblock
    refine ⟨by unfold metaSize; omega, by rw [hpay]; exact hle, ?_, _, hL'.chain, hL'.tiles⟩
    rw [hpay]
    omega
  · rw [hmod, heq] at hc
    exact absurd hhas hc

/-- An allocation that returns what `malloc` returns for `n'` bytes is right for no size too large
for the heap. -/
theorem Given.le_of_malloc {n' q : ℕ} {h' : Heap} (hrun : malloc R frames n' h = .ok q h')
    (hq : q = 0 ∨ Given n q h') : n + 24 ≤ 2 ^ 32 := by
  obtain ⟨hge, hlt⟩ := (wp_malloc_any hL hend).ok hrun
  have hstart := startAddr_ge R
  rcases hq with rfl | hg
  · omega
  · have := hg.payload
    have := hg.below
    omega

/-- `malloc` is right exactly when the size leaves room for the header in 32 bits, and there is
memory. -/
theorem malloc_right_iff :
    Right (malloc R frames n) n h ↔ n + 24 ≤ 2 ^ 32 ∧ Has R frames h L (need n) := by
  constructor
  · intro hr
    obtain ⟨q, h', hrun, hq⟩ := hr.returns
    have hn : n + 24 ≤ 2 ^ 32 := Given.le_of_malloc hL hend hrun (hq.imp (·.1) (·.2))
    refine ⟨hn, ?_⟩
    by_contra hno
    exact (wp_malloc_never hL hend hn hno).ok hrun
  · rintro ⟨hn, hhas⟩
    exact (wp_malloc_given hL hend hn hhas).mono (fun _ _ hq => .inr hq) fun _ _ => id

/-- `calloc` is right exactly when the product leaves room for the header in 32 bits, and there is
memory. -/
theorem calloc_right_iff {nmemb size : ℕ} : Right (calloc R frames nmemb size) (nmemb * size) h ↔
    nmemb * size + 24 ≤ 2 ^ 32 ∧ Has R frames h L (need (nmemb * size)) := by
  constructor
  · intro hr
    have hmal : wp (malloc R frames (nmemb * size % 2 ^ 32))
      (fun q h' => q = 0 ∨ Given (nmemb * size) q h')
      (fun _ _ => False) h := by
      unfold Right at hr
      simp only [calloc, wp_bind, access, wp_read, wp_ite, wp_pure, wp_halt] at hr
      refine hr.mono (fun q h' hq => ?_) fun _ _ => id
      split_ifs at hq
      exact hq.imp (·.1) (·.2)
    obtain ⟨q, h', hrun, hq⟩ := hmal.returns
    have hn := Given.le_of_malloc hL hend hrun hq
    refine ⟨hn, ?_⟩
    by_contra hno
    rw [Nat.mod_eq_of_lt (by omega)] at hrun
    exact (wp_malloc_never hL hend hn hno).ok hrun
  · rintro ⟨hn, hhas⟩
    have hmod : nmemb * size % 2 ^ 32 = nmemb * size := Nat.mod_eq_of_lt (by omega)
    unfold Right
    simp only [calloc, hmod, wp_bind]
    refine (wp_malloc_given hL hend hn hhas).mono (fun q h' hq => ?_) fun _ _ => id
    have := hq.2.payload
    have := hq.2.below
    rw [wp_access (by omega)]
    exact .inr hq

/-- **Allocations are right exactly** when the size, or the product of the sizes, leaves room for
the header and the rounding in 32 bits, and there is memory for the block. -/
theorem allocation_right_iff (nmemb size : ℕ) :
    (Right (malloc R frames size) size h ↔ size + 24 ≤ 2 ^ 32 ∧ Has R frames h L (need size)) ∧
    (Right (calloc R frames nmemb size) (nmemb * size) h ↔
      nmemb * size + 24 ≤ 2 ^ 32 ∧ Has R frames h L (need (nmemb * size))) :=
  ⟨malloc_right_iff hL hend, calloc_right_iff hL hend⟩

end

/-- A program with 100 frames asks for more than a page. -/
theorem allocation_right_page : Right (malloc userHeap 100 5000) 5000 (Heap.init userHeap) ∧
    Right (calloc userHeap 100 5 1000) (5 * 1000) (Heap.init userHeap) := by
  have hL : State userHeap (Heap.init userHeap) [] := .inl ⟨rfl, rfl, rfl, rfl⟩
  have hhas : Has userHeap 100 (Heap.init userHeap) [] (need 5000) := by
    unfold Has
    rw [if_pos (show (Heap.init userHeap).firstBlock = 0 from rfl)]
    decide
  have hend : (Heap.init userHeap).endAddr + 4096 * 100 < 2 ^ 32 := by decide
  exact ⟨(allocation_right_iff hL hend 0 5000).1.mpr ⟨by decide, hhas⟩,
    (allocation_right_iff hL hend 5 1000).2.mpr ⟨by decide, hhas⟩⟩

theorem not_right_of_small {m : Prog Stop Heap ℕ} {n q : ℕ}
    (hv : (m h).value? = some q) (hq : q ≠ 0) (hp : (m h).state.payload q < n) : ¬ Right m n h := by
  intro hr
  obtain ⟨q', h', hrun, hg⟩ := hr.returns
  rw [hrun] at hv hp
  obtain rfl : q' = q := Option.some.inj hv
  obtain ⟨h0, -⟩ | ⟨-, hg⟩ := hg
  · exact hq h0
  · have := hg.payload
    exact absurd hp (by show ¬ h'.payload q' < n; omega)

/-- **The size wraps to 0** when it is rounded up, and the product of the sizes wraps: the program
is given less than it asked for. -/
theorem malloc_wraps : ¬ Right (malloc userHeap 100 0xFFFFFFFF) 0xFFFFFFFF (Heap.init userHeap) ∧
    ¬ Right (calloc userHeap 100 0x10000 0x10001) (0x10000 * 0x10001) (Heap.init userHeap) := by
  have hm : (malloc userHeap 100 0xFFFFFFFF (Heap.init userHeap)).value? = some 0x20000014 := by
    decide +kernel
  have hmp :
    (malloc userHeap 100 0xFFFFFFFF (Heap.init userHeap)).state.payload 0x20000014 = 0 := by
    decide +kernel
  have hc : (calloc userHeap 100 0x10000 0x10001 (Heap.init userHeap)).value? =
    some 0x20000014 := by
    decide +kernel
  have hcp : (calloc userHeap 100 0x10000 0x10001 (Heap.init userHeap)).state.payload 0x20000014 =
    0x10000 := by
    decide +kernel
  exact ⟨not_right_of_small hm (by decide) (by rw [hmp]; decide),
    not_right_of_small hc (by decide) (by rw [hcp]; decide)⟩

end Cosiris.Libc.Bounded
