import Cosiris.Lib.Bytes
import Cosiris.Libc.Bounded

/-!
# `realloc`

`realloc` takes a new block, copies and frees the old one. Asked for no bytes it frees the old
block and goes on with the same code, which reads the header of the block that is free now and
frees it a second time. It is right exactly when it is asked for at least one byte, the size does
not wrap, and there is memory for the new block beside the old one (`realloc_right_iff`).

Here the bytes of the heap are represented too: a header that is written takes the place of the
bytes that were there. -/

namespace Cosiris.Libc.Bounded

open Function Prog

/-! ### The bytes of the heap -/

/-- A heap with its bytes, and the pointers that `free` has been called with. -/
structure Space where
  heap : Heap
  bytes : ℕ → UInt8
  freed : List ℕ

/-- A header in memory. -/
def headerBytes (b : BlockMeta) : List UInt8 :=
  leBytes 4 b.magicHead ++ leBytes 4 b.size ++ leBytes 4 (if b.free then 1 else 0) ++
    leBytes 4 b.next ++ leBytes 4 b.magicEnd

/-- The byte at `a` is part of a header that is not the same in both heaps. -/
def headerAt (h h' : Heap) (a : ℕ) : Option ℕ := (List.range metaSize).find? fun k =>
  k ≤ a ∧ h'.mem (a - k) ≠ h.mem (a - k)

/-- The bytes when the headers have changed. -/
def overwritten (h h' : Heap) (bytes : ℕ → UInt8) (a : ℕ) : UInt8 :=
  match headerAt h h' a with
  | some k => (h'.mem (a - k)).elim 0 fun b => (headerBytes b).getD k 0
  | none => bytes a

/-- Change the heap. -/
def Space.setHeap (h : Heap) (s : Space) : Space :=
  { s with heap := h, bytes := overwritten s.heap h s.bytes }

/-- A function of the library, on the heap with its bytes. -/
def onHeap {α : Type} (m : Prog Stop Heap α) : Prog Stop Space α := zoom Space.heap Space.setHeap m

/-- `memcpy`. -/
def memcpy (dst src n : ℕ) : Prog Stop Space Unit := do
  onHeap (access src n)
  onHeap (access dst n)
  modify fun s => { s with bytes := putBytes s.bytes dst (getBytes s.bytes src n) }

/-- `free`. -/
def free (R : Region) (ptr : ℕ) : Prog Stop Space Unit := do
  modify fun s => { s with freed := s.freed ++ [ptr] }
  onHeap (Libc.free R ptr)

/-- `realloc`, with `frames` pages that can be mapped when it calls `malloc`. -/
def realloc (R : Region) (frames ptr size : ℕ) : Prog Stop Space ℕ := do
  if ptr = 0 then onHeap (malloc R frames size)
  else
    if size = 0 then free R ptr
    let p := ptr - metaSize
    let b ← onHeap (load p)
    onHeap (assert "p->magic_head == MAGIC_HEAD" (decide (b.magicHead = magicHead)))
    onHeap (assert "p->magic_end == MAGIC_END" (decide (b.magicEnd = magicEnd)))
    let n ← onHeap (malloc R frames size)
    let b ← onHeap (load p)
    memcpy n ptr (min size b.size)
    free R ptr
    return n

/-! ### When `realloc` is right -/

/-- The region of a heap that may grow past its limit, up to `2^31` bytes or the end of the
addresses. -/
def wide (R : Region) : Region :=
  ⟨R.startAddr, min (R.startAddr + 2 ^ 31) (2 ^ 32), R.pos, R.aligned, min_le_left _ _,
    min_le_right _ _⟩

theorem wide_startAddr (R : Region) : (wide R).startAddr = R.startAddr := by rw [wide]

theorem lt_wide {R : Region} {a : ℕ} (h : a < R.startAddr + 2 ^ 31) (h' : a < 2 ^ 32) :
    a < (wide R).maxAddr := by
  rw [wide]
  exact lt_min h h'

-- Where the region ends is known from its bounds.
attribute [irreducible] wide

/-- What is in a block. -/
def Space.contents (s : Space) (x : ℕ × ℕ) : List UInt8 := getBytes s.bytes (x.1 + metaSize) x.2

/-- The block `x` has gone, and a block of at least `n` bytes with the first bytes of it has come,
at `q`. -/
structure Resized (R : Region) (L : List Block) (x : ℕ × ℕ) (n : ℕ) (s : Space) (q : ℕ) (s' : Space)
    (L' : List Block)
    (y : ℕ × ℕ) : Prop where
  tiled : Tiled (wide R) s'.heap L'
  ptr : q = y.1 + metaSize
  size : n ≤ y.2
  live : ∀ z, z ∈ inUse R.startAddr L' ↔ z = y ∨ (z ∈ inUse R.startAddr L ∧ z ≠ x)
  disjoint : ∀ z ∈ inUse R.startAddr L', z ≠ y →
      y.1 + metaSize + y.2 ≤ z.1 ∨ z.1 + metaSize + z.2 ≤ y.1
  bytes : getBytes s'.bytes q (min n x.2) = getBytes s.bytes (x.1 + metaSize) (min n x.2)
  others : ∀ z ∈ inUse R.startAddr L, z ≠ x → s'.contents z = s.contents z

/-- The block `x` has gone, and there is no new one but one that the caller has got, at `q`. -/
structure Gone (R : Region) (L : List Block) (x : ℕ × ℕ) (s : Space) (q : ℕ) (s' : Space)
    (L' : List Block) : Prop where
  tiled : Tiled (wide R) s'.heap L'
  live : ∀ z ∈ inUse R.startAddr L', z.1 + metaSize = q ∨ (z ∈ inUse R.startAddr L ∧ z ≠ x)
  others : ∀ z ∈ inUse R.startAddr L, z ≠ x →
      z ∈ inUse R.startAddr L' ∧ s'.contents z = s.contents z

/-- `realloc` of the block `x` to `n` bytes returns and frees the block once, and it resizes it,
or leaves nothing behind when `n` is 0. -/
def Reallocates (R : Region) (frames : ℕ) (L : List Block) (x : ℕ × ℕ) (n : ℕ) (s : Space) : Prop :=
  wp (realloc R frames (x.1 + metaSize) n) (fun q s' => s'.freed = s.freed ++ [x.1 + metaSize] ∧
    ((n = 0 ∧ ∃ L', Gone R L x s q s' L') ∨ ∃ L' y, Resized R L x n s q s' L' y))
      (fun _ _ => False) s

/-! ### Bytes and headers -/

section

variable {R : Region} {h h' : Heap} {s : Space} {L : List Block} {bytes : ℕ → UInt8} {p a k : ℕ}

theorem overwritten_of_same (hm : ∀ k, k < metaSize → k ≤ a → h'.mem (a - k) = h.mem (a - k)) :
    overwritten h h' bytes a = bytes a := by
  have hnone : headerAt h h' a = none := by
    refine List.find?_eq_none.mpr fun k hk => ?_
    rw [decide_eq_true_eq]
    exact fun hne => hne.2 (hm k (List.mem_range.mp hk) hne.1)
  rw [overwritten, hnone]

theorem Space.setHeap_self : s.setHeap s.heap = s := by
  have hsame : overwritten s.heap s.heap s.bytes = s.bytes :=
    funext fun a => overwritten_of_same fun _ _ _ => rfl
  rw [Space.setHeap, hsame]

/-- The payload of a block in use is kept with the headers. -/
theorem getBytes_setHeap (hk : Kept p L s.heap h) {z : ℕ × ℕ} (hz : z ∈ inUse p L)
    (hlo : z.1 + metaSize ≤ a)
    (hhi : a + k ≤ z.1 + metaSize + z.2) : getBytes (s.setHeap h).bytes a k =
    getBytes s.bytes a k := by
  refine getBytes_congr fun i hi => overwritten_of_same fun j hj hle => hk _ (.inr ⟨z, hz, ?_, ?_⟩)
  · omega
  · omega

theorem wp_onHeap {α : Type} {m : Prog Stop Heap α} {Q : α → Space → Prop}
    {E : Stop → Space → Prop} :
    wp (onHeap m) Q E s =
      wp m (fun a h => Q a (s.setHeap h)) (fun e h => E e (s.setHeap h)) s.heap :=
      wp_zoom _ _ _

theorem wp_onHeap_load {c : BlockMeta} {Q : BlockMeta → Space → Prop} {E : Stop → Space → Prop}
    (hp : p + metaSize ≤ s.heap.endAddr) (hm : s.heap.mem p = some c) :
    wp (onHeap (load p)) Q E s = Q c s := by
  rw [wp_onHeap, wp_load_of hp hm, Space.setHeap_self]

theorem wp_onHeap_assert {cond : String} {c : Bool} {Q : Unit → Space → Prop}
    {E : Stop → Space → Prop} (hc : c = true) :
    wp (onHeap (assert cond c)) Q E s = Q () s := by
  rw [wp_onHeap, wp_assert hc, Space.setHeap_self]

theorem wp_memcpy {dst src n : ℕ} {Q : Unit → Space → Prop} {E : Stop → Space → Prop}
    (hs : src + n ≤ s.heap.endAddr)
    (hd : dst + n ≤ s.heap.endAddr) : wp (memcpy dst src n) Q E s =
      Q () { s with bytes := putBytes s.bytes dst (getBytes s.bytes src n) } := by
  rw [memcpy, wp_bind, wp_onHeap, wp_access hs, Space.setHeap_self, wp_bind,
    wp_onHeap, wp_access hd, Space.setHeap_self, wp_modify]

/-- What the library does with the heap is no call of `free`. -/
theorem wp_onHeap_freed {α : Type} {m : Prog Stop Heap α} {Q : α → Space → Prop}
    (hQ : ∀ a t, t.freed = s.freed → Q a t) : wp (onHeap m) Q (fun _ _ => True) s := by
  rw [wp_onHeap]
  exact wp_of_forall (fun a h => hQ a _ rfl) fun _ _ => trivial

end

/-! ### `malloc` on a heap that may pass its limit -/

section

variable {R : Region} {h : Heap} {Q : ℕ → Heap → Prop} {L : List Block} {x : ℕ × ℕ}

/-- The page that `_sbrk` maps is there whatever it returns. -/
theorem mallocLoop_wide {size search : ℕ} (fuel : ℕ) {frames p : ℕ}
    (hend : h.endAddr + 4096 * frames < (wide R).maxAddr)
    (hwp : wp (Libc.mallocLoop (wide R) size search fuel p) Q (fun _ _ => True) h) :
    wp (mallocLoop R size search fuel frames p) Q (fun _ _ => True) h := by
  induction fuel generalizing h frames p with
  | zero => trivial
  | succ fuel ih =>
    rw [Bounded.mallocLoop]
    rw [Libc.mallocLoop] at hwp
    by_cases hp : p = 0
    · rw [if_pos hp] at hwp ⊢
      exact hwp
    · rw [if_neg hp, wp_bind] at hwp ⊢
      simp only [load, access, wp_bind, wp_read, wp_ite, wp_pure, wp_halt] at hwp ⊢
      split_ifs at hwp ⊢ with hroom
      cases hm : h.mem p with
      | none => trivial
      | some b =>
        simp only [hm, wp_pure] at hwp ⊢
        split_ifs at hwp ⊢ with hfree hlast hle
        · exact ih hend hwp
        · -- the last block is too small: another page
          rw [wp_sbrk_page] at hwp
          rw [wp_sbrkPage]
          have hpage : pageSize = 4096 := rfl
          split_ifs with h0
          rw [if_pos (by omega), wp_store (by dsimp only; omega)] at hwp
          rw [wp_store (by dsimp only; omega)]
          exact ih (by simp only [Heap.write_endAddr]; omega) hwp
        · exact hwp
        · exact ih hend hwp

/-- **What `malloc` returns** is what it returns in the region without the limit. -/
theorem malloc_wide {frames n : ℕ} (hne : h.firstBlock ≠ 0)
    (hend : h.endAddr + 4096 * frames < (wide R).maxAddr)
    (hwp : wp (Libc.malloc (wide R) n) Q (fun _ _ => True) h) :
    wp (malloc R frames n) Q (fun _ _ => True) h := by
  simp only [malloc, Libc.malloc, wp_bind, wp_read, wp_ite, hne, if_false] at hwp ⊢
  simp only [load, access, assert, wp_bind, wp_read, wp_ite, wp_pure, wp_halt] at hwp ⊢
  split_ifs at hwp ⊢ with hroom
  cases hm : h.mem h.firstBlock with
  | none => trivial
  | some b =>
    simp only [hm, wp_pure] at hwp ⊢
    split_ifs at hwp ⊢ with hmagic
    exact mallocLoop_wide maxSteps hend hwp

theorem recorded_of_tiled (hL : Tiled (wide R) h L) : Recorded R h L :=
  ⟨hL.first.trans (wide_startAddr R), hL.chain, hL.tiles, hL.last⟩

/-- A block in use has less than `2^31` bytes. -/
theorem size_lt (hL : Tiled (wide R) h L) (hx : x ∈ inUse R.startAddr L) :
    x.1 + metaSize + x.2 < 2 ^ 32 ∧ x.2 < 2 ^ 31 := by
  have hlt := hL.end_lt
  have hbound := hL.bound
  have hmax := (wide R).size_le
  have hbounds := mem_inUse_bounds hx
  have htiles := hL.tiles
  have hfirst := hL.first
  rw [wide_startAddr] at hmax hfirst
  constructor <;> omega

theorem size_le_len {b : Block} (hb : b ∈ L) : b.size ≤ len L := by
  obtain ⟨l₁, l₂, rfl⟩ := List.append_of_mem hb
  rw [len_append, len_cons]
  omega

/-- Memory for a block is memory below `2^31` bytes. -/
theorem small_of_has {frames n : ℕ} (hL : Tiled (wide R) h L)
    (hend : h.endAddr + 4096 * frames < (wide R).maxAddr)
    (hhas : Has R frames h L (need n)) : n + 4100 ≤ 2 ^ 32 := by
  have hneed : need n ≤ len L + 4096 * frames := by
    unfold Has at hhas
    rw [if_neg hL.first_pos.ne'] at hhas
    obtain ⟨b, hb, -, hle⟩ | ⟨b, hb, hle⟩ := hhas
    · have := size_le_len hb
      omega
    · have := size_le_len (List.mem_of_getLast? hb)
      omega
  have hmax := (wide R).size_le
  have htiles := hL.tiles
  have hfirst := hL.first
  unfold need metaSize at hneed
  omega

/-- **`malloc`** with memory for the block: it is what `malloc` does in the region without the
limit. -/
theorem wp_malloc_tiled {frames n : ℕ} (hL : Tiled (wide R) h L)
    (hend : h.endAddr + 4096 * frames < (wide R).maxAddr)
    (hn : n + 24 ≤ 2 ^ 32) (hhas : Has R frames h L (need n)) :
    wp (malloc R frames n)
      (fun q h' => Mallocd (wide R) L (align4 n) q h' ∧ Kept R.startAddr L h h')
      (fun _ _ => False) h := by
  have hne : h.firstBlock ≠ 0 := hL.first_pos.ne'
  have hlt : h.endAddr + 4096 * frames < 2 ^ 32 := hend.trans_le (wide R).max_le
  have hgiven := wp_malloc_given (.inr (recorded_of_tiled hL)) hlt hn hhas
  have hsmall := small_of_has hL hend hhas
  have hspec :=
    malloc_wide hne hend ((malloc_spec (.inr hL) hsmall).mono (fun _ _ => id) fun _ _ _ => trivial)
  rw [wide_startAddr] at hspec
  exact (hgiven.and hspec).mono (fun _ _ hq => hq.2) fun _ _ => And.left

end

/-! ### `realloc` -/

section

variable {R : Region} {frames n : ℕ} {s : Space} {L : List Block} {x : ℕ × ℕ}

/-- Asked for no bytes, `realloc` frees the block twice if it returns. -/
theorem wp_realloc_zero {ptr : ℕ} (hptr : ptr ≠ 0) :
    wp (realloc R frames ptr 0) (fun _ t => t.freed = s.freed ++ [ptr, ptr])
      (fun _ _ => True) s := by
  rw [realloc, if_neg hptr]
  dsimp only
  rw [if_pos rfl, wp_bind, free, wp_bind, wp_modify]
  refine wp_onHeap_freed fun _ t₁ h₁ => ?_
  rw [wp_bind]
  refine wp_onHeap_freed fun _ t₂ h₂ => ?_
  rw [wp_bind]
  refine wp_onHeap_freed fun _ t₃ h₃ => ?_
  rw [wp_bind]
  refine wp_onHeap_freed fun _ t₄ h₄ => ?_
  rw [wp_bind]
  refine wp_onHeap_freed fun _ t₅ h₅ => ?_
  rw [wp_bind]
  refine wp_onHeap_freed fun _ t₆ h₆ => ?_
  rw [memcpy, wp_bind, wp_bind]
  refine wp_onHeap_freed fun _ t₇ h₇ => ?_
  rw [wp_bind]
  refine wp_onHeap_freed fun _ t₈ h₈ => ?_
  rw [wp_modify, wp_bind, wp_bind, wp_modify]
  refine wp_onHeap_freed fun _ t₉ h₉ => ?_
  rw [wp_pure, h₉, h₈, h₇, h₆, h₅, h₄, h₃, h₂, h₁, List.append_assoc]
  rfl

/-- The header of a block in use. -/
theorem used_wide {h : Heap} (hL : Tiled (wide R) h L) (hx : x ∈ inUse R.startAddr L) :
    x.1 + metaSize + x.2 ≤ h.endAddr ∧ ∃ next, h.mem x.1 = some (newMeta x.2 false next) := by
  rw [← wide_startAddr] at hx
  exact hL.used hx

/-- Asked for at least one byte, `realloc` finds the header and takes a new block. -/
theorem wp_realloc_start {Q : ℕ → Space → Prop} {E : Stop → Space → Prop}
    (hL : Tiled (wide R) s.heap L) (hx : x ∈ inUse R.startAddr L) (hpos : n ≠ 0) :
    wp (realloc R frames (x.1 + metaSize) n) Q E s = wp (malloc R frames n) (fun q h => wp (do
      let b ← onHeap (load x.1)
      memcpy q (x.1 + metaSize) (min n b.size)
      free R (x.1 + metaSize)
      return q) Q E (s.setHeap h)) (fun e h => E e (s.setHeap h)) s.heap := by
  have hms : metaSize = 20 := rfl
  obtain ⟨hin, next, hm⟩ := used_wide hL hx
  rw [realloc, if_neg (by omega)]
  dsimp only
  rw [if_neg hpos, Nat.add_sub_cancel, wp_bind, wp_onHeap_load (by omega) hm, wp_bind,
    wp_onHeap_assert (by simp [newMeta]),
    wp_bind, wp_onHeap_assert (by simp [newMeta]), wp_bind, wp_onHeap]

/-- **`realloc`** of a block to at least one byte, with memory for the new block. -/
theorem wp_realloc (hL : Tiled (wide R) s.heap L)
    (hend : s.heap.endAddr + 4096 * frames < (wide R).maxAddr)
    (hx : x ∈ inUse R.startAddr L) (hpos : n ≠ 0) (hn : n + 24 ≤ 2 ^ 32)
    (hhas : Has R frames s.heap L (need n)) :
    wp (realloc R frames (x.1 + metaSize) n) (fun q s' => s'.freed = s.freed ++ [x.1 + metaSize] ∧
      ∃ L' y, Resized R L x n s q s' L' y) (fun _ _ => False) s := by
  have hms : metaSize = 20 := rfl
  have hle := (align4_of_le hn).1
  rw [wp_realloc_start hL hx hpos]
  refine (wp_malloc_tiled hL hend hn hhas).mono ?_ fun _ _ => False.elim
  rintro _ h₁ ⟨⟨L₁, y, hL₁, hT, rfl⟩, hkept⟩
  rw [wide_startAddr] at hT
  have hx₁ : x ∈ inUse R.startAddr L₁ := hT.mem_iff.mpr (.inr hx)
  have hxy : x.1 ≠ y := hT.ne hx
  obtain ⟨hin₁, next₁, hm₁⟩ := used_wide hL₁ hx₁
  obtain ⟨hin₂, -⟩ := used_wide hL₁ hT.mem
  dsimp only at hin₂
  have hmin : min n x.2 ≤ n ∧ min n x.2 ≤ x.2 := ⟨min_le_left _ _, min_le_right _ _⟩
  have hdisj := inUse_disjoint hx₁ hT.mem fun heq => hxy (congrArg Prod.fst heq)
  dsimp only at hdisj
  rw [wp_bind, wp_onHeap_load (show x.1 + metaSize ≤ h₁.endAddr by omega) hm₁,
    newMeta_size, wp_bind,
    wp_memcpy (show x.1 + metaSize + min n x.2 ≤ h₁.endAddr by omega)
      (show y + metaSize + min n x.2 ≤ h₁.endAddr by omega),
    wp_bind, free, wp_bind, wp_modify, wp_onHeap]
  rw [← wide_startAddr] at hx₁
  refine (hL₁.free hx₁ (wide_startAddr R).symm).mono ?_ fun _ _ => False.elim
  rintro - h₂ ⟨L', hL', hT', hkept'⟩
  rw [wide_startAddr] at hT' hkept'
  have hy' : (y, align4 n) ∈ inUse R.startAddr L' :=
    (hT'.mem_iff.mp hT.mem).resolve_left fun heq => hxy (congrArg Prod.fst heq).symm
  have hlive : ∀ z, z ∈ inUse R.startAddr L' ↔ z = (y, align4 n) ∨
    (z ∈ inUse R.startAddr L ∧ z ≠ x) := by
    intro z
    constructor
    · intro hz
      have hne : z ≠ x := fun heq => hT'.ne hz (congrArg Prod.fst heq)
      exact (hT.mem_iff.mp (hT'.mem_iff.mpr (.inr hz))).imp_right fun hz => ⟨hz, hne⟩
    · rintro (rfl | ⟨hz, hne⟩)
      · exact hy'
      · exact (hT'.mem_iff.mp (hT.mem_iff.mpr (.inr hz))).resolve_left hne
  refine ⟨rfl, L', (y, align4 n), hL', rfl, hle, hlive, fun z hz hne => ?_, ?_, fun z hz hne => ?_⟩
  · exact inUse_disjoint hy' hz hne.symm
  · have hput :=
      getBytes_putBytes (s.setHeap h₁).bytes (y + metaSize)
        (getBytes (s.setHeap h₁).bytes (x.1 + metaSize) (min n x.2))
    rw [length_getBytes] at hput
    rw [getBytes_setHeap hkept' hy' le_rfl (by dsimp only; omega)]
    exact hput.trans (getBytes_setHeap hkept hx le_rfl (by omega))
  · have hz' : z ∈ inUse R.startAddr L' := (hlive z).mpr (.inr ⟨hz, hne⟩)
    have hzy := inUse_disjoint (hT.mem_iff.mpr (.inr hz)) hT.mem fun heq =>
      hT.ne hz (congrArg Prod.fst heq)
    dsimp only at hzy
    have hput : getBytes (putBytes (s.setHeap h₁).bytes (y + metaSize)
        (getBytes (s.setHeap h₁).bytes (x.1 + metaSize) (min n x.2))) (z.1 + metaSize) z.2 =
        getBytes (s.setHeap h₁).bytes (z.1 + metaSize) z.2 :=
      getBytes_putBytes_disjoint (by rw [length_getBytes]; omega)
    rw [Space.contents, getBytes_setHeap hkept' hz' le_rfl le_rfl]
    exact hput.trans (getBytes_setHeap hkept hz le_rfl le_rfl)

/-- Without memory for the new block `realloc` does not return. -/
theorem wp_realloc_never (hL : Tiled (wide R) s.heap L)
    (hend : s.heap.endAddr + 4096 * frames < (wide R).maxAddr)
    (hx : x ∈ inUse R.startAddr L) (hpos : n ≠ 0) (hn : n + 24 ≤ 2 ^ 32)
    (hno : ¬Has R frames s.heap L (need n)) :
    wp (realloc R frames (x.1 + metaSize) n) (fun _ _ => False) (fun _ _ => True) s := by
  have hlt : s.heap.endAddr + 4096 * frames < 2 ^ 32 := hend.trans_le (wide R).max_le
  rw [wp_realloc_start hL hx hpos]
  exact (wp_malloc_never (.inr (recorded_of_tiled hL)) hlt hn hno).mono
    (fun _ _ => False.elim) fun _ _ _ => trivial

end

/-- Asked for no bytes, `realloc` does not free the block once. -/
theorem not_reallocates_zero (R : Region) (frames : ℕ) (L : List Block) (x : ℕ × ℕ) (s : Space) :
    ¬Reallocates R frames L x 0 s := by
  intro hr
  obtain ⟨q, s', hrun, hfreed, -⟩ := hr.returns
  have htwice := (wp_realloc_zero (s := s) (by unfold metaSize; omega)).ok hrun
  rw [hfreed, List.append_cancel_left_eq] at htwice
  cases htwice

/-- **`realloc` is right exactly** when it is asked for at least one byte, the size leaves room
for the header and the rounding in 32 bits, and there is memory for the new block beside the old
one. -/
theorem realloc_right_iff (R : Region) (frames : ℕ) (L : List Block) (x : ℕ × ℕ) (n : ℕ) (s : Space)
    (hL : Tiled (wide R) s.heap L) (hend : s.heap.endAddr + 4096 * frames < (wide R).maxAddr)
    (hx : x ∈ inUse R.startAddr L) :
    Reallocates R frames L x n s ↔ n ≠ 0 ∧ n + 24 ≤ 2 ^ 32 ∧ Has R frames s.heap L (need n) := by
  constructor
  · intro hr
    have hpos : n ≠ 0 := by
      rintro rfl
      exact not_reallocates_zero R frames L x s hr
    obtain ⟨q, s', hrun, -, hq⟩ := hr.returns
    obtain ⟨L', y, hres⟩ := hq.resolve_left fun h => hpos h.1
    have hsize := (size_lt hres.tiled ((hres.live y).mpr (.inl rfl))).2
    have hn := hres.size
    refine ⟨hpos, by omega, ?_⟩
    by_contra hno
    exact (wp_realloc_never hL hend hx hpos (by omega) hno).ok hrun
  · rintro ⟨hpos, hn, hhas⟩
    exact (wp_realloc hL hend hx hpos hn hhas).mono (fun _ _ h => ⟨h.1, .inr h.2⟩) fun _ _ => id

/-- A heap of one page with a block of 100 bytes in use. -/
def oneBlock : Space where
  heap :=
    { mem := fun a => if a = 0x20000000 then some (newMeta 100 false 0x20000078)
        else if a = 0x20000078 then some (newMeta 3956 true 0) else none
      firstBlock := 0x20000000
      endAddr := 0x20001000
      aborts := 0 }
  bytes := fun _ => 0
  freed := []

theorem tiled_oneBlock : Tiled (wide userHeap) oneBlock.heap [⟨100, false⟩, ⟨3956, true⟩] where
  first := (wide_startAddr userHeap).symm
  chain := ⟨rfl, rfl, trivial⟩
  tiles := rfl
  sizes := by decide
  last := ⟨_, rfl, rfl⟩
  aligned := rfl
  bound := lt_wide (by decide) (by decide)
  apart := List.isChain_cons_cons.mpr ⟨fun h => Bool.noConfusion h.1, List.IsChain.singleton _⟩

theorem inUse_oneBlock :
    (0x20000000, 100) ∈ inUse userHeap.startAddr [⟨100, false⟩, ⟨3956, true⟩] := by
  decide

theorem realloc_right_iff_grow : Tiled (wide userHeap) oneBlock.heap [⟨100, false⟩, ⟨3956, true⟩] ∧
    Reallocates userHeap 100 [⟨100, false⟩, ⟨3956, true⟩] (0x20000000, 100) 200 oneBlock := by
  have hend : oneBlock.heap.endAddr + 4096 * 100 < (wide userHeap).maxAddr :=
    lt_wide (by decide) (by decide)
  have hhas : Has userHeap 100 oneBlock.heap [⟨100, false⟩, ⟨3956, true⟩] (need 200) := by
    unfold Has
    rw [if_neg (by decide)]
    exact .inl ⟨_, List.mem_cons_of_mem _ (List.mem_singleton.mpr rfl), rfl, by decide⟩
  rw [realloc_right_iff userHeap 100 _ _ 200 oneBlock tiled_oneBlock hend inUse_oneBlock]
  exact ⟨tiled_oneBlock, by decide, by decide, hhas⟩

/-- A heap of one page with a block of 100 bytes in use behind a free one. -/
def behindFree : Space where
  heap :=
    { mem := fun a => if a = 0x20000000 then some (newMeta 100 true 0x20000078)
        else if a = 0x20000078 then some (newMeta 100 false 0x200000F0)
        else if a = 0x200000F0 then some (newMeta 3836 true 0) else none
      firstBlock := 0x20000000
      endAddr := 0x20001000
      aborts := 0 }
  bytes := fun _ => 0
  freed := []

theorem tiled_behindFree :
    Tiled (wide userHeap) behindFree.heap [⟨100, true⟩, ⟨100, false⟩, ⟨3836, true⟩] where
  first := (wide_startAddr userHeap).symm
  chain := ⟨rfl, rfl, rfl, trivial⟩
  tiles := rfl
  sizes := by decide
  last := ⟨_, rfl, rfl⟩
  aligned := rfl
  bound := lt_wide (by decide) (by decide)
  apart := List.isChain_cons_cons.mpr ⟨fun h => Bool.noConfusion h.2,
    List.isChain_cons_cons.mpr ⟨fun h => Bool.noConfusion h.1, List.IsChain.singleton _⟩⟩

/-- **The zero size falls through**: the block is freed twice, the second time when the free block
before it has taken it in. -/
theorem zero_size_frees_twice :
    Tiled (wide userHeap) behindFree.heap [⟨100, true⟩, ⟨100, false⟩, ⟨3836, true⟩] ∧
      (0x20000078, 100) ∈ inUse userHeap.startAddr [⟨100, true⟩, ⟨100, false⟩, ⟨3836, true⟩] ∧
      ¬Reallocates userHeap 100 [⟨100, true⟩, ⟨100, false⟩, ⟨3836, true⟩] (0x20000078, 100) 0
        behindFree :=
  ⟨tiled_behindFree, by decide, not_reallocates_zero _ _ _ _ _⟩

end Cosiris.Libc.Bounded
