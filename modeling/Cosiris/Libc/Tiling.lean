import Cosiris.Libc.Malloc
import Mathlib.Data.List.Chain

/-!
# Blocks that tile the heap

The abstract heap is a list of blocks, one after the other in memory. `Chain` says that
the headers in memory are those of a list of blocks that starts at an address, each
linked to the next. The lemmas here read and write one header of a chain; the
list operations that `malloc`, `free` and `heap_contract` come to are in terms of
them.
-/

namespace Cosiris.Libc

open Function Prog

/-- A block of the heap. -/
structure Block where
  size : ℕ
  free : Bool
  deriving DecidableEq

@[simp] theorem newMeta_size (size : ℕ) (free : Bool) (next : ℕ) :
    (newMeta size free next).size = size := rfl

@[simp] theorem newMeta_free (size : ℕ) (free : Bool) (next : ℕ) :
    (newMeta size free next).free = free := rfl

@[simp] theorem newMeta_next (size : ℕ) (free : Bool) (next : ℕ) :
    (newMeta size free next).next = next := rfl

theorem sub32_eq {x y : ℕ} (hxy : y ≤ x) (hx : x < 2 ^ 32) : sub32 x y = x - y := by
  unfold sub32
  omega

/-- The bytes a list of blocks takes, with its headers. -/
def len : List Block → ℕ
  | [] => 0
  | b :: l => metaSize + b.size + len l

@[simp] theorem len_nil : len [] = 0 := rfl

@[simp] theorem len_cons (b : Block) (l : List Block) :
    len (b :: l) = metaSize + b.size + len l := rfl

@[simp] theorem len_append (l l' : List Block) : len (l ++ l') = len l + len l' := by
  induction l with
  | nil => simp
  | cons b l ih => simp [ih, Nat.add_assoc]

theorem length_le_len (l : List Block) : metaSize * l.length ≤ len l := by
  induction l with
  | nil => simp
  | cons b l ih =>
    simp only [len_cons, List.length_cons]
    unfold metaSize at *
    omega

/-- The link to what follows at `q`: `NULL` if nothing does. -/
def link (l : List Block) (q : ℕ) : ℕ := if l = [] then 0 else q

@[simp] theorem link_nil (q : ℕ) : link [] q = 0 := rfl

@[simp] theorem link_cons (b : Block) (l : List Block) (q : ℕ) : link (b :: l) q = q := rfl

/-- The headers from `p` on are those of the blocks `l`. -/
def Chain (m : ℕ → Option BlockMeta) : ℕ → List Block → Prop
  | _, [] => True
  | p, b :: l =>
    m p = some (newMeta b.size b.free (link l (p + metaSize + b.size))) ∧
      Chain m (p + metaSize + b.size) l

/-- The headers from `p` on are those of the blocks `l`, and something follows. -/
def Seg (m : ℕ → Option BlockMeta) : ℕ → List Block → Prop
  | _, [] => True
  | p, b :: l =>
      m p = some (newMeta b.size b.free (p + metaSize + b.size)) ∧ Seg m (p + metaSize + b.size) l

section

variable {m m' : ℕ → Option BlockMeta} {p q : ℕ} {b : Block} {l l₁ l₂ : List Block}

theorem chain_append : Chain m p (l₁ ++ b :: l₂) ↔ Seg m p l₁ ∧ Chain m (p + len l₁) (b :: l₂) := by
  induction l₁ generalizing p with
  | nil => simp [Seg]
  | cons a l₁ ih =>
    have hlink : link (l₁ ++ b :: l₂) (p + metaSize + a.size) = p + metaSize + a.size := by
      unfold link
      rw [if_neg (by simp)]
    simp only [List.cons_append, Chain, hlink, Seg, ih, len_cons, and_assoc]
    rw [show p + metaSize + a.size + len l₁ = p + (metaSize + a.size + len l₁) by omega]

/-- The blocks after some others. -/
theorem Chain.drop (h : Chain m p (l₁ ++ l₂)) : Chain m (p + len l₁) l₂ := by
  cases l₂ with
  | nil => trivial
  | cons b l₂ => exact (chain_append.mp h).2

/-- Changing the memory outside the blocks keeps them. -/
theorem Seg.congr (h : Seg m p l) (hm : ∀ x, p ≤ x → x < p + len l → m' x = m x) : Seg m' p l := by
  induction l generalizing p with
  | nil => trivial
  | cons a l ih =>
    simp only [len_cons, metaSize] at hm
    refine ⟨(hm p le_rfl (by omega)).trans h.1, ih h.2 fun x h1 h2 => hm x ?_ ?_⟩
    · unfold metaSize at h1
      omega
    · unfold metaSize at h2
      omega

theorem Chain.congr (h : Chain m p l) (hm : ∀ x, p ≤ x → x < p + len l → m' x = m x) :
    Chain m' p l := by
  induction l generalizing p with
  | nil => trivial
  | cons a l ih =>
    simp only [len_cons, metaSize] at hm
    refine ⟨(hm p le_rfl (by omega)).trans h.1, ih h.2 fun x h1 h2 => hm x ?_ ?_⟩
    · unfold metaSize at h1
      omega
    · unfold metaSize at h2
      omega

end

/-- The blocks in use, with their addresses. -/
def inUse : ℕ → List Block → List (ℕ × ℕ)
  | _, [] => []
  | p, b :: l => (if b.free then [] else [(p, b.size)]) ++ inUse (p + metaSize + b.size) l

section

variable {p : ℕ} {b : Block} {l l₁ l₂ : List Block}

@[simp] theorem inUse_append : inUse p (l₁ ++ l₂) = inUse p l₁ ++ inUse (p + len l₁) l₂ := by
  induction l₁ generalizing p with
  | nil => simp [inUse]
  | cons a l₁ ih =>
    simp only [List.cons_append, inUse, ih, len_cons, List.append_assoc]
    rw [show p + metaSize + a.size + len l₁ = p + (metaSize + a.size + len l₁) by omega]

theorem inUse_free (h : b.free = true) : inUse p (b :: l) = inUse (p + metaSize + b.size) l := by
  simp [inUse, h]

theorem inUse_used (h : b.free = false) :
    inUse p (b :: l) = (p, b.size) :: inUse (p + metaSize + b.size) l := by
  simp [inUse, h]

/-- A block in use lies within the blocks. -/
theorem mem_inUse_bounds {x : ℕ × ℕ} (hx : x ∈ inUse p l) :
    p ≤ x.1 ∧ x.1 + metaSize + x.2 ≤ p + len l := by
  induction l generalizing p with
  | nil => simp [inUse] at hx
  | cons a l ih =>
    rcases List.mem_append.mp hx with hx | hx
    · split at hx
      · simp at hx
      · obtain rfl := List.mem_singleton.mp hx
        simp only [len_cons]
        omega
    · obtain ⟨h1, h2⟩ := ih hx
      simp only [len_cons]
      omega

/-- Blocks in use follow one another. -/
theorem inUse_pairwise (p : ℕ) (l : List Block) : (inUse p l).Pairwise fun x y =>
    x.1 + metaSize + x.2 ≤ y.1 := by
  induction l generalizing p with
  | nil => exact .nil
  | cons a l ih =>
    by_cases ha : a.free = true
    · rw [inUse_free ha]
      exact ih _
    · rw [inUse_used (by simpa using ha)]
      exact List.pairwise_cons.mpr ⟨fun y hy => (mem_inUse_bounds hy).1, ih _⟩

/-- Two blocks in use do not overlap. -/
theorem inUse_disjoint {x y : ℕ × ℕ} (hx : x ∈ inUse p l) (hy : y ∈ inUse p l) (hne : x ≠ y) :
    x.1 + metaSize + x.2 ≤ y.1 ∨ y.1 + metaSize + y.2 ≤ x.1 := by
  have hpair : (inUse p l).Pairwise fun a b => a.1 + metaSize + a.2 ≤ b.1 ∨
    b.1 + metaSize + b.2 ≤ a.1 :=
    (inUse_pairwise p l).imp fun h => .inl h
  have : Std.Symm fun a b : ℕ × ℕ => a.1 + metaSize + a.2 ≤ b.1 ∨ b.1 + metaSize + b.2 ≤ a.1 :=
    ⟨fun _ _ => Or.symm⟩
  exact hpair.forall hx hy hne

/-- A block in use is one of the blocks. -/
theorem mem_inUse_split {x : ℕ × ℕ} (hx : x ∈ inUse p l) :
    ∃ l₁ l₂, l = l₁ ++ ⟨x.2, false⟩ :: l₂ ∧ x.1 = p + len l₁ := by
  induction l generalizing p with
  | nil => simp [inUse] at hx
  | cons a l ih =>
    rcases List.mem_append.mp hx with hx | hx
    · split at hx
      · simp at hx
      case isFalse ha =>
        obtain rfl := List.mem_singleton.mp hx
        refine ⟨[], l, ?_, by simp⟩
        obtain ⟨size, free⟩ := a
        simp at ha
        simp [ha]
    · obtain ⟨l₁, l₂, rfl, h⟩ := ih hx
      refine ⟨a :: l₁, l₂, rfl, ?_⟩
      simp only [len_cons, h]
      omega

end

/-! ### A heap that is tiled -/

/-- No two blocks that follow one another are free. -/
def Apart (a b : Block) : Prop := ¬(a.free = true ∧ b.free = true)

/-- The last block is free. -/
def LastFree (L : List Block) : Prop := ∃ b, L.getLast? = some b ∧ b.free = true

section

variable {a b c : Block} {l l₁ l₂ : List Block}

@[simp] theorem lastFree_append : LastFree (l₁ ++ b :: l₂) ↔ LastFree (b :: l₂) := by
  unfold LastFree
  rw [List.getLast?_append_of_ne_nil _ (by simp)]

@[simp] theorem lastFree_cons_cons : LastFree (a :: b :: l) ↔ LastFree (b :: l) := by
  unfold LastFree
  rw [List.getLast?_cons_cons]

@[simp] theorem lastFree_singleton : LastFree [b] ↔ b.free = true := by
  simp [LastFree]

/-- What follows a block in use is not nothing. -/
theorem LastFree.ne_nil (h : LastFree (b :: l)) (hb : b.free = false) : l ≠ [] := by
  rintro rfl
  simp [hb] at h

/-- A block may be replaced by another that is free only if it was. -/
theorem apart_append (hbc : c.free = true → b.free = true) (h : (l ++ [b]).IsChain Apart) :
    (l ++ [c]).IsChain Apart := by
  rw [List.isChain_append] at h ⊢
  refine ⟨h.1, List.IsChain.singleton c, fun x hx y hy => ?_⟩
  obtain rfl : c = y := by simpa using hy
  exact fun hxy => h.2.2 x hx b (by simp) ⟨hxy.1, hbc hxy.2⟩

theorem apart_cons (hbc : c.free = true → b.free = true) (h : (b :: l).IsChain Apart) :
    (c :: l).IsChain Apart := by
  cases l with
  | nil => exact List.IsChain.singleton c
  | cons a l =>
    rw [List.isChain_cons_cons] at h ⊢
    exact ⟨fun hxy => h.1 ⟨hbc hxy.1, hxy.2⟩, h.2⟩

end

/-- The blocks from `first_block` to the break, in the middle of `free`, when two free blocks may
be adjacent. -/
structure Laid (R : Region) (h : Heap) (L : List Block) : Prop where
  first : h.firstBlock = R.startAddr
  chain : Chain h.mem h.firstBlock L
  tiles : h.firstBlock + len L = h.endAddr
  sizes : ∀ b ∈ L, b.size % 4 = 0
  last : LastFree L
  aligned : h.endAddr % pageSize = 0
  bound : h.endAddr < R.maxAddr

/-- **The blocks tile the heap**: the list that starts at `first_block` runs to the break, its
sizes are multiples of 4, its last block is free and no two free blocks are adjacent. -/
structure Tiled (R : Region) (h : Heap) (L : List Block) : Prop extends Laid R h L where
  apart : L.IsChain Apart

section

variable {R : Region} {h : Heap} {L l₁ l₂ : List Block} {b : Block} {E : Stop → Heap → Prop}

@[simp] theorem Heap.write_firstBlock {p : ℕ} {c : BlockMeta} :
    (h.write p c).firstBlock = h.firstBlock := rfl

@[simp] theorem Heap.write_endAddr {p : ℕ} {c : BlockMeta} :
    (h.write p c).endAddr = h.endAddr := rfl

@[simp] theorem Heap.write_self {p : ℕ} {c : BlockMeta} : (h.write p c).mem p = some c :=
    update_self _ _ _

theorem Heap.write_ne {p q : ℕ} {c : BlockMeta} (hq : q ≠ p) : (h.write p c).mem q = h.mem q :=
    update_of_ne hq _ _

theorem wp_access {p n : ℕ} {Q : Unit → Heap → Prop} (hp : p + n ≤ h.endAddr) :
    wp (access p n) Q E h = Q () h := by
  simp [access, hp]

theorem wp_store {p : ℕ} {c : BlockMeta} {Q : Unit → Heap → Prop} (hp : p + metaSize ≤ h.endAddr) :
    wp (store p c) Q E h = Q () (h.write p c) := by
  simp only [store, wp_bind, wp_access hp, wp_modify]

theorem wp_load_of {p : ℕ} {c : BlockMeta} {Q : BlockMeta → Heap → Prop}
    (hp : p + metaSize ≤ h.endAddr) (hm : h.mem p = some c) : wp (load p) Q E h = Q c h := by
  simp only [load, wp_bind, wp_access hp, wp_read, hm, wp_pure]

theorem wp_assert {cond : String} {c : Bool} {Q : Unit → Heap → Prop} (hc : c = true) :
    wp (assert cond c) Q E h = Q () h := by
  simp [assert, hc]

/-- The header of a block is in the heap. -/
theorem Laid.header (hL : Laid R h (l₁ ++ b :: l₂)) :
    h.mem (h.firstBlock + len l₁) =
        some (newMeta b.size b.free (link l₂ (h.firstBlock + len l₁ + metaSize + b.size))) ∧
      h.firstBlock + len l₁ + metaSize + b.size + len l₂ = h.endAddr := by
  refine ⟨(chain_append.mp hL.chain).2.1, ?_⟩
  have := hL.tiles
  simp only [len_append, len_cons] at this
  omega

/-- Reading the header of a block. -/
theorem Laid.wp_load (hL : Laid R h (l₁ ++ b :: l₂)) {Q : BlockMeta → Heap → Prop} :
    wp (load (h.firstBlock + len l₁)) Q E h =
      Q (newMeta b.size b.free (link l₂ (h.firstBlock + len l₁ + metaSize + b.size))) h := by
  obtain ⟨hm, hend⟩ := hL.header
  exact wp_load_of (by omega) hm

theorem Laid.first_pos (hL : Laid R h L) : 0 < h.firstBlock := hL.first ▸ R.pos

theorem Laid.end_lt (hL : Laid R h L) : h.endAddr < 2 ^ 32 := hL.bound.trans_le R.max_le

/-- Some blocks are replaced by others that take the same bytes: the heap stays tiled if the
memory changed only there and holds the headers of the new blocks. -/
theorem Laid.replace {h' : Heap} {k k' : List Block} (hL : Laid R h (l₁ ++ (k ++ l₂))) (hk : k ≠ [])
    (hk' : k' ≠ [])
    (hfirst : h'.firstBlock = h.firstBlock) (hend : h'.endAddr = h.endAddr) (hlen : len k' = len k)
    (hmem : ∀ y, y < h.firstBlock + len l₁ ∨ h.firstBlock + len l₁ + len k ≤ y → h'.mem y = h.mem y)
    (hhead : Chain h'.mem (h.firstBlock + len l₁ + len k') l₂ →
      Chain h'.mem (h.firstBlock + len l₁) (k' ++ l₂))
    (hsizes : ∀ b ∈ k', b.size % 4 = 0) (hlast : LastFree (k ++ l₂) → LastFree (k' ++ l₂)) :
    Laid R h' (l₁ ++ (k' ++ l₂)) := by
  obtain ⟨b, k, rfl⟩ := List.exists_cons_of_ne_nil hk
  obtain ⟨b', k', rfl⟩ := List.exists_cons_of_ne_nil hk'
  have htiles := hL.tiles
  have hsz := hL.sizes
  have hchain := hL.chain
  rw [List.cons_append] at hchain
  obtain ⟨hseg, hrest⟩ := chain_append.mp hchain
  refine ⟨hfirst.trans hL.first, ?_, ?_, ?_, ?_, hend ▸ hL.aligned, hend ▸ hL.bound⟩
  · rw [hfirst, List.cons_append]
    refine chain_append.mpr ⟨hseg.congr fun y _ hy => hmem y (.inl hy), hhead ?_⟩
    rw [hlen]
    exact (show Chain h.mem (h.firstBlock + len l₁ + len (b :: k)) l₂ from Chain.drop hrest).congr
      fun y hy _ => hmem y (.inr hy)
  · rw [hfirst, hend, ← htiles]
    simp only [len_append, hlen]
  · intro c hc
    rcases List.mem_append.mp hc with hc | hc
    · exact hsz c (List.mem_append_left _ hc)
    · rcases List.mem_append.mp hc with hc | hc
      · exact hsizes c hc
      · exact hsz c (List.mem_append_right _ (List.mem_append_right _ hc))
  · have := hL.last
    rw [List.cons_append, lastFree_append] at this ⊢
    exact hlast this

/-- Some blocks are replaced by one. -/
theorem Laid.join {k : List Block} (hL : Laid R h (l₁ ++ (k ++ l₂))) (hk : k ≠ [])
    (hlen : len [b] = len k)
    (h4 : b.size % 4 = 0) (hlast : LastFree (k ++ l₂) → LastFree (b :: l₂)) :
    Laid R (h.write (h.firstBlock + len l₁) (newMeta b.size b.free
      (link l₂ (h.firstBlock + len l₁ + metaSize + b.size)))) (l₁ ++ b :: l₂) := by
  have hms : metaSize = 20 := rfl
  refine Laid.replace hL hk (List.cons_ne_nil b []) ?_ ?_ hlen ?_ ?_ (by simpa using h4) hlast
  · rfl
  · rfl
  · intro y hy
    rw [← hlen] at hy
    simp only [len_cons, len_nil] at hy
    exact Heap.write_ne (by omega)
  · intro htail
    refine ⟨Heap.write_self, ?_⟩
    show Chain _ _ l₂
    simpa only [len_cons, len_nil, Nat.add_zero, Nat.add_assoc] using htail

end

/-! ### Headers that stay -/

/-- A header at `y` would lie below the heap at `p`, or in the payload of a block in use. -/
def Shielded (p : ℕ) (L : List Block) (y : ℕ) : Prop :=
  y < p ∨ ∃ x ∈ inUse p L, x.1 < y ∧ y < x.1 + metaSize + x.2

/-- No header is written below the heap, or into the payload of a block in use. -/
def Kept (p : ℕ) (L : List Block) (h h' : Heap) : Prop := ∀ y, Shielded p L y → h'.mem y = h.mem y

section

variable {p y : ℕ} {b : Block} {c : BlockMeta} {l l₂ L L' : List Block} {h h' h'' : Heap}

theorem Kept.refl : Kept p L h h := fun _ _ => rfl

/-- The blocks in use at first are still in use. -/
theorem Kept.trans (hk : Kept p L h h') (hk' : Kept p L' h' h'')
    (hsub : ∀ x ∈ inUse p L, x ∈ inUse p L') : Kept p L h h'' := by
  intro y hy
  have hy' : Shielded p L' y := hy.imp_right fun ⟨x, hx, hin⟩ => ⟨x, hsub x hx, hin⟩
  exact (hk' y hy').trans (hk y hy)

/-- Fewer blocks in use ask for less. -/
theorem Kept.mono (hk : Kept p L h h') (hsub : ∀ x ∈ inUse p L', x ∈ inUse p L) : Kept p L' h h' :=
  fun y hy => hk y (hy.imp_right fun ⟨x, hx, hin⟩ => ⟨x, hsub x hx, hin⟩)

theorem Kept.of_inUse (hk : Kept p L h h') (hu : inUse p L' = inUse p L) : Kept p L' h h' :=
  hk.mono fun _ hx => hu ▸ hx

theorem Kept.write (hk : Kept p L h h') (hy : ¬Shielded p L y) : Kept p L h (h'.write y c) := by
  intro z hz
  have hne : z ≠ y := by
    rintro rfl
    exact hy hz
  exact (Heap.write_ne hne).trans (hk z hz)

/-- What starts a block is not shielded. -/
theorem not_shielded_start : ¬Shielded p (l ++ l₂) (p + len l) := by
  rintro (hlt | ⟨x, hx, h1, h2⟩)
  · omega
  · rw [inUse_append] at hx
    rcases List.mem_append.mp hx with hx | hx
    · have := (mem_inUse_bounds hx).2
      omega
    · have := (mem_inUse_bounds hx).1
      omega

/-- Nothing in a free block is shielded. -/
theorem not_shielded_free (hb : b.free = true) (h1 : p + len l ≤ y)
    (h2 : y < p + len l + metaSize + b.size) :
    ¬Shielded p (l ++ b :: l₂) y := by
  rintro (hlt | ⟨x, hx, hx1, hx2⟩)
  · omega
  · rw [inUse_append, inUse_free hb] at hx
    rcases List.mem_append.mp hx with hx | hx
    · have := (mem_inUse_bounds hx).2
      omega
    · have := (mem_inUse_bounds hx).1
      omega

end

end Cosiris.Libc
