import Cosiris.Cofs.ReadWrite

/-!
# Truncating a file

`cofs_truncate` frees the blocks of a file from a given length on, and the indirect
blocks that have become empty. It visits the file blocks up to and including block
`size / BLOCK_SIZE`. When the size is a multiple of the block size that last block is
not part of the file: among the direct blocks it is seen to be missing, but beyond
them the loop takes address `0` for that of an indirect block, and goes on to free
block `0`.
-/

namespace Cosiris.Cofs

open Function Prog

variable {X : ℕ → Prop}

/-- `scan_block`: the number of entries of an indirect block that are in use. -/
def scanBlock (blockno : ℕ) : Prog Halt Dev ℕ := do
  let buf ← getHdBuf blockno
  putHdBuf blockno
  return (List.range 128).countP fun k => decide (word buf k ≠ 0)

/-- Free the block in entry `j` of the node's array. -/
def freeAddr (j : ℕ) : Prog Halt Open Unit := do
  let o ← read
  onDev (blockFree (o.node.addrs j))
  setNode fun node => node.withAddrs (update node.addrs j 0)

/-- Clear entry `k` of the indirect block `b` and free the block it listed. -/
def freeEntry (b k : ℕ) : Prog Halt Dev Unit := do
  let buf ← getHdBuf b
  let addr := word buf k
  setBuf b (setWord buf k 0)
  blockFree addr
  putHdBuf b

/-- Clear entry `k` of an indirect block. -/
def clearEntry (b k : ℕ) : Prog Halt Dev Unit := do
  let buf ← getHdBuf b
  setBuf b (setWord buf k 0)
  putHdBuf b

/-- The body of the loop of `cofs_truncate`. -/
def truncateBlock (fbn : ℕ) : Prog Halt Open Unit := do
  let o ← read
  if fbn < 6 then
    if o.node.addrs fbn ≠ 0 then freeAddr fbn
  else if fbn < 134 then do
    onDev (freeEntry (o.node.addrs 6) (fbn - 6))
    let n ← onDev (scanBlock (o.node.addrs 6))
    if n = 0 then freeAddr 6
  else if fbn < 16518 then do
    let midx := (fbn - 134) / 128
    let sidx := (fbn - 134) % 128
    let buf ← onDev (getHdBuf (o.node.addrs 7))
    let mblk := word buf midx
    onDev (putHdBuf (o.node.addrs 7))
    onDev (freeEntry mblk sidx)
    let n ← onDev (scanBlock mblk)
    if n = 0 then
      onDev (blockFree mblk)
      onDev (clearEntry (o.node.addrs 7) midx)
    let n ← onDev (scanBlock (o.node.addrs 7))
    if n = 0 then freeAddr 7

/-- The loop of `cofs_truncate`: `n` file blocks from `fbn`. -/
def truncateLoop : ℕ → ℕ → Prog Halt Open Unit
  | 0, _ => pure ()
  | n + 1, fbn => do
    truncateBlock fbn
    truncateLoop n (fbn + 1)

/-- `cofs_truncate`. -/
def cofsTruncate (length : ℕ) : Prog Halt Open ℕ := do
  let o ← read
  kassert "length <= node->size" (length ≤ o.node.size)
  kassert "length % BLOCK_SIZE == 0" (length % 512 = 0)
  let fbs := length / 512
  let fbe := o.node.size / 512 + 1
  truncateLoop (fbe - fbs) fbs
  setNode fun node => { node with size := length }
  let o ← read
  onDev (cofsUpdateNode o.node)
  return length

/-! ### The calls of `block_free` -/

/-- Every call of `block_free` from `d` to `d'` was given a block of data that was in use. -/
def Logged (d d' : Dev) : Prop :=
  ∃ l, d'.freed = l ++ d.freed ∧ ∀ e ∈ l, d.superb.dataStart ≤ e.1 ∧ e.2 = true

theorem Logged.refl (d : Dev) : Logged d d := ⟨[], rfl, by simp⟩

theorem Logged.of_eq {d d' : Dev} (h : d'.freed = d.freed) : Logged d d' := ⟨[], h, by simp⟩

theorem Logged.trans {d d₁ d₂ : Dev} (hs : d₁.superb = d.superb) (h : Logged d d₁)
    (h' : Logged d₁ d₂) :
    Logged d d₂ := by
  obtain ⟨l, hl, hok⟩ := h
  obtain ⟨l', hl', hok'⟩ := h'
  refine ⟨l' ++ l, by rw [hl', hl, List.append_assoc], fun e he => ?_⟩
  rcases List.mem_append.mp he with he | he
  · have := hok' e he
    rwa [hs] at this
  · exact hok e he

/-! ### Freeing one block -/

theorem scanBlock_spec {d : Dev} {b : ℕ} (hh : d.held = []) {Q : ℕ → Dev → Prop}
    {E : Halt → Dev → Prop}
    (h : ∀ n, (n = 0 ↔ ∀ k, k < 128 → word (d.disk b) k = 0) → Q n d) : wp (scanBlock b) Q E d := by
  simp only [scanBlock, wp_bind, wp_getHdBuf, wp_putHdBuf, wp_pure, hh, List.not_mem_nil, if_false,
    List.erase_cons_head]
  have hd : (⟨d.superb, d.disk, [], d.freed⟩ : Dev) = d := by rw [← hh]
  rw [hd]
  refine h _ ?_
  rw [List.countP_eq_zero]
  simp [List.mem_range]

section

variable {d : Dev} {A : ℕ → ℕ → ℕ} {i : ℕ} {p q : Place}

/-- The bitmap block of a block in use is not the buffer of a block of data. -/
theorem Sound.bitmapBlock_not_held (h : Sound X d A) (hp : addrAt d.disk (A i) p ≠ 0) {l : List ℕ}
    (hl : ∀ b ∈ l, ∃ q, addrAt d.disk (A i) q ≠ 0 ∧ b = addrAt d.disk (A i) q) :
    d.superb.bitmapBlock (addrAt d.disk (A i) p) ∉ l := by
  intro hmem
  obtain ⟨q, hq, e⟩ := hl _ hmem
  exact h.not_inBitmap hq (e ▸ Superblock.inBitmap_bitmapBlock (h.lt_numBits hp))

theorem freeAddr_spec {o : Open} (h : Sound X o.dev A) (hA : A i = o.node.addrs)
    (hh : o.dev.held = []) {j : Fin 8} (hp : o.node.addrs j ≠ 0)
    (hchild : ∀ q, q.parent = some (.top j) → addrAt o.dev.disk o.node.addrs q = 0) :
    wp (freeAddr j) (fun _ o' => o'.node = o.node.withAddrs o'.node.addrs ∧
        Shrink X o.dev A i o'.dev (update A i o'.node.addrs) ∧ Logged o.dev o'.dev ∧
        addrAt o'.dev.disk o'.node.addrs = update (addrAt o.dev.disk o.node.addrs) (.top j) 0)
      (fun _ _ => False) o := by
  rw [← hA] at hchild
  have hp' : addrAt o.dev.disk (A i) (.top j) ≠ 0 := by rw [hA]; exact hp
  have hnot := h.bitmapBlock_not_held hp' (l := o.dev.held) (by simp [hh])
  have hbits := h.lt_numBits hp'
  have haddr : addrAt o.dev.disk (A i) (.top j) = o.node.addrs j := by rw [hA]; rfl
  rw [haddr] at hnot hbits
  simp only [freeAddr, wp_bind, wp_read, wp_onDev, wp_setNode]
  refine (blockFree_spec hnot hbits).mono (fun _ d' hr => ?_) fun e d' hf => ?_
  · obtain ⟨hu, hr⟩ := hr
    have hge := h.dataStart_le hp'
    rw [haddr] at hge
    obtain ⟨hs, hown⟩ := h.release d' (update (A i) j 0) hp' hchild rfl hr.superb hr.held
      (by rw [haddr]; exact hr.used) fun c hc _ => hr.same c hc
    rw [hA] at hs hown
    exact ⟨rfl, hs, ⟨[(_, true)], hr.freed, by simpa using hge⟩, hown⟩
  · have := h.used hp'
    rw [haddr, hf.1] at this
    cases this

theorem freeEntry_spec (h : Sound X d A) (hh : d.held = []) (hq : p.parent = some q)
    (hp : addrAt d.disk (A i) p ≠ 0)
    (hl : p.Leaf) :
    wp (freeEntry (addrAt d.disk (A i) q) p.idx) (fun _ d' => Shrink X d A i d' A ∧ Logged d d' ∧
        addrAt d'.disk (A i) = update (addrAt d.disk (A i)) p 0)
      (fun _ _ => False) d := by
  have hq0 := addrAt_parent_ne_zero hq hp
  have hword : word (d.disk (addrAt d.disk (A i) q)) p.idx = addrAt d.disk (A i) p := by
    rw [addrAt_of_parent_some hq, entry_of_ne hq0]
  simp only [freeEntry, wp_bind, wp_getHdBuf, wp_setBuf, wp_putHdBuf, hh,
    List.not_mem_nil, if_false, hword]
  have hnot : d.superb.bitmapBlock (addrAt d.disk (A i) p) ∉ [addrAt d.disk (A i) q] :=
    h.bitmapBlock_not_held hp fun b hb => ⟨q, hq0, List.mem_singleton.mp hb⟩
  generalize hd₁ : (⟨d.superb, update d.disk (addrAt d.disk (A i) q)
    (setWord (d.disk (addrAt d.disk (A i) q)) p.idx 0), [addrAt d.disk (A i) q],
    d.freed⟩ : Dev) = d₁
  have hs₁ : d₁.superb = d.superb := by rw [← hd₁]
  have hbits₁ : ∀ c, c < d.superb.numBits → d₁.used c = d.used c := by
    intro c hc
    rw [← hd₁]
    exact used_update_of_not_inBitmap _ _ _ (h.not_inBitmap hq0) hc
  refine (blockFree_spec (d := d₁) (by rw [hs₁, ← hd₁]; exact hnot)
    (by rw [hs₁]; exact h.lt_numBits hp)).mono
    (fun _ d' hr => ?_) fun e d' hf => ?_
  · obtain ⟨hu, hr⟩ := hr
    have hheld : d'.held = [addrAt d.disk (A i) q] := by rw [hr.held, ← hd₁]
    have hsame : ∀ c, ¬ d.superb.InBitmap c → d'.disk c = d₁.disk c := by
      intro c hc
      exact hr.same c (by rwa [hs₁])
    have hrel := h.release (p := p) ⟨d'.superb, d'.disk, [], d'.freed⟩ (A i) hp
      (by
        intro r hr
        exact absurd hl (Place.not_leaf_of_parent hr))
      (by
        unfold Place.Written
        rw [hq]
        refine ⟨rfl, hq0, ?_⟩
        dsimp only
        rw [hsame _ (h.not_inBitmap hq0), ← hd₁]
        dsimp only
        rw [update_self])
      (hr.superb.trans hs₁) hh.symm
      (by
        intro c hc
        have := hr.used c (by rwa [hs₁])
        rw [hbits₁ c hc] at this
        exact this)
      (by
        intro c hc hne
        dsimp only
        rw [hsame c hc, ← hd₁]
        dsimp only
        rw [update_of_ne (hne q hq)])
    obtain ⟨hs, hown⟩ := hrel
    rw [update_eq_self] at hs
    rw [hheld]
    simp only [List.erase_cons_head]
    have hge := h.dataStart_le hp
    refine ⟨hs, ⟨[(_, true)], ?_, by simpa using hge⟩, hown⟩
    rw [hr.freed, ← hd₁]
    rfl
  · have := h.used hp
    rw [← hbits₁ _ (h.lt_numBits hp), hf.1] at this
    cases this

/-- The block of a place in an indirect block is freed and its entry cleared. -/
theorem freeMid_spec (h : Sound X d A) (hh : d.held = []) (hq : p.parent = some q)
    (hp : addrAt d.disk (A i) p ≠ 0)
    (hchild : ∀ r, r.parent = some p → addrAt d.disk (A i) r = 0) :
    wp (do blockFree (addrAt d.disk (A i) p); clearEntry (addrAt d.disk (A i) q) p.idx)
      (fun _ d' => Shrink X d A i d' A ∧ Logged d d' ∧
        addrAt d'.disk (A i) = update (addrAt d.disk (A i)) p 0)
      (fun _ _ => False) d := by
  have hq0 := addrAt_parent_ne_zero hq hp
  rw [wp_bind]
  refine (blockFree_spec (h.bitmapBlock_not_held hp (by simp [hh])) (h.lt_numBits hp)).mono
    (fun _ d₁ hr => ?_) fun e d' hf => ?_
  · obtain ⟨hu, hr⟩ := hr
    have hheld : d₁.held = [] := hr.held.trans hh
    simp only [clearEntry, wp_bind, wp_getHdBuf, wp_setBuf, wp_putHdBuf, hheld, List.not_mem_nil,
      if_false, List.erase_cons_head]
    have hrel := h.release (p := p) ⟨d₁.superb, update d₁.disk (addrAt d.disk (A i) q)
        (setWord (d₁.disk (addrAt d.disk (A i) q)) p.idx 0), [], d₁.freed⟩ (A i) hp hchild
      (by
        unfold Place.Written
        rw [hq]
        refine ⟨rfl, hq0, ?_⟩
        dsimp only
        rw [update_self, hr.same _ (h.not_inBitmap hq0)])
      hr.superb hh.symm
      (by
        intro c hc
        rw [← hr.used c hc]
        exact used_update_of_not_inBitmap _ _ _ (by rw [hr.superb]; exact h.not_inBitmap hq0)
          (by rwa [hr.superb]))
      (by
        intro c hc hne
        dsimp only
        rw [update_of_ne (hne q hq), hr.same c hc])
    obtain ⟨hs, hown⟩ := hrel
    rw [update_eq_self] at hs
    have hge := h.dataStart_le hp
    exact ⟨hs, ⟨[(_, true)], hr.freed, by simpa using hge⟩, hown⟩
  · have := h.used hp
    rw [hf.1] at this
    cases this

end

/-! ### The loop -/

/-- Every indirect block lists a block, but perhaps that of place `x`. -/
def TightBut (a : Place → ℕ) (x : Option Place) : Prop :=
  ∀ p : Place, ¬ p.Leaf → x ≠ some p → a p ≠ 0 → ∃ q, q.parent = some p ∧ a q ≠ 0

/-- Every indirect block of the file lists a block. -/
def Tight (disk : ℕ → Block) (addrs : ℕ → ℕ) : Prop := TightBut (addrAt disk addrs) none

theorem TightBut.weaken {a : Place → ℕ} (h : TightBut a none) (x : Option Place) : TightBut a x :=
  fun p hp _ => h p hp (by simp)

/-- A place gives up its block: only the block that lists it may have become empty. -/
theorem TightBut.drop {a : Place → ℕ} {p : Place} (h : TightBut a (some p)) :
    TightBut (update a p 0) p.parent := by
  intro r hr hx h0
  have hrp : r ≠ p := by
    rintro rfl
    rw [update_self] at h0
    exact h0 rfl
  rw [update_of_ne hrp] at h0
  obtain ⟨q, hq, hq0⟩ := h r hr (by simpa using hrp.symm) h0
  have hqp : q ≠ p := by
    rintro rfl
    exact hx hq
  exact ⟨q, hq, by rwa [update_of_ne hqp]⟩

/-- An indirect block that lists a block is no exception. -/
theorem TightBut.settle {a : Place → ℕ} {p q : Place} (h : TightBut a (some p))
    (hq : q.parent = some p) (hq0 : a q ≠ 0) : TightBut a none := by
  intro r hr _ h0
  by_cases hrp : p = r
  · exact ⟨q, hrp ▸ hq, hq0⟩
  · exact h r hr (by simpa using hrp) h0

theorem Place.exists_child {p : Place} (hp : ¬ p.Leaf) {k : ℕ} (hk : k < 128) :
    ∃ q : Place, q.parent = some p ∧ q.idx = k := by
  cases p with
  | top j =>
    have := j.isLt
    simp only [Leaf] at hp
    rcases (by omega : (j : ℕ) = 6 ∨ (j : ℕ) = 7) with hj | hj
    · obtain rfl : j = 6 := Fin.ext hj
      exact ⟨.one ⟨k, hk⟩, rfl, rfl⟩
    · obtain rfl : j = 7 := Fin.ext hj
      exact ⟨.mid ⟨k, hk⟩, rfl, rfl⟩
  | one k => exact absurd trivial hp
  | mid m => exact ⟨.two m ⟨k, hk⟩, rfl, rfl⟩
  | two m k => exact absurd trivial hp

theorem Place.idx_lt_of_parent {p q : Place} (h : p.parent = some q) : p.idx < 128 := by
  cases p with
  | top j => simp [parent] at h
  | one k => exact k.isLt
  | mid m => exact m.isLt
  | two m k => exact k.isLt

/-- An indirect block whose entries are all clear lists no block. -/
theorem words_zero_iff {disk : ℕ → Block} {addrs : ℕ → ℕ} {p : Place} (hp : ¬ p.Leaf)
    (h0 : addrAt disk addrs p ≠ 0) :
    (∀ k, k < 128 → word (disk (addrAt disk addrs p)) k = 0) ↔ ∀ q, q.parent = some p →
      addrAt disk addrs q = 0 := by
  constructor
  · intro h q hq
    rw [addrAt_of_parent_some hq, entry_of_ne h0]
    exact h _ (Place.idx_lt_of_parent hq)
  · intro h k hk
    obtain ⟨q, hq, rfl⟩ := Place.exists_child hp hk
    have := h q hq
    rwa [addrAt_of_parent_some hq, entry_of_ne h0] at this

/-- From `o` to `o'` the file has given up its blocks from `fbn` to `fbn + n`. -/
structure Cut (X : ℕ → Prop) (A : ℕ → ℕ → ℕ) (i fbn n : ℕ) (o o' : Open) : Prop where
  node : o'.node = o.node.withAddrs o'.node.addrs
  shrink : Shrink X o.dev A i o'.dev (update A i o'.node.addrs)
  logged : Logged o.dev o'.dev
  tight : Tight o'.dev.disk o'.node.addrs
  leaves : ∀ f, f < 16518 → addrAt o'.dev.disk o'.node.addrs (Place.leafOf f) =
    if fbn ≤ f ∧ f < fbn + n then 0 else addrAt o.dev.disk o.node.addrs (Place.leafOf f)

section

variable {o o₁ o₂ : Open} {A : ℕ → ℕ → ℕ} {i fbn n : ℕ}

theorem Cut.refl (h : Sound X o.dev A) (hA : A i = o.node.addrs)
    (ht : Tight o.dev.disk o.node.addrs) :
    Cut X A i fbn 0 o o where
  node := rfl
  shrink := by
    rw [← hA, update_eq_self]
    exact .refl h i
  logged := .refl _
  tight := ht
  leaves := fun f _ => by rw [if_neg (by omega)]

theorem Cut.succ (h : Cut X A i fbn 1 o o₁)
    (h' : Cut X (update A i o₁.node.addrs) i (fbn + 1) n o₁ o₂) :
    Cut X A i fbn (n + 1) o o₂ where
  node := by
    rw [h'.node, h.node]
    rfl
  shrink := by
    have := h.shrink.trans h'.shrink
    rwa [update_idem] at this
  logged := h.logged.trans h.shrink.superb h'.logged
  tight := h'.tight
  leaves := by
    intro f hf
    rw [h'.leaves f hf, h.leaves f hf]
    split_ifs <;> first | rfl | omega

/-- A direct block is given up. -/
theorem truncateBlock_direct (h : Sound X o.dev A) (hA : A i = o.node.addrs) (hh : o.dev.held = [])
    (ht : Tight o.dev.disk o.node.addrs) (hf : fbn < 6) :
    wp (truncateBlock fbn) (fun _ o' => Cut X A i fbn 1 o o') (fun _ _ => False) o := by
  simp only [truncateBlock, wp_bind, wp_read]
  rw [if_pos hf, wp_ite]
  have hleaf : ∀ f, f < 16518 → (Place.leafOf f = .top ⟨fbn, by omega⟩ ↔ f = fbn) := by
    intro f hlt
    have hc := Place.covers_leafOf (f := fbn) (by omega)
    have hto : Place.leafOf fbn = .top ⟨fbn, by omega⟩ :=
      (Place.eq_leafOf_of_covers (p := .top ⟨fbn, by omega⟩) hf (.inl ⟨hf, rfl⟩)).symm
    rw [← hto]
    exact ⟨fun e => leafOf_inj hlt (by omega) e, fun e => by rw [e]⟩
  split_ifs with h0
  · refine (freeAddr_spec (j := ⟨fbn, by omega⟩) h hA hh h0 ?_).mono
      (fun _ o' hr => ?_) fun _ _ he => he
    · intro q hq
      exact absurd (show (Place.top ⟨fbn, by omega⟩).Leaf from hf) (Place.not_leaf_of_parent hq)
    · obtain ⟨hnode, hs, hlog, hown⟩ := hr
      refine ⟨hnode, hs, hlog, ?_, fun f hlt => ?_⟩
      · unfold Tight
        rw [hown]
        exact (ht.weaken _).drop
      · rw [hown]
        by_cases hff : f = fbn
        · rw [if_pos (by omega), (hleaf f hlt).mpr hff, update_self]
        · rw [if_neg (by omega), update_of_ne fun e => hff ((hleaf f hlt).mp e)]
  · rw [not_not] at h0
    have hcut : Cut X A i fbn 0 o o := .refl h hA ht
    refine ⟨hcut.node, hcut.shrink, hcut.logged, ht, fun f hlt => ?_⟩
    by_cases hff : f = fbn
    · rw [if_pos (by omega), (hleaf f hlt).mpr hff]
      exact h0
    · rw [if_neg (by omega)]

/-- The places of the file blocks after those of `fbn` and of some indirect blocks are cleared. -/
theorem leaves_update {a : Place → ℕ} (hf : fbn < 16518) {p : Place}
    (hp : p = Place.leafOf fbn) {f : ℕ} (hlt : f < 16518) :
    update a p 0 (Place.leafOf f) = if fbn ≤ f ∧ f < fbn + 1 then 0 else a (Place.leafOf f) := by
  subst hp
  by_cases hff : f = fbn
  · rw [if_pos (by omega), hff, update_self]
  · rw [if_neg (by omega), update_of_ne fun e => hff (leafOf_inj hlt hf e)]

theorem leafOf_ne_of_not_leaf {p : Place} (hp : ¬ p.Leaf) (f : ℕ) : Place.leafOf f ≠ p := by
  rintro rfl
  exact hp Place.leaf_leafOf

/-- A block listed by the single indirect block is given up. -/
theorem truncateBlock_sind (h : Sound X o.dev A) (hA : A i = o.node.addrs) (hh : o.dev.held = [])
    (ht : Tight o.dev.disk o.node.addrs) (h6 : ¬ fbn < 6) (hf : fbn < 134)
    (hp : addrAt o.dev.disk o.node.addrs (Place.leafOf fbn) ≠ 0) :
    wp (truncateBlock fbn) (fun _ o' => Cut X A i fbn 1 o o') (fun _ _ => False) o := by
  simp only [truncateBlock, wp_bind, wp_read]
  rw [if_neg h6, if_pos hf]
  have hleaf : Place.leafOf fbn = .one ⟨fbn - 6, by omega⟩ :=
    (Place.eq_leafOf_of_covers (p := .one ⟨fbn - 6, by omega⟩) trivial
      (by simp only [Place.Covers]; omega)).symm
  rw [hleaf, ← hA] at hp
  have hq := addrAt_parent_ne_zero (p := .one _) rfl hp
  have e6 : addrAt o.dev.disk (A i) (.top 6) = o.node.addrs 6 := by rw [hA]; rfl
  rw [wp_bind, wp_onDev]
  have hfree := freeEntry_spec h hh (p := .one ⟨fbn - 6, by omega⟩) rfl hp trivial
  rw [e6] at hfree
  refine hfree.mono (fun _ d₁ hr => ?_) fun _ _ he => he
  obtain ⟨hs, hlog, hown⟩ := hr
  have hq₁ : addrAt d₁.disk (A i) (.top 6) ≠ 0 := by
    rw [hown, update_of_ne (by simp)]
    exact hq
  have e6₁ : addrAt d₁.disk (A i) (.top 6) = o.node.addrs 6 := by rw [hA]; rfl
  have ht₁ : TightBut (addrAt d₁.disk (A i)) (some (.top 6)) := by
    rw [hown, hA]
    exact (ht.weaken (some (.one _))).drop
  rw [wp_bind, wp_onDev]
  refine scanBlock_spec (hs.held.trans hh) fun n hn => ?_
  rw [← e6₁, words_zero_iff (by simp [Place.Leaf]) hq₁] at hn
  rw [wp_ite]
  split_ifs with hn0
  · have h60 : o.node.addrs 6 ≠ 0 := by rwa [← e6₁]
    refine (freeAddr_spec (o := ⟨d₁, o.node⟩) (j := 6) hs.sound hA (hs.held.trans hh) h60
      (by rw [← hA]; exact hn.mp hn0)).mono (fun _ o' hr => ?_) fun _ _ he => he
    obtain ⟨hnode, hs', hlog', hown'⟩ := hr
    dsimp only at *
    rw [← hA] at hown'
    refine ⟨hnode, hs.trans hs', hlog.trans hs.superb hlog', ?_, fun f hlt => ?_⟩
    · unfold Tight
      rw [hown']
      exact ht₁.drop
    · rw [hown', update_of_ne (leafOf_ne_of_not_leaf (by simp [Place.Leaf]) f), hown, ← hA]
      exact leaves_update (by omega) hleaf.symm hlt
  · rw [hn] at hn0
    simp only [not_forall] at hn0
    obtain ⟨q, hq, hq0⟩ := hn0
    refine ⟨rfl, by rw [← hA, update_eq_self]; exact hs, hlog, ?_, fun f hlt => ?_⟩
    · unfold Tight
      dsimp only
      rw [← hA]
      exact ht₁.settle hq hq0
    · dsimp only
      rw [← hA, hown]
      exact leaves_update (by omega) hleaf.symm hlt

/-- A block listed through the double indirect block is given up. -/
theorem truncateBlock_dind (h : Sound X o.dev A) (hA : A i = o.node.addrs) (hh : o.dev.held = [])
    (ht : Tight o.dev.disk o.node.addrs) (h134 : ¬ fbn < 134) (hf : fbn < 16518)
    (hp : addrAt o.dev.disk o.node.addrs (Place.leafOf fbn) ≠ 0) :
    wp (truncateBlock fbn) (fun _ o' => Cut X A i fbn 1 o o') (fun _ _ => False) o := by
  simp only [truncateBlock, wp_bind, wp_read]
  rw [if_neg (by omega), if_neg h134, if_pos hf]
  generalize hm : (⟨(fbn - 134) / 128, by omega⟩ : Fin 128) = m
  generalize hk : (⟨(fbn - 134) % 128, by omega⟩ : Fin 128) = k
  have hmv : (fbn - 134) / 128 = m := by rw [← hm]
  have hkv : (fbn - 134) % 128 = k := by rw [← hk]
  have hleaf : Place.leafOf fbn = .two m k :=
    (Place.eq_leafOf_of_covers (p := .two m k) trivial (by simp only [Place.Covers]; omega)).symm
  rw [hleaf, ← hA] at hp
  have hmid := addrAt_parent_ne_zero (p := .two m k) rfl hp
  have htop := addrAt_parent_ne_zero (p := .mid m) rfl hmid
  have e7 : ∀ disk, addrAt disk (A i) (.top 7) = o.node.addrs 7 := fun disk => by rw [hA]; rfl
  have h70 : o.node.addrs 7 ≠ 0 := by rwa [e7] at htop
  have hword : word (o.dev.disk (o.node.addrs 7)) m = addrAt o.dev.disk (A i) (.mid m) := by
    rw [addrAt_of_parent_some (p := .mid m) rfl, e7, entry_of_ne h70]
    rfl
  rw [hmv, hkv]
  simp only [wp_bind, wp_onDev, wp_getHdBuf, wp_putHdBuf, hh, List.not_mem_nil, if_false,
    List.erase_cons_head, hword]
  have hd : (⟨o.dev.superb, o.dev.disk, [], o.dev.freed⟩ : Dev) = o.dev := by rw [← hh]
  rw [hd]
  refine (freeEntry_spec h hh (p := .two m k) rfl hp trivial).mono (fun _ d₁ hr => ?_)
    fun _ _ he => he
  obtain ⟨hs, hlog, hown⟩ := hr
  have hmid₁ : addrAt d₁.disk (A i) (.mid m) = addrAt o.dev.disk (A i) (.mid m) := by
    rw [hown, update_of_ne (by simp)]
  have ht₁ : TightBut (addrAt d₁.disk (A i)) (some (.mid m)) := by
    rw [hown, hA]
    exact (ht.weaken (some (.two m k))).drop
  refine scanBlock_spec (hs.held.trans hh) fun n hn => ?_
  rw [← hmid₁, words_zero_iff (by simp [Place.Leaf]) (by rwa [hmid₁])] at hn
  -- what the two ways through the test of the middle block have in common
  have hlast : ∀ d₂, Shrink X o.dev A i d₂ A → Logged o.dev d₂ →
    TightBut (addrAt d₂.disk (A i)) (some (.top 7)) →
      (∀ f, addrAt d₂.disk (A i) (Place.leafOf f) = addrAt d₁.disk (A i) (Place.leafOf f)) →
      wp (scanBlock (o.node.addrs 7)) (fun n d => wp (if n = 0 then freeAddr 7 else pure ())
        (fun _ o' => Cut X A i fbn 1 o o') (fun _ _ => False) ⟨d, o.node⟩)
          (fun _ _ => False) d₂ := by
    intro d₂ hs₂ hlog₂ ht₂ hsame
    have h7 : addrAt d₂.disk (A i) (.top 7) ≠ 0 := by rwa [e7]
    refine scanBlock_spec (hs₂.held.trans hh) fun n hn => ?_
    rw [← e7 d₂.disk, words_zero_iff (by simp [Place.Leaf]) h7] at hn
    rw [wp_ite]
    split_ifs with hn0
    · refine (freeAddr_spec (o := ⟨d₂, o.node⟩) (j := 7) hs₂.sound hA (hs₂.held.trans hh) h70
        (by rw [← hA]; exact hn.mp hn0)).mono (fun _ o' hr => ?_) fun _ _ he => he
      obtain ⟨hnode, hs', hlog', hown'⟩ := hr
      dsimp only at *
      rw [← hA] at hown'
      refine ⟨hnode, hs₂.trans hs', hlog₂.trans hs₂.superb hlog', ?_, fun f hlt => ?_⟩
      · unfold Tight
        rw [hown']
        exact ht₂.drop
      · rw [hown', update_of_ne (leafOf_ne_of_not_leaf (by simp [Place.Leaf]) f), hsame, hown, ← hA]
        exact leaves_update (by omega) hleaf.symm hlt
    · rw [hn] at hn0
      simp only [not_forall] at hn0
      obtain ⟨q, hq, hq0⟩ := hn0
      refine ⟨rfl, by rw [← hA, update_eq_self]; exact hs₂, hlog₂, ?_, fun f hlt => ?_⟩
      · unfold Tight
        dsimp only
        rw [← hA]
        exact ht₂.settle hq hq0
      · dsimp only
        rw [← hA, hsame, hown]
        exact leaves_update (by omega) hleaf.symm hlt
  rw [wp_ite]
  split_ifs with hn0
  · have hfree :=
      freeMid_spec hs.sound (hs.held.trans hh) (p := .mid m) rfl (by rwa [hmid₁]) (hn.mp hn0)
    rw [wp_bind, hmid₁, e7] at hfree
    simp only [wp_bind, wp_onDev]
    refine hfree.mono (fun _ d₁' hc => hc.mono (fun _ d₂ hr => ?_) fun _ _ he => he)
      fun _ _ he => he
    obtain ⟨hs₂, hlog₂, hown₂⟩ := hr
    refine hlast d₂ (hs.trans hs₂) (hlog.trans hs.superb hlog₂) ?_ fun f => ?_
    · rw [hown₂]
      exact ht₁.drop
    · rw [hown₂, update_of_ne (leafOf_ne_of_not_leaf (by simp [Place.Leaf]) f)]
  · rw [hn] at hn0
    simp only [not_forall] at hn0
    obtain ⟨q, hq, hq0⟩ := hn0
    rw [wp_bind, wp_onDev]
    exact hlast d₁ hs hlog ((ht₁.settle hq hq0).weaken _) fun _ => rfl

/-- **One round of the loop of `cofs_truncate` gives up one block.** -/
theorem truncateBlock_spec (h : Sound X o.dev A) (hA : A i = o.node.addrs) (hh : o.dev.held = [])
    (ht : Tight o.dev.disk o.node.addrs) (hf : fbn < 16518)
    (hp : fbn < 6 ∨ addrAt o.dev.disk o.node.addrs (Place.leafOf fbn) ≠ 0) :
    wp (truncateBlock fbn) (fun _ o' => Cut X A i fbn 1 o o') (fun _ _ => False) o := by
  by_cases h6 : fbn < 6
  · exact truncateBlock_direct h hA hh ht h6
  · have hp := hp.resolve_left h6
    by_cases h134 : fbn < 134
    · exact truncateBlock_sind h hA hh ht h6 h134 hp
    · exact truncateBlock_dind h hA hh ht h134 hf hp

theorem truncateLoop_spec (h : Sound X o.dev A) (hA : A i = o.node.addrs) (hh : o.dev.held = [])
    (ht : Tight o.dev.disk o.node.addrs) (hn : fbn + n ≤ 16518)
    (hp : ∀ f, fbn ≤ f → f < fbn + n →
      f < 6 ∨ addrAt o.dev.disk o.node.addrs (Place.leafOf f) ≠ 0) :
    wp (truncateLoop n fbn) (fun _ o' => Cut X A i fbn n o o') (fun _ _ => False) o := by
  induction n generalizing o A fbn with
  | zero => exact Cut.refl h hA ht
  | succ n ih =>
    rw [truncateLoop, wp_bind]
    refine (truncateBlock_spec h hA hh ht (by omega) (hp fbn (by omega) (by omega))).mono
      (fun _ o₁ hc => ?_)
      fun _ _ he => he
    refine (ih hc.shrink.sound (update_self _ _ _) (hc.shrink.held.trans hh) hc.tight
      (by omega) fun f h1 h2 => ?_).mono
      (fun _ o₂ hc' => hc.succ hc') fun _ _ he => he
    rw [hc.leaves f (by omega), if_neg (by omega)]
    exact hp f (by omega) (by omega)

end

/-! ### The shape of a file -/

/-- A file has the blocks that its size asks for, the indirect blocks that lead to them, and no
others. -/
structure Shaped (disk : ℕ → Block) (addrs : ℕ → ℕ) (size : ℕ) : Prop where
  le : size ≤ maxFileSize
  tight : Tight disk addrs
  leaves : ∀ f, f < 16518 → (addrAt disk addrs (Place.leafOf f) ≠ 0 ↔ f * 512 < size)

theorem Shaped.filled {disk : ℕ → Block} {addrs : ℕ → ℕ} {size : ℕ} (h : Shaped disk addrs size) :
    Filled disk addrs size := by
  have hs := h.le
  unfold maxFileSize at hs
  exact ⟨by omega, fun q hq => (h.leaves _ (by omega)).mpr (by omega)⟩

theorem Place.exists_leafOf {p : Place} (hp : p.Leaf) : ∃ f, f < 16518 ∧ p = leafOf f := by
  cases p with
  | top j => exact ⟨j, by have := j.isLt; omega, Place.eq_leafOf_of_covers hp (.inl ⟨hp, rfl⟩)⟩
  | one k => exact ⟨6 + k, by have := k.isLt; omega, Place.eq_leafOf_of_covers hp rfl⟩
  | mid m => exact hp.elim
  | two m k =>
      exact ⟨134 + 128 * m +
        k, by have := k.isLt; have := m.isLt; omega, Place.eq_leafOf_of_covers hp rfl⟩

/-- A file of size `0` has no blocks at all. -/
theorem Shaped.addrAt_eq_zero {disk : ℕ → Block} {addrs : ℕ → ℕ}
    (h : Shaped disk addrs 0) (p : Place) :
    addrAt disk addrs p = 0 := by
  have hleaf : ∀ p : Place, p.Leaf → addrAt disk addrs p = 0 := by
    intro p hp
    obtain ⟨f, hf, rfl⟩ := Place.exists_leafOf hp
    by_contra h0
    have := (h.leaves f hf).mp h0
    omega
  have hindex : ∀ p : Place, ¬ p.Leaf → (∀ q, q.parent = some p → addrAt disk addrs q = 0) →
      addrAt disk addrs p = 0 := by
    intro p hp hq
    by_contra h0
    obtain ⟨q, hqp, hq0⟩ := h.tight p hp (by simp) h0
    exact hq0 (hq q hqp)
  have hmid : ∀ m, addrAt disk addrs (.mid m) = 0 := by
    intro m
    refine hindex _ (by simp [Place.Leaf]) fun q hq => ?_
    cases q <;> simp [Place.parent] at hq
    exact hleaf _ trivial
  by_cases hp : p.Leaf
  · exact hleaf p hp
  · refine hindex p hp fun q hq => ?_
    cases q with
    | top j => simp [Place.parent] at hq
    | one k => exact hleaf _ trivial
    | mid m => exact hmid m
    | two m k => exact hleaf _ trivial

/-- An indirect block leads to a file block through one of its entries. -/
theorem Place.exists_child_covers {p : Place} {f : ℕ} (hp : ¬ p.Leaf) (h : p.Covers f) :
    ∃ q : Place, q.parent = some p ∧ q.Covers f := by
  cases p with
  | one k => exact absurd trivial hp
  | two m k => exact absurd trivial hp
  | mid m =>
    simp only [Covers] at h
    exact ⟨.two m ⟨f - 134 - 128 * m, by omega⟩, rfl, by simp only [Covers]; omega⟩
  | top j =>
    have := j.isLt
    simp only [Leaf] at hp
    simp only [Covers] at h
    rcases (by omega : (j : ℕ) = 6 ∨ (j : ℕ) = 7) with hj | hj
    · obtain rfl : j = 6 := Fin.ext hj
      exact ⟨.one ⟨f - 6, by omega⟩, rfl, by simp only [Covers]; omega⟩
    · obtain rfl : j = 7 := Fin.ext hj
      exact ⟨.mid ⟨(f - 134) / 128, by omega⟩, rfl, by simp only [Covers]; omega⟩

/-- **A write keeps the shape of the file.** -/
theorem Wrote.shaped {d d' : Dev} {A A' : ℕ → ℕ → ℕ} {i offset size : ℕ} {bs : List UInt8}
    (h : Wrote X d A i offset bs d' A') (hs : Shaped d.disk (A i) size) (ho : offset ≤ size)
    (hb : offset + bs.length ≤ maxFileSize) :
    Shaped d'.disk (A' i) (max size (offset + bs.length)) := by
  have hspan : ∀ p, Spans offset bs.length p → ∃ f, p.Covers f ∧
    addrAt d'.disk (A' i) (Place.leafOf f) ≠ 0 := by
    rintro p ⟨f, hc, hge, hlt⟩
    refine ⟨f, hc, ?_⟩
    have hf : f < 16518 := by unfold maxFileSize at hb; omega
    by_cases hin : f * 512 < size
    · have := (hs.leaves f hf).mpr hin
      rwa [h.keep _ this]
    · have := h.there (f * 512 - offset) (by omega)
      rwa [show (offset + (f * 512 - offset)) / 512 = f by omega] at this
  refine ⟨by have := hs.le; omega, fun p hp _ hp0 => ?_, fun f hf => ⟨fun h0 => ?_, fun hlt => ?_⟩⟩
  · rcases h.new p hp0 with h0 | hsp
    · obtain ⟨q, hq, hq0⟩ := hs.tight p hp (by simp) h0
      exact ⟨q, hq, by rwa [h.keep q hq0]⟩
    · obtain ⟨f, hc, hf⟩ := hspan p hsp
      obtain ⟨q, hq, hcq⟩ := Place.exists_child_covers hp hc
      exact ⟨q, hq, addrAt_ne_zero_of_covers hf hcq⟩
  · rcases h.new _ h0 with h0 | ⟨g, hc, hge, hlt⟩
    · have := (hs.leaves f hf).mp h0
      omega
    · have hg : g < 16518 := by unfold maxFileSize at hb; omega
      have hfg : f = g := leafOf_inj hf hg (Place.eq_leafOf_of_covers Place.leaf_leafOf hc)
      exact Nat.lt_of_lt_of_le (hfg ▸ hlt) (Nat.le_max_right _ _)
  · by_cases hin : f * 512 < size
    · have := (hs.leaves f hf).mpr hin
      rwa [h.keep _ this]
    · have := h.there (f * 512 - offset) (by omega)
      rwa [show (offset + (f * 512 - offset)) / 512 = f by omega] at this

/-- The other files keep their shape. -/
theorem Frame.shaped {d d' : Dev} {A A' : ℕ → ℕ → ℕ} {i j size : ℕ} (h : Frame X d A i d' A')
    (hj : j ≠ i)
    (hs : Shaped d.disk (A j) size) : Shaped d'.disk (A' j) size := by
  have e : addrAt d'.disk (A' j) = addrAt d.disk (A j) := by rw [h.table j hj, h.rest j hj]
  refine ⟨hs.le, ?_, fun f hf => ?_⟩
  · unfold Tight
    rw [e]
    exact hs.tight
  · rw [e]
    exact hs.leaves f hf

/-- The sizes for which the loop of `cofs_truncate` does not run past the end of the file into
the indirect blocks. -/
def TruncateOk (size : ℕ) : Prop := size % 512 ≠ 0 ∨ size / 512 < 6

instance (size : ℕ) : Decidable (TruncateOk size) := inferInstanceAs (Decidable (_ ∨ _))

/-- **`cofs_truncate` gives up the blocks past the new length**, keeps the others and writes the
record of the node. -/
theorem cofsTruncate_spec {o : Open} {A : ℕ → ℕ → ℕ} {i length : ℕ} (h : Sound X o.dev A)
    (hA : A i = o.node.addrs)
    (hi : o.node.inode = i) (hlt : i < o.dev.superb.numInodes) (hh : o.dev.held = [])
    (hs : Shaped o.dev.disk o.node.addrs o.node.size) (hle : length ≤ o.node.size)
    (hmod : length % 512 = 0)
    (hok : TruncateOk o.node.size) :
    wp (cofsTruncate length) (fun n o' => n = length ∧
        o'.node = { o.node with addrs := o'.node.addrs, size := length } ∧
        Frame X o.dev A i o'.dev (update A i o'.node.addrs) ∧ Logged o.dev o'.dev ∧
        (∀ k, 8 ≤ k → o'.node.addrs k = o.node.addrs k) ∧ Shaped o'.dev.disk o'.node.addrs length ∧
          o'.dev.inode i = o'.node.pack ∧
        contents o'.dev.disk o'.node.addrs length =
          (contents o.dev.disk o.node.addrs o.node.size).take length)
      (fun _ _ => False) o := by
  have hsize := hs.le
  unfold maxFileSize at hsize
  simp only [cofsTruncate, wp_bind, wp_read, kassert, decide_eq_true_eq, wp_ite, if_pos hle,
    if_pos hmod, wp_pure]
  refine (truncateLoop_spec h hA hh hs.tight (by omega) fun f h1 h2 => ?_).mono
    (fun _ o₁ hc => ?_) fun _ _ he => he
  · rw [hs.leaves f (by omega)]
    unfold TruncateOk at hok
    omega
  · have hino : o₁.node.inode = i := by rw [hc.node]; exact hi
    have hlt₁ : i < o₁.dev.superb.numInodes := by rw [hc.shrink.superb]; exact hlt
    simp only [wp_setNode, wp_onDev]
    rw [wp_cofsUpdateNode (by simp [hc.shrink.held, hh])]
    dsimp only
    rw [hino]
    obtain ⟨hframe, haddr⟩ :=
      hc.shrink.sound.writeInode hlt₁ ({ o₁.node with size := length } : FsNode).pack
    have haddr : addrAt (o₁.dev.putInode i ({ o₁.node with size := length } : FsNode).pack).disk
      o₁.node.addrs =
        addrAt o₁.dev.disk o₁.node.addrs := by
      have := haddr i
      rwa [update_self] at this
    have hleaf : ∀ f, f < 16518 →
      (addrAt o₁.dev.disk o₁.node.addrs (Place.leafOf f) ≠ 0 ↔ f * 512 < length) := by
      intro f hf
      rw [hc.leaves f hf]
      split_ifs with hcut
      · exact ⟨fun e => absurd rfl e, fun e => by omega⟩
      · rw [hs.leaves f hf]
        omega
    have hfin :
      (⟨o₁.node.name, o₁.node.mask, o₁.node.major, o₁.node.minor, o₁.node.uid,
        o₁.node.gid, o₁.node.type, i, length, o₁.node.refCount, o₁.node.numLinks, o₁.node.atime,
        o₁.node.ctime, o₁.node.mtime,
          o₁.node.addrs,
        o₁.node.lock⟩ : FsNode) = { o₁.node with size := length } := by rw [← hino]
    rw [hfin]
    refine ⟨trivial, ?_, hc.shrink.toFrame.trans hframe, ?_, fun k hk => ?_,
      ⟨by unfold maxFileSize; omega, ?_, ?_⟩,
      Dev.inode_putInode_self _ _ (FsNode.pack_fits _), ?_⟩
    · rw [hc.node]
      rfl
    · exact hc.logged
    · have := hc.shrink.spare k hk
      rwa [update_self, hA] at this
    · unfold Tight
      rw [haddr]
      exact hc.tight
    · intro f hf
      rw [haddr]
      exact hleaf f hf
    · have htake :=
        drop_take_contents o.dev.disk o.node.addrs (show 0 + length ≤ o.node.size by omega)
      rw [List.drop_zero] at htake
      rw [htake]
      refine getBytes_congr fun q hq => ?_
      rw [Nat.zero_add]
      have hq0 := (hleaf (q / 512) (by omega)).mpr (by omega)
      have hge := hc.shrink.sound.dataStart_le (i := i) (p := Place.leafOf (q / 512))
        (by rwa [update_self])
      have hblk := hc.shrink.leaf (Place.leafOf (q / 512)) Place.leaf_leafOf (by rwa [update_self])
      have hless := hc.shrink.less (Place.leafOf (q / 512)) (by rwa [update_self])
      have hinoLt := Superblock.inoBlk_lt_dataStart hlt₁
      rw [update_self] at hge hblk hless
      unfold byteAt
      rw [haddr]
      unfold Dev.putInode
      dsimp only
      rw [update_of_ne (by omega), hblk, hless, hA]

/-! ### Past the end of the file -/

section

variable {d : Dev}

theorem Superblock.Layout.zero_not_inBitmap {sb : Superblock} (h : sb.Layout) :
    ¬ sb.InBitmap 0 := by
  intro hin
  have := h.bitmap
  have := hin.1
  omega

theorem Superblock.Layout.zero_lt_numBits {sb : Superblock} (h : sb.Layout) : 0 < sb.numBits :=
  Nat.lt_of_lt_of_le (Nat.succ_pos _) h.dataStart_le

theorem Superblock.Layout.bitmapBlock_zero_ne {sb : Superblock} (h : sb.Layout) :
    sb.bitmapBlock 0 ≠ 0 := by
  have := h.bitmap
  unfold bitmapBlock
  omega

/-- An entry of the boot block, which is zero, is freed: the block that it lists is the boot block
itself. -/
theorem freeEntry_boot (hl : d.superb.Layout) (hh : d.held = []) (hb : ∀ k, word (d.disk 0) k = 0)
    (hu : d.used 0 = true) (k : ℕ) :
    wp (freeEntry 0 k) (fun _ d' => d'.superb = d.superb ∧ d'.held = [] ∧ d'.used 0 = false ∧
        d'.freed = (0, true) :: d.freed ∧ ∀ k, word (d'.disk 0) k = 0)
      (fun _ _ => False) d := by
  simp only [freeEntry, wp_bind, wp_getHdBuf, wp_setBuf, wp_putHdBuf, hh,
    List.not_mem_nil, if_false, hb]
  generalize hd₁ : (⟨d.superb, update d.disk 0 (setWord (d.disk 0) k 0), [0], d.freed⟩ : Dev) = d₁
  have hs₁ : d₁.superb = d.superb := by rw [← hd₁]
  have hheld : d₁.held = [0] := by rw [← hd₁]
  have hu₁ : d₁.used 0 = true := by
    rw [← hu, ← hd₁]
    exact used_update_of_not_inBitmap _ _ _ hl.zero_not_inBitmap hl.zero_lt_numBits
  refine (blockFree_spec (by rw [hs₁, hheld]; simpa using hl.bitmapBlock_zero_ne)
    (by rw [hs₁]; exact hl.zero_lt_numBits)).mono (fun _ d' hr => ?_) fun e d' hf => ?_
  · obtain ⟨-, hr⟩ := hr
    refine ⟨hr.superb.trans hs₁, by rw [hr.held, hheld]; rfl,
      ?_, by rw [hr.freed, ← hd₁], fun j => ?_⟩
    · have := hr.used 0 (by rw [hs₁]; exact hl.zero_lt_numBits)
      have hfree : d'.used 0 = false := by simpa using this
      exact hfree
    · show word (d'.disk 0) j = 0
      rw [hr.same 0 (by rw [hs₁]; exact hl.zero_not_inBitmap), ← hd₁]
      dsimp only
      rw [update_self]
      by_cases hj : j = k
      · rw [hj]
        exact word_setWord_self _ _ (by decide)
      · rw [word_setWord_ne _ _ hj]
        exact hb j
  · rw [hu₁] at hf
    exact absurd hf.1 (by decide)

/-- The boot block is free already. -/
theorem blockFree_boot (hl : d.superb.Layout) (hh : d.held = []) (hu : d.used 0 = false) :
    wp (blockFree 0) (fun _ _ => False) (fun e d' => e = .panic "Block allready free" ∧
      d'.freed = (0, false) :: d.freed)
      d := by
  refine (blockFree_spec (by simp [hh]) hl.zero_lt_numBits).mono (fun _ d' hr => ?_)
    fun e d' hf => hf.2
  rw [hu] at hr
  exact absurd hr.1 (by decide)

end

/-- A round of the loop for a file block whose indirect block is not there: the boot block is taken
for the indirect block and is freed, twice. -/
theorem truncateBlock_boot {o : Open} (hl : o.dev.superb.Layout) (hh : o.dev.held = [])
    (hb : o.dev.disk 0 = zeroBlock) (hu : o.dev.used 0 = true) {fbn : ℕ} (hge : 6 ≤ fbn)
    (hlt : fbn < 16518)
    (h6 : fbn < 134 → o.node.addrs 6 = 0)
    (h7 : 134 ≤ fbn → o.node.addrs 7 ≠ 0 →
      word (o.dev.disk (o.node.addrs 7)) ((fbn - 134) / 128) = 0) :
    wp (truncateBlock fbn) (fun _ _ => False)
      (fun e o' => e = .panic "Block allready free" ∧
        o'.dev.freed = (0, false) :: (0, true) :: o.dev.freed) o := by
  have hw : ∀ k, word (o.dev.disk 0) k = 0 := by
    intro k
    rw [hb]
    exact word_zeroBlock k
  have hd : (⟨o.dev.superb, o.dev.disk, [], o.dev.freed⟩ : Dev) = o.dev := by rw [← hh]
  simp only [truncateBlock, wp_bind, wp_read, wp_ite, wp_onDev]
  rw [if_neg (by omega)]
  by_cases hsind : fbn < 134
  · have h6 := h6 hsind
    rw [if_pos hsind, h6]
    refine (freeEntry_boot hl hh hw hu _).mono (fun _ d₁ h => ?_) fun _ _ h => h.elim
    obtain ⟨hs, hh₁, hu₁, hf₁, hw₁⟩ := h
    refine scanBlock_spec hh₁ fun n hn => ?_
    rw [if_pos (hn.mpr fun k _ => hw₁ k)]
    simp only [freeAddr, wp_bind, wp_read, wp_onDev, h6]
    refine (blockFree_boot (hs ▸ hl) hh₁ hu₁).mono (fun _ _ h => h.elim) fun e d' h => ?_
    exact ⟨h.1, by rw [h.2, hf₁]⟩
  · have hmblk : word (o.dev.disk (o.node.addrs 7)) ((fbn - 134) / 128) = 0 := by
      by_cases h0 : o.node.addrs 7 = 0
      · rw [h0]
        exact hw _
      · exact h7 (by omega) h0
    rw [if_neg hsind, if_pos hlt]
    simp only [wp_getHdBuf, wp_putHdBuf, hh, List.not_mem_nil, if_false, List.erase_cons_head, hd,
      hmblk]
    refine (freeEntry_boot hl hh hw hu _).mono (fun _ d₁ h => ?_) fun _ _ h => h.elim
    obtain ⟨hs, hh₁, hu₁, hf₁, hw₁⟩ := h
    refine scanBlock_spec hh₁ fun n hn => ?_
    rw [if_pos (hn.mpr fun k _ => hw₁ k)]
    refine (blockFree_boot (hs ▸ hl) hh₁ hu₁).mono (fun _ _ h => h.elim) fun e d' h => ?_
    exact ⟨h.1, by rw [h.2, hf₁]⟩

theorem truncateLoop_add (n m fbn : ℕ) {Q : Unit → Open → Prop}
    {E : Halt → Open → Prop} {o : Open} :
    wp (truncateLoop (n + m) fbn) Q E o =
      wp (truncateLoop n fbn) (fun _ o' => wp (truncateLoop m (fbn + n)) Q E o') E o := by
  induction n generalizing fbn o with
  | zero => rw [Nat.zero_add]; rfl
  | succ n ih =>
    rw [Nat.succ_add, truncateLoop, truncateLoop, wp_bind, wp_bind]
    congr 1
    funext _ o'
    rw [ih, Nat.add_assoc, Nat.add_comm 1 n]

/-- **Truncating a whole number of blocks that reach the indirect ones to nothing never
returns**: the last round frees the boot block. -/
theorem cofsTruncate_past_end {o : Open} {A : ℕ → ℕ → ℕ} {i : ℕ} (h : Sound X o.dev A)
    (hA : A i = o.node.addrs)
    (hh : o.dev.held = []) (hb : o.dev.disk 0 = zeroBlock)
    (hs : Shaped o.dev.disk o.node.addrs o.node.size)
    (hbad : ¬ TruncateOk o.node.size) :
    wp (cofsTruncate 0) (fun _ _ => False) (fun e _ => e = .panic "Block allready free") o := by
  have hsize := hs.le
  unfold maxFileSize at hsize
  unfold TruncateOk at hbad
  simp only [cofsTruncate, wp_bind, wp_read, kassert, decide_eq_true_eq, Nat.zero_le, Nat.zero_mod,
    if_true, wp_pure, Nat.zero_div, Nat.sub_zero]
  rw [truncateLoop_add]
  refine (truncateLoop_spec h hA hh hs.tight (by omega) fun f h1 h2 => ?_).mono
    (fun _ o₁ hc => ?_) fun _ _ he => he.elim
  · rw [hs.leaves f (by omega)]
    omega
  · have hempty : Shaped o₁.dev.disk o₁.node.addrs 0 := by
      refine ⟨Nat.zero_le _,
        hc.tight, fun f hf => ⟨fun h0 => ?_, fun hlt => absurd hlt (Nat.not_lt_zero _)⟩⟩
      rw [hc.leaves f hf] at h0
      split_ifs at h0 with hcut
      · exact absurd rfl h0
      · have := (hs.leaves f hf).mp h0
        omega
    have hsuper := hc.shrink.superb
    have hround := truncateBlock_boot (o := o₁) (hsuper ▸ h.layout) (hc.shrink.held.trans hh)
      (hc.shrink.boot.trans hb) (hc.shrink.sound.metaUsed 0 (Nat.succ_pos _))
      (show 6 ≤ 0 + o.node.size / 512 by omega)
      (by omega) (fun _ => hempty.addrAt_eq_zero (.top 6)) fun _ h0 =>
        absurd (hempty.addrAt_eq_zero (.top 7)) h0
    rw [truncateLoop, wp_bind]
    exact hround.mono (fun _ _ hf => hf.elim) fun e o' he => he.1

end Cosiris.Cofs
