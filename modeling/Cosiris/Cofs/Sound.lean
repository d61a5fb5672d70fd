import Cosiris.Cofs.Tree

/-!
# Sound block tables

A table `A` gives the array of addresses of each inode. The disk is sound for the
table when the bitmap marks the metadata blocks and the blocks whose address is kept
in some place of some inode, each of them in one place only. Allocating a block for
a place that has none keeps the disk sound, and so does freeing the block of a place
through which nothing else is reached; this module says what else each of the two
changes.
-/

namespace Cosiris.Cofs

open Function Prog

variable {X : ℕ → Prop}

/-! ### Soundness -/

/-- The address kept in a place of an inode. -/
def refAt (d : Dev) (A : ℕ → ℕ → ℕ) (o : ℕ × Place) : ℕ := addrAt d.disk (A o.1) o.2

/-- The bitmap marks the metadata and the blocks that the inodes refer to, each once. It may
mark other blocks too, those of `X`. -/
structure Sound (X : ℕ → Prop) (d : Dev) (A : ℕ → ℕ → ℕ) : Prop where
  layout : d.superb.Layout
  allot : Allotted (refAt d A) (fun b => b < d.superb.dataStart ∨ X b) fun b =>
      b < d.superb.numBits ∧
      d.used b = true

namespace Sound

variable {d : Dev} {A : ℕ → ℕ → ℕ}

theorem metaUsed (h : Sound X d A) : d.MetaUsed := fun _ hb => (h.allot.used_of_fixed (.inl hb)).2

section

variable {i : ℕ} {p : Place}

theorem dataStart_le (h : Sound X d A) (hp : addrAt d.disk (A i) p ≠ 0) :
    d.superb.dataStart ≤ addrAt d.disk (A i) p := by
  have := h.allot.apart (show refAt d A (i, p) ≠ 0 from hp)
  exact Nat.not_lt.mp fun hlt => this (.inl hlt)

theorem lt_numBits (h : Sound X d A) (hp : addrAt d.disk (A i) p ≠ 0) :
    addrAt d.disk (A i) p < d.superb.numBits :=
  (h.allot.used_of_owned (show refAt d A (i, p) ≠ 0 from hp)).1

theorem used (h : Sound X d A) (hp : addrAt d.disk (A i) p ≠ 0) :
    d.used (addrAt d.disk (A i) p) = true :=
  (h.allot.used_of_owned (show refAt d A (i, p) ≠ 0 from hp)).2

theorem not_inBitmap (h : Sound X d A) (hp : addrAt d.disk (A i) p ≠ 0) :
    ¬ d.superb.InBitmap (addrAt d.disk (A i) p) := fun hin =>
  Nat.not_lt.mpr (h.dataStart_le hp) (hin.lt_dataStart h.layout)

end

theorem inj (h : Sound X d A) {i j : ℕ} {p q : Place} (hp : addrAt d.disk (A i) p ≠ 0)
    (e : addrAt d.disk (A i) p = addrAt d.disk (A j) q) : i = j ∧ p = q :=
  Prod.mk.inj (h.allot.inj (show refAt d A (i, p) ≠ 0 from hp)
    (show refAt d A (i, p) = refAt d A (j, q) from e))

/-- A free block is not below the data, so that it is not block `0`. -/
theorem dataStart_le_of_free (h : Sound X d A) {b : ℕ} (hb : d.used b = false) :
    d.superb.dataStart ≤ b := by
  rw [← Nat.not_lt]
  intro hlt
  rw [h.metaUsed b hlt] at hb
  cases hb

/-- A free block is referred to from nowhere. -/
theorem addrAt_ne_of_free (h : Sound X d A) {b : ℕ} (hb : d.used b = false) (i : ℕ) (p : Place) :
    addrAt d.disk (A i) p ≠ b := by
  have hpos : b ≠ 0 := by
    have := h.dataStart_le_of_free hb
    unfold Superblock.dataStart at this
    omega
  exact h.allot.ne_of_not_used
    (fun hu => by rw [hb] at hu; exact Bool.false_ne_true hu.2) hpos (i, p)

end Sound

/-- Only the bitmap and the addresses kept in the places matter. -/
theorem Sound.congr {d d' : Dev} {A A' : ℕ → ℕ → ℕ} (h : Sound X d A) (hs : d'.superb = d.superb)
    (hu : ∀ b, b < d.superb.numBits → d'.used b = d.used b) (hr : refAt d' A' = refAt d A) :
    Sound X d' A' := by
  refine ⟨hs ▸ h.layout, ?_⟩
  rw [hr, hs]
  have : (fun b => b < d.superb.numBits ∧ d'.used b = true) = fun b => b < d.superb.numBits ∧
    d.used b = true := by
    funext b
    exact propext (and_congr_right fun hb => by rw [hu b hb])
  rw [this]
  exact h.allot

/-! ### Free blocks -/

/-- The number of free blocks of the partition. -/
def numFree (d : Dev) : ℕ := ((Finset.range d.superb.size).filter fun b => d.used b = false).card

open Classical in
/-- The number of places among `F` of inode `i` that hold no address. -/
noncomputable def absent (d : Dev) (A : ℕ → ℕ → ℕ) (i : ℕ) (F : Place → Prop) : ℕ :=
  (Finset.univ.filter fun p : Place => addrAt d.disk (A i) p = 0 ∧ F p).card

/-- The free blocks suffice for the places among `F` of inode `i` that hold no address. -/
def Room (d : Dev) (A : ℕ → ℕ → ℕ) (i : ℕ) (F : Place → Prop) : Prop := absent d A i F ≤ numFree d

theorem absent_pos {d : Dev} {A : ℕ → ℕ → ℕ} {i : ℕ} {F : Place → Prop} {p : Place}
    (h : addrAt d.disk (A i) p = 0) (hF : F p) : 0 < absent d A i F :=
  Finset.card_pos.mpr ⟨p, by simp [h, hF]⟩

theorem absent_take {d d' : Dev} {A A' : ℕ → ℕ → ℕ} {i : ℕ} {F : Place → Prop} {p : Place} {b : ℕ}
    (hb : b ≠ 0)
    (h : addrAt d.disk (A i) p = 0) (hF : F p)
    (h' : addrAt d'.disk (A' i) = update (addrAt d.disk (A i)) p b) :
    absent d' A' i F + 1 = absent d A i F := by
  classical
  have hset : (Finset.univ.filter fun q : Place => addrAt d'.disk (A' i) q = 0 ∧ F q) =
      (Finset.univ.filter fun q : Place => addrAt d.disk (A i) q = 0 ∧ F q).erase p := by
    ext q
    simp only [Finset.mem_filter, Finset.mem_univ, true_and, Finset.mem_erase, h']
    by_cases hq : q = p
    · rw [hq, update_self]
      simp [hb]
    · rw [update_of_ne hq]
      simp [hq]
  unfold absent
  rw [hset]
  exact Finset.card_erase_add_one (by simp [h, hF])

/-- Taking the first free block leaves one free block less. -/
theorem numFree_take {d d' : Dev} {b : ℕ} (h : d.Taken b d') (hs : d.superb.size ≤ d.superb.numBits)
    (hpos : 0 < numFree d) : numFree d' + 1 = numFree d := by
  unfold numFree at *
  rw [h.superb]
  obtain ⟨c, hc⟩ := Finset.card_pos.mp hpos
  rw [Finset.mem_filter, Finset.mem_range] at hc
  have hbc : b ≤ c := by
    rw [← Nat.not_lt]
    intro hlt
    rw [h.least c hlt] at hc
    exact Bool.false_ne_true hc.2.symm
  have hset : ((Finset.range d.superb.size).filter fun c => d'.used c = false) =
      ((Finset.range d.superb.size).filter fun c => d.used c = false).erase b := by
    ext c
    simp only [Finset.mem_filter, Finset.mem_range, Finset.mem_erase]
    constructor
    · rintro ⟨hlt, hu⟩
      rw [h.used c (by omega)] at hu
      simp at hu
      exact ⟨hu.2, hlt, hu.1⟩
    · rintro ⟨hne, hlt, hu⟩
      rw [h.used c (by omega)]
      simp [hlt, hu, hne]
  rw [hset]
  exact Finset.card_erase_add_one (by simp [h.fresh]; omega)

/-! ### What a step on one inode leaves alone -/

/-- From `d` to `d'` only inode `i` and its blocks have changed: the other inodes keep their
records, their addresses and their blocks. -/
structure Frame (X : ℕ → Prop) (d : Dev) (A : ℕ → ℕ → ℕ) (i : ℕ) (d' : Dev) (A' : ℕ → ℕ → ℕ) :
    Prop where
  sound : Sound X d' A'
  superb : d'.superb = d.superb
  held : d'.held = d.held
  boot : d'.disk 0 = d.disk 0
  inodes : ∀ j, j ≠ i → j < d.superb.numInodes → d'.inode j = d.inode j
  table : ∀ j, j ≠ i → A' j = A j
  rest : ∀ j, j ≠ i → addrAt d'.disk (A j) = addrAt d.disk (A j)
  blocks : ∀ j p, j ≠ i → addrAt d.disk (A j) p ≠ 0 →
    d'.disk (addrAt d.disk (A j) p) = d.disk (addrAt d.disk (A j) p)

theorem Frame.refl {d : Dev} {A : ℕ → ℕ → ℕ} (h : Sound X d A) (i : ℕ) : Frame X d A i d A where
  sound := h
  superb := rfl
  held := rfl
  boot := rfl
  inodes := fun _ _ _ => rfl
  table := fun _ _ => rfl
  rest := fun _ _ => rfl
  blocks := fun _ _ _ _ => rfl

theorem Frame.trans {d d₁ d₂ : Dev} {A A₁ A₂ : ℕ → ℕ → ℕ} {i : ℕ} (h : Frame X d A i d₁ A₁)
    (h' : Frame X d₁ A₁ i d₂ A₂) : Frame X d A i d₂ A₂ where
  sound := h'.sound
  superb := h'.superb.trans h.superb
  held := h'.held.trans h.held
  boot := h'.boot.trans h.boot
  inodes := fun j hj hlt => (h'.inodes j hj (by rwa [h.superb])).trans (h.inodes j hj hlt)
  table := fun j hj => (h'.table j hj).trans (h.table j hj)
  rest := by
    intro j hj
    have := h'.rest j hj
    rw [h.table j hj] at this
    exact this.trans (h.rest j hj)
  blocks := by
    intro j p hj hp
    have e := congrFun (h.rest j hj) p
    have := h'.blocks j p hj (by rw [h.table j hj, e]; exact hp)
    rw [h.table j hj, e] at this
    exact this.trans (h.blocks j p hj hp)

/-- A record depends on its block only. -/
theorem inode_congr {d d' : Dev} (hl : d.superb.Layout) (hs : d'.superb = d.superb)
    (h : ∀ c, c < d.superb.dataStart → ¬ d.superb.InBitmap c → d'.disk c = d.disk c) {j : ℕ}
    (hj : j < d.superb.numInodes) : d'.inode j = d.inode j := by
  unfold Dev.inode
  rw [hs, h _ (Superblock.inoBlk_lt_dataStart hj) (Superblock.inoBlk_not_inBitmap hl j)]

theorem boot_congr {d d' : Dev} (hl : d.superb.Layout)
    (h : ∀ c, c < d.superb.dataStart → ¬ d.superb.InBitmap c → d'.disk c = d.disk c) :
    d'.disk 0 = d.disk 0 := by
  refine h 0 (Nat.succ_pos _) fun hin => ?_
  have := hl.bitmap
  have := hin.1
  omega

/-! ### Allocating -/

/-- From `d` to `d'` inode `i` has gained blocks, in places among `P` that had none. -/
structure Grow (X : ℕ → Prop) (d : Dev) (A : ℕ → ℕ → ℕ) (i : ℕ) (P : Place → Prop) (d' : Dev)
    (A' : ℕ → ℕ → ℕ) : Prop
    extends Frame X d A i d' A' where
  freed : d'.freed = d.freed
  record : i < d.superb.numInodes → d'.inode i = d.inode i
  spare : ∀ k, 8 ≤ k → A' i k = A i k
  keep : ∀ p, addrAt d.disk (A i) p ≠ 0 → addrAt d'.disk (A' i) p = addrAt d.disk (A i) p
  new : ∀ p, addrAt d'.disk (A' i) p ≠ 0 → addrAt d.disk (A i) p ≠ 0 ∨ P p
  room : ∀ F : Place → Prop, (∀ p, P p → F p) → Room d A i F → Room d' A' i F

/-- The blocks of data that inode `i` has gained are zero, and the others are as they were. -/
structure Extend (X : ℕ → Prop) (d : Dev) (A : ℕ → ℕ → ℕ) (i : ℕ) (P : Place → Prop) (d' : Dev)
    (A' : ℕ → ℕ → ℕ) : Prop
    extends Grow X d A i P d' A' where
  leaf : ∀ p, p.Leaf → addrAt d.disk (A i) p ≠ 0 →
    d'.disk (addrAt d.disk (A i) p) = d.disk (addrAt d.disk (A i) p)
  zero : ∀ p, p.Leaf → addrAt d.disk (A i) p = 0 → addrAt d'.disk (A' i) p ≠ 0 →
    d'.disk (addrAt d'.disk (A' i) p) = zeroBlock

section

variable {d d₁ d₂ : Dev} {A A₁ A₂ : ℕ → ℕ → ℕ} {i : ℕ} {P P' : Place → Prop}

theorem Grow.refl (h : Sound X d A) (i : ℕ) (P : Place → Prop) : Grow X d A i P d A where
  toFrame := Frame.refl h i
  freed := rfl
  record := fun _ => rfl
  spare := fun _ _ => rfl
  keep := fun _ _ => rfl
  new := fun _ hp => .inl hp
  room := fun _ _ hr => hr

theorem Grow.trans (h : Grow X d A i P d₁ A₁) (h' : Grow X d₁ A₁ i P d₂ A₂) :
    Grow X d A i P d₂ A₂ where
  toFrame := h.toFrame.trans h'.toFrame
  freed := h'.freed.trans h.freed
  record := fun hi => (h'.record (by rwa [h.superb])).trans (h.record hi)
  spare := fun k hk => (h'.spare k hk).trans (h.spare k hk)
  keep := by
    intro p hp
    have h1 := h.keep p hp
    rw [h'.keep p (by rwa [h1]), h1]
  new := by
    intro p hp
    rcases h'.new p hp with hp | hp
    · exact h.new p hp
    · exact .inr hp
  room := fun F hF hr => h'.room F hF (h.room F hF hr)

theorem Grow.mono (h : Grow X d A i P d₁ A₁) (hP : ∀ p, P p → P' p) : Grow X d A i P' d₁ A₁ where
  toFrame := h.toFrame
  freed := h.freed
  record := h.record
  spare := h.spare
  keep := h.keep
  new := fun p hp => (h.new p hp).imp_right (hP p)
  room := fun F hF => h.room F fun p hp => hF p (hP p hp)

theorem Extend.refl (h : Sound X d A) (i : ℕ) (P : Place → Prop) : Extend X d A i P d A where
  toGrow := Grow.refl h i P
  leaf := fun _ _ _ => rfl
  zero := fun _ _ h0 h1 => absurd h0 h1

theorem Extend.trans (h : Extend X d A i P d₁ A₁) (h' : Extend X d₁ A₁ i P d₂ A₂) :
    Extend X d A i P d₂ A₂ where
  toGrow := h.toGrow.trans h'.toGrow
  leaf := by
    intro p hl hp
    have e := h.keep p hp
    have := h'.leaf p hl (by rwa [e])
    rw [e] at this
    exact this.trans (h.leaf p hl hp)
  zero := by
    intro p hl h0 h2
    by_cases h1 : addrAt d₁.disk (A₁ i) p = 0
    · exact h'.zero p hl h1 h2
    · rw [h'.keep p h1, h'.leaf p hl h1]
      exact h.zero p hl h0 h1

theorem Extend.mono (h : Extend X d A i P d₁ A₁) (hP : ∀ p, P p → P' p) :
    Extend X d A i P' d₁ A₁ where
  toGrow := h.toGrow.mono hP
  leaf := h.leaf
  zero := h.zero

end

/-- The addresses stay when a free block is taken: nothing refers to it. -/
theorem Sound.addrAt_taken {d d₁ : Dev} {A : ℕ → ℕ → ℕ} {b : ℕ} (h : Sound X d A)
    (ht : d.Taken b d₁)
    (j : ℕ) :
    addrAt d₁.disk (A j) = addrAt d.disk (A j) := by
  funext q
  refine addrAt_congr (fun r _ hr => ?_) q
  exact ht.same _ (h.not_inBitmap hr) (h.addrAt_ne_of_free ht.fresh j r)

/-- **A free block is given to a place that has none.** -/
theorem Sound.take {d d₁ : Dev} {A : ℕ → ℕ → ℕ} {i b : ℕ} {p : Place} (h : Sound X d A)
    (ht : d.Taken b d₁)
    (d₂ : Dev) (addrs' : ℕ → ℕ) (hp : addrAt d.disk (A i) p = 0)
    (hw : p.Written b d₁.disk (A i) d₂.disk addrs')
    (hs : d₂.superb = d₁.superb) (hh : d₂.held = d.held) (hf : d₂.freed = d₁.freed)
    (hsame : ∀ c, (∀ q, p.parent = some q → c ≠ addrAt d₁.disk (A i) q) → d₂.disk c = d₁.disk c) :
    Extend X d A i (· = p) d₂ (update A i addrs') ∧ addrAt d₂.disk addrs' p = b ∧ b ≠ 0 := by
  have hge := h.dataStart_le_of_free ht.fresh
  have hb0 : b ≠ 0 := by
    unfold Superblock.dataStart at hge
    omega
  have hb32 : b < 2 ^ 32 := Nat.lt_trans ht.lt h.layout.numBits_lt
  have hne : ∀ j q, addrAt d.disk (A j) q ≠ b := fun j q => h.addrAt_ne_of_free ht.fresh j q
  have h1 := fun j => h.addrAt_taken ht j
  have hpar : ∀ q, p.parent = some q → addrAt d.disk (A i) q ≠ 0 := by
    intro q hq
    unfold Place.Written at hw
    rw [hq, h1] at hw
    exact hw.2.1
  -- the blocks that stay: all but the bitmap, the new block and the block that is written
  have hstay : ∀ c, ¬ d.superb.InBitmap c → c ≠ b →
    (∀ q, p.parent = some q → c ≠ addrAt d.disk (A i) q) →
      d₂.disk c = d.disk c := by
    intro c hc hcb hq
    rw [hsame c (by rwa [h1]), ht.same c hc hcb]
  have hown : addrAt d₂.disk addrs' = update (addrAt d.disk (A i)) p b := by
    rw [← h1 i]
    funext q
    refine addrAt_written hw hb32 (fun _ => ?_) (fun q q' hq e => ?_) (fun q hq => ?_)
      (fun q hq hhome => ?_) q
    · rw [hsame b fun q _ e => hne i q (by rw [← h1, ← e]), ht.zero]
    · rw [h1] at hq e
      exact (h.inj hq e).2
    · rw [h1, addrAt_of_parent_some hq, hp, entry_zero]
    · refine hsame _ fun r hr e => hhome ?_
      unfold Place.home
      rw [hr]
      exact e
  have hrest : ∀ j, j ≠ i → addrAt d₂.disk (A j) = addrAt d.disk (A j) := by
    intro j hj
    funext q
    refine addrAt_congr (fun r _ hr => hstay _ (h.not_inBitmap hr) (hne j r) fun q hq e => ?_) q
    exact hj (h.inj hr e).1
  have hbits : ∀ c, c < d.superb.numBits → d₂.used c = d₁.used c := by
    intro c hc
    unfold Dev.used
    have hin := Superblock.inBitmap_bitmapBlock hc
    rw [hs, ht.superb, hsame _ fun q hq e => ?_]
    refine h.not_inBitmap (hpar q hq) ?_
    rw [h1] at e
    exact e ▸ hin
  have href : refAt d₂ (update A i addrs') = update (refAt d A) (i, p) b := by
    funext ⟨j, q⟩
    unfold refAt
    dsimp only
    by_cases hj : j = i
    · rw [hj, update_self, hown]
      by_cases hq : q = p
      · rw [hq, update_self, update_self]
      · rw [update_of_ne hq, update_of_ne (by simp [hq])]
    · rw [update_of_ne hj, hrest j hj, update_of_ne (by simp [hj])]
  have hmeta : ∀ c, c < d.superb.dataStart → ¬ d.superb.InBitmap c → d₂.disk c = d.disk c := by
    intro c hc hin
    refine hstay c hin (by omega) fun q hq e => ?_
    have := h.dataStart_le (hpar q hq)
    omega
  refine ⟨⟨⟨⟨⟨?_, ?_⟩, hs.trans ht.superb, hh, boot_congr h.layout hmeta,
    fun j _ => inode_congr h.layout (hs.trans ht.superb) hmeta,
    fun j hj => update_of_ne hj _ _, hrest, ?_⟩, hf.trans ht.freed,
    inode_congr h.layout (hs.trans ht.superb) hmeta, ?_, ?_, ?_, ?_⟩, ?_, ?_⟩, ?_, hb0⟩
  · rw [hs, ht.superb]
    exact h.layout
  · rw [href, hs, ht.superb]
    refine h.allot.take hp hb0
      (fun hu => by rw [ht.fresh] at hu; exact Bool.false_ne_true hu.2) fun c => ?_
    constructor
    · rintro ⟨hc, hu⟩
      rw [hbits c hc, ht.used c hc] at hu
      simp only [Bool.or_eq_true, decide_eq_true_eq] at hu
      exact hu.imp_left fun hu => ⟨hc, hu⟩
    · rintro (⟨hc, hu⟩ | rfl)
      · exact ⟨hc, by rw [hbits c hc, ht.used c hc, hu]; rfl⟩
      · exact ⟨ht.lt, by rw [hbits c ht.lt, ht.used c ht.lt]; simp⟩
  · intro j q hj hq
    exact hstay _ (h.not_inBitmap hq) (hne j q) fun r hr e => hj (h.inj hq e).1
  · intro k hk
    rw [update_self]
    exact hw.spare hk
  · intro q hq
    have hqp : q ≠ p := fun e => hq (e ▸ hp)
    rw [update_self, hown, update_of_ne hqp]
  · intro q hq
    by_cases hqp : q = p
    · exact .inr hqp
    · rw [update_self, hown, update_of_ne hqp] at hq
      exact .inl hq
  · intro F hF hr
    unfold Room at *
    have hpos := absent_pos hp (hF p rfl)
    have e1 := absent_take hb0 hp (hF p rfl)
      (show addrAt d₂.disk (update A i addrs' i) = _ by rw [update_self, hown])
    have e2 := numFree_take ht (by unfold Superblock.numBits Superblock.numMaps; omega) (by omega)
    have e3 : numFree d₂ = numFree d₁ := by
      unfold numFree
      rw [hs]
      congr 1
      refine Finset.filter_congr fun c hc => ?_
      rw [Finset.mem_range, ht.superb] at hc
      rw [hbits c (by unfold Superblock.numBits Superblock.numMaps; omega)]
    omega
  · intro q hl hq
    exact hstay _ (h.not_inBitmap hq) (hne i q) fun r hr e =>
      Place.not_leaf_of_parent hr ((h.inj hq e).2 ▸ hl)
  · intro q hl hq0 hq
    rw [update_self, hown] at hq ⊢
    have hqp : q = p := by
      by_contra hqp
      rw [update_of_ne hqp] at hq
      exact hq hq0
    rw [hqp, update_self, hsame b fun q _ e => hne i q (by rw [← h1, ← e]), ht.zero]
  · rw [hown, update_self]

/-! ### Freeing -/

/-- From `d` to `d'` inode `i` has given up blocks. It keeps the blocks of data it still refers
to. -/
structure Shrink (X : ℕ → Prop) (d : Dev) (A : ℕ → ℕ → ℕ) (i : ℕ) (d' : Dev) (A' : ℕ → ℕ → ℕ) : Prop
    extends Frame X d A i d' A' where
  record : i < d.superb.numInodes → d'.inode i = d.inode i
  spare : ∀ k, 8 ≤ k → A' i k = A i k
  less : ∀ p, addrAt d'.disk (A' i) p ≠ 0 → addrAt d'.disk (A' i) p = addrAt d.disk (A i) p
  leaf : ∀ p, p.Leaf → addrAt d'.disk (A' i) p ≠ 0 →
    d'.disk (addrAt d'.disk (A' i) p) = d.disk (addrAt d'.disk (A' i) p)

theorem Shrink.refl {d : Dev} {A : ℕ → ℕ → ℕ} (h : Sound X d A) (i : ℕ) : Shrink X d A i d A where
  toFrame := Frame.refl h i
  record := fun _ => rfl
  spare := fun _ _ => rfl
  less := fun _ _ => rfl
  leaf := fun _ _ _ => rfl

theorem Shrink.trans {d d₁ d₂ : Dev} {A A₁ A₂ : ℕ → ℕ → ℕ} {i : ℕ} (h : Shrink X d A i d₁ A₁)
    (h' : Shrink X d₁ A₁ i d₂ A₂) : Shrink X d A i d₂ A₂ where
  toFrame := h.toFrame.trans h'.toFrame
  record := fun hi => (h'.record (by rwa [h.superb])).trans (h.record hi)
  spare := fun k hk => (h'.spare k hk).trans (h.spare k hk)
  less := by
    intro p hp
    have e := h'.less p hp
    rw [e]
    exact h.less p (by rwa [← e])
  leaf := by
    intro p hl hp
    have e := h'.less p hp
    have := h.leaf p hl (by rwa [← e])
    rw [← e] at this
    exact (h'.leaf p hl hp).trans this

/-- **A place gives up its block.** Nothing else is reached through it. -/
theorem Sound.release {d : Dev} {A : ℕ → ℕ → ℕ} {i : ℕ} {p : Place} (h : Sound X d A) (d' : Dev)
    (addrs' : ℕ → ℕ) (hp : addrAt d.disk (A i) p ≠ 0)
    (hchild : ∀ q, q.parent = some p → addrAt d.disk (A i) q = 0)
    (hw : p.Written 0 d.disk (A i) d'.disk addrs') (hs : d'.superb = d.superb)
    (hh : d'.held = d.held) (hused : ∀ c, c < d.superb.numBits →
      d'.used c = (d.used c && !decide (c = addrAt d.disk (A i) p)))
    (hsame : ∀ c, ¬ d.superb.InBitmap c → (∀ q, p.parent = some q → c ≠ addrAt d.disk (A i) q) →
      d'.disk c = d.disk c) :
    Shrink X d A i d' (update A i addrs') ∧
      addrAt d'.disk addrs' = update (addrAt d.disk (A i)) p 0 := by
  have hown : addrAt d'.disk addrs' = update (addrAt d.disk (A i)) p 0 := by
    funext q
    refine addrAt_written hw (by decide) (fun h0 => absurd rfl h0)
      (fun q q' hq e => (h.inj hq e).2) hchild
      (fun q hq hhome => ?_) q
    refine hsame _ (h.not_inBitmap hq) fun r hr e => hhome ?_
    unfold Place.home
    rw [hr]
    exact e
  have hrest : ∀ j, j ≠ i → addrAt d'.disk (A j) = addrAt d.disk (A j) := by
    intro j hj
    funext q
    refine addrAt_congr (fun r _ hr => hsame _ (h.not_inBitmap hr) fun q hq e => ?_) q
    exact hj (h.inj hr e).1
  have href : refAt d' (update A i addrs') = update (refAt d A) (i, p) 0 := by
    funext ⟨j, q⟩
    unfold refAt
    dsimp only
    by_cases hj : j = i
    · rw [hj, update_self, hown]
      by_cases hq : q = p
      · rw [hq, update_self, update_self]
      · rw [update_of_ne hq, update_of_ne (by simp [hq])]
    · rw [update_of_ne hj, hrest j hj, update_of_ne (by simp [hj])]
  have hpar : ∀ q, p.parent = some q → addrAt d.disk (A i) q ≠ 0 := fun q hq =>
    addrAt_parent_ne_zero hq hp
  have hmeta : ∀ c, c < d.superb.dataStart → ¬ d.superb.InBitmap c → d'.disk c = d.disk c := by
    intro c hc hin
    refine hsame c hin fun q hq e => ?_
    have := h.dataStart_le (hpar q hq)
    omega
  refine ⟨⟨⟨⟨hs ▸ h.layout, ?_⟩, hs, hh,
    boot_congr h.layout hmeta, fun j _ => inode_congr h.layout hs hmeta, fun j hj =>
      update_of_ne hj _ _, hrest, ?_⟩, inode_congr h.layout hs hmeta, ?_, ?_, ?_⟩, hown⟩
  · rw [href, hs]
    refine h.allot.release (show refAt d A (i, p) ≠ 0 from hp) fun c => ?_
    constructor
    · rintro ⟨hc, hu⟩
      rw [hused c hc] at hu
      simp only [Bool.and_eq_true, Bool.not_eq_true', decide_eq_false_iff_not] at hu
      exact ⟨⟨hc, hu.1⟩, hu.2⟩
    · rintro ⟨⟨hc, hu⟩, hne⟩
      have hne : c ≠ addrAt d.disk (A i) p := hne
      exact ⟨hc, by rw [hused c hc, hu]; simp [hne]⟩
  · intro j q hj hq
    exact hsame _ (h.not_inBitmap hq) fun r hr e => hj (h.inj hq e).1
  · intro k hk
    rw [update_self]
    exact hw.spare hk
  · intro q hq
    rw [update_self, hown] at hq ⊢
    by_cases hqp : q = p
    · rw [hqp, update_self] at hq
      exact absurd rfl hq
    · rw [update_of_ne hqp]
  · intro q hl hq
    rw [update_self, hown] at hq ⊢
    by_cases hqp : q = p
    · rw [hqp, update_self] at hq
      exact absurd rfl hq
    · rw [update_of_ne hqp] at hq ⊢
      exact hsame _ (h.not_inBitmap hq) fun r hr e =>
        Place.not_leaf_of_parent hr ((h.inj hq e).2 ▸ hl)

/-! ### Writing data and records -/

/-- The address of a file block is there only if all the places that lead to it hold one. -/
theorem addrAt_ne_zero_of_covers {disk : ℕ → Block} {addrs : ℕ → ℕ} {f : ℕ}
    (h : addrAt disk addrs (Place.leafOf f) ≠ 0) {p : Place} (hp : p.Covers f) :
    addrAt disk addrs p ≠ 0 := by
  by_cases hl : p.Leaf
  · rwa [Place.eq_leafOf_of_covers hl hp]
  · cases p with
    | one k => exact absurd trivial hl
    | two m k => exact absurd trivial hl
    | top j =>
      have := j.isLt
      simp only [Place.Leaf] at hl
      simp only [Place.Covers] at hp
      rcases (by omega : (j : ℕ) = 6 ∨ (j : ℕ) = 7) with hj | hj
      · obtain rfl : j = 6 := Fin.ext hj
        rw [← Place.eq_leafOf_of_covers (p := .one (Fin.ofNat 128 (f - 6))) trivial
          (by simp only [Place.Covers, Fin.val_ofNat]; omega)] at h
        exact addrAt_parent_ne_zero rfl h
      · obtain rfl : j = 7 := Fin.ext hj
        rw [← Place.eq_leafOf_of_covers
          (p := .two (Fin.ofNat 128 ((f - 134) / 128)) (Fin.ofNat 128 ((f - 134) % 128))) trivial
          (by simp only [Place.Covers, Fin.val_ofNat]; omega)] at h
        exact addrAt_parent_ne_zero (p := .mid _) rfl (addrAt_parent_ne_zero rfl h)
    | mid m =>
      have := m.isLt
      simp only [Place.Covers] at hp
      rw [← Place.eq_leafOf_of_covers (p := .two m (Fin.ofNat 128 ((f - 134) % 128))) trivial
        (by simp only [Place.Covers, Fin.val_ofNat]; omega)] at h
      exact addrAt_parent_ne_zero rfl h

/-- Two file blocks are not kept in one place. -/
theorem leafOf_inj {f g : ℕ} (hf : f < 16518) (hg : g < 16518)
    (h : Place.leafOf f = Place.leafOf g) :
    f = g := by
  have hcf := Place.covers_leafOf hf
  have hcg := Place.covers_leafOf hg
  have hl : (Place.leafOf f).Leaf := Place.leaf_leafOf
  rw [← h] at hcg
  cases hp : Place.leafOf f with
  | mid m => rw [hp] at hl; exact hl.elim
  | top j =>
    rw [hp] at hcf hcg hl
    simp only [Place.Covers, Place.Leaf] at hcf hcg hl
    omega
  | one k =>
    rw [hp] at hcf hcg
    simp only [Place.Covers] at hcf hcg
    omega
  | two m k =>
    rw [hp] at hcf hcg
    simp only [Place.Covers] at hcf hcg
    omega

/-- A block outside the bitmap through which nothing is reached is written. -/
theorem Sound.addrAt_update {d : Dev} {A : ℕ → ℕ → ℕ} {b : ℕ} (buf : Block)
    (hb : ∀ j p, ¬ p.Leaf → addrAt d.disk (A j) p ≠ 0 → addrAt d.disk (A j) p ≠ b) (j : ℕ) :
    addrAt (update d.disk b buf) (A j) = addrAt d.disk (A j) := by
  funext p
  refine addrAt_congr (fun q hl hq => ?_) p
  rw [update_of_ne (hb j q hl hq)]

/-- **A block of data of inode `i` is written.** -/
theorem Sound.writeLeaf {d : Dev} {A : ℕ → ℕ → ℕ} {i : ℕ} {p : Place}
    (h : Sound X d A) (hl : p.Leaf) (hp : addrAt d.disk (A i) p ≠ 0) (buf : Block)
    (P : Place → Prop) :
    Grow X d A i P { d with disk := update d.disk (addrAt d.disk (A i) p) buf } A := by
  have haddr := fun j => Sound.addrAt_update (d := d) (A := A) (b := addrAt d.disk (A i) p) buf
    (fun j q hq hq0 e => hq ((h.inj hq0 e).2 ▸ hl)) j
  have hbits : ∀ c, c < d.superb.numBits →
      Dev.used { d with disk := update d.disk (addrAt d.disk (A i) p) buf } c = d.used c :=
    fun c hc => used_update_of_not_inBitmap buf d.held d.freed (h.not_inBitmap hp) hc
  have hmeta : ∀ c, c < d.superb.dataStart → ¬ d.superb.InBitmap c →
      (update d.disk (addrAt d.disk (A i) p) buf) c = d.disk c := by
    intro c hc _
    have := h.dataStart_le hp
    rw [update_of_ne (by omega)]
  have hs : Dev.superb { d with disk := update d.disk (addrAt d.disk (A i) p) buf } = d.superb :=
    rfl
  refine ⟨⟨h.congr rfl hbits ?_, rfl, rfl,
    boot_congr h.layout hmeta, fun j _ => inode_congr h.layout hs hmeta, fun _ _ => rfl, fun j _ =>
      haddr j, fun j q hj hq => ?_⟩, rfl, inode_congr h.layout hs hmeta, fun _ _ => rfl,
    fun q _ => ?_, fun q hq => .inl ?_, fun F _ hr => ?_⟩
  · funext ⟨j, q⟩
    exact congrFun (haddr j) q
  · exact update_of_ne (fun e => hj (h.inj hq e).1) _ _
  · exact congrFun (haddr i) q
  · rwa [← haddr i]
  · unfold Room absent numFree at *
    dsimp only
    rw [haddr i]
    refine Nat.le_trans hr (Nat.le_of_eq ?_)
    congr 1
    refine Finset.filter_congr fun c hc => ?_
    rw [Finset.mem_range] at hc
    rw [hbits c (by unfold Superblock.numBits Superblock.numMaps; omega)]

/-- **The record of inode `i` is written.** -/
theorem Sound.writeInode {d : Dev} {A : ℕ → ℕ → ℕ} {i : ℕ} (h : Sound X d A)
    (hi : i < d.superb.numInodes)
    (ino : Inode) :
    Frame X d A i (d.putInode i ino) A ∧
      ∀ j, addrAt (d.putInode i ino).disk (A j) = addrAt d.disk (A j) := by
  have hlt := Superblock.inoBlk_lt_dataStart hi
  have hne : ∀ j p, addrAt d.disk (A j) p ≠ 0 → addrAt d.disk (A j) p ≠ d.superb.inoBlk i := by
    intro j p hp
    have := h.dataStart_le hp
    omega
  have haddr : ∀ j, addrAt (d.putInode i ino).disk (A j) = addrAt d.disk (A j) := fun j =>
    Sound.addrAt_update _ (fun j p _ hp => hne j p hp) j
  have hbits : ∀ c, c < d.superb.numBits → (d.putInode i ino).used c = d.used c :=
    fun c hc => used_update_of_not_inBitmap _ _ _ (Superblock.inoBlk_not_inBitmap h.layout i) hc
  refine ⟨⟨h.congr rfl hbits ?_, rfl, rfl, ?_, fun j hj _ => d.inode_putInode_ne ino hj,
    fun _ _ => rfl, fun j _ => haddr j, fun j p _ hp => ?_⟩, haddr⟩
  · funext ⟨j, p⟩
    exact congrFun (haddr j) p
  · refine update_of_ne ?_ _ _
    have := h.layout.bitmap
    have := h.layout.inodes
    unfold Superblock.inoBlk
    omega
  · exact update_of_ne (hne j p hp) _ _

end Cosiris.Cofs
