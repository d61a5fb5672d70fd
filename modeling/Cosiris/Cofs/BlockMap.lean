import Cosiris.Cofs.Sound

/-!
# `block_map`

The block of the disk that holds a block of a file, allocated on the way if it is
not there, together with the indirect blocks that lead to it.
-/

namespace Cosiris.Cofs

open Function Prog

variable {X : ℕ → Prop}

/-- The address in entry `j` of the node's array; a block is allocated if there is none. -/
def mapAddr (j : ℕ) : Prog Halt Open ℕ := do
  let o ← read
  if o.node.addrs j = 0 then
    let b ← onDev blockAlloc
    setNode fun node => node.withAddrs (update node.addrs j b)
  let o ← read
  return o.node.addrs j

/-- The address in entry `k` of the indirect block `b`; a block is allocated if there is none. -/
def mapEntry (b k : ℕ) : Prog Halt Dev ℕ := do
  let buf ← getHdBuf b
  if word buf k = 0 then
    let a ← blockAlloc
    let d ← read
    setBuf b (setWord (d.disk b) k a)
  let d ← read
  putHdBuf b
  return word (d.disk b) k

/-- `block_map`. Six direct addresses (`NUM_DIRECT`) come first, then 128 through the single
indirect block (`NUM_SIND`, at `SIND_IDX`), then 128 times 128 through the double indirect
block (`NUM_DIND`, at `DIND_IDX`). -/
def blockMap (fbn : ℕ) : Prog Halt Open ℕ :=
  if fbn < 6 then mapAddr fbn
  else if fbn < 134 then do
    let b ← mapAddr 6
    onDev (mapEntry b (fbn - 6))
  else if fbn < 16518 then do
    let b ← mapAddr 7
    let mblk ← onDev (mapEntry b ((fbn - 134) / 128))
    onDev (mapEntry mblk ((fbn - 134) % 128))
  else halt (.panic "block_map out of range\n")

/-- Every block of the partition is in use. -/
def Dev.NoneFree (d : Dev) : Prop := ∀ b, b < d.superb.size → d.used b = true

/-- A program stopped for want of free blocks: none is left, and there were fewer than inode `i`
needs for the places `P`. -/
def Short (d : Dev) (A : ℕ → ℕ → ℕ) (i : ℕ) (P : Place → Prop) (e : Halt) (d' : Dev) : Prop :=
  e = .panic "Cannot find any free block" ∧ d'.freed = d.freed ∧ d'.NoneFree ∧
    ∀ F : Place → Prop, (∀ p, P p → F p) → ¬ Room d A i F

section

variable {d d₁ : Dev} {A A₁ : ℕ → ℕ → ℕ} {i : ℕ} {P : Place → Prop}

theorem Short.of_grow (h : Grow X d A i P d₁ A₁) {e : Halt} {d' : Dev} (hs : Short d₁ A₁ i P e d') :
    Short d A i P e d' :=
  ⟨hs.1, hs.2.1.trans h.freed, hs.2.2.1, fun F hF hr => hs.2.2.2 F hF (h.room F hF hr)⟩

theorem Dev.noneFree_of_full (hfull : ∀ c, c < d.superb.numBits → d.used c = true) :
    d.NoneFree := by
  intro b hb
  refine hfull b ?_
  unfold Superblock.numBits Superblock.numMaps
  omega

/-- With every bit set there is no room for a place that has no block. -/
theorem not_room_of_full (hfull : ∀ c, c < d.superb.numBits → d.used c = true) {p : Place}
    (hp : addrAt d.disk (A i) p = 0) {F : Place → Prop} (hF : F p) : ¬ Room d A i F := by
  have hpos := absent_pos hp hF
  have hzero : numFree d = 0 := by
    unfold numFree
    rw [Finset.card_eq_zero, Finset.filter_eq_empty_iff]
    intro c hc
    rw [Finset.mem_range] at hc
    rw [Dev.noneFree_of_full hfull c hc]
    exact Bool.true_eq_false.mp
  unfold Room
  omega

theorem mapAddr_spec {o : Open} (h : Sound X o.dev A) (hA : A i = o.node.addrs)
    (hh : o.dev.held = []) (j : Fin 8) (hP : P (.top j)) :
    wp (mapAddr j) (fun b o' => Extend X o.dev A i P o'.dev (update A i o'.node.addrs) ∧
        o'.node = o.node.withAddrs o'.node.addrs ∧ b = o'.node.addrs j ∧ b ≠ 0)
      (fun e o' => Short o.dev A i P e o'.dev) o := by
  simp only [mapAddr, wp_bind, wp_read, wp_ite, wp_onDev, wp_setNode, wp_pure]
  split_ifs with h0
  · have hp : addrAt o.dev.disk (A i) (.top j) = 0 := by rw [hA]; exact h0
    refine (blockAlloc_spec h.layout h.metaUsed (by simp [hh])).mono (fun b d₁ ht => ?_)
      fun e d' he => ?_
    · obtain ⟨hx, hb, hb0⟩ := h.take ht d₁ (update o.node.addrs j b) hp
        (by rw [hA]; rfl) rfl ht.held rfl fun _ _ => rfl
      exact ⟨hx.mono (by rintro _ rfl; exact hP), rfl,
        trivial, by rwa [FsNode.withAddrs_addrs, update_self]⟩
    · obtain ⟨he, rfl, hfull⟩ := he
      exact ⟨he, rfl, Dev.noneFree_of_full hfull, fun F hF => not_room_of_full hfull hp (hF _ hP)⟩
  · rw [← hA, update_eq_self]
    exact ⟨.refl h i P, by rw [hA]; rfl, trivial, by rwa [hA]⟩

theorem mapEntry_spec (h : Sound X d A) (hh : d.held = []) {p q : Place} (hq : p.parent = some q)
    (hq0 : addrAt d.disk (A i) q ≠ 0) (hP : P p) :
    wp (mapEntry (addrAt d.disk (A i) q) p.idx) (fun a d' => Extend X d A i P d' A ∧
        a = addrAt d'.disk (A i) p ∧ a ≠ 0)
      (Short d A i P) d := by
  simp only [mapEntry, wp_bind, wp_getHdBuf, wp_read, wp_ite, wp_setBuf, wp_putHdBuf, wp_pure, hh,
    List.not_mem_nil, if_false]
  have hword : word (d.disk (addrAt d.disk (A i) q)) p.idx = addrAt d.disk (A i) p := by
    rw [addrAt_of_parent_some hq, entry_of_ne hq0]
  split_ifs with h0
  · rw [hword] at h0
    have hbits : ∀ c, Dev.used ⟨d.superb, d.disk, [addrAt d.disk (A i) q], d.freed⟩ c =
      d.used c := fun _ => rfl
    refine (blockAlloc_spec (d := ⟨d.superb, d.disk, [addrAt d.disk (A i) q], d.freed⟩) h.layout
      h.metaUsed ?_).mono (fun b d₁ ht => ?_) fun e d' he => ?_
    · intro c hc
      obtain rfl := List.mem_singleton.mp hc
      exact ⟨h.not_inBitmap hq0, h.used hq0⟩
    · have ht' : d.Taken b { d₁ with held := [] } :=
        ⟨ht.superb, hh.symm, ht.freed, ht.lt, ht.fresh, ht.least, ht.used, ht.zero, ht.same⟩
      have h1 := h.addrAt_taken ht' i
      dsimp only at h1
      obtain ⟨hx, hb, hb0⟩ := h.take ht' ⟨d₁.superb, update d₁.disk (addrAt d.disk (A i) q)
          (setWord (d₁.disk (addrAt d.disk (A i) q)) p.idx b), [], d₁.freed⟩ (A i) h0
        (by
          unfold Place.Written
          rw [hq]
          dsimp only
          rw [h1, update_self]
          exact ⟨rfl, hq0, rfl⟩) rfl hh.symm rfl
        (by
          intro c hc
          have := hc q hq
          dsimp only at this ⊢
          rw [h1] at this
          rw [update_of_ne this])
      have herase : d₁.held.erase (addrAt d.disk (A i) q) = [] := by rw [ht.held]; simp
      rw [update_eq_self] at hx
      rw [herase, update_self, word_setWord_self _ _ (Nat.lt_trans ht.lt h.layout.numBits_lt)]
      exact ⟨hx.mono (by rintro _ rfl; exact hP), hb.symm, hb0⟩
    · obtain ⟨he, rfl, hfull⟩ := he
      exact ⟨he, rfl, Dev.noneFree_of_full hfull, fun F hF => not_room_of_full hfull h0 (hF _ hP)⟩
  · rw [List.erase_cons_head, ← hh, hword]
    rw [hword] at h0
    exact ⟨.refl h i P, rfl, h0⟩

end

/-- **`block_map` returns the block of a file block**, and allocates no more than the places
that lead to it. -/
theorem blockMap_spec {o : Open} {A : ℕ → ℕ → ℕ} {i fbn : ℕ} (h : Sound X o.dev A)
    (hA : A i = o.node.addrs)
    (hh : o.dev.held = []) (hf : fbn < 16518) :
    wp (blockMap fbn)
      (fun b o' => Extend X o.dev A i (·.Covers fbn) o'.dev (update A i o'.node.addrs) ∧
        o'.node = o.node.withAddrs o'.node.addrs ∧
        b = addrAt o'.dev.disk o'.node.addrs (Place.leafOf fbn) ∧ b ≠ 0)
      (fun e o' => Short o.dev A i (·.Covers fbn) e o'.dev) o := by
  have hcov := Place.covers_leafOf hf
  have hcov' := fun q (hq : (Place.leafOf fbn).parent = some q) => Place.covers_parent hq hcov
  unfold Place.leafOf at *
  unfold blockMap
  rw [wp_ite, wp_ite, wp_ite]
  split_ifs with h6 h134
  · rw [if_pos h6] at *
    have hj : ((Fin.ofNat 8 fbn : Fin 8) : ℕ) = fbn := by rw [Fin.val_ofNat]; omega
    have := mapAddr_spec (P := (·.Covers fbn)) h hA hh (Fin.ofNat 8 fbn) hcov
    rw [hj] at this
    simpa only [addrAt, hj] using this
  · rw [if_neg h6, if_pos h134] at *
    have hk : ((Fin.ofNat 128 (fbn - 6) : Fin 128) : ℕ) = fbn - 6 := by rw [Fin.val_ofNat]; omega
    rw [wp_bind]
    refine (mapAddr_spec (P := (·.Covers fbn)) h hA hh 6 (hcov' _ rfl)).mono
      (fun b o₁ hb => ?_) fun _ _ he => he
    obtain ⟨hx, hn, hb, hb0⟩ := hb
    rw [wp_onDev]
    have hq : addrAt o₁.dev.disk (update A i o₁.node.addrs i) (.top 6) = b := by
      rw [update_self, hb]; rfl
    have := mapEntry_spec (P := (·.Covers fbn)) (i := i) hx.sound (hx.held.trans hh)
      (p := .one (Fin.ofNat 128 (fbn - 6))) rfl (by rwa [hq]) hcov
    rw [hq, show (Place.one (Fin.ofNat 128 (fbn - 6))).idx = fbn - 6 from hk] at this
    refine this.mono (fun a d₂ ha => ?_) fun e d' he => he.of_grow hx.toGrow
    obtain ⟨hx', ha, ha0⟩ := ha
    rw [update_self] at ha
    exact ⟨hx.trans hx', hn, ha, ha0⟩
  · rw [if_neg h6, if_neg h134] at *
    have hm : ((Fin.ofNat 128 ((fbn - 134) / 128) : Fin 128) : ℕ) = (fbn - 134) / 128 := by
      rw [Fin.val_ofNat]; omega
    have hk : ((Fin.ofNat 128 ((fbn - 134) % 128) : Fin 128) : ℕ) = (fbn - 134) % 128 := by
      rw [Fin.val_ofNat]; omega
    have hcm := hcov' _ rfl
    rw [wp_bind]
    refine (mapAddr_spec (P := (·.Covers fbn)) h hA hh 7 (Place.covers_parent rfl hcm)).mono
      (fun b o₁ hb => ?_) fun _ _ he => he
    obtain ⟨hx, hn, hb, hb0⟩ := hb
    rw [wp_bind, wp_onDev]
    have hq : addrAt o₁.dev.disk (update A i o₁.node.addrs i) (.top 7) = b := by
      rw [update_self, hb]; rfl
    have hmid := mapEntry_spec (P := (·.Covers fbn)) (i := i) hx.sound (hx.held.trans hh)
      (p := .mid (Fin.ofNat 128 ((fbn - 134) / 128))) rfl (by rwa [hq]) hcm
    rw [hq, show (Place.mid (Fin.ofNat 128 ((fbn - 134) / 128))).idx = _ from hm] at hmid
    refine hmid.mono (fun mblk d₂ hmb => ?_) fun e d' he => he.of_grow hx.toGrow
    obtain ⟨hx₂, hmb, hmb0⟩ := hmb
    rw [wp_onDev]
    have := mapEntry_spec (P := (·.Covers fbn)) (i := i) hx₂.sound
      (hx₂.held.trans (hx.held.trans hh))
      (p := .two (Fin.ofNat 128 ((fbn - 134) / 128)) (Fin.ofNat 128 ((fbn - 134) % 128))) rfl
        (by rwa [← hmb]) hcov
    rw [← hmb,
      show (Place.two (Fin.ofNat 128 ((fbn - 134) / 128)) (Fin.ofNat 128 ((fbn - 134) % 128))).idx =
        _ from hk]
      at this
    refine this.mono (fun a d₃ ha => ?_) fun e d' he => (he.of_grow hx₂.toGrow).of_grow hx.toGrow
    obtain ⟨hx₃, ha, ha0⟩ := ha
    rw [update_self] at ha
    exact ⟨(hx.trans hx₂).trans hx₃, hn, ha, ha0⟩

theorem mapAddr_of_ne {o : Open} {j : ℕ} (h : o.node.addrs j ≠ 0) {Q : ℕ → Open → Prop}
    {E : Halt → Open → Prop} :
    wp (mapAddr j) Q E o = Q (o.node.addrs j) o := by
  simp only [mapAddr, wp_bind, wp_read, wp_ite, wp_pure, if_neg h]

theorem mapEntry_of_ne {d : Dev} {b k : ℕ} (hh : d.held = []) (h : word (d.disk b) k ≠ 0)
    {Q : ℕ → Dev → Prop}
    {E : Halt → Dev → Prop} : wp (mapEntry b k) Q E d = Q (word (d.disk b) k) d := by
  simp only [mapEntry, wp_bind, wp_getHdBuf, wp_read, wp_ite, wp_putHdBuf, wp_pure, hh,
    List.not_mem_nil, if_false, if_neg h, List.erase_cons_head]
  cases d
  subst hh
  rfl

/-- **`block_map` of a block that is there changes nothing.** -/
theorem blockMap_of_ne {o : Open} {fbn : ℕ} (hh : o.dev.held = []) (hf : fbn < 16518)
    (h : addrAt o.dev.disk o.node.addrs (Place.leafOf fbn) ≠ 0) {Q : ℕ → Open → Prop}
    {E : Halt → Open → Prop} :
    wp (blockMap fbn) Q E o = Q (addrAt o.dev.disk o.node.addrs (Place.leafOf fbn)) o := by
  unfold Place.leafOf at *
  unfold blockMap
  rw [wp_ite, wp_ite, wp_ite]
  split_ifs with h6 h134
  · rw [if_pos h6] at h
    have hj : ((Fin.ofNat 8 fbn : Fin 8) : ℕ) = fbn := by rw [Fin.val_ofNat]; omega
    simp only [addrAt, hj] at *
    rw [mapAddr_of_ne h]
  · rw [if_neg h6, if_pos h134] at h
    have hk : ((Fin.ofNat 128 (fbn - 6) : Fin 128) : ℕ) = fbn - 6 := by rw [Fin.val_ofNat]; omega
    have hb := addrAt_parent_ne_zero (p := .one (Fin.ofNat 128 (fbn - 6))) rfl h
    have hb : o.node.addrs 6 ≠ 0 := hb
    simp only [addrAt, hk, entry_of_ne hb] at *
    rw [wp_bind, mapAddr_of_ne hb, wp_onDev, mapEntry_of_ne hh h]
  · rw [if_neg h6, if_neg h134] at h
    have hm : ((Fin.ofNat 128 ((fbn - 134) / 128) : Fin 128) : ℕ) = (fbn - 134) / 128 := by
      rw [Fin.val_ofNat]; omega
    have hk : ((Fin.ofNat 128 ((fbn - 134) % 128) : Fin 128) : ℕ) = (fbn - 134) % 128 := by
      rw [Fin.val_ofNat]; omega
    have hmb := addrAt_parent_ne_zero (p := .two _ _) rfl h
    have hb := addrAt_parent_ne_zero (p := .mid _) rfl hmb
    have hb : o.node.addrs 7 ≠ 0 := hb
    simp only [addrAt, hm, hk, entry_of_ne hb] at *
    simp only [entry_of_ne hmb] at *
    rw [wp_bind, mapAddr_of_ne hb, wp_bind, wp_onDev, mapEntry_of_ne hh hmb, wp_onDev,
      mapEntry_of_ne hh h]

end Cosiris.Cofs
