import Cosiris.Cofs.BlockMap

/-!
# Reading and writing a file

`cofs_read` and `cofs_write`, and what they mean for the contents of a file: the
bytes of its blocks, in the order of the file.
-/

namespace Cosiris.Cofs

open Function Prog

variable {X : ℕ → Prop}

/-- The loop of `cofs_read`, with `rem` bytes to go; at least one is copied in each of the `n`
rounds. -/
def readLoop : ℕ → ℕ → ℕ → Prog Halt Open (List UInt8)
  | 0, _, _ => pure []
  | n + 1, offset, rem =>
    if rem = 0 then pure [] else do
      let b ← blockMap (offset / 512)
      let buf ← onDev (getHdBuf b)
      let numBytes := min rem (512 - offset % 512)
      let bytes := getBytes buf (offset % 512) numBytes
      onDev (putHdBuf b)
      let rest ← readLoop n (offset + numBytes) (rem - numBytes)
      return bytes ++ rest

/-- `cofs_read`: the number it returns and the bytes it has copied. -/
def cofsRead (offset size : ℕ) : Prog Halt Open (ℕ × List UInt8) := do
  let o ← read
  if offset > o.node.size then return (0, [])
  else do
    let size := if (offset + size) % 2 ^ 32 > o.node.size then o.node.size - offset else size
    let bytes ← readLoop size offset size
    return (size, bytes)

/-- The loop of `cofs_write`, with the bytes `buffer` to go; at least one is copied in each of
the `n` rounds. It returns the offset it has reached. -/
def writeLoop : ℕ → ℕ → List UInt8 → Prog Halt Open ℕ
  | 0, offset, _ => pure offset
  | n + 1, offset, buffer =>
    if buffer = [] then pure offset else do
      let b ← blockMap (offset / 512)
      let buf ← onDev (getHdBuf b)
      let numBytes := min buffer.length (512 - offset % 512)
      onDev (setBuf b (putBytes buf (offset % 512) (buffer.take numBytes)))
      onDev (putHdBuf b)
      writeLoop n (offset + numBytes) (buffer.drop numBytes)

/-- The limit of `cofs_write`: `MAX_FILE_SIZE * BLOCK_SIZE`, where the macro `MAX_FILE_SIZE` is
the sum `NUM_DIRECT + NUM_SIND + NUM_DIND` without parentheses, so that only its last term is
multiplied. -/
def maxFileSize : ℕ := 6 + 128 + 128 * 128 * 512

/-- `cofs_write`. -/
def cofsWrite (offset : ℕ) (buffer : List UInt8) : Prog Halt Open ℕ := do
  let o ← read
  if offset > o.node.size then return 0
  else if (offset + buffer.length) % 2 ^ 32 > maxFileSize then return 0
  else do
    let offset' ← writeLoop buffer.length offset buffer
    let o ← read
    if 0 < buffer.length ∧ o.node.size < offset' then
      setNode fun node => { node with size := offset' }
      let o ← read
      onDev (cofsUpdateNode o.node)
    return buffer.length

/-! ### Contents -/

/-- Byte `q` of a file. -/
def byteAt (disk : ℕ → Block) (addrs : ℕ → ℕ) (q : ℕ) : UInt8 :=
  disk (addrAt disk addrs (Place.leafOf (q / 512))) (q % 512)

/-- The contents of a file. -/
def contents (disk : ℕ → Block) (addrs : ℕ → ℕ) (size : ℕ) : List UInt8 :=
  getBytes (byteAt disk addrs) 0 size

/-- Every block of a file is there, as far as its size goes. -/
def Filled (disk : ℕ → Block) (addrs : ℕ → ℕ) (size : ℕ) : Prop :=
  size ≤ 16518 * 512 ∧ ∀ q, q < size → addrAt disk addrs (Place.leafOf (q / 512)) ≠ 0

@[simp] theorem length_contents (disk : ℕ → Block) (addrs : ℕ → ℕ) (size : ℕ) :
    (contents disk addrs size).length = size := length_getBytes _ _ _

/-- A part of the contents. -/
theorem drop_take_contents (disk : ℕ → Block) (addrs : ℕ → ℕ) {size a n : ℕ} (h : a + n ≤ size) :
    ((contents disk addrs size).drop a).take n = getBytes (byteAt disk addrs) a n := by
  refine List.ext_getElem (by simp; omega) fun i h1 h2 => ?_
  simp [contents, getBytes]

/-! ### Reading -/

theorem readLoop_eq {o : Open} (hh : o.dev.held = []) {n offset rem : ℕ} (hn : rem ≤ n)
    (hb : offset + rem ≤ 16518 * 512)
    (hp : ∀ q, offset ≤ q → q < offset + rem →
      addrAt o.dev.disk o.node.addrs (Place.leafOf (q / 512)) ≠ 0)
    {Q : List UInt8 → Open → Prop} {E : Halt → Open → Prop} :
    wp (readLoop n offset rem) Q E o =
      Q (getBytes (byteAt o.dev.disk o.node.addrs) offset rem) o := by
  induction n generalizing offset rem Q with
  | zero =>
    obtain rfl : rem = 0 := by omega
    rfl
  | succ n ih =>
    unfold readLoop
    rw [wp_ite]
    split_ifs with h0
    · rw [h0]
      rfl
    · simp only [wp_bind, wp_onDev, wp_getHdBuf, wp_putHdBuf, wp_pure]
      rw [blockMap_of_ne hh (by omega) (hp offset (Nat.le_refl _) (by omega))]
      simp only [hh, List.not_mem_nil, if_false, List.erase_cons_head]
      have ho : (⟨⟨o.dev.superb, o.dev.disk, [], o.dev.freed⟩, o.node⟩ : Open) = o := by
        rw [← hh]
      rw [ho]
      generalize hm : min rem (512 - offset % 512) = m
      have hbytes :
        getBytes (o.dev.disk (addrAt o.dev.disk o.node.addrs (Place.leafOf (offset / 512))))
          (offset % 512) m = getBytes (byteAt o.dev.disk o.node.addrs) offset m := by
        unfold getBytes byteAt
        refine List.map_congr_left fun k hk => ?_
        rw [List.mem_range] at hk
        rw [show (offset + k) / 512 =
          offset / 512 by omega, show (offset + k) % 512 = offset % 512 + k by omega]
      rw [ih (by omega) (by omega) (fun q h1 h2 => hp q (by omega) (by omega)), hbytes,
        ← getBytes_add,
        show m + (rem - m) = rem by omega]

/-- `cofs_read` with its range cut to the file. -/
theorem cofsRead_of_cut {o : Open} (hh : o.dev.held = [])
    (hf : Filled o.dev.disk o.node.addrs o.node.size) {offset n : ℕ}
    (hk : offset ≤ o.node.size →
      (if (offset + n) % 2 ^ 32 > o.node.size then o.node.size - offset else n) =
        min n (o.node.size - offset))
    {Q : ℕ × List UInt8 → Open → Prop} {E : Halt → Open → Prop} :
    wp (cofsRead offset n) Q E o = Q (min n (o.node.size - offset),
      ((contents o.dev.disk o.node.addrs o.node.size).drop offset).take n) o := by
  obtain ⟨hsize, hp⟩ := hf
  simp only [cofsRead, wp_bind, wp_read, wp_ite, wp_pure]
  by_cases h1 : offset > o.node.size
  · rw [if_pos h1, List.drop_eq_nil_of_le (by simp; omega), show min n (o.node.size - offset) =
      0 by omega,
      List.take_nil]
  · rw [if_neg h1, hk (by omega)]
    have hle : offset + min n (o.node.size - offset) ≤ o.node.size := by omega
    rw [readLoop_eq hh (Nat.le_refl _) (by omega) fun q _ h2 => hp q (by omega)]
    rw [← drop_take_contents _ _ hle]
    congr 2
    rw [List.take_eq_take_iff]
    simp

/-- **`cofs_read` returns the part of the contents that it is asked for**, and changes nothing. -/
theorem cofsRead_eq {o : Open} (hh : o.dev.held = [])
    (hf : Filled o.dev.disk o.node.addrs o.node.size) {offset n : ℕ}
    (hw : offset + n < 2 ^ 32) {Q : ℕ × List UInt8 → Open → Prop} {E : Halt → Open → Prop} :
    wp (cofsRead offset n) Q E o = Q (min n (o.node.size - offset),
      ((contents o.dev.disk o.node.addrs o.node.size).drop offset).take n) o := by
  apply cofsRead_of_cut hh hf
  intro ho
  rw [Nat.mod_eq_of_lt hw]
  split_ifs <;> omega

/-! ### Writing -/

/-- The places through which the `n` bytes from `offset` are reached. -/
def Spans (offset n : ℕ) (p : Place) : Prop :=
  ∃ f, p.Covers f ∧ offset / 512 ≤ f ∧ f * 512 < offset + n

theorem Spans.mono {offset n offset' n' : ℕ} (h1 : offset ≤ offset')
    (h2 : offset' + n' ≤ offset + n) {p : Place} (h : Spans offset' n' p) : Spans offset n p := by
  obtain ⟨f, hc, hf, hlt⟩ := h
  exact ⟨f, hc, by omega, by omega⟩

/-- What the loop of `cofs_write` does to the disk: inode `i` has the blocks it needs, `bs`
stands in them from `offset`, and the other bytes of its blocks are as they were. -/
structure Filling (X : ℕ → Prop) (d : Dev) (A : ℕ → ℕ → ℕ) (i offset : ℕ)
    (bs : List UInt8) (d' : Dev) (A' : ℕ → ℕ → ℕ) : Prop
    extends Grow X d A i (Spans offset bs.length) d' A' where
  there : ∀ k, k < bs.length → addrAt d'.disk (A' i) (Place.leafOf ((offset + k) / 512)) ≠ 0
  bytes : ∀ k, k < bs.length → byteAt d'.disk (A' i) (offset + k) = bs.getD k 0
  others : ∀ q, q / 512 < 16518 → q < offset ∨ offset + bs.length ≤ q →
    addrAt d.disk (A i) (Place.leafOf (q / 512)) ≠ 0 →
      byteAt d'.disk (A' i) q = byteAt d.disk (A i) q

theorem Filling.nil {d : Dev} {A : ℕ → ℕ → ℕ} (h : Sound X d A) (i offset : ℕ) :
    Filling X d A i offset [] d A where
  toGrow := Grow.refl h i _
  there := fun _ hk => absurd hk (Nat.not_lt_zero _)
  bytes := fun _ hk => absurd hk (Nat.not_lt_zero _)
  others := fun _ _ _ _ => rfl

/-- Filling piece by piece. -/
theorem Filling.append {d d₁ d₂ : Dev} {A A₁ A₂ : ℕ → ℕ → ℕ} {i offset offset' : ℕ}
    {xs ys : List UInt8} (h : Filling X d A i offset xs d₁ A₁)
    (h' : Filling X d₁ A₁ i offset' ys d₂ A₂) (ho : offset' = offset + xs.length)
    (hb : offset + (xs.length + ys.length) ≤ 16518 * 512) :
    Filling X d A i offset (xs ++ ys) d₂ A₂ where
  toGrow := (h.toGrow.mono fun _ hp => hp.mono (Nat.le_refl _) (by simp)).trans
    (h'.toGrow.mono fun _ hp => hp.mono (by omega) (by simp; omega))
  there := by
    intro k hk
    rw [List.length_append] at hk
    by_cases hx : k < xs.length
    · rw [h'.keep _ (h.there k hx)]
      exact h.there k hx
    · have := h'.there (k - xs.length) (by omega)
      rwa [show offset' + (k - xs.length) = offset + k by omega] at this
  bytes := by
    intro k hk
    rw [List.length_append] at hk
    by_cases hx : k < xs.length
    · rw [h'.others _ (by omega) (.inl (by omega)) (h.there k hx), h.bytes k hx,
        List.getD_append _ _ _ _ hx]
    · have := h'.bytes (k - xs.length) (by omega)
      rwa [show offset' + (k - xs.length) = offset + k by omega,
        ← List.getD_append_right _ _ _ _ (by omega)] at this
  others := by
    intro q hq hout hp
    rw [List.length_append] at hout
    rw [h'.others q hq (by omega) (by rw [h.keep _ hp]; exact hp), h.others q hq (by omega) hp]

/-- One round of the loop: the bytes of one block. -/
theorem Filling.round {d d₁ : Dev} {A A₁ : ℕ → ℕ → ℕ} {i offset : ℕ} {bs : List UInt8}
    (hx : Extend X d A i (·.Covers (offset / 512)) d₁ A₁) (hpos : bs ≠ [])
    (hlen : offset % 512 + bs.length ≤ 512)
    (hb : offset / 512 < 16518) (hp : addrAt d₁.disk (A₁ i) (Place.leafOf (offset / 512)) ≠ 0) :
    Filling X d A i offset bs
      ⟨d₁.superb, update d₁.disk (addrAt d₁.disk (A₁ i) (Place.leafOf (offset / 512)))
      (putBytes (d₁.disk (addrAt d₁.disk (A₁ i) (Place.leafOf (offset / 512)))) (offset % 512) bs),
      d₁.held, d₁.freed⟩ A₁ := by
  have hlen0 : 0 < bs.length := List.length_pos_iff.mpr hpos
  have hw := hx.sound.writeLeaf (i := i) Place.leaf_leafOf hp
    (putBytes (d₁.disk (addrAt d₁.disk (A₁ i) (Place.leafOf (offset / 512)))) (offset % 512) bs)
    (Spans offset bs.length)
  have haddr : addrAt (update d₁.disk (addrAt d₁.disk (A₁ i) (Place.leafOf (offset / 512)))
      (putBytes (d₁.disk (addrAt d₁.disk (A₁ i) (Place.leafOf (offset / 512)))) (offset % 512) bs))
        (A₁ i) =
      addrAt d₁.disk (A₁ i) :=
    Sound.addrAt_update _ (fun j q hq hq0 e => hq ((hx.sound.inj hq0 e).2 ▸ Place.leaf_leafOf)) i
  have hsame : ∀ k, k < bs.length → (offset + k) / 512 = offset / 512 := fun k hk => by omega
  refine ⟨(hx.toGrow.mono fun p hc => ⟨_, hc, Nat.le_refl _, by omega⟩).trans hw, fun k hk =>
    ?_, fun k hk => ?_,
    fun q hq hout hq0 => ?_⟩
  · dsimp only
    rwa [haddr, hsame k hk]
  · unfold byteAt
    dsimp only
    rw [haddr, hsame k hk, update_self, show (offset + k) % 512 =
      offset % 512 + k by omega, putBytes_at hk]
  · unfold byteAt
    dsimp only
    rw [haddr]
    by_cases hqf : q / 512 = offset / 512
    · have hkeep := hx.keep _ hq0
      rw [hqf] at hq0 hkeep ⊢
      rw [update_self, hkeep]
      have hbyte : ∀ m : Block, putBytes m (offset % 512) bs (q % 512) = m (q % 512) := by
        intro m
        rcases hout with h | h
        · exact putBytes_of_lt (by omega)
        · exact putBytes_of_ge (by omega)
      rw [hbyte, hx.leaf _ Place.leaf_leafOf hq0]
    · have hkeep := hx.keep _ hq0
      rw [update_of_ne, hkeep, hx.leaf _ Place.leaf_leafOf hq0]
      intro e
      exact hqf (leafOf_inj hq hb (hx.sound.inj (by rw [hkeep]; exact hq0) e).2)

theorem writeLoop_spec {o : Open} {A : ℕ → ℕ → ℕ} {i n offset : ℕ} {bs : List UInt8}
    (h : Sound X o.dev A)
    (hA : A i = o.node.addrs) (hh : o.dev.held = []) (hn : bs.length ≤ n)
    (hb : offset + bs.length ≤ 16518 * 512) :
    wp (writeLoop n offset bs) (fun offset' o' => offset' = offset + bs.length ∧
        o'.node = o.node.withAddrs o'.node.addrs ∧
        Filling X o.dev A i offset bs o'.dev (update A i o'.node.addrs))
      (fun e o' => Short o.dev A i (Spans offset bs.length) e o'.dev) o := by
  have hdone : Filling X o.dev A i offset [] o.dev (update A i o.node.addrs) := by
    rw [← hA, update_eq_self]
    exact Filling.nil h i offset
  induction n generalizing o A offset bs with
  | zero =>
    obtain rfl : bs = [] := List.length_eq_zero_iff.mp (by omega)
    exact ⟨rfl, rfl, hdone⟩
  | succ n ih =>
    unfold writeLoop
    rw [wp_ite]
    split_ifs with h0
    · subst h0
      exact ⟨rfl, rfl, hdone⟩
    · have hpos : 0 < bs.length := List.length_pos_iff.mpr h0
      simp only [wp_bind]
      refine (blockMap_spec h hA hh (by omega)).mono (fun b o₁ hm => ?_) fun e o' he => ?_
      · obtain ⟨hx, hnode, rfl, hb0⟩ := hm
        have hheld : o₁.dev.held = [] := hx.held.trans hh
        simp only [wp_onDev, wp_getHdBuf, wp_setBuf, wp_putHdBuf, hheld, List.not_mem_nil, if_false,
          List.erase_cons_head]
        generalize hm : min bs.length (512 - offset % 512) = m
        have htake : (bs.take m).length = m := by rw [List.length_take]; omega
        have hne : bs.take m ≠ [] := by
          intro e
          rw [e, List.length_nil] at htake
          omega
        have hround := Filling.round hx hne (by omega) (by omega) (by rwa [update_self])
        rw [update_self] at hround
        rw [← hheld]
        refine (ih hround.sound (by rw [update_self]) (by exact hround.held.trans hh)
          (by rw [List.length_drop]; omega)
          (by rw [List.length_drop]; omega) ?_).mono ?_ fun e o' he => ?_
        · dsimp only
          rw [update_idem]
          exact Filling.nil hround.sound i _
        · rintro offset' o' ⟨rfl, hnode', hf⟩
          have hcat := hround.append hf (by rw [htake]) (by rw [htake, List.length_drop]; omega)
          rw [List.take_append_drop, update_idem] at hcat
          refine ⟨by rw [List.length_drop]; omega, ?_, hcat⟩
          rw [hnode', hnode]
          rfl
        · obtain ⟨he, hfr, hnone, hroom⟩ := he
          refine ⟨he, hfr.trans hround.freed, hnone, fun F hF hr =>
            hroom F (fun p hp => hF p (hp.mono (by omega) ?_))
            (hround.room F (fun p hp => hF p (hp.mono (Nat.le_refl _) (by omega))) hr)⟩
          rw [List.length_drop]
          omega
      · obtain ⟨he, hfr, hnone, hroom⟩ := he
        exact ⟨he, hfr, hnone,
          fun F hF => hroom F fun p hp => hF p ⟨_, hp, Nat.le_refl _, by omega⟩⟩

/-- What `cofs_write` does to the disk. -/
structure Wrote (X : ℕ → Prop) (d : Dev) (A : ℕ → ℕ → ℕ) (i offset : ℕ) (bs : List UInt8) (d' : Dev)
    (A' : ℕ → ℕ → ℕ) : Prop
    extends Frame X d A i d' A' where
  freed : d'.freed = d.freed
  spare : ∀ k, 8 ≤ k → A' i k = A i k
  keep : ∀ p, addrAt d.disk (A i) p ≠ 0 → addrAt d'.disk (A' i) p = addrAt d.disk (A i) p
  new : ∀ p, addrAt d'.disk (A' i) p ≠ 0 → addrAt d.disk (A i) p ≠ 0 ∨ Spans offset bs.length p
  there : ∀ k, k < bs.length → addrAt d'.disk (A' i) (Place.leafOf ((offset + k) / 512)) ≠ 0
  bytes : ∀ k, k < bs.length → byteAt d'.disk (A' i) (offset + k) = bs.getD k 0
  others : ∀ q, q / 512 < 16518 → q < offset ∨ offset + bs.length ≤ q →
    addrAt d.disk (A i) (Place.leafOf (q / 512)) ≠ 0 →
      byteAt d'.disk (A' i) q = byteAt d.disk (A i) q

theorem Filling.wrote {d d' : Dev} {A A' : ℕ → ℕ → ℕ} {i offset : ℕ} {bs : List UInt8}
    (h : Filling X d A i offset bs d' A') : Wrote X d A i offset bs d' A' :=
  ⟨h.toFrame, h.freed, h.spare, h.keep, h.new, h.there, h.bytes, h.others⟩

theorem Wrote.writeInode {d d' : Dev} {A A' : ℕ → ℕ → ℕ} {i offset : ℕ} {bs : List UInt8}
    (h : Wrote X d A i offset bs d' A') (hi : i < d.superb.numInodes) (ino : Inode) :
    Wrote X d A i offset bs (d'.putInode i ino) A' := by
  have hi' : i < d'.superb.numInodes := by rw [h.superb]; exact hi
  obtain ⟨hframe, haddr⟩ := h.sound.writeInode hi' ino
  have hbyte : ∀ q, addrAt d'.disk (A' i) (Place.leafOf (q / 512)) ≠ 0 →
      byteAt (d'.putInode i ino).disk (A' i) q = byteAt d'.disk (A' i) q := by
    intro q hq
    unfold byteAt
    rw [haddr]
    have hge := h.sound.dataStart_le hq
    have hlt := Superblock.inoBlk_lt_dataStart hi'
    unfold Dev.putInode
    dsimp only
    rw [update_of_ne (by omega)]
  refine ⟨h.toFrame.trans hframe, h.freed, h.spare, fun p hp => ?_, fun p hp => ?_, fun k hk =>
    ?_, fun k hk => ?_, fun q hq hout hp => ?_⟩
  · rw [haddr, h.keep p hp]
  · rw [haddr] at hp
    exact h.new p hp
  · rw [haddr]
    exact h.there k hk
  · rw [hbyte _ (h.there k hk), h.bytes k hk]
  · rw [hbyte _ (by rw [h.keep _ hp]; exact hp), h.others q hq hout hp]

/-- **`cofs_write` writes its buffer**, sets the size of the node and writes the record of the
node when the file has grown. -/
theorem cofsWrite_spec {o : Open} {A : ℕ → ℕ → ℕ} {i offset : ℕ} {bs : List UInt8}
    (h : Sound X o.dev A)
    (hA : A i = o.node.addrs) (hi : o.node.inode = i) (hlt : i < o.dev.superb.numInodes)
    (hh : o.dev.held = [])
    (ho : offset ≤ o.node.size) (hb : offset + bs.length ≤ maxFileSize) :
    wp (cofsWrite offset bs) (fun n o' => n = bs.length ∧
        o'.node = { o.node with addrs := o'.node.addrs,
                                size := max o.node.size (offset + bs.length) } ∧
        Wrote X o.dev A i offset bs o'.dev (update A i o'.node.addrs) ∧
        o'.dev.inode i = if o.node.size < offset + bs.length then o'.node.pack else o.dev.inode i)
      (fun e o' => Short o.dev A i (Spans offset bs.length) e o'.dev) o := by
  unfold maxFileSize at hb
  simp only [cofsWrite, wp_bind, wp_read, wp_ite, wp_pure]
  rw [if_neg (by omega), Nat.mod_eq_of_lt (by omega), if_neg (by unfold maxFileSize; omega)]
  refine (writeLoop_spec h hA hh (Nat.le_refl _) (by omega)).mono ?_ fun _ _ he => he
  rintro offset' o' ⟨rfl, hnode, hf⟩
  have hsize : o'.node.size = o.node.size := by rw [hnode]; rfl
  rw [hsize]
  by_cases hgrow : o.node.size < offset + bs.length
  · rw [if_pos ⟨by omega, hgrow⟩]
    have hino : o'.node.inode = i := by rw [hnode]; exact hi
    simp only [wp_setNode, wp_onDev]
    rw [wp_cofsUpdateNode (by simp [hf.held, hh])]
    rw [if_pos hgrow]
    refine ⟨trivial, ?_, ?_, ?_⟩
    · rw [hnode, Nat.max_eq_right (by omega)]
      rfl
    · dsimp only
      rw [hino]
      exact hf.wrote.writeInode hlt _
    · dsimp only
      rw [hino]
      exact Dev.inode_putInode_self _ _ (FsNode.pack_fits _)
  · rw [if_neg (by omega), if_neg hgrow]
    refine ⟨trivial, ?_, hf.wrote, hf.record hlt⟩
    rw [hnode, Nat.max_eq_left (by omega)]
    rfl

/-- The bytes `old` with `bs` written over them from `offset`. -/
def overlay (old : List UInt8) (offset : ℕ) (bs : List UInt8) : List UInt8 :=
  old.take offset ++ bs ++ old.drop (offset + bs.length)

/-- Every block of the file is there after the write. -/
theorem Wrote.filled {d d' : Dev} {A A' : ℕ → ℕ → ℕ} {i offset size : ℕ} {bs : List UInt8}
    (h : Wrote X d A i offset bs d' A') (hf : Filled d.disk (A i) size) (ho : offset ≤ size)
    (hb : offset + bs.length ≤ 16518 * 512) :
    Filled d'.disk (A' i) (max size (offset + bs.length)) := by
  refine ⟨by have := hf.1; omega, fun q hq => ?_⟩
  by_cases hin : q < size
  · have := hf.2 q hin
    rwa [h.keep _ this]
  · have := h.there (q - offset) (by omega)
    rwa [show offset + (q - offset) = q by omega] at this

/-- **The contents after the write.** -/
theorem Wrote.contents {d d' : Dev} {A A' : ℕ → ℕ → ℕ} {i offset size : ℕ} {bs : List UInt8}
    (h : Wrote X d A i offset bs d' A') (hf : Filled d.disk (A i) size) (ho : offset ≤ size) :
    contents d'.disk (A' i) (max size (offset + bs.length)) =
      overlay (contents d.disk (A i) size) offset bs := by
  have hsize := hf.1
  unfold overlay
  refine List.ext_getElem (by simp; omega) fun q h1 h2 => ?_
  rw [length_contents] at h1
  have hget : (Cofs.contents d'.disk (A' i) (max size (offset + bs.length)))[q] =
    byteAt d'.disk (A' i) q := by
    simp [Cofs.contents, getBytes]
  have hold : ∀ k (hk : k < (Cofs.contents d.disk (A i) size).length),
      (Cofs.contents d.disk (A i) size)[k] = byteAt d.disk (A i) k := by
    intro k hk
    simp [Cofs.contents, getBytes]
  rw [hget]
  by_cases hq1 : q < offset
  · rw [List.getElem_append_left (by simp; omega), List.getElem_append_left (by simp; omega),
      List.getElem_take,
      hold, h.others q (by omega) (.inl hq1) (hf.2 q (by omega))]
  · by_cases hq2 : q < offset + bs.length
    · rw [List.getElem_append_left (by simp; omega), List.getElem_append_right (by simp; omega)]
      have := h.bytes (q - offset) (by omega)
      rw [show offset + (q - offset) = q by omega] at this
      rw [this, List.getD_eq_getElem _ _ (by omega)]
      congr 1
      simp
      omega
    · rw [List.getElem_append_right (by simp; omega), List.getElem_drop, hold,
        h.others q (by omega) (.inr (by omega)) (hf.2 q (by omega))]
      congr 1
      simp
      omega

/-! ### The other files -/

/-- The other files keep their contents. -/
theorem Frame.byteAt {d d' : Dev} {A A' : ℕ → ℕ → ℕ} {i j : ℕ}
    (h : Frame X d A i d' A') (hj : j ≠ i) {q : ℕ}
    (hq : addrAt d.disk (A j) (Place.leafOf (q / 512)) ≠ 0) :
    byteAt d'.disk (A' j) q = byteAt d.disk (A j) q := by
  unfold Cofs.byteAt
  rw [h.table j hj, h.rest j hj, h.blocks j _ hj hq]

theorem Frame.filled {d d' : Dev} {A A' : ℕ → ℕ → ℕ} {i j size : ℕ} (h : Frame X d A i d' A')
    (hj : j ≠ i)
    (hf : Filled d.disk (A j) size) : Filled d'.disk (A' j) size := by
  refine ⟨hf.1, fun q hq => ?_⟩
  rw [h.table j hj, h.rest j hj]
  exact hf.2 q hq

theorem Frame.contents {d d' : Dev} {A A' : ℕ → ℕ → ℕ} {i j size : ℕ} (h : Frame X d A i d' A')
    (hj : j ≠ i)
    (hf : Filled d.disk (A j) size) : contents d'.disk (A' j) size =
    contents d.disk (A j) size := by
  refine getBytes_congr fun q hq => ?_
  rw [Nat.zero_add]
  exact h.byteAt hj (hf.2 q hq)

/-- Writing inside a file whose blocks are all there moves no address. -/
theorem Wrote.addrs_eq {d d' : Dev} {A A' : ℕ → ℕ → ℕ} {i offset size : ℕ} {bs : List UInt8}
    (h : Wrote X d A i offset bs d' A') (hf : Filled d.disk (A i) size)
    (hin : offset + bs.length ≤ size) :
    A' i = A i := by
  have hp : ∀ p, addrAt d'.disk (A' i) p = addrAt d.disk (A i) p := by
    intro p
    by_cases h0 : addrAt d.disk (A i) p = 0
    · rw [h0]
      by_contra h1
      rcases h.new p h1 with hp | ⟨f, hc, hge, hlt⟩
      · exact hp h0
      · have := hf.2 (f * 512) (by omega)
        rw [show f * 512 / 512 = f by omega] at this
        exact addrAt_ne_zero_of_covers this hc h0
    · exact h.keep p h0
  funext k
  by_cases hk : k < 8
  · exact hp (.top ⟨k, hk⟩)
  · exact h.spare k (by omega)

end Cosiris.Cofs
