import Cosiris.Cofs.Format

/-!
# What the formatter lays out

The formatter takes its blocks in the way `block_alloc` of the kernel does: if the bitmap of the
partition had the bits of all blocks below `free_block` set, the next block would be the first
that is free. The proofs look at the image with such a bitmap, `view`, so that what is known of
the blocks of a file in the kernel can be used here. -/

namespace Cosiris.Mkcofs

open Function Prog Cofs

/-! ### The partition -/

theorem bitAt_bits (n j : ℕ) : bitAt (bits n) j = decide (j < n) := by
  induction n with
  | zero =>
    rw [bits, List.range_zero, List.foldl_nil]
    simp [bitAt, zeroBlock]
  | succ n ih =>
    unfold bits at ih ⊢
    rw [List.range_succ, List.foldl_append, List.foldl_cons, List.foldl_nil, bitAt_setBit, ih]
    rw [← Bool.decide_or]
    congr 1
    rw [eq_iff_iff]
    omega

instance (sb : Superblock) (b : ℕ) : Decidable (sb.InBitmap b) :=
  inferInstanceAs (Decidable (_ ∧ _))

/-- The partition as the kernel sees it, with the blocks below `free_block` marked. -/
def Img.view (s : Img) : Dev where
  superb := s.superb
  disk b := if s.superb.InBitmap b then bits
    (s.freeBlock - 4096 * (b - s.superb.bitmapStart)) else s.block b
  held := []
  freed := []

/-- The geometry of the image: its sectors are those of the partition and what is before it, and
the offsets of their bytes are of 32 bits. -/
structure Geometry (s : Img) : Prop where
  sectors : s.sectors = s.superb.size + partitionOffset
  small : s.sectors < 2 ^ 23
  layout : s.superb.Layout

section

variable {s : Img} {b : ℕ} {buf : Block} {E : Stop → Img → Prop}

theorem seek_eq (h : b + partitionOffset < 2 ^ 23) : seek b = b + partitionOffset := by
  unfold seek
  omega

theorem view_of_inBitmap (hb : s.superb.InBitmap b) :
    s.view.disk b = bits (s.freeBlock - 4096 * (b - s.superb.bitmapStart)) := if_pos hb

theorem view_of_not_inBitmap (hb : ¬ s.superb.InBitmap b) : s.view.disk b = s.block b := if_neg hb

theorem view_used {c : ℕ} (hc : c < s.superb.numBits) :
    s.view.used c = decide (c < s.freeBlock) := by
  have hin : s.superb.InBitmap (s.superb.bitmapBlock c) := Superblock.inBitmap_bitmapBlock hc
  have hdisk : s.view.disk (s.superb.bitmapBlock c) = bits (s.freeBlock - 4096 * (c / 4096)) := by
    rw [view_of_inBitmap hin, Superblock.bitmapBlock, Nat.add_sub_cancel]
  show bitAt (s.view.disk (s.superb.bitmapBlock c)) (c % 4096) = _
  rw [hdisk, bitAt_bits]
  congr 1
  rw [eq_iff_iff]
  omega

/-- A read past the end of the image. -/
theorem wp_readSector_past (h : s.sectors ≤ seek b) {Q : Block → Img → Prop} :
    wp (readSector b) Q E s = E .exit s := by
  simp only [readSector, wp_bind, wp_read, wp_ite, wp_halt, wp_pure]
  rw [if_pos h]

namespace Geometry

variable (h : Geometry s)

include h

theorem seek_of_le (hb : b ≤ s.superb.size) : seek b = b + partitionOffset := by
  have hs := h.small
  rw [h.sectors] at hs
  exact seek_eq (by omega)

theorem wp_readSector (hb : b < s.superb.size) {Q : Block → Img → Prop} :
    wp (readSector b) Q E s = Q (s.block b) s := by
  have hs := h.sectors
  simp only [readSector, wp_bind, wp_read, wp_ite, wp_halt, wp_pure]
  rw [h.seek_of_le (Nat.le_of_lt hb), if_neg (by omega)]
  rfl

/-- A read of the first block behind the partition. -/
theorem wp_readSector_end {Q : Block → Img → Prop} :
    wp (readSector s.superb.size) Q E s = E .exit s := by
  refine wp_readSector_past ?_
  rw [h.seek_of_le (Nat.le_refl _)]
  exact Nat.le_of_eq h.sectors

/-- The image with a block of the partition written. -/
theorem wp_writeSector (hb : b < s.superb.size) {Q : Unit → Img → Prop} :
    wp (writeSector b buf) Q E s =
      Q () { s with disk := update s.disk (b + partitionOffset) buf } := by
  have hs := h.sectors
  simp only [writeSector, wp_modify]
  rw [h.seek_of_le (Nat.le_of_lt hb), Nat.max_eq_left (by omega)]

end Geometry

/-- The image with a block of the partition written. -/
def Img.write (s : Img) (b : ℕ) (buf : Block) : Img :=
  { s with disk := update s.disk (b + partitionOffset) buf }

theorem Img.block_write (s : Img) (b : ℕ) (buf : Block) :
    (s.write b buf).block = update s.block b buf := by
  funext c
  show update s.disk (b + partitionOffset) buf (c + partitionOffset) = _
  by_cases hc : c = b
  · rw [hc, update_self, update_self]
  · rw [update_of_ne hc, update_of_ne (by omega)]
    rfl

theorem Img.view_write (hb : ¬ s.superb.InBitmap b) :
    (s.write b buf).view = { s.view with disk := update s.view.disk b buf } := by
  have hdisk : (s.write b buf).view.disk = update s.view.disk b buf := by
    funext c
    by_cases hc : s.superb.InBitmap c
    · rw [update_of_ne (by rintro rfl; exact hb hc), view_of_inBitmap hc]
      exact view_of_inBitmap hc
    · rw [show (s.write b buf).view.disk c = (s.write b buf).block c from view_of_not_inBitmap hc,
        Img.block_write]
      by_cases hcb : c = b
      · rw [hcb, update_self, update_self]
      · rw [update_of_ne hcb, update_of_ne hcb, view_of_not_inBitmap hc]
  show (⟨s.superb, (s.write b buf).view.disk, [], []⟩ : Dev) = _
  rw [hdisk]
  rfl

end

/-! ### Taking a block -/

/-- No block but those of the files is marked. -/
abbrev NoOther : ℕ → Prop := fun _ => False

/-- The blocks below `free_block` are the metadata and the blocks of the inodes, whose addresses
are `A`; the others are zero. -/
structure Marks (s : Img) (A : ℕ → ℕ → ℕ) : Prop extends Geometry s where
  sound : Sound NoOther s.view A
  high : s.freeBlock ≤ s.superb.size
  fresh : ∀ b, s.freeBlock ≤ b → b < s.superb.size → s.block b = zeroBlock
  bitmap : ∀ b, s.superb.InBitmap b → s.block b = zeroBlock
  assigned : ∀ b ∈ s.assigned, b < s.superb.size
  boot : s.block 0 = zeroBlock
  super : s.block 1 = superBlock s.superb

/-- From `s` to `s'` inode `i` has gained `n` blocks, in places among `P`. -/
structure Adds (s : Img) (A : ℕ → ℕ → ℕ) (i : ℕ) (P : Place → Prop) (n : ℕ) (s' : Img)
    (A' : ℕ → ℕ → ℕ) : Prop where
  marks : Marks s' A'
  extend : Extend NoOther s.view A i P s'.view A'
  count : s'.freeBlock = s.freeBlock + n
  freeInode : s'.freeInode = s.freeInode

/-- There was no block left: the next read exits. -/
structure Full (s s' : Img) : Prop where
  geometry : Geometry s'
  superb : s'.superb = s.superb
  full : s.freeBlock = s.superb.size

/-- The state after `free_block++`. -/
def Img.take (s : Img) : Img :=
  { s with freeBlock := (s.freeBlock + 1) % 2 ^ 32, assigned := s.freeBlock :: s.assigned }

section

variable {s s' : Img} {A : ℕ → ℕ → ℕ} {i : ℕ} {p q : Place} {P : Place → Prop}

theorem Marks.used (h : Marks s A) (hp : addrAt s.view.disk (A i) p ≠ 0) :
    addrAt s.view.disk (A i) p < s.freeBlock := by
  have hu := h.sound.used hp
  rw [view_used (h.sound.lt_numBits hp)] at hu
  exact of_decide_eq_true hu

theorem Marks.lt_size (h : Marks s A) (hp : addrAt s.view.disk (A i) p ≠ 0) :
    addrAt s.view.disk (A i) p < s.superb.size :=
  Nat.lt_of_lt_of_le (h.used hp) h.high

theorem Marks.one_lt (h : Marks s A) (hp : addrAt s.view.disk (A i) p ≠ 0) :
    1 < addrAt s.view.disk (A i) p := by
  have hge : s.superb.dataStart ≤ _ := h.sound.dataStart_le hp
  have hb := h.layout.bitmap
  have hi := h.layout.inodes
  unfold Superblock.dataStart at hge
  omega

theorem Marks.size_le (h : Marks s A) : s.superb.size < 2 ^ 23 := by
  have h1 := h.small
  rw [h.sectors] at h1
  omega

theorem Marks.take_freeBlock (h : Marks s A) : s.take.freeBlock = s.freeBlock + 1 := by
  have h1 := h.high
  have h2 := h.size_le
  exact Nat.mod_eq_of_lt (by omega)

theorem Marks.dataStart_le (h : Marks s A) (hlt : s.freeBlock < s.superb.size) :
    s.superb.dataStart ≤ s.freeBlock := by
  have hle : s.superb.size ≤ s.superb.numBits := s.superb.size_le_numBits
  refine h.sound.dataStart_le_of_free ?_
  rw [view_used (by omega)]
  exact decide_eq_false (Nat.lt_irrefl _)

theorem Marks.free_not_inBitmap (h : Marks s A) (hlt : s.freeBlock < s.superb.size) :
    ¬ s.superb.InBitmap s.freeBlock :=
  fun hin => Nat.not_lt.mpr (h.dataStart_le hlt) (hin.lt_dataStart h.layout)

/-- **The next block is taken as `block_alloc` of the kernel would take it.** -/
theorem Marks.taken (h : Marks s A) (hlt : s.freeBlock < s.superb.size) :
    s.view.Taken s.freeBlock s.take.view := by
  have hle : s.superb.size ≤ s.superb.numBits := s.superb.size_le_numBits
  have hnb := h.free_not_inBitmap hlt
  constructor
  case superb => rfl
  case held => rfl
  case freed => rfl
  case lt => exact Nat.lt_of_lt_of_le hlt hle
  case fresh =>
    rw [view_used (Nat.lt_of_lt_of_le hlt hle)]
    exact decide_eq_false (Nat.lt_irrefl _)
  case least =>
    intro c hc
    rw [view_used (by omega)]
    exact decide_eq_true hc
  case used =>
    intro c hc
    rw [view_used hc, show s.take.view.used c = _ from view_used hc, h.take_freeBlock,
      ← Bool.decide_or]
    congr 1
    rw [eq_iff_iff]
    omega
  case zero =>
    have hblock : s.take.view.disk s.freeBlock = s.block s.freeBlock := view_of_not_inBitmap hnb
    rw [hblock]
    exact h.fresh _ (Nat.le_refl _) hlt
  case same =>
    intro c hc _
    rw [view_of_not_inBitmap hc]
    exact view_of_not_inBitmap hc

/-- The block goes to an entry of the inode. -/
theorem Marks.give_addr {ino : Inode} {j : Fin 8} (h : Marks s A)
    (hlt : s.freeBlock < s.superb.size) (hA : A i = ino.addrs) (h0 : ino.addrs j = 0)
    (hP : P (.top j)) :
    Adds s A i P 1 s.take (update A i (update ino.addrs j s.freeBlock)) ∧ s.freeBlock ≠ 0 := by
  have hp : addrAt s.view.disk (A i) (.top j) = 0 := by
    rw [hA]
    exact h0
  obtain ⟨hx, -, hb0⟩ := h.sound.take (h.taken hlt) s.take.view (update ino.addrs j s.freeBlock) hp
    (by rw [hA]; rfl) rfl rfl rfl fun _ _ => rfl
  refine ⟨⟨⟨⟨h.sectors, h.small, h.layout⟩, hx.sound, ?_, fun b hb => ?_, h.bitmap, fun b hb => ?_,
    h.boot, h.super⟩, hx.mono (by rintro _ rfl; exact hP), h.take_freeBlock, rfl⟩, hb0⟩
  · rw [h.take_freeBlock]
    exact hlt
  · rw [h.take_freeBlock] at hb
    exact h.fresh b (by omega)
  · rcases List.mem_cons.mp hb with rfl | hb
    · exact hlt
    · exact h.assigned b hb

/-- The block goes to an entry of an indirect block. -/
theorem Marks.give_entry {b : ℕ} (h : Marks s A) (hlt : s.freeBlock < s.superb.size)
    (hq : p.parent = some q)
    (hb : addrAt s.view.disk (A i) q = b) (hb0 : b ≠ 0) (h0 : addrAt s.view.disk (A i) p = 0)
    (hP : P p) :
    Adds s A i P 1 (s.take.write b (setWord (s.block b) p.idx s.freeBlock)) A ∧
      addrAt (s.take.write b (setWord (s.block b) p.idx s.freeBlock)).view.disk
        (A i) p = s.freeBlock ∧
      s.freeBlock ≠ 0 := by
  have ht := h.taken hlt
  have h1 := h.sound.addrAt_taken ht i
  have hq0 : addrAt s.view.disk (A i) q ≠ 0 := by rwa [hb]
  have hnb : ¬ s.superb.InBitmap b := hb ▸ h.sound.not_inBitmap hq0
  have hused : b < s.freeBlock := hb ▸ h.used hq0
  have hblock : s.take.view.disk b = s.block b := view_of_not_inBitmap hnb
  have hview : (s.take.write b (setWord (s.block b) p.idx s.freeBlock)).view =
      ⟨s.superb, update s.take.view.disk b (setWord (s.block b) p.idx s.freeBlock), [], []⟩ :=
    Img.view_write (s := s.take) hnb
  have hwritten : p.Written s.freeBlock s.take.view.disk (A i)
      (update s.take.view.disk b (setWord (s.block b) p.idx s.freeBlock)) (A i) := by
    unfold Place.Written
    rw [hq]
    dsimp only
    rw [h1, hb, update_self, hblock]
    exact ⟨rfl, hb0, rfl⟩
  obtain ⟨hx, haddr, hne⟩ := h.sound.take ht
    ⟨s.superb, update s.take.view.disk b (setWord (s.block b) p.idx s.freeBlock), [], []⟩
      (A i) h0 hwritten rfl rfl rfl
    (by
      intro c hc
      have hcq := hc q hq
      rw [h1, hb] at hcq
      exact update_of_ne hcq ..)
  rw [update_eq_self, ← hview] at hx
  rw [← hview] at haddr
  have hone : 1 < b := hb ▸ h.one_lt hq0
  refine ⟨⟨⟨⟨h.sectors, h.small, h.layout⟩, hx.sound,
    ?_, fun c hcf hcs => ?_, fun c hcm => ?_, fun c hcm => ?_, ?_, ?_⟩,
      hx.mono (by rintro _ rfl; exact hP), h.take_freeBlock, rfl⟩, haddr, hne⟩
  · show s.take.freeBlock ≤ _
    rw [h.take_freeBlock]
    exact hlt
  · have hcf' : s.take.freeBlock ≤ c := hcf
    rw [h.take_freeBlock] at hcf'
    rw [Img.block_write, update_of_ne (by omega)]
    exact h.fresh c (by omega) hcs
  · rw [Img.block_write, update_of_ne (by rintro rfl; exact hnb hcm)]
    exact h.bitmap c hcm
  · rcases List.mem_cons.mp hcm with rfl | hcm
    · exact hlt
    · exact h.assigned c hcm
  · rw [Img.block_write, update_of_ne (by omega)]
    exact h.boot
  · rw [Img.block_write, update_of_ne (by omega)]
    exact h.super

/-! ### The block of a block of the file -/

/-- The number of blocks that a place lacks. -/
def gap (disk : ℕ → Block) (addrs : ℕ → ℕ) (p : Place) : ℕ :=
  if addrAt disk addrs p = 0 then 1 else 0

theorem Adds.refl (h : Marks s A) (i : ℕ) (P : Place → Prop) : Adds s A i P 0 s A :=
    ⟨h, .refl h.sound i P, rfl, rfl⟩

theorem Adds.mono {A' : ℕ → ℕ → ℕ} {Q : Place → Prop} {n : ℕ} (h : Adds s A i P n s' A')
    (hP : ∀ p, P p → Q p) :
    Adds s A i Q n s' A' := ⟨h.marks, h.extend.mono hP, h.count, h.freeInode⟩

theorem Adds.trans {s'' : Img} {A' A'' : ℕ → ℕ → ℕ} {n m : ℕ} (h : Adds s A i P n s' A')
    (h' : Adds s' A' i P m s'' A'') :
    Adds s A i P (n + m) s'' A'' where
  marks := h'.marks
  extend := h.extend.trans h'.extend
  count := by rw [h'.count, h.count, Nat.add_assoc]
  freeInode := h'.freeInode.trans h.freeInode

theorem Adds.superb {A' : ℕ → ℕ → ℕ} {n : ℕ} (h : Adds s A i P n s' A') : s'.superb = s.superb :=
    h.extend.superb

/-- A place that has gained nothing. -/
theorem Adds.gap_eq {A' : ℕ → ℕ → ℕ} {n : ℕ} (h : Adds s A i P n s' A') (hp : ¬ P p) :
    gap s'.view.disk (A' i) p = gap s.view.disk (A i) p := by
  unfold gap
  by_cases h0 : addrAt s.view.disk (A i) p = 0
  · have h0' : addrAt s'.view.disk (A' i) p = 0 := by
      by_contra hne
      rcases h.extend.new p hne with hold | hnew
      · exact hold h0
      · exact hp hnew
    rw [h0, h0']
  · rw [h.extend.keep p h0]

theorem appendAddr_spec {ino : Inode} (h : Marks s A) (hA : A i = ino.addrs) (j : Fin 8)
    (hP : P (.top j)) :
    wp (appendAddr ino j) (fun ino' s' => ino' = { ino with addrs := ino'.addrs } ∧
        (Adds s A i P (gap s.view.disk (A i) (.top j)) s' (update A i ino'.addrs) ∧
          ino'.addrs j ≠ 0 ∨
          Full s s' ∧ ino'.addrs j = s.superb.size ∧ gap s.view.disk (A i) (.top j) = 1))
      (fun _ _ => False) s := by
  have haddr : addrAt s.view.disk (A i) (.top j) = ino.addrs j := by rw [hA]; rfl
  unfold gap
  simp only [appendAddr, takeBlock, wp_bind, wp_ite, wp_read, wp_modify, wp_pure, haddr]
  split_ifs with h0
  · refine ⟨trivial, ?_⟩
    rcases Nat.lt_or_ge s.freeBlock s.superb.size with hlt | hge
    · obtain ⟨hadds, hne⟩ := h.give_addr hlt hA h0 hP
      left
      refine ⟨hadds, ?_⟩
      rwa [update_self]
    · right
      have hfull : s.freeBlock = s.superb.size := Nat.le_antisymm h.high hge
      refine ⟨⟨⟨h.sectors, h.small, h.layout⟩, rfl, hfull⟩, ?_, rfl⟩
      rw [update_self, hfull]
  · refine ⟨trivial, .inl ⟨?_, h0⟩⟩
    rw [← hA, update_eq_self]
    exact .refl h i P

theorem Place.idx_lt {p q : Place} (h : p.parent = some q) : p.idx < 128 := by
  cases p with
  | top j => simp [Place.parent] at h
  | one k => exact k.isLt
  | mid m => exact m.isLt
  | two m k => exact k.isLt

theorem appendEntry_spec {b : ℕ} (h : Marks s A) (hq : p.parent = some q)
    (hb : addrAt s.view.disk (A i) q = b)
    (hb0 : b ≠ 0) (hP : P p) :
    wp (appendEntry b p.idx) (fun a s' =>
        Adds s A i P (gap s.view.disk (A i) p) s' A ∧ a = addrAt s'.view.disk (A i) p ∧ a ≠ 0 ∨
          Full s s' ∧ a = s.superb.size ∧ gap s.view.disk (A i) p = 1)
      (fun _ _ => False) s := by
  have hq0 : addrAt s.view.disk (A i) q ≠ 0 := by rwa [hb]
  have hlt : b < s.superb.size := hb ▸ h.lt_size hq0
  have hnb : ¬ s.superb.InBitmap b := hb ▸ h.sound.not_inBitmap hq0
  have hword : word (s.block b) p.idx = addrAt s.view.disk (A i) p := by
    rw [addrAt_of_parent_some hq, hb, entry_of_ne hb0, view_of_not_inBitmap hnb]
  have hidx := Place.idx_lt hq
  have hsize := h.size_le
  have hfree := h.high
  have hgeo : Geometry s.take := ⟨h.sectors, h.small, h.layout⟩
  unfold gap
  simp only [appendEntry, takeBlock, wp_bind, wp_ite, wp_read, wp_modify, wp_pure,
    h.wp_readSector hlt, hword, if_neg (Nat.not_le.mpr hidx)]
  split_ifs with h0
  · rw [word_setWord_self _ _ (by omega)]
    show wp (writeSector b (setWord (s.block b) p.idx s.freeBlock)) _ _ s.take
    rw [hgeo.wp_writeSector hlt]
    rcases Nat.lt_or_ge s.freeBlock s.superb.size with hlt' | hge
    · obtain ⟨hadds, haddr, hne⟩ := h.give_entry hlt' hq hb hb0 h0 hP
      left
      exact ⟨hadds, haddr.symm, hne⟩
    · right
      have hfull : s.freeBlock = s.superb.size := Nat.le_antisymm h.high hge
      exact ⟨⟨⟨h.sectors, h.small, h.layout⟩, rfl, hfull⟩, hfull, rfl⟩
  · left
    exact ⟨.refl h i P, trivial, h0⟩

/-- The number of blocks that are assigned for a block of the file: its own and those through
which it is reached. -/
def missing (disk : ℕ → Block) (addrs : ℕ → ℕ) (f : ℕ) : ℕ :=
  gap disk addrs (Place.leafOf f) +
    (Place.leafOf f).parent.elim 0 fun p => gap disk addrs p + p.parent.elim 0 (gap disk addrs)

theorem missing_eq (disk : ℕ → Block) (addrs : ℕ → ℕ) (f : ℕ) : missing disk addrs f =
    if f < 6 then gap disk addrs (Place.leafOf f)
    else if f < 134 then gap disk addrs (.top 6) + gap disk addrs (Place.leafOf f)
    else gap disk addrs (.top 7) + gap disk addrs (.mid (Fin.ofNat 128 ((f - 134) / 128))) +
      gap disk addrs (Place.leafOf f) := by
  unfold missing Place.leafOf
  split_ifs
  · rfl
  · exact Nat.add_comm _ _
  · simp only [Place.parent, Option.elim_some]
    omega

/-- The blocks of the partition do not suffice for `n` more. -/
def Lacks (s : Img) (n : ℕ) : Prop := s.superb.size < s.freeBlock + n

/-- The block of a file block was found, or assigned. -/
structure Found (s : Img) (A : ℕ → ℕ → ℕ) (i f : ℕ) (ino' : Inode) (csect : ℕ)
    (s' : Img) : Prop where
  adds : Adds s A i (·.Covers f) (missing s.view.disk (A i) f) s' (update A i ino'.addrs)
  addr : csect = addrAt s'.view.disk ino'.addrs (Place.leafOf f)
  ne : csect ≠ 0

/-- What `fileBlock` gives: the block of the file block, or, when there is none left, the end of
the partition. -/
def Mapped (s : Img) (A : ℕ → ℕ → ℕ) (i f : ℕ) (ino : Inode) (r : Inode × ℕ) (s' : Img) : Prop :=
  r.1 = { ino with addrs := r.1.addrs } ∧ (Found s A i f r.1 r.2 s' ∨
    (Geometry s' ∧ s'.superb = s.superb) ∧ r.2 = s.superb.size ∧
      Lacks s (missing s.view.disk (A i) f))

theorem Full.readSector (h : Full s s') {Q : Block → Img → Prop} {E : Stop → Img → Prop} :
    wp (readSector s.superb.size) Q E s' = E .exit s' := by
  rw [← h.superb]
  exact h.geometry.wp_readSector_end

theorem appendEntry_full (h : Full s s') {k : ℕ} {Q : ℕ → Img → Prop} {E : Stop → Img → Prop} :
    wp (appendEntry s.superb.size k) Q E s' = E .exit s' := by
  rw [appendEntry, wp_bind, h.readSector]

section

variable {ino : Inode} {f : ℕ} (h : Marks s A) (hA : A i = ino.addrs)

include h hA

theorem fileBlock_direct (h6 : f < 6) :
    wp (fileBlock ino f) (Mapped s A i f ino) (fun e _ => e = .exit ∧
      Lacks s (missing s.view.disk (A i) f)) s := by
  have hleaf : Place.leafOf f = .top (Fin.ofNat 8 f) := if_pos h6
  have hj : ((Fin.ofNat 8 f : Fin 8) : ℕ) = f := by rw [Fin.val_ofNat]; omega
  have hcov : (Place.top (Fin.ofNat 8 f)).Covers f := hleaf ▸ Place.covers_leafOf (by omega)
  have hmiss : missing s.view.disk (A i) f = gap s.view.disk (A i) (.top (Fin.ofNat 8 f)) := by
    rw [missing_eq, if_pos h6, hleaf]
  rw [fileBlock, if_pos h6, wp_bind]
  have hspec := appendAddr_spec (P := (·.Covers f)) h hA (Fin.ofNat 8 f) hcov
  rw [hj] at hspec
  refine hspec.mono (fun ino' s' hr => ?_) fun _ _ => False.elim
  obtain ⟨hino, hcase⟩ := hr
  refine ⟨hino, ?_⟩
  rcases hcase with ⟨hadds, hne⟩ | ⟨hfull, haddr, hgap⟩
  · left
    refine ⟨hmiss ▸ hadds, ?_, hne⟩
    rw [hleaf]
    exact congrArg ino'.addrs hj.symm
  · right
    refine ⟨⟨hfull.geometry, hfull.superb⟩, haddr, ?_⟩
    unfold Lacks
    rw [hmiss, hgap, hfull.full]
    omega

theorem fileBlock_single (h6 : ¬ f < 6) (h134 : f < 134) :
    wp (fileBlock ino f) (Mapped s A i f ino) (fun e _ => e = .exit ∧
      Lacks s (missing s.view.disk (A i) f)) s := by
  have hleaf : Place.leafOf f = .one (Fin.ofNat 128 (f - 6)) := by
    rw [Place.leafOf, if_neg h6, if_pos h134]
  have hk : ((Fin.ofNat 128 (f - 6) : Fin 128) : ℕ) = f - 6 := by rw [Fin.val_ofNat]; omega
  have hcov : (Place.one (Fin.ofNat 128 (f - 6))).Covers f := hleaf ▸ Place.covers_leafOf (by omega)
  have hmiss : missing s.view.disk (A i) f =
      gap s.view.disk (A i) (.top 6) + gap s.view.disk (A i) (.one (Fin.ofNat 128 (f - 6))) := by
    rw [missing_eq, if_neg h6, if_pos h134, hleaf]
  rw [fileBlock, if_neg h6, if_pos h134, wp_bind]
  refine (appendAddr_spec (P := (· = .top 6)) h hA 6 rfl).mono (fun ino' s₁ hr => ?_) fun _ _ =>
    False.elim
  obtain ⟨hino, hcase⟩ := hr
  rw [wp_bind]
  rcases hcase with ⟨hadds, hne⟩ | ⟨hfull, haddr, hgap⟩
  · have hb : addrAt s₁.view.disk (update A i ino'.addrs i) (.top 6) = ino'.addrs 6 := by
      rw [update_self]; rfl
    have hspec :=
      appendEntry_spec (P := (·.Covers f))
        (p := .one (Fin.ofNat 128 (f - 6))) hadds.marks rfl hb hne
        hcov
    rw [show (Place.one (Fin.ofNat 128 (f - 6))).idx = f - 6 from hk,
      hadds.gap_eq Place.noConfusion] at hspec
    refine hspec.mono (fun a s₂ hr => ?_) fun _ _ => False.elim
    refine ⟨hino, ?_⟩
    rcases hr with ⟨hadds', ha, ha0⟩ | ⟨hfull, ha, hgap⟩
    · left
      rw [update_self, ← hleaf] at ha
      refine ⟨?_, ha, ha0⟩
      rw [hmiss]
      exact (hadds.mono (by rintro _ rfl; exact Place.covers_parent rfl hcov)).trans hadds'
    · right
      refine ⟨⟨hfull.geometry, hfull.superb.trans hadds.superb⟩,
        ha.trans (congrArg _ hadds.superb), ?_⟩
      have hcount := hadds.count
      have hs := congrArg Superblock.size hadds.superb
      have hfull' := hfull.full
      unfold Lacks
      rw [hmiss, hgap]
      omega
  · rw [show ino'.addrs 6 = s.superb.size from haddr, appendEntry_full hfull]
    refine ⟨rfl, ?_⟩
    unfold Lacks
    rw [hmiss, hgap, hfull.full]
    omega

theorem fileBlock_double (h134 : ¬ f < 134) (hf : f < 16518) :
    wp (fileBlock ino f) (Mapped s A i f ino) (fun e _ => e = .exit ∧
      Lacks s (missing s.view.disk (A i) f)) s := by
  have h6 : ¬ f < 6 := by omega
  have hleaf : Place.leafOf f =
      .two (Fin.ofNat 128 ((f - 134) / 128)) (Fin.ofNat 128 ((f - 134) % 128)) := by
    rw [Place.leafOf, if_neg h6, if_neg h134]
  have hm : ((Fin.ofNat 128 ((f - 134) / 128) : Fin 128) : ℕ) = (f - 134) / 128 := by
    rw [Fin.val_ofNat]; omega
  have hk : ((Fin.ofNat 128 ((f - 134) % 128) : Fin 128) : ℕ) = (f - 134) % 128 := by
    rw [Fin.val_ofNat]; omega
  generalize hmid : (Fin.ofNat 128 ((f - 134) / 128) : Fin 128) = m at hleaf hm
  generalize (Fin.ofNat 128 ((f - 134) % 128) : Fin 128) = k at hleaf hk
  have hcov : (Place.two m k).Covers f := hleaf ▸ Place.covers_leafOf hf
  have hcovm : (Place.mid m).Covers f := Place.covers_parent rfl hcov
  have hmiss : missing s.view.disk (A i) f =
      gap s.view.disk (A i) (.top 7) + gap s.view.disk (A i) (.mid m) +
        gap s.view.disk (A i) (.two m k) := by
    rw [missing_eq, if_neg h6, if_neg h134, hleaf, hmid]
  rw [fileBlock, if_neg h6, if_neg h134, wp_bind]
  refine (appendAddr_spec (P := (· = .top 7)) h hA 7 rfl).mono (fun ino' s₁ hr => ?_) fun _ _ =>
    False.elim
  obtain ⟨hino, hcase⟩ := hr
  rw [wp_bind]
  rcases hcase with ⟨hadds, hne⟩ | ⟨hfull, haddr, hgap⟩
  · have hb : addrAt s₁.view.disk (update A i ino'.addrs i) (.top 7) = ino'.addrs 7 := by
      rw [update_self]; rfl
    have hspec := appendEntry_spec (P := (· = .mid m)) (p := .mid m) hadds.marks rfl hb hne rfl
    rw [show (Place.mid m).idx = (f - 134) / 128 from hm, hadds.gap_eq Place.noConfusion] at hspec
    refine hspec.mono (fun mblk s₂ hr => ?_) fun _ _ => False.elim
    rw [wp_bind]
    rcases hr with ⟨hadds₂, hmblk, hm0⟩ | ⟨hfull, ha, hgap⟩
    · have hspec :=
        appendEntry_spec (P := (·.Covers f)) (p := .two m k) hadds₂.marks rfl hmblk.symm hm0 hcov
      rw [show (Place.two m k).idx = (f - 134) % 128 from hk, hadds₂.gap_eq Place.noConfusion,
        hadds.gap_eq Place.noConfusion] at hspec
      refine hspec.mono (fun a s₃ hr => ?_) fun _ _ => False.elim
      refine ⟨hino, ?_⟩
      rcases hr with ⟨hadds₃, ha, ha0⟩ | ⟨hfull, ha, hgap⟩
      · left
        rw [update_self, ← hleaf] at ha
        refine ⟨?_, ha, ha0⟩
        rw [hmiss]
        have htop :=
          hadds.mono (Q := (·.Covers f)) (by rintro _ rfl; exact Place.covers_parent rfl hcovm)
        have hmids := hadds₂.mono (Q := (·.Covers f)) (by rintro _ rfl; exact hcovm)
        exact (htop.trans hmids).trans hadds₃
      · right
        have hsb := hadds₂.superb.trans hadds.superb
        refine ⟨⟨hfull.geometry, hfull.superb.trans hsb⟩, ha.trans (congrArg _ hsb), ?_⟩
        have hcount := hadds.count
        have hcount₂ := hadds₂.count
        have hs := congrArg Superblock.size hsb
        have hfull' := hfull.full
        unfold Lacks
        rw [hmiss, hgap]
        omega
    · rw [ha, appendEntry_full hfull]
      have hcount := hadds.count
      have hs := congrArg Superblock.size hadds.superb
      have hfull' := hfull.full
      refine ⟨rfl, ?_⟩
      unfold Lacks
      rw [hmiss, hgap]
      omega
  · rw [show ino'.addrs 7 = s.superb.size from haddr, appendEntry_full hfull]
    refine ⟨rfl, ?_⟩
    unfold Lacks
    rw [hmiss, hgap, hfull.full]
    omega

/-- **The block of a file block**, with as many new blocks as it needs. -/
theorem fileBlock_spec (hf : f < 16518) :
    wp (fileBlock ino f) (Mapped s A i f ino) (fun e _ => e = .exit ∧
      Lacks s (missing s.view.disk (A i) f)) s := by
  by_cases h6 : f < 6
  · exact fileBlock_direct h hA h6
  · by_cases h134 : f < 134
    · exact fileBlock_single h hA h6 h134
    · exact fileBlock_double h hA h134 hf

end

/-! ### How many blocks a file takes -/

/-- The number of blocks for so many bytes. -/
def blocks (size : ℕ) : ℕ := (size + 511) / 512

/-- The number of blocks that a file of `n` blocks takes, with the indirect blocks; what is past
the limit is not counted. -/
def cost (n : ℕ) : ℕ :=
  min n 16518 + (if 6 < n then 1 else 0) + if 134 <
    n then 1 + (min n 16518 - 134 + 127) / 128 else 0

theorem cost_mono {n m : ℕ} (h : n ≤ m) : cost n ≤ cost m := by
  unfold cost
  split_ifs <;> omega

/-- The places of the first `n` file blocks have addresses, and no others. -/
def Upto (disk : ℕ → Block) (addrs : ℕ → ℕ) (n : ℕ) : Prop :=
  ∀ p, addrAt disk addrs p ≠ 0 ↔ ∃ f, f < n ∧ p.Covers f

variable {disk : ℕ → Block} {addrs : ℕ → ℕ} {n f : ℕ}

theorem Upto.gap_of (h : Upto disk addrs n) (hf : f < n) (hp : p.Covers f) : gap disk addrs p = 0 :=
  if_neg ((h p).mpr ⟨f, hf, hp⟩)

theorem Upto.gap_of_not (h : Upto disk addrs n) (hp : ∀ f, f < n → ¬ p.Covers f) :
    gap disk addrs p = 1 := by
  refine if_pos (not_not.mp fun hne => ?_)
  obtain ⟨f, hf, hc⟩ := (h p).mp hne
  exact hp f hf hc

/-- A file block that is there needs no block. -/
theorem Upto.missing_of_lt (h : Upto disk addrs n) (hf : f < n) (hn : n ≤ 16518) :
    missing disk addrs f = 0 := by
  have hcov := Place.covers_leafOf (f := f) (by omega)
  have hleaf := h.gap_of hf hcov
  rw [missing_eq]
  split_ifs with h6 h134
  · exact hleaf
  · rw [hleaf, h.gap_of hf (p := .top 6) (.inr (.inl ⟨rfl, by omega, h134⟩))]
  · rw [hleaf, h.gap_of hf (p := .top 7) (.inr (.inr ⟨rfl, by omega, by omega⟩)), h.gap_of hf]
    simp only [Place.Covers, Fin.val_ofNat]
    omega

/-- The leaf of a file block is that of no other. -/
theorem covers_leafOf_iff {g : ℕ} (hf : f < 16518) : (Place.leafOf f).Covers g ↔ g = f := by
  constructor
  · intro hg
    have hlt : g < 16518 := by
      unfold Place.leafOf at hg
      split_ifs at hg <;> simp only [Place.Covers, Fin.val_ofNat] at hg <;> omega
    exact leafOf_inj hlt hf (Place.eq_leafOf_of_covers Place.leaf_leafOf hg).symm
  · rintro rfl
    exact Place.covers_leafOf hf

/-- The next file block needs the blocks by which the file gets larger. -/
theorem Upto.missing_next (h : Upto disk addrs n) (hn : n < 16518) :
    cost n + missing disk addrs n = cost (n + 1) := by
  have hleaf : gap disk addrs (Place.leafOf n) = 1 :=
    h.gap_of_not fun f hf hc => absurd ((covers_leafOf_iff hn).mp hc) (by omega)
  rw [missing_eq]
  split_ifs with h6 h134
  · rw [hleaf]
    unfold cost
    split_ifs <;> omega
  · have htop : gap disk addrs (.top 6) = if 6 < n then 0 else 1 := by
      split_ifs with h
      · exact Upto.gap_of ‹_› h (.inr (.inl ⟨rfl, by omega, by omega⟩))
      · refine Upto.gap_of_not ‹_› fun f hf hc => ?_
        simp only [Place.Covers] at hc
        omega
    rw [hleaf, htop]
    unfold cost
    split_ifs <;> omega
  · have htop : gap disk addrs (.top 7) = if 134 < n then 0 else 1 := by
      split_ifs with h
      · exact Upto.gap_of ‹_› h (.inr (.inr ⟨rfl, by omega, by omega⟩))
      · refine Upto.gap_of_not ‹_› fun f hf hc => ?_
        simp only [Place.Covers] at hc
        omega
    have hmid : gap disk addrs (.mid (Fin.ofNat 128 ((n - 134) / 128))) = if (n - 134) % 128 =
      0 then 1 else 0 := by
      split_ifs with h
      · refine Upto.gap_of_not ‹_› fun f hf hc => ?_
        simp only [Place.Covers, Fin.val_ofNat] at hc
        omega
      · refine Upto.gap_of ‹_› (f := n - 1) (by omega) ?_
        simp only [Place.Covers, Fin.val_ofNat]
        omega
    have hdiv : (n + 1 - 134 + 127) / 128 = (n - 134 + 127) / 128 + if (n - 134) % 128 =
      0 then 1 else 0 := by
      split_ifs <;> omega
    have hfirst : n = 134 → (n - 134 + 127) / 128 = 0 := by omega
    rw [hleaf, htop, hmid, cost, cost, Nat.min_eq_left (by omega), Nat.min_eq_left (by omega), hdiv]
    generalize (n - 134 + 127) / 128 = q at hfirst
    split_ifs <;> omega

/-- The file has got its block `f`. -/
theorem Upto.extend {d d' : Dev} {A' : ℕ → ℕ → ℕ} (h : Upto d.disk (A i) n)
    (hx : Extend NoOther d A i (·.Covers f) d' A')
    (hp : addrAt d'.disk (A' i) (Place.leafOf f) ≠ 0) (hf : f ≤ n) :
    Upto d'.disk (A' i) (max n (f + 1)) := by
  intro p
  constructor
  · intro hne
    rcases hx.new p hne with hold | hc
    · obtain ⟨g, hg, hc⟩ := (h p).mp hold
      exact ⟨g, by omega, hc⟩
    · exact ⟨f, by omega, hc⟩
  · rintro ⟨g, hg, hc⟩
    by_cases hgn : g < n
    · have hold := (h p).mpr ⟨g, hgn, hc⟩
      rwa [hx.keep p hold]
    · obtain rfl : g = f := by omega
      exact addrAt_ne_zero_of_covers hp hc

/-- A block of data is written. -/
theorem Marks.write_leaf {b : ℕ} (h : Marks s A) (hl : p.Leaf) (hb : addrAt s.view.disk (A i) p = b)
    (hb0 : b ≠ 0)
    (buf : Block) :
    Marks (s.write b buf) A ∧
      ∀ j, addrAt (s.write b buf).view.disk (A j) = addrAt s.view.disk (A j) := by
  have hp : addrAt s.view.disk (A i) p ≠ 0 := by rwa [hb]
  have hnb : ¬ s.superb.InBitmap b := hb ▸ h.sound.not_inBitmap hp
  have hused : b < s.freeBlock := hb ▸ h.used hp
  have hview : (s.write b buf).view = { s.view with disk := update s.view.disk b buf } :=
    Img.view_write hnb
  have hsound := (h.sound.writeLeaf hl hp buf fun _ => True).sound
  rw [hb, ← hview] at hsound
  have hone : 1 < b := hb ▸ h.one_lt hp
  refine ⟨⟨⟨h.sectors, h.small, h.layout⟩, hsound, h.high, fun c hcf hcs => ?_, fun c hcm => ?_,
    h.assigned, ?_, ?_⟩, fun j => ?_⟩
  · have hcf' : s.freeBlock ≤ c := hcf
    rw [Img.block_write, update_of_ne (by omega)]
    exact h.fresh c hcf' hcs
  · rw [Img.block_write, update_of_ne (by rintro rfl; exact hnb hcm)]
    exact h.bitmap c hcm
  · rw [Img.block_write, update_of_ne (by omega)]
    exact h.boot
  · rw [Img.block_write, update_of_ne (by omega)]
    exact h.super
  · rw [hview]
    refine Sound.addrAt_update buf (fun j q hq hq0 he => ?_) j
    exact hq ((h.sound.inj hq0 (he.trans hb.symm)).2 ▸ hl)

/-- After the last block that an inode may have, the index of the next is outside the buffer. -/
theorem fileBlock_overrun {ino : Inode} (h : Marks s A) (hA : A i = ino.addrs)
    (hup : Upto s.view.disk ino.addrs 16518)
    {Q : Inode × ℕ → Img → Prop} {E : Stop → Img → Prop} :
    wp (fileBlock ino 16518) Q E s = E .overrun s := by
  have htop : addrAt s.view.disk ino.addrs (.top 7) ≠ 0 :=
    (hup (.top 7)).mpr ⟨134, by omega, .inr (.inr ⟨rfl, by omega, by omega⟩)⟩
  have hlt : ino.addrs 7 < s.superb.size := by
    have := h.lt_size (i := i) (p := .top 7) (by rwa [hA])
    rwa [hA] at this
  have h7 : ¬ ino.addrs 7 = 0 := htop
  rw [fileBlock, if_neg (by omega), if_neg (by omega)]
  simp only [appendAddr, appendEntry, wp_bind, if_neg h7, wp_pure, h.wp_readSector hlt]
  rfl

/-- What the loop of `inode_append` has done: the bytes are in the file, and it has got the blocks
that it needs. -/
structure Appended (s : Img) (A : ℕ → ℕ → ℕ) (i offset : ℕ) (bs : List UInt8)
    (ino : Inode) (s' : Img) (ino' : Inode) : Prop
    where
  le : offset + bs.length ≤ 16518 * 512
  record : ino' = { ino with addrs := ino'.addrs }
  marks : Marks s' (update A i ino'.addrs)
  filling : Filling NoOther s.view A i offset bs s'.view (update A i ino'.addrs)
  upto : Upto s'.view.disk ino'.addrs (blocks (offset + bs.length))
  count : s'.freeBlock + cost (blocks offset) = s.freeBlock + cost (blocks (offset + bs.length))
  freeInode : s'.freeInode = s.freeInode

/-- The append ends early: there are not enough blocks, or there are enough, but the file is
longer than a file may be. -/
def Ends (s : Img) (offset len : ℕ) (e : Stop) : Prop :=
  e = .exit ∧ s.superb.size + cost (blocks offset) < s.freeBlock + cost (blocks (offset + len)) ∨
    e = .overrun ∧ 16518 * 512 < offset + len ∧
      s.freeBlock + cost (blocks (offset + len)) ≤ s.superb.size + cost (blocks offset)

theorem Appended.nil {ino : Inode} {offset : ℕ} (h : Marks s A) (hA : A i = ino.addrs)
    (hup : Upto s.view.disk ino.addrs (blocks offset)) (hoff : offset ≤ 16518 * 512) :
    Appended s A i offset [] ino s ino := by
  have hupd : update A i ino.addrs = A := by rw [← hA, update_eq_self]
  refine ⟨hoff, rfl, ?_, ?_, hup, rfl, rfl⟩
  · rw [hupd]
    exact h
  · rw [hupd]
    exact .nil h.sound i offset

theorem Appended.append {s₁ s₂ : Img} {ino ino₁ ino₂ : Inode} {offset : ℕ} {xs ys : List UInt8}
    (h : Appended s A i offset xs ino s₁ ino₁)
    (h' : Appended s₁ (update A i ino₁.addrs) i (offset + xs.length) ys ino₁ s₂ ino₂) :
    Appended s A i offset (xs ++ ys) ino s₂ ino₂ := by
  have hlen : offset + (xs ++ ys).length = offset + xs.length + ys.length := by
    rw [List.length_append, Nat.add_assoc]
  have hcount := h.count
  have hcount' := h'.count
  have hle := h'.le
  have hmarks := h'.marks
  have hfill := h'.filling
  rw [update_idem] at hmarks hfill
  refine ⟨by omega, ?_, hmarks, h.filling.append hfill rfl (by omega), ?_, ?_,
    h'.freeInode.trans h.freeInode⟩
  · rw [h'.record, h.record]
  · rw [hlen]
    exact h'.upto
  · rw [hlen]
    omega

theorem Ends.append {s₁ : Img} {ino ino₁ : Inode} {offset len : ℕ} {xs : List UInt8} {e : Stop}
    (h : Appended s A i offset xs ino s₁ ino₁) (he : Ends s₁ (offset + xs.length) len e) :
    Ends s offset (xs.length + len) e := by
  have hcount := h.count
  have hsb : s₁.superb = s.superb := h.filling.superb
  unfold Ends at he ⊢
  rw [hsb, Nat.add_assoc] at he
  rcases he with ⟨he, hlt⟩ | ⟨he, hlt, hle⟩
  · exact .inl ⟨he, by omega⟩
  · exact .inr ⟨he, hlt, by omega⟩

/-- One round of the loop. -/
theorem Found.append {ino ino' : Inode} {offset csect : ℕ} {bs : List UInt8}
    (h : Found s A i (offset / 512) ino' csect s')
    (hA : A i = ino.addrs) (hino : ino' = { ino with addrs := ino'.addrs })
    (hup : Upto s.view.disk ino.addrs (blocks offset)) (hlt : offset < 16518 * 512) (hne : bs ≠ [])
    (hfit : offset % 512 + bs.length ≤ 512) :
    Appended s A i offset bs ino (s'.write csect (putBytes (s'.block csect) (offset % 512) bs))
      ino' := by
  have hpos : 0 < bs.length := List.length_pos_iff.mpr hne
  have hself : update A i ino'.addrs i = ino'.addrs := update_self ..
  have haddr :
    addrAt s'.view.disk (update A i ino'.addrs i) (Place.leafOf (offset / 512)) = csect := by
    rw [hself]
    exact h.addr.symm
  have hp : addrAt s'.view.disk (update A i ino'.addrs i) (Place.leafOf (offset / 512)) ≠ 0 := by
    rw [haddr]
    exact h.ne
  have hnb : ¬ s'.superb.InBitmap csect := haddr ▸ h.adds.marks.sound.not_inBitmap hp
  obtain ⟨hmarks, hkeep⟩ := h.adds.marks.write_leaf Place.leaf_leafOf haddr h.ne
    (putBytes (s'.block csect) (offset % 512) bs)
  have hblocks : max (blocks offset) (offset / 512 + 1) = blocks (offset + bs.length) := by
    unfold blocks
    omega
  have hround := Filling.round h.adds.extend hne hfit (by omega) hp
  rw [haddr, view_of_not_inBitmap hnb] at hround
  constructor
  case le => omega
  case record => exact hino
  case marks => exact hmarks
  case filling =>
    rw [Img.view_write hnb]
    exact hround
  case upto =>
    have hup' : Upto s.view.disk (A i) (blocks offset) := by rwa [hA]
    have hnext := hup'.extend h.adds.extend hp (by unfold blocks; omega)
    have hk := hkeep i
    rw [hself] at hnext hk
    intro p
    rw [hk, ← hblocks]
    exact hnext p
  case count =>
    have hcount := h.adds.count
    show s'.freeBlock + _ = _
    rw [hA] at hcount
    rw [← hblocks]
    have hblocks : blocks offset = offset / 512 ∨ blocks offset = offset / 512 + 1 := by
      unfold blocks
      omega
    rcases hblocks with hb | hb
    · have hmiss := Upto.missing_next (hb ▸ hup) (by omega)
      rw [hb, Nat.max_eq_right (by omega)]
      omega
    · have hmiss := Upto.missing_of_lt (f := offset / 512) (hb ▸ hup) (by omega) (by omega)
      rw [hb, Nat.max_self]
      omega
  case freeInode => exact h.adds.freeInode

/-- There are not enough blocks for the next block of the file. -/
theorem Lacks.ends {ino : Inode} {offset len : ℕ}
    (h : Lacks s (missing s.view.disk ino.addrs (offset / 512)))
    (hup : Upto s.view.disk ino.addrs (blocks offset)) (hlt : offset < 16518 * 512)
    (hpos : 0 < len) :
    Ends s offset len .exit := by
  have hmono : cost (offset / 512 + 1) ≤ cost (blocks (offset + len)) :=
    cost_mono (by unfold blocks; omega)
  unfold Lacks at h
  refine .inl ⟨rfl, ?_⟩
  have hblocks : blocks offset = offset / 512 ∨ blocks offset = offset / 512 + 1 := by
    unfold blocks
    omega
  rcases hblocks with hb | hb
  · have hmiss := Upto.missing_next (hb ▸ hup) (by omega)
    rw [hb]
    omega
  · have hmiss := Upto.missing_of_lt (f := offset / 512) (hb ▸ hup) (by omega) (by omega)
    rw [hb]
    omega

theorem appendLoop_spec {ino : Inode} {offset fuel : ℕ} {bs : List UInt8} (h : Marks s A)
    (hA : A i = ino.addrs)
    (hup : Upto s.view.disk ino.addrs (blocks offset)) (hoff : offset ≤ 16518 * 512)
    (hfuel : bs.length ≤ fuel) :
    wp (appendLoop fuel ino offset bs) (fun r s' => r.2 = offset + bs.length ∧
      Appended s A i offset bs ino s' r.1)
      (fun e _ => Ends s offset bs.length e) s := by
  induction fuel generalizing s A ino offset bs with
  | zero =>
    obtain rfl : bs = [] := List.length_eq_zero_iff.mp (by omega)
    exact ⟨rfl, .nil h hA hup hoff⟩
  | succ fuel ih =>
    rw [appendLoop, wp_ite]
    split_ifs with h0
    · subst h0
      exact ⟨rfl, .nil h hA hup hoff⟩
    · have hpos : 0 < bs.length := List.length_pos_iff.mpr h0
      simp only [wp_bind, wp_ite, wp_halt]
      rw [if_neg (by omega)]
      rcases Nat.eq_or_lt_of_le hoff with hend | hlt
      · -- the file has all the blocks that a file may have
        have hfull : blocks offset = 16518 := by
          unfold blocks
          omega
        rw [show offset / 512 = 16518 by omega, fileBlock_overrun h hA (hfull ▸ hup)]
        refine .inr ⟨rfl, by omega, ?_⟩
        have hcost : cost (blocks (offset + bs.length)) = cost 16518 := by
          unfold blocks cost
          split_ifs <;> omega
        have := h.high
        rw [hcost, hfull]
        omega
      · have hspec := fileBlock_spec h hA (f := offset / 512) (by omega)
        rw [hA] at hspec
        refine hspec.mono (fun r s₁ hr => ?_) fun e s' he => ?_
        · obtain ⟨ino', csect⟩ := r
          obtain ⟨hino, hfound | ⟨⟨hgeo, hsb⟩, hcs, hlacks⟩⟩ := hr
          · have hcsect : csect < s₁.superb.size := by
              have := hfound.adds.marks.lt_size (i := i) (p := Place.leafOf (offset / 512))
                (by rw [update_self, ← hfound.addr]; exact hfound.ne)
              rwa [update_self, ← hfound.addr] at this
            dsimp only
            rw [hfound.adds.marks.wp_readSector hcsect, hfound.adds.marks.wp_writeSector hcsect,
              show offset - offset / 512 * 512 = offset % 512 by omega]
            generalize hk : min bs.length ((offset / 512 + 1) * 512 - offset) = k
            have htake : (bs.take k).length = k := by rw [List.length_take]; omega
            have hdrop : (bs.drop k).length = bs.length - k := List.length_drop
            have hne : bs.take k ≠ [] := by
              intro he
              rw [he, List.length_nil] at htake
              omega
            have hround := hfound.append hA hino hup hlt hne (by omega)
            have hup' := hround.upto
            rw [htake] at hup'
            have hfuel' : (bs.drop k).length ≤ fuel := by omega
            have hrest := ih hround.marks (update_self ..) hup' (by have := hround.le; omega) hfuel'
            refine hrest.mono (fun r s₂ hr => ?_) fun e s₂ he => ?_
            · obtain ⟨hoffset, happ⟩ := hr
              refine ⟨by omega, ?_⟩
              have hall : Appended s A i offset (bs.take k ++ bs.drop k) ino s₂ r.1 :=
                hround.append (by rw [htake]; exact happ)
              rwa [List.take_append_drop] at hall
            · have hends : Ends s offset ((bs.take k).length + (bs.drop k).length) e :=
                Ends.append hround (by rw [htake]; exact he)
              rwa [htake, hdrop, Nat.add_sub_cancel' (by omega)] at hends
          · rw [hA] at hlacks
            dsimp only at hcs ⊢
            rw [hcs, ← hsb, hgeo.wp_readSector_end]
            exact hlacks.ends hup hlt hpos
        · obtain ⟨rfl, hlacks⟩ := he
          exact hlacks.ends hup hlt hpos

end

end Cosiris.Mkcofs
