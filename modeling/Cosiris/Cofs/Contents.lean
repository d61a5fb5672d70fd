import Cosiris.Cofs.Image

/-!
# Files as byte arrays

In a consistent file system with enough free blocks, `cofs_write` overlays the
contents of a file with its buffer and `cofs_read` returns what the contents have in
the range it is given. No other file changes, and the file system stays consistent.
-/

namespace Cosiris.Cofs

open Function Prog

/-- A consistent file system: every block that an inode or an indirect block refers to is marked
in the bitmap, is not a metadata block, and is referred to from one place only; every block of a
file up to its size is there. -/
structure Consistent (s : Fs) : Prop where
  layout : s.dev.superb.Layout
  held : s.dev.held = []
  metadata : s.dev.MetaUsed
  distinct : ∀ i p j q, addrAt s.dev.disk (s.table i) p ≠ 0 →
    addrAt s.dev.disk (s.table i) p = addrAt s.dev.disk (s.table j) q → i = j ∧ p = q
  blocks : ∀ i p, addrAt s.dev.disk (s.table i) p ≠ 0 →
      s.dev.superb.dataStart ≤ addrAt s.dev.disk (s.table i) p ∧
    addrAt s.dev.disk (s.table i) p < s.dev.superb.numBits ∧
      s.dev.used (addrAt s.dev.disk (s.table i) p) = true
  filled : ∀ i, s.Allocated i → Filled s.dev.disk (s.record i).addrs (s.record i).size
  node : ∀ i, s.Loaded i → (s.node i).inode = i ∧ (s.node i).Fits ∧ i < s.dev.superb.numInodes

/-- The blocks that are marked and belong to no file. -/
def Fs.Lost (s : Fs) (b : ℕ) : Prop :=
  s.dev.superb.dataStart ≤ b ∧ b < s.dev.superb.numBits ∧ s.dev.used b = true ∧
    ∀ i p, addrAt s.dev.disk (s.table i) p ≠ b

theorem Consistent.sound {s : Fs} (h : Consistent s) : Sound s.Lost s.dev s.table := by
  refine ⟨h.layout, fun {o o'} ho e => ?_, fun {o} ho hf => ?_, fun b => ?_⟩
  · obtain ⟨h1, h2⟩ := h.distinct o.1 o.2 o'.1 o'.2 ho e
    exact Prod.ext h1 h2
  · rcases hf with hlt | hlost
    · exact Nat.not_lt.mpr (h.blocks o.1 o.2 ho).1 hlt
    · exact hlost.2.2.2 o.1 o.2 rfl
  · constructor
    · rintro ⟨hlt, hu⟩
      by_cases hb : b < s.dev.superb.dataStart
      · exact .inl (.inl hb)
      · by_cases ho : ∃ i p, addrAt s.dev.disk (s.table i) p = b
        · obtain ⟨i, p, e⟩ := ho
          refine .inr ⟨?_, (i, p), e⟩
          unfold Superblock.dataStart at hb
          omega
        · refine .inl (.inr ⟨by omega, hlt, hu, fun i p e => ho ⟨i, p, e⟩⟩)
    · rintro ((hb | hlost) | ⟨hb, ⟨i, p⟩, rfl⟩)
      · exact ⟨Nat.lt_of_lt_of_le hb h.layout.dataStart_le, h.metadata b hb⟩
      · exact ⟨hlost.2.1, hlost.2.2.1⟩
      · exact (h.blocks i p hb).2

/-- Sound tables make a file system consistent. -/
theorem Consistent.of_sound {X : ℕ → Prop} {s : Fs} (h : Sound X s.dev s.table)
    (hh : s.dev.held = [])
    (hf : ∀ i, s.Allocated i → Filled s.dev.disk (s.record i).addrs (s.record i).size)
    (hn : ∀ i, s.Loaded i → (s.node i).inode = i ∧ (s.node i).Fits ∧ i < s.dev.superb.numInodes) :
    Consistent s where
  layout := h.layout
  held := hh
  metadata := h.metaUsed
  distinct := fun _ _ _ _ hp e => h.inj hp e
  blocks := fun _ _ hp => ⟨h.dataStart_le hp, h.lt_numBits hp, h.used hp⟩
  filled := hf
  node := hn

theorem Consistent.filled_node {s : Fs} (hc : Consistent s) {i : ℕ} (hl : s.Loaded i) :
    Filled s.dev.disk (s.node i).addrs (s.node i).size := by
  obtain ⟨-, hfit, hlt⟩ := hc.node i hl
  have := hc.filled i (Fs.allocated_of_loaded hl hfit hlt)
  rwa [Fs.record_of_loaded hl, hfit.pack_addrs, hfit.pack_size] at this

/-- A write in a consistent file system with room for it: what it returns and what it does. -/
theorem Consistent.write_spec {s : Fs} (hc : Consistent s) {i offset : ℕ} {buf : List UInt8}
    (hl : s.Loaded i)
    (ho : offset ≤ (s.node i).size) (hb : offset + buf.length ≤ maxFileSize)
    (hr : Room s.dev s.table i (Spans offset buf.length)) :
    wp (onNode i (cofsWrite offset buf)) (fun n s' => n = buf.length ∧
        (s'.node i).size = max (s.node i).size (offset + buf.length) ∧
          (s'.node i).type = (s.node i).type ∧ s'.Loaded i ∧
        contents s'.dev.disk (s'.node i).addrs (s'.node i).size =
          overlay (contents s.dev.disk (s.node i).addrs (s.node i).size) offset buf ∧
        (∀ j, j ≠ i → s'.file j = s.file j) ∧ Consistent s')
      (fun _ _ => False) s := by
  obtain ⟨hino, hfit, hlt⟩ := hc.node i hl
  have htab := Fs.table_of_loaded hl hfit hlt
  have hfill := hc.filled_node hl
  have hsize : max (s.node i).size (offset + buf.length) ≤ 16518 * 512 := by
    have := hfill.1
    unfold maxFileSize at hb
    omega
  rw [wp_onNode]
  refine (cofsWrite_spec (o := ⟨s.dev, s.node i⟩)
    (i := i) hc.sound htab hino hlt hc.held ho hb).mono
    (fun n o' hw => ?_) fun e o' he => he.2.2.2 _ (fun _ hp => hp) hr
  obtain ⟨rfl, hnode, hw, -⟩ := hw
  dsimp only at hnode hw
  have htype : o'.node.type = (s.node i).type := by rw [hnode]
  have hsz : o'.node.size = max (s.node i).size (offset + buf.length) := by rw [hnode]
  have hspare : ∀ k, 8 ≤ k → o'.node.addrs k = (s.node i).addrs k := by
    intro k hk
    have := hw.spare k hk
    rwa [update_self, htab] at this
  have hstep : NodeStep s.Lost s i o' :=
    ⟨hl, hfit, hlt, hw.toFrame, htype, hw.sound.node_fits hfit hspare htype (by rw [hsz]; omega)⟩
  have hfill : Filled s.dev.disk (s.table i) (s.node i).size := by rwa [htab]
  have hcont := hw.contents hfill ho
  have hfill' := hw.filled hfill ho (by omega)
  rw [update_self] at hcont hfill'
  rw [htab] at hcont
  have hnode' : (s.put i o').node i = o'.node := update_self _ _ _
  refine ⟨rfl, by rw [hnode', hsz], by rw [hnode', htype], (hstep.loaded_iff i).mpr hl, ?_,
    fun j hj => hstep.file_ne hj (hc.filled j), ?_⟩
  · rw [hnode', hsz]
    exact hcont
  · refine .of_sound hstep.sound (hw.held.trans hc.held) (fun j hj => ?_) fun j hj => ?_
    · by_cases hji : j = i
      · subst hji
        rw [hstep.record_self, hstep.fits'.pack_addrs, hstep.fits'.pack_size, hsz]
        exact hfill'
      · have ha := (hstep.allocated_ne hji).mp hj
        rw [hstep.record_ne hji ha.1]
        have := hw.toFrame.filled hji (by rw [Fs.table_of_allocated ha]; exact hc.filled j ha)
        rwa [update_of_ne hji, Fs.table_of_allocated ha] at this
    · rw [hstep.numInodes_eq]
      by_cases hji : j = i
      · subst hji
        rw [hnode']
        exact ⟨by rw [hnode]; exact hino, hstep.fits', hlt⟩
      · have : (s.put i o').node j = s.node j := update_of_ne hji _ _
        rw [this]
        exact hc.node j ((hstep.loaded_iff j).mp hj)

/-- A read in a consistent file system, with its range cut to the file. -/
theorem Consistent.read_of_cut {s : Fs} (hc : Consistent s) {i offset n : ℕ} (hl : s.Loaded i)
    (hk : offset ≤ (s.node i).size →
      (if (offset + n) % 2 ^ 32 > (s.node i).size then (s.node i).size - offset else n) =
      min n ((s.node i).size - offset)) :
    onNode i (cofsRead offset n) s = .ok (min n ((s.node i).size - offset),
      ((contents s.dev.disk (s.node i).addrs (s.node i).size).drop offset).take n) s := by
  have : wp (onNode i (cofsRead offset n))
    (fun r s' => (r, s') = ((min n ((s.node i).size - offset),
      ((contents s.dev.disk (s.node i).addrs (s.node i).size).drop offset).take n), s))
        (fun _ _ => False) s := by
    rw [wp_onNode, cofsRead_of_cut hc.held (hc.filled_node hl) hk]
    dsimp only
    rw [Fs.put_self]
  obtain ⟨r, s', hrun, he⟩ := this.returns
  obtain ⟨rfl, rfl⟩ := Prod.mk.inj he
  exact hrun

/-- A read in a consistent file system. -/
theorem Consistent.read_eq {s : Fs} (hc : Consistent s) {i offset n : ℕ} (hl : s.Loaded i)
    (hw : offset + n < 2 ^ 32) :
    onNode i (cofsRead offset n) s = .ok (min n ((s.node i).size - offset),
      ((contents s.dev.disk (s.node i).addrs (s.node i).size).drop offset).take n) s := by
  apply hc.read_of_cut hl
  intro ho
  rw [Nat.mod_eq_of_lt hw]
  split_ifs <;> omega

/-- **`cofs_write` and `cofs_read` refine byte arrays.** In a consistent file system with free
blocks for the places that the write needs, `cofs_write` returns the number of bytes it was given,
the size of the node becomes the larger of the old size and the end of the write, and any later
`cofs_read` returns the part of the old contents overlaid with the buffer that its range has in
common with the file. All other files stay as they are, and the file system stays consistent. -/
theorem cofs_write_refines {s : Fs} (hc : Consistent s) {i offset : ℕ} {buf : List UInt8}
    (hl : s.Loaded i)
    (ho : offset ≤ (s.node i).size) (hb : offset + buf.length ≤ maxFileSize)
    (hr : Room s.dev s.table i (Spans offset buf.length)) :
    ∃ s', onNode i (cofsWrite offset buf) s = .ok buf.length s' ∧
      (s'.node i).size = max (s.node i).size (offset + buf.length) ∧
      (∀ off n, off + n < 2 ^ 32 →
        onNode i (cofsRead off n) s' =
          .ok (min n ((s'.node i).size - off),
            ((overlay (contents s.dev.disk (s.node i).addrs (s.node i).size) offset buf).drop
              off).take n)
          s') ∧
      (∀ j, j ≠ i → s'.file j = s.file j) ∧ Consistent s' := by
  obtain ⟨n, s', hrun, rfl, hsize, -, hl', hcont, hfile, hc'⟩ := (hc.write_spec hl ho hb hr).returns
  refine ⟨s', hrun, hsize, fun off n hw => ?_, hfile, hc'⟩
  rw [hc'.read_eq hl' hw, hcont]

/-! ### A small file system -/

/-- A partition of 100 blocks and 8 inodes, of which only inode `1` is in use. -/
def tinyDev (ino : Inode) : Dev where
  superb := ⟨100, 8, 2, 3⟩
  disk := fun b =>
    if b = 2 then fun q => if q = 0 then 0x1F else 0
    else if b = 3 then putInode zeroBlock 1 ino
    else zeroBlock
  held := []
  freed := []

/-- The partition with the node of inode `1` in the cache. -/
def tiny (n : FsNode) : Fs := ⟨tinyDev n.pack, [1], false, fun _ => n⟩

/-- A node of inode `1` of an empty file of the given type, with one link and one reference. -/
def emptyNode (type : ℕ) : FsNode := { freshNode 1 with type := type, numLinks := 1 }

@[simp] theorem tiny_superb (n : FsNode) : (tiny n).dev.superb = ⟨100, 8, 2, 3⟩ := rfl

theorem tiny_layout (n : FsNode) : (tiny n).dev.superb.Layout := by
  rw [tiny_superb]
  refine ⟨?_, ?_, ?_, ?_, ?_, ?_⟩ <;> decide

theorem tiny_used (n : FsNode) {b : ℕ} (hb : b < 4096) : (tiny n).dev.used b = decide (b < 5) := by
  have h2 : b / 4096 + 2 = 2 := by omega
  have hbit : (tiny n).dev.used b = bitAt (fun q => if q = 0 then 0x1F else 0) b := by
    show bitAt ((tinyDev n.pack).disk (b / 4096 + 2)) (b % 4096) = _
    rw [h2, Nat.mod_eq_of_lt hb]
    rfl
  rw [hbit]
  show (if b / 8 = 0 then (0x1F : UInt8) else 0).toNat.testBit (b % 8) = _
  by_cases h8 : b / 8 = 0
  · have : b < 8 := by omega
    rw [if_pos h8, Nat.mod_eq_of_lt this]
    have hall : ∀ k : Fin 8, (0x1F : UInt8).toNat.testBit k = decide ((k : ℕ) < 5) := by decide
    exact hall ⟨b, this⟩
  · rw [if_neg h8]
    have : ¬ b < 5 := by omega
    simp [this]

theorem tiny_inode_type (n : FsNode) {j : ℕ} (hj : j < 8) (h1 : j ≠ 1) :
    ((tiny n).dev.inode j).type = 0 := by
  have hb : (tiny n).dev.superb.inoBlk j = 3 := by
    show j / 8 + 3 = 3
    omega
  unfold Dev.inode
  rw [hb]
  show (getInode (putInode zeroBlock 1 n.pack) (j % 8)).type = 0
  rw [getInode_putInode_ne _ _ (by omega)]
  exact getLe_zero _ _

theorem tiny_inode_one (n : FsNode) : (tiny n).dev.inode 1 = n.pack :=
    getInode_putInode _ _ n.pack_fits

theorem emptyNode_fits {type : ℕ} (h : type &&& 0xF000 = type) : (emptyNode type).Fits :=
  ⟨h, by show (0 : ℕ) < _; decide, fun _ => by show (0 : ℕ) < _; decide, fun _ _ => rfl⟩

section

variable {type : ℕ} (ht : type &&& 0xF000 = type) (h0 : type ≠ 0)

include h0 in
theorem tiny_loaded_iff (j : ℕ) : (tiny (emptyNode type)).Loaded j ↔ j = 1 := by
  unfold Fs.Loaded
  show j ∈ [1] ∧ type ≠ 0 ↔ _
  simp [h0]

include h0 in
theorem tiny_record_one : (tiny (emptyNode type)).record 1 = (emptyNode type).pack :=
  Fs.record_of_loaded ((tiny_loaded_iff h0 1).mpr rfl)

include ht h0 in
theorem tiny_allocated_iff (j : ℕ) : (tiny (emptyNode type)).Allocated j ↔ j = 1 := by
  constructor
  · rintro ⟨hlt, hty⟩
    by_contra h1
    rw [Fs.record_of_not_loaded fun hl => h1 ((tiny_loaded_iff h0 j).mp hl)] at hty
    exact hty (tiny_inode_type _ hlt h1)
  · rintro rfl
    exact Fs.allocated_of_loaded ((tiny_loaded_iff h0 1).mpr rfl) (emptyNode_fits ht)
      (by show 1 < 8; decide)

include ht h0 in
theorem tiny_table (j : ℕ) : (tiny (emptyNode type)).table j = fun _ => 0 := by
  by_cases ha : (tiny (emptyNode type)).Allocated j
  · obtain rfl := (tiny_allocated_iff ht h0 j).mp ha
    rw [Fs.table_of_allocated ha, tiny_record_one h0, (emptyNode_fits ht).pack_addrs]
    rfl
  · exact if_neg ha

include ht h0 in
theorem tiny_consistent : Consistent (tiny (emptyNode type)) where
  layout := tiny_layout _
  held := rfl
  metadata := by
    intro b hb
    have h5 : (tiny (emptyNode type)).dev.superb.dataStart = 5 := by
      rw [tiny_superb]
      decide
    rw [h5] at hb
    rw [tiny_used _ (by omega)]
    exact decide_eq_true hb
  distinct := by
    intro i p j q hp
    rw [tiny_table ht h0, addrAt_zero] at hp
    exact absurd rfl hp
  blocks := by
    intro i p hp
    rw [tiny_table ht h0, addrAt_zero] at hp
    exact absurd rfl hp
  filled := by
    intro i hi
    obtain rfl := (tiny_allocated_iff ht h0 i).mp hi
    rw [tiny_record_one h0, (emptyNode_fits ht).pack_size]
    exact ⟨Nat.zero_le _, fun q hq => absurd hq (Nat.not_lt_zero q)⟩
  node := by
    intro i hi
    obtain rfl := (tiny_loaded_iff h0 i).mp hi
    exact ⟨rfl, emptyNode_fits ht, by show 1 < 8; decide⟩

theorem tiny_room :
    Room (tiny (emptyNode type)).dev (tiny (emptyNode type)).table 1 (Spans 0 1) := by
  have habs :
    absent (tiny (emptyNode type)).dev (tiny (emptyNode type)).table 1 (Spans 0 1) ≤ 1 := by
    classical
    refine Nat.le_trans (Finset.card_le_card (Finset.subset_iff.mpr ?_))
      (Finset.card_singleton (Place.leafOf 0)).le
    simp only [Finset.mem_filter, Finset.mem_univ, true_and, Finset.mem_singleton]
    rintro p ⟨-, f, hc, -, hf⟩
    obtain rfl : f = 0 := by omega
    refine Place.eq_leafOf_of_covers ?_ hc
    rcases p with j | k | m | ⟨m, k⟩
    · obtain ⟨h, -⟩ | ⟨-, h, -⟩ | ⟨-, h, -⟩ := hc
      · exact h
      · omega
      · omega
    · exact trivial
    · exact absurd hc.1 (by omega)
    · exact trivial
  have hfree : 0 < numFree (tiny (emptyNode type)).dev := by
    refine Finset.card_pos.mpr ⟨5, ?_⟩
    rw [Finset.mem_filter, Finset.mem_range, tiny_used _ (by decide)]
    exact ⟨by show 5 < 100; decide, by decide⟩
  unfold Room
  omega

end

/-- One byte is written to an empty file and read back. -/
theorem cofs_write_refines_one_byte :
    ∃ s', onNode 1 (cofsWrite 0 [65]) (tiny (emptyNode 0x8000)) = .ok 1 s' ∧ (s'.node 1).size = 1 ∧
      (∃ s'', onNode 1 (cofsRead 0 10) s' = .ok (1, [65]) s'') ∧ Consistent s' := by
  have h₁ : 0x8000 &&& 0xF000 = 0x8000 := by decide
  have h₀ : 0x8000 ≠ 0 := by decide
  have hb : 0 + [(65 : UInt8)].length ≤ maxFileSize := by
    unfold maxFileSize
    simp
  obtain ⟨s', hrun, hsize, hread, -, hc⟩ := cofs_write_refines (tiny_consistent h₁ h₀)
    ((tiny_loaded_iff h₀ 1).mpr rfl) (Nat.zero_le _) hb tiny_room
  have hsize : (s'.node 1).size = 1 := hsize
  refine ⟨s', hrun, hsize, ⟨s', ?_⟩, hc⟩
  have hr := hread 0 10 (by omega)
  rw [hsize] at hr
  rw [hr]
  rfl

end Cosiris.Cofs
