import Cosiris.Cofs.Cache

/-!
# What the file system holds

The record of an inode is the one its node would write back, if a node of the cache
has loaded it, and the one on the disk otherwise. An inode with a record of type `0`
is free; the others are files, each with the fields of its record and its contents.
This is the view in which the operations of the file system are specified: neither
the cache nor the places of the blocks are seen in it.
-/

namespace Cosiris.Cofs

open Function Prog

variable {X : ℕ → Prop}

/-! ### Records and files -/

/-- The inode has a node in the cache that has been loaded. -/
def Fs.Loaded (s : Fs) (i : ℕ) : Prop := i ∈ s.cache ∧ (s.node i).type ≠ 0

instance (s : Fs) (i : ℕ) : Decidable (s.Loaded i) := inferInstanceAs (Decidable (_ ∧ _))

/-- The record of an inode. -/
def Fs.record (s : Fs) (i : ℕ) : Inode := if s.Loaded i then (s.node i).pack else s.dev.inode i

/-- The inode is in use. -/
def Fs.Allocated (s : Fs) (i : ℕ) : Prop := i < s.dev.superb.numInodes ∧ (s.record i).type ≠ 0

instance (s : Fs) (i : ℕ) : Decidable (s.Allocated i) := inferInstanceAs (Decidable (_ ∧ _))

/-- The addresses of each inode. -/
def Fs.table (s : Fs) (i : ℕ) : ℕ → ℕ := if s.Allocated i then (s.record i).addrs else fun _ => 0

/-- A file: the fields of its record and its contents. -/
structure File where
  type : ℕ
  major : ℕ
  minor : ℕ
  uid : ℕ
  gid : ℕ
  numLinks : ℕ
  atime : ℕ
  mtime : ℕ
  ctime : ℕ
  data : List UInt8

/-- The file of a record. -/
def Inode.file (ino : Inode) (data : List UInt8) : File where
  type := ino.type
  major := ino.major
  minor := ino.minor
  uid := ino.uid
  gid := ino.gid
  numLinks := ino.numLinks
  atime := ino.atime
  mtime := ino.mtime
  ctime := ino.ctime
  data := data

/-- The file of each inode that is in use. -/
def Fs.file (s : Fs) (i : ℕ) : Option File :=
  if s.Allocated i then some
    ((s.record i).file (contents s.dev.disk (s.record i).addrs (s.record i).size)) else none

/-- The references to an inode. -/
def Fs.refs (s : Fs) (i : ℕ) : ℕ := if i ∈ s.cache then (s.node i).refCount else 0

theorem Fs.record_of_loaded {s : Fs} {i : ℕ} (h : s.Loaded i) :
    s.record i = (s.node i).pack := if_pos h

theorem Fs.record_of_not_loaded {s : Fs} {i : ℕ} (h : ¬ s.Loaded i) : s.record i = s.dev.inode i :=
    if_neg h

theorem Fs.table_of_allocated {s : Fs} {i : ℕ} (h : s.Allocated i) :
    s.table i = (s.record i).addrs :=
    if_pos h

theorem Fs.file_of_allocated {s : Fs} {i : ℕ} (h : s.Allocated i) :
    s.file i =
      some ((s.record i).file (contents s.dev.disk (s.record i).addrs (s.record i).size)) :=
  if_pos h

theorem Fs.file_eq_none {s : Fs} {i : ℕ} : s.file i = none ↔ ¬ s.Allocated i := by
  unfold Fs.file
  split_ifs with h <;> simp [h]

/-! ### Nodes -/

/-- The fields of a loaded node lose nothing when they are written back, apart from those that
are narrower on the disk. -/
structure FsNode.Fits (n : FsNode) : Prop where
  type : n.type &&& 0xF000 = n.type
  size : n.size < 2 ^ 32
  addrs : ∀ k, n.addrs k < 2 ^ 32
  rest : ∀ k, 9 ≤ k → n.addrs k = 0

theorem FsNode.Fits.pack_addrs {n : FsNode} (h : n.Fits) : n.pack.addrs = n.addrs := by
  funext k
  unfold FsNode.pack
  dsimp only
  split_ifs with hk
  · exact Nat.mod_eq_of_lt (h.addrs k)
  · exact (h.rest k (by omega)).symm

theorem FsNode.Fits.pack_size {n : FsNode} (h : n.Fits) : n.pack.size = n.size :=
    Nat.mod_eq_of_lt h.size

/-- The type of a loaded node is in its record. -/
theorem FsNode.Fits.pack_type_and_ne_zero {n : FsNode} (h : n.Fits) (h0 : n.type ≠ 0) :
    n.pack.type &&& 0xF000 ≠ 0 := by
  intro e
  have hbits : ((n.type &&& 0xF000) ||| n.mask) % 2 ^ 16 &&& 0xF000 = 0 := e
  apply h0
  rw [← h.type]
  refine Nat.eq_of_testBit_eq fun k => ?_
  have hk := congrArg (fun v => v.testBit k) hbits
  simp only [Nat.testBit_and, Nat.testBit_mod_two_pow, Nat.testBit_or, Nat.zero_testBit] at hk ⊢
  by_cases hlt : k < 16
  · simp only [hlt, decide_true, Bool.true_and, Bool.and_eq_false_iff, Bool.or_eq_false_iff] at hk ⊢
    rcases hk with hk | hk
    · exact hk.1
    · exact .inr hk
  · have : (0xF000 : ℕ).testBit k = false := by
      refine Nat.testBit_lt_two_pow (Nat.lt_of_lt_of_le (show (0xF000 : ℕ) < 2 ^ 16 by decide) ?_)
      exact Nat.pow_le_pow_right (by decide) (by omega)
    rw [this, Bool.and_false]

/-- The type of a loaded node can be told from its record. -/
theorem FsNode.Fits.pack_type_ne_zero {n : FsNode} (h : n.Fits) (h0 : n.type ≠ 0) :
    n.pack.type ≠ 0 := by
  intro e
  apply h.pack_type_and_ne_zero h0
  rw [e, Nat.zero_and]

theorem FsNode.load_fits (n : FsNode) {ino : Inode} (h : ino.Fits) : (n.load ino).Fits where
  type := by
    show (ino.type &&& 0xF000) &&& 0xF000 = ino.type &&& 0xF000
    rw [Nat.and_assoc, Nat.and_self]
  size := h.size
  addrs := by
    intro k
    by_cases hk : k < 9
    · exact h.addrs k hk
    · show ino.addrs k < 2 ^ 32
      rw [h.rest k (by omega)]
      decide
  rest := h.rest

/-! ### A step on one node -/

/-- The state after a program on the node of inode `i`. -/
def Fs.put (s : Fs) (i : ℕ) (o : Open) : Fs :=
  { s with dev := o.dev, node := update s.node i o.node }

theorem Fs.put_self (s : Fs) (i : ℕ) : s.put i ⟨s.dev, s.node i⟩ = s := by
  unfold Fs.put
  dsimp only
  rw [update_eq_self]

section

variable {α : Type} {s : Fs} {i : ℕ} {E : Halt → Fs → Prop}

theorem wp_onNode {m : Prog Halt Open α} {Q : α → Fs → Prop} :
    wp (onNode i m) Q E s =
      wp m (fun a o => Q a (s.put i o)) (fun e o => E e (s.put i o)) ⟨s.dev, s.node i⟩ :=
  wp_zoom _ _ _

@[simp] theorem wp_disk {m : Prog Halt Dev α} {Q : α → Fs → Prop} :
    wp (disk m) Q E s =
      wp m (fun a d => Q a { s with dev := d }) (fun e d => E e { s with dev := d }) s.dev :=
  wp_zoom _ _ _

@[simp] theorem wp_modifyNode {f : FsNode → FsNode} {Q : Unit → Fs → Prop} :
    wp (modifyNode i f) Q E s = Q () (s.setNode i f) := rfl

@[simp] theorem wp_getNode {Q : FsNode → Fs → Prop} : wp (getNode i) Q E s = Q (s.node i) s := rfl

end

theorem Fs.allocated_of_loaded {s : Fs} {i : ℕ} (h : s.Loaded i) (hf : (s.node i).Fits)
    (hi : i < s.dev.superb.numInodes) : s.Allocated i :=
  ⟨hi, by rw [Fs.record_of_loaded h]; exact hf.pack_type_ne_zero h.2⟩

/-- The addresses of a loaded node are those of the table. -/
theorem Fs.table_of_loaded {s : Fs} {i : ℕ} (h : s.Loaded i) (hf : (s.node i).Fits)
    (hi : i < s.dev.superb.numInodes) : s.table i = (s.node i).addrs := by
  rw [Fs.table_of_allocated (Fs.allocated_of_loaded h hf hi), Fs.record_of_loaded h, hf.pack_addrs]

/-- A step on the node of inode `i` that leaves the other inodes alone. -/
structure NodeStep (X : ℕ → Prop) (s : Fs) (i : ℕ) (o : Open) : Prop where
  loaded : s.Loaded i
  fits : (s.node i).Fits
  lt : i < s.dev.superb.numInodes
  frame : Frame X s.dev s.table i o.dev (update s.table i o.node.addrs)
  type : o.node.type = (s.node i).type
  fits' : o.node.Fits

namespace NodeStep

variable {s : Fs} {i : ℕ} {o : Open}

theorem loaded_iff (h : NodeStep X s i o) (j : ℕ) : (s.put i o).Loaded j ↔ s.Loaded j := by
  unfold Fs.Loaded Fs.put
  dsimp only
  by_cases hj : j = i
  · subst hj
    rw [update_self, h.type]
  · rw [update_of_ne hj]

theorem record_self (h : NodeStep X s i o) : (s.put i o).record i = o.node.pack := by
  rw [Fs.record_of_loaded ((h.loaded_iff i).mpr h.loaded)]
  show (update s.node i o.node i).pack = _
  rw [update_self]

theorem record_ne (h : NodeStep X s i o) {j : ℕ} (hj : j ≠ i) (hlt : j < s.dev.superb.numInodes) :
    (s.put i o).record j = s.record j := by
  by_cases hl : s.Loaded j
  · rw [Fs.record_of_loaded hl, Fs.record_of_loaded ((h.loaded_iff j).mpr hl)]
    show (update s.node i o.node j).pack = _
    rw [update_of_ne hj]
  · rw [Fs.record_of_not_loaded hl, Fs.record_of_not_loaded fun hl' => hl ((h.loaded_iff j).mp hl')]
    exact h.frame.inodes j hj hlt

theorem numInodes_eq (h : NodeStep X s i o) :
    (s.put i o).dev.superb.numInodes = s.dev.superb.numInodes :=
  congrArg Superblock.numInodes h.frame.superb

theorem allocated_ne (h : NodeStep X s i o) {j : ℕ} (hj : j ≠ i) :
    (s.put i o).Allocated j ↔ s.Allocated j := by
  unfold Fs.Allocated
  rw [h.numInodes_eq]
  refine and_congr_right fun hlt => ?_
  rw [h.record_ne hj hlt]

theorem allocated_self (h : NodeStep X s i o) : (s.put i o).Allocated i := by
  refine ⟨by rw [h.numInodes_eq]; exact h.lt, ?_⟩
  rw [h.record_self]
  exact h.fits'.pack_type_ne_zero (by rw [h.type]; exact h.loaded.2)

theorem table_eq (h : NodeStep X s i o) : (s.put i o).table = update s.table i o.node.addrs := by
  funext j
  by_cases hj : j = i
  · subst hj
    rw [update_self, Fs.table_of_allocated h.allocated_self, h.record_self, h.fits'.pack_addrs]
  · rw [update_of_ne hj]
    unfold Fs.table
    by_cases ha : s.Allocated j
    · rw [if_pos ha, if_pos ((h.allocated_ne hj).mpr ha), h.record_ne hj ha.1]
    · rw [if_neg ha, if_neg fun ha' => ha ((h.allocated_ne hj).mp ha')]

theorem sound (h : NodeStep X s i o) : Sound X (s.put i o).dev (s.put i o).table := by
  rw [h.table_eq]
  exact h.frame.sound

/-- The other files are as they were. -/
theorem file_ne (h : NodeStep X s i o) {j : ℕ} (hj : j ≠ i)
    (hf : s.Allocated j → Filled s.dev.disk (s.record j).addrs (s.record j).size) :
    (s.put i o).file j = s.file j := by
  unfold Fs.file
  by_cases ha : s.Allocated j
  · rw [if_pos ha, if_pos ((h.allocated_ne hj).mpr ha), h.record_ne hj ha.1]
    have hc := h.frame.contents hj (by rw [Fs.table_of_allocated ha]; exact hf ha)
    rw [update_of_ne hj, Fs.table_of_allocated ha] at hc
    rw [← hc]
    rfl
  · rw [if_neg ha, if_neg fun ha' => ha ((h.allocated_ne hj).mp ha')]

theorem file_self (h : NodeStep X s i o) :
    (s.put i o).file i =
      some (o.node.pack.file (Cofs.contents o.dev.disk o.node.addrs o.node.size)) := by
  rw [Fs.file_of_allocated h.allocated_self, h.record_self, h.fits'.pack_addrs, h.fits'.pack_size]
  rfl

end NodeStep

/-- The addresses of a node fit, if those of its blocks are sound. -/
theorem Sound.node_fits {d : Dev} {A : ℕ → ℕ → ℕ} {i : ℕ} {n n' : FsNode}
    (h : Sound X d (update A i n'.addrs))
    (hf : n.Fits) (hs : ∀ k, 8 ≤ k → n'.addrs k = n.addrs k) (ht : n'.type = n.type)
    (hsz : n'.size < 2 ^ 32) :
    n'.Fits := by
  refine ⟨by rw [ht]; exact hf.type, hsz, fun k => ?_,
    fun k hk => by rw [hs k (by omega)]; exact hf.rest k hk⟩
  by_cases hk : k < 8
  · by_cases h0 : n'.addrs k = 0
    · rw [h0]
      decide
    · have h1 : addrAt d.disk (update A i n'.addrs i) (.top ⟨k, hk⟩) = n'.addrs k := by
        rw [update_self]; rfl
      have := h.lt_numBits (i := i) (p := .top ⟨k, hk⟩) (by rwa [h1])
      rw [h1] at this
      exact Nat.lt_trans this h.layout.numBits_lt
  · rw [hs k (by omega)]
    exact hf.addrs k

end Cosiris.Cofs
