import Cosiris.Cofs.Lookup

/-!
# Creating files and links

What `cofs_creat`, `cofs_mkdir`, `cofs_mknod` and `cofs_link` do to the files and the
references, from a state in which no node is locked.
-/

namespace Cosiris.Cofs

open Function Prog

variable [Stack]

/-! ### The states of a node in the middle of an operation -/

section

variable {s s₁ s₂ : Fs} {i j : ℕ} {n : FsNode} {data : List UInt8} {ino : Inode}

/-- What another node is after a step on the node of inode `i`. -/
theorem Turn.other (h : Turn i s s₁ n data ino) (hs : Inv s) (hj : j ≠ i) (hr : s.refs j ≠ 0) :
    s₁.refs j ≠ 0 ∧ s₁.node j = s.node j ∧ s₁.data j = s.data j ∧ s₁.dev.inode j = s.dev.inode j :=
  ⟨by rwa [h.rest.refs j hj], h.rest.node hj hr, h.rest.data hs h.inv hj hr,
    h.rest.inode j hj (hs.lt hr)⟩

theorem Turn.refs_ne_zero (h : Turn i s s₁ n data ino) (hn : n.refCount ≠ 0) : s₁.refs i ≠ 0 := by
  rwa [h.refs]

end

/-! ### A new node in a directory -/

/-- The new inode `i` with the node `n` and the contents `data` has been entered in directory `p`
under the name. -/
structure Added (p : ℕ) (name : CStr) (i : ℕ) (n : FsNode) (data : List UInt8)
    (s s' : Fs) : Prop where
  inv : Inv s'
  quiet : Quiet s'
  rest : Rest (fun j => j = p ∨ j = i) s s'
  absent : lookup (slots (s.data p)) name = 0
  dir : (s.node p).type &&& 0x4000 ≠ 0
  pos : 0 < i
  lt : i < s.dev.superb.numInodes
  free : s.file i = none
  unused : s.refs i = 0
  refs : s'.refs i = 1
  node : s'.node i = n
  data : s'.data i = data
  parent_refs : s'.refs p = s.refs p
  parent : ∃ k, 32 * k ≤ (s.node p).size ∧ FreeSlot (slots (s.data p)) k ∧
    slots (s'.data p) = putSlot (slots (s.data p)) k ⟨i, name.stored⟩
  parent_node : s'.node p = { s.node p with addrs := (s'.node p).addrs, size := (s'.node p).size }

/-- The name exists: the node has been looked up and put back. -/
structure Exists (p : ℕ) (name : CStr) (s s' : Fs) : Prop where
  quiet : Quiet s'
  dir : (s.node p).type &&& 0x4000 ≠ 0
  found : lookup (slots (s.data p)) name ≠ 0
  back : PutBack (lookup (slots (s.data p)) name) s s'

/-- The reasons for which an insertion may halt: there is no free inode, or not for want of one, and
then all that it has freed was in use, unless it releases a file of a size with which that goes
wrong. -/
def InsertHalts (p : ℕ) (name : CStr) (s : Fs) (e : Halt) (s' : Fs) : Prop :=
  (e = .panic "No free inodes\n" → ∀ j, 0 < j → j < s.dev.superb.numInodes → s.Allocated j) ∧
    (Logged s.dev s'.dev ∨ lookup (slots (s.data p)) name ≠ 0 ∧
      s.Orphan (lookup (slots (s.data p)) name) ∧
      ¬ TruncateOk (s.core (lookup (slots (s.data p)) name)).size)

theorem InsertHalts.of_rest {T : ℕ → Prop} {p : ℕ} {name : CStr} {s s₁ s' : Fs} {e : Halt}
    (h : Rest T s s₁)
    (he : e ≠ .panic "No free inodes\n") (hl : Logged s₁.dev s'.dev) : InsertHalts p name s e s' :=
  ⟨fun e' => absurd e' he, .inl (h.logged.trans h.superb hl)⟩

/-- What stands in the way of an insertion: the name is there and its node is not to be had or is
released, no inode can be allocated, or the entry is not written. -/
def InsertFails (p : ℕ) (name : CStr) (t : ℕ) (s s' : Fs) : Prop :=
  FindFails s p name ∨
    (lookup (slots (s.data p)) name ≠ 0 ∧ s.Orphan (lookup (slots (s.data p)) name)) ∨
    AllocFails t s ∨ EntryFails p s s'

/-- The state of the new node before it is set up. -/
def newNode (i t : ℕ) (name : CStr) : FsNode :=
  { (freshNode i).load (allocInode t) with name := name, lock := true }

theorem addNode_spec {s : Fs} {p t : ℕ} {name : CStr} {init : ℕ → Prog Halt Fs Unit}
    {G : ℕ → FsNode → List UInt8 → Prop}
    (h : Inv s)
    (hq : Quiet s) (hr : s.refs p ≠ 0) (hroot : s.Orphan (lookup (slots (s.data p)) name) →
      lookup (slots (s.data p)) name ≠ 1)
    (hinit : ∀ i s₁, i ≠ p → i < s.dev.superb.numInodes →
      Turn i s s₁ (newNode i t (name.take 255)) [] (allocInode t) →
      wp (init i) (fun _ s₂ => ∃ n data ino, Turn i s₁ s₂ { n with lock := true } data ino ∧
        n.refCount = 1 ∧
        n.lock = false ∧ G i n data) (fun e s' => e ≠ .panic "No free inodes\n" ∧
          Logged s₁.dev s'.dev ∧ s'.dev.NoneFree) s₁) :
    wp (addNode p name t init) (fun r s' => (r = none ∧ Exists p name s s') ∨
        ∃ i n data, r = some i ∧ Added p name i n data s s' ∧ G i n data)
      (fun e s' => InsertHalts p name s e s' ∧ InsertFails p name t s s') s := by
  rw [addNode, wp_bind]
  refine finddir_spec h hr
    (fun e s' he hd hfail =>
      ⟨⟨fun e' => absurd e' he, .inl (by rw [hd]; exact Logged.refl _)⟩, .inl hfail⟩)
    (fun hdir hl => ?_) fun i hdir hl h0 hlt hfree s₁ hf nm _ _ ht => ?_
  · simp only [wp_bind]
    refine (alloc_spec h hq fun e s' hfail hlog hall =>
        ⟨⟨hall, .inl hlog⟩, .inr (.inr (.inl hfail))⟩).mono
      (fun r s₁ hw => ?_) fun _ _ he => he
    refine hw.mono (fun _ s₁ hq₁ => ?_) fun _ _ he => he
    obtain ⟨i, rfl, hpos, hlt, hfile, hrefs, nm, ht⟩ := hq₁
    have hip : i ≠ p := fun e => hr (e ▸ hrefs)
    have hr₁ := ht.refs_ne_zero (show (1 : ℕ) ≠ 0 from Nat.one_ne_zero)
    simp only [deref, wp_pure, wp_modifyNode]
    have hname : Turn i s₁ (s₁.setNode i fun n => { n with name := name.take 255 })
      (newNode i t (name.take 255)) []
      (allocInode t) := by
      have := ht.inv.touch (f := fun n => { n with name := name.take 255 }) hr₁ rfl rfl rfl rfl rfl
        (Inv.refCount hr₁)
      rw [ht.node, ht.data, ht.inode] at this
      exact this
    generalize (s₁.setNode i fun n => { n with name := name.take 255 }) = s₂ at hname
    have ht₂ := ht.trans hname
    refine (hinit i s₂ hip hlt ht₂).mono (fun _ s₃ h₃ => ?_) fun e s' he =>
      ⟨.of_rest ht₂.rest he.1 he.2.1, .inr (.inr (.inr (.inr (.inl he.2.2))))⟩
    obtain ⟨n, data, ino, h₃, hrc, hlock, hG⟩ := h₃
    have hrc0 : n.refCount ≠ 0 := by
      rw [hrc]
      exact Nat.one_ne_zero
    have hr₃ := h₃.refs_ne_zero hrc0
    refine (updateNode_spec h₃.inv hr₃).mono (fun _ s₄ h₄ => ?_) fun _ _ he => he.elim
    rw [h₃.node, h₃.data] at h₄
    have hr₄ := h₄.refs_ne_zero hrc0
    refine (cofsUnlock_spec h₄.inv hr₄ (by rw [h₄.node])).mono (fun _ s₅ h₅ => ?_)
      fun _ _ he => he.elim
    rw [h₄.node, h₄.data, h₄.inode] at h₅
    have hunlock : ({ ({ n with lock := true } : FsNode) with lock := false } : FsNode) = n := by
      rw [← hlock]
    rw [hunlock] at h₅
    have ht₅ := ht₂.trans (h₃.trans (h₄.trans h₅))
    -- the directory is as it was
    obtain ⟨hrp, hnp, hdp, hip₅⟩ := ht₅.other h hip.symm hr
    refine (cofsLock_spec ht₅.inv hrp).mono (fun _ s₆ h₆ => ?_) fun e s' he => ?_
    · obtain ⟨-, h₆⟩ := h₆
      rw [hnp, hdp, hip₅] at h₆
      have hri₅ := ht₅.refs_ne_zero hrc0
      obtain ⟨hri₆, hni₆, hdi₆, hii₆⟩ := h₆.other ht₅.inv hip hri₅
      have hrp₆ := h₆.refs_ne_zero (Inv.refCount hr)
      have hrest₆ : Rest (fun j => j = p ∨ j = i) s s₆ :=
        (ht₅.rest.mono fun j => .inr).trans (h₆.rest.mono fun j => .inl)
      rw [wp_getNode, h₆.inv.inode_eq hri₆]
      refine dirlink_new h₆.inv hrp₆ (by rw [hrest₆.superb]; exact hlt) (by rw [h₆.data]; exact hl)
        (fun e s' he hfail hlog => ⟨.of_rest hrest₆ he hlog, .inr (.inr (.inr ?_))⟩)
        fun k hk hfree hslots s₇ h₇ hc₇ => ?_
      · unfold EntryFails at hfail ⊢
        rwa [h₆.node] at hfail
      rw [h₆.node, h₆.data] at h₇
      rw [h₆.inode, h₆.node] at hc₇
      rw [h₆.node] at hk
      have hrp₇ := h₇.refs_ne_zero (Inv.refCount hr)
      refine (cofsUnlock_spec h₇.inv hrp₇ (by rw [h₇.node])).mono (fun _ s₈ h₈ => ?_) fun _ _ he =>
        he.elim
      have ht₈ := h₇.trans h₈
      have hrest : Rest (fun j => j = p ∨ j = i) s s₈ := hrest₆.trans (ht₈.rest.mono fun j => .inl)
      obtain ⟨hri, hni, hdi, hii⟩ := ht₈.other h₆.inv hip hri₆
      have hnode : s₈.node p =
        { s.node p with addrs := (s₈.node p).addrs, size := (s₈.node p).size } := by
        have hlp := hq.unlocked p (Fs.mem_of_refs hr)
        rw [h₈.node, h₇.node]
        simp only [hlp]
      refine .inr ⟨i, n, data, rfl,
        ⟨h₈.inv, hrest.quiet h₈.inv hq ?_, hrest, hl, hdir, hpos, hlt, hfile, hrefs, ?_, ?_, ?_, ?_,
          ⟨k, hk, ?_, ?_⟩, hnode⟩, hG⟩
      · rintro j (rfl | rfl) hrj
        · refine ⟨by rw [h₈.node], ?_⟩
          rw [h₈.inode, h₈.node]
          exact hc₇ (.inr (hq.clean _ (h.loaded hr)))
        · rw [hii, hii₆, hni, hni₆, ht₅.inode, ht₅.node]
          exact ⟨hlock, rfl⟩
      · rw [ht₈.rest.refs i hip, h₆.rest.refs i hip, ht₅.refs]
        exact hrc
      · rw [hni, hni₆, ht₅.node]
      · rw [hdi, hdi₆, ht₅.data]
      · rw [ht₈.refs, Fs.refs_of_mem (Fs.mem_of_refs hr), h₇.node]
      · rwa [h₆.data] at hfree
      · rw [h₈.data, h₇.data]
        rw [h₆.data] at hslots
        exact hslots
    · rw [hnp, hq.unlocked p (Fs.mem_of_refs hr)] at he
      exact absurd he.1 (by decide)
  · simp only [wp_bind, wp_pure]
    refine (putBack_spec h (fun hr => hq.clean i (h.loaded hr)) (hl ▸ hroot) hf ht).mono
      (fun _ s' hp => Or.inl ⟨trivial, ?_⟩)
      fun e s' he => ⟨⟨fun e' => absurd e' he.1, .inr (hl ▸ ⟨h0, he.2⟩)⟩,
        .inr (.inl (hl ▸ ⟨h0, he.2.1⟩))⟩
    refine ⟨hp.rest.quiet hp.inv hq fun j hj hrj => ?_, hdir, by rw [hl]; exact h0, hl ▸ hp⟩
    subst hj
    obtain ⟨nm, hn⟩ := hp.node hrj
    exact ⟨by rw [hn], hp.clean hrj⟩

/-! ### Files, directories and devices -/

/-- What a node has been set up with: its type, its mode, one link, and the entries if it is a
directory. -/
structure Fresh (type mask : ℕ) (l : List Dirent) (n : FsNode) (data : List UInt8) : Prop where
  type : n.type = type
  mask : n.mask = mask
  numLinks : n.numLinks = 1
  slots : Cofs.slots data = l

/-- The fields of the new node are set. -/
theorem setUp {s₀ s : Fs} {i t : ℕ} {name : CStr} {f : FsNode → FsNode}
    (ht : Turn i s₀ s (newNode i t name) [] (allocInode t))
    (htype : (f (newNode i t name)).type = (newNode i t name).type)
    (hino : (f (newNode i t name)).inode = i) (hs : (f (newNode i t name)).size = 0)
    (ha : (f (newNode i t name)).addrs = fun _ => 0) (hc : (f (newNode i t name)).refCount = 1) :
    Turn i s (s.setNode i f) (f (newNode i t name)) [] (allocInode t) := by
  have hr := ht.refs_ne_zero (show (1 : ℕ) ≠ 0 from Nat.one_ne_zero)
  have hset := ht.inv.setNode (f := f) hr (by rw [ht.node, htype]) (by rw [ht.node, hino]; rfl)
    (by rw [ht.node, hs]; rfl) (by rw [ht.node, ha]; rfl)
    (by rw [ht.node, hc]; exact Nat.one_ne_zero)
    (by rw [ht.data]; exact File.dirOk_nil _ _)
  rwa [ht.node, ht.data, ht.inode] at hset

section

variable {s : Fs} {p mode : ℕ} {name : CStr}

/-- What the operations that create a node return, and what they do. -/
def Inserted (p : ℕ) (name : CStr) (type mask : ℕ) (l : ℕ → List Dirent) (s : Fs) (r : Option ℕ)
  (s' : Fs) : Prop :=
  (r = none ∧ Exists p name s s') ∨
    ∃ i n data, r = some i ∧ Added p name i n data s s' ∧ Fresh type mask (l i) n data

/-- **`cofs_creat`.** -/
theorem creat_spec (h : Inv s) (hq : Quiet s) (hr : s.refs p ≠ 0)
    (hroot : s.Orphan (lookup (slots (s.data p)) name) → lookup (slots (s.data p)) name ≠ 1) :
    wp (cofsCreat p name mode) (Inserted p name 0x8000 mode (fun _ => []) s)
      (fun e s' => InsertHalts p name s e s' ∧ InsertFails p name 0x8000 s s') s := by
  simp only [cofsCreat, wp_bind, wp_getNode, kassert, decide_eq_true_eq]
  rw [wp_ite]
  split_ifs with hd
  · rw [wp_pure]
    refine addNode_spec h hq hr hroot fun i s₁ hip hlt ht => ?_
    rw [wp_modifyNode]
    have hset := setUp (f := fun n => { n with mask := mode, numLinks := 1 }) ht rfl rfl rfl rfl rfl
    exact ⟨{ newNode i 0x8000 (name.take 255) with mask := mode, numLinks := 1, lock := false }, [],
      _, hset, rfl, rfl, rfl, rfl, rfl, rfl⟩
  · exact ⟨⟨fun e => absurd e (by simp), .inl (Logged.refl _)⟩, .inl (.inl (not_not.mp hd))⟩

/-- **`cofs_mknod`.** -/
theorem mknod_spec {dev : ℕ} (h : Inv s) (hq : Quiet s) (hr : s.refs p ≠ 0)
    (hroot : s.Orphan (lookup (slots (s.data p)) name) → lookup (slots (s.data p)) name ≠ 1) :
    wp (cofsMknod p name mode dev) (Inserted p name (dev &&& 0xF000) mode (fun _ => []) s)
      (fun e s' => InsertHalts p name s e s' ∧
        InsertFails p name ((dev &&& 0xF000) ||| (mode &&& 0xFF)) s s') s := by
  refine addNode_spec h hq hr hroot fun i s₁ hip hlt ht => ?_
  generalize dev &&& (2 ^ 32 - 1 - 0xF000) = d
  have hset :=
    setUp (f := fun n =>
      { n with major := major d, minor := minor d, mask := mode, numLinks := 1 }) ht
      rfl
    rfl rfl rfl rfl
  refine ⟨{ newNode i ((dev &&& 0xF000) ||| (mode &&& 0xFF)) (name.take 255) with
      major := major d, minor := minor d, mask := mode, numLinks := 1, lock := false }, [], _, hset,
        rfl, rfl, ?_, rfl,
    rfl, rfl⟩
  show (((dev &&& 0xF000) ||| (mode &&& 0xFF)) &&& 0xF000) &&& 0xF000 = dev &&& 0xF000
  rw [Nat.and_or_distrib_right, Nat.and_or_distrib_right]
  have h1 : (0xFF : ℕ) &&& 0xF000 = 0 := by decide
  simp only [Nat.and_assoc, Nat.and_self, h1, Nat.and_zero, Nat.or_zero, Nat.zero_and]

/-- **`cofs_mkdir`.** The new directory has the entries for itself and for its parent. -/
theorem mkdir_spec (h : Inv s) (hq : Quiet s) (hr : s.refs p ≠ 0)
    (hroot : s.Orphan (lookup (slots (s.data p)) name) → lookup (slots (s.data p)) name ≠ 1) :
    wp (cofsMkdir p name mode) (Inserted p name 0x4000 mode (fun i => [⟨i, dot⟩, ⟨p, dotdot⟩]) s)
      (fun e s' => InsertHalts p name s e s' ∧ InsertFails p name 0x4000 s s') s := by
  refine addNode_spec h hq hr hroot fun i s₁ hip hlt ht => ?_
  simp only [wp_bind, wp_modifyNode, wp_getNode]
  have hset := setUp (f := fun n => { n with mask := mode, numLinks := 1 }) ht rfl rfl rfl rfl rfl
  generalize (s₁.setNode i fun n => { n with mask := mode, numLinks := 1 }) = s₂ at hset
  have hr₂ := hset.refs_ne_zero (show (1 : ℕ) ≠ 0 from Nat.one_ne_zero)
  have hsuper₂ := hset.rest.superb.trans ht.rest.superb
  rw [hset.inv.inode_eq hr₂]
  have hs0 : slots (s₂.data i) = [] := by rw [hset.data]; rfl
  refine dirlink_new hset.inv hr₂ (by rw [hsuper₂]; exact hlt) (by rw [hs0]; rfl)
    (fun e s' he hfail hlog => ⟨he, hset.rest.logged.trans hset.rest.superb hlog,
      hfail.noneFree (by rw [hset.node]; exact show (0x4000 : ℕ) &&& 0x4000 ≠ 0 by decide)
        (by rw [hset.node]; exact show 0 + 32 ≤ maxFileSize by decide)⟩)
    fun k hk _ hsl s₃ h₃ _ => ?_
  obtain rfl : k = 0 := by
    rw [hset.node] at hk
    have : 32 * k ≤ 0 := hk
    omega
  have hr₃ := h₃.refs_ne_zero (Inv.refCount hr₂)
  have hsl : slots (s₃.data i) = [⟨i, dot⟩] := by
    rw [h₃.data, hsl, hs0]
    rfl
  have ht₃ := ht.trans (hset.trans h₃)
  obtain ⟨hrp, hnp, -, -⟩ := ht₃.other h hip.symm hr
  have hrest₃ := (hset.trans h₃).rest
  rw [ht₃.inv.inode_eq hrp]
  have hsize₃ : (s₃.node i).size = 32 := by
    rw [h₃.node, hset.node]
    rfl
  refine dirlink_new h₃.inv hr₃ (by rw [ht₃.rest.superb]; exact h.lt hr) (by rw [hsl]; rfl)
    (fun e s' he hfail hlog => ⟨he, hrest₃.logged.trans hrest₃.superb hlog,
      hfail.noneFree (by rw [h₃.node, hset.node]; exact show (0x4000 : ℕ) &&& 0x4000 ≠ 0 by decide)
        (by rw [hsize₃]; decide)⟩)
    fun k hk hfree hsl₂ s₄ h₄ _ => ?_
  obtain rfl : k = 1 := by
    rw [hsize₃] at hk
    by_contra hk1
    obtain rfl : k = 0 := by omega
    have := hfree.1 (by rw [hsl]; exact Nat.one_pos)
    simp only [hsl] at this
    exact absurd this
      (Nat.ne_of_gt (ht.inv.pos (ht.refs_ne_zero (show (1 : ℕ) ≠ 0 from Nat.one_ne_zero))))
  have hturn := hset.trans (h₃.trans h₄)
  have hnode : (s₄.node i) = { newNode i 0x4000 (name.take 255) with
      mask := mode, numLinks := 1, addrs := (s₄.node i).addrs, size := 64 } := by
    rw [h₄.node, h₃.node, hset.node]
    rfl
  have hlock : s₄.node i = { s₄.node i with lock := true } := by rw [hnode]; rfl
  refine ⟨{ s₄.node i with lock := false }, s₄.data i, s₄.dev.inode i,
    ⟨hturn.inv, hturn.rest, hturn.mem, hlock, rfl, rfl⟩, ?_, rfl, ?_, ?_, ?_, ?_⟩
  · show (s₄.node i).refCount = 1
    rw [hnode]
    rfl
  · show (s₄.node i).type = 0x4000
    rw [hnode]
    rfl
  · show (s₄.node i).mask = mode
    rw [hnode]
  · show (s₄.node i).numLinks = 1
    rw [hnode]
  · rw [h₄.data, hsl₂, hsl]
    rfl

end

/-! ### Links -/

omit [Stack] in
theorem FsNode.pack_type_numLinks (n : FsNode) (k : ℕ) :
    { n with numLinks := k }.pack.type = n.pack.type := rfl

omit [Stack] in
theorem FsNode.linkUp_pack_type (n : FsNode) : n.linkUp.pack.type = n.pack.type :=
    n.pack_type_numLinks _

omit [Stack] in
theorem FsNode.linkDown_pack_type (n : FsNode) : n.linkDown.pack.type = n.pack.type :=
    n.pack_type_numLinks _

/-- Only the type and the entries matter for a directory. -/
theorem File.DirOk.congr {numInodes : ℕ} {ino ino' : Inode} {data : List UInt8}
    (h : (ino.file data).DirOk numInodes)
    (ht : ino'.type = ino.type) : (ino'.file data).DirOk numInodes := by
  intro ht'
  refine h ?_
  rw [show (ino.file data).type = ino.type from rfl, ← ht]
  exact ht'

/-- Inode `i` has been entered in directory `p` under the name. -/
structure LinkAdded (p i : ℕ) (name : CStr) (s s' : Fs) : Prop where
  inv : Inv s'
  quiet : Quiet s'
  rest : Rest (fun j => j = p ∨ j = i) s s'
  ne : p ≠ i
  dir : (s.node p).type &&& 0x4000 ≠ 0
  absent : lookup (slots (s.data p)) name = 0
  refs : s'.refs i = s.refs i
  node : s'.node i = (s.node i).linkUp
  data : s'.data i = s.data i
  parent_refs : s'.refs p = s.refs p
  parent : ∃ k, 32 * k ≤ (s.node p).size ∧ FreeSlot (slots (s.data p)) k ∧
    slots (s'.data p) = putSlot (slots (s.data p)) k ⟨i, name.stored⟩
  parent_node : s'.node p = { s.node p with addrs := (s'.node p).addrs, size := (s'.node p).size }

/-- Directory `p` has the name already, for inode `j`: only the number of links of inode `i` has
changed. -/
structure LinkRefused (p i j : ℕ) (name : CStr) (s s' : Fs) : Prop where
  inv : Inv s'
  quiet : Quiet s'
  rest : Rest (fun k => k = p ∨ k = i ∨ k = j) s s'
  ne : p ≠ i
  found : lookup (slots (s.data p)) name = j
  pos : j ≠ 0
  ne_node : j ≠ i
  ne_parent : j ≠ p
  refs : s'.refs i = s.refs i
  node : s'.node i = (s.node i).linkUp
  data : s'.data i = s.data i
  parent_refs : s'.refs p = s.refs p
  parent_data : s'.data p = s.data p
  parent_node : s'.node p = s.node p
  other_refs : s'.refs j = if j = 1 ∧ s.refs j = 0 then 1 else s.refs j
  other : (s.refs j ≠ 0 ∨ ∀ f, s.file j = some f → f.numLinks ≠ 0) → s'.file j = s.file j
  other_node : s.refs j ≠ 0 → ∃ name, s'.node j = { s.node j with name := name }

section

variable {s s' : Fs} {p i j : ℕ} {name : CStr}

/-- A node that is referred to is locked: the cache holds the nodes it held. -/
theorem cofsLock_cache (h : Inv s) (hr : s.refs i ≠ 0) :
    wp (cofsLock (some i)) (fun _ s' => s'.cache = s.cache) (fun _ _ => True) s := by
  refine wp_cofsLock h.held (Inv.refCount hr) (h.inode_eq hr) (fun _ => trivial)
    (fun _ _ _ _ _ => trivial) fun _ _ => rfl

omit [Stack] in
theorem updateNode_cache (hh : s.dev.held = []) :
    wp (updateNode i) (fun _ s' => s'.cache = s.cache) (fun _ _ => True) s := by
  simp only [updateNode, wp_bind, wp_getNode, wp_disk]
  rw [wp_cofsUpdateNode (by simp [hh])]
  trivial

/-- The state in which `cofs_link` searches the directory: both nodes are locked, and the node has
one more link. -/
structure Linking (p i : ℕ) (s s' : Fs) : Prop where
  inv : Inv s'
  rest : Rest (fun j => j = p ∨ j = i) s s'
  ne : p ≠ i
  cache : s'.cache = s.cache
  refs : ∀ j, s'.refs j = s.refs j
  clean : ∀ j, s'.refs j ≠ 0 → s'.dev.inode j = (s'.node j).pack
  dir : s'.node p = { s.node p with lock := true }
  data : s'.data p = s.data p
  node : s'.node i = { (s.node i).linkUp with lock := true }
  text : s'.data i = s.data i

/-- `cofs_link` gets to the insertion, unless the node is the directory. -/
theorem link_path {Q : Bool → Fs → Prop} {E : Halt → Fs → Prop} (h : Inv s) (hq : Quiet s)
    (hrp : s.refs p ≠ 0) (hri : s.refs i ≠ 0) (hE : p = i → ∀ s', E .deadlock s')
    (hQ : ∀ s', Linking p i s s' → wp (do
      let ret ← cofsDirlink p name i
      cofsUnlock p
      cofsUnlock i
      return ret) Q E s') :
    wp (cofsLink p i name) Q E s := by
  have hli := hq.unlocked i (Fs.mem_of_refs hri)
  have hlp := hq.unlocked p (Fs.mem_of_refs hrp)
  rw [cofsLink, wp_bind]
  refine ((cofsLock_spec h hri).and (cofsLock_cache h hri)).mono (fun _ s₁ h₁ => ?_)
    fun e s' he => by
    rw [hli] at he
    exact absurd he.1.1 (by decide)
  obtain ⟨⟨-, h₁⟩, hc₁⟩ := h₁
  have hr₁ := h₁.refs_ne_zero (Inv.refCount hri)
  simp only [wp_bind, wp_modifyNode]
  have hdir := (h₁.inv.each i).dir _ (h₁.inv.file_eq hr₁)
  have h₂ := h₁.inv.setNode (f := FsNode.linkUp) hr₁ rfl rfl rfl rfl (Inv.refCount hr₁)
    (hdir.congr (FsNode.linkUp_pack_type _))
  rw [h₁.node, h₁.data, h₁.inode] at h₂
  have hc₂ : (s₁.setNode i FsNode.linkUp).cache = s.cache := hc₁
  generalize s₁.setNode i FsNode.linkUp = s₂ at h₂ hc₂
  have hr₂ := h₂.refs_ne_zero (Inv.refCount hri)
  refine ((updateNode_spec h₂.inv hr₂).and (updateNode_cache h₂.inv.held)).mono (fun _ s₃ h₃ => ?_)
    fun _ _ he => he.1.elim
  obtain ⟨h₃, hc₃⟩ := h₃
  rw [h₂.node, h₂.data] at h₃
  have t₃ := h₁.trans (h₂.trans h₃)
  have hri₃ := t₃.refs_ne_zero (Inv.refCount hri)
  by_cases hpi : p = i
  · -- the lock of the node is held
    rw [hpi]
    refine (cofsLock_spec t₃.inv hri₃).mono (fun _ s₄ h₄ => ?_) fun e s' he => by
      rw [he.2.1]
      exact hE hpi s'
    rw [t₃.node] at h₄
    exact absurd h₄.1 (by simp [FsNode.linkUp])
  obtain ⟨hrp₃, hnp₃, hdp₃, hip₃⟩ := t₃.other h hpi hrp
  refine ((cofsLock_spec t₃.inv hrp₃).and (cofsLock_cache t₃.inv hrp₃)).mono (fun _ s₄ h₄ => ?_)
    fun e s' he => by
      rw [hnp₃, hlp] at he
      exact absurd he.1.1 (by decide)
  obtain ⟨⟨-, h₄⟩, hc₄⟩ := h₄
  rw [hnp₃, hdp₃, hip₃] at h₄
  obtain ⟨hri₄, hni₄, hdi₄, hii₄⟩ := h₄.other t₃.inv (Ne.symm hpi) hri₃
  have hrest₄ : Rest (fun j => j = p ∨ j = i) s s₄ :=
    (t₃.rest.mono fun j => .inr).trans (h₄.rest.mono fun j => .inl)
  have hrefs₄ : ∀ j, s₄.refs j = s.refs j := by
    intro j
    by_cases hj : j = p
    · rw [hj, h₄.refs, Fs.refs_of_mem (Fs.mem_of_refs hrp)]
    · rw [h₄.rest.refs j hj]
      by_cases hj : j = i
      · rw [hj, t₃.refs, Fs.refs_of_mem (Fs.mem_of_refs hri)]
        rfl
      · exact t₃.rest.refs j hj
  have hclean₄ : ∀ j, s₄.refs j ≠ 0 → s₄.dev.inode j = (s₄.node j).pack := by
    intro j hrj
    rw [hrefs₄] at hrj
    by_cases hj : j = p
    · rw [hj, h₄.inode, h₄.node, hq.clean p (h.loaded hrp)]
      rfl
    · by_cases hj' : j = i
      · rw [hj', hii₄, hni₄, t₃.inode, t₃.node]
      · have hT : ¬ (j = p ∨ j = i) := fun hc => hc.elim hj hj'
        rw [hrest₄.inode j hT (h.lt hrj), hrest₄.node hT hrj, hq.clean j (h.loaded hrj)]
  have hgoal :=
    hQ s₄ ⟨h₄.inv, hrest₄, hpi, hc₄.trans (hc₃.trans hc₂), hrefs₄, hclean₄, h₄.node,
      h₄.data, by rw [hni₄, t₃.node]; rfl, by rw [hdi₄, t₃.data]⟩
  rw [wp_getNode, h₄.inv.inode_eq hri₄]
  simpa only [wp_bind] using hgoal

end

/-- **`cofs_link`.** -/
theorem link_spec {s : Fs} {p i : ℕ} {name : CStr} (h : Inv s) (hq : Quiet s) (hrp : s.refs p ≠ 0)
    (hri : s.refs i ≠ 0)
    (h1 : s.refs 1 ≠ 0) :
    wp (cofsLink p i name) (fun r s' => (r = true ∧ LinkAdded p i name s s') ∨ ∃ j, r = false ∧
      LinkRefused p i j name s s')
      (fun e _ => e ≠ .panic "No free inodes\n") s := by
  have hli := hq.unlocked i (Fs.mem_of_refs hri)
  have hlp := hq.unlocked p (Fs.mem_of_refs hrp)
  refine link_path h hq hrp hri (fun _ _ => by decide) fun s₄ h₄ => ?_
  have hpi := h₄.ne
  have hrp₄ : s₄.refs p ≠ 0 := by rwa [h₄.refs]
  have hri₄ : s₄.refs i ≠ 0 := by rwa [h₄.refs]
  have hunlockp : ({ ({ s.node p with lock := true } : FsNode) with lock := false } : FsNode) =
    s.node p := by
    rw [← hlp]
  have hunlocki :
    ({ ({ (s.node i).linkUp with lock := true } : FsNode) with lock := false } : FsNode) =
    (s.node i).linkUp := by
    unfold FsNode.linkUp
    simp only [hli]
  simp only [wp_bind, wp_pure]
  refine dirlink_spec h₄.inv hrp₄ (by rw [h₄.rest.superb]; exact h.lt hri)
    (fun j _ _ hrj => h₄.clean j hrj)
    (fun j _ ho h1' => h1 ((h₄.refs 1).symm.trans (h1' ▸ ho.1))) (fun e s' he _ _ => he)
    (fun j hlj h0 hlt hfree s₅ hp => ?_) fun hl hdp k hk hfree hslots s₅ h₅ hc₅ => ?_
  · -- the name exists
    have hjp : j ≠ p := fun e => hfree (e ▸ ⟨hrp₄, by rw [h₄.dir]⟩)
    have hji : j ≠ i := fun e => hfree (e ▸ ⟨hri₄, by rw [h₄.node]⟩)
    have hrp₅ : s₅.refs p ≠ 0 := by rwa [hp.rest.refs p (Ne.symm hjp)]
    have hnp₅ := hp.rest.node (Ne.symm hjp) hrp₄
    refine (cofsUnlock_spec hp.inv hrp₅ (by rw [hnp₅, h₄.dir])).mono
      (fun _ s₆ h₆ => ?_) fun _ _ he => he.elim
    have hri₅ : s₅.refs i ≠ 0 := by rwa [hp.rest.refs i (Ne.symm hji)]
    have hni₅ := hp.rest.node (Ne.symm hji) hri₄
    have hdi₅ := hp.rest.data h₄.inv hp.inv (Ne.symm hji) hri₄
    have hii₅ := hp.rest.inode i (Ne.symm hji) (h₄.inv.lt hri₄)
    obtain ⟨hri₆, hni₆, hdi₆, hii₆⟩ := h₆.other hp.inv (Ne.symm hpi) hri₅
    refine (cofsUnlock_spec h₆.inv hri₆ (by rw [hni₆, hni₅, h₄.node])).mono
      (fun _ s₇ h₇ => ?_)
      fun _ _ he => he.elim
    have hrest : Rest (fun k => k = p ∨ k = i ∨ k = j) s s₇ :=
      (h₄.rest.mono fun k hk => hk.imp_right .inl).trans
        ((hp.rest.mono fun k hk => .inr (.inr hk)).trans
        ((h₆.rest.mono fun k => .inl).trans (h₇.rest.mono fun k hk => .inr (.inl hk))))
    have hrp₆ := h₆.refs_ne_zero (Inv.refCount hrp₅)
    obtain ⟨-, hnp₇, hdp₇, hip₇⟩ := h₇.other h₆.inv hpi hrp₆
    have hne : ¬ (j = p ∨ j = i) := fun hc => hc.elim hjp hji
    have hfile₄ : s₄.file j = s.file j := h₄.rest.file j hne
    have hfile₇ : s₇.file j = s₅.file j := by rw [h₇.rest.file j hji, h₆.rest.file j hjp]
    have hrefs₇ : s₇.refs j = s₅.refs j := by rw [h₇.rest.refs j hji, h₆.rest.refs j hjp]
    have hnode₇ : s₅.refs j ≠ 0 → s₇.node j = s₅.node j := fun hr => by
      rw [h₇.rest.node hji (by rwa [h₆.rest.refs j hjp]), h₆.rest.node hjp hr]
    have hinode₇ : s₇.dev.inode j = s₅.dev.inode j := by
      have hlt₅ : j < s₅.dev.superb.numInodes := by rwa [hp.rest.superb]
      rw [h₇.rest.inode j hji (by rwa [h₆.rest.superb]), h₆.rest.inode j hjp hlt₅]
    have hparent : s₇.node p = s.node p := by
      rw [hnp₇, h₆.node, hnp₅, h₄.dir]
      exact hunlockp
    refine .inr ⟨j, rfl, h₇.inv, hrest.quiet h₇.inv hq ?_, hrest,
      hpi, by rw [← h₄.data]; exact hlj, h0, hji, hjp, ?_, ?_,
      ?_, ?_, ?_, hparent, ?_, fun hf => ?_, fun hr => ?_⟩
    · rintro k (rfl | rfl | rfl) hrk
      · refine ⟨by rw [hparent]; exact hlp, ?_⟩
        rw [hip₇, h₆.inode, hp.rest.inode _ (Ne.symm hjp) (h₄.inv.lt hrp₄), h₄.clean _ hrp₄, h₄.dir,
          hparent]
        rfl
      · refine ⟨by rw [h₇.node], ?_⟩
        rw [h₇.inode, h₇.node, hii₆, hii₅, h₄.clean _ hri₄, hni₆, hni₅, h₄.node]
        rfl
      · rw [hrefs₇] at hrk
        rw [hnode₇ hrk, hinode₇]
        obtain ⟨nm, hn⟩ := hp.node hrk
        exact ⟨by rw [hn], hp.clean hrk⟩
    · rw [h₇.refs, Fs.refs_of_mem (Fs.mem_of_refs hri)]
      show (s₆.node i).refCount = _
      rw [hni₆, hni₅, h₄.node]
      rfl
    · rw [h₇.node, hni₆, hni₅, h₄.node]
      exact hunlocki
    · rw [h₇.data, hdi₆, hdi₅, h₄.text]
    · rw [h₇.rest.refs p hpi, h₆.refs]
      show (s₅.node p).refCount = _
      rw [hnp₅, h₄.dir, Fs.refs_of_mem (Fs.mem_of_refs hrp)]
    · rw [hdp₇, h₆.data, hp.rest.data h₄.inv hp.inv (Ne.symm hjp) hrp₄, h₄.data]
    · rw [hrefs₇, hp.refs, h₄.refs]
    · rcases hf with hr | hf
      · rw [hfile₇, hp.file, if_neg fun ho => hr ((h₄.refs j).symm.trans ho.1), hfile₄]
      · rw [hfile₇, hp.file_eq h₄.inv (by rw [hfile₄]; exact hf), hfile₄]
    · have hr₄ : s₄.refs j ≠ 0 := by rwa [h₄.refs]
      have hn₄ := h₄.rest.node hne hr
      obtain ⟨nm, hn⟩ :=
        hp.node_eq h₄.inv hr₄ (by rw [hn₄]; exact hq.unlocked j (Fs.mem_of_refs hr))
      refine ⟨nm, ?_⟩
      rw [hnode₇ (by rwa [hp.refs, if_neg fun hc => hr₄ hc.2]), hn, hn₄]
  · -- the name is new
    rw [h₄.dir, h₄.data] at h₅
    rw [h₄.dir] at hk hdp
    have hrp₅ := h₅.refs_ne_zero (Inv.refCount hrp)
    refine (cofsUnlock_spec h₅.inv hrp₅ (by rw [h₅.node])).mono (fun _ s₆ h₆ => ?_) fun _ _ he =>
      he.elim
    obtain ⟨hri₆, hni₆, hdi₆, hii₆⟩ := (h₅.trans h₆).other h₄.inv (Ne.symm hpi) hri₄
    refine (cofsUnlock_spec h₆.inv hri₆ (by rw [hni₆, h₄.node])).mono
      (fun _ s₇ h₇ => ?_) fun _ _ he => he.elim
    have hrp₆ := h₆.refs_ne_zero (Inv.refCount hrp₅)
    obtain ⟨-, hnp₇, hdp₇, hip₇⟩ := h₇.other h₆.inv hpi hrp₆
    have hrest : Rest (fun k => k = p ∨ k = i) s s₇ :=
      h₄.rest.trans (((h₅.trans h₆).rest.mono fun k => .inl).trans (h₇.rest.mono fun k => .inr))
    have hparent : s₇.node p =
      { s.node p with addrs := (s₇.node p).addrs, size := (s₇.node p).size } := by
      rw [hnp₇, h₆.node, h₅.node]
      simp only [hlp]
    refine .inl ⟨rfl, h₇.inv, hrest.quiet h₇.inv hq ?_, hrest, hpi,
      hdp, by rw [← h₄.data]; exact hl, ?_, ?_, ?_, ?_,
      ⟨k, hk, ?_, ?_⟩, hparent⟩
    · rintro k (rfl | rfl) hrk
      · refine ⟨by rw [hparent]; exact hlp, ?_⟩
        rw [hip₇, h₆.inode, hnp₇, h₆.node]
        exact hc₅ (.inr (h₄.clean _ hrp₄))
      · refine ⟨by rw [h₇.node], ?_⟩
        rw [h₇.inode, h₇.node, hii₆, h₄.clean _ hri₄, hni₆, h₄.node]
        rfl
    · rw [h₇.refs, Fs.refs_of_mem (Fs.mem_of_refs hri)]
      show (s₆.node i).refCount = _
      rw [hni₆, h₄.node]
      rfl
    · rw [h₇.node, hni₆, h₄.node]
      exact hunlocki
    · rw [h₇.data, hdi₆, h₄.text]
    · rw [h₇.rest.refs p hpi, h₆.refs]
      show (s₅.node p).refCount = _
      rw [h₅.node, Fs.refs_of_mem (Fs.mem_of_refs hrp)]
    · rwa [h₄.data] at hfree
    · rw [hdp₇, h₆.data, h₅.data]
      rw [h₄.data] at hslots
      exact hslots

end Cosiris.Cofs
