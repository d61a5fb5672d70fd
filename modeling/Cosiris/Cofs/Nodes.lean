import Cosiris.Cofs.Invariant

/-!
# Operations on nodes

The functions of `cofs.c` that take, lock, change, write back and release one node, and
the allocation of an inode: each keeps the invariant and leaves the other inodes alone.

A program that halts ends the run. What is said about that is why it halts, as far as
this is of interest, and that the blocks it has freed so far were in use. The release of
a file whose size is a whole number of blocks from the seventh on never returns.
-/

namespace Cosiris.Cofs

open Function Prog

variable [Stack]

/-! ### Changing one node -/

/-- From `s` to `s'` the node of inode `i` becomes `n`, with the contents `data` and the record
`ino` on the disk; nothing else changes. -/
structure Turn (i : ℕ) (s s' : Fs) (n : FsNode) (data : List UInt8) (ino : Inode) : Prop where
  inv : Inv s'
  rest : Rest (· = i) s s'
  mem : i ∈ s'.cache
  node : s'.node i = n
  data : s'.data i = data
  inode : s'.dev.inode i = ino

section

variable {s s₁ s' : Fs} {i : ℕ} {n n₁ : FsNode} {data data₁ : List UInt8} {ino ino₁ : Inode}

theorem Turn.trans (h : Turn i s s₁ n₁ data₁ ino₁) (h' : Turn i s₁ s' n data ino) :
    Turn i s s' n data ino :=
  ⟨h'.inv, h.rest.trans h'.rest, h'.mem, h'.node, h'.data, h'.inode⟩

theorem Turn.refs (h : Turn i s s' n data ino) : s'.refs i = n.refCount := by
  rw [Fs.refs_of_mem h.mem, h.node]

theorem Turn.file (h : Turn i s s' n data ino) (hr : n.refCount ≠ 0) :
    s'.file i = some (n.pack.file data) := by
  rw [h.inv.file_eq (by rwa [h.refs]), h.node, h.data]

end

omit [Stack] in
@[simp] theorem Fs.setNode_self (s : Fs) (i : ℕ) (f : FsNode → FsNode) :
    (s.setNode i f).node i = f (s.node i) :=
  update_self _ _ _

omit [Stack] in
theorem Fs.setNode_ne (s : Fs) {i j : ℕ} (f : FsNode → FsNode) (h : j ≠ i) :
    (s.setNode i f).node j = s.node j :=
  update_of_ne h _ _

omit [Stack] in
@[simp] theorem Fs.setNode_dev (s : Fs) (i : ℕ) (f : FsNode → FsNode) :
    (s.setNode i f).dev = s.dev :=
    rfl

omit [Stack] in
theorem Fs.setNode_setNode (s : Fs) (i : ℕ) (f g : FsNode → FsNode) :
    (s.setNode i f).setNode i g = s.setNode i fun n => g (f n) := by
  unfold Fs.setNode
  dsimp only
  rw [update_self, update_idem]

section

variable {s : Fs} {i : ℕ} {f : FsNode → FsNode}

/-- **The fields of a node change, other than its type, size and addresses.** -/
theorem Inv.setNode (h : Inv s) (hr : s.refs i ≠ 0) (ht : (f (s.node i)).type = (s.node i).type)
    (hino : (f (s.node i)).inode = (s.node i).inode) (hs : (f (s.node i)).size = (s.node i).size)
    (ha : (f (s.node i)).addrs = (s.node i).addrs) (hc : (f (s.node i)).refCount ≠ 0)
    (hdir : ((f (s.node i)).pack.file (s.data i)).DirOk s.dev.superb.numInodes) :
    Turn i s (s.setNode i f) (f (s.node i)) (s.data i) (s.dev.inode i) := by
  have hfit := h.fits hr
  have hfit' : (f (s.node i)).Fits :=
    ⟨by rw [ht]; exact hfit.type, by rw [hs]; exact hfit.size, by rw [ha]; exact hfit.addrs,
      by rw [ha]; exact hfit.rest⟩
  have hmem := Fs.mem_of_refs hr
  have hload : (s.setNode i f).Loaded i :=
    ⟨hmem, by rw [Fs.setNode_self, ht]; exact (h.loaded hr).2⟩
  have hfit'' : ((s.setNode i f).node i).Fits := by rwa [Fs.setNode_self]
  have halloc := Fs.allocated_of_loaded hload hfit'' (h.lt hr)
  have hrec : (s.setNode i f).record i = (f (s.node i)).pack := by
    rw [Fs.record_of_loaded hload, Fs.setNode_self]
  have htab : (s.setNode i f).table = s.table := by
    funext j
    by_cases hj : j = i
    · subst hj
      rw [Fs.table_of_loaded hload hfit'' (h.lt hr), Fs.setNode_self, ha, h.table_eq hr]
    · exact Fs.table_congr rfl fun _ => Fs.record_congr rfl (Fs.setNode_ne s f hj) rfl
  have hdata : (s.setNode i f).data i = s.data i := by
    unfold Fs.data
    rw [Fs.setNode_self, ha, hs]
    rfl
  have hframe :
    Frame (fun _ => False) s.dev s.table i (s.setNode i f).dev (s.setNode i f).table := by
    rw [htab]
    exact Frame.refl h.sound i
  have hn : ∀ j, j ≠ i → (s.setNode i f).node j = s.node j := fun j hj => Fs.setNode_ne s f hj
  refine ⟨h.step hframe rfl h.cacheLock hn ?_, rest_of_frame h hframe rfl hn (Logged.refl _), hmem,
    Fs.setNode_self s i f, hdata, rfl⟩
  refine ⟨fun _ => ?_, fun _ => hfit'', fun _ _ => hload.2, fun _ h0 => ?_, fun _ h0 => ?_, fun _ =>
    ?_, fun g hg => ?_⟩
  · rw [Fs.setNode_self, hino]
    exact (h.each i).inode hmem
  · rw [Fs.setNode_self] at h0
    exact absurd h0 hc
  · rw [Fs.setNode_self] at h0
    exact absurd h0 hc
  · rw [hrec, hfit'.pack_addrs, hfit'.pack_size, ha, hs]
    exact h.node_shaped hr
  · rw [Fs.file_of_allocated halloc, hrec, hfit'.pack_addrs, hfit'.pack_size, ha, hs] at hg
    rw [← Option.some.inj hg]
    exact hdir

/-- Fields change that are not written to the disk. -/
theorem Inv.touch (h : Inv s) (hr : s.refs i ≠ 0) (hp : (f (s.node i)).pack = (s.node i).pack)
    (ht : (f (s.node i)).type = (s.node i).type) (hino : (f (s.node i)).inode = (s.node i).inode)
    (hs : (f (s.node i)).size = (s.node i).size) (ha : (f (s.node i)).addrs = (s.node i).addrs)
    (hc : (f (s.node i)).refCount ≠ 0) :
    Turn i s (s.setNode i f) (f (s.node i)) (s.data i) (s.dev.inode i) := by
  refine h.setNode hr ht hino hs ha hc ?_
  rw [hp]
  exact (h.each i).dir _ (h.file_eq hr)

end

/-! ### Writing a record -/

omit [Stack] in
/-- Writing a record changes the contents of no file. -/
theorem contents_putInode {d : Dev} {A : ℕ → ℕ → ℕ} {i j size : ℕ} (h : Marked d A)
    (hi : i < d.superb.numInodes)
    (ino : Inode) (hf : Filled d.disk (A j) size) :
    contents (d.putInode i ino).disk (A j) size = contents d.disk (A j) size := by
  obtain ⟨-, haddr⟩ := h.writeInode hi ino
  refine getBytes_congr fun q hq => ?_
  rw [Nat.zero_add]
  have hge := h.dataStart_le (hf.2 q hq)
  have hlt := Superblock.inoBlk_lt_dataStart hi
  unfold byteAt
  rw [haddr]
  unfold Dev.putInode
  dsimp only
  rw [update_of_ne (by omega)]

omit [Stack] in
theorem shaped_putInode {d : Dev} {A : ℕ → ℕ → ℕ} {i j size : ℕ} (h : Marked d A)
    (hi : i < d.superb.numInodes)
    (ino : Inode) (hs : Shaped d.disk (A j) size) : Shaped (d.putInode i ino).disk (A j) size := by
  obtain ⟨-, haddr⟩ := h.writeInode hi ino
  refine ⟨hs.le, ?_, fun f hf => ?_⟩
  · unfold Tight
    rw [haddr]
    exact hs.tight
  · rw [haddr]
    exact hs.leaves f hf

/-- **`cofs_update_node` on a node of the cache.** -/
theorem updateNode_spec {s : Fs} {i : ℕ} (h : Inv s) (hr : s.refs i ≠ 0) :
    wp (updateNode i) (fun _ s' => Turn i s s' (s.node i) (s.data i) (s.node i).pack)
      (fun _ _ => False) s := by
  have hlt := h.lt hr
  have hino := h.inode_eq hr
  simp only [updateNode, wp_bind, wp_getNode, wp_disk]
  rw [wp_cofsUpdateNode (by simp [h.held]), hino]
  generalize hs' : ({ s with dev := s.dev.putInode i (s.node i).pack } : Fs) = s'
  have hdev : s'.dev = s.dev.putInode i (s.node i).pack := by rw [← hs']
  have hcache : s'.cache = s.cache := by rw [← hs']
  have hnode : s'.node = s.node := by rw [← hs']
  have hsuper : s'.dev.superb = s.dev.superb := by rw [hdev]; rfl
  have hload : ∀ j, s'.Loaded j ↔ s.Loaded j := by
    intro j
    unfold Fs.Loaded
    rw [hcache, hnode]
  have hrec : ∀ j, s'.record j = s.record j := by
    intro j
    by_cases hl : s.Loaded j
    · rw [Fs.record_of_loaded hl, Fs.record_of_loaded ((hload j).mpr hl), hnode]
    · have hj : j ≠ i := fun e => hl (e ▸ h.loaded hr)
      rw [Fs.record_of_not_loaded hl,
        Fs.record_of_not_loaded fun hl' => hl ((hload j).mp hl'), hdev,
          Dev.inode_putInode_ne _ _ hj]
  have halloc := fun j => Fs.allocated_congr hsuper fun _ => hrec j
  have htab : s'.table = s.table := funext fun j => Fs.table_congr hsuper fun _ => hrec j
  have hframe : Frame (fun _ => False) s.dev s.table i s'.dev s'.table := by
    rw [htab, hdev]
    exact (h.sound.writeInode hlt _).1
  have hn : ∀ j, j ≠ i → s'.node j = s.node j := fun j _ => by rw [hnode]
  have hfill := (h.node_shaped hr).filled
  rw [← h.table_eq hr] at hfill
  have hdata : s'.data i = s.data i := by
    have := contents_putInode h.sound hlt (s.node i).pack hfill
    unfold Fs.data
    rw [hdev, hnode, ← h.table_eq hr]
    exact this
  have hinode : s'.dev.inode i = (s.node i).pack := by
    rw [hdev]
    exact Dev.inode_putInode_self _ _ (FsNode.pack_fits _)
  refine ⟨h.step hframe hcache (by rw [← hs']; exact h.cacheLock) hn ?_,
    rest_of_frame h hframe hcache hn ?_,
    hcache ▸ Fs.mem_of_refs hr, by rw [hnode], hdata, hinode⟩
  · obtain ⟨h1, h2, h3, h4, -, h6, -⟩ := h.each i
    refine ⟨by rwa [hcache, hnode, hsuper], by rwa [hload, hnode], by rwa [hcache, hnode],
      by rwa [hcache, hnode], fun _ _ => by rw [hinode, hnode], fun ha => ?_, fun f hf => ?_⟩
    · rw [hrec, hdev]
      have := h6 ((halloc i).mp ha)
      rw [← Fs.table_of_allocated ((halloc i).mp ha)] at this ⊢
      exact shaped_putInode h.sound hlt _ this
    · have hfile : s'.file i = s.file i := by
        rw [Fs.file_of_allocated ((halloc i).mpr (h.allocated hr)), h.file_eq hr, hrec,
          Fs.record_of_loaded (h.loaded hr), (h.fits hr).pack_addrs, (h.fits hr).pack_size]
        rw [← hdata]
        unfold Fs.data
        rw [hnode]
      rw [hfile] at hf
      rw [hsuper]
      exact (h.each i).dir f hf
  · rw [hdev]
    exact Logged.refl _

/-! ### Locking -/

/-- The file system after `cofs_lock` has found the lock free: the record is loaded if it has not
been. -/
def FsNode.locked (n : FsNode) (ino : Inode) : FsNode :=
  if n.type = 0 then ({ n with lock := true } : FsNode).load ino else { n with lock := true }

omit [Stack] in
theorem wp_cofsLock {s : Fs} {i : ℕ} (hh : s.dev.held = []) (hr : (s.node i).refCount ≠ 0)
    (hi : (s.node i).inode = i) {Q : Unit → Fs → Prop} {E : Halt → Fs → Prop}
    (hlock : (s.node i).lock = true → E .deadlock s)
    (hnone : (s.node i).lock = false → (s.node i).type = 0 → (s.dev.inode i).type &&& 0xF000 = 0 →
      ∀ s', s'.dev = s.dev → E (.panic "cofs_lock - node type is 0\n") s')
    (hok : (s.node i).lock = false → ((s.node i).locked (s.dev.inode i)).type ≠ 0 →
      Q () (s.setNode i fun n => n.locked (s.dev.inode i))) :
    wp (cofsLock (some i)) Q E s := by
  simp only [cofsLock, wp_bind, wp_getNode, wp_ite, wp_halt, wp_pure, if_neg hr, wp_modifyNode]
  by_cases hl : (s.node i).lock = true
  · rw [if_pos hl]
    exact hlock hl
  · rw [if_neg hl]
    rw [Bool.not_eq_true] at hl
    by_cases ht : (s.node i).type = 0
    · simp only [if_pos ht, wp_read, wp_disk, wp_getHdBuf, wp_putHdBuf, Fs.setNode_dev, hi, hh,
        List.not_mem_nil, if_false, List.erase_cons_head]
      have hd : ({ s.setNode i (fun n => { n with lock := true }) with
          dev := { s.dev with held := [s.dev.superb.inoBlk i] } } : Fs).setNode i
          (fun n => n.load (getInode (s.dev.disk (s.dev.superb.inoBlk i)) (n.inode % 8))) =
          { s.setNode i (fun n => n.locked (s.dev.inode i)) with
            dev := { s.dev with held := [s.dev.superb.inoBlk i] } } := by
        unfold Fs.setNode FsNode.locked
        dsimp only
        rw [update_self, update_idem, if_pos ht, hi]
        rfl
      rw [hd]
      have hdev : (⟨⟨s.dev.superb, s.dev.disk, [], s.dev.freed⟩,
        (s.setNode i fun n => n.locked (s.dev.inode i)).cache,
          (s.setNode i fun n => n.locked (s.dev.inode i)).cacheLock,
          (s.setNode i fun n => n.locked (s.dev.inode i)).node⟩ : Fs) =
          s.setNode i fun n => n.locked (s.dev.inode i) := by
        rw [← hh]
        rfl
      dsimp only
      rw [hdev, Fs.setNode_self]
      by_cases h0 : ((s.node i).locked (s.dev.inode i)).type = 0
      · rw [if_pos h0]
        refine hnone hl ht ?_ _ rfl
        unfold FsNode.locked at h0
        rwa [if_pos ht] at h0
      · rw [if_neg h0]
        exact hok hl h0
    · have : (s.node i).locked (s.dev.inode i) = { s.node i with lock := true } := if_neg ht
      rw [if_neg ht]
      rw [this] at hok
      have hs : s.setNode i (fun n => n.locked (s.dev.inode i)) = s.setNode i fun n =>
        { n with lock := true } := by
        unfold Fs.setNode
        dsimp only
        rw [this]
      rw [hs] at hok
      exact hok hl ht

/-- **`cofs_lock` on a node that is referred to.** -/
theorem cofsLock_spec {s : Fs} {i : ℕ} (h : Inv s) (hr : s.refs i ≠ 0) :
    wp (cofsLock (some i)) (fun _ s' => (s.node i).lock = false ∧
        Turn i s s' { s.node i with lock := true } (s.data i) (s.dev.inode i))
      (fun e s' => (s.node i).lock = true ∧ e = .deadlock ∧ s' = s) s := by
  have ht := (h.loaded hr).2
  have he : (s.node i).locked (s.dev.inode i) = { s.node i with lock := true } := if_neg ht
  refine wp_cofsLock h.held (Inv.refCount hr) (h.inode_eq hr) (fun hl => ⟨hl, rfl, rfl⟩)
    (fun _ h0 => absurd h0 ht)
    fun hl _ => ⟨hl, ?_⟩
  rw [← he]
  refine h.touch hr ?_ ?_ ?_ ?_ ?_ ?_ <;> rw [he]
  · rfl
  · exact Inv.refCount hr

/-- **`cofs_unlock` on a node that is referred to.** -/
theorem cofsUnlock_spec {s : Fs} {i : ℕ} (h : Inv s) (hr : s.refs i ≠ 0)
    (hl : (s.node i).lock = true) :
    wp (cofsUnlock i)
      (fun _ s' => Turn i s s' { s.node i with lock := false } (s.data i) (s.dev.inode i))
      (fun _ _ => False) s := by
  simp only [cofsUnlock, wp_bind, wp_getNode, hl, Bool.not_true, Bool.false_eq_true, if_false,
    wp_modifyNode]
  exact h.touch hr rfl rfl rfl rfl rfl (Inv.refCount hr)

/-! ### Taking a node -/

/-- The node of an inode as it is or would be loaded. -/
def Fs.core (s : Fs) (i : ℕ) : FsNode :=
  if s.Loaded i then s.node i else (freshNode i).load (s.dev.inode i)

/-- The contents of the file of an inode. -/
def Fs.text (s : Fs) (i : ℕ) : List UInt8 := contents s.dev.disk (s.core i).addrs (s.core i).size

/-- Every node of the cache is referred to and there is no room for one more. -/
def Fs.CacheFull (s : Fs) (i : ℕ) : Prop :=
  i ∉ s.cache ∧ s.cache.length = maxCachedNodes ∧ ∀ j ∈ s.cache, (s.node j).refCount ≠ 0

omit [Stack] in
theorem Fs.core_of_loaded {s : Fs} {i : ℕ} (h : s.Loaded i) : s.core i = s.node i := if_pos h

omit [Stack] in
theorem Fs.record_eq_pack (s : Fs) (i : ℕ) : s.record i = (s.core i).pack := by
  by_cases hl : s.Loaded i
  · rw [Fs.record_of_loaded hl, Fs.core_of_loaded hl]
  · unfold Fs.core
    rw [Fs.record_of_not_loaded hl, if_neg hl, FsNode.pack_load _ (s.dev.inode_fits i)]

theorem Inv.core_fits {s : Fs} (h : Inv s) (i : ℕ) : (s.core i).Fits := by
  by_cases hl : s.Loaded i
  · rw [Fs.core_of_loaded hl]
    exact (h.each i).fits hl
  · unfold Fs.core
    rw [if_neg hl]
    exact FsNode.load_fits _ (s.dev.inode_fits i)

theorem Inv.file_core {s : Fs} (h : Inv s) {i : ℕ} (ha : s.Allocated i) :
    s.file i = some ((s.core i).pack.file (s.text i)) := by
  rw [Fs.file_of_allocated ha, Fs.record_eq_pack, (h.core_fits i).pack_addrs,
    (h.core_fits i).pack_size]
  rfl

theorem cofsGetNode_spec {s : Fs} {i : ℕ} (h : Inv s) {Q : Option ℕ → Fs → Prop}
    {E : Halt → Fs → Prop}
    (hin : i ∈ s.cache → Q (some i) (s.setNode i fun n => { n with refCount := n.refCount + 1 }))
    (hnew : i ∉ s.cache → ∀ cache : List ℕ, cache.Nodup →
      cache.length ≤ maxCachedNodes → i ∈ cache →
      (∀ j, j ≠ i → j ∈ cache → j ∈ s.cache) →
      (∀ j, j ≠ i → j ∈ s.cache → (s.node j).refCount ≠ 0 → j ∈ cache) →
      Q (some i) { s with cache := cache, node := update s.node i (freshNode i) })
    (hfull : s.CacheFull i → Q none { s with cacheLock := true }) :
    wp (cofsGetNode i) Q E s := by
  have hs : ({ s with cacheLock := false } : Fs) = s := by rw [← h.cacheLock]
  simp only [cofsGetNode, lockCache, unlockCache, wp_bind, wp_read, h.cacheLock, Bool.false_eq_true,
    if_false, wp_modify, wp_ite]
  by_cases hi : i ∈ s.cache
  · rw [if_pos hi]
    simp only [wp_modifyNode, wp_pure]
    have := hin hi
    rw [← hs] at this
    exact this
  · rw [if_neg hi]
    cases hf : ({ s with cacheLock := true } : Fs).freeNode with
    | some j =>
      -- the node of `j` is recycled
      have hrc : (s.node j).refCount = 0 := by simpa using List.find?_some hf
      have hmem : j ∈ s.cache := List.mem_reverse.mp (List.mem_of_find?_eq_some hf)
      have hcache : ∀ k, k ∈ s.cache.map (fun k => if k = j then i else k) ↔ k = i ∨ k ∈ s.cache ∧
        k ≠ j := by
        intro k
        rw [List.mem_map]
        constructor
        · rintro ⟨x, hx, rfl⟩
          by_cases hxj : x = j
          · rw [if_pos hxj]
            exact .inl rfl
          · rw [if_neg hxj]
            exact .inr ⟨hx, hxj⟩
        · rintro (rfl | ⟨hk, hkj⟩)
          · exact ⟨j, hmem, if_pos rfl⟩
          · exact ⟨k, hk, if_neg hkj⟩
      have hQ :=
        hnew hi (s.cache.map fun k => if k = j then i else k) ?_ ?_ ((hcache i).mpr (.inl rfl))
        (fun k hk hin => ((hcache k).mp hin).elim (fun e => absurd e hk) And.left)
        (fun k hk hin hr => (hcache k).mpr (.inr ⟨hin, fun e => hr (e ▸ hrc)⟩))
      · rw [← hs] at hQ
        exact hQ
      · refine List.Nodup.map_on (fun x hx y hy e => ?_) h.nodup
        split_ifs at e with h1 h2 h2
        · rw [h1, h2]
        · exact absurd (e ▸ hy) hi
        · exact absurd (e ▸ hx) hi
        · exact e
      · rw [List.length_map]
        exact h.length
    | none =>
      have hall : ∀ j ∈ s.cache, (s.node j).refCount ≠ 0 := by
        intro j hj
        have := List.find?_eq_none.mp hf j (List.mem_reverse.mpr hj)
        simpa using this
      dsimp only
      rw [wp_ite]
      by_cases hlen : s.cache.length ≥ maxCachedNodes
      · rw [if_pos hlen]
        exact hfull ⟨hi, Nat.le_antisymm h.length hlen, hall⟩
      · rw [if_neg hlen]
        have hQ :=
          hnew hi (s.cache ++ [i]) ?_ ?_ (by simp) (fun k hk hin => ?_) (fun k hk hin _ => ?_)
        · rw [← hs] at hQ
          exact hQ
        · refine List.nodup_append.mpr ⟨h.nodup, List.nodup_singleton i, fun x hx y hy e => ?_⟩
          rw [List.mem_singleton] at hy
          exact hi (hy ▸ e ▸ hx)
        · rw [List.length_append, List.length_singleton]
          omega
        · rcases List.mem_append.mp hin with hin | hin
          · exact hin
          · exact absurd (List.mem_singleton.mp hin) hk
        · exact List.mem_append_left _ hin

/-- The state in which inode `i` has been taken and locked. -/
theorem Inv.acquired {s : Fs} {i : ℕ} (h : Inv s) (name : CStr) (s' : Fs) (hpos : 0 < i)
    (hlt : i < s.dev.superb.numInodes) (ht : (s.core i).type ≠ 0) (hd : s'.dev = s.dev)
    (hl : s'.cacheLock = false) (hnd : s'.cache.Nodup) (hlen : s'.cache.length ≤ maxCachedNodes)
    (hmem : i ∈ s'.cache) (hsub : ∀ j, j ≠ i → j ∈ s'.cache → j ∈ s.cache)
    (hkeep : ∀ j, j ≠ i → j ∈ s.cache → (s.node j).refCount ≠ 0 → j ∈ s'.cache)
    (hn : ∀ j, j ≠ i → s'.node j = s.node j)
    (hi : s'.node i = { s.core i with name := name, refCount := s.refs i + 1, lock := true }) :
    s'.file = s.file ∧
      Turn i s s' { s.core i with name := name, refCount := s.refs i + 1, lock := true } (s.text i)
        (s.dev.inode i) := by
  have hload : s'.Loaded i := ⟨hmem, by rw [hi]; exact ht⟩
  have hinode : (s.core i).inode = i := by
    by_cases hl : s.Loaded i
    · rw [Fs.core_of_loaded hl]
      exact ((h.each i).inode hl.1).1
    · unfold Fs.core
      rw [if_neg hl]
      rfl
  have hfit := h.core_fits i
  have hrc : (s'.node i).refCount ≠ 0 := by
    rw [hi]
    exact Nat.succ_ne_zero _
  obtain ⟨hinv, hrest, hfile⟩ := h.recache hd hl hnd hlen hsub hkeep hn
    (fun _ => by rw [Fs.record_of_loaded hload, hi, Fs.record_eq_pack]; rfl)
    (fun _ => ⟨by rw [hi]; exact hinode, hpos, by rwa [hd]⟩)
    (fun _ => by rw [hi]; exact ⟨hfit.type, hfit.size, hfit.addrs, hfit.rest⟩) (fun _ _ => hload.2)
    (fun _ h0 => absurd h0 hrc) (fun _ h0 => absurd h0 hrc)
  refine ⟨hfile, hinv, hrest, hmem, hi, ?_, by rw [hd]⟩
  unfold Fs.data Fs.text
  rw [hi, hd]

/-- **A node is taken and locked**: it is the node as loaded, with one more reference. -/
theorem acquire_spec {s : Fs} {i : ℕ} (h : Inv s) (hpos : 0 < i) (hlt : i < s.dev.superb.numInodes)
    {E : Halt → Fs → Prop}
    (hE : ∀ e s', e ≠ .panic "No free inodes\n" → s'.dev = s.dev →
      s.CacheFull i ∨ (s.refs i ≠ 0 ∧ (s.node i).lock = true) ∨ (s.record i).type &&& 0xF000 = 0 →
        E e s') :
    wp (cofsGetNode i)
      (fun r s₁ => wp (cofsLock r)
        (fun _ s' => r = some i ∧ ¬ (s.refs i ≠ 0 ∧ (s.node i).lock = true) ∧
          s'.file = s.file ∧ ∃ name, (s.refs i ≠ 0 → name = (s.node i).name) ∧
            Turn i s s' { s.core i with name := name, refCount := s.refs i + 1, lock := true }
              (s.text i) (s.dev.inode i))
        E s₁) E s := by
  refine cofsGetNode_spec h (fun hin => ?_)
    (fun hin cache hnd hlen hmem hsub hkeep => ?_) fun hfull => ?_
  · have hrefs := Fs.refs_of_mem hin
    have hnode := Fs.setNode_self s i fun n => { n with refCount := n.refCount + 1 }
    have hh : (s.setNode i fun n => { n with refCount := n.refCount + 1 }).dev.held = [] := h.held
    refine wp_cofsLock hh (by rw [hnode]; exact Nat.succ_ne_zero _)
      (by rw [hnode]; exact ((h.each i).inode hin).1)
      (fun hl => ?_) (fun hl ht h0 s' hd => ?_) fun hl ht => ?_
    · rw [hnode] at hl
      refine hE _ _ (by decide) rfl (.inr (.inl ⟨fun h0 => ?_, hl⟩))
      rw [hrefs] at h0
      have := (h.each i).unlocked hin h0
      exact Bool.false_ne_true (this.symm.trans hl)
    · rw [hnode] at ht
      have : ¬ s.Loaded i := fun hl => hl.2 ht
      exact hE _ _ (by decide) hd (.inr (.inr (by rw [Fs.record_of_not_loaded this]; exact h0)))
    · rw [hnode] at hl ht
      have hcore :
        (({ s.node i with refCount := (s.node i).refCount + 1 } : FsNode).locked (s.dev.inode i)) =
          { s.core i with name := (s.node i).name, refCount := s.refs i + 1, lock := true } := by
        rw [hrefs]
        unfold FsNode.locked
        by_cases hty : (s.node i).type = 0
        · have hload : ¬ s.Loaded i := fun hl => hl.2 hty
          unfold Fs.core
          rw [if_pos hty, if_neg hload]
          unfold FsNode.load freshNode
          dsimp only
          rw [((h.each i).inode hin).1]
        · rw [if_neg hty, Fs.core_of_loaded ⟨hin, hty⟩]
      rw [Fs.setNode_setNode]
      have ht : (s.core i).type ≠ 0 := fun h0 => ht ((congrArg FsNode.type hcore).trans h0)
      refine ⟨rfl, fun hb => ?_, ?_⟩
      · rw [hb.2] at hl
        cases hl
      · obtain ⟨h1, h2⟩ := h.acquired (s.node i).name
          (s.setNode i fun n =>
            ({ n with refCount := n.refCount + 1 } : FsNode).locked (s.dev.inode i)) hpos hlt ht rfl
          h.cacheLock h.nodup h.length hin (fun _ _ hj => hj) (fun _ _ hj _ => hj)
          (fun j hj => Fs.setNode_ne s _ hj) (by rw [Fs.setNode_self]; exact hcore)
        exact ⟨h1, (s.node i).name, fun _ => rfl, h2⟩
  · have hload : ¬ s.Loaded i := fun hl => hin hl.1
    have hrefs := Fs.refs_of_not_mem hin
    have hnode :
        ({ s with cache := cache, node := update s.node i (freshNode i) } : Fs).node i =
          freshNode i := update_self _ _ _
    have hh :
        ({ s with cache := cache, node := update s.node i (freshNode i) } : Fs).dev.held = [] :=
      h.held
    refine wp_cofsLock hh (by rw [hnode]; exact Nat.one_ne_zero) (by rw [hnode]; rfl) (fun hl => ?_)
      (fun _ _ h0 s' hd => hE _ _ (by decide) hd (.inr (.inr ?_))) fun _ ht => ?_
    · rw [hnode] at hl
      cases hl
    · rw [Fs.record_of_not_loaded hload]
      exact h0
    · rw [hnode] at ht
      have hcore : (freshNode i).locked (s.dev.inode i) =
          { s.core i with name := (freshNode i).name, refCount := s.refs i + 1, lock := true } := by
        rw [hrefs]
        unfold FsNode.locked Fs.core
        rw [if_pos (show (freshNode i).type = 0 from rfl), if_neg hload]
        rfl
      have ht : (s.core i).type ≠ 0 := fun h0 => ht ((congrArg FsNode.type hcore).trans h0)
      refine ⟨rfl, fun hb => absurd hrefs hb.1, ?_⟩
      obtain ⟨h1, h2⟩ := h.acquired (freshNode i).name
          (({ s with cache := cache, node := update s.node i (freshNode i) } : Fs).setNode i
            fun n => n.locked (s.dev.inode i)) hpos hlt ht rfl h.cacheLock hnd hlen hmem hsub hkeep
          (fun j hj => by rw [Fs.setNode_ne _ _ hj]; exact update_of_ne hj _ _)
          (by rw [Fs.setNode_self, hnode]; exact hcore)
      exact ⟨h1, (freshNode i).name, fun hr => absurd hrefs hr, h2⟩
  · exact hE _ _ (by decide) rfl (.inl hfull)

/-! ### Writing and truncating -/

/-- A step on the node of inode `i` and its blocks. -/
theorem Inv.turn {s : Fs} {i : ℕ} {o : Open} (h : Inv s) (hr : s.refs i ≠ 0)
    (hstep : NodeStep (fun _ => False) s i o)
    (hino : o.node.inode = (s.node i).inode) (hc : o.node.refCount = (s.node i).refCount)
    (hshape : Shaped o.dev.disk o.node.addrs o.node.size) (hlog : Logged s.dev o.dev)
    (hdir : (o.node.pack.file (contents o.dev.disk o.node.addrs o.node.size)).DirOk
      s.dev.superb.numInodes) :
    Turn i s (s.put i o) o.node (contents o.dev.disk o.node.addrs o.node.size) (o.dev.inode i) := by
  have hnode : (s.put i o).node i = o.node := update_self _ _ _
  have hn : ∀ j, j ≠ i → (s.put i o).node j = s.node j := fun j hj => update_of_ne hj _ _
  have hframe : Frame (fun _ => False) s.dev s.table i (s.put i o).dev (s.put i o).table := by
    rw [hstep.table_eq]
    exact hstep.frame
  have hrc : ((s.put i o).node i).refCount ≠ 0 := by
    rw [hnode, hc]
    exact Inv.refCount hr
  have hmem := Fs.mem_of_refs hr
  refine ⟨h.step hframe rfl h.cacheLock hn ?_, rest_of_frame h hframe rfl hn hlog, hmem,
    hnode, ?_, rfl⟩
  · refine ⟨fun _ =>
      ?_, fun _ => by rw [hnode]; exact hstep.fits',
        fun _ _ => ((hstep.loaded_iff i).mpr hstep.loaded).2,
      fun _ h0 => absurd h0 hrc, fun _ h0 => absurd h0 hrc, fun _ => ?_, fun f hf => ?_⟩
    · rw [hnode, hino, hstep.numInodes_eq]
      exact (h.each i).inode hmem
    · rw [hstep.record_self, hstep.fits'.pack_addrs, hstep.fits'.pack_size]
      exact hshape
    · rw [hstep.file_self] at hf
      rw [hstep.numInodes_eq, ← Option.some.inj hf]
      exact hdir
  · unfold Fs.data
    rw [hnode]
    rfl

/-- **`cofs_write` on a node that is referred to.** -/
theorem write_spec {s : Fs} {i offset : ℕ} {bs : List UInt8} (h : Inv s) (hr : s.refs i ≠ 0)
    (ho : offset ≤ (s.node i).size) (hb : offset + bs.length ≤ maxFileSize)
    (hdir : ((s.node i).pack.file (overlay (s.data i) offset bs)).DirOk s.dev.superb.numInodes) :
    wp (onNode i (cofsWrite offset bs)) (fun n s' => n = bs.length ∧
        Turn i s s' { s.node i with addrs := (s'.node i).addrs,
                                    size := max (s.node i).size (offset + bs.length) }
          (overlay (s.data i) offset bs) (s'.dev.inode i) ∧
        ((s.node i).size < offset + bs.length ∨ s.dev.inode i = (s.node i).pack →
          s'.dev.inode i = (s'.node i).pack))
      (fun e s' => e ≠ .panic "No free inodes\n" ∧ Logged s.dev s'.dev ∧ s'.dev.NoneFree) s := by
  have hfit := h.fits hr
  have htab := h.table_eq hr
  have hshape := h.node_shaped hr
  have hsize : max (s.node i).size (offset + bs.length) < 2 ^ 32 := by
    have := hshape.le
    unfold maxFileSize at this hb
    omega
  rw [wp_onNode]
  refine (cofsWrite_spec (o := ⟨s.dev, s.node i⟩) (i := i) h.sound htab (h.inode_eq hr)
    (h.lt hr) h.held ho hb).mono
    (fun n o' hw => ?_) fun e o' he => ⟨by rw [he.1]; decide, Logged.of_eq he.2.1, he.2.2.1⟩
  obtain ⟨rfl, hnode, hw, hrec⟩ := hw
  dsimp only at hnode hw hrec
  have htype : o'.node.type = (s.node i).type := by rw [hnode]
  have hsz : o'.node.size = max (s.node i).size (offset + bs.length) := by rw [hnode]
  have hspare : ∀ k, 8 ≤ k → o'.node.addrs k = (s.node i).addrs k := by
    intro k hk
    have := hw.spare k hk
    rwa [update_self, htab] at this
  have hstep : NodeStep (fun _ => False) s i o' :=
    ⟨h.loaded hr, hfit, h.lt hr, hw.toFrame, htype,
      hw.sound.node_fits hfit hspare htype (by rw [hsz]; exact hsize)⟩
  rw [← htab] at hshape
  have hcont := hw.contents hshape.filled ho
  have hshape' := hw.shaped hshape ho hb
  rw [update_self] at hcont hshape'
  rw [htab] at hcont
  have hdata : contents o'.dev.disk o'.node.addrs o'.node.size = overlay (s.data i) offset bs := by
    rw [hsz]
    exact hcont
  have hpack : o'.node.pack.file (overlay (s.data i) offset bs) =
      (s.node i).pack.file (overlay (s.data i) offset bs) := by
    rw [hnode]
    rfl
  have hturn :=
    h.turn hr hstep (by rw [hnode]) (by rw [hnode]) (by rw [hsz]; exact hshape')
      (Logged.of_eq hw.freed)
    (by rw [hdata, hpack]; exact hdir)
  have hnode' : (s.put i o').node i = o'.node := update_self _ _ _
  rw [hdata] at hturn
  rw [hnode', ← hnode]
  refine ⟨rfl, hturn, fun hc => ?_⟩
  show o'.dev.inode i = o'.node.pack
  rw [hrec]
  by_cases hgrow : (s.node i).size < offset + bs.length
  · exact if_pos hgrow
  · rw [if_neg hgrow, hc.resolve_left hgrow, hnode]
    have haddrs := hw.addrs_eq hshape.filled (Nat.not_lt.mp hgrow)
    rw [update_self, htab] at haddrs
    rw [haddrs, Nat.max_eq_left (Nat.not_lt.mp hgrow)]

/-- The entries of the start of a directory are entries of the directory. -/
theorem mem_slots_take {data : List UInt8} {n : ℕ} (hn : n % 32 = 0) {e : Dirent}
    (he : e ∈ slots (data.take n)) :
    e ∈ slots data := by
  obtain ⟨k, hk, rfl⟩ := List.getElem_of_mem he
  rw [length_slots, List.length_take] at hk
  have hk' : k < (slots data).length := by
    rw [length_slots]
    omega
  have : (slots (data.take n))[k] = (slots data)[k] := by
    rw [getElem_slots, getElem_slots, List.drop_take, List.take_take]
    congr 2
    omega
  rw [this]
  exact List.getElem_mem hk'

/-- An empty file passes for a directory. -/
theorem File.dirOk_nil (numInodes : ℕ) (ino : Inode) : (ino.file []).DirOk numInodes :=
  fun _ => ⟨rfl, fun e he => by
    have he : e ∈ slots [] := he
    simp [slots] at he⟩

theorem File.DirOk.take {numInodes n : ℕ} {ino : Inode} {data : List UInt8}
    (h : (ino.file data).DirOk numInodes)
    (hn : n % 32 = 0) : (ino.file (data.take n)).DirOk numInodes := by
  intro ht
  obtain ⟨hlen, hslots⟩ := h ht
  refine ⟨?_, fun e he => hslots e (mem_slots_take hn he)⟩
  show (data.take n).length % 32 = 0
  have hlen : data.length % 32 = 0 := hlen
  rw [List.length_take]
  omega

/-- **`cofs_truncate` on a node that is referred to.** -/
theorem truncate_spec {s : Fs} {i length : ℕ} (h : Inv s) (hr : s.refs i ≠ 0)
    (hle : length ≤ (s.node i).size)
    (hmod : length % 512 = 0) (hok : TruncateOk (s.node i).size) :
    wp (onNode i (cofsTruncate length)) (fun n s' => n = length ∧
        Turn i s s' { s.node i with addrs := (s'.node i).addrs, size := length }
          ((s.data i).take length)
          (s'.node i).pack)
      (fun _ _ => False) s := by
  have hfit := h.fits hr
  have htab := h.table_eq hr
  have hshape := h.node_shaped hr
  rw [wp_onNode]
  refine (cofsTruncate_spec (o := ⟨s.dev, s.node i⟩) (i := i) h.sound htab (h.inode_eq hr)
    (h.lt hr) h.held hshape hle
    hmod hok).mono (fun n o' hc => ?_) fun _ _ he => he
  obtain ⟨rfl, hnode, hframe, hlog, hspare, hshape', hrec, hcont⟩ := hc
  dsimp only at hnode hframe hlog hspare hcont
  have htype : o'.node.type = (s.node i).type := by rw [hnode]
  have hsz : o'.node.size = n := by rw [hnode]
  have hsize : o'.node.size < 2 ^ 32 := by
    have := hfit.size
    omega
  have hstep : NodeStep (fun _ => False) s i o' :=
    ⟨h.loaded hr, hfit, h.lt hr, hframe, htype, hframe.sound.node_fits hfit hspare htype hsize⟩
  have hdata : contents o'.dev.disk o'.node.addrs o'.node.size = (s.data i).take n := by
    rw [hsz]
    exact hcont
  have hpack : o'.node.pack.file ((s.data i).take n) =
    (s.node i).pack.file ((s.data i).take n) := by
    rw [hnode]
    rfl
  have hturn := h.turn hr hstep (by rw [hnode]) (by rw [hnode]) (by rw [hsz]; exact hshape') hlog
    (by rw [hdata, hpack]; exact ((h.each i).dir _ (h.file_eq hr)).take (by omega))
  have hnode' : (s.put i o').node i = o'.node := update_self _ _ _
  rw [hdata, hrec] at hturn
  rw [hnode', ← hnode]
  exact ⟨rfl, hturn⟩

/-! ### Releasing a node -/

omit [Stack] in
/-- The table of the inode that changes may be replaced by one that refers to the same blocks. -/
theorem Frame.retable {X : ℕ → Prop} {d d' : Dev} {A A' A'' : ℕ → ℕ → ℕ} {i : ℕ}
    (h : Frame X d A i d' A')
    (hne : ∀ j, j ≠ i → A'' j = A' j) (hi : addrAt d'.disk (A'' i) = addrAt d'.disk (A' i)) :
    Frame X d A i d' A'' := by
  refine ⟨h.sound.congr rfl (fun _ _ => rfl) ?_, h.superb, h.held, h.boot, h.inodes,
    fun j hj => (hne j hj).trans (h.table j hj), h.rest, h.blocks⟩
  funext ⟨j, p⟩
  show addrAt d'.disk (A'' j) p = addrAt d'.disk (A' j) p
  by_cases hj : j = i
  · rw [hj, hi]
  · rw [hne j hj]

/-- What is left of the file of a node when `cofs_put_node` has marked it free: nothing, unless the
mode is not zero, which the mark leaves in the record. -/
def FsNode.remains (n : FsNode) : Option File :=
  if n.mask % 2 ^ 16 = 0 then none else some (({ n with type := 0 } : FsNode).pack.file [])

/-- The state in which the node of an empty file has been marked free and given up. -/
def Fs.release (s : Fs) (i : ℕ) : Fs :=
  { s with dev := s.dev.putInode i ({ s.node i with type := 0 } : FsNode).pack,
           node := update s.node i { s.node i with type := 0, refCount := 0 } }

theorem Inv.release {s : Fs} {i : ℕ} (h : Inv s) (hr : s.refs i ≠ 0) (hs : (s.node i).size = 0)
    (hl : (s.node i).lock = false) :
    Inv (s.release i) ∧ Rest (· = i) s (s.release i) ∧ (s.release i).refs i = 0 ∧
      (s.release i).file i = (s.node i).remains := by
  have hlt := h.lt hr
  have hmem := Fs.mem_of_refs hr
  have hfit := h.fits hr
  generalize hn : ({ s.node i with type := 0 } : FsNode) = n
  have hfit' : n.Fits := by
    rw [← hn]
    exact ⟨Nat.zero_and _, hfit.size, hfit.addrs, hfit.rest⟩
  have hnode : (s.release i).node i = { s.node i with type := 0, refCount := 0 } :=
    update_self _ _ _
  have hne : ∀ j, j ≠ i → (s.release i).node j = s.node j := fun j hj => update_of_ne hj _ _
  have hdev : (s.release i).dev = s.dev.putInode i n.pack := by rw [← hn]; rfl
  have hload : ¬ (s.release i).Loaded i := fun hl => hl.2 (by rw [hnode])
  have hrec : (s.release i).record i = n.pack := by
    rw [Fs.record_of_not_loaded hload, hdev, Dev.inode_putInode_self _ _ (FsNode.pack_fits _)]
  have htype : n.pack.type = n.mask % 2 ^ 16 := by
    rw [← hn]
    show ((0 &&& 0xF000) ||| (s.node i).mask) % 2 ^ 16 = _
    rw [Nat.zero_and, Nat.zero_or]
  have haddrs : n.pack.addrs = (s.node i).addrs := by
    rw [hfit'.pack_addrs, ← hn]
  have hsize : n.pack.size = 0 := by
    rw [hfit'.pack_size, ← hn]
    exact hs
  have hshape : Shaped (s.release i).dev.disk (s.node i).addrs 0 := by
    have := h.node_shaped hr
    rw [hs, ← h.table_eq hr] at this
    rw [← h.table_eq hr, hdev]
    exact shaped_putInode h.sound hlt _ this
  have htab : addrAt (s.release i).dev.disk ((s.release i).table i) =
      addrAt (s.release i).dev.disk (s.table i) := by
    funext p
    rw [h.table_eq hr, hshape.addrAt_eq_zero]
    unfold Fs.table
    split_ifs
    · rw [hrec, haddrs, hshape.addrAt_eq_zero]
    · cases p <;> rfl
  have hframe : Frame (fun _ => False) s.dev s.table i (s.release i).dev (s.release i).table := by
    refine Frame.retable (by rw [hdev]; exact (h.sound.writeInode hlt _).1) (fun j hj => ?_) htab
    refine Fs.table_congr (by rw [hdev]; rfl) fun _ => Fs.record_congr rfl (hne j hj) ?_
    rw [hdev]
    exact Dev.inode_putInode_ne _ _ hj
  have hfile : (s.release i).file i = (s.node i).remains := by
    unfold Fs.file FsNode.remains
    have hmask : n.mask = (s.node i).mask := by rw [← hn]
    by_cases hm : (s.node i).mask % 2 ^ 16 = 0
    · rw [if_pos hm, if_neg fun ha => ha.2 (by rw [hrec, htype, hmask, hm])]
    · rw [if_neg hm, if_pos ⟨by rw [hdev]; exact hlt, by rw [hrec, htype, hmask]; exact hm⟩, hrec,
        hsize, hn]
      rfl
  refine ⟨h.step hframe rfl h.cacheLock hne ?_,
    rest_of_frame h hframe rfl hne (by rw [hdev]; exact Logged.refl _), ?_,
    hfile⟩
  · refine ⟨fun _ => ?_, fun hl => absurd hl hload, fun _ h0 => ?_, fun _ _ => ?_, fun hl =>
      absurd hl hload, fun _ => ?_, fun f hf => ?_⟩
    · rw [hnode, hdev]
      exact (h.each i).inode hmem
    · rw [hnode] at h0
      exact absurd rfl h0
    · rw [hnode]
      exact hl
    · rw [hrec, haddrs, hsize]
      exact hshape
    · rw [hfile] at hf
      unfold FsNode.remains at hf
      split_ifs at hf
      obtain rfl := Option.some.inj hf
      exact File.dirOk_nil _ _
  · have hin : i ∈ (s.release i).cache := hmem
    rw [Fs.refs_of_mem hin, hnode]

/-- The put of a node is its last, and nothing links to it. -/
def Fs.Last (s : Fs) (i : ℕ) : Prop := s.refs i = 1 ∧ (s.node i).numLinks = 0

instance (s : Fs) (i : ℕ) : Decidable (s.Last i) := inferInstanceAs (Decidable (_ ∧ _))

theorem wp_cofsPutNode {s : Fs} {i : ℕ} {Q : Unit → Fs → Prop} {E : Halt → Fs → Prop} (h : Inv s)
    (hr : s.refs i ≠ 0) (hroot : s.Last i → i ≠ 1)
    (hkeep : ¬ s.Last i → i = 1 ∧ s.refs i = 1 → Q () s)
    (hdrop : ¬ s.Last i → ¬ (i = 1 ∧ s.refs i = 1) →
      Q () (s.setNode i fun n => { n with refCount := n.refCount - 1 }))
    (hlast : s.Last i →
      wp (onNode i (cofsTruncate 0)) (fun _ s₁ => s₁.cacheLock = false ∧ s₁.dev.held = [] ∧
      (s₁.node i).inode = i ∧ (s₁.node i).refCount = 1 ∧ Q () (s₁.release i)) E s) :
    wp (cofsPutNode i) Q E s := by
  have hrefs := Fs.refs_of_mem (Fs.mem_of_refs hr)
  have hrc := Inv.refCount hr
  have hino := h.inode_eq hr
  have ht : (s.node i).type > 0 := Nat.pos_of_ne_zero (h.loaded hr).2
  have hs : ∀ s : Fs, s.cacheLock = false → ({ s with cacheLock := false } : Fs) = s := by
    intro s hs
    rw [← hs]
  have hcond : (s.node i).refCount = 1 ∧ (s.node i).type > 0 ∧ (s.node i).numLinks = 0 ↔
    s.Last i := by
    unfold Fs.Last
    rw [hrefs]
    simp [ht]
  simp only [cofsPutNode, lockCache, unlockCache, wp_bind, wp_read, h.cacheLock, Bool.false_eq_true,
    if_false, wp_modify, wp_getNode, wp_ite, wp_modifyNode, if_neg hrc]
  by_cases hd : s.Last i
  · rw [if_pos (hcond.mpr hd), hs s h.cacheLock]
    refine (hlast hd).mono (fun _ s₁ h₁ => ?_) fun _ _ he => he
    obtain ⟨hcl, hheld, hin, hrc₁, hQ⟩ := h₁
    simp only [wp_disk, Fs.setNode_self]
    rw [wp_cofsUpdateNode (by simp [hheld])]
    have h1 : i ≠ 1 := hroot hd
    have hcl' : ∀ f, (s₁.setNode i f).cacheLock = false := fun _ => hcl
    simp only [hcl', Bool.false_eq_true, if_false, hin, h1]
    have hrel : s₁.release i =
      ⟨s₁.dev.putInode i ({ s₁.node i with type := 0 } : FsNode).pack, s₁.cache, false,
        update s₁.node i { s₁.node i with type := 0, refCount := 0 }⟩ := by
      rw [← hcl]
      rfl
    rw [hrel] at hQ
    convert hQ using 2
    · rfl
    · rfl
    · unfold Fs.setNode
      dsimp only
      rw [update_self, update_idem, hrc₁, hin]
  · rw [if_neg fun hc => hd (hcond.mp hc), hino]
    by_cases h1 : i = 1
    · rw [if_pos h1]
      by_cases hc : (s.node i).refCount > 1
      · rw [if_pos hc]
        have := hdrop hd fun e => by rw [hrefs] at e; omega
        rw [← hs _ (show (s.setNode i fun n => { n with refCount := n.refCount - 1 }).cacheLock =
          false from
          h.cacheLock)] at this
        exact this
      · rw [if_neg hc]
        have := hkeep hd ⟨h1, by rw [hrefs]; omega⟩
        rw [← hs s h.cacheLock] at this
        exact this
    · rw [if_neg h1]
      have := hdrop hd fun e => h1 e.1
      rw [← hs _ (show (s.setNode i fun n => { n with refCount := n.refCount - 1 }).cacheLock =
        false from
        h.cacheLock)] at this
      exact this

/-- **`cofs_put_node`.** The last put of a node that nothing links to frees the file; it never
returns if the size of the file is a whole number of blocks from the seventh on. -/
theorem put_spec {s : Fs} {i : ℕ} (h : Inv s) (hr : s.refs i ≠ 0) (hl : (s.node i).lock = false)
    (hclean : s.dev.inode i = (s.node i).pack) (hroot : s.Last i → i ≠ 1) :
    wp (cofsPutNode i) (fun _ s' => Inv s' ∧ Rest (· = i) s s' ∧
      (s.Last i → TruncateOk (s.node i).size) ∧
        s'.refs i = (if i = 1 ∧ s.refs i = 1 then 1 else s.refs i - 1) ∧
        s'.file i = (if s.Last i then (s.node i).remains else s.file i) ∧
        (s'.refs i ≠ 0 → s'.node i = { s.node i with refCount := s'.refs i } ∧
          s'.dev.inode i = (s'.node i).pack))
      (fun e _ => e ≠ .panic "No free inodes\n" ∧ s.Last i ∧ ¬ TruncateOk (s.node i).size) s := by
  have hmem := Fs.mem_of_refs hr
  have hrefs := Fs.refs_of_mem hmem
  refine wp_cofsPutNode h hr hroot (fun hd hc => ?_) (fun hd hc => ?_) fun hd => ?_
  · refine ⟨h, Rest.refl _ s, fun hd' =>
      absurd hd' hd, by rw [if_pos hc]; exact hc.2, (if_neg hd).symm, fun _ => ?_⟩
    rw [hrefs]
    exact ⟨rfl, hclean⟩
  · generalize hs' : (s.setNode i fun n => { n with refCount := n.refCount - 1 }) = s'
    have hnode : s'.node i = { s.node i with refCount := (s.node i).refCount - 1 } := by
      rw [← hs']
      exact Fs.setNode_self s i _
    have hmem' : i ∈ s'.cache := by rw [← hs']; exact hmem
    have hload : s'.Loaded i := ⟨hmem', by rw [hnode]; exact (h.loaded hr).2⟩
    have hfit := h.fits hr
    obtain ⟨hinv, hrest, hfile⟩ :=
      h.recache (i := i) (show s'.dev = s.dev by rw [← hs']; rfl) (by rw [← hs']; exact h.cacheLock)
      (by rw [← hs']; exact h.nodup) (by rw [← hs']; exact h.length)
        (fun j _ hj => by rw [← hs'] at hj; exact hj)
      (fun j _ hj _ => by rw [← hs']; exact hj)
        (fun j hj => by rw [← hs']; exact Fs.setNode_ne s _ hj)
      (fun _ => by rw [Fs.record_of_loaded hload, hnode, Fs.record_of_loaded (h.loaded hr)]; rfl)
      (fun _ => by rw [hnode, ← hs']; exact (h.each i).inode hmem)
      (fun _ => by rw [hnode]; exact ⟨hfit.type, hfit.size, hfit.addrs, hfit.rest⟩)
        (fun _ _ => hload.2)
      (fun _ _ => by rw [hnode]; exact hl) (fun _ _ => by rw [hnode, ← hs']; exact hclean)
    refine ⟨hinv, hrest, fun hd' => absurd hd' hd, ?_, by rw [if_neg hd, hfile], fun _ => ⟨?_, ?_⟩⟩
    · rw [if_neg hc, Fs.refs_of_mem hmem', hnode, hrefs]
    · rw [Fs.refs_of_mem hmem', hnode]
    · rw [hnode, ← hs']
      exact hclean
  · by_cases hok : TruncateOk (s.node i).size
    · refine (truncate_spec h hr (Nat.zero_le _) (Nat.zero_mod _) hok).mono
        (fun _ s₁ ht => ?_) fun _ _ he => he.elim
      obtain ⟨-, ht⟩ := ht
      have hn₁ := ht.node
      have hrc₁ : (s₁.node i).refCount = 1 := by
        rw [hn₁]
        exact hrefs ▸ hd.1
      have hr₁ : s₁.refs i ≠ 0 := by
        rw [ht.refs]
        exact Inv.refCount hr
      obtain ⟨hinv, hrest, hr0, hfile⟩ := ht.inv.release hr₁ (by rw [hn₁]) (by rw [hn₁]; exact hl)
      refine ⟨ht.inv.cacheLock, ht.inv.held, ht.inv.inode_eq hr₁, hrc₁, hinv,
        ht.rest.trans hrest, fun _ => hok, ?_, ?_, fun h0 => absurd hr0 h0⟩
      · rw [hr0, if_neg fun hc => hroot hd hc.1, hd.1]
      · rw [if_pos hd, hfile, hn₁]
        rfl
    · rw [wp_onNode]
      exact (cofsTruncate_past_end (o := ⟨s.dev, s.node i⟩) h.sound (h.table_eq hr) h.held h.boot
        (h.node_shaped hr) hok).mono (fun _ _ hf => hf.elim) fun e _ he =>
          ⟨by rw [he]; decide, hd, hok⟩

/-! ### Allocating an inode -/

omit [Stack] in
theorem allocInode_fits (t : ℕ) : (allocInode t).Fits := by
  have hF : t &&& 0xF000 ≤ 0xF000 := Nat.and_le_right
  have hmaj : major t ≤ 0xFF := by
    have : t &&& 0xFF00 ≤ 0xFF00 := Nat.and_le_right
    unfold major
    omega
  have hmin : minor t ≤ 0xFF := Nat.and_le_right
  refine ⟨?_, ?_, ?_, ?_, ?_, ?_, ?_, ?_, ?_, ?_, ?_, fun _ _ => rfl⟩
  · show t &&& 0xF000 < 2 ^ 16
    omega
  · show (if _ then major t else 0) < 2 ^ 16
    split_ifs <;> omega
  · show (if _ then minor t else 0) < 2 ^ 16
    split_ifs <;> omega
  all_goals first | exact Nat.two_pow_pos _ | exact fun _ _ => Nat.two_pow_pos _

/-- The record of a free inode is written. -/
theorem Inv.claim {s : Fs} {i : ℕ} (h : Inv s) (hlt : i < s.dev.superb.numInodes)
    (hl : ¬ s.Loaded i) (hfree : (s.dev.inode i).type = 0) (t : ℕ) :
    Inv { s with dev := s.dev.putInode i (allocInode t) } ∧
      Rest (· = i) s { s with dev := s.dev.putInode i (allocInode t) } := by
  generalize hs' : ({ s with dev := s.dev.putInode i (allocInode t) } : Fs) = s'
  have hdev : s'.dev = s.dev.putInode i (allocInode t) := by rw [← hs']
  have hcache : s'.cache = s.cache := by rw [← hs']
  have hnode : s'.node = s.node := by rw [← hs']
  have hsuper : s'.dev.superb = s.dev.superb := by rw [hdev]; rfl
  have hl' : ¬ s'.Loaded i := by
    unfold Fs.Loaded
    rw [hcache, hnode]
    exact hl
  have hrec : s'.record i = allocInode t := by
    rw [Fs.record_of_not_loaded hl', hdev, Dev.inode_putInode_self _ _ (allocInode_fits t)]
  have htab : s'.table = s.table := by
    funext j
    by_cases hj : j = i
    · subst hj
      have : ¬ s.Allocated j := fun ha => ha.2 (by rw [Fs.record_of_not_loaded hl, hfree])
      unfold Fs.table
      rw [if_neg this, hrec]
      exact ite_self _
    · refine Fs.table_congr hsuper fun _ => Fs.record_congr hcache (by rw [hnode]) ?_
      rw [hdev]
      exact Dev.inode_putInode_ne _ _ hj
  have hframe : Frame (fun _ => False) s.dev s.table i s'.dev s'.table := by
    rw [htab, hdev]
    exact (h.sound.writeInode hlt _).1
  have hn : ∀ j, j ≠ i → s'.node j = s.node j := fun j _ => by rw [hnode]
  refine ⟨h.step hframe hcache (by rw [← hs']; exact h.cacheLock) hn ?_,
    rest_of_frame h hframe hcache hn ?_⟩
  · obtain ⟨h1, -, h3, h4, -, -, -⟩ := h.each i
    refine ⟨by rwa [hcache, hnode, hsuper],
      fun hl => absurd hl hl', by rwa [hcache, hnode], by rwa [hcache, hnode],
      fun hl => absurd hl hl', fun _ => ?_, fun f hf => ?_⟩
    · rw [hrec]
      refine ⟨Nat.zero_le _, fun p _ _ hp => absurd (addrAt_zero _ p) hp, fun f _ => ?_⟩
      show addrAt _ (fun _ => 0) _ ≠ 0 ↔ f * 512 < 0
      rw [addrAt_zero]
      simp
    · unfold Fs.file at hf
      split_ifs at hf
      rw [hrec] at hf
      rw [← Option.some.inj hf]
      exact File.dirOk_nil _ _
  · rw [hdev]
    exact Logged.refl _

omit [Stack] in
theorem inodeAllocFrom_spec {s : Fs} {t : ℕ} (hh : s.dev.held = []) {Q : Option ℕ → Fs → Prop}
    {E : Halt → Fs → Prop}
    (hfound : ∀ i, 0 < i → i < s.dev.superb.numInodes → (s.dev.inode i).type = 0 →
      wp (cofsGetNode i) Q E { s with dev := s.dev.putInode i (allocInode t) })
    (hnone : (∀ j, 0 < j → j < s.dev.superb.numInodes → (s.dev.inode j).type ≠ 0) →
      E (.panic "No free inodes\n") s)
    {n k : ℕ} (hk : k + n = s.dev.superb.numInodes) (hpos : 0 < k)
    (hbefore : ∀ j, 0 < j → j < k → (s.dev.inode j).type ≠ 0) :
    wp (inodeAllocFrom t n k) Q E s := by
  have hs : ({ s with dev := { s.dev with held := [] } } : Fs) = s := by rw [← hh]
  induction n generalizing k with
  | zero => exact hnone fun j hj hlt => hbefore j hj (by omega)
  | succ n ih =>
    simp only [inodeAllocFrom, wp_bind, wp_read, wp_disk, wp_getHdBuf, hh,
      List.not_mem_nil, if_false, wp_ite, wp_setBuf, wp_putHdBuf, List.erase_cons_head]
    rw [show getInode (s.dev.disk (s.dev.superb.inoBlk k)) (k % 8) = s.dev.inode k from rfl]
    by_cases h0 : (s.dev.inode k).type = 0
    · rw [if_pos h0]
      have := hfound k hpos (by omega) h0
      unfold Dev.putInode at this
      rw [hh] at this
      exact this
    · rw [if_neg h0, hs]
      refine ih (by omega) (by omega) fun j hj hlt => ?_
      rcases (by omega : j < k ∨ j = k) with hjk | rfl
      · exact hbefore j hj hjk
      · exact h0

/-- No inode is free, there is no room for a node, or a node of this type cannot be locked. -/
def AllocFails (t : ℕ) (s : Fs) : Prop :=
  (∀ j, 0 < j → j < s.dev.superb.numInodes → s.Allocated j) ∨ (∃ i, s.CacheFull i) ∨
    t &&& 0xF000 = 0

/-- **`inode_alloc` and the first lock of the new node.** The inode was free, and nobody had a
reference to it. -/
theorem alloc_spec {s : Fs} {t : ℕ} (h : Inv s) (hq : Quiet s) {E : Halt → Fs → Prop}
    (hE : ∀ e s', AllocFails t s → Logged s.dev s'.dev → (e = .panic "No free inodes\n" →
      ∀ j, 0 < j → j < s.dev.superb.numInodes → s.Allocated j) → E e s') :
    wp (inodeAlloc t) (fun r s₁ => wp (cofsLock r) (fun _ s' => ∃ i, r = some i ∧ 0 < i ∧
        i < s.dev.superb.numInodes ∧ s.file i = none ∧ s.refs i = 0 ∧ ∃ name,
          Turn i s s' { (freshNode i).load (allocInode t) with name := name, lock := true } []
            (allocInode t))
      E s₁) E s := by
  have htype : ∀ j, s.Loaded j → (s.dev.inode j).type ≠ 0 := by
    intro j hl
    rw [hq.clean j hl]
    exact ((h.each j).fits hl).pack_type_ne_zero hl.2
  simp only [inodeAlloc, wp_bind, wp_read]
  refine inodeAllocFrom_spec h.held (fun i hpos hlt hfree => ?_) (fun hall => ?_)
    (by have := h.sound.layout.root; omega)
    (by decide) fun j h1 h2 => by omega
  · have hl : ¬ s.Loaded i := fun hl => htype i hl hfree
    have hrefs : s.refs i = 0 := by
      by_contra hr
      exact hl (h.loaded hr)
    have hfile : s.file i = none :=
      Fs.file_eq_none.mpr fun ha => ha.2 (by rw [Fs.record_of_not_loaded hl, hfree])
    obtain ⟨hinv, hrest⟩ := h.claim hlt hl hfree t
    generalize hs₁ : ({ s with dev := s.dev.putInode i (allocInode t) } : Fs) = s₁ at hinv hrest ⊢
    have hrefs₁ : s₁.refs i = 0 := by
      rw [← hs₁]
      exact hrefs
    have hl₁ : ¬ s₁.Loaded i := by
      rw [← hs₁]
      exact hl
    have hino : s₁.dev.inode i = allocInode t := by
      rw [← hs₁]
      exact Dev.inode_putInode_self _ _ (allocInode_fits t)
    have hcore : s₁.core i = (freshNode i).load (allocInode t) := by
      unfold Fs.core
      rw [if_neg hl₁, hino]
    refine (acquire_spec hinv hpos (by rw [hrest.superb]; exact hlt)
      (fun e s' he hd hf => hE e s' ?_ ?_ fun e' => absurd e' he)).mono
      (fun r s₂ hw => hw.mono (fun _ s' hQ => ?_) fun _ _ he => he) fun _ _ he => he
    · rcases hf with hfull | hlock | htype
      · rw [← hs₁] at hfull
        exact .inr (.inl ⟨i, hfull⟩)
      · exact absurd hrefs₁ hlock.1
      · rw [Fs.record_of_not_loaded hl₁, hino] at htype
        refine .inr (.inr ?_)
        rwa [show (allocInode t).type = t &&& 0xF000 from rfl, Nat.and_assoc, Nat.and_self] at htype
    · rw [hd]
      exact hrest.logged
    · obtain ⟨rfl, -, -, name, -, ht⟩ := hQ
      refine ⟨i, rfl, hpos, hlt, hfile, hrefs, name, ?_⟩
      rw [hcore, hrefs₁, hino] at ht
      have htext : s₁.text i = [] := by
        unfold Fs.text
        rw [hcore]
        rfl
      rw [htext] at ht
      exact ⟨ht.inv, hrest.trans ht.rest, ht.mem, ht.node, ht.data, ht.inode⟩
  · have hused : ∀ j, 0 < j → j < s.dev.superb.numInodes → s.Allocated j := by
      intro j hpos hlt
      refine ⟨hlt, ?_⟩
      by_cases hl : s.Loaded j
      · rw [Fs.record_of_loaded hl, ← hq.clean j hl]
        exact hall j hpos hlt
      · rw [Fs.record_of_not_loaded hl]
        exact hall j hpos hlt
    exact hE _ _ (.inl hused) (Logged.refl _) fun _ => hused

end Cosiris.Cofs
