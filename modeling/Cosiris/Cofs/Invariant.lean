import Cosiris.Cofs.Entries

/-!
# The invariant of the file system

What holds between the steps of an operation: the bitmap and the tables agree, every
file has the blocks that its size asks for, the entries of directories name inodes of
the partition, and a node that nobody refers to says what its record on the disk says,
so that it may be recycled. A node that is referred to may be locked, and may differ
from its record, until the operation that has it is done.

`Rest T s s'` says that from `s` to `s'` only the inodes in `T` have changed.
-/

namespace Cosiris.Cofs

open Function Prog

variable [Stack]

/-! ### The invariant -/

/-- Only the blocks of files and metadata are marked. -/
abbrev Marked (d : Dev) (A : ℕ → ℕ → ℕ) : Prop := Sound (fun _ => False) d A

/-- The file is not a directory, or a whole number of entries that name inodes of the
partition. -/
def File.DirOk (numInodes : ℕ) (f : File) : Prop :=
  f.type &&& 0x4000 ≠ 0 → f.data.length % 32 = 0 ∧ ∀ e ∈ slots f.data, e.inode < numInodes

/-- The part of the invariant that is about one inode. -/
structure NodeOk (s : Fs) (i : ℕ) : Prop where
  inode : i ∈ s.cache → (s.node i).inode = i ∧ 0 < i ∧ i < s.dev.superb.numInodes
  fits : s.Loaded i → (s.node i).Fits
  live : i ∈ s.cache → (s.node i).refCount ≠ 0 → (s.node i).type ≠ 0
  unlocked : i ∈ s.cache → (s.node i).refCount = 0 → (s.node i).lock = false
  clean : s.Loaded i → (s.node i).refCount = 0 → s.dev.inode i = (s.node i).pack
  shaped : s.Allocated i → Shaped s.dev.disk (s.record i).addrs (s.record i).size
  dir : ∀ f, s.file i = some f → f.DirOk s.dev.superb.numInodes

/-- **The invariant.** -/
structure Inv (s : Fs) : Prop where
  sound : Marked s.dev s.table
  held : s.dev.held = []
  boot : s.dev.disk 0 = zeroBlock
  cacheLock : s.cacheLock = false
  nodup : s.cache.Nodup
  length : s.cache.length ≤ maxCachedNodes
  each : ∀ i, NodeOk s i

/-- Nodes at rest: unlocked and written back. -/
structure Quiet (s : Fs) : Prop where
  unlocked : ∀ i ∈ s.cache, (s.node i).lock = false
  clean : ∀ i, s.Loaded i → s.dev.inode i = (s.node i).pack

/-! ### Equal records -/

section

variable {s s' : Fs} {j : ℕ}

omit [Stack] in
theorem Fs.record_congr (hc : s'.cache = s.cache) (hn : s'.node j = s.node j)
    (hd : s'.dev.inode j = s.dev.inode j) :
    s'.record j = s.record j := by
  have hl : s'.Loaded j ↔ s.Loaded j := by
    unfold Fs.Loaded
    rw [hc, hn]
  unfold Fs.record
  rw [hn, hd]
  exact if_congr hl rfl rfl

omit [Stack] in
theorem Fs.allocated_congr (hs : s'.dev.superb = s.dev.superb)
    (hr : j < s.dev.superb.numInodes → s'.record j = s.record j) : s'.Allocated j ↔
    s.Allocated j := by
  unfold Fs.Allocated
  rw [hs]
  exact and_congr_right fun hlt => by rw [hr hlt]

omit [Stack] in
theorem Fs.table_congr (hs : s'.dev.superb = s.dev.superb)
    (hr : j < s.dev.superb.numInodes → s'.record j = s.record j) : s'.table j = s.table j := by
  have ha := Fs.allocated_congr hs hr
  by_cases h : s.Allocated j
  · rw [Fs.table_of_allocated h, Fs.table_of_allocated (ha.mpr h), hr h.1]
  · unfold Fs.table
    rw [if_neg h, if_neg fun h' => h (ha.mp h')]

end

/-! ### References -/

omit [Stack] in
theorem Fs.refs_of_mem {s : Fs} {i : ℕ} (h : i ∈ s.cache) :
    s.refs i = (s.node i).refCount := if_pos h

omit [Stack] in
theorem Fs.refs_of_not_mem {s : Fs} {i : ℕ} (h : i ∉ s.cache) : s.refs i = 0 := if_neg h

omit [Stack] in
theorem Fs.mem_of_refs {s : Fs} {i : ℕ} (h : s.refs i ≠ 0) : i ∈ s.cache := by
  by_contra hn
  exact h (Fs.refs_of_not_mem hn)

section

variable {s : Fs} {i : ℕ}

omit [Stack] in
theorem Inv.refCount (hr : s.refs i ≠ 0) : (s.node i).refCount ≠ 0 := by
  rwa [← Fs.refs_of_mem (Fs.mem_of_refs hr)]

theorem Inv.loaded (h : Inv s) (hr : s.refs i ≠ 0) : s.Loaded i :=
  ⟨Fs.mem_of_refs hr, (h.each i).live (Fs.mem_of_refs hr) (Inv.refCount hr)⟩

theorem Inv.inode_eq (h : Inv s) (hr : s.refs i ≠ 0) : (s.node i).inode = i :=
    ((h.each i).inode (Fs.mem_of_refs hr)).1

theorem Inv.pos (h : Inv s) (hr : s.refs i ≠ 0) : 0 < i :=
    ((h.each i).inode (Fs.mem_of_refs hr)).2.1

theorem Inv.lt (h : Inv s) (hr : s.refs i ≠ 0) : i < s.dev.superb.numInodes :=
  ((h.each i).inode (Fs.mem_of_refs hr)).2.2

theorem Inv.fits (h : Inv s) (hr : s.refs i ≠ 0) : (s.node i).Fits := (h.each i).fits (h.loaded hr)

theorem Inv.allocated (h : Inv s) (hr : s.refs i ≠ 0) : s.Allocated i :=
  Fs.allocated_of_loaded (h.loaded hr) (h.fits hr) (h.lt hr)

theorem Inv.table_eq (h : Inv s) (hr : s.refs i ≠ 0) : s.table i = (s.node i).addrs :=
  Fs.table_of_loaded (h.loaded hr) (h.fits hr) (h.lt hr)

theorem Inv.node_shaped (h : Inv s) (hr : s.refs i ≠ 0) :
    Shaped s.dev.disk (s.node i).addrs (s.node i).size := by
  have := (h.each i).shaped (h.allocated hr)
  rwa [Fs.record_of_loaded (h.loaded hr), (h.fits hr).pack_addrs, (h.fits hr).pack_size] at this

/-- The file of a node that is referred to. -/
theorem Inv.file_eq (h : Inv s) (hr : s.refs i ≠ 0) :
    s.file i = some ((s.node i).pack.file (s.data i)) := by
  rw [Fs.file_of_allocated (h.allocated hr), Fs.record_of_loaded (h.loaded hr),
    (h.fits hr).pack_addrs, (h.fits hr).pack_size]
  rfl

end

/-! ### What an operation leaves alone -/

/-- From `s` to `s'` only the inodes in `T` have changed, and what was freed was in use. -/
structure Rest (T : ℕ → Prop) (s s' : Fs) : Prop where
  superb : s'.dev.superb = s.dev.superb
  logged : Logged s.dev s'.dev
  inode : ∀ j, ¬ T j → j < s.dev.superb.numInodes → s'.dev.inode j = s.dev.inode j
  file : ∀ j, ¬ T j → s'.file j = s.file j
  refs : ∀ j, ¬ T j → s'.refs j = s.refs j
  cached : ∀ j, ¬ T j → j ∈ s'.cache → j ∈ s.cache ∧ s'.node j = s.node j

section

variable {T T' : ℕ → Prop} {s s₁ s' : Fs}

omit [Stack] in
/-- A node that is referred to and left alone. -/
theorem Rest.node (h : Rest T s s') {j : ℕ} (hj : ¬ T j) (hr : s.refs j ≠ 0) :
    s'.node j = s.node j :=
  (h.cached j hj (Fs.mem_of_refs (by rwa [h.refs j hj]))).2

omit [Stack] in
theorem Rest.refl (T : ℕ → Prop) (s : Fs) : Rest T s s where
  superb := rfl
  logged := Logged.refl _
  inode := fun _ _ _ => rfl
  file := fun _ _ => rfl
  refs := fun _ _ => rfl
  cached := fun _ _ hin => ⟨hin, rfl⟩

omit [Stack] in
theorem Rest.trans (h : Rest T s s₁) (h' : Rest T s₁ s') : Rest T s s' where
  superb := h'.superb.trans h.superb
  logged := h.logged.trans h.superb h'.logged
  inode := fun j hj hlt => (h'.inode j hj (by rwa [h.superb])).trans (h.inode j hj hlt)
  file := fun j hj => (h'.file j hj).trans (h.file j hj)
  refs := fun j hj => (h'.refs j hj).trans (h.refs j hj)
  cached := by
    intro j hj hin
    obtain ⟨hin₁, e₁⟩ := h'.cached j hj hin
    obtain ⟨hin₂, e₂⟩ := h.cached j hj hin₁
    exact ⟨hin₂, e₁.trans e₂⟩

omit [Stack] in
theorem Rest.mono (h : Rest T s s') (hT : ∀ j, T j → T' j) : Rest T' s s' where
  superb := h.superb
  logged := h.logged
  inode := fun j hj => h.inode j fun ht => hj (hT j ht)
  file := fun j hj => h.file j fun ht => hj (hT j ht)
  refs := fun j hj => h.refs j fun ht => hj (hT j ht)
  cached := fun j hj => h.cached j fun ht => hj (hT j ht)

/-- The nodes come to rest if those that have changed do. -/
theorem Rest.quiet (h : Rest T s s') (hs' : Inv s') (hq : Quiet s)
    (hT : ∀ j, T j → s'.refs j ≠ 0 → (s'.node j).lock = false ∧ s'.dev.inode j = (s'.node j).pack) :
    Quiet s' := by
  have hboth : ∀ j, j ∈ s'.cache → (s'.node j).lock = false ∧
    (s'.Loaded j → s'.dev.inode j = (s'.node j).pack) := by
    intro j hin
    by_cases h0 : (s'.node j).refCount = 0
    · exact ⟨(hs'.each j).unlocked hin h0, fun hl => (hs'.each j).clean hl h0⟩
    · have hr : s'.refs j ≠ 0 := by rwa [Fs.refs_of_mem hin]
      by_cases ht : T j
      · exact ⟨(hT j ht hr).1, fun _ => (hT j ht hr).2⟩
      · obtain ⟨hin₁, e⟩ := h.cached j ht hin
        rw [e]
        refine ⟨hq.unlocked j hin₁, fun hl => ?_⟩
        have hlt := ((hs'.each j).inode hin).2.2
        rw [h.superb] at hlt
        rw [h.inode j ht hlt]
        exact hq.clean j ⟨hin₁, by rw [← e]; exact hl.2⟩
  exact ⟨fun j hin => (hboth j hin).1, fun j hl => (hboth j hl.1).2 hl⟩

/-- The contents of an open file that is left alone. -/
theorem Rest.data (h : Rest T s s') (hs : Inv s) (hs' : Inv s') {j : ℕ} (hj : ¬ T j)
    (hr : s.refs j ≠ 0) :
    s'.data j = s.data j := by
  have e := h.file j hj
  rw [hs.file_eq hr, hs'.file_eq (by rwa [h.refs j hj])] at e
  exact congrArg File.data (Option.some.inj e)

end

/-! ### One inode changes -/

section

variable {s s' : Fs} {i : ℕ}

omit [Stack] in
/-- What the other inodes keep. -/
theorem others_of_frame (hf : Frame (fun _ => False) s.dev s.table i s'.dev s'.table)
    (hc : s'.cache = s.cache)
    (hn : ∀ j, j ≠ i → s'.node j = s.node j) {j : ℕ} (hj : j ≠ i) :
    (s'.Loaded j ↔ s.Loaded j) ∧ (j < s.dev.superb.numInodes → s'.record j = s.record j) ∧
      (s'.Allocated j ↔ s.Allocated j) := by
  have hl : s'.Loaded j ↔ s.Loaded j := by
    unfold Fs.Loaded
    rw [hc, hn j hj]
  have hrec : j < s.dev.superb.numInodes → s'.record j = s.record j := fun hlt =>
    Fs.record_congr hc (hn j hj) (hf.inodes j hj hlt)
  exact ⟨hl, hrec, Fs.allocated_congr hf.superb hrec⟩

theorem file_of_frame (h : Inv s) (hf : Frame (fun _ => False) s.dev s.table i s'.dev s'.table)
    (hc : s'.cache = s.cache) (hn : ∀ j, j ≠ i → s'.node j = s.node j) {j : ℕ} (hj : j ≠ i) :
    s'.file j = s.file j := by
  obtain ⟨-, hrec, halloc⟩ := others_of_frame hf hc hn hj
  unfold Fs.file
  by_cases ha : s.Allocated j
  · rw [if_pos ha, if_pos (halloc.mpr ha), hrec ha.1]
    have htab := Fs.table_of_allocated ha
    have hfill : Filled s.dev.disk (s.table j) (s.record j).size := by
      rw [htab]
      exact ((h.each j).shaped ha).filled
    have := hf.contents hj hfill
    rw [hf.table j hj, htab] at this
    rw [this]
  · rw [if_neg ha, if_neg fun ha' => ha (halloc.mp ha')]

/-- **One inode and its blocks change**: the invariant has to be shown for that inode only. -/
theorem Inv.step (h : Inv s) (hf : Frame (fun _ => False) s.dev s.table i s'.dev s'.table)
    (hc : s'.cache = s.cache)
    (hl : s'.cacheLock = false) (hn : ∀ j, j ≠ i → s'.node j = s.node j) (hi : NodeOk s' i) :
    Inv s' where
  sound := hf.sound
  held := hf.held.trans h.held
  boot := hf.boot.trans h.boot
  cacheLock := hl
  nodup := hc ▸ h.nodup
  length := hc ▸ h.length
  each := by
    intro j
    by_cases hj : j = i
    · exact hj ▸ hi
    · obtain ⟨hload, hrec, halloc⟩ := others_of_frame hf hc hn hj
      have hfile := file_of_frame h hf hc hn hj
      obtain ⟨h1, h2, h3, h4, h5, h6, h7⟩ := h.each j
      refine ⟨?_, ?_, ?_, ?_, ?_, fun ha => ?_, ?_⟩
      · rwa [hc, hn j hj, hf.superb]
      · rwa [hload, hn j hj]
      · rwa [hc, hn j hj]
      · rwa [hc, hn j hj]
      · intro hlj
        have hlj := hload.mp hlj
        rw [hn j hj, hf.inodes j hj (h1 hlj.1).2.2]
        exact h5 hlj
      · have ha := halloc.mp ha
        have htab := Fs.table_of_allocated ha
        have := hf.shaped hj (by rw [htab]; exact h6 ha)
        rwa [hf.table j hj, htab, ← hrec ha.1] at this
      · rwa [hfile, hf.superb]

theorem rest_of_frame (h : Inv s) (hf : Frame (fun _ => False) s.dev s.table i s'.dev s'.table)
    (hc : s'.cache = s.cache) (hn : ∀ j, j ≠ i → s'.node j = s.node j)
    (hlog : Logged s.dev s'.dev) :
    Rest (· = i) s s' where
  superb := hf.superb
  logged := hlog
  inode := hf.inodes
  file := fun _ hj => file_of_frame h hf hc hn hj
  refs := by
    intro j hj
    unfold Fs.refs
    rw [hc, hn j hj]
  cached := fun j hj hin => ⟨hc ▸ hin, hn j hj⟩

end

/-! ### The cache changes -/

/-- **The cache changes around one inode**, whose record stays: nodes that are referred to stay, and
no file changes. -/
theorem Inv.recache {s s' : Fs} {i : ℕ} (h : Inv s) (hd : s'.dev = s.dev)
    (hl : s'.cacheLock = false) (hnd : s'.cache.Nodup) (hlen : s'.cache.length ≤ maxCachedNodes)
    (hsub : ∀ j, j ≠ i → j ∈ s'.cache → j ∈ s.cache)
    (hkeep : ∀ j, j ≠ i → j ∈ s.cache → (s.node j).refCount ≠ 0 → j ∈ s'.cache)
    (hn : ∀ j, j ≠ i → s'.node j = s.node j)
    (hrec : i < s.dev.superb.numInodes → s'.record i = s.record i)
    (hinode : i ∈ s'.cache → (s'.node i).inode = i ∧ 0 < i ∧ i < s'.dev.superb.numInodes)
    (hfits : s'.Loaded i → (s'.node i).Fits)
    (hlive : i ∈ s'.cache → (s'.node i).refCount ≠ 0 → (s'.node i).type ≠ 0)
    (hunl : i ∈ s'.cache → (s'.node i).refCount = 0 → (s'.node i).lock = false)
    (hclean : s'.Loaded i → (s'.node i).refCount = 0 → s'.dev.inode i = (s'.node i).pack) :
    Inv s' ∧ Rest (· = i) s s' ∧ s'.file = s.file := by
  have hrecAll : ∀ j, j < s.dev.superb.numInodes → s'.record j = s.record j := by
    intro j hlt
    by_cases hj : j = i
    · exact hj ▸ hrec (hj ▸ hlt)
    · by_cases hlj : s.Loaded j
      · by_cases hin : j ∈ s'.cache
        · have hlj' : s'.Loaded j := ⟨hin, by rw [hn j hj]; exact hlj.2⟩
          rw [Fs.record_of_loaded hlj, Fs.record_of_loaded hlj', hn j hj]
        · -- a node that has been recycled had been written back
          have h0 : (s.node j).refCount = 0 := by
            by_contra hr
            exact hin (hkeep j hj hlj.1 hr)
          rw [Fs.record_of_loaded hlj, Fs.record_of_not_loaded fun hlj' => hin hlj'.1, hd,
            (h.each j).clean hlj h0]
      · have hlj' : ¬ s'.Loaded j := by
          rintro ⟨hin, hty⟩
          rw [hn j hj] at hty
          exact hlj ⟨hsub j hj hin, hty⟩
        rw [Fs.record_of_not_loaded hlj, Fs.record_of_not_loaded hlj', hd]
  have hsuper : s'.dev.superb = s.dev.superb := by rw [hd]
  have halloc := fun j => Fs.allocated_congr hsuper (hrecAll j)
  have hfile : s'.file = s.file := by
    funext j
    unfold Fs.file
    by_cases ha : s.Allocated j
    · rw [if_pos ha, if_pos ((halloc j).mpr ha), hrecAll j ha.1, hd]
    · rw [if_neg ha, if_neg fun ha' => ha ((halloc j).mp ha')]
  have htab : s'.table = s.table := funext fun j => Fs.table_congr hsuper (hrecAll j)
  have hshape : ∀ j, s'.Allocated j →
    Shaped s'.dev.disk (s'.record j).addrs (s'.record j).size := by
    intro j ha
    rw [hrecAll j ((halloc j).mp ha).1, hd]
    exact (h.each j).shaped ((halloc j).mp ha)
  have hdir : ∀ j f, s'.file j = some f → f.DirOk s'.dev.superb.numInodes := by
    intro j f hf
    rw [hfile] at hf
    rw [hd]
    exact (h.each j).dir f hf
  refine ⟨⟨?_, ?_, ?_, hl, hnd, hlen, fun j => ?_⟩,
    ⟨hsuper, ?_, ?_, ?_, fun j hj => ?_, fun j hj hin => ⟨hsub j hj hin, hn j hj⟩⟩, hfile⟩
  · rw [hd, htab]
    exact h.sound
  · rw [hd]
    exact h.held
  · rw [hd]
    exact h.boot
  · by_cases hj : j = i
    · subst hj
      exact ⟨hinode, hfits, hlive, hunl, hclean, hshape j, hdir j⟩
    · obtain ⟨h1, h2, h3, h4, h5, -, -⟩ := h.each j
      have hload : s'.Loaded j → s.Loaded j := by
        rintro ⟨hin, hty⟩
        rw [hn j hj] at hty
        exact ⟨hsub j hj hin, hty⟩
      refine ⟨fun hin => ?_, fun hlj => ?_, fun hin => ?_, fun hin => ?_, fun hlj => ?_, hshape j,
        hdir j⟩
      · rw [hn j hj, hd]
        exact h1 (hsub j hj hin)
      · rw [hn j hj]
        exact h2 (hload hlj)
      · rw [hn j hj]
        exact h3 (hsub j hj hin)
      · rw [hn j hj]
        exact h4 (hsub j hj hin)
      · rw [hn j hj, hd]
        exact h5 (hload hlj)
  · rw [hd]
    exact Logged.refl _
  · intro j _ _
    rw [hd]
  · intro j _
    rw [hfile]
  · by_cases hin : j ∈ s.cache
    · by_cases hr : (s.node j).refCount = 0
      · rw [Fs.refs_of_mem hin, hr]
        by_cases hin' : j ∈ s'.cache
        · rw [Fs.refs_of_mem hin', hn j hj, hr]
        · exact Fs.refs_of_not_mem hin'
      · rw [Fs.refs_of_mem hin, Fs.refs_of_mem (hkeep j hj hin hr), hn j hj]
    · rw [Fs.refs_of_not_mem hin, Fs.refs_of_not_mem fun hin' => hin (hsub j hj hin')]

end Cosiris.Cofs
