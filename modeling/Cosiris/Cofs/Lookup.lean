import Cosiris.Cofs.Nodes

/-!
# Lookup and insertion

What `cofs_finddir` and `cofs_dirlink` do, in terms of the list of entries of the
directory.
-/

namespace Cosiris.Cofs

open Function Prog

variable [Stack]

/-! ### Lookup in a list of entries -/

/-- The inode number that the first entry with the name has, `0` if there is none. -/
def lookup (l : List Dirent) (name : CStr) : ℕ :=
  match l.find? fun e => e.name = name with
  | some e => e.inode
  | none => 0

omit [Stack] in
theorem lookup_of_first {l : List Dirent} {name : CStr} {k : ℕ} (hk : k < l.length)
    (h : l[k].name = name)
    (hj : ∀ j (h : j < k), (l.get ⟨j, by omega⟩).name ≠ name) : lookup l name = l[k].inode := by
  have : l.find? (fun e => e.name = name) = some l[k] := by
    refine List.find?_eq_some_iff_getElem.mpr ⟨by simpa using h, k, hk, rfl, fun j hjk => ?_⟩
    simpa using hj j hjk
  unfold lookup
  rw [this]

omit [Stack] in
theorem lookup_of_none {l : List Dirent} {name : CStr} (h : ∀ e ∈ l, e.name ≠ name) :
    lookup l name = 0 := by
  have : l.find? (fun e => e.name = name) = none :=
    List.find?_eq_none.mpr fun e he => by simpa using h e he
  unfold lookup
  rw [this]

omit [Stack] in
/-- An inode number that is found comes from an entry. -/
theorem mem_of_lookup {l : List Dirent} {name : CStr} {i : ℕ} (h : lookup l name = i) (hi : i ≠ 0) :
    ⟨i, name⟩ ∈ l := by
  unfold lookup at h
  cases hf : l.find? fun e => e.name = name with
  | none =>
    rw [hf] at h
    exact absurd h.symm hi
  | some e =>
    rw [hf] at h
    have hname : e.name = name := by simpa using List.find?_some hf
    have he := List.mem_of_find?_eq_some hf
    have : e = ⟨i, name⟩ := by
      cases e
      cases h
      cases hname
      rfl
    exact this ▸ he

/-! ### `cofs_finddir` -/

section

variable {s : Fs} {p : ℕ}

omit [Stack] in
/-- The bit of directories of the type of a node is in the type of its record. -/
theorem pack_type_dir {n : FsNode} (h : n.type &&& 0x4000 ≠ 0) : n.pack.type &&& 0x4000 ≠ 0 := by
  intro h0
  apply h
  refine Nat.eq_of_testBit_eq fun k => ?_
  have hk := congrArg (fun v => v.testBit k) h0
  have hpack : n.pack.type = ((n.type &&& 0xF000) ||| n.mask) % 2 ^ 16 := rfl
  rw [hpack] at hk
  simp only [Nat.testBit_and, Nat.testBit_mod_two_pow, Nat.testBit_or, Nat.zero_testBit] at hk ⊢
  by_cases h14 : k = 14
  · subst h14
    have h1 : (0xF000 : ℕ).testBit 14 = true := by decide
    have h2 : (0x4000 : ℕ).testBit 14 = true := by decide
    rw [h1, h2] at hk
    rw [h2]
    simp only [Bool.and_true, Nat.reduceLT, decide_true, Bool.true_and,
      Bool.or_eq_false_iff] at hk ⊢
    exact hk.1
  · have : (0x4000 : ℕ).testBit k = false := by
      rw [show (0x4000 : ℕ) = 2 ^ 14 from rfl, Nat.testBit_two_pow_of_ne fun e => h14 e.symm]
    rw [this, Bool.and_false]

/-- The file of a node that has been loaded. -/
theorem Inv.file_loaded (h : Inv s) (hp : s.Loaded p) :
    s.file p = some ((s.node p).pack.file (s.data p)) := by
  have ha := Fs.allocated_of_loaded hp ((h.each p).fits hp) ((h.each p).inode hp.1).2.2
  rw [h.file_core ha]
  unfold Fs.text Fs.data
  rw [Fs.core_of_loaded hp]

theorem Inv.shaped_loaded (h : Inv s) (hp : s.Loaded p) :
    Shaped s.dev.disk (s.node p).addrs (s.node p).size := by
  have hfit := (h.each p).fits hp
  have := (h.each p).shaped (Fs.allocated_of_loaded hp hfit ((h.each p).inode hp.1).2.2)
  rwa [Fs.record_of_loaded hp, hfit.pack_addrs, hfit.pack_size] at this

/-- The entries of a directory that has been loaded. -/
theorem Inv.dir_loaded (h : Inv s) (hp : s.Loaded p) (hd : (s.node p).type &&& 0x4000 ≠ 0) :
    (s.node p).size % 32 = 0 ∧ ∀ e ∈ slots (s.data p), e.inode < s.dev.superb.numInodes := by
  have := (h.each p).dir _ (h.file_loaded hp) (pack_type_dir hd)
  rwa [show ((s.node p).pack.file (s.data p)).data = s.data p from rfl, Fs.length_data] at this

/-- The entries of an open directory. -/
theorem Inv.dir_ok (h : Inv s) (hr : s.refs p ≠ 0) (hd : (s.node p).type &&& 0x4000 ≠ 0) :
    (s.node p).size % 32 = 0 ∧ ∀ e ∈ slots (s.data p), e.inode < s.dev.superb.numInodes :=
  h.dir_loaded (h.loaded hr) hd

/-- What makes `cofs_finddir` halt: the node is not a directory; or there is no room for the node
that is found, or the process holds its lock, or its record has no type. -/
def FindFails (s : Fs) (p : ℕ) (name : CStr) : Prop :=
  (s.node p).type &&& 0x4000 = 0 ∨ lookup (slots (s.data p)) name ≠ 0 ∧
    (s.CacheFull (lookup (slots (s.data p)) name) ∨
      (s.refs (lookup (slots (s.data p)) name) ≠ 0 ∧
        (s.node (lookup (slots (s.data p)) name)).lock =
        true) ∨
      (s.record (lookup (slots (s.data p)) name)).type &&& 0xF000 = 0)

/-- **`cofs_finddir`** returns the node of the inode that the directory has under the name, with one
more reference. The directory itself need not be referred to. -/
theorem finddir_loaded {name : CStr} (h : Inv s) (hp : s.Loaded p) {Q : Option ℕ → Fs → Prop}
    {E : Halt → Fs → Prop}
    (hE : ∀ e s', e ≠ .panic "No free inodes\n" → s'.dev = s.dev → FindFails s p name → E e s')
    (hnone : (s.node p).type &&& 0x4000 ≠ 0 → lookup (slots (s.data p)) name = 0 → Q none s)
    (hsome : ∀ i, (s.node p).type &&& 0x4000 ≠ 0 → lookup (slots (s.data p)) name = i → i ≠ 0 →
      i < s.dev.superb.numInodes → ¬ (s.refs i ≠ 0 ∧ (s.node i).lock = true) →
        ∀ s', s'.file = s.file →
        ∀ nm,
      (i ≠ 1 → nm = name.take 255) → (i = 1 → s.refs i ≠ 0 → nm = (s.node i).name) →
      Turn i s s' { s.core i with name := nm, refCount := s.refs i + 1, lock := false } (s.text i)
        (s.dev.inode i) →
      Q (some i) s') :
    wp (cofsFinddir p name) Q E s := by
  simp only [cofsFinddir, wp_bind, wp_getNode, wp_ite, wp_halt]
  by_cases hd : (s.node p).type &&& 0x4000 = 0
  · rw [if_pos hd]
    exact hE _ _ (by decide) rfl (.inl hd)
  · rw [if_neg hd]
    obtain ⟨hsize, hslots⟩ := h.dir_loaded hp hd
    have hfill := (h.shaped_loaded hp).filled
    refine scanDir_spec h.held hfill hsize (fun k hk ht hj buf hbuf => ?_) fun hall buf => ?_
    · have hl : lookup (slots (s.data p)) name = (slots (s.data p))[k].inode :=
        lookup_of_first hk (by simpa using ht) fun j hjk => by simpa using hj j hjk
      simp only [if_true, hbuf]
      by_cases h0 : (slots (s.data p))[k].inode = 0
      · rw [if_pos h0]
        exact hnone hd (hl.trans h0)
      · rw [if_neg h0]
        have hlt : (slots (s.data p))[k].inode < s.dev.superb.numInodes :=
          hslots _ (List.getElem_mem hk)
        generalize (slots (s.data p))[k].inode = i at hl h0 hlt
        refine (acquire_spec h (Nat.pos_of_ne_zero h0) hlt fun e s' he hdev hc =>
          hE e s' he hdev (.inr ⟨hl ▸ h0, hl ▸ hc⟩)).mono
            (fun r s₁ hw => hw.mono (fun _ s' hq => ?_) fun _ _ he => he)
          fun _ _ he => he
        obtain ⟨rfl, hfree, hfile, name', hname', ht⟩ := hq
        have hr' : s'.refs i ≠ 0 := by
          rw [ht.refs]
          exact Nat.succ_ne_zero _
        have hino : (s'.node i).inode = i := ht.inv.inode_eq hr'
        simp only [deref, wp_pure, wp_modifyNode]
        have hrename :
          Turn i s' (s'.setNode i fun n =>
            if n.inode ≠ 1 then { n with name := name.take 255 } else n)
            { s'.node i with name := if i ≠ 1 then name.take 255 else name' } (s'.data i)
              (s'.dev.inode i) := by
          have e : (if (s'.node i).inode ≠ 1 then { s'.node i with name := name.take 255 }
            else s'.node i) =
              { s'.node i with name := if i ≠ 1 then name.take 255 else name' } := by
            rw [hino]
            by_cases h1 : i = 1
            · rw [if_neg (not_not.mpr h1), if_neg (not_not.mpr h1), ht.node]
            · rw [if_pos h1, if_pos h1]
          rw [← e]
          refine ht.inv.touch hr' ?_ ?_ ?_ ?_ ?_ ?_ <;> rw [e]
          · rfl
          · exact Inv.refCount hr'
        refine (cofsUnlock_spec hrename.inv (fun e => Inv.refCount hr' (hrename.refs.symm.trans e))
          (by rw [hrename.node, ht.node])).mono (fun _ s₂ hu => ?_)
          fun _ _ he => he.elim
        have hfile₂ : s₂.file = s.file := by
          funext j
          by_cases hj : j = i
          · subst hj
            rw [← hfile, hu.file (by rw [hrename.node]; exact Inv.refCount hr'), ht.inv.file_eq hr',
              hrename.node,
              hrename.data]
            rfl
          · rw [hu.rest.file j hj, hrename.rest.file j hj, hfile]
        rw [hrename.node, hrename.data, hrename.inode, ht.node, ht.data, ht.inode] at hu
        refine hsome i hd hl h0 hlt hfree s₂ hfile₂ (if i ≠ 1 then name.take 255 else name')
          (fun h1 => if_pos h1)
          (fun h1 hr => ?_) (ht.trans (hrename.trans hu))
        rw [if_neg (not_not.mpr h1)]
        exact hname' hr
    · exact hnone hd (lookup_of_none fun e he => by simpa using hall e he)

/-- **`cofs_finddir`** returns the node of the inode that the directory has under the name, with one
more reference. -/
theorem finddir_spec {name : CStr} (h : Inv s) (hr : s.refs p ≠ 0) {Q : Option ℕ → Fs → Prop}
    {E : Halt → Fs → Prop}
    (hE : ∀ e s', e ≠ .panic "No free inodes\n" → s'.dev = s.dev → FindFails s p name → E e s')
    (hnone : (s.node p).type &&& 0x4000 ≠ 0 → lookup (slots (s.data p)) name = 0 → Q none s)
    (hsome : ∀ i, (s.node p).type &&& 0x4000 ≠ 0 → lookup (slots (s.data p)) name = i → i ≠ 0 →
      i < s.dev.superb.numInodes → ¬ (s.refs i ≠ 0 ∧ (s.node i).lock = true) →
        ∀ s', s'.file = s.file →
        ∀ nm,
      (i ≠ 1 → nm = name.take 255) → (i = 1 → s.refs i ≠ 0 → nm = (s.node i).name) →
      Turn i s s' { s.core i with name := nm, refCount := s.refs i + 1, lock := false } (s.text i)
        (s.dev.inode i) →
      Q (some i) s') :
    wp (cofsFinddir p name) Q E s := finddir_loaded h (h.loaded hr) hE hnone hsome

end

/-! ### A node that is found and put back -/

/-- Nobody refers to the inode and nothing links to it. -/
def Fs.Orphan (s : Fs) (i : ℕ) : Prop := s.refs i = 0 ∧ (s.core i).numLinks = 0

instance (s : Fs) (i : ℕ) : Decidable (s.Orphan i) := inferInstanceAs (Decidable (_ ∧ _))

/-- The node of inode `i` has been looked up and put back: it is as it was, apart from its name,
unless this was its last put. -/
structure PutBack (i : ℕ) (s s' : Fs) : Prop where
  inv : Inv s'
  rest : Rest (· = i) s s'
  alloc : s.Allocated i
  refs : s'.refs i = if i = 1 ∧ s.refs i = 0 then 1 else s.refs i
  file : s'.file i = if s.Orphan i then (s.core i).remains else s.file i
  sized : s.Orphan i → TruncateOk (s.core i).size
  node : s'.refs i ≠ 0 →
      ∃ name, s'.node i = { s.core i with name := name, refCount := s'.refs i, lock := false }
  clean : s'.refs i ≠ 0 → s'.dev.inode i = (s'.node i).pack

theorem Fs.core_of_refs {s : Fs} {i : ℕ} (h : Inv s) (hr : s.refs i ≠ 0) : s.core i = s.node i :=
  Fs.core_of_loaded (h.loaded hr)

/-- The record on the disk of an inode that is not being changed. -/
theorem Inv.inode_core {s : Fs} {i : ℕ} (h : Inv s)
    (hc : s.refs i ≠ 0 → s.dev.inode i = (s.node i).pack) :
    s.dev.inode i = (s.core i).pack := by
  by_cases hr : s.refs i = 0
  · rw [← Fs.record_eq_pack]
    by_cases hl : s.Loaded i
    · rw [Fs.record_of_loaded hl]
      exact (h.each i).clean hl (by rwa [Fs.refs_of_mem hl.1] at hr)
    · rw [Fs.record_of_not_loaded hl]
  · rw [Fs.core_of_refs h hr]
    exact hc hr

/-- An orphan has a record without links. -/
theorem PutBack.file_eq {s s' : Fs} {i : ℕ} (h : PutBack i s s') (hs : Inv s)
    (hl : ∀ f, s.file i = some f → f.numLinks ≠ 0) : s'.file i = s.file i := by
  rw [h.file, if_neg fun ho => ?_]
  refine hl _ (hs.file_core h.alloc) ?_
  show (s.core i).numLinks % 2 ^ 16 = 0
  rw [ho.2, Nat.zero_mod]

/-- The node of an inode that had references. -/
theorem PutBack.node_eq {s s' : Fs} {i : ℕ} (h : PutBack i s s') (hs : Inv s) (hr : s.refs i ≠ 0)
    (hl : (s.node i).lock = false) : ∃ name, s'.node i = { s.node i with name := name } := by
  have hrefs : s'.refs i = s.refs i := by rw [h.refs, if_neg fun hc => hr hc.2]
  obtain ⟨name, hn⟩ := h.node (by rwa [hrefs])
  refine ⟨name, ?_⟩
  rw [hn, Fs.core_of_refs hs hr, hrefs, Fs.refs_of_mem (Fs.mem_of_refs hr)]
  simp only [hl]

theorem putBack_spec {s s₁ : Fs} {i : ℕ} {nm : CStr} (h : Inv s)
    (hc : s.refs i ≠ 0 → s.dev.inode i = (s.node i).pack)
    (hroot : s.Orphan i → i ≠ 1) (hf : s₁.file = s.file)
    (ht : Turn i s s₁
      { s.core i with name := nm, refCount := s.refs i + 1, lock := false } (s.text i)
      (s.dev.inode i)) :
    wp (cofsPutNode i) (fun _ s' => PutBack i s s')
      (fun e _ => e ≠ .panic "No free inodes\n" ∧ s.Orphan i ∧
        ¬ TruncateOk (s.core i).size) s₁ := by
  have hrefs := ht.refs
  have hr₁ : s₁.refs i ≠ 0 := by
    rw [hrefs]
    exact Nat.succ_ne_zero _
  have hlast : s₁.Last i ↔ s.Orphan i := by
    unfold Fs.Last Fs.Orphan
    rw [hrefs, ht.node]
    exact and_congr_left' (by simp)
  refine (put_spec ht.inv hr₁ (by rw [ht.node]) (by rw [ht.inode, ht.node, h.inode_core hc]; rfl)
    fun hl => hroot (hlast.mp hl)).mono (fun _ s' hp => ?_) fun e _ he => ?_
  · obtain ⟨hinv, hrest, hok, hrefs', hfile, hnode⟩ := hp
    have hone : i = 1 ∧ s₁.refs i = 1 ↔ i = 1 ∧ s.refs i = 0 := by
      rw [hrefs]
      exact and_congr_right' (by simp)
    have halloc : s.Allocated i := by
      by_contra ha
      have := Fs.file_eq_none.mpr ha
      rw [← hf, ht.inv.file_eq hr₁] at this
      cases this
    refine ⟨hinv, ht.rest.trans hrest, halloc, ?_,
      ?_, fun ho => ?_, fun hr => ⟨nm, ?_⟩, fun hr => (hnode hr).2⟩
    · rw [hrefs', if_congr hone rfl rfl, hrefs]
      rfl
    · rw [hfile, if_congr hlast rfl rfl, hf, ht.node]
      rfl
    · have := hok (hlast.mpr ho)
      rwa [ht.node] at this
    · rw [(hnode hr).1, ht.node]
  · rw [ht.node] at he
    exact ⟨he.1, hlast.mp he.2.1, he.2.2⟩

/-! ### `cofs_dirlink` -/

omit [Stack] in
/-- A write past the largest size writes nothing. -/
theorem wp_write_past {s : Fs} {i offset : ℕ} {bs : List UInt8}
    (hb : maxFileSize < offset + bs.length) (hlt : offset + bs.length < 2 ^ 32) {Q : ℕ → Fs → Prop}
    {E : Halt → Fs → Prop} (h : Q 0 s) :
    wp (onNode i (cofsWrite offset bs)) Q E s := by
  rw [wp_onNode]
  simp only [cofsWrite, wp_bind, wp_read, wp_ite, wp_pure, Fs.put_self]
  rw [Nat.mod_eq_of_lt hlt]
  split_ifs
  · exact h
  · exact h

omit [Stack] in
theorem mem_putSlot {l : List Dirent} {k : ℕ} {e x : Dirent} (h : x ∈ putSlot l k e) :
    x = e ∨ x ∈ l := by
  rcases List.mem_append.mp h with h | h
  · exact .inr (List.mem_of_mem_take h)
  · rcases List.mem_cons.mp h with h | h
    · exact .inl h
    · exact .inr (List.mem_of_mem_drop h)

/-- The place of a new entry: the first free one, or the end. -/
def FreeSlot (l : List Dirent) (k : ℕ) : Prop :=
  (∀ h : k < l.length, l[k].inode = 0) ∧ ∀ e ∈ l.take k, e.inode ≠ 0

/-- An entry is written over one of the entries or at the end. -/
theorem DirOk.putSlot {numInodes k inum : ℕ} {ino : Inode} {data : List UInt8} {name : CStr}
    (hlen : data.length % 32 = 0) (hslots : ∀ e ∈ slots data, e.inode < numInodes)
    (hk : 32 * k ≤ data.length)
    (hi : inum < numInodes) :
    (ino.file (overlay data (32 * k) (putDirent inum name))).DirOk numInodes := by
  intro _
  have hl : (overlay data (32 * k) (putDirent inum name)).length = _ := length_overlay hk
  rw [length_putDirent] at hl
  refine ⟨?_, fun e he => ?_⟩
  · show (overlay data (32 * k) (putDirent inum name)).length % 32 = 0
    omega
  · have he : e ∈ slots (overlay data (32 * k) (putDirent inum name)) := he
    rw [slots_overlay hlen hk (length_putDirent _ _), getDirent_putDirent] at he
    rcases mem_putSlot he with rfl | he
    · exact Nat.lt_of_le_of_lt (Nat.mod_le _ _) hi
    · exact hslots e he

/-- The reasons for which an entry is not written: the node is no directory, no block is left, or
the directory has the largest size. -/
def EntryFails (p : ℕ) (s s' : Fs) : Prop :=
  (s.node p).type &&& 0x4000 = 0 ∨ s'.dev.NoneFree ∨ maxFileSize < (s.node p).size + 32

omit [Stack] in
/-- In a directory with room for the entry it is written unless no block is left. -/
theorem EntryFails.noneFree {p : ℕ} {s s' : Fs} (h : EntryFails p s s')
    (hd : (s.node p).type &&& 0x4000 ≠ 0)
    (hs : (s.node p).size + 32 ≤ maxFileSize) : s'.dev.NoneFree :=
  (h.resolve_left hd).resolve_right (Nat.not_lt.mpr hs)

/-- **`cofs_dirlink`** finds the name, or writes an entry over the first free one or at the end. -/
theorem dirlink_spec {s : Fs} {p inum : ℕ} {name : CStr} (h : Inv s) (hr : s.refs p ≠ 0)
    (hi : inum < s.dev.superb.numInodes) {Q : Bool → Fs → Prop} {E : Halt → Fs → Prop}
    (hclean : ∀ i, lookup (slots (s.data p)) name = i → i ≠ 0 → s.refs i ≠ 0 →
      s.dev.inode i = (s.node i).pack)
    (hroot : ∀ i, lookup (slots (s.data p)) name = i → s.Orphan i → i ≠ 1)
    (hE : ∀ e s', e ≠ .panic "No free inodes\n" →
      (lookup (slots (s.data p)) name = 0 → EntryFails p s s') → Logged s.dev s'.dev ∨
      (∃ i, lookup (slots (s.data p)) name = i ∧ i ≠ 0 ∧ s.Orphan i ∧
        ¬ TruncateOk (s.core i).size) →
        E e s')
    (hfound : ∀ i, lookup (slots (s.data p)) name = i → i ≠ 0 → i < s.dev.superb.numInodes →
      ¬ (s.refs i ≠ 0 ∧ (s.node i).lock = true) → ∀ s', PutBack i s s' → Q false s')
    (hnew : lookup (slots (s.data p)) name = 0 → (s.node p).type &&& 0x4000 ≠ 0 →
      ∀ k, 32 * k ≤ (s.node p).size →
      FreeSlot (slots (s.data p)) k →
      slots (overlay (s.data p) (32 * k) (putDirent inum name)) =
        putSlot (slots (s.data p)) k ⟨inum, name.stored⟩ → ∀ s',
      Turn p s s' { s.node p with addrs := (s'.node p).addrs,
                                  size := max (s.node p).size (32 * k + 32) }
        (overlay (s.data p) (32 * k) (putDirent inum name)) (s'.dev.inode p) →
      ((s.node p).size < 32 * k + 32 ∨ s.dev.inode p = (s.node p).pack →
        s'.dev.inode p = (s'.node p).pack) →
      Q true s') :
    wp (cofsDirlink p name inum) Q E s := by
  rw [cofsDirlink, wp_bind]
  refine finddir_spec h hr (fun e s' he hd hfail => hE e s' he
      (fun hl => .inl (hfail.resolve_right fun h0 => h0.1 hl))
      (.inl (by rw [hd]; exact Logged.refl _)))
    (fun hdir hl => ?_) fun i hdir hl h0 hlt hfree s₁ hf nm _ _ ht => ?_
  · -- the name is not there
    obtain ⟨hsize, hslots⟩ := h.dir_ok hr hdir
    have hnum : inum % 2 ^ 32 = inum := Nat.mod_eq_of_lt (Nat.lt_trans hi h.sound.layout.width)
    have hfin : ∀ k, 32 * k ≤ (s.node p).size → FreeSlot (slots (s.data p)) k →
        wp (onNode p (cofsWrite (32 * k) (putDirent inum name)))
          (fun n s' => if n ≠ 32 then E (.panic "cofs_dirlink") s' else Q true s') E s := by
      intro k hk hfree
      by_cases hb : 32 * k + 32 ≤ maxFileSize
      · refine (write_spec h hr hk (show _ + (putDirent inum name).length ≤
          _ by rw [length_putDirent]; exact hb) ?_).mono
          (fun n s' hw => ?_) fun e s' he =>
            hE e s' he.1 (fun _ => .inr (.inl he.2.2)) (.inl he.2.1)
        · exact DirOk.putSlot (by rw [Fs.length_data]; exact hsize) hslots
            (by rw [Fs.length_data]; exact hk) hi
        · obtain ⟨rfl, ht, hc⟩ := hw
          rw [length_putDirent] at ht hc ⊢
          rw [if_neg (not_not.mpr rfl)]
          refine hnew hl hdir k hk hfree ?_ s' ht hc
          rw [slots_overlay (by rw [Fs.length_data]; exact hsize) (by rw [Fs.length_data]; exact hk)
            (length_putDirent _ _), getDirent_putDirent, hnum]
      · refine wp_write_past (by rw [length_putDirent]; omega) (by
          have := (h.node_shaped hr).le
          unfold maxFileSize at this
          rw [length_putDirent]
          omega) ?_
        rw [if_pos (by decide)]
        exact hE _ _ (by decide) (fun _ => .inr (.inr (by omega))) (.inl (Logged.refl _))
    simp only [wp_bind, wp_ite, wp_halt, wp_pure]
    refine scanDir_spec h.held (h.node_shaped hr).filled hsize
      (fun k hk ht hj' buf _ => ?_) fun hall buf => ?_
    · refine hfin k ?_ ⟨fun _ => by simpa using ht, fun e he => ?_⟩
      · rw [length_slots, Fs.length_data] at hk
        omega
      · obtain ⟨j, hj, rfl⟩ := List.getElem_of_mem he
        rw [List.length_take] at hj
        rw [List.getElem_take]
        simpa using hj' j (by omega)
    · have hlen : (slots (s.data p)).length = (s.node p).size / 32 := by simp
      have := hfin ((s.node p).size / 32) (by omega) ⟨fun hk => absurd hk (by omega), fun e he => by
        simpa using hall e (List.mem_of_mem_take he)⟩
      rwa [show 32 * ((s.node p).size / 32) = (s.node p).size by omega] at this
  · simp only [wp_bind, wp_pure]
    refine (putBack_spec h (hclean i hl h0) (hroot i hl) hf ht).mono
      (fun _ s' hp => hfound i hl h0 hlt hfree s' hp)
      fun e s' he =>
        hE e s' he.1 (fun hl0 => absurd (hl.symm.trans hl0) h0) (.inr ⟨i, hl, h0, he.2⟩)

/-- **`cofs_dirlink`** with a name that is not there. -/
theorem dirlink_new {s : Fs} {p inum : ℕ} {name : CStr} (h : Inv s) (hr : s.refs p ≠ 0)
    (hi : inum < s.dev.superb.numInodes) (hl : lookup (slots (s.data p)) name = 0)
    {Q : Bool → Fs → Prop}
    {E : Halt → Fs → Prop}
    (hE : ∀ e s', e ≠ .panic "No free inodes\n" → EntryFails p s s' → Logged s.dev s'.dev → E e s')
    (hnew : ∀ k, 32 * k ≤ (s.node p).size →
      FreeSlot (slots (s.data p)) k →
      slots (overlay (s.data p) (32 * k) (putDirent inum name)) =
        putSlot (slots (s.data p)) k ⟨inum, name.stored⟩ → ∀ s',
      Turn p s s' { s.node p with addrs := (s'.node p).addrs,
                                  size := max (s.node p).size (32 * k + 32) }
        (overlay (s.data p) (32 * k) (putDirent inum name)) (s'.dev.inode p) →
      ((s.node p).size < 32 * k + 32 ∨ s.dev.inode p = (s.node p).pack →
        s'.dev.inode p = (s'.node p).pack) →
      Q true s') : wp (cofsDirlink p name inum) Q E s := by
  refine dirlink_spec h hr hi (fun i hli h0 => ?_) (fun i hli _ => ?_)
    (fun e s' he hfail hc => ?_) (fun i hli h0 => ?_)
    fun _ _ => hnew
  · exact absurd (hli.symm.trans hl) h0
  · omega
  · rcases hc with hlog | ⟨i, hli, h0, -⟩
    · exact hE e s' he (hfail hl) hlog
    · exact absurd (hli.symm.trans hl) h0
  · exact absurd (hli.symm.trans hl) h0

end Cosiris.Cofs
