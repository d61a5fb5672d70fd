import Cosiris.Cofs.Insert

/-!
# Removing names

What `cofs_unlink` does to the files and the references, from a state in which no node
is locked. The entry that it clears is the first with the name of the node, which
`cofs_finddir` has set to the name it was given, unless the node is that of the root.
-/

namespace Cosiris.Cofs

open Function Prog

variable [Stack]

/-- The file of inode `i` goes with the link that is removed. -/
def Fs.LastLink (s : Fs) (i : ℕ) : Prop := s.refs i = 0 ∧ (s.core i).linkDown.numLinks = 0

instance (s : Fs) (i : ℕ) : Decidable (s.LastLink i) := inferInstanceAs (Decidable (_ ∧ _))

/-- The entry that names inode `i` has been cleared in directory `p`. -/
structure Unlinked (p : ℕ) (name : CStr) (i : ℕ) (s s' : Fs) : Prop where
  inv : Inv s'
  quiet : Quiet s'
  rest : Rest (fun j => j = p ∨ j = i) s s'
  dir : (s.node p).type &&& 0x4000 ≠ 0
  found : lookup (slots (s.data p)) name = i
  pos : i ≠ 0
  ne : p ≠ i
  sized : s.LastLink i → TruncateOk (s.core i).size
  alloc : s.Allocated i
  refs : s'.refs i = if i = 1 ∧ s.refs i = 0 then 1 else s.refs i
  file : s'.file i = if s.LastLink i then (s.core i).linkDown.remains
    else some ((s.core i).linkDown.pack.file (s.text i))
  node : s'.refs i ≠ 0 → ∃ nm, s'.node i =
      { (s.core i).linkDown with name := nm, refCount := s'.refs i, lock := false }
  parent_sized : s.Last p → TruncateOk (s.node p).size
  parent_refs : s'.refs p = if p = 1 ∧ s.refs p = 1 then 1 else s.refs p - 1
  parent : ∃ k data, ∃ h : k < (slots (s.data p)).length,
      (i ≠ 1 → (slots (s.data p))[k].name = name ∧
      ∀ j (hj : j < k), ((slots (s.data p)).get ⟨j, by omega⟩).name ≠ name) ∧
    slots data = putSlot (slots (s.data p)) k ⟨0, CStr.empty⟩ ∧
    s'.file p = (if s.Last p then (s.node p).remains else some ((s.node p).pack.file data)) ∧
    (s'.refs p ≠ 0 → s'.data p = data)
  parent_node : s'.refs p ≠ 0 →
    s'.node p = { s.node p with addrs := (s'.node p).addrs, size := (s.node p).size,
                                refCount := s'.refs p }

/-- `cofs_unlink` halts, not for want of inodes, and all that it has freed was in use, unless it
releases a file of a size with which that goes wrong. -/
def UnlinkHalts (p : ℕ) (name : CStr) (s : Fs) (e : Halt) (s' : Fs) : Prop :=
  e ≠ .panic "No free inodes\n" ∧ (Logged s.dev s'.dev ∨ lookup (slots (s.data p)) name ≠ 0 ∧
    (s.LastLink (lookup (slots (s.data p)) name) ∧
      ¬ TruncateOk (s.core (lookup (slots (s.data p)) name)).size ∨
      s.Last p ∧ ¬ TruncateOk (s.node p).size))

theorem UnlinkHalts.of_rest {T : ℕ → Prop} {p : ℕ} {name : CStr} {s s₁ s' : Fs} {e : Halt}
    (h : Rest T s s₁)
    (he : e ≠ .panic "No free inodes\n") (hl : Logged s₁.dev s'.dev) : UnlinkHalts p name s e s' :=
  ⟨he, .inl (h.logged.trans h.superb hl)⟩

omit [Stack] in
theorem first_congr {l l' : List Dirent} {k : ℕ} {nm : CStr} (h : l = l') (hk : k < l.length)
    (ht : l[k].name = nm)
    (hj : ∀ j (hjk : j < k), (l.get ⟨j, hjk.trans hk⟩).name ≠ nm) :
    ∃ hk' : k < l'.length, l'[k].name = nm ∧
      ∀ j (hjk : j < k), (l'.get ⟨j, hjk.trans hk'⟩).name ≠ nm := by
  subst h
  exact ⟨hk, ht, hj⟩

/-- A name in the directory is not cut off where it is kept in a node. -/
theorem name_eq_of_take {data : List UInt8} {e e' : Dirent} (he : e ∈ slots data)
    (he' : e' ∈ slots data) (h : e.name = e'.name.take 255) : e.name = e'.name := by
  by_cases hle : e'.name.bytes.length ≤ 255
  · exact h.trans (CStr.take_of_le hle)
  · have hlen : e.name.bytes.length = 255 := by
      rw [h]
      show (e'.name.bytes.take 255).length = 255
      rw [List.length_take]
      omega
    have hstored := congrArg CStr.bytes (stored_of_mem he)
    have hstored' := congrArg CStr.bytes (stored_of_mem he')
    rw [CStr.stored_of_le (by omega)] at hstored hstored'
    have hsame := congrArg List.length hstored
    have hsame' := congrArg List.length hstored'
    rw [List.length_append, List.length_take] at hsame hsame'
    omega

/-- An entry of a locked directory is cleared, and the directory is written back and unlocked. -/
theorem clear_spec {s : Fs} {p k : ℕ} (h : Inv s) (hr : s.refs p ≠ 0)
    (hd : (s.node p).type &&& 0x4000 ≠ 0)
    (hl : (s.node p).lock = true) (hk : k < (slots (s.data p)).length) :
    wp (onNode p (cofsWrite (32 * k) (putDirent 0 CStr.empty))) (fun n s₁ => n = 32 ∧
        wp (updateNode p) (fun _ s₂ => wp (cofsUnlock p) (fun _ s' => ∃ data,
            slots data = putSlot (slots (s.data p)) k ⟨0, CStr.empty⟩ ∧
            Turn p s s' { s.node p with addrs := (s'.node p).addrs, lock := false } data
              (s'.node p).pack)
          (fun _ _ => False) s₂) (fun _ _ => False) s₁)
      (fun e s' => e ≠ .panic "No free inodes\n" ∧ Logged s.dev s'.dev) s := by
  obtain ⟨hsize, hslots⟩ := h.dir_ok hr hd
  have hlen : (slots (s.data p)).length = (s.node p).size / 32 := by simp
  have hlen' : (s.data p).length = (s.node p).size := by simp
  have hmax := (h.node_shaped hr).le
  have h0 : 0 < s.dev.superb.numInodes := Nat.lt_trans Nat.one_pos h.sound.layout.root
  refine (write_spec h hr (by omega) (show _ + (putDirent 0 CStr.empty).length ≤
    _ by rw [length_putDirent]; omega)
    (DirOk.putSlot (by omega) hslots (by omega) h0)).mono (fun n s₁ hw => ?_) fun e s' he =>
      ⟨he.1, he.2.1⟩
  obtain ⟨rfl, h₁, -⟩ := hw
  rw [length_putDirent, Nat.max_eq_left (by omega)] at h₁
  refine ⟨length_putDirent _ _, ?_⟩
  have hr₁ := h₁.refs_ne_zero (Inv.refCount hr)
  refine (updateNode_spec h₁.inv hr₁).mono (fun _ s₂ h₂ => ?_) fun _ _ he => he
  have hr₂ := h₂.refs_ne_zero (Inv.refCount hr₁)
  refine (cofsUnlock_spec h₂.inv hr₂ (by rw [h₂.node, h₁.node]; exact hl)).mono
    (fun _ s' h₃ => ?_) fun _ _ he => he
  refine ⟨s'.data p, ?_, h₃.inv, h₁.rest.trans (h₂.rest.trans h₃.rest), h₃.mem, ?_, rfl, ?_⟩
  · rw [h₃.data, h₂.data, h₁.data, slots_overlay (by omega) (by omega) (length_putDirent _ _),
      getDirent_putDirent]
    rfl
  · rw [h₃.node, h₂.node, h₁.node]
  · rw [h₃.inode, h₂.inode, h₃.node, h₂.node]
    rfl

/-- A locked node loses a link and is written back and unlocked. -/
theorem linkDown_spec {s : Fs} {i : ℕ} (h : Inv s) (hr : s.refs i ≠ 0)
    (hl : (s.node i).lock = true) :
    wp (modifyNode i FsNode.linkDown) (fun _ s₁ =>
        wp (updateNode i) (fun _ s₂ => wp (cofsUnlock i) (fun _ s' =>
            Turn i s s' { (s.node i).linkDown with lock := false } (s.data i) (s'.node i).pack)
          (fun _ _ => False) s₂) (fun _ _ => False) s₁)
      (fun _ _ => False) s := by
  rw [wp_modifyNode]
  have hdir := (h.each i).dir _ (h.file_eq hr)
  have h₁ := h.setNode (f := FsNode.linkDown) hr rfl rfl rfl rfl (Inv.refCount hr)
    (hdir.congr (FsNode.linkDown_pack_type _))
  generalize s.setNode i FsNode.linkDown = s₁ at h₁
  have hr₁ := h₁.refs_ne_zero (Inv.refCount hr)
  refine (updateNode_spec h₁.inv hr₁).mono (fun _ s₂ h₂ => ?_) fun _ _ he => he
  have hr₂ := h₂.refs_ne_zero (Inv.refCount hr₁)
  refine (cofsUnlock_spec h₂.inv hr₂ (by rw [h₂.node, h₁.node]; exact hl)).mono (fun _ s' h₃ => ?_)
    fun _ _ he => he
  refine ⟨h₃.inv, h₁.rest.trans (h₂.rest.trans h₃.rest), h₃.mem, ?_, ?_, ?_⟩
  · rw [h₃.node, h₂.node, h₁.node]
  · rw [h₃.data, h₂.data, h₁.data]
  · rw [h₃.inode, h₂.inode, h₃.node, h₂.node]
    rfl

/-- **`cofs_unlink`.** -/
theorem unlink_spec {s : Fs} {p : ℕ} {name : CStr} (h : Inv s) (hq : Quiet s) (hrp : s.refs p ≠ 0)
    (h1 : s.refs 1 ≠ 0) (hroot : lookup (slots (s.data p)) name ≠ 0 → s.Last p → p ≠ 1) :
    wp (cofsUnlink p name) (fun r s' => (r = false ∧ lookup (slots (s.data p)) name = 0 ∧ s' = s) ∨
        ∃ i, r = true ∧ Unlinked p name i s s') (UnlinkHalts p name s) s := by
  have hlp := hq.unlocked p (Fs.mem_of_refs hrp)
  rw [cofsUnlink, wp_bind]
  refine finddir_spec h hrp (fun e s' he hd _ => ⟨he, .inl (by rw [hd]; exact Logged.refl _)⟩)
    (fun hdir hl => .inl ⟨rfl, hl, rfl⟩) fun i hdir hl h0 hlt hfree s₁ hf nm hnm _ h₁ => ?_
  have hsize := (h.dir_ok hrp hdir).1
  replace hroot := hroot (by rwa [hl])
  have hr₁ := h₁.refs_ne_zero (Nat.succ_ne_zero _)
  simp only [wp_bind]
  refine (cofsLock_spec h₁.inv hr₁).mono (fun _ s₂ h₂ => ?_) fun e s' he => ?_
  swap
  · rw [h₁.node] at he
    exact absurd he.1 (by simp)
  obtain ⟨-, h₂⟩ := h₂
  rw [h₁.node, h₁.data, h₁.inode] at h₂
  have t₂ := h₁.trans h₂
  have hri₂ := t₂.refs_ne_zero (Nat.succ_ne_zero _)
  by_cases hpi : p = i
  · -- the lock of the node is held
    rw [hpi]
    refine (cofsLock_spec t₂.inv hri₂).mono (fun _ s₃ h₃ => ?_) fun e s' he => ?_
    · rw [t₂.node] at h₃
      exact absurd h₃.1 (by simp)
    · rw [he.2.1, he.2.2]
      exact .of_rest t₂.rest (by decide) (Logged.refl _)
  obtain ⟨hrp₂, hnp₂, hdp₂, hip₂⟩ := t₂.other h hpi hrp
  refine (cofsLock_spec t₂.inv hrp₂).mono (fun _ s₃ h₃ => ?_) fun e s' he => ?_
  swap
  · rw [hnp₂, hlp] at he
    exact absurd he.1 (by decide)
  obtain ⟨-, h₃⟩ := h₃
  rw [hnp₂, hdp₂, hip₂] at h₃
  have hrp₃ := h₃.refs_ne_zero (Inv.refCount hrp)
  obtain ⟨hri₃, hni₃, hdi₃, hii₃⟩ := h₃.other t₂.inv (Ne.symm hpi) hri₂
  have hrest₃ : Rest (fun j => j = p ∨ j = i) s s₃ :=
    (t₂.rest.mono fun j => .inr).trans (h₃.rest.mono fun j => .inl)
  rw [wp_getNode]
  have hname₃ : (s₃.node i).name = nm := by rw [hni₃, t₂.node]
  rw [hname₃]
  refine scanDir_spec h₃.inv.held (h₃.inv.node_shaped hrp₃).filled (by rw [h₃.node]; exact hsize)
    (fun k hk ht hj buf _ => ?_) fun _ buf => ?_
  swap
  · simp only [kassert, Bool.false_eq_true, if_false, wp_halt]
    exact .of_rest hrest₃ (by simp) (Logged.refl _)
  obtain ⟨hk', ht, hj⟩ : ∃ hk' : k < (slots (s.data p)).length, (slots (s.data p))[k].name = nm ∧
      ∀ j (hjk : j < k), ((slots (s.data p)).get ⟨j, by omega⟩).name ≠ nm := by
    exact first_congr (congrArg slots h₃.data) hk
      (by simpa using ht) fun j hjk => by simpa using hj j hjk
  simp only [kassert, if_true, wp_pure]
  refine (clear_spec h₃.inv hrp₃ (by rw [h₃.node]; exact hdir) (by rw [h₃.node]) hk).mono
    (fun n s₄ hw => ?_)
    fun e s' he => .of_rest hrest₃ he.1 he.2
  obtain ⟨rfl, hw⟩ := hw
  rw [wp_ite, if_neg (not_not.mpr rfl)]
  simp only [wp_bind]
  refine hw.mono (fun _ s₅ hw => hw.mono (fun _ s₆ h₆ => ?_) fun _ _ he => he.elim) fun _ _ he =>
    he.elim
  obtain ⟨data, hdata, h₆⟩ := h₆
  rw [h₃.node] at h₆
  rw [h₃.data] at hdata
  obtain ⟨hri₆, hni₆, hdi₆, hii₆⟩ := h₆.other h₃.inv (Ne.symm hpi) hri₃
  refine (linkDown_spec h₆.inv hri₆ (by rw [hni₆, hni₃, t₂.node])).mono
    (fun _ s₇ hw => ?_) fun _ _ he => he.elim
  refine hw.mono (fun _ s₈ hw => hw.mono (fun _ s₉ h₉ => ?_) fun _ _ he => he.elim) fun _ _ he =>
    he.elim
  have hrest₉ : Rest (fun j => j = p ∨ j = i) s s₉ :=
    hrest₃.trans ((h₆.rest.mono fun j => .inl).trans (h₉.rest.mono fun j => .inr))
  rw [hni₆, hni₃, t₂.node, hdi₆, hdi₃, t₂.data] at h₉
  have hri₉ := h₉.refs_ne_zero (Nat.succ_ne_zero _)
  have hrefs₉ : s₉.refs i = s.refs i + 1 := h₉.refs
  have hlast : s₉.Last i ↔ s.LastLink i := by
    unfold Fs.Last Fs.LastLink
    rw [hrefs₉, h₉.node]
    exact and_congr_left' (by simp)
  refine (put_spec h₉.inv hri₉ (by rw [h₉.node]) (by rw [h₉.inode]) fun hd h₁' =>
    (hlast.mp hd).1 |> (h₁' ▸ h1)).mono
    (fun _ s₁₀ hp => ?_) fun e s' he => ?_
  swap
  · refine ⟨he.1, .inr ?_⟩
    rw [h₉.node] at he
    rw [hl]
    exact ⟨h0, .inl ⟨hlast.mp he.2.1, he.2.2⟩⟩
  obtain ⟨hinv₁₀, hrest', hok, hrefs', hfile, hnode⟩ := hp
  have hrest₁₀ : Rest (fun j => j = p ∨ j = i) s s₁₀ := hrest₉.trans (hrest'.mono fun j => .inr)
  obtain ⟨hrp₉, hnp₉, hdp₉, hip₉⟩ := h₉.other h₆.inv hpi (h₆.refs_ne_zero (Inv.refCount hrp))
  have hnp₁₀ : s₁₀.node p = { s.node p with addrs := (s₁₀.node p).addrs, lock := false } := by
    rw [hrest'.node hpi hrp₉, hnp₉, h₆.node]
  have hrefs₁₀ : s₁₀.refs p = s.refs p := by
    rw [hrest'.refs p hpi, h₉.rest.refs p hpi, h₆.refs, Fs.refs_of_mem (Fs.mem_of_refs hrp)]
  have hrp₁₀ : s₁₀.refs p ≠ 0 := by rwa [hrefs₁₀]
  have hdp₁₀ : s₁₀.data p = data := by
    rw [hrest'.data h₉.inv hinv₁₀ hpi hrp₉, hdp₉, h₆.data]
  have hclean : s₁₀.dev.inode p = (s₁₀.node p).pack := by
    rw [hrest'.inode p hpi (h₉.inv.lt hrp₉), hip₉, h₆.inode, hrest'.node hpi hrp₉, hnp₉]
  have hlastp : s₁₀.Last p ↔ s.Last p := by
    unfold Fs.Last
    rw [hrefs₁₀, hnp₁₀]
  refine (put_spec hinv₁₀ hrp₁₀ (by rw [hnp₁₀]) hclean fun hd => hroot (hlastp.mp hd)).mono
    (fun _ s' hp => ?_)
    fun e s' he => ?_
  swap
  · refine ⟨he.1, .inr ?_⟩
    rw [hnp₁₀] at he
    rw [hl]
    exact ⟨h0, .inr ⟨hlastp.mp he.2.1, he.2.2⟩⟩
  obtain ⟨hinv', hrest'', hokp, hrefsp, hfilep, hnodep⟩ := hp
  have hrest : Rest (fun j => j = p ∨ j = i) s s' := hrest₁₀.trans (hrest''.mono fun j => .inl)
  have hip : i ≠ p := Ne.symm hpi
  have hnode' : s'.refs i ≠ 0 →
    s'.node i = { (s.core i).linkDown with name := nm, refCount := s'.refs i, lock := false } ∧
      s'.dev.inode i = (s'.node i).pack := by
    intro hr
    have hr₁₀ : s₁₀.refs i ≠ 0 := by rwa [← hrest''.refs i hip]
    rw [hrest''.node hip hr₁₀, hrest''.refs i hip, hrest''.inode i hip (hinv₁₀.lt hr₁₀),
      (hnode hr₁₀).2, (hnode hr₁₀).1, h₉.node]
    exact ⟨rfl, rfl⟩
  have hnodep' : s'.refs p ≠ 0 → s'.node p =
      { s.node p with addrs := (s'.node p).addrs, size := (s.node p).size, refCount := s'.refs p,
                      lock := false } ∧
      s'.dev.inode p = (s'.node p).pack := by
    intro hr
    refine ⟨?_, (hnodep hr).2⟩
    rw [(hnodep hr).1, hnp₁₀]
  rw [wp_pure]
  refine .inr ⟨i, rfl, hinv', hrest.quiet hinv' hq ?_, hrest, hdir, hl, h0, hpi, ?_, ?_, ?_,
    ?_, fun hr => ⟨nm, (hnode' hr).1⟩, ?_, ?_, ⟨k, data, hk', ?_, hdata, ?_, ?_⟩, ?_⟩
  · rintro j (rfl | rfl) hr
    · rw [(hnodep' hr).2]
      exact ⟨by rw [(hnodep' hr).1], rfl⟩
    · rw [(hnode' hr).2]
      exact ⟨by rw [(hnode' hr).1], rfl⟩
  · intro hd
    have := hok (hlast.mpr hd)
    rwa [h₉.node] at this
  · by_contra ha
    have := Fs.file_eq_none.mpr ha
    rw [← hf, h₁.inv.file_eq hr₁] at this
    cases this
  · rw [hrest''.refs i hip, hrefs', hrefs₉]
    simp
  · rw [hrest''.file i hip, hfile, if_congr hlast rfl rfl, h₉.node, h₉.file (Nat.succ_ne_zero _)]
    rfl
  · intro hd
    have := hokp (hlastp.mpr hd)
    rwa [hnp₁₀] at this
  · rw [hrefsp, hrefs₁₀]
  · intro hi1
    have hsame : nm = name :=
      ht.symm.trans
        (name_eq_of_take (List.getElem_mem hk') (mem_of_lookup hl h0) (ht.trans (hnm hi1)))
    exact hsame ▸ ⟨ht, hj⟩
  · rw [hfilep, if_congr hlastp rfl rfl, hinv₁₀.file_eq hrp₁₀, hdp₁₀, hnp₁₀]
    rfl
  · intro hr
    have hnot : ¬ s₁₀.Last p := by
      intro hd
      rw [hrefsp, hd.1] at hr
      exact hroot (hlastp.mp hd) (by simpa using hr)
    have := hfilep
    rw [if_neg hnot, hinv'.file_eq hr, hinv₁₀.file_eq hrp₁₀] at this
    rw [← hdp₁₀]
    exact congrArg File.data (Option.some.inj this)
  · intro hr
    rw [(hnodep' hr).1]
    simp only [hlp]

end Cosiris.Cofs
