import Cosiris.Cofs.Links
import Cosiris.Cofs.Tidy

/-!
# Directories as maps

A directory is a finite map from names to inode numbers. What the calls on it do to the map,
what `cofs_finddir` and `cofs_readdir` show of it, and when an insertion of a name that is
there is turned down.
-/

namespace Cosiris.Cofs

open Function Prog

section

variable [Stack]

/-! ### Runs on a directory -/

namespace Call

/-- The call, with the node that it has entered in the directory. -/
def run : Call → Prog Halt Fs (Option ℕ)
  | creat dir name mode => cofsCreat dir name mode
  | mkdir dir name mode => cofsMkdir dir name mode
  | mknod dir name mode dev => cofsMknod dir name mode dev
  | link dir node name => do return if ← cofsLink dir node name then some node else none
  | c => do
    c.exec
    return none

/-- A call of a run on directory `p`: it inserts or removes a short name, where the number of links
of a node that is linked fits its field with one more and the root is not removed; or it takes or
gives up a reference to some node. -/
def On (p : ℕ) (s : Fs) : Call → Prop
  | creat dir name _ | mkdir dir name _ | mknod dir name _ _ => dir = p ∧ name.Short
  | link dir node name => dir = p ∧ name.Short ∧ (s.node node).numLinks % 2 ^ 16 + 1 < 2 ^ 16
  | unlink dir name => dir = p ∧ name.Short ∧ lookup (slots (s.data dir)) name ≠ 1
  | finddir _ _ | put _ | dup _ => True
  | write _ _ _ | truncate _ _ => False

/-- What the call does to the map of the directory, with the node `r` that it has returned: a name
is inserted unless it is there, or removed. -/
def onMap (m : CStr → Option ℕ) (r : Option ℕ) : Call → CStr → Option ℕ
  | creat _ name _ | mkdir _ name _ | mknod _ name _ _ =>
      if m name = none then update m name r else m
  | link _ node name => if m name = none then update m name (some node) else m
  | unlink _ name => update m name none
  | _ => m

theorem exec_eq_run (c : Call) : c.exec = (do let _ ← c.run) := by
  cases c <;> simp [exec, run]

theorem exec_of_run {c : Call} {r : Option ℕ} {s s' : Fs} (h : c.run s = .ok r s') :
    c.exec s = .ok () s' := by
  rw [exec_eq_run]
  exact bind_of_ok h

end Call

/-- A step of a run on directory `p`, and what it does to the map. -/
def DirStep (p : ℕ) (x y : (CStr → Option ℕ) × Fs) : Prop :=
  ∃ (c : Call) (r : Option ℕ), c.Given x.2 ∧ c.On p x.2 ∧ c.run x.2 = .ok r y.2 ∧
    y.1 = c.onMap x.1 r

theorem DirStep.of_run {p : ℕ} {m : CStr → Option ℕ} {s s' : Fs} {c : Call} {r : Option ℕ}
    (hg : c.Given s) (hon : c.On p s) (hrun : c.run s = .ok r s') :
    DirStep p (m, s) (c.onMap m r, s') := ⟨c, r, hg, hon, hrun, rfl⟩

section

variable {s s' : Fs} {p i j : ℕ} {name : CStr} {c : Call} {r : Option ℕ}

theorem Inv.links_eq_zero (h : Inv s) (ha : s.Allocated i) (hl : (s.core i).numLinks = 0) :
    Files.links s.file i = 0 := by
  rw [h.links_eq ha, hl, Nat.zero_mod]

/-- The entries of a directory in order that is open. -/
theorem Files.Tidy.entries_eq (ht : Files.Tidy p s.file) (h : Inv s) (hr : s.refs p ≠ 0) :
    Files.entries s.file p = slots (s.data p) := by
  have hd := ht.dir
  rw [Files.type_of_some (h.file_eq hr)] at hd
  rw [Files.entries_of_some (h.file_eq hr)]
  exact if_neg hd

theorem Files.Tidy.lookup_data (ht : Files.Tidy p s.file) (h : Inv s) (hr : s.refs p ≠ 0)
    (hn : name.Short) : lookup (slots (s.data p)) name = (Files.names s.file p name).getD 0 := by
  rw [← ht.entries_eq h hr]
  exact ht.lookup_eq hn

theorem Files.Tidy.lookup_data_zero (ht : Files.Tidy p s.file) (h : Inv s) (hr : s.refs p ≠ 0)
    (hn : name.Short) :
    lookup (slots (s.data p)) name = 0 ↔ Files.names s.file p name = none := by
  rw [← ht.entries_eq h hr]
  exact ht.lookup_eq_zero_iff hn

/-- A file that is found is linked. -/
theorem Files.Tidy.links_lookup (ht : Files.Tidy p s.file) (h : Inv s) (hr : s.refs p ≠ 0)
    (hl : lookup (slots (s.data p)) name = i) (h0 : i ≠ 0) : Files.links s.file i ≠ 0 := by
  have he := mem_of_lookup hl h0
  rw [← ht.entries_eq h hr] at he
  exact ht.links_ne_zero he h0

/-- An operation that creates a node. -/
theorem Inserted.names {type mask : ℕ} {l : ℕ → List Dirent} (ht : Files.Tidy p s.file) (h : Inv s)
    (hr : s.refs p ≠ 0) (hn : name.Short) (hi : Inserted p name type mask l s r s') :
    Files.Tidy p s'.file ∧ Files.names s'.file p = (if Files.names s.file p name = none
      then update (Files.names s.file p) name r else Files.names s.file p) ∧
      (r = none ↔ Files.names s.file p name ≠ none) ∧ (r = none → s'.file = s.file) := by
  rcases hi with ⟨rfl, he⟩ | ⟨i, n, data, rfl, ha, hf⟩
  · have hfound := mt (ht.lookup_data_zero h hr hn).mpr he.found
    have hfile := he.back.files.2 fun ho =>
      ht.links_lookup h hr rfl he.found (h.links_eq_zero he.back.alloc ho.2)
    rw [if_neg hfound, hfile]
    exact ⟨ht, rfl, iff_of_true rfl hfound, fun _ => rfl⟩
  · have habs := (ht.lookup_data_zero h hr hn).mp ha.absent
    obtain ⟨hpi, k, F, hroom, hm, hs⟩ := ha.files h hr
    have hi0 : i ≠ 0 := Nat.ne_of_gt ha.pos
    obtain ⟨htF, hent, hcount⟩ := ht.makes hi0 hm
    have hri : s'.refs i ≠ 0 := by
      rw [ha.refs]
      exact Nat.one_ne_zero
    have hfit := ha.inv.fits hri
    have h0 := (ha.inv.loaded hri).2
    rw [ha.node] at hfit h0
    have hnames := Files.names_congr hent
    rw [if_pos habs, ← hnames]
    obtain ⟨ht', hn'⟩ := htF.insert (by unfold Files.Room at hroom ⊢; rwa [hent])
      (by rw [hnames]; exact habs) hn hi0
      (by rw [Files.type_of_some hm.self]; exact hfit.pack_type_and_ne_zero h0)
      (fun _ _ => by
        rw [hcount, Files.links_of_some hm.self]
        show 0 < n.numLinks % 2 ^ 16
        rw [hf.numLinks]
        decide) hs
    exact ⟨ht', hn', iff_of_false (Option.some_ne_none i) (not_not.mpr (hnames ▸ habs)),
      fun e => absurd e (Option.some_ne_none i)⟩

/-- The number of links of a node, and with one more. -/
theorem Inv.links_up (h : Inv s) (hr : s.refs i ≠ 0)
    (hlt : (s.node i).numLinks % 2 ^ 16 + 1 < 2 ^ 16) :
    (Files.links s.file i + 1) % 2 ^ 16 = Files.links s.file i + 1 := by
  rw [Files.links_of_some (h.file_eq hr)]
  exact Nat.mod_eq_of_lt hlt

/-- `cofs_link` inserts the name. -/
theorem LinkAdded.names (ht : Files.Tidy p s.file) (h : Inv s) (hr : s.refs p ≠ 0)
    (hri : s.refs i ≠ 0) (hn : name.Short) (hlt : (s.node i).numLinks % 2 ^ 16 + 1 < 2 ^ 16)
    (ha : LinkAdded p i name s s') :
    Files.Tidy p s'.file ∧ Files.names s.file p name = none ∧
      Files.names s'.file p = update (Files.names s.file p) name (some i) := by
  have habs := (ht.lookup_data_zero h hr hn).mp ha.absent
  obtain ⟨k, F, hroom, hl, hs⟩ := ha.files h hr hri
  rw [h.links_up hri hlt] at hl
  have htF := ht.links hl (Nat.le_succ _)
  have hent := congrFun hl.entries p
  have hnames := Files.names_congr hent
  have hfit := h.fits hri
  have h0 := (h.loaded hri).2
  obtain ⟨ht', hn'⟩ := htF.insert (by unfold Files.Room at hroom ⊢; rwa [hent])
    (by rw [hnames]; exact habs) hn (Nat.ne_of_gt (h.pos hri))
    (by rw [hl.type, Files.type_of_some (h.file_eq hri)]; exact hfit.pack_type_and_ne_zero h0)
    (fun hp h1 => by
      have := ht.counted i (Nat.ne_of_gt (h.pos hri)) hp h1
      rw [hent, hl.links_self]
      omega) hs
  exact ⟨ht', habs, by rw [hn', hnames]⟩

/-- `cofs_link` finds the name. -/
theorem LinkRefused.names (ht : Files.Tidy p s.file) (h : Inv s) (hr : s.refs p ≠ 0)
    (hri : s.refs i ≠ 0) (hlt : (s.node i).numLinks % 2 ^ 16 + 1 < 2 ^ 16)
    (ha : LinkRefused p i j name s s') :
    Files.Tidy p s'.file ∧ Files.entries s'.file p = Files.entries s.file p := by
  have hl := ha.files h hr hri (.inr (ht.links_lookup h hr ha.found ha.pos))
  rw [h.links_up hri hlt] at hl
  exact ⟨ht.links hl (Nat.le_succ _), congrFun hl.entries p⟩

/-- `cofs_unlink` removes the name. -/
theorem Unlinked.names (ht : Files.Tidy p s.file) (h : Inv s) (hr : s.refs p ≠ 0)
    (h1 : i ≠ 1) (hu : Unlinked p name i s s') :
    Files.Tidy p s'.file ∧ Files.names s'.file p = update (Files.names s.file p) name none := by
  obtain ⟨k, F₁, F₂, F₃, ⟨hk, he⟩, hs, hl, hdi, hdp⟩ := hu.files h hr
  obtain ⟨he, -⟩ := he h1
  have hmem : ⟨i, name⟩ ∈ Files.entries s.file p := he ▸ List.getElem_mem hk
  have hpos := ht.links_ne_zero hmem hu.pos
  have hbound : Files.links s.file i < 2 ^ 16 := by
    rw [h.links_eq hu.alloc]
    exact Nat.mod_lt _ (by decide)
  have hm : (Files.links s.file i + (2 ^ 16 - 1)) % 2 ^ 16 = Files.links s.file i - 1 := by omega
  rw [hm] at hl
  obtain ⟨ht₂, hn₂⟩ := ht.remove hk he hu.pos hu.ne.symm h1 hs hl (by omega)
  obtain ⟨ht₃, hn₃⟩ := ht₂.dropsIf hdi fun hlast => by
    rw [hl.links_self, ← hm, h.links_eq hu.alloc, ← FsNode.linkDown_mod, hlast.2, Nat.zero_mod]
  obtain ⟨ht', hn'⟩ := ht₃.dropsIf hdp fun hlast => by
    refine absurd ?_ ht.linked
    rw [Files.links_of_some (h.file_eq hr)]
    show (s.node p).numLinks % 2 ^ 16 = 0
    rw [hlast.2, Nat.zero_mod]
  exact ⟨ht', by rw [hn', hn₃, hn₂]⟩

/-- The state of a run on directory `p`, with its map. -/
structure Shown (p : ℕ) (m : CStr → Option ℕ) (s : Fs) : Prop where
  mounted : Mounted s
  tidy : Files.Tidy p s.file
  names : Files.names s.file p = m

/-- The root is not released. -/
theorem Shown.not_drops_root {m : CStr → Option ℕ} (h : Shown p m s) (c : Call) (hg : c.Given s) :
    ¬ c.Drops s 1 := by
  have hroot := h.mounted.root
  have hlast : ¬ s.Last 1 := fun hl => h.tidy.root (by
    rw [Files.links_of_some (h.mounted.inv.file_eq hroot)]
    show (s.node 1).numLinks % 2 ^ 16 = 0
    rw [hl.2, Nat.zero_mod])
  intro hd
  cases c with
  | unlink dir name =>
    rcases hd.2 with ⟨-, hl⟩ | ⟨-, hl⟩
    · exact hroot hl.1
    · exact hlast hl
  | put i => exact hlast hd.2
  | creat dir name mode => exact h.mounted.not_orphan_root hd.2.2
  | mkdir dir name mode => exact h.mounted.not_orphan_root hd.2.2
  | mknod dir name mode dev => exact h.mounted.not_orphan_root hd.2.2
  | link dir node name => exact h.mounted.not_orphan_root hd.2.2
  | _ => exact hd

end

/-! ### Steps of a run -/

section

variable {s s' : Fs} {p i j : ℕ} {name : CStr} {c : Call} {r : Option ℕ} {m : CStr → Option ℕ}

/-- The name that the call inserts. -/
def Call.inserts : Call → Option CStr
  | .creat _ name _ | .mkdir _ name _ | .mknod _ name _ _ | .link _ _ name => some name
  | _ => none

/-- What a call of a run has done to the directory: it is in order, with the map that it should
have; an insertion has returned a node exactly if the name was not there, and has otherwise left
the entries as they were. -/
structure Call.Done (p : ℕ) (c : Call) (r : Option ℕ) (s s' : Fs) : Prop where
  tidy : Files.Tidy p s'.file
  names : Files.names s'.file p = c.onMap (Files.names s.file p) r
  accepts : ∀ name, c.inserts = some name → (r = none ↔ Files.names s.file p name ≠ none)
  kept : c.inserts ≠ none → r = none → Files.entries s'.file p = Files.entries s.file p

theorem Call.On.proper (h : c.On p s) : c.Proper s := by
  cases c with
  | write _ _ _ => exact h.elim
  | truncate _ _ => exact h.elim
  | _ => trivial

/-- An operation that creates a node has done what it should. -/
theorem Inserted.done {type mask : ℕ} {l : ℕ → List Dirent} (ht : Files.Tidy p s.file)
    (h : Inv s) (hr : s.refs p ≠ 0) (hn : name.Short) (hi : Inserted p name type mask l s r s')
    (hc : (∃ mode, c = .creat p name mode) ∨ (∃ mode, c = .mkdir p name mode) ∨
      ∃ mode dev, c = .mknod p name mode dev) :
    c.Done p r s s' := by
  obtain ⟨ht', hn', hacc, hkept⟩ := hi.names ht h hr hn
  refine ⟨ht', ?_, fun nm he => ?_, fun _ hr => by rw [hkept hr]⟩
  · rcases hc with ⟨mode, rfl⟩ | ⟨mode, rfl⟩ | ⟨mode, dev, rfl⟩ <;> exact hn'
  · obtain rfl : name = nm := by
      rcases hc with ⟨mode, rfl⟩ | ⟨mode, rfl⟩ | ⟨mode, dev, rfl⟩ <;> exact Option.some.inj he
    exact hacc

/-- What `cofs_link` has done. -/
theorem Mounted.linked (h : Mounted s) (hr : s.refs p ≠ 0) (hri : s.refs i ≠ 0)
    (hrun : (Call.link p i name).run s = .ok r s') :
    (r = some i ∧ LinkAdded p i name s s') ∨ ∃ j, r = none ∧ LinkRefused p i j name s s' := by
  have hs : wp (cofsLink p i name) _ _ s := link_spec h.inv h.quiet hr hri h.root
  have hrun' : (cofsLink p i name >>= fun b => pure (if b then some i else none)) s = .ok r s' :=
    hrun
  cases hl : cofsLink p i name s with
  | halt e t =>
    rw [bind_of_halt hl] at hrun'
    cases hrun'
  | ok b t =>
    rw [bind_of_ok hl] at hrun'
    cases hrun'
    rcases hs.ok hl with ⟨rfl, ha⟩ | ⟨j, rfl, ha⟩
    · exact .inl ⟨rfl, ha⟩
    · exact .inr ⟨j, rfl, ha⟩

/-- What `cofs_unlink` has done. -/
theorem Shown.unlinked (h : Shown p m s) (hr : s.refs p ≠ 0)
    (hrun : (Call.unlink p name).run s = .ok r s') :
    (lookup (slots (s.data p)) name = 0 ∧ s' = s) ∨ ∃ i, Unlinked p name i s s' := by
  have hs : wp (cofsUnlink p name) _ _ s :=
    unlink_spec h.mounted.inv h.mounted.quiet hr h.mounted.root fun h0 hl h1 =>
    h.not_drops_root (.unlink p name) (List.forall_mem_singleton.mpr hr) ⟨h0,
      .inr ⟨h1.symm, h1 ▸ hl⟩⟩
  have hrun' : (cofsUnlink p name >>= fun _ => pure ()) s = .ok () s' := Call.exec_of_run hrun
  cases hl : cofsUnlink p name s with
  | halt e t =>
    rw [bind_of_halt hl] at hrun'
    cases hrun'
  | ok b t =>
    rw [bind_of_ok hl] at hrun'
    cases hrun'
    exact (hs.ok hl).imp (fun hn => hn.2) fun ⟨i, hi⟩ => ⟨i, hi.2⟩

/-- **Every call of a run does to the map what it should.** -/
theorem Shown.done (h : Shown p m s) (hg : c.Given s) (hon : c.On p s) (hrun : c.run s = .ok r s') :
    c.Done p r s s' := by
  obtain ⟨hm, ht, rfl⟩ := id h
  have hinv := hm.inv
  have horphan : ∀ {j}, s.Orphan j → j ≠ 1 := by
    rintro j ho rfl
    exact hm.not_orphan_root ho
  have hsame : s'.file = s.file → (∀ m, c.onMap m r = m) → c.inserts = none → c.Done p r s s' := by
    intro hf ho hc
    refine ⟨by rwa [hf], by rw [hf, ho], fun name hn => ?_, fun hn => absurd hc hn⟩
    rw [hc] at hn
    cases hn
  have heffect := (c.exec_spec hm hg (h.not_drops_root c hg) hon.proper).ok (Call.exec_of_run hrun)
  cases c with
  | creat dir name mode =>
    obtain ⟨rfl, hn⟩ := hon
    have hr : s.refs dir ≠ 0 := hg dir (by simp [Call.nodes])
    exact ((creat_spec hinv hm.quiet hr horphan).ok hrun).done ht hinv hr hn (.inl ⟨mode, rfl⟩)
  | mkdir dir name mode =>
    obtain ⟨rfl, hn⟩ := hon
    have hr : s.refs dir ≠ 0 := hg dir (by simp [Call.nodes])
    exact ((mkdir_spec hinv hm.quiet hr horphan).ok hrun).done ht hinv hr hn
      (.inr (.inl ⟨mode, rfl⟩))
  | mknod dir name mode dev =>
    obtain ⟨rfl, hn⟩ := hon
    have hr : s.refs dir ≠ 0 := hg dir (by simp [Call.nodes])
    exact ((mknod_spec hinv hm.quiet hr horphan).ok hrun).done ht hinv hr hn
      (.inr (.inr ⟨mode, dev, rfl⟩))
  | link dir i name =>
    obtain ⟨rfl, hn, hlt⟩ := hon
    have hr : s.refs dir ≠ 0 := hg dir (by simp [Call.nodes])
    have hri : s.refs i ≠ 0 := hg i (by simp [Call.nodes])
    obtain ⟨rfl, ha⟩ | ⟨j, rfl, ha⟩ := hm.linked hr hri hrun
    · obtain ⟨ht', habs, hn'⟩ := ha.names ht hinv hr hri hn hlt
      refine ⟨ht', hn'.trans (if_pos habs).symm, fun nm he => ?_, fun _ he =>
        absurd he (Option.some_ne_none i)⟩
      obtain rfl : name = nm := Option.some.inj he
      exact iff_of_false (Option.some_ne_none i) (not_not.mpr habs)
    · obtain ⟨ht', hn'⟩ := ha.names ht hinv hr hri hlt
      have hfound : Files.names s.file dir name ≠ none :=
        mt (ht.lookup_data_zero hinv hr hn).mpr fun h0 => ha.pos (ha.found.symm.trans h0)
      refine ⟨ht', (Files.names_congr hn').trans (if_neg hfound).symm, fun nm he => ?_,
        fun _ _ => hn'⟩
      obtain rfl : name = nm := Option.some.inj he
      exact iff_of_true rfl hfound
  | unlink dir name =>
    obtain ⟨rfl, hn, h1⟩ := hon
    have hr : s.refs dir ≠ 0 := hg dir (by simp [Call.nodes])
    rcases h.unlinked hr hrun with ⟨hl, rfl⟩ | ⟨i, hu⟩
    · have habs := (ht.lookup_data_zero hinv hr hn).mp hl
      refine ⟨ht, ?_, fun nm hn => absurd hn.symm (Option.some_ne_none nm), fun he => absurd rfl he⟩
      exact (update_eq_self_iff.mpr habs.symm).symm
    · obtain rfl := hu.found
      obtain ⟨ht', hn'⟩ := hu.names ht hinv hr h1
      exact ⟨ht', hn', fun nm hn => absurd hn.symm (Option.some_ne_none nm),
        fun he => absurd rfl he⟩
  | finddir dir name =>
    rcases heffect with rfl | ⟨i, nm, -, -, hf, -⟩
    · exact hsame rfl (fun _ => rfl) rfl
    · exact hsame hf (fun _ => rfl) rfl
  | put i =>
    have hri : s.refs i ≠ 0 := hg i (by simp [Call.nodes])
    obtain ⟨ht', hn'⟩ := ht.dropsIf (files_of_put heffect) fun hl => by
      rw [Files.links_of_some (hinv.file_eq hri)]
      show (s.node i).numLinks % 2 ^ 16 = 0
      rw [hl.2, Nat.zero_mod]
    exact ⟨ht', hn', fun nm hn => absurd hn.symm (Option.some_ne_none nm), fun he => absurd rfl he⟩
  | dup i =>
    exact hsame (files_of_dup hinv (hg i (by simp [Call.nodes])) heffect) (fun _ => rfl) rfl
  | write i offset bytes => exact hon.elim
  | truncate i length => exact hon.elim

end

/-! ### Enumeration -/

section

variable {s : Fs} {p : ℕ}

/-- What `cofs_readdir` makes of an entry. -/
def Dirent.read (e : Dirent) : Dirent :=
  if e.inode = 0 then ⟨0, CStr.empty⟩ else ⟨e.inode, e.name.take 27⟩

omit [Stack] in
theorem Fs.setNode_eq_self {f : FsNode → FsNode} (h : f (s.node p) = s.node p) :
    s.setNode p f = s := by
  unfold Fs.setNode
  rw [h, update_eq_self]

/-- **`cofs_readdir`** returns the entry of its index, and leaves everything as it was. -/
theorem readdir_eq (h : Inv s) (hq : Quiet s) (hr : s.refs p ≠ 0) (hd : (s.node p).size % 32 = 0)
    {index : ℕ} (hi : index < 2 ^ 27) :
    cofsReaddir p index s = .ok ((slots (s.data p))[index]?.map Dirent.read) s := by
  have hl := hq.unlocked p (Fs.mem_of_refs hr)
  have hfill := (h.node_shaped hr).filled
  have hmax := hfill.1
  have hlen : (slots (s.data p)).length = (s.node p).size / 32 := by simp
  have hlocked : (s.node p).locked (s.dev.inode p) = { s.node p with lock := true } :=
    if_neg (h.loaded hr).2
  have hunlock : ({ ({ s.node p with lock := true } : FsNode) with lock := false } : FsNode) =
      s.node p := by
    rw [← hl]
  have hoffs : index * 32 % 2 ^ 32 = 32 * index := by omega
  have hspec : wp (cofsReaddir p index)
      (fun r s' => r = (slots (s.data p))[index]?.map Dirent.read ∧ s' = s)
      (fun _ _ => False) s := by
    simp only [cofsReaddir, kassert, wp_bind, wp_getNode, hl, decide_true, if_true, wp_pure, hoffs]
    refine wp_cofsLock h.held (Inv.refCount hr) (h.inode_eq hr) (fun hl' => ?_)
      (fun _ h0 => absurd h0 (h.loaded hr).2) fun _ _ => ?_
    · exact absurd (hl.symm.trans hl') (by decide)
    generalize hs : s.setNode p (fun n => n.locked (s.dev.inode p)) = s₁
    have hnode : s₁.node p = { s.node p with lock := true } := by
      rw [← hs, Fs.setNode_self, hlocked]
    have hdev : s₁.dev = s.dev := by rw [← hs, Fs.setNode_dev]
    have hback : s₁.setNode p (fun n => { n with lock := false }) = s := by
      rw [← hs, Fs.setNode_setNode]
      refine Fs.setNode_eq_self ?_
      rw [hlocked]
      exact hunlock
    rw [wp_onNode, cofsRead_of_cut (by rw [hdev]; exact h.held) (by rw [hdev, hnode]; exact hfill)
      (by
        intro ho
        rw [hnode] at ho ⊢
        have ho : 32 * index ≤ (s.node p).size := ho
        show (if (32 * index + 32) % 2 ^ 32 >
          (s.node p).size then (s.node p).size - 32 * index else 32) =
          min 32 ((s.node p).size - 32 * index)
        split_ifs <;> omega)]
    dsimp only
    rw [Fs.put_self, hdev, hnode]
    simp only [cofsUnlock, wp_bind, wp_getNode, hnode, Bool.not_true, Bool.false_eq_true, if_false,
      wp_modifyNode, hback, and_true]
    by_cases hk : index < (slots (s.data p)).length
    · have hm : min 32 ((s.node p).size - 32 * index) ≠ 0 := by omega
      rw [if_neg hm, List.getElem?_eq_getElem hk, Option.map_some, getElem_slots hk]
      unfold Dirent.read
      show (if (getDirent (((s.data p).drop (32 * index)).take 32)).inode = 0 then _ else _) = _
      split_ifs <;> rfl
    · have hm : min 32 ((s.node p).size - 32 * index) = 0 := by omega
      rw [if_pos hm, List.getElem?_eq_none (Nat.le_of_not_lt hk)]
      rfl
  obtain ⟨r, s', hrun, rfl, rfl⟩ := hspec.returns
  exact hrun

end

/-! ### Lookup and refusal -/

section

variable {s s' : Fs} {p i j : ℕ} {name : CStr} {c : Call} {r : Option ℕ} {m : CStr → Option ℕ}

/-- The caller has directory `p` open. -/
def Fs.OpenDir (s : Fs) (p : ℕ) : Prop := s.refs p ≠ 0 ∧ (s.node p).type &&& 0x4000 ≠ 0

instance (s : Fs) (p : ℕ) : Decidable (s.OpenDir p) := inferInstanceAs (Decidable (_ ∧ _))

omit [Stack] in
/-- The type in the record of a file. -/
theorem record_type_of_file {n : ℕ} (h : Files.type s.file i &&& n ≠ 0) :
    (s.record i).type &&& n ≠ 0 := by
  by_cases ha : s.Allocated i
  · rw [Files.type_of_some (Fs.file_of_allocated ha)] at h
    exact h
  · rw [Files.type_of_none (Fs.file_eq_none.mpr ha), Nat.zero_and] at h
    exact absurd rfl h

/-- A name in the map is found. -/
theorem Shown.lookup_eq (h : Shown p m s) (hr : s.refs p ≠ 0) (hm : m name = some i) :
    lookup (slots (s.data p)) name = i ∧ i ≠ 0 ∧ ¬ s.Orphan i ∧
      Files.type s.file i &&& 0xF000 ≠ 0 := by
  obtain ⟨hmount, ht, rfl⟩ := h
  obtain ⟨he, h0⟩ := ht.mem_iff.mp hm
  have hl := ht.lookup_data hmount.inv hr (ht.short_of_names hm)
  rw [hm] at hl
  refine ⟨hl, h0, fun ho => ?_, ht.typed _ he h0⟩
  refine ht.links_ne_zero he h0 ?_
  by_cases ha : s.Allocated i
  · exact hmount.inv.links_eq_zero ha ho.2
  · exact Files.links_of_none (Fs.file_eq_none.mpr ha)

/-- `cofs_finddir` does not halt on a name in the map for whose node there is room. -/
theorem Shown.not_findFails (h : Shown p m s) (ho : s.OpenDir p) (hn : name.Short)
    (hroom : ∀ i, m name = some i → ¬ s.CacheFull i) : ¬ FindFails s p name := by
  rintro (hd | ⟨h0, hc⟩)
  · exact ho.2 hd
  · have hmount := h.mounted
    have hm : m name ≠ none := by
      rw [← h.names]
      exact mt (h.tidy.lookup_data_zero hmount.inv ho.1 hn).mpr h0
    obtain ⟨i, hm⟩ := Option.ne_none_iff_exists'.mp hm
    obtain ⟨hl, -, -, htype⟩ := h.lookup_eq ho.1 hm
    rw [hl] at hc
    rcases hc with hfull | ⟨hr, hlock⟩ | hrec
    · exact hroom i hm hfull
    · rw [hmount.quiet.unlocked i (Fs.mem_of_refs hr)] at hlock
      cases hlock
    · exact record_type_of_file htype hrec

/-- **`cofs_finddir`** returns what the map has under the name. -/
theorem Shown.finddir (h : Shown p m s) (ho : s.OpenDir p) (hn : name.Short)
    (hroom : ∀ i, m name = some i → ¬ s.CacheFull i) :
    wp (cofsFinddir p name) (fun r _ => r = m name) (fun _ _ => False) s := by
  have hmap := h.tidy.lookup_data h.mounted.inv ho.1 hn
  rw [h.names] at hmap
  refine finddir_spec h.mounted.inv ho.1
    (fun _ _ _ _ hf => h.not_findFails ho hn hroom hf) (fun _ hl => ?_)
    fun i _ hl h0 _ _ _ _ _ _ _ _ => ?_
  · have := (h.tidy.lookup_data_zero h.mounted.inv ho.1 hn).mp hl
    rw [h.names] at this
    exact this.symm
  · cases hm : m name with
    | none =>
      rw [hm, hl] at hmap
      exact absurd hmap h0
    | some j =>
      rw [hm, hl] at hmap
      exact congrArg some hmap

/-- The operations that create a node return none if the name is there. -/
theorem Shown.addNode_none (h : Shown p m s) (ho : s.OpenDir p) (hm : m name = some i)
    (hroom : ¬ s.CacheFull i) {t : ℕ} {init : ℕ → Prog Halt Fs Unit} :
    wp (addNode p name t init) (fun r _ => r = none) (fun _ _ => False) s := by
  have hmount := h.mounted
  obtain ⟨hl, h0, horphan, -⟩ := h.lookup_eq ho.1 hm
  have hn : name.Short := h.tidy.short_of_names (by rw [h.names]; exact hm)
  have hroom : ∀ j, m name = some j → ¬ s.CacheFull j := fun j hj => by
    obtain rfl := Option.some.inj (hm.symm.trans hj)
    exact hroom
  rw [addNode, wp_bind]
  refine finddir_spec hmount.inv ho.1 (fun _ _ _ _ hf => h.not_findFails ho hn hroom hf)
    (fun _ hl' => absurd (hl.symm.trans hl') h0) fun j _ hl' _ _ _ s₁ hf nm _ _ ht => ?_
  obtain rfl : i = j := hl.symm.trans hl'
  simp only [wp_bind, wp_pure]
  exact (putBack_spec hmount.inv (fun hr => hmount.quiet.clean i (hmount.inv.loaded hr))
    (fun hc => absurd hc horphan) hf ht).mono (fun _ _ _ => trivial) fun _ _ he => horphan he.2.1

/-- The cache is full in the middle of `cofs_link` only if it was before. -/
theorem Linking.cacheFull (h : Linking p i s s') (hf : s'.CacheFull j) : s.CacheFull j := by
  obtain ⟨hj, hlen, hall⟩ := hf
  rw [h.cache] at hj hlen hall
  refine ⟨hj, hlen, fun k hk => ?_⟩
  have hrefs := h.refs k
  rw [Fs.refs_of_mem (h.cache.symm ▸ hk), Fs.refs_of_mem hk] at hrefs
  rw [← hrefs]
  exact hall k hk

/-- **`cofs_link`** returns false if the name is there for another node. -/
theorem Shown.link (h : Shown p m s) (ho : s.OpenDir p) (hri : s.refs i ≠ 0) (hm : m name = some j)
    (hroom : ¬ s.CacheFull j) (hpi : p ≠ i) (hji : j ≠ i) (hjp : j ≠ p) :
    wp (cofsLink p i name) (fun b _ => b = false) (fun _ _ => False) s := by
  have hmount := h.mounted
  have hq := hmount.quiet
  obtain ⟨hl, h0, horphan, htype⟩ := h.lookup_eq ho.1 hm
  refine link_path hmount.inv hq ho.1 hri (fun e => absurd e hpi) fun s₄ h₄ => ?_
  have hne : ¬ (j = p ∨ j = i) := fun hc => hc.elim hjp hji
  have hrp₄ : s₄.refs p ≠ 0 := by
    rw [h₄.refs]
    exact ho.1
  have hri₄ : s₄.refs i ≠ 0 := by
    rw [h₄.refs]
    exact hri
  have hfile := h₄.rest.file j hne
  have hl₄ : lookup (slots (s₄.data p)) name = j := by
    rw [h₄.data]
    exact hl
  have hfinds : ¬ FindFails s₄ p name := by
    rintro (hd | ⟨-, hc⟩)
    · rw [h₄.dir] at hd
      exact ho.2 hd
    · rw [hl₄] at hc
      rcases hc with hfull | ⟨hr, hlock⟩ | hrec
      · exact hroom (h₄.cacheFull hfull)
      · rw [h₄.refs] at hr
        rw [h₄.rest.node hne hr, hq.unlocked j (Fs.mem_of_refs hr)] at hlock
        cases hlock
      · refine record_type_of_file ?_ hrec
        rw [Files.type_congr hfile]
        exact htype
  have horphan₄ : ¬ s₄.Orphan j := by
    intro hc
    have hlinks : Files.links s₄.file j ≠ 0 := by
      rw [(Files.congr hfile).2]
      obtain ⟨he, -⟩ := h.tidy.mem_iff.mp (by rw [h.names]; exact hm)
      exact h.tidy.links_ne_zero he h0
    by_cases ha : s₄.Allocated j
    · exact hlinks (h₄.inv.links_eq_zero ha hc.2)
    · exact hlinks (Files.links_of_none (Fs.file_eq_none.mpr ha))
  simp only [wp_bind, cofsDirlink]
  refine finddir_spec h₄.inv hrp₄ (fun _ _ _ _ hf => hfinds hf)
    (fun _ hl' => absurd (hl₄.symm.trans hl') h0) fun k _ hl' _ _ _ s₁ hf nm _ _ ht => ?_
  obtain rfl : j = k := hl₄.symm.trans hl'
  simp only [wp_bind, wp_pure]
  refine (putBack_spec h₄.inv (h₄.clean j) (fun hc => absurd hc horphan₄) hf ht).mono
    (fun _ s₅ hp => ?_) fun _ _ he => horphan₄ he.2.1
  have hrp₅ : s₅.refs p ≠ 0 := by rwa [hp.rest.refs p hjp.symm]
  have hri₅ : s₅.refs i ≠ 0 := by rwa [hp.rest.refs i hji.symm]
  refine (cofsUnlock_spec hp.inv hrp₅ (by rw [hp.rest.node hjp.symm hrp₄, h₄.dir])).mono
    (fun _ s₆ h₆ => ?_) fun _ _ he => he
  obtain ⟨hri₆, hni₆, -, -⟩ := h₆.other hp.inv hpi.symm hri₅
  exact (cofsUnlock_spec h₆.inv hri₆ (by rw [hni₆, hp.rest.node hji.symm hri₄, h₄.node])).mono
    (fun _ _ _ => trivial) fun _ _ he => he

end

/-! ### The map of a directory -/

section

variable {s s' : Fs} {p i j : ℕ} {name : CStr} {c : Call} {r : Option ℕ} {m : CStr → Option ℕ}

/-- The call is turned down: it returns no node, and the entries of the directory are as before. -/
def Refused (p : ℕ) (c : Call) (s : Fs) : Prop :=
  ∃ s', c.run s = .ok none s' ∧ s'.dev.entries p = s.dev.entries p

/-- A node that is linked is neither the directory nor the one that has the name, and that one is
not the directory. -/
def Call.Apart (p i : ℕ) : Call → Prop
  | link _ node _ => p ≠ node ∧ i ≠ node ∧ i ≠ p
  | _ => True

/-- **Directory `p` is the map `m`.** No name is in two of its entries. As long as it is open,
`cofs_finddir` returns what the map has under a name, if there is room for its node; an insertion
inserts a name exactly if it is not in the map, and is otherwise turned down, where the nodes are
apart; `cofs_readdir` returns a free entry or one that is in the map for each index up to the
last, and every name of the map for one index. -/
structure IsMap (p : ℕ) (m : CStr → Option ℕ) (s : Fs) : Prop where
  entries : ∀ name i, m name = some i ↔ ⟨i, name⟩ ∈ s.dev.entries p ∧ i ≠ 0
  once : (((s.dev.entries p).filter fun e => e.inode ≠ 0).map Dirent.name).Nodup
  finds : s.OpenDir p → ∀ name, name.Short → (∀ i, m name = some i → ¬ s.CacheFull i) →
    (cofsFinddir p name s).value? = some (m name)
  accepts : ∀ (c : Call) r s' name, c.Given s → c.On p s → c.inserts = some name →
      c.run s = .ok r s' →
    (r = none ↔ m name ≠ none)
  refuses : s.OpenDir p → ∀ (c : Call) name i, c.Given s → c.On p s → c.inserts = some name →
    m name = some i → ¬ s.CacheFull i → (Refused p c s ↔ c.Apart p i)
  lists : s.OpenDir p → ∀ index < 2 ^ 27, ∃ r, cofsReaddir p index s = .ok r s ∧
    (r = none ↔ (s.dev.entries p).length ≤ index) ∧
    ∀ e, r = some e → e = ⟨0, CStr.empty⟩ ∨ m e.name = some e.inode
  listed : s.OpenDir p → ∀ name i, m name = some i →
    ∃! index, index < 2 ^ 27 ∧ cofsReaddir p index s = .ok (some ⟨i, name⟩) s

theorem Files.Tidy.allocated (ht : Files.Tidy p s.file) : s.Allocated p := by
  by_contra ha
  exact ht.linked (Files.links_of_none (Fs.file_eq_none.mpr ha))

/-- The entries on the disk are those of the files. -/
theorem Shown.entries_eq (h : Shown p m s) : Files.entries s.file p = s.dev.entries p :=
  h.mounted.quiet.entries_eq h.tidy.allocated.1

/-- No name is in two entries that are not free. -/
theorem Files.Tidy.nodup {F : Files} (h : F.Tidy p) :
    (((F.entries p).filter fun e => e.inode ≠ 0).map Dirent.name).Nodup := by
  rw [List.Nodup, List.pairwise_map, List.pairwise_filter]
  refine (List.pairwise_map.mp h.distinct).imp fun {e e'} hne h0 h0' => ?_
  have h0 : e.inode ≠ 0 := of_decide_eq_true h0
  have h0' : e'.inode ≠ 0 := of_decide_eq_true h0'
  exact hne (e.name, e.inode) (Dirent.slot_eq_some.mpr ⟨rfl, h0⟩) (e'.name, e'.inode)
    (Dirent.slot_eq_some.mpr ⟨rfl, h0'⟩)

/-- `cofs_creat` in a directory. -/
theorem creat_eq {mode : ℕ} (hd : (s.node p).type &&& 0x4000 ≠ 0) :
    cofsCreat p name mode s =
      addNode p name 0x8000 (fun i => modifyNode i fun n => { n with mask := mode, numLinks := 1 })
        s := by
  have hassert : kassert "node->type & FS_DIRECTORY" (decide ((s.node p).type &&& 0x4000 ≠ 0)) s =
      .ok () s := by
    rw [kassert, decide_eq_true hd]
    rfl
  exact bind_of_ok hassert

/-- An insertion of a name that is there is turned down exactly if the nodes are apart. -/
theorem Shown.refused_iff (h : Shown p m s) (ho : s.OpenDir p) (hg : c.Given s) (hon : c.On p s)
    (hc : c.inserts = some name) (hm : m name = some i) (hroom : ¬ s.CacheFull i) :
    Refused p c s ↔ c.Apart p i := by
  have hrefused : ∀ {s'}, c.run s = .ok none s' → Refused p c s := fun {s'} hrun => by
    have hd := h.done hg hon hrun
    have hm' := ((c.exec_spec h.mounted hg (h.not_drops_root c hg) hon.proper).ok
      (Call.exec_of_run hrun)).mounted h.mounted hg
    refine ⟨s', hrun, ?_⟩
    rw [← hm'.quiet.entries_eq hd.tidy.allocated.1, ← h.entries_eq]
    exact hd.kept (by rw [hc]; exact Option.some_ne_none name) rfl
  have hnode : ∀ {t : ℕ} {init : ℕ → Prog Halt Fs Unit}, c.run s = addNode p name t init s →
      Refused p c s := fun {t init} hrun => by
    obtain ⟨r, s', hadd, rfl⟩ : ∃ r s', addNode p name t init s = .ok r s' ∧ r = none :=
      (h.addNode_none ho hm hroom).returns
    exact hrefused (hrun.trans hadd)
  cases c with
  | creat dir nm mode =>
    obtain ⟨rfl, -⟩ := hon
    obtain rfl := Option.some.inj hc
    exact iff_of_true (hnode (creat_eq ho.2)) trivial
  | mkdir dir nm mode =>
    obtain ⟨rfl, -⟩ := hon
    obtain rfl := Option.some.inj hc
    exact iff_of_true (hnode rfl) trivial
  | mknod dir nm mode dev =>
    obtain ⟨rfl, -⟩ := hon
    obtain rfl := Option.some.inj hc
    exact iff_of_true (hnode rfl) trivial
  | link dir node nm =>
    obtain ⟨rfl, -⟩ := hon
    obtain rfl := Option.some.inj hc
    have hri : s.refs node ≠ 0 := hg node (by simp [Call.nodes])
    constructor
    · rintro ⟨s', hrun, -⟩
      rcases h.mounted.linked ho.1 hri hrun with ⟨he, -⟩ | ⟨j, -, hj⟩
      · cases he
      · obtain rfl : j = i := hj.found.symm.trans (h.lookup_eq ho.1 hm).1
        exact ⟨hj.ne, hj.ne_node, hj.ne_parent⟩
    · rintro ⟨hpi, hin, hip⟩
      obtain ⟨b, s', hlink, rfl⟩ := (h.link ho hri hm hroom hpi hin hip).returns
      exact hrefused (bind_of_ok hlink)
  | unlink _ _ => cases hc
  | finddir _ _ => cases hc
  | put _ => cases hc
  | dup _ => cases hc
  | write _ _ _ => cases hc
  | truncate _ _ => cases hc


theorem Shown.isMap (h : Shown p m s) : IsMap p m s := by
  obtain ⟨hmount, ht, hm⟩ := id h
  have hent := h.entries_eq
  have hlive : ∀ name i, m name = some i ↔ ⟨i, name⟩ ∈ s.dev.entries p ∧ i ≠ 0 := fun name i => by
    rw [← hm, ← hent]
    exact ht.mem_iff
  have hread : s.OpenDir p → (∀ index < 2 ^ 27, cofsReaddir p index s =
      .ok ((s.dev.entries p)[index]?.map Dirent.read) s) ∧ (s.dev.entries p).length < 2 ^ 27 := by
    intro ho
    have hsize := (hmount.inv.dir_ok ho.1 ho.2).1
    have hmax := (hmount.inv.node_shaped ho.1).le
    rw [← hent, ht.entries_eq hmount.inv ho.1]
    refine ⟨fun index hi => readdir_eq hmount.inv hmount.quiet ho.1 hsize hi, ?_⟩
    rw [length_slots, Fs.length_data]
    unfold maxFileSize at hmax
    omega
  refine ⟨hlive, hent ▸ ht.nodup, fun ho name hn hroom => ?_, fun c r s' name hg hon hc hrun => ?_,
    fun ho c name i hg hon hc hmi hroom => h.refused_iff ho hg hon hc hmi hroom,
    fun ho index hi => ?_, fun ho name i hmi => ?_⟩
  · obtain ⟨r, s', hrun, rfl⟩ := (h.finddir ho hn hroom).returns
    rw [hrun]
    rfl
  · rw [← hm]
    exact (h.done hg hon hrun).accepts name hc
  · refine ⟨_, (hread ho).1 index hi, ?_, fun e he => ?_⟩
    · rw [Option.map_eq_none_iff, List.getElem?_eq_none_iff]
    · obtain ⟨e₀, he₀, rfl⟩ := Option.map_eq_some_iff.mp he
      have hmem := List.mem_of_getElem? he₀
      unfold Dirent.read
      split_ifs with h0
      · exact .inl rfl
      · refine .inr ((hlive _ _).mpr ⟨?_, h0⟩)
        have hshort := ht.short e₀ (hent ▸ hmem) h0
        rw [CStr.take_of_le (Nat.le_of_lt_succ hshort.2)]
        exact hmem
  · obtain ⟨hmem, h0⟩ := (hlive name i).mp hmi
    obtain ⟨k, hk⟩ := List.mem_iff_getElem?.mp hmem
    have hlt : k < 2 ^ 27 := (List.getElem?_eq_some_iff.mp hk).1.trans (hread ho).2
    have hname : name.take 27 = name :=
      CStr.take_of_le (Nat.le_of_lt_succ (ht.short_of_names (hm ▸ hmi)).2)
    refine ⟨k, ⟨hlt, ?_⟩, fun k' ⟨hlt', hk'⟩ => ?_⟩
    · rw [(hread ho).1 k hlt, hk, Option.map_some, Dirent.read, if_neg h0, hname]
    · rw [(hread ho).1 k' hlt'] at hk'
      obtain ⟨e, he, hr⟩ := Option.map_eq_some_iff.mp (Outcome.ok.inj hk').1
      have hmem' := List.mem_of_getElem? he
      unfold Dirent.read at hr
      split_ifs at hr with h0'
      · exact absurd (congrArg Dirent.inode hr).symm h0
      · have hshort := ht.short e (hent ▸ hmem') h0'
        rw [CStr.take_of_le (Nat.le_of_lt_succ hshort.2)] at hr
        have hslot : ∀ {k : ℕ}, (s.dev.entries p)[k]? = some (⟨i, name⟩ : Dirent) →
            ((s.dev.entries p).map Dirent.slot)[k]? = some (some (name, i)) := fun {k} hk => by
          rw [List.getElem?_map, hk, Option.map_some,
            (Dirent.slot_eq_some (e := ⟨i, name⟩)).mpr ⟨rfl, h0⟩]
        exact (hent ▸ ht.distinct).index_eq (hslot (he.trans (congrArg some hr))) (hslot hk)

theorem Shown.step {x y : (CStr → Option ℕ) × Fs} (h : Shown p x.1 x.2) (hs : DirStep p x y) :
    Shown p y.1 y.2 := by
  obtain ⟨c, r, hg, hon, hrun, hy⟩ := hs
  have hd := h.done hg hon hrun
  have he :=
    (c.exec_spec h.mounted hg (h.not_drops_root c hg) hon.proper).ok (Call.exec_of_run hrun)
  refine ⟨he.mounted h.mounted hg, hd.tidy, ?_⟩
  rw [hd.names, h.names, hy]

/-- **Directories are finite maps.** From a directory in order, after every run of calls on it the
directory is the map that the calls have made of the one it was. -/
theorem dir_isMap {m : CStr → Option ℕ} {s₀ s : Fs} (h₀ : Mounted s₀) (ht : Files.Tidy p s₀.file)
    (hrun : Reach (DirStep p) (Files.names s₀.file p, s₀) (m, s)) : IsMap p m s := by
  have hstart : Shown p (Files.names s₀.file p) s₀ := ⟨h₀, ht, rfl⟩
  have hend :=
    Reach.invariant (I := fun x => Shown p x.1 x.2) (fun _ _ h hs => h.step hs) hstart hrun
  exact hend.isMap

end

/-! ### A directory that has just been made -/

/-- **`cofs_mkdir` makes a directory in order**, if the parent and the root are linked. -/
theorem Inserted.tidy {s s' : Fs} {p i mask : ℕ} {name : CStr} (h : Mounted s) (hr : s.refs p ≠ 0)
    (hp : Files.links s.file p ≠ 0) (h1 : Files.links s.file 1 ≠ 0)
    (hi : Inserted p name 0x4000 mask (fun i => [⟨i, dot⟩, ⟨p, dotdot⟩]) s (some i) s') :
    Files.Tidy i s'.file := by
  rcases hi with ⟨he, -⟩ | ⟨j, n, data, he, ha, hf⟩
  · cases he
  obtain rfl : i = j := Option.some.inj he
  obtain ⟨hpi, k, F, -, hm, hs⟩ := ha.files h.inv hr
  have hri : s'.refs i ≠ 0 := by
    rw [ha.refs]
    exact Nat.one_ne_zero
  have hi0 : i ≠ 0 := Nat.ne_of_gt ha.pos
  have hp0 : p ≠ 0 := Nat.ne_of_gt (h.inv.pos hr)
  have hi1 : 1 ≠ i := fun e => h.root (e ▸ ha.unused)
  have hfit := ha.inv.fits hri
  have h0 := (ha.inv.loaded hri).2
  rw [ha.node] at hfit h0
  have hdir : n.pack.type &&& 0x4000 ≠ 0 := pack_type_dir (by rw [hf.type]; decide)
  have htype : Files.type s'.file i = n.pack.type := by
    rw [hs.type, Files.type_of_some hm.self]
    rfl
  have hent : Files.entries s'.file i = [⟨i, dot⟩, ⟨p, dotdot⟩] := by
    rw [(Files.congr (hs.of_ne hpi.symm)).1, Files.entries_of_some hm.self]
    exact (if_neg hdir).trans hf.slots
  have hlinks : ∀ j, j ≠ i → Files.links s'.file j = Files.links s.file j := fun j hj => by
    rw [hs.links, (Files.congr (hm.of_ne hj)).2]
  have hmem : ∀ e ∈ Files.entries s'.file i, e = ⟨i, dot⟩ ∨ e = ⟨p, dotdot⟩ := fun e he => by
    rw [hent] at he
    simpa using he
  refine ⟨by rw [htype]; exact hdir, fun e he he0 => ?_, fun e he _ => ?_, ?_, fun e he _ => ?_,
    fun j hj hji hj1 => ?_, ?_, ?_⟩
  · rcases hmem e he with rfl | rfl
    · exact absurd he0 hi0
    · exact absurd he0 hp0
  · rcases hmem e he with rfl | rfl
    · exact (by decide : dot.Short)
    · exact (by decide : dotdot.Short)
  · rw [hent]
    refine List.pairwise_pair.mpr fun x hx y hy => ?_
    rw [Dirent.slot_eq_some.mpr ⟨rfl, hi0⟩] at hx
    rw [Dirent.slot_eq_some.mpr ⟨rfl, hp0⟩] at hy
    cases hx
    cases hy
    exact (by decide : dot ≠ dotdot)
  · rcases hmem e he with rfl | rfl
    · rw [htype]
      exact hfit.pack_type_and_ne_zero h0
    · rw [hs.type, Files.type_congr (hm.of_ne hpi), Files.type_of_some (h.inv.file_eq hr)]
      exact (h.inv.fits hr).pack_type_and_ne_zero (h.inv.loaded hr).2
  · rw [hent, hlinks j hji]
    by_cases hjp : p = j
    · subst hjp
      have hone : [(⟨i, dot⟩ : Dirent), ⟨p, dotdot⟩].countP (fun e => e.inode = p) = 1 := by
        simp [hji.symm]
      omega
    · simp [hji.symm, hjp]
  · rw [hs.links, Files.links_of_some hm.self]
    show n.numLinks % 2 ^ 16 ≠ 0
    rw [hf.numLinks]
    decide
  · rw [hlinks 1 hi1]
    exact h1

end

/-! ### An insertion that never returns -/

attribute [local instance] Stack.zero

/-- The root directory of the small partition is empty. -/
theorem tiny_root : Files.entries (tiny (emptyNode 0x4000)).file 1 = [] ∧
    Files.links (tiny (emptyNode 0x4000)).file 1 ≠ 0 ∧
    Files.type (tiny (emptyNode 0x4000)).file 1 &&& 0x4000 ≠ 0 := by
  have hfile := tiny_mounted.inv.file_eq tiny_mounted.root
  rw [Files.entries_of_some hfile, Files.links_of_some hfile, Files.type_of_some hfile]
  decide +kernel

/-- The root directory of the small partition is in order. -/
theorem tiny_tidy : Files.Tidy 1 (tiny (emptyNode 0x4000)).file := by
  obtain ⟨hent, hlinks, htype⟩ := tiny_root
  refine ⟨htype, ?_, ?_, ?_, ?_, ?_, hlinks, hlinks⟩ <;> rw [hent]
  · exact nofun
  · exact nofun
  · exact List.Pairwise.nil
  · exact nofun
  · exact fun j _ _ _ => Nat.zero_le _

theorem tiny_names : Files.names (tiny (emptyNode 0x4000)).file 1 = fun _ => none := by
  unfold Files.names
  rw [tiny_root.1]
  rfl

/-- The map of the root directory after `creat("a")`. -/
def oneName : CStr → Option ℕ := update (fun _ => none) nameA (some 2)

theorem value_oneFile :
    ((Call.creat 1 nameA 0).run (tiny (emptyNode 0x4000))).value? = some (some 2) := by
  decide +kernel

theorem run_oneFile :
    (Call.creat 1 nameA 0).run (tiny (emptyNode 0x4000)) = .ok (some 2) oneFile := by
  obtain ⟨t, hrun⟩ : ∃ t, (Call.creat 1 nameA 0).run (tiny (emptyNode 0x4000)) = .ok (some 2) t :=
    ⟨_, Outcome.eq_ok_of_value value_oneFile⟩
  have hexec := Call.exec_of_run hrun
  have hone : oneFile = t := by
    unfold oneFile
    rw [hexec]
    rfl
  rw [hrun, hone]

theorem dirStep_oneFile :
    DirStep 1 (Files.names (tiny (emptyNode 0x4000)).file 1, tiny (emptyNode 0x4000))
      (oneName, oneFile) := by
  have hg : (Call.creat 1 nameA 0).Given (tiny (emptyNode 0x4000)) :=
    List.forall_mem_singleton.mpr tiny_mounted.root
  have hon : (Call.creat 1 nameA 0).On 1 (tiny (emptyNode 0x4000)) := ⟨rfl, by decide⟩
  have hmap : Call.onMap (fun _ => none) (some 2) (.creat 1 nameA 0) = oneName := by
    rw [Call.onMap, if_pos rfl]
    rfl
  rw [tiny_names, ← hmap]
  exact DirStep.of_run hg hon run_oneFile

/-- The directory of one file is a map with its name. -/
theorem dir_isMap_oneFile :
    IsMap 1 oneName oneFile ∧ (cofsFinddir 1 nameA oneFile).value? = some (some 2) :=
  ⟨dir_isMap tiny_mounted tiny_tidy (.single dirStep_oneFile), by decide +kernel⟩

/-- **`cofs_link` waits for ever** when the name is there for the node that it is given: the
insertion of a name that is in the map is not turned down. -/
theorem link_same_waits :
    Mounted (tiny (emptyNode 0x4000)) ∧ Files.Tidy 1 (tiny (emptyNode 0x4000)).file ∧
    Reach (DirStep 1) (Files.names (tiny (emptyNode 0x4000)).file 1, tiny (emptyNode 0x4000))
      (oneName, oneFile) ∧
    oneFile.OpenDir 1 ∧ (Call.link 1 2 nameA).Given oneFile ∧ (Call.link 1 2 nameA).On 1 oneFile ∧
    oneName nameA = some 2 ∧ ¬ oneFile.CacheFull 2 ∧
    (∃ s', cofsLink 1 2 nameA oneFile = .halt .deadlock s') ∧
    ¬ Refused 1 (.link 1 2 nameA) oneFile := by
  have h1 : oneFile.refs 1 ≠ 0 := by decide +kernel
  have h2 : oneFile.refs 2 ≠ 0 := by decide +kernel
  have hlinks : (oneFile.node 2).numLinks % 2 ^ 16 + 1 < 2 ^ 16 := by decide +kernel
  have hwaits : ∃ s', cofsLink 1 2 nameA oneFile = .halt .deadlock s' := by
    have hdead : (match cofsLink 1 2 nameA oneFile with
      | .halt .deadlock _ => true
      | _ => false) = true := by decide +kernel
    cases hrun : cofsLink 1 2 nameA oneFile with
    | ok b t =>
      rw [hrun] at hdead
      cases hdead
    | halt e t =>
      rw [hrun] at hdead
      cases e with
      | deadlock => exact ⟨t, rfl⟩
      | _ => cases hdead
  refine ⟨tiny_mounted, tiny_tidy, .single dirStep_oneFile, by decide +kernel, fun i hi => ?_,
    ⟨rfl, by decide, hlinks⟩, update_self .., fun hf => hf.1 (Fs.mem_of_refs h2), hwaits, ?_⟩
  · rcases List.mem_cons.mp hi with rfl | hi
    · exact h1
    · rw [List.mem_singleton.mp hi]
      exact h2
  · rintro ⟨s', hrun, -⟩
    obtain ⟨t, hlink⟩ := hwaits
    have hhalt : (Call.link 1 2 nameA).run oneFile = .halt .deadlock t := bind_of_halt hlink
    rw [hhalt] at hrun
    cases hrun

end Cosiris.Cofs
