import Cosiris.Cofs.Accounting
import Cosiris.Cofs.Effects

/-!
# Link counts

Over a run of calls, the number of links in the record of an inode is the number of
entries, other than `.` and `..`, that name it. The root has more by a constant, which
is the link that it gets when the partition is formatted. `cofs_link` writes the number
before it looks whether the name exists and does not take it back, so that this holds
as long as it is given new names.
-/

namespace Cosiris.Cofs

open Function Prog

section

variable [Stack]

/-- The name is neither `.` nor `..`. -/
def CStr.Plain (name : CStr) : Prop := name ≠ dot ∧ name ≠ dotdot

instance (name : CStr) : Decidable name.Plain := inferInstanceAs (Decidable (_ ∧ _))

/-- The entry is a link to inode `j`. -/
def Dirent.linksTo (j : ℕ) (e : Dirent) : Bool := e.inode = j ∧ e.name.Plain

/-- The entry is a link. -/
def Dirent.isLink (e : Dirent) : Bool := e.inode ≠ 0 ∧ e.name.Plain

/-- The entries of a directory on the disk. -/
def Dev.entries (d : Dev) (i : ℕ) : List Dirent :=
  if (d.inode i).type &&& 0x4000 = 0 then []
  else slots (contents d.disk (d.inode i).addrs (d.inode i).size)

/-- The number of entries that are links to inode `j`. -/
def Dev.linksTo (d : Dev) (j : ℕ) : ℕ :=
  ∑ i ∈ Finset.range d.superb.numInodes, (d.entries i).countP (Dirent.linksTo j)

/-- **The link counts are right**: an inode that is in use has as many links as there are entries
that link to it, the root `r` more, and no entry links to a free inode. -/
structure LinksRight (r : ℕ) (d : Dev) : Prop where
  used : ∀ j, 0 < j → j < d.superb.numInodes → (d.inode j).type ≠ 0 →
    (d.inode j).numLinks = d.linksTo j + if j = 1 then r else 0
  free : ∀ j, 0 < j → j < d.superb.numInodes → (d.inode j).type = 0 → d.linksTo j = 0

/-- How many entries of directory `i` the call removes. -/
def Call.removes (i : ℕ) : Call → ℕ
  | .unlink dir _ => if dir = i then 1 else 0
  | _ => 0

/-- The call keeps the link counts right: a name that is inserted or removed is neither `.` nor
`..`, `cofs_link` is given a new name for an inode whose number of links fits its field with one
more, the root is not removed, and a directory that is released has no links left. -/
def Call.Even (s : Fs) (c : Call) : Prop :=
  (match c with
    | .creat dir name _ | .mkdir dir name _ | .mknod dir name _ _ =>
        lookup (slots (s.data dir)) name = 0 → name.Plain
    | .link dir node name =>
      lookup (slots (s.data dir)) name = 0 ∧ name.Plain ∧
        (s.node node).numLinks % 2 ^ 16 + 1 < 2 ^ 16
    | .unlink dir name =>
        lookup (slots (s.data dir)) name ≠ 0 → name.Plain ∧ lookup (slots (s.data dir)) name ≠ 1
    | .finddir _ _ | .put _ | .dup _ => True
    | .write _ _ _ | .truncate _ _ => False) ∧
  ∀ i, c.Drops s i → i ≠ 1 ∧ (Files.entries s.file i).countP Dirent.isLink ≤ c.removes i

/-! ### Counting the links -/

theorem CStr.stored_eq_iff {name c : CStr} (hc : c.bytes.length < 28) :
    name.stored = c ↔ name = c := by
  constructor
  · rintro rfl
    by_cases hlt : name.bytes.length < 28
    · exact (CStr.stored_of_lt hlt).symm
    · rw [CStr.stored_of_le (Nat.le_of_not_lt hlt), List.length_append, List.length_take] at hc
      omega
  · rintro rfl
    exact CStr.stored_of_lt hc

theorem CStr.stored_plain (name : CStr) : name.stored.Plain ↔ name.Plain := by
  unfold CStr.Plain
  rw [Ne, Ne, CStr.stored_eq_iff (by decide), CStr.stored_eq_iff (by decide)]

omit [Stack] in
theorem Dirent.linksTo_eq_true {j : ℕ} {e : Dirent} :
    e.linksTo j = true ↔ e.inode = j ∧ e.name.Plain := by
  unfold Dirent.linksTo
  exact decide_eq_true_iff

omit [Stack] in
theorem Dirent.isLink_of_linksTo {j : ℕ} {e : Dirent} (hj : 0 < j) (h : e.linksTo j = true) :
    e.isLink = true := by
  obtain ⟨rfl, hp⟩ := Dirent.linksTo_eq_true.mp h
  exact decide_eq_true ⟨by omega, hp⟩

namespace Files

/-- The link counts of the files are right. -/
def Counted (r n : ℕ) (F : Files) : Prop :=
  ∀ j, 0 < j → j < n → F.links j = F.count n (Dirent.linksTo j) + if j = 1 then r else 0

variable {F F' : Files} {r n p i k : ℕ} {name : CStr}

omit [Stack] in
/-- No links, so none to any inode. -/
theorem countP_linksTo {l : List Dirent} {j : ℕ} (h : l.countP Dirent.isLink = 0) (hj : 0 < j) :
    l.countP (Dirent.linksTo j) = 0 := by
  refine List.countP_eq_zero.mpr fun e he hlink => ?_
  exact List.countP_eq_zero.mp h e he (Dirent.isLink_of_linksTo hj hlink)

/-- A file without links is dropped. -/
theorem Counted.dropsIf {P : Prop} {o : Option File} (h : F.Counted r n) (hd : F.DropsIf P F' i o)
    (hl : P → F.links i = 0)
    (he : P → (F.entries i).countP Dirent.isLink = 0) : F'.Counted r n := by
  by_cases hP : P
  · have hdrop := hd.1 hP
    intro j hj hlt
    have hcount : F'.count n (Dirent.linksTo j) = F.count n (Dirent.linksTo j) := by
      refine count_of_eq (fun q hq => hdrop.of_ne hq) (countP_linksTo (he hP) hj) ?_
      rw [hdrop.self.1]
      rfl
    rw [hcount, ← h j hj hlt]
    by_cases hji : j = i
    · rw [hji, hdrop.self.2, hl hP]
    · exact (congr (hdrop.of_ne hji)).2
  · rwa [hd.2 hP]

/-- A link is put in a free place. -/
theorem Sets.count_link {j : ℕ} (h : F.Sets F' p k ⟨i, name.stored⟩) (hp : p < n)
    (hroom : F.Room p k)
    (hj : 0 < j)
    (hn : name.Plain) :
    F'.count n (Dirent.linksTo j) = F.count n (Dirent.linksTo j) + if i = j then 1 else 0 := by
  rw [h.count_add hp hroom.1 fun hk => ?_]
  · have hone : Dirent.linksTo j ⟨i, name.stored⟩ = decide (i = j) := by
      unfold Dirent.linksTo
      simp [CStr.stored_plain, hn]
    rw [List.countP_singleton, hone]
    simp
  · refine Bool.eq_false_iff.mpr fun hlink => ?_
    have := (Dirent.linksTo_eq_true.mp hlink).1
    rw [hroom.2 hk] at this
    omega

/-- A link is removed. -/
theorem Sets.count_unlink {j : ℕ} (h : F.Sets F' p k ⟨0, CStr.empty⟩) (hp : p < n)
    (hk : k < (F.entries p).length)
    (he : (F.entries p)[k] = ⟨i, name⟩) (hj : 0 < j) (hn : name.Plain) :
    F'.count n (Dirent.linksTo j) + (if i = j then 1 else 0) = F.count n (Dirent.linksTo j) := by
  have hnone : Dirent.linksTo j ⟨0, CStr.empty⟩ = false := by
    refine Bool.eq_false_iff.mpr fun hlink => ?_
    have : 0 = j := (Dirent.linksTo_eq_true.mp hlink).1
    omega
  rw [← h.count_sub hp hk hnone, he]
  congr 1
  refine if_congr ?_ rfl rfl
  rw [Dirent.linksTo_eq_true]
  exact (and_iff_left hn).symm

/-- A file is made that has one link, and linked. -/
theorem Counted.add {F₁ : Files} {f : File} (h : F.Counted r n) (hp : p < n) (hpi : p ≠ i)
    (hroom : F.Room p k)
    (hm : F.Makes F₁ i f) (hs : F₁.Sets F' p k ⟨i, name.stored⟩) (hn : name.Plain)
    (hf : f.numLinks = 1)
    (he : f.entries.countP Dirent.isLink = 0) : F'.Counted r n := by
  intro j hj hlt
  have hent : F₁.entries p = F.entries p := (congr (hm.of_ne hpi)).1
  have hroom₁ : F₁.Room p k := by
    unfold Room at hroom ⊢
    rwa [hent]
  have hmade : F₁.count n (Dirent.linksTo j) = F.count n (Dirent.linksTo j) := by
    refine count_of_eq (fun q hq => hm.of_ne hq) ?_ ?_
    · rw [entries_of_none hm.1]
      rfl
    · rw [entries_of_some hm.self]
      exact countP_linksTo he hj
  have hold := h j hj hlt
  rw [hs.links, hs.count_link hp hroom₁ hj hn, hmade]
  by_cases hji : j = i
  · subst hji
    rw [links_of_none hm.1] at hold
    rw [links_of_some hm.self, hf, if_pos rfl]
    omega
  · rw [(congr (hm.of_ne hji)).2, if_neg (Ne.symm hji), hold, Nat.add_zero]

/-- A file is linked once more. -/
theorem Counted.link {F₁ : Files} {m : ℕ} (h : F.Counted r n) (hp : p < n) (hroom : F.Room p k)
    (hl : F.Links F₁ i m)
    (hm : m = F.links i + 1) (hs : F₁.Sets F' p k ⟨i, name.stored⟩) (hn : name.Plain) :
    F'.Counted r n := by
  intro j hj hlt
  have hroom₁ : F₁.Room p k := by
    unfold Room at hroom ⊢
    rwa [hl.entries]
  have hold := h j hj hlt
  rw [hs.links, hs.count_link hp hroom₁ hj hn, count_congr hl.entries]
  by_cases hji : j = i
  · subst hji
    rw [hl.links_self, hm, if_pos rfl]
    omega
  · rw [(congr (hl.of_ne hji)).2, if_neg (Ne.symm hji), hold, Nat.add_zero]

/-- A link is removed. -/
theorem Counted.unlink {F₁ : Files} {m : ℕ} (h : F.Counted r n) (hp : p < n)
    (hk : k < (F.entries p).length)
    (he : (F.entries p)[k] = ⟨i, name⟩) (hn : name.Plain) (hs : F.Sets F₁ p k ⟨0, CStr.empty⟩)
    (hl : F₁.Links F' i m)
    (hm : m = F.links i - 1) : F'.Counted r n := by
  intro j hj hlt
  have hold := h j hj hlt
  have hsub := hs.count_unlink (n := n) hp hk he hj hn
  rw [count_congr hl.entries]
  by_cases hji : j = i
  · subst hji
    rw [hl.links_self, hm]
    rw [if_pos rfl] at hsub
    omega
  · rw [(congr (hl.of_ne hji)).2, hs.links]
    rw [if_neg (Ne.symm hji)] at hsub
    omega

end Files

/-! ### Steps -/

section

variable {s s' : Fs} {c : Call} {r : ℕ}

/-- The number of links of a record is below `2 ^ 16`. -/
theorem Inv.links_lt (h : Inv s) (i : ℕ) : Files.links s.file i < 2 ^ 16 := by
  by_cases ha : s.Allocated i
  · rw [h.links_eq ha]
    exact Nat.mod_lt _ (by decide)
  · rw [Files.links_of_none (Fs.file_eq_none.mpr ha)]
    decide

theorem Exists.counted {p : ℕ} {name : CStr} (h : Inv s)
    (hc : Files.Counted r s.dev.superb.numInodes s.file)
    (he : Exists p name s s')
    (hd : s.Orphan (lookup (slots (s.data p)) name) →
      (Files.entries s.file (lookup (slots (s.data p)) name)).countP Dirent.isLink = 0) :
    Files.Counted r s.dev.superb.numInodes s'.file := by
  refine hc.dropsIf he.back.files (fun ho => ?_) hd
  rw [h.links_eq he.back.alloc, ho.2, Nat.zero_mod]

/-- A file is created. -/
theorem Inserted.counted {p type mask : ℕ} {name : CStr} {l : ℕ → List Dirent} {o : Option ℕ}
    (h : Inv s) (hr : s.refs p ≠ 0) (hc : Files.Counted r s.dev.superb.numInodes s.file)
    (hi : Inserted p name type mask l s o s') (hl : ∀ i, (l i).countP Dirent.isLink = 0)
    (hn : lookup (slots (s.data p)) name = 0 → name.Plain)
    (hd : ∀ i, i = lookup (slots (s.data p)) name ∧ i ≠ 0 ∧ s.Orphan i →
      (Files.entries s.file i).countP Dirent.isLink = 0) :
    Files.Counted r s.dev.superb.numInodes s'.file := by
  rcases hi with ⟨-, he⟩ | ⟨i, n, data, -, ha, hf⟩
  · exact he.counted h hc fun ho => hd _ ⟨rfl, he.found, ho⟩
  · obtain ⟨hpi, k, F, hroom, hm, hs⟩ := ha.files h hr
    refine hc.add (h.lt hr) hpi hroom hm hs (hn ha.absent) ?_ ?_
    · show n.numLinks % 2 ^ 16 = 1
      rw [hf.numLinks]
      rfl
    · unfold File.entries
      split_ifs
      · rfl
      · rw [show (n.pack.file data).data = data from rfl, hf.slots]
        exact hl i

theorem Unlinked.counted {p i : ℕ} {name : CStr} (h : Inv s) (hr : s.refs p ≠ 0)
    (hc : Files.Counted r s.dev.superb.numInodes s.file) (hu : Unlinked p name i s s')
    (hn : name.Plain) (h1 : i ≠ 1)
    (hi : s.LastLink i → (Files.entries s.file i).countP Dirent.isLink = 0)
    (hp : s.Last p → (Files.entries s.file p).countP Dirent.isLink ≤ 1) :
    Files.Counted r s.dev.superb.numInodes s'.file := by
  obtain ⟨k, F₁, F₂, F₃, ⟨hk, he⟩, hs, hl, hdi, hdp⟩ := hu.files h hr
  obtain ⟨he, -⟩ := he h1
  have hlt := h.lt hr
  have hlink : Dirent.linksTo i (Files.entries s.file p)[k] = true := by
    rw [he]
    exact Dirent.linksTo_eq_true.mpr ⟨rfl, hn⟩
  have hpos := Files.count_pos hlt (List.getElem_mem hk) hlink
  have hold := hc i (Nat.pos_of_ne_zero hu.pos) hu.alloc.1
  have hbound := h.links_lt i
  have hm : (Files.links s.file i + (2 ^ 16 - 1)) % 2 ^ 16 = Files.links s.file i - 1 := by omega
  have hc₂ := hc.unlink hlt hk he hn hs hl hm
  have hent₂ : F₂.entries = F₁.entries := hl.entries
  have hpi := hu.ne
  have hc₃ : F₃.Counted r s.dev.superb.numInodes := by
    refine hc₂.dropsIf hdi (fun hlast => ?_) fun hlast => ?_
    · rw [hl.links_self, h.links_eq hu.alloc, ← FsNode.linkDown_mod, hlast.2, Nat.zero_mod]
    · rw [hent₂, (Files.congr (hs.of_ne hpi.symm)).1]
      exact hi hlast
  have hp₃ : F₃ p = F₂ p := by
    by_cases hlast : s.LastLink i
    · exact (hdi.1 hlast).of_ne hpi
    · rw [hdi.2 hlast]
  refine hc₃.dropsIf hdp (fun hlast => ?_) fun hlast => ?_
  · rw [(Files.congr hp₃).2, (Files.congr (hl.of_ne hpi)).2, hs.links,
      Files.links_of_some (h.file_eq hr)]
    show (s.node p).numLinks % 2 ^ 16 = 0
    rw [hlast.2, Nat.zero_mod]
  · rw [(Files.congr hp₃).1, hent₂, hs.entries_self]
    have hput := Files.countP_putSlot (e := ⟨0, CStr.empty⟩) Dirent.isLink (Nat.le_of_lt hk)
    rw [List.getElem?_eq_getElem hk] at hput
    have hone : [(Files.entries s.file p)[k]].countP Dirent.isLink = 1 := by
      rw [List.countP_singleton,
        if_pos (Dirent.isLink_of_linksTo (Nat.pos_of_ne_zero hu.pos) hlink)]
    have hzero : [(⟨0, CStr.empty⟩ : Dirent)].countP Dirent.isLink = 0 := by decide
    have := hp hlast
    rw [Option.toList_some, hone, hzero] at hput
    omega

theorem Call.Even.counted (h : Mounted s) (hg : c.Given s) (he : c.Even s)
    (hc : Files.Counted r s.dev.superb.numInodes s.file) (hx : c.Effect s s') :
    Files.Counted r s.dev.superb.numInodes s'.file := by
  obtain ⟨hcond, hdrops⟩ := he
  cases c with
  | finddir p name =>
    rcases hx with rfl | ⟨i, nm, -, -, hf, -⟩
    · exact hc
    · rwa [hf]
  | creat p name mode =>
    obtain ⟨o, hi⟩ := hx
    exact hi.counted h.inv (hg p (by simp [Call.nodes])) hc (fun _ => rfl) hcond fun i hd =>
      Nat.le_zero.mp (hdrops i hd).2
  | mkdir p name mode =>
    obtain ⟨o, hi⟩ := hx
    exact hi.counted h.inv (hg p (by simp [Call.nodes])) hc
      (fun _ => by simp [Dirent.isLink, CStr.Plain]) hcond
      fun i hd => Nat.le_zero.mp (hdrops i hd).2
  | mknod p name mode dev =>
    obtain ⟨o, hi⟩ := hx
    exact hi.counted h.inv (hg p (by simp [Call.nodes])) hc (fun _ => rfl) hcond fun i hd =>
      Nat.le_zero.mp (hdrops i hd).2
  | link p i name =>
    have hrp : s.refs p ≠ 0 := hg p (by simp [Call.nodes])
    have hri : s.refs i ≠ 0 := hg i (by simp [Call.nodes])
    obtain ⟨habs, hn, hlt⟩ := hcond
    rcases hx with ha | ⟨j, hj⟩
    · obtain ⟨k, F, hroom, hl, hs⟩ := ha.files h.inv hrp hri
      have hlinks : Files.links s.file i = (s.node i).numLinks % 2 ^ 16 :=
        Files.links_of_some (h.inv.file_eq hri)
      refine hc.link (h.inv.lt hrp) hroom hl ?_ hs hn
      rw [hlinks]
      exact Nat.mod_eq_of_lt hlt
    · exact absurd (hj.found.symm.trans habs) hj.pos
  | unlink p name =>
    rcases hx with rfl | ⟨i, hu⟩
    · exact hc
    · obtain rfl := hu.found
      obtain ⟨hn, h1⟩ := hcond hu.pos
      refine hu.counted h.inv (hg p (by simp [Call.nodes])) hc hn h1 (fun hl => ?_) fun hl => ?_
      · have := (hdrops _ ⟨hu.pos, .inl ⟨rfl, hl⟩⟩).2
        rw [Call.removes, if_neg hu.ne] at this
        omega
      · have := (hdrops p ⟨hu.pos, .inr ⟨rfl, hl⟩⟩).2
        rwa [Call.removes, if_pos rfl] at this
  | put i =>
    refine hc.dropsIf (files_of_put hx) (fun hl => ?_) fun hl =>
      Nat.le_zero.mp (hdrops i ⟨rfl, hl⟩).2
    rw [Files.links_of_some (h.inv.file_eq (hg i (by simp [Call.nodes])))]
    show (s.node i).numLinks % 2 ^ 16 = 0
    rw [hl.2, Nat.zero_mod]
  | dup i => rwa [files_of_dup h.inv (hg i (by simp [Call.nodes])) hx]
  | write i offset bytes => exact hcond.elim
  | truncate i length => exact hcond.elim

/-- Between two calls the entries are those on the disk. -/
theorem Quiet.entries_eq (h : Quiet s) {i : ℕ} (hi : i < s.dev.superb.numInodes) :
    Files.entries s.file i = s.dev.entries i := by
  have hrec := h.record_eq i
  unfold Dev.entries
  by_cases ha : s.Allocated i
  · rw [Files.entries_of_some (Fs.file_of_allocated ha), hrec]
    rfl
  · have htype : (s.dev.inode i).type = 0 := by
      by_contra h0
      exact ha ⟨hi, by rwa [hrec]⟩
    rw [Files.entries_of_none (Fs.file_eq_none.mpr ha), htype, if_pos (Nat.zero_and _)]

theorem Quiet.count_eq (h : Quiet s) (j : ℕ) :
    Files.count s.file s.dev.superb.numInodes (Dirent.linksTo j) = s.dev.linksTo j :=
  Finset.sum_congr rfl fun i hi => by rw [h.entries_eq (Finset.mem_range.mp hi)]

theorem Quiet.counted_iff (h : Quiet s) : Files.Counted r s.dev.superb.numInodes s.file ↔
    ∀ j, 0 < j → j < s.dev.superb.numInodes →
      (if (s.dev.inode j).type = 0 then 0 else (s.dev.inode j).numLinks) =
      s.dev.linksTo j + if j = 1 then r else 0 := by
  refine forall_congr' fun j => imp_congr_right fun _ => imp_congr_right fun hlt => ?_
  rw [h.count_eq j]
  have hrec := h.record_eq j
  by_cases ha : s.Allocated j
  · have htype : (s.dev.inode j).type ≠ 0 := by
      rw [← hrec]
      exact ha.2
    rw [Files.links_of_some (Fs.file_of_allocated ha), if_neg htype, hrec]
    rfl
  · have htype : (s.dev.inode j).type = 0 := by
      by_contra h0
      exact ha ⟨hlt, by rwa [hrec]⟩
    rw [Files.links_of_none (Fs.file_eq_none.mpr ha), if_pos htype]

theorem Mounted.root_type (h : Mounted s) : (s.dev.inode 1).type ≠ 0 := by
  rw [← h.quiet.record_eq 1]
  exact (h.inv.allocated h.root).2

/-- Between two calls the counts of the files are those of the disk. -/
theorem Mounted.linksRight_iff (h : Mounted s) :
    LinksRight r s.dev ↔ Files.Counted r s.dev.superb.numInodes s.file := by
  rw [h.quiet.counted_iff]
  constructor
  · rintro ⟨hused, hfree⟩ j hj hlt
    by_cases h0 : (s.dev.inode j).type = 0
    · have h1 : j ≠ 1 := fun e => h.root_type (e ▸ h0)
      rw [if_pos h0, if_neg h1, hfree j hj hlt h0]
    · rw [if_neg h0, hused j hj hlt h0]
  · refine fun hc => ⟨fun j hj hlt h0 => ?_, fun j hj hlt h0 => ?_⟩
    · have := hc j hj hlt
      rwa [if_neg h0] at this
    · have := hc j hj hlt
      rw [if_pos h0] at this
      omega

theorem Call.Even.step (h : Mounted s ∧ LinksRight r s.dev) (hs : Step Call.Even s s') :
    Mounted s' ∧ LinksRight r s'.dev := by
  obtain ⟨c, hg, hc, hx⟩ := hs
  have hproper : c.Proper s := by
    cases c with
    | write i offset bytes => exact hc.1.elim
    | truncate i length => exact hc.1.elim
    | _ => trivial
  have he := (c.exec_spec h.1 hg (fun hd => (hc.2 1 hd).1 rfl) hproper).ok hx
  have hm := he.mounted h.1 hg
  refine ⟨hm, hm.linksRight_iff.mpr ?_⟩
  rw [he.logged.2]
  exact hc.counted h.1 hg (h.1.linksRight_iff.mp h.2) he

/-- **The link counts are right after every call of a run** whose calls keep them right. -/
theorem links_right {s₀ : Fs} (h₀ : Mounted s₀) (hl : LinksRight r s₀.dev)
    (hrun : Reach (Step Call.Even) s₀ s) :
    LinksRight r s.dev :=
  (Reach.invariant (I := fun s => Mounted s ∧ LinksRight r s.dev)
    (fun _ _ h hs => Call.Even.step h hs)
    ⟨h₀, hl⟩ hrun).2

end

end

/-! ### A name that exists -/

attribute [local instance] Stack.zero

theorem tiny_linksRight : LinksRight 1 (tiny (emptyNode 0x4000)).dev := by
  have hn : (tiny (emptyNode 0x4000)).dev.superb.numInodes = 8 := rfl
  have hall : ∀ j < 8, 0 < j → if ((tiny (emptyNode 0x4000)).dev.inode j).type = 0
      then (tiny (emptyNode 0x4000)).dev.linksTo j = 0
      else ((tiny (emptyNode 0x4000)).dev.inode j).numLinks =
        (tiny (emptyNode 0x4000)).dev.linksTo j + if j = 1 then 1 else 0 := by decide +kernel
  refine ⟨fun j hj hlt h0 => ?_, fun j hj hlt h0 => ?_⟩
  · have := hall j (hn ▸ hlt) hj
    rwa [if_neg h0] at this
  · have := hall j (hn ▸ hlt) hj
    rwa [if_pos h0] at this

/-- The name `"b"`. -/
def nameB : CStr := ⟨[98], by decide⟩

theorem even_oneFile : Step Call.Even (tiny (emptyNode 0x4000)) oneFile := by
  have hl : lookup (slots ((tiny (emptyNode 0x4000)).data 1)) nameA = 0 := by decide +kernel
  refine Step.of_returned (List.forall_mem_singleton.mpr tiny_mounted.root)
    ⟨fun _ => by decide, fun i hd => ?_⟩
    (by decide +kernel)
  exact absurd (hd.1.trans hl) hd.2.1

/-- A file is created: it has one link. -/
theorem links_right_creat : LinksRight 1 oneFile.dev ∧ (oneFile.dev.inode 2).numLinks = 1 :=
  ⟨links_right tiny_mounted tiny_linksRight (.single even_oneFile), by decide +kernel⟩

/-- The partition after `creat("b")` as well. -/
def twoFiles : Fs := ((Call.creat 1 nameB 0).exec oneFile).state

/-- The partition after `cofs_link` of the second file under the name of the first. -/
def relinked : Fs := ((Call.link 1 3 nameA).exec twoFiles).state

/-- **`cofs_link` counts a link that it does not make** when the name exists. -/
theorem refused_link_counted :
    Mounted (tiny (emptyNode 0x4000)) ∧ LinksRight 1 (tiny (emptyNode 0x4000)).dev ∧
    Reach (Step fun _ _ => True) (tiny (emptyNode 0x4000)) relinked ∧
    (cofsLink 1 3 nameA twoFiles).value? = some false ∧
    (relinked.dev.inode 3).type ≠ 0 ∧ (relinked.dev.inode 3).numLinks = 2 ∧
      relinked.dev.linksTo 3 = 1 := by
  have h1 : oneFile.refs 1 ≠ 0 := by decide +kernel
  have h2 : twoFiles.refs 1 ≠ 0 := by decide +kernel
  have h3 : twoFiles.refs 3 ≠ 0 := by decide +kernel
  have s1 : Step (fun _ _ => True) (tiny (emptyNode 0x4000)) oneFile :=
    Step.of_returned (List.forall_mem_singleton.mpr tiny_mounted.root) trivial (by decide +kernel)
  have s2 : Step (fun _ _ => True) oneFile twoFiles :=
    Step.of_returned (List.forall_mem_singleton.mpr h1) trivial (by decide +kernel)
  have s3 : Step (fun _ _ => True) twoFiles relinked := by
    refine Step.of_returned (fun i hi => ?_) trivial (by decide +kernel)
    rcases List.mem_cons.mp hi with rfl | hi
    · exact h2
    · rw [List.mem_singleton.mp hi]
      exact h3
  exact ⟨tiny_mounted, tiny_linksRight,
    .tail (.tail (.single s1) s2) s3, by decide +kernel, by decide +kernel,
    by decide +kernel, by decide +kernel⟩

end Cosiris.Cofs
