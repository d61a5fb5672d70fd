import Cosiris.Cofs.Calls
import Mathlib.Algebra.Order.BigOperators.Group.Finset

/-!
# What the calls do to the files

The files of a partition, one for each inode that is in use, and the four changes that
the calls make to them: an entry of a directory is set, the number of links of a file
is set, a file is made, a file is dropped. `Call.Effect` says what a call does to the
nodes; the lemmas here say which of the four changes it makes, and in which order.
What names there are and how many entries link to an inode follows from these.
-/

namespace Cosiris.Cofs

open Function Prog

variable [Stack]

/-- The files of the inodes. -/
abbrev Files : Type := ℕ → Option File

/-- The entries of a file, which has none if it is not a directory. -/
def File.entries (f : File) : List Dirent := if f.type &&& 0x4000 = 0 then [] else slots f.data

theorem slots_nil : slots [] = [] := rfl

/-- The file after a release: it has neither links nor entries. -/
def Bare (o : Option File) : Prop := ∀ f, o = some f → f.numLinks = 0 ∧ f.entries = []

namespace Files

/-- The entries of a directory. -/
def entries (F : Files) (i : ℕ) : List Dirent := (F i).elim [] File.entries

/-- The number of links that the record of a file has. -/
def links (F : Files) (i : ℕ) : ℕ := (F i).elim 0 File.numLinks

/-- Entry `k` of directory `p` is set. -/
def Sets (F F' : Files) (p k : ℕ) (e : Dirent) : Prop :=
  ∃ f data, F p = some f ∧ f.type &&& 0x4000 ≠ 0 ∧ slots data = putSlot (slots f.data) k e ∧
    F' = update F p (some { f with data := data })

/-- The number of links of file `i` is set. -/
def Links (F F' : Files) (i n : ℕ) : Prop :=
  ∃ f, F i = some f ∧ F' = update F i (some { f with numLinks := n })

/-- File `i` is made. -/
def Makes (F F' : Files) (i : ℕ) (f : File) : Prop := F i = none ∧ F' = update F i (some f)

/-- File `i` is dropped, which leaves `o`. -/
def Drops (F F' : Files) (i : ℕ) (o : Option File) : Prop := Bare o ∧ F' = update F i o

/-- File `i` is dropped if the condition holds. -/
def DropsIf (P : Prop) (F F' : Files) (i : ℕ) (o : Option File) : Prop :=
  (P → F.Drops F' i o) ∧ (¬ P → F' = F)

/-- Directory `p` has room for an entry in place `k`: a free entry, or the end. -/
def Room (F : Files) (p k : ℕ) : Prop :=
  k ≤ (F.entries p).length ∧ ∀ h : k < (F.entries p).length, (F.entries p)[k].inode = 0

variable {F F' : Files} {p i k n : ℕ} {e : Dirent}

theorem entries_of_some {f : File} (h : F i = some f) : F.entries i = f.entries := by
  unfold entries
  rw [h]
  rfl

omit [Stack] in
theorem links_of_some {f : File} (h : F i = some f) : F.links i = f.numLinks := by
  unfold links
  rw [h]
  rfl

theorem entries_of_none (h : F i = none) : F.entries i = [] := by
  unfold entries
  rw [h]
  rfl

omit [Stack] in
theorem links_of_none (h : F i = none) : F.links i = 0 := by
  unfold links
  rw [h]
  rfl

theorem congr {j : ℕ} (h : F' j = F j) : F'.entries j = F.entries j ∧ F'.links j = F.links j := by
  unfold entries links
  rw [h]
  exact ⟨rfl, rfl⟩

/-! ### Entries and links after each change -/

theorem Sets.entries_self (h : F.Sets F' p k e) : F'.entries p = putSlot (F.entries p) k e := by
  obtain ⟨f, data, hf, hd, hs, rfl⟩ := h
  rw [entries_of_some (f := { f with data := data }) (update_self ..), entries_of_some hf]
  unfold File.entries
  rw [if_neg hd, if_neg hd, hs]

theorem Sets.links (h : F.Sets F' p k e) : F'.links = F.links := by
  obtain ⟨f, data, hf, hd, hs, rfl⟩ := h
  funext j
  by_cases hj : j = p
  · subst hj
    rw [links_of_some (f := { f with data := data }) (update_self ..), links_of_some hf]
  · exact (congr (update_of_ne hj ..)).2

theorem Sets.of_ne (h : F.Sets F' p k e) {j : ℕ} (hj : j ≠ p) : F' j = F j := by
  obtain ⟨f, data, -, -, -, rfl⟩ := h
  exact update_of_ne hj ..

theorem Sets.isSome (h : F.Sets F' p k e) (j : ℕ) : F' j = none ↔ F j = none := by
  obtain ⟨f, data, hf, -, -, rfl⟩ := h
  by_cases hj : j = p
  · subst hj
    rw [update_self, hf]
    simp
  · rw [update_of_ne hj]

theorem Links.entries (h : F.Links F' i n) : F'.entries = F.entries := by
  obtain ⟨f, hf, rfl⟩ := h
  funext j
  by_cases hj : j = i
  · subst hj
    rw [entries_of_some (f := { f with numLinks := n }) (update_self ..), entries_of_some hf]
    rfl
  · exact (congr (update_of_ne hj ..)).1

omit [Stack] in
theorem Links.links_self (h : F.Links F' i n) : F'.links i = n := by
  obtain ⟨f, hf, rfl⟩ := h
  exact links_of_some (f := { f with numLinks := n }) (update_self ..)

omit [Stack] in
theorem Links.of_ne (h : F.Links F' i n) {j : ℕ} (hj : j ≠ i) : F' j = F j := by
  obtain ⟨f, hf, rfl⟩ := h
  exact update_of_ne hj ..

omit [Stack] in
theorem Makes.of_ne {f : File} (h : F.Makes F' i f) {j : ℕ} (hj : j ≠ i) : F' j = F j := by
  rw [h.2]
  exact update_of_ne hj ..

omit [Stack] in
theorem Makes.self {f : File} (h : F.Makes F' i f) : F' i = some f := by
  rw [h.2]
  exact update_self ..

theorem Drops.of_ne {o : Option File} (h : F.Drops F' i o) {j : ℕ} (hj : j ≠ i) : F' j = F j := by
  rw [h.2]
  exact update_of_ne hj ..

theorem Drops.self {o : Option File} (h : F.Drops F' i o) : F'.entries i = [] ∧ F'.links i = 0 := by
  obtain ⟨ho, rfl⟩ := h
  cases o with
  | none => exact ⟨entries_of_none (update_self ..), links_of_none (update_self ..)⟩
  | some f =>
    rw [entries_of_some (update_self ..), links_of_some (update_self ..)]
    exact (ho f rfl).symm

/-! ### Counting entries -/

/-- How many entries of the directories of the first `n` inodes pass the test. -/
def count (F : Files) (n : ℕ) (P : Dirent → Bool) : ℕ :=
  ∑ q ∈ Finset.range n, (F.entries q).countP P

/-- The entries of one directory change. -/
theorem count_update {n : ℕ} (P : Dirent → Bool) (hp : p < n)
    (h : ∀ q, q ≠ p → F'.entries q = F.entries q) :
    F'.count n P + (F.entries p).countP P = F.count n P + (F'.entries p).countP P := by
  have hmem : p ∈ Finset.range n := Finset.mem_range.mpr hp
  unfold count
  rw [← Finset.add_sum_erase _ _ hmem, ← Finset.add_sum_erase (a := p) _ _ hmem]
  have hrest : ∑ q ∈ (Finset.range n).erase p, (F'.entries q).countP P =
      ∑ q ∈ (Finset.range n).erase p, (F.entries q).countP P :=
    Finset.sum_congr rfl fun q hq => by rw [h q (Finset.ne_of_mem_erase hq)]
  rw [hrest]
  omega

theorem count_congr {n : ℕ} {P : Dirent → Bool} (h : F'.entries = F.entries) :
    F'.count n P = F.count n P := by
  unfold count
  rw [h]

omit [Stack] in
theorem countP_putSlot {l : List Dirent} (P : Dirent → Bool) (hk : k ≤ l.length) :
    (putSlot l k e).countP P + l[k]?.toList.countP P = l.countP P + [e].countP P := by
  have hl : l.countP P =
    (l.take k).countP P + (l[k]?.toList.countP P + (l.drop (k + 1)).countP P) := by
    rw [← List.countP_append, ← List.countP_append]
    congr 1
    rw [← List.take_append_drop k l]
    congr 1
    · rw [List.take_append_drop]
    · rw [List.take_append_drop]
      rcases Nat.lt_or_ge k l.length with hlt | hge
      · rw [List.getElem?_eq_getElem hlt, Option.toList_some, List.singleton_append,
          List.drop_eq_getElem_cons hlt]
      · rw [List.getElem?_eq_none hge, List.drop_eq_nil_of_le hge,
          List.drop_eq_nil_of_le (by omega)]
        rfl
  have hput : (putSlot l k e).countP P =
    (l.take k).countP P + ([e].countP P + (l.drop (k + 1)).countP P) := by
    rw [← List.countP_append, ← List.countP_append]
    rfl
  omega

/-- An entry is set where there was none that passes the test. -/
theorem Sets.count_add {n : ℕ} {P : Dirent → Bool} (h : F.Sets F' p k e) (hp : p < n)
    (hk : k ≤ (F.entries p).length)
    (hfree : ∀ hk : k < (F.entries p).length, P (F.entries p)[k] = false) :
    F'.count n P = F.count n P + [e].countP P := by
  have hc := count_update (F := F) P hp fun q hq => (congr (h.of_ne hq)).1
  have hs := countP_putSlot (e := e) P hk
  rw [h.entries_self] at hc
  have h0 : (F.entries p)[k]?.toList.countP P = 0 := by
    rcases Nat.lt_or_ge k (F.entries p).length with hlt | hge
    · rw [List.getElem?_eq_getElem hlt]
      simp [hfree hlt]
    · rw [List.getElem?_eq_none hge]
      rfl
  omega

/-- An entry is set to one that does not pass the test. -/
theorem Sets.count_sub {n : ℕ} {P : Dirent → Bool} (h : F.Sets F' p k e) (hp : p < n)
    (hk : k < (F.entries p).length)
    (he : P e = false) : F'.count n P + (if P (F.entries p)[k] then 1 else 0) = F.count n P := by
  have hc := count_update (F := F) P hp fun q hq => (congr (h.of_ne hq)).1
  have hs := countP_putSlot (e := e) P (Nat.le_of_lt hk)
  rw [h.entries_self] at hc
  rw [List.getElem?_eq_getElem hk] at hs
  simp only [Option.toList_some, List.countP_singleton, he] at hs
  simp only [Bool.false_eq_true, if_false] at hs
  omega

/-- A file without such entries is dropped, or made. -/
theorem count_of_eq {n : ℕ} {P : Dirent → Bool} (h : ∀ j, j ≠ i → F' j = F j)
    (h0 : (F.entries i).countP P = 0)
    (h0' : (F'.entries i).countP P = 0) : F'.count n P = F.count n P := by
  unfold count
  refine Finset.sum_congr rfl fun q _ => ?_
  by_cases hq : q = i
  · rw [hq, h0, h0']
  · rw [(congr (h q hq)).1]

theorem le_count {n : ℕ} {P : Dirent → Bool} (hp : p < n) : (F.entries p).countP P ≤ F.count n P :=
  Finset.single_le_sum (f := fun q => (F.entries q).countP P) (fun _ _ => Nat.zero_le _)
    (Finset.mem_range.mpr hp)

/-- An entry that passes the test is counted. -/
theorem count_pos {n : ℕ} {P : Dirent → Bool} (hp : p < n) (he : e ∈ F.entries p) (h : P e = true) :
    0 < F.count n P :=
  Nat.lt_of_lt_of_le (List.countP_pos_iff.mpr ⟨e, he, h⟩) (le_count hp)

end Files

/-! ### The changes that the calls make -/

section

variable {s s' : Fs} {p i j : ℕ} {name : CStr}

/-- The entries of an open directory. -/
theorem Inv.entries_eq (h : Inv s) (hr : s.refs p ≠ 0) (hd : (s.node p).type &&& 0x4000 ≠ 0) :
    Files.entries s.file p = slots (s.data p) := by
  rw [Files.entries_of_some (h.file_eq hr)]
  exact if_neg (pack_type_dir hd)

theorem FsNode.remains_bare {n : FsNode} (h : n.numLinks = 0) : Bare n.remains := by
  intro f hf
  unfold FsNode.remains at hf
  split_ifs at hf
  cases hf
  refine ⟨?_, ?_⟩
  · show n.numLinks % 2 ^ 16 = 0
    rw [h, Nat.zero_mod]
  · unfold File.entries
    split_ifs
    · rfl
    · exact slots_nil

omit [Stack] in
/-- The number of links on the disk after one more, and after one less. -/
theorem FsNode.linkUp_mod (n : FsNode) :
    n.linkUp.numLinks % 2 ^ 16 = (n.numLinks % 2 ^ 16 + 1) % 2 ^ 16 := by
  unfold FsNode.linkUp
  dsimp only
  split_ifs with h
  · rw [h]
    rfl
  · omega

omit [Stack] in
theorem FsNode.linkDown_mod (n : FsNode) :
    n.linkDown.numLinks % 2 ^ 16 = (n.numLinks % 2 ^ 16 + (2 ^ 16 - 1)) % 2 ^ 16 := by
  unfold FsNode.linkDown
  dsimp only
  split_ifs with h
  · rw [h]
    rfl
  · omega

/-- The record of an inode in use. -/
theorem Inv.links_eq (h : Inv s) (ha : s.Allocated i) :
    Files.links s.file i = (s.core i).numLinks % 2 ^ 16 :=
  Files.links_of_some (h.file_core ha)

/-- One entry of an open directory is set. -/
theorem Inv.sets {F : Files} {k : ℕ} {e : Dirent} {data : List UInt8} (h : Inv s)
    (hr : s.refs p ≠ 0) (hd : (s.node p).type &&& 0x4000 ≠ 0) (hp : F p = s.file p)
    (hs : slots data = putSlot (slots (s.data p)) k e) :
    F.Sets (update F p (some ((s.node p).pack.file data))) p k e :=
  ⟨_, data, hp.trans (h.file_eq hr), pack_type_dir hd, hs, rfl⟩

theorem Inv.room {k : ℕ} (h : Inv s) (hr : s.refs p ≠ 0) (hd : (s.node p).type &&& 0x4000 ≠ 0)
    (hk : 32 * k ≤ (s.node p).size)
    (hfree : FreeSlot (slots (s.data p)) k) : Files.Room s.file p k := by
  unfold Files.Room
  rw [h.entries_eq hr hd]
  refine ⟨?_, hfree.1⟩
  rw [length_slots, Fs.length_data]
  omega

/-- The file of an open directory after one of its entries has been set. -/
theorem Inv.file_of_node (h' : Inv s') (hr' : s'.refs p ≠ 0)
    (hn : s'.node p = { s.node p with addrs := (s'.node p).addrs, size := (s'.node p).size }) :
    s'.file p = some ((s.node p).pack.file (s'.data p)) := by
  rw [h'.file_eq hr']
  generalize s'.data p = data
  rw [hn]
  rfl

theorem Added.files {n : FsNode} {data : List UInt8} (h : Inv s) (hr : s.refs p ≠ 0)
    (ha : Added p name i n data s s') :
    p ≠ i ∧ ∃ k F, Files.Room s.file p k ∧ Files.Makes s.file F i (n.pack.file data) ∧
      F.Sets s'.file p k ⟨i, name.stored⟩ := by
  have hpi : p ≠ i := fun e => hr (e ▸ ha.unused)
  have hr' : s'.refs p ≠ 0 := by
    rw [ha.parent_refs]
    exact hr
  have hri' : s'.refs i ≠ 0 := by
    rw [ha.refs]
    exact Nat.one_ne_zero
  obtain ⟨k, hk, hfree, hslots⟩ := ha.parent
  refine ⟨hpi, k, update s.file i (some (n.pack.file data)), h.room hr ha.dir hk hfree,
    ⟨ha.free, rfl⟩, ?_⟩
  have hset :=
    h.sets (F := update s.file i (some (n.pack.file data))) hr ha.dir (update_of_ne hpi ..) hslots
  rw [← ha.inv.file_of_node hr' ha.parent_node] at hset
  convert hset using 1
  funext j
  by_cases hj : j = p
  · rw [hj, update_self]
  · rw [update_of_ne hj]
    by_cases hji : j = i
    · rw [hji, update_self, ha.inv.file_eq hri', ha.node, ha.data]
    · rw [update_of_ne hji]
      exact ha.rest.file j fun hc => hc.elim hj hji

theorem LinkAdded.files (h : Inv s) (hr : s.refs p ≠ 0) (hri : s.refs i ≠ 0)
    (ha : LinkAdded p i name s s') :
    ∃ k F, Files.Room s.file p k ∧ Files.Links s.file F i ((Files.links s.file i + 1) % 2 ^ 16) ∧
      F.Sets s'.file p k ⟨i, name.stored⟩ := by
  have hr' : s'.refs p ≠ 0 := by
    rw [ha.parent_refs]
    exact hr
  have hri' : s'.refs i ≠ 0 := by
    rw [ha.refs]
    exact hri
  obtain ⟨k, hk, hfree, hslots⟩ := ha.parent
  have hlinks : (Files.links s.file i + 1) % 2 ^ 16 = (s.node i).linkUp.pack.numLinks := by
    rw [Files.links_of_some (h.file_eq hri)]
    exact (FsNode.linkUp_mod _).symm
  refine ⟨k, update s.file i (some ((s.node i).linkUp.pack.file (s.data i))),
    h.room hr ha.dir hk hfree, ⟨_, h.file_eq hri, ?_⟩, ?_⟩
  · rw [hlinks]
    rfl
  · have hset :=
      h.sets (F := update s.file i (some ((s.node i).linkUp.pack.file (s.data i)))) hr ha.dir
      (update_of_ne ha.ne ..) hslots
    rw [← ha.inv.file_of_node hr' ha.parent_node] at hset
    convert hset using 1
    funext j
    by_cases hj : j = p
    · rw [hj, update_self]
    · rw [update_of_ne hj]
      by_cases hji : j = i
      · rw [hji, update_self, ha.inv.file_eq hri', ha.node, ha.data]
      · rw [update_of_ne hji]
        exact ha.rest.file j fun hc => hc.elim hj hji

theorem LinkRefused.files (h : Inv s) (hr : s.refs p ≠ 0) (hri : s.refs i ≠ 0)
    (ha : LinkRefused p i j name s s')
    (hj : s.refs j ≠ 0 ∨ Files.links s.file j ≠ 0) :
    Files.Links s.file s'.file i ((Files.links s.file i + 1) % 2 ^ 16) := by
  have hlinks : (Files.links s.file i + 1) % 2 ^ 16 = (s.node i).linkUp.pack.numLinks := by
    rw [Files.links_of_some (h.file_eq hri)]
    exact (FsNode.linkUp_mod _).symm
  refine ⟨_, h.file_eq hri, ?_⟩
  funext q
  by_cases hq : q = i
  · rw [hq, update_self, ha.inv.file_eq (by rw [ha.refs]; exact hri), ha.node, ha.data, hlinks]
    rfl
  · rw [update_of_ne hq]
    by_cases hqp : q = p
    · rw [hqp, ha.inv.file_eq (by rw [ha.parent_refs]; exact hr), h.file_eq hr, ha.parent_data,
        ha.parent_node]
    · by_cases hqj : q = j
      · rw [hqj]
        refine ha.other (hj.imp_right fun hj f hf => ?_)
        rwa [Files.links_of_some hf] at hj
      · exact ha.rest.file q fun hc => hc.elim hqp fun hc => hc.elim hq hqj

theorem Files.dropsIf {F F' : Files} {P : Prop} [Decidable P] {o : Option File}
    (hrest : ∀ j, j ≠ i → F' j = F j)
    (hi : F' i = if P then o else F i) (ho : P → Bare o) : F.DropsIf P F' i o := by
  have hF : F' = update F i (F' i) := by
    funext q
    by_cases hq : q = i
    · rw [hq, update_self]
    · rw [update_of_ne hq]
      exact hrest q hq
  refine ⟨fun hP => ⟨ho hP, ?_⟩, fun hP => ?_⟩
  · rw [hF, hi, if_pos hP]
  · rw [hF, hi, if_neg hP, update_eq_self]

theorem PutBack.files (hb : PutBack i s s') :
    Files.DropsIf (s.Orphan i) s.file s'.file i (s.core i).remains :=
  Files.dropsIf hb.rest.file hb.file fun ho => FsNode.remains_bare ho.2

/-- A node that is put. -/
theorem files_of_put (he : (Call.put i).Effect s s') :
    Files.DropsIf (s.Last i) s.file s'.file i (s.node i).remains := by
  obtain ⟨-, hrest, -, hfile, -⟩ := he
  exact Files.dropsIf hrest.file hfile fun hl => FsNode.remains_bare hl.2

/-- A node that is referred to once more. -/
theorem files_of_dup (h : Inv s) (hr : s.refs i ≠ 0) (he : (Call.dup i).Effect s s') :
    s'.file = s.file := by
  have ht : Turn i s s' { s.node i with refCount := s.refs i + 1 } (s.data i) (s.dev.inode i) := he
  funext j
  by_cases hj : j = i
  · rw [hj, ht.file (Nat.succ_ne_zero _), h.file_eq hr]
    rfl
  · exact ht.rest.file j hj

theorem Unlinked.files (h : Inv s) (hr : s.refs p ≠ 0) (hu : Unlinked p name i s s') :
    ∃ k F₁ F₂ F₃, (∃ hk : k < (Files.entries s.file p).length,
        i ≠ 1 → (Files.entries s.file p)[k] = ⟨i, name⟩ ∧ ∀ q (hq : q < k),
          ((Files.entries s.file p).get ⟨q, hq.trans hk⟩).name ≠ name) ∧
      Files.Sets s.file F₁ p k ⟨0, CStr.empty⟩ ∧
        F₁.Links F₂ i ((Files.links s.file i + (2 ^ 16 - 1)) % 2 ^ 16) ∧
      F₂.DropsIf (s.LastLink i) F₃ i (s.core i).linkDown.remains ∧
      F₃.DropsIf (s.Last p) s'.file p (s.node p).remains := by
  obtain ⟨k, data, hk, hname, hslots, hfile, -⟩ := hu.parent
  have hcore := h.file_core hu.alloc
  have hent := h.entries_eq hr hu.dir
  have hlinks : (Files.links s.file i + (2 ^ 16 - 1)) % 2 ^ 16 =
    (s.core i).linkDown.pack.numLinks := by
    rw [h.links_eq hu.alloc]
    exact (FsNode.linkDown_mod _).symm
  generalize hF₁ : update s.file p (some ((s.node p).pack.file data)) = F₁
  generalize hF₂ : update F₁ i (some ((s.core i).linkDown.pack.file (s.text i))) = F₂
  generalize hF₃ : (if s.LastLink i then update F₂ i (s.core i).linkDown.remains else F₂) = F₃
  have hrest : s'.file = update F₃ p (s'.file p) := by
    funext q
    by_cases hqp : q = p
    · rw [hqp, update_self]
    · rw [update_of_ne hqp, ← hF₃, ← hF₂, ← hF₁]
      by_cases hqi : q = i
      · subst hqi
        rw [hu.file]
        split_ifs <;> rw [update_self]
      · rw [hu.rest.file q fun hc => hc.elim hqp hqi]
        split_ifs <;> simp [update_of_ne, hqi, hqp]
  have hp₃ : F₃ p = some ((s.node p).pack.file data) := by
    rw [← hF₃, ← hF₂, ← hF₁]
    split_ifs <;> simp [update_of_ne, hu.ne]
  refine ⟨k, F₁, F₂, F₃, ?_, ?_, ⟨(s.core i).pack.file (s.text i), ?_, ?_⟩,
    ⟨fun hl => ⟨FsNode.remains_bare hl.2, by rw [← hF₃, if_pos hl]⟩,
      fun hl => by rw [← hF₃, if_neg hl]⟩,
    ⟨fun hl => ⟨FsNode.remains_bare hl.2, ?_⟩, fun hl => ?_⟩⟩
  · rw [hent]
    refine ⟨hk, fun h1 => ⟨?_, (hname h1).2⟩⟩
    have hino := lookup_of_first hk (hname h1).1 (hname h1).2
    rw [hu.found] at hino
    have hnm := (hname h1).1
    generalize (slots (s.data p))[k] = e at hino hnm
    rw [hino, ← hnm]
  · rw [← hF₁]
    exact h.sets hr hu.dir rfl hslots
  · rw [← hF₁, update_of_ne hu.ne.symm]
    exact hcore
  · rw [← hF₂, hlinks]
    rfl
  · rw [hrest, hfile, if_pos hl]
  · rw [hrest, hfile, if_neg hl, ← hp₃, update_eq_self]

end

end Cosiris.Cofs
