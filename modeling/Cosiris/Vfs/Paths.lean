import Cosiris.Vfs.Bname
import Cosiris.Vfs.Namei

/-!
# Files by their paths

`fs_creat` of `vfs.c` splits a path into a directory and a name, and creates a file under the name
in the directory to which `fs_namei` leads. What it does is told of all paths: those that end
with the name in that directory lead to the new file, and no other changes.
-/

namespace Cosiris.Vfs

open Function Prog Cofs Paths

/-! ### The program -/

/-- `while (p > dirname && *(p - 1) != '/') p--`. -/
def backToName (path : List UInt8) : ℕ → ℕ
  | 0 => 0
  | p + 1 => if path.getD p 0 ≠ slash then backToName path p else p + 1

/-- The string from character `n` on. -/
def dropChars (path : CStr) (n : ℕ) : CStr :=
  ⟨path.bytes.drop n, fun h => path.nonzero (List.mem_of_mem_drop h)⟩

/-- `dirname` in `fs_creat`, with the last `'/'`. -/
def dirPart (path : CStr) : CStr := path.take (backToName path.bytes path.bytes.length)

/-- `filename` in `fs_creat`. -/
def basePart (path : CStr) : CStr := dropChars path (backToName path.bytes path.bytes.length)

/-- `fs_creat`. Every node of the file system has the operation, which panics on one that is not a
directory. -/
def fsCreat [Stack] (path : CStr) (mode : ℕ) : Prog Halt Fs (Option ℕ) := do
  kassert "path[0]=='/'" (path.bytes.head? = some slash)
  match ← fsNamei (dirPart path) with
  | some parent => cofsCreat parent (basePart path) mode
  | none => return none

/-! ### Paths and their parts -/

section

variable {path : CStr} {d base : List UInt8} {n : ℕ}

theorem backToName_eq (hb : slash ∉ base) (hn : d.length + 1 ≤ n) :
    backToName (d ++ slash :: base) n = d.length + 1 := by
  induction n with
  | zero => omega
  | succ n ih =>
    unfold backToName
    by_cases he : d.length = n
    · have hs : (d ++ slash :: base).getD n 0 = slash := by
        rw [← he]
        simp [List.getD_eq_getElem?_getD]
      rw [if_neg (not_not.mpr hs), he]
    · obtain ⟨k, rfl⟩ := Nat.exists_eq_add_of_le (show d.length + 1 ≤ n by omega)
      have hget : (d ++ slash :: base).getD (d.length + 1 + k) 0 = base.getD k 0 := by
        rw [List.getD_eq_getElem?_getD, List.getElem?_append_right (by omega)]
        simp [List.getD_eq_getElem?_getD, Nat.add_assoc, Nat.add_comm 1]
      have hne : base.getD k 0 ≠ slash := by
        by_cases hk : k < base.length
        · rw [List.getD_eq_getElem _ _ hk]
          exact fun h => hb (h ▸ List.getElem_mem hk)
        · rw [List.getD_eq_default _ _ (Nat.le_of_not_lt hk)]
          decide
      rw [hget, if_pos hne]
      exact ih (by omega)

/-- The parts of an absolute path. -/
theorem exists_parts (h : path.bytes.head? = some slash) : ∃ d base, slash ∉ base ∧
    path.bytes = d ++ slash :: base ∧ (dirPart path).bytes = d ++ [slash] ∧
    (basePart path).bytes = base := by
  obtain ⟨d, base, hp, hb⟩ := exists_split (List.mem_of_head? h)
  have hk : backToName path.bytes path.bytes.length = d.length + 1 := by
    rw [hp]
    exact backToName_eq hb (by simp)
  refine ⟨d, base, hb, hp, ?_, ?_⟩
  · show path.bytes.take (backToName path.bytes path.bytes.length) = _
    rw [hk, hp, List.take_append]
    simp
  · show path.bytes.drop (backToName path.bytes path.bytes.length) = _
    rw [hk, hp, List.drop_append]
    simp

theorem pathNames_append (a b : List UInt8) :
    pathNames (a ++ slash :: b) = pathNames a ++ pathNames b := by
  unfold pathNames components
  rw [List.splitOn_append_cons_self, List.filter_append, List.map_append]

theorem cstr_bytes (name : CStr) : cstr name.bytes = name := CStr.ext (bytes_cstr name.nonzero)

theorem head_dirPart (h : path.bytes.head? = some slash) :
    (dirPart path).bytes.head? = some slash := by
  obtain ⟨d, base, -, hpath, hd, -⟩ := exists_parts h
  rw [hpath] at h
  rw [hd]
  cases d with
  | nil => rfl
  | cons c d => exact h

/-- The names of a path: those of its directory, and its last. -/
theorem pathNames_eq (h : path.bytes.head? = some slash) (hb : basePart path ≠ CStr.empty) :
    pathNames path.bytes = pathNames (dirPart path).bytes ++ [basePart path] := by
  obtain ⟨d, base, hs, hp, hd, hbase⟩ := exists_parts h
  have hne : base ≠ [] := fun e => hb (CStr.ext (hbase.trans e))
  rw [hp, hd, pathNames_append, pathNames_append, pathNames_nil, List.append_nil,
    pathNames_single hs hne, ← hbase, cstr_bytes]

/-- A path with a name is not `"/"`. -/
theorem length_ne_one (h : path.bytes.head? = some slash) (hb : basePart path ≠ CStr.empty) :
    path.bytes.length ≠ 1 := by
  obtain ⟨d, base, -, hpath, -, hbase⟩ := exists_parts h
  have hpos := List.length_pos_iff.mpr fun e : base = [] => hb (CStr.ext (hbase.trans e))
  rw [hpath, List.length_append, List.length_cons]
  omega

end

/-- All places of the cache but one, at the least, hold nodes that are referred to. -/
def Crowded (s : Fs) : Prop := maxCachedNodes ≤ (s.cache.filter fun j => s.refs j ≠ 0).length + 1

theorem Full.crowded (h : Full s) : Crowded s := by
  have hall : (s.cache.filter fun j => s.refs j ≠ 0) = s.cache :=
    List.filter_eq_self.mpr fun j hj => decide_eq_true (by rw [Fs.refs_of_mem hj]; exact h.2 j hj)
  unfold Crowded
  rw [hall, h.1]
  exact Nat.le_succ _

section

variable [Stack]

/-! ### Where a path leads -/

section

variable {F : Files} {path : CStr} {p : ℕ}

/-- What a path leads to is referenced after the lookup: the root was before. -/
theorem refs_of_namei {r r' : ℕ → ℕ} {v : ℕ} (hp : namei F path = some p) (h1 : r' fsRoot ≠ 0)
    (hr : r' p = r p + (if path.bytes.length ≠ 1 ∧ some p = some p then 1 else 0) + v) :
    r' p ≠ 0 := by
  by_cases hl : path.bytes.length = 1
  · unfold namei at hp
    rw [if_pos hl] at hp
    rwa [← Option.some.inj hp]
  · rw [hr, if_pos ⟨hl, rfl⟩]
    omega

/-- Where a path leads, by its names. -/
theorem trail_of_namei (h : path.bytes.head? = some slash) (hp : namei F path = some p) :
    trail (inodeAt F) fsRoot (pathNames path.bytes) = some p := by
  unfold namei at hp
  by_cases hl : path.bytes.length = 1
  · obtain ⟨c, hc⟩ := List.length_eq_one_iff.mp hl
    rw [if_pos hl] at hp
    rw [hc] at h ⊢
    obtain rfl : c = slash := Option.some.inj h
    rw [← Option.some.inj hp]
    rfl
  · rw [if_neg hl] at hp
    split_ifs at hp
    exact hp

/-- **A path leads where its directory has its name.** -/
theorem namei_eq (h : path.bytes.head? = some slash) (hb : basePart path ≠ CStr.empty)
    (hp : namei F (dirPart path) = some p) : namei F path = inodeAt F p (basePart path) := by
  unfold namei
  rw [if_neg (length_ne_one h hb), pathNames_eq h hb, if_neg (by simp), trail_append,
    trail_of_namei (head_dirPart h) hp]
  exact Option.bind_fun_some _

/-- The map of a directory in order. -/
theorem inodeAt_eq_names (ht : F.Tidy p) : inodeAt F p = F.names p := by
  funext c
  unfold inodeAt
  by_cases h0 : lookup (F.entries p) c = 0
  · rw [if_pos h0]
    by_contra hn
    obtain ⟨i, hi⟩ := Option.ne_none_iff_exists'.mp fun e => hn e.symm
    have hshort := ht.short_of_names hi
    exact absurd ((ht.lookup_eq_zero_iff hshort).mp h0) (by rw [hi]; exact Option.some_ne_none i)
  · rw [if_neg h0]
    exact (ht.mem_iff.mpr ⟨mem_of_lookup rfl h0, h0⟩).symm

theorem inodeAt_of_entries {c : CStr} (h : F.entries p = []) : inodeAt F p c = none := by
  unfold inodeAt
  rw [h]
  rfl

theorem inodeAt_congr {F' : Files} (h : F'.entries p = F.entries p) :
    inodeAt F' p = inodeAt F p := by
  unfold inodeAt
  rw [h]

end

/-! ### `fs_creat` -/

section

variable {s s' : Fs} {path name : CStr} {p i mode : ℕ} {r : Option ℕ}

/-- The paths after a file has been created in directory `p`. -/
theorem Inserted.paths (ht : Files.Tidy p s.file) (h : Inv s) (hr : s.refs p ≠ 0) (hn : name.Short)
    (hi : Inserted p name 0x8000 mode (fun _ => []) s (some i) s') (x : ℕ)
    (names : List CStr) :
    trail (inodeAt s'.file) x names =
      if names.getLast? = some name ∧ trail (inodeAt s.file) x names.dropLast = some p then some i
      else trail (inodeAt s.file) x names := by
  obtain ⟨ht', hnames, habs, -⟩ := Inserted.names ht h hr hn hi
  have habs : Files.names s.file p name = none := by
    by_contra hc
    exact Option.some_ne_none i (habs.mpr hc)
  rw [if_pos habs] at hnames
  obtain ⟨he, -⟩ | ⟨j, n, data, hj, ha, hf⟩ := id hi
  · exact absurd he (Option.some_ne_none i)
  obtain rfl : i = j := Option.some.inj hj
  obtain ⟨hpi, k, F, -, hm, hs⟩ := ha.files h hr
  have hold : Files.entries s.file i = [] := Files.entries_of_none hm.1
  have hnew : Files.entries s'.file i = [] := by
    rw [(Files.congr (hs.of_ne (Ne.symm hpi))).1, Files.entries_of_some hm.self]
    unfold File.entries
    split_ifs
    · rfl
    · exact hf.slots
  refine trail_put (P := fun _ => True) (fun c _ => ?_) ?_ hpi
    (fun c _ => ⟨inodeAt_of_entries hold, inodeAt_of_entries hnew⟩) (fun q hqp hqi c _ => ?_)
    fun _ _ => trivial
  · rw [inodeAt_eq_names ht', inodeAt_eq_names ht, hnames]
    exact update_apply ..
  · rw [inodeAt_eq_names ht]
    exact habs
  · rw [inodeAt_congr ((Files.congr (hs.of_ne hqp)).1.trans (Files.congr (hm.of_ne hqi)).1)]

/-- The references after `cofs_creat`. -/
theorem Inserted.refs {type mask : ℕ} {l : ℕ → List Dirent} (h : Mounted s)
    (hi : Inserted p name type mask l s r s') (j : ℕ) :
    s'.refs j = s.refs j + if r = some j then 1 else 0 := by
  rcases hi with ⟨rfl, he⟩ | ⟨i, n, data, rfl, ha, -⟩
  · rw [if_neg (Option.some_ne_none j).symm]
    by_cases hj : j = lookup (slots (s.data p)) name
    · rw [hj, he.back.refs, if_neg]
      · rfl
      · rintro ⟨h1, h0⟩
        exact h.root (h1 ▸ h0)
    · exact he.back.rest.refs j hj
  · by_cases hj : j = i
    · rw [hj, ha.refs, ha.unused, if_pos rfl]
    · rw [if_neg fun e => hj (Option.some.inj e).symm]
      by_cases hjp : j = p
      · rw [hjp]
        exact ha.parent_refs
      · exact ha.rest.refs j fun hc => hc.elim hjp hj

/-- With one more node that is referred to the cache is full. -/
theorem crowded_of_full (h : Mounted s) (h' : Mounted s')
    (hr : ∀ j, j ≠ p → j ≠ 1 → s'.refs j = s.refs j) (hf : s'.CacheFull i) : Crowded s := by
  obtain ⟨-, hlen, hall⟩ := hf
  have hsub : s'.cache.erase p ⊆ s.cache.filter fun j => s.refs j ≠ 0 := by
    intro j hj
    obtain ⟨hjp, hmem⟩ := (h'.inv.nodup.mem_erase_iff).mp hj
    have hrefs : s.refs j ≠ 0 := by
      by_cases h1 : j = 1
      · exact h1 ▸ h.root
      · rw [← hr j hjp h1, Fs.refs_of_mem hmem]
        exact hall j hmem
    exact List.mem_filter.mpr ⟨Fs.mem_of_refs hrefs, decide_eq_true hrefs⟩
  have hle := ((h'.inv.nodup.erase p).subperm hsub).length_le
  have herase := List.le_length_erase (a := p) (l := s'.cache)
  unfold Crowded
  omega

/-- The reasons for which `fs_creat` halts: the walk to the directory halts, there is no room in the
cache for the new node besides that of the directory, no inode is free, no block is left, or the
directory has the largest size. -/
def CreatHalts (path : CStr) (s s' : Fs) : Prop :=
  Crowded s ∨ Dangling s.file fsRoot (pathNames (dirPart path).bytes) ∨
    (∀ j, 0 < j → j < s.dev.superb.numInodes → s.file j ≠ none) ∨ s'.dev.NoneFree ∨
    ∃ p, namei s.file (dirPart path) = some p ∧
      maxFileSize < 32 * ((Files.entries s.file p).length + 1)

/-- In a directory in order an insertion halts for want of room only. -/
theorem InsertFails.halts {s₁ : Fs} (h : Mounted s) (h₁ : Mounted s₁) (ht₁ : Typed s₁)
    (hf : s₁.file = s.file) (hs : s₁.dev.superb = s.dev.superb)
    (hr : ∀ j, j ≠ p → j ≠ 1 → s₁.refs j = s.refs j) (hrp : s₁.refs p ≠ 0)
    (ht : Files.Tidy p s.file) (hdir : namei s.file (dirPart path) = some p)
    (hn : name.Short) (hfail : InsertFails p name 0x8000 s₁ s') : CreatHalts path s s' := by
  have htidy : Files.Tidy p s₁.file := by rwa [hf]
  have hshown : Shown p (Files.names s₁.file p) s₁ := ⟨h₁, htidy, rfl⟩
  have hload := h₁.inv.loaded hrp
  have hd : (s₁.node p).type &&& 0x4000 ≠ 0 := fun hd => by
    have hdir := htidy.dir
    rw [Files.type_of_some (h₁.inv.file_loaded hload)] at hdir
    exact hdir (ht₁.not_dir hload hd)
  rcases hfail with hfind | ⟨h0, horphan⟩ | (hall | ⟨i, hfull⟩ | htype) | hdir' | hnone | hsize
  · by_cases hroom : ∀ i, Files.names s₁.file p name = some i → ¬ s₁.CacheFull i
    · exact absurd hfind (hshown.not_findFails ⟨hrp, hd⟩ hn hroom)
    · push Not at hroom
      obtain ⟨i, -, hfull⟩ := hroom
      exact .inl (crowded_of_full h h₁ hr hfull)
  · obtain ⟨i, hi⟩ :=
      Option.ne_none_iff_exists'.mp (mt (htidy.lookup_data_zero h₁.inv hrp hn).mpr h0)
    obtain ⟨hl, -, hno, -⟩ := hshown.lookup_eq hrp hi
    exact absurd (hl ▸ horphan) hno
  · refine .inr (.inr (.inl fun j hpos hlt => ?_))
    rw [← hf]
    exact fun e => Fs.file_eq_none.mp e (hall j hpos (by rwa [hs]))
  · exact .inl (crowded_of_full h h₁ hr hfull)
  · exact absurd htype (by decide)
  · exact absurd hdir' hd
  · exact .inr (.inr (.inr (.inl hnone)))
  · refine .inr (.inr (.inr (.inr ⟨p, hdir, ?_⟩)))
    obtain ⟨hmod, -⟩ := h₁.inv.dir_ok hrp hd
    rw [← hf, htidy.entries_eq h₁.inv hrp, length_slots, Fs.length_data]
    omega

/-- **`fs_creat`** returns a node exactly if the directory of the path is there and the path is
not, and changes no file otherwise. The node is of a free inode; the paths that end with the name
in that directory lead to it, and no other path leads elsewhere than before. The node has one
reference, and the directory keeps the one that the lookup has given it, unless it was written
`"/"`. It halts only for want of a place in the cache, an inode, a block or a place in the
directory, or if a name on the way leads to no file. -/
theorem creat_path (h : Mounted s) (ht : Typed s) (hp : path.bytes.head? = some slash)
    (hn : (basePart path).Short)
    (htidy : ∀ p, namei s.file (dirPart path) = some p → Files.Tidy p s.file) :
    wp (fsCreat path mode)
      (fun r s' => Mounted s' ∧
        (r = none ↔ namei s.file (dirPart path) = none ∨ namei s.file path ≠ none) ∧
        (r = none → s'.file = s.file) ∧
        (∀ i, r = some i → s.file i = none ∧ namei s'.file path = some i ∧
          ∀ names, trail (inodeAt s'.file) fsRoot names =
            if names.getLast? = some (basePart path) ∧
              trail (inodeAt s.file) fsRoot names.dropLast = namei s.file (dirPart path)
            then some i else trail (inodeAt s.file) fsRoot names) ∧
        ∀ j, s'.refs j = s.refs j + (if r = some j then 1 else 0) +
          (if (dirPart path).bytes.length ≠ 1 ∧
            namei s.file (dirPart path) = some j then 1 else 0) +
          if j = 1 then visits (inodeAt s.file) 1 fsRoot (pathNames (dirPart path).bytes) else 0)
      (fun _ s' => CreatHalts path s s') s := by
  have hne := hn.ne_empty
  have hhead := head_dirPart hp
  simp only [fsCreat, kassert, wp_bind, hp, decide_true, if_true, wp_pure]
  refine (namei_resolves h ht hhead).mono (fun o s₁ ho => ?_) fun _ s' he =>
    he.imp Full.crowded .inl
  obtain ⟨ho, hm₁, ht₁, hf₁, hs₁, hr₁⟩ := ho
  cases o with
  | none =>
    refine ⟨hm₁, iff_of_true rfl (.inl ho.symm), fun _ => hf₁, fun i hi =>
      absurd hi.symm (Option.some_ne_none i), fun j => ?_⟩
    rw [hr₁ j, ← ho, if_neg fun hc => Option.some_ne_none j hc.2.symm,
      if_neg (Option.some_ne_none j).symm]
  | some p =>
    have hdir : namei s.file (dirPart path) = some p := ho.symm
    have htidy₁ : Files.Tidy p s₁.file := by
      rw [hf₁]
      exact htidy p hdir
    have hrp : s₁.refs p ≠ 0 := refs_of_namei hdir hm₁.root (hr₁ p)
    have hroot : ∀ {i}, s₁.Orphan i → i ≠ 1 := by
      rintro i hi rfl
      exact hm₁.not_orphan_root hi
    have hpath := namei_eq hp hne hdir
    rw [inodeAt_eq_names (htidy p hdir)] at hpath
    have hothers : ∀ j, j ≠ p → j ≠ 1 → s₁.refs j = s.refs j := by
      intro j hjp hj1
      rw [hr₁ j, if_neg fun hc => hjp (Option.some.inj hc.2).symm, if_neg hj1]
      rfl
    refine (creat_spec hm₁.inv hm₁.quiet hrp hroot).mono (fun r s' hi => ?_) fun _ _ he =>
      InsertFails.halts h hm₁ ht₁ hf₁ hs₁ hothers hrp (htidy p hdir) hdir hn he.2
    obtain ⟨ht', hnames, habs, hsame⟩ := Inserted.names htidy₁ hm₁.inv hrp hn hi
    rw [hf₁] at hnames habs hsame
    refine ⟨hi.mounted hm₁, ?_, hsame, fun i hr => ?_, fun j => ?_⟩
    · rw [habs, hpath, hdir]
      simp
    · subst hr
      have hfollow := Inserted.paths htidy₁ hm₁.inv hrp hn hi fsRoot
      rw [hf₁] at hfollow
      have hfree : s.file i = none := by
        rcases hi with ⟨he, -⟩ | ⟨j, n, data, hj, ha, -⟩
        · exact absurd he (Option.some_ne_none i)
        · rw [← hf₁, Option.some.inj hj]
          exact ha.free
      refine ⟨hfree, ?_, fun names => by rw [hdir]; exact hfollow names⟩
      have hall := hfollow (pathNames path.bytes)
      rw [pathNames_eq hp hne, List.dropLast_concat, trail_of_namei hhead hdir,
        List.getLast?_concat, if_pos ⟨rfl, rfl⟩, ← pathNames_eq hp hne] at hall
      unfold namei
      rw [if_neg (length_ne_one hp hne), if_neg (by rw [pathNames_eq hp hne]; simp)]
      exact hall
    · rw [Inserted.refs hm₁ hi j, hr₁ j, hdir]
      omega

end

end

/-! ### An empty root -/

attribute [local instance] Stack.zero

theorem typed_tiny : Typed (tiny (emptyNode 0x4000)) := .of_cache (by decide +kernel)

theorem value_creat : (fsCreat pathA 0 (tiny (emptyNode 0x4000))).value? = some (some 2) := by
  decide +kernel

theorem tidy_dirPart {F : Files} (h : F.Tidy 1) (p : ℕ) (hp : namei F (dirPart pathA) = some p) :
    F.Tidy p := by
  have hroot : namei F (dirPart pathA) = some 1 := if_pos (by decide)
  exact Option.some.inj (hroot.symm.trans hp) ▸ h

/-- `fs_creat("/a")` makes the path. -/
theorem creat_path_tiny : ∃ s', fsCreat pathA 0 (tiny (emptyNode 0x4000)) = .ok (some 2) s' ∧
    namei s'.file pathA = some 2 :=
  ⟨_, Outcome.eq_ok_of_value value_creat,
    (((creat_path tiny_mounted typed_tiny rfl (by decide) (tidy_dirPart tiny_tidy)).ok
      (Outcome.eq_ok_of_value value_creat)).2.2.2.1 2 rfl).2.1⟩

end Cosiris.Vfs
