import Cosiris.Vfs.Bname
import Cosiris.Vfs.Paths

/-!
# Removing files by their paths

`fs_unlink` of `vfs.c` resolves a path against the working directory, splits it, finds the directory
and the node, refuses a directory that is not empty, and has `cofs_unlink` remove the name. It gives
up none of the nodes that it has found when it refuses.
-/

namespace Cosiris.Vfs

open Function Prog Cofs Paths

section

variable [Stack]

/-! ### The program -/

/-- The string that an array holds. -/
def Buf.str (b : Buf) : CStr := cstr ((List.range maxPathLen).map b.data)

/-- `fs_readdir`. Every node of the file system has the operation. -/
def fsReaddir (i index : ℕ) : Prog Halt Fs (Option Dirent) := do
  let node ← getNode i
  if node.type &&& 0x4000 ≠ 0 then cofsReaddir i index else return none

/-- The loop of `fs_unlink`: whether the directory has an entry but `"."` and `".."`. A round reads
an entry, so that the rounds do not outnumber the entries, and one. -/
def findEntry (i : ℕ) : ℕ → ℕ → Prog Halt Fs Bool
  | 0, _ => halt .fault
  | n + 1, idx => do
    match ← fsReaddir i idx with
    | none => return false
    | some dir =>
      if dir.inode > 0 then
        if dir.name = dot then findEntry i n (idx + 1)
        else if dir.name = dotdot then findEntry i n (idx + 1)
        else return true
      else findEntry i n (idx + 1)

/-- `fs_close`, which is `cofs_close`. -/
def fsClose (i : ℕ) : Prog Halt Fs Unit := do
  let node ← getNode i
  if node.lock then cofsUnlock i
  cofsPutNode i

/-- Whether the node is a directory that is not empty. -/
def notEmpty (i : ℕ) : Prog Halt Fs Bool := do
  let node ← getNode i
  if node.type = 0x4000 then findEntry i (node.size / 32 + 2) 0 else return false

/-- What follows the lookups in `fs_unlink`. -/
def removeNode (parent : ℕ) (node : Option ℕ) (filename : CStr) : Prog Halt Fs Bool := do
  let dir ← getNode parent
  if dir.type ≠ 0x4000 then return false
  else
    match node with
    | none => return false
    | some i => do
      if ← notEmpty i then return false
      else
        fsClose i
        cofsUnlink parent filename

/-- `fs_unlink`, in a process whose working directory is `cwd`: whether it removes the name, where
the source returns `0` or `-1`. The arrays of the path are those of the stack, which nothing has
set. A parent that is not there is read all the same. -/
def fsUnlink (a : Arrays) (cwd path : List UInt8) : Prog Halt Fs Bool := do
  match canonizePath cwd path with
  | none =>
    if path.getD 0 0 ≠ slash ∧ cwd.getD 0 0 ≠ slash then
      halt (.panic "canonize_path: prefix should start with /\n")
    else halt (.kassert "clean_path")
  | some p =>
    match bname p a with
    | .halt e _ => halt (.kassert e)
    | .ok _ a => do
      let parent ← fsNamei a.dirname.str
      let parent ← deref parent
      let node ← fsFinddir parent a.basename.str
      removeNode parent node a.basename.str

/-! ### What it is for -/

/-- The directory of a path, without the `'/'` behind it. -/
def dirName (path : CStr) : CStr :=
  if (dirPart path).bytes.length = 1 then dirPart path
  else (dirPart path).take ((dirPart path).bytes.length - 1)

/-- The inode that directory `p` names may be removed: what it is asked of is a directory and
nothing else, and the inode is no directory, or has no names in it. -/
def Removable (F : Files) (p i : ℕ) : Prop :=
  F.type p &&& 0xF000 = 0x4000 ∧
    (F.type i &&& 0xF000 = 0x4000 → ∀ e ∈ F.entries i, e.inode ≠ 0 → ¬ e.name.Plain)

/-- The name of inode `i` has been removed from directory `p`: the paths that lead through the entry
lead nowhere, and no other path changes, `"."` and `".."` apart. The file has a link less. -/
structure Removed (F F' : Files) (p i : ℕ) (name : CStr) : Prop where
  ne : p ≠ i
  gone : ∀ x names, (∀ c ∈ names, CStr.Plain c) → Passes (inodeAt F) p name x names →
    trail (inodeAt F') x names = none
  kept : ∀ x names, (∀ c ∈ names, CStr.Plain c) → ¬ Passes (inodeAt F) p name x names →
    trail (inodeAt F') x names = trail (inodeAt F) x names
  links : F'.links i + 1 = F.links i
  files : ∀ q, q ≠ p → q ≠ i → F' q = F q

/-! ### The parts of the path -/

section

variable {path : CStr} {d base s : List UInt8} {b : Buf} {F : Files} {p : ℕ}

omit [Stack] in
theorem Buf.Holds.str (h : b.Holds s) (hl : s.length < maxPathLen) : b.str.bytes = s := by
  have hsplit : (List.range maxPathLen).map b.data =
      s ++ 0 :: ((List.range maxPathLen).map b.data).drop (s.length + 1) := by
    refine List.ext_getElem (by simp; omega) fun j hj hj' => ?_
    rw [List.getElem_map, List.getElem_range]
    by_cases h1 : j < s.length
    · rw [List.getElem_append_left h1, h.chars j h1]
    · by_cases h2 : j = s.length
      · subst h2
        rw [List.getElem_append_right le_rfl]
        simpa using h.last
      · rw [List.getElem_append_right (Nat.le_of_not_lt h1)]
        obtain ⟨k, rfl⟩ := Nat.exists_eq_add_of_lt (show s.length < j by omega)
        simp [show s.length + k + 1 - s.length =
          k + 1 by omega, show s.length + 1 + k = s.length + k + 1 by omega]
  show (cstr ((List.range maxPathLen).map b.data)).bytes = s
  rw [hsplit, bytes_cstr_append h.zero]

omit [Stack] in
/-- The parts of an absolute path, without the `'/'` between them. -/
theorem exists_dirName (h : path.bytes.head? = some slash) : ∃ d base, slash ∉ base ∧
    path.bytes = d ++ slash :: base ∧ (dirName path).bytes = (if d = [] then [slash] else d) ∧
    (basePart path).bytes = base := by
  obtain ⟨d, base, hs, hp, hd, hb⟩ := exists_parts h
  refine ⟨d, base, hs, hp, ?_, hb⟩
  unfold dirName
  rw [hd]
  cases d with
  | nil => exact hd
  | cons c d =>
    rw [if_neg (by simp), if_neg (List.cons_ne_nil c d)]
    show (dirPart path).bytes.take _ = _
    rw [hd]
    simp

omit [Stack] in
theorem bname_eq (hb : slash ∉ base) (hd : d.length + 1 ≤ maxPathLen)
    (hn : base.length ≤ maxPathLen) (a : Arrays) : bname (d ++ slash :: base) a =
      .ok () ⟨putDirname (d ++ slash :: base) (d.length + 1) a.dirname,
        (strncpy base 0 base.length a.basename).put base.length 0⟩ := by
  have hlen : (d ++ slash :: base).length - (d.length + 1) = base.length := by
    simp
    omega
  have hdrop : (d ++ slash :: base).drop (d.length + 1) = base := by
    rw [List.drop_append]
    simp
  have hslash : (d ++ slash :: base).getD d.length 0 = slash := by simp
  have hpos : lastSlash (d ++ slash :: base) (d ++ slash :: base).length = d.length :=
    lastSlash_eq hb (by simp)
  simp only [bname, hpos, if_pos hslash, hlen, hdrop, if_pos hd, if_pos hn]
  rfl

omit [Stack] in
/-- **`bname`** gives the directory and the name of a path that has room in the arrays. -/
theorem bname_names (h : path.bytes.head? = some slash) (hl : path.bytes.length < maxPathLen)
    (a : Arrays) :
    ∃ a', bname path.bytes a = .ok () a' ∧ a'.dirname.str = dirName path ∧
      a'.basename.str = basePart path := by
  obtain ⟨d, base, hs, hp, hd, hb⟩ := exists_dirName h
  have hlen : d.length + base.length + 1 < maxPathLen := by
    rw [hp, List.length_append, List.length_cons] at hl
    omega
  have hz : 0 ∉ d ++ slash :: base := hp ▸ path.nonzero
  have hzd : 0 ∉ d := fun h0 => hz (List.mem_append_left _ h0)
  have hzb : 0 ∉ base := fun h0 => hz (List.mem_append_right _ (List.mem_cons_of_mem _ h0))
  rw [hp]
  refine ⟨_, bname_eq hs (by omega) (by omega) a, CStr.ext ?_, CStr.ext ?_⟩
  · rw [hd]
    refine (holds_putDirname hzd base a.dirname).str ?_
    split_ifs
    · decide
    · omega
  · have hholds := holds_strncpy hzb [] a.basename
    rw [List.append_nil] at hholds
    rw [hb]
    exact hholds.str (by omega)

omit [Stack] in
theorem head_dirName (h : path.bytes.head? = some slash) :
    (dirName path).bytes.head? = some slash := by
  obtain ⟨d, base, -, hp, hd, -⟩ := exists_dirName h
  rw [hd]
  rw [hp] at h
  cases d with
  | nil => rfl
  | cons c d => exact h

omit [Stack] in
theorem pathNames_dirName (h : path.bytes.head? = some slash) :
    pathNames (dirName path).bytes = pathNames (dirPart path).bytes := by
  obtain ⟨d, base, -, hp, hd, hb⟩ := exists_dirName h
  obtain ⟨d', base', hs', hp', hd', hb'⟩ := exists_parts h
  have hdd : d ++ slash :: base = d' ++ slash :: base' := hp.symm.trans hp'
  have hbb : base = base' := hb.symm.trans hb'
  rw [hbb] at hdd
  rw [hd, hd', List.append_cancel_right hdd, pathNames_append, pathNames_nil, List.append_nil]
  split_ifs with hnil
  · rw [hnil]
    exact pathNames_cons (c := []) (r := []) (List.not_mem_nil)
  · rfl

/-- **A path leads where its directory has its name.** -/
theorem namei_dirName (h : path.bytes.head? = some slash) (hb : basePart path ≠ CStr.empty)
    (hp : namei F (dirName path) = some p) : namei F path = inodeAt F p (basePart path) := by
  unfold namei
  rw [if_neg (length_ne_one h hb), pathNames_eq h hb, if_neg (by simp), trail_append,
    ← pathNames_dirName h, trail_of_namei (head_dirName h) hp]
  exact Option.bind_fun_some _

end

/-! ### The search for an entry -/

section

variable {s s' : Fs} {i j n idx : ℕ} {name : CStr}

omit [Stack] in
theorem Dirent.isLink_read (e : Dirent) : e.read.isLink = e.isLink := by
  unfold Dirent.read
  by_cases h0 : e.inode = 0
  · rw [if_pos h0]
    simp [Dirent.isLink, h0]
  · rw [if_neg h0]
    refine decide_eq_decide.mpr (and_congr_right' ?_)
    show e.name.take 27 ≠ dot ∧ e.name.take 27 ≠ dotdot ↔ e.name ≠ dot ∧ e.name ≠ dotdot
    rw [Ne, Ne, CStr.take_eq_iff (by decide), CStr.take_eq_iff (by decide)]

/-- A round. -/
theorem findEntry_succ {dir : Option Dirent} (hd : (s.node i).type &&& 0x4000 ≠ 0)
    (hr : cofsReaddir i idx s = .ok dir s) :
    findEntry i (n + 1) idx s =
      dir.elim (.ok false s) fun dir =>
        if dir.isLink then .ok true s else findEntry i n (idx + 1) s := by
  have hread : fsReaddir i idx s = .ok dir s := by
    show (getNode i >>= fun node => if node.type &&& 0x4000 ≠ 0 then cofsReaddir i idx
      else pure none)
      s = _
    rw [bind_of_ok (show getNode i s = .ok (s.node i) s from rfl), if_pos hd, hr]
  show (fsReaddir i idx >>= _) s = _
  rw [bind_of_ok hread]
  cases dir with
  | none => rfl
  | some e =>
    unfold Dirent.isLink CStr.Plain
    by_cases h0 : e.inode = 0
    · simp [h0]
    · by_cases h1 : e.name = dot
      · simp [h1]
      · by_cases h2 : e.name = dotdot
        · simp [h0, h2]
        · simp [h0, h1, h2, Nat.pos_of_ne_zero h0]
          rfl

/-- **The search** for an entry but `"."` and `".."`. -/
theorem findEntry_eq (h : Inv s) (hq : Quiet s) (hr : s.refs i ≠ 0)
    (hd : (s.node i).type &&& 0x4000 ≠ 0) (hi : idx ≤ (slots (s.data i)).length)
    (hn : (slots (s.data i)).length < idx + n) :
    findEntry i n idx s = .ok (((slots (s.data i)).drop idx).any Dirent.isLink) s := by
  have hmax := (h.node_shaped hr).filled.1
  have hlen : (slots (s.data i)).length = (s.node i).size / 32 := by simp
  induction n generalizing idx with
  | zero => omega
  | succ n ih =>
    rw [findEntry_succ hd (readdir_eq h hq hr (h.dir_ok hr hd).1 (by omega))]
    by_cases hlt : idx < (slots (s.data i)).length
    · rw [List.getElem?_eq_getElem hlt, List.drop_eq_getElem_cons hlt, List.any_cons,
        Option.map_some, Option.elim_some, Dirent.isLink_read]
      by_cases hl : (slots (s.data i))[idx].isLink = true
      · rw [if_pos hl, hl, Bool.true_or]
      · rw [if_neg hl, Bool.eq_false_of_not_eq_true hl, Bool.false_or]
        exact ih (by omega) (by omega)
    · rw [List.getElem?_eq_none (Nat.le_of_not_lt hlt),
        List.drop_eq_nil_of_le (Nat.le_of_not_lt hlt)]
      rfl

end

/-! ### What the removal does -/

section

variable {s s' : Fs} {i j p : ℕ} {o : Option ℕ} {name : CStr}

/-- The type of a node that has been loaded. -/
theorem type_loaded (h : Inv s) (ht : Typed s) (hl : s.Loaded i) :
    (s.node i).type = Files.type s.file i &&& 0xF000 := by
  rw [Files.type_of_some (h.file_loaded hl)]
  exact (ht i hl).symm

/-- The paths after a name has been removed from directory `p`. -/
theorem Unlinked.paths (ht : Files.Tidy p s.file) (h : Inv s) (hr : s.refs p ≠ 0) (h1 : i ≠ 1)
    (hu : Unlinked p name i s s') (hi : ∀ e ∈ Files.entries s.file i, e.inode ≠ 0 → ¬ e.name.Plain)
    (x : ℕ)
    {names : List CStr} (hn : ∀ c ∈ names, c.Plain) :
    (Passes (inodeAt s.file) p name x names → trail (inodeAt s'.file) x names = none) ∧
      (¬ Passes (inodeAt s.file) p name x names →
        trail (inodeAt s'.file) x names = trail (inodeAt s.file) x names) := by
  obtain ⟨ht', hnames⟩ := Unlinked.names ht h hr h1 hu
  have hp : inodeAt s'.file p name = none := by
    rw [inodeAt_eq_names ht', hnames, update_self]
  have hempty : ∀ c : CStr, c.Plain → inodeAt s.file i c = none := fun c hc => by
    by_contra hne
    have h0 : lookup (Files.entries s.file i) c ≠ 0 := fun h0 => hne (if_pos h0)
    exact hi _ (mem_of_lookup rfl h0) h0 hc
  have hrest : ∀ q (c : CStr), c.Plain → ¬ (q = p ∧ c = name) →
    inodeAt s'.file q c = inodeAt s.file q c := by
    intro q c hc hqc
    by_cases hqp : q = p
    · rw [hqp, inodeAt_eq_names ht', inodeAt_eq_names ht, hnames,
        update_of_ne fun e => hqc ⟨hqp, e⟩]
    · by_cases hqi : q = i
      · rw [hqi, hempty c hc]
        by_cases hl : s.LastLink i
        · refine inodeAt_of_entries ?_
          have hfile := hu.file
          rw [if_pos hl] at hfile
          have hbare := FsNode.remains_bare hl.2
          cases hf : s'.file i with
          | none => exact Files.entries_of_none hf
          | some f =>
            rw [Files.entries_of_some hf]
            exact (hbare f (hfile.symm.trans hf)).2
        · have hfile := hu.file
          rw [if_neg hl] at hfile
          have hent : Files.entries s'.file i = Files.entries s.file i := by
            rw [Files.entries_of_some hfile, Files.entries_of_some (h.file_core hu.alloc)]
            show (if (s.core i).linkDown.pack.type &&& 0x4000 = 0 then [] else slots (s.text i)) = _
            rw [FsNode.linkDown_pack_type]
            rfl
          rw [inodeAt_congr hent, hempty c hc]
      · rw [inodeAt_congr (Files.congr (hu.rest.file q fun hc => hc.elim hqp hqi)).1]
  exact ⟨trail_of_passes hp hrest hn, trail_of_not_passes hrest hn⟩

/-- A removal takes a link from the file. -/
theorem Unlinked.links (h : Inv s) (hu : Unlinked p name i s s') (hl : Files.links s.file i ≠ 0) :
    Files.links s'.file i + 1 = Files.links s.file i := by
  have hold := h.links_eq hu.alloc
  have hdown : (s.core i).linkDown.numLinks % 2 ^ 16 =
    (Files.links s.file i + (2 ^ 16 - 1)) % 2 ^ 16 := by
    rw [hold]
    exact FsNode.linkDown_mod _
  have hnew : Files.links s'.file i = (s.core i).linkDown.numLinks % 2 ^ 16 := by
    have hfile := hu.file
    split_ifs at hfile with hlast
    · rw [hlast.2, Nat.zero_mod]
      cases hf : s'.file i with
      | none => exact Files.links_of_none hf
      | some f =>
        rw [Files.links_of_some hf]
        exact (FsNode.remains_bare hlast.2 f (hfile.symm.trans hf)).1
    · rw [Files.links_of_some hfile]
      rfl
  omega

/-- What `cofs_unlink` has removed. -/
theorem Unlinked.removed (ht : Files.Tidy p s.file) (h : Inv s) (hr : s.refs p ≠ 0) (h1 : i ≠ 1)
    (hu : Unlinked p name i s s') (hi : ∀ e ∈ Files.entries s.file i, e.inode ≠ 0 → ¬ e.name.Plain)
    (hl : Files.links s.file i ≠ 0) : Removed s.file s'.file p i name where
  ne := hu.ne
  gone x _ hn := (Unlinked.paths ht h hr h1 hu hi x hn).1
  kept x _ hn := (Unlinked.paths ht h hr h1 hu hi x hn).2
  links := Unlinked.links h hu hl
  files q hqp hqi := hu.rest.file q fun hc => hc.elim hqp hqi

/-- A file that is linked is not released. -/
theorem not_last (h : Inv s) (hr : s.refs i ≠ 0) (hl : Files.links s.file i ≠ 0) :
    ¬ s.Last i := fun hlast => by
  refine hl ?_
  rw [Files.links_of_some (h.file_eq hr)]
  show (s.node i).numLinks % 2 ^ 16 = 0
  rw [hlast.2, Nat.zero_mod]

/-- A node that is closed. Nothing is released. -/
theorem fsClose_spec (h : Mounted s) (hr : s.refs i ≠ 0) (h1 : i ≠ 1)
    (hl : Files.links s.file i ≠ 0) :
    wp (fsClose i) (fun _ s' => Mounted s' ∧ s'.file = s.file ∧ Rest (· = i) s s' ∧
      s'.refs i = s.refs i - 1) (fun _ _ => True) s := by
  have hlock := h.quiet.unlocked i (Fs.mem_of_refs hr)
  have hlast := not_last h.inv hr hl
  simp only [fsClose, wp_bind, wp_getNode, hlock, Bool.false_eq_true, if_false]
  refine (put_spec h.inv hr hlock (h.quiet.clean i (h.inv.loaded hr)) fun hd =>
    absurd hd hlast).mono
    (fun _ s' hput => ?_) fun _ _ _ => trivial
  obtain ⟨hinv, hrest, -, hrefs, hfile, hnode⟩ := hput
  have heff : (Call.put i).Effect s s' := ⟨hinv, hrest, hrefs, hfile, hnode⟩
  refine ⟨heff.mounted h (c := .put i) (fun x hx => List.mem_singleton.mp hx ▸ hr),
    funext fun j => ?_, hrest, ?_⟩
  · by_cases hj : j = i
    · rw [hj, hfile, if_neg hlast]
    · exact hrest.file j hj
  · rw [hrefs, if_neg fun hc => h1 hc.1]

/-- The test for an empty directory. -/
theorem notEmpty_eq (h : Mounted s) (ht : Typed s) (hri : s.refs i ≠ 0)
    (hdir : Files.type s.file p &&& 0xF000 = 0x4000) :
    ∃ found, notEmpty i s = .ok found s ∧ (found = false ↔ Removable s.file p i) := by
  have hti := type_loaded h.inv ht (h.inv.loaded hri)
  have hent := entries_loaded h.inv ht (h.inv.loaded hri)
  unfold Removable
  rw [← hti]
  show ∃ found, (if (s.node i).type = 0x4000 then
    findEntry i ((s.node i).size / 32 + 2) 0 else pure false) s = .ok found s ∧ _
  by_cases hd : (s.node i).type = 0x4000
  · have hdn : (s.node i).type &&& 0x4000 ≠ 0 := by
      rw [hd]
      decide
    have hlen : (slots (s.data i)).length = (s.node i).size / 32 := by simp
    rw [if_pos hd, findEntry_eq h.inv h.quiet hri hdn (Nat.zero_le _) (by omega), hent, if_neg hdn]
    refine ⟨_, rfl, ?_⟩
    rw [List.drop_zero, List.any_eq_false]
    simp only [hdir, hd, true_and, true_imp_iff, Dirent.isLink, decide_eq_true_eq, not_and, ne_eq]
  · rw [if_neg hd]
    exact ⟨false, rfl, iff_of_true rfl ⟨hdir, fun hc => absurd hc hd⟩⟩

/-- **The removal**, with the nodes that the lookups have given. -/
theorem removeNode_spec (h : Mounted s) (ht : Typed s) (hr : s.refs p ≠ 0)
    (htidy : Files.Tidy p s.file) (ho : o = inodeAt s.file p name)
    (hi : ∀ i, o = some i → i ≠ 1 ∧ s.refs i ≠ 0 ∧ (i = p → s.refs p ≠ 1) ∧
      (Files.type s.file i &&& 0xF000 ≠ 0x4000 → Files.entries s.file i = [])) :
    wp (removeNode p o name)
      (fun r s' => Mounted s' ∧ (r = true ↔ ∃ i, o = some i ∧ Removable s.file p i) ∧
        (r = false → s' = s) ∧ (r = true → ∀ i, o = some i → Removed s.file s'.file p i name ∧
          ∀ j, s'.refs j = if j = p then (if p = 1 ∧ s.refs p = 1 then 1 else s.refs p - 1)
            else if j = i then s.refs i - 1 else s.refs j))
      (fun _ _ => True) s := by
  have hinv := h.inv
  have htp := type_loaded hinv ht (hinv.loaded hr)
  have hrefuse : ¬ (∃ i, o = some i ∧ Removable s.file p i) → Mounted s ∧
      (false = true ↔ ∃ i, o = some i ∧ Removable s.file p i) ∧ (false = false → s = s) ∧
        (false = true → ∀ i, o = some i → Removed s.file s.file p i name ∧
          ∀ j, s.refs j = if j = p then (if p = 1 ∧ s.refs p = 1 then 1 else s.refs p - 1)
            else if j = i then s.refs i - 1 else s.refs j) := fun hn =>
    ⟨h, iff_of_false Bool.false_ne_true hn, fun _ => rfl, fun hc => (Bool.false_ne_true hc).elim⟩
  unfold removeNode
  rw [wp_bind, wp_getNode, wp_ite]
  by_cases hdir : (s.node p).type = 0x4000
  swap
  · rw [if_pos hdir]
    exact hrefuse fun ⟨i, _, hrem⟩ => hdir (htp.trans hrem.1)
  rw [if_neg (not_not.mpr hdir)]
  cases o with
  | none => exact hrefuse fun ⟨i, he, _⟩ => Option.some_ne_none i he.symm
  | some i =>
    obtain ⟨hi1, hri, hip, hfiles⟩ := hi i rfl
    obtain ⟨found, hrun, hfound⟩ := notEmpty_eq h ht hri (htp.symm.trans hdir)
    rw [wp_bind]
    rw [wp_of_eq hrun]
    cases found with
    | true =>
      refine hrefuse fun ⟨j, he, hrem⟩ => ?_
      rw [← Option.some.inj he, ← hfound] at hrem
      cases hrem
    | false =>
      have hrem := hfound.mp rfl
      obtain ⟨hmem, h0⟩ : ⟨i, name⟩ ∈ Files.entries s.file p ∧ i ≠ 0 := by
        have := inodeAt_eq_names htidy ▸ ho.symm
        exact htidy.mem_iff.mp this
      have hlinks := htidy.links_ne_zero hmem h0
      rw [if_neg Bool.false_ne_true, wp_bind]
      refine (fsClose_spec h hri hi1 hlinks).mono (fun _ s₁ hc => ?_) fun _ _ _ => trivial
      obtain ⟨h₁, hf₁, hrest₁, hri₁⟩ := hc
      have hrp₁ : s₁.refs p ≠ 0 := by
        by_cases hpi : p = i
        · have := hip hpi.symm
          rw [hpi] at this hr ⊢
          omega
        · rw [hrest₁.refs p hpi]
          exact hr
      have ht₁ : Files.Tidy p s₁.file := by rwa [hf₁]
      have hlook : lookup (slots (s₁.data p)) name = i := by
        rw [ht₁.lookup_data h₁.inv hrp₁ (htidy.short _ hmem h0), hf₁, htidy.mem_iff.mpr ⟨hmem, h0⟩]
        rfl
      have hlast := not_last h₁.inv hrp₁ ht₁.linked
      refine (unlink_spec h₁.inv h₁.quiet hrp₁ h₁.root fun _ hl => absurd hl hlast).mono
        (fun r s' hu => ?_)
        fun _ _ _ => trivial
      rcases hu with ⟨-, hz, -⟩ | ⟨j, rfl, hu⟩
      · exact absurd (hlook.symm.trans hz) h0
      obtain rfl : j = i := hu.found.symm.trans hlook
      have hplain : ∀ e ∈ Files.entries s₁.file j, e.inode ≠ 0 → ¬ e.name.Plain := by
        rw [hf₁]
        by_cases hd : Files.type s.file j &&& 0xF000 = 0x4000
        · exact hrem.2 hd
        · rw [hfiles hd]
          exact fun e he => absurd he List.not_mem_nil
      have hremoved := Unlinked.removed ht₁ h₁.inv hrp₁ hi1 hu hplain (by rwa [hf₁])
      have heff : (Call.unlink p name).Effect s₁ s' := .inr ⟨j, hu⟩
      rw [hf₁] at hremoved
      refine ⟨heff.mounted h₁ (c := .unlink p name) fun x hx => List.mem_singleton.mp hx ▸ hrp₁,
        iff_of_true rfl ⟨j, rfl, hrem⟩, fun hc => (Bool.false_ne_true hc.symm).elim,
          fun _ i he => ?_⟩
      obtain rfl : j = i := Option.some.inj he
      refine ⟨hremoved, fun q => ?_⟩
      by_cases hqp : q = p
      · rw [hqp, if_pos rfl, hu.parent_refs, hrest₁.refs p hu.ne]
      · rw [if_neg hqp]
        by_cases hqi : q = j
        · rw [hqi, if_pos rfl, hu.refs, if_neg fun hc => hi1 hc.1, hri₁]
        · rw [if_neg hqi, hu.rest.refs q fun hc => hc.elim hqp hqi, hrest₁.refs q hqi]

omit [Stack] in
/-- The references that the lookups have given, `r'`, are those that the removal takes, but for
one of the root: `n` is the length of the directory's path, and `v` how often the root was passed.
-/
theorem settled {r r' : ℕ → ℕ} {n v : ℕ} (hne : p ≠ i) (h1 : r 1 ≠ 0)
    (hone : n = 1 → p = 1 ∧ v = 0)
    (hr : ∀ q, r' q = r q + (if n ≠ 1 ∧ p = q then 1 else 0) + (if q = 1 then v else 0) +
      if i = q then 1 else 0) (j : ℕ) :
    (if j = p then (if p = 1 ∧ r' p = 1 then 1 else r' p - 1)
      else if j = i then r' i - 1 else r' j) +
      (if j = 1 ∧ n = 1 ∧ r 1 ≠ 1 then 1 else 0) = r j + if j = 1 then v else 0 := by
  have hj := hr j
  by_cases hjp : j = p
  · subst hjp
    rw [if_pos rfl]
    rw [if_neg hne.symm] at hj
    by_cases hn : n = 1
    · obtain ⟨rfl, rfl⟩ := hone hn
      rw [if_neg fun hc => hc.1 hn, if_pos rfl] at hj
      by_cases hr1 : r 1 = 1
      · rw [if_pos ⟨rfl, hj.trans hr1⟩, if_neg fun hc => hc.2.2 hr1, if_pos rfl]
        omega
      · rw [if_neg fun hc => hr1 (hj.symm.trans hc.2), if_pos ⟨rfl, hn, hr1⟩, if_pos rfl]
        omega
    · rw [if_pos ⟨hn, rfl⟩] at hj
      have htwo : ¬ (j = 1 ∧ r' j = 1) := by
        rintro ⟨rfl, h2⟩
        omega
      rw [if_neg htwo, if_neg fun hc => hn hc.2.1]
      omega
  · have hlen : ¬ (j = 1 ∧ n = 1 ∧ r 1 ≠ 1) := fun hc => hjp (hc.1.trans (hone hc.2.1).1.symm)
    rw [if_neg hjp, if_neg hlen]
    rw [if_neg fun hc : n ≠ 1 ∧ p = j => hjp hc.2.symm] at hj
    by_cases hji : j = i
    · rw [hji] at hj ⊢
      rw [if_pos rfl] at hj ⊢
      omega
    · rw [if_neg fun e : i = j => hji e.symm] at hj
      rw [if_neg hji]
      omega

/-- `fs_unlink` removes the name exactly if the directory of the path is there, the path is, and
it leads to no directory with names in it. Otherwise no file changes, and the nodes that have been
found keep a reference that nobody gives up. A name in the root that was written `"/"` takes a
reference from the root, which the lookup has not given it. -/
structure UnlinkDone (path : CStr) (s : Fs) (r : Bool) (s' : Fs) : Prop where
  mounted : Mounted s'
  iff : r = true ↔ ∃ p i, namei s.file (dirName path) = some p ∧ namei s.file path = some i ∧
    Removable s.file p i
  removed : r = true → ∀ p i, namei s.file (dirName path) = some p → namei s.file path = some i →
    Removed s.file s'.file p i (basePart path) ∧
      ∀ j, s'.refs j + (if j = 1 ∧ (dirName path).bytes.length = 1 ∧ s.refs 1 ≠ 1 then 1 else 0) =
        s.refs j + if j =
          1 then visits (inodeAt s.file) 1 fsRoot (pathNames (dirName path).bytes) else 0
  refused : r = false → s'.file = s.file ∧ ∀ j, s'.refs j = s.refs j +
    (if (dirName path).bytes.length ≠ 1 ∧ namei s.file (dirName path) = some j then 1 else 0) +
    (if j = 1 then visits (inodeAt s.file) 1 fsRoot (pathNames (dirName path).bytes) else 0) +
    if namei s.file path = some j then 1 else 0

theorem fsUnlink_spec {a : Arrays} {cwd bytes : List UInt8} {path : CStr} (h : Mounted s)
    (ht : Typed s) (hc : canonizePath cwd bytes = some path.bytes)
    (hp : path.bytes.head? = some slash) (hl : path.bytes.length < maxPathLen)
    (hn : (basePart path).Short)
    (htidy : ∀ p, namei s.file (dirName path) = some p → Files.Tidy p s.file)
    (hroot : namei s.file path ≠ some 1)
    (hfile : ∀ i, namei s.file path = some i → Files.type s.file i &&& 0xF000 ≠ 0x4000 →
      Files.entries s.file i = []) :
    wp (fsUnlink a cwd bytes) (UnlinkDone path s) (fun _ _ => True) s := by
  obtain ⟨a', hb, hdir, hbase⟩ := bname_names hp hl a
  simp only [fsUnlink, hc, hb, hdir, hbase, wp_bind]
  refine (namei_resolves h ht (head_dirName hp)).mono (fun o s₁ ho => ?_) fun _ _ _ => trivial
  obtain ⟨rfl, h₁, ht₁, hf₁, -, hr₁⟩ := ho
  cases hq : namei s.file (dirName path) with
  | none => exact trivial
  | some p =>
    rw [hq] at hr₁
    have hpath := namei_dirName hp hn.ne_empty hq
    have hrp₁ : s₁.refs p ≠ 0 := refs_of_namei hq h₁.root (hr₁ p)
    refine ((OnTheWay.start h₁ ht₁).finddir h₁ (h₁.inv.loaded hrp₁)).mono
      (fun o s₂ ho => ?_) fun _ _ _ => trivial
    obtain ⟨hfound, h₂⟩ := ho
    have hf₂ : s₂.file = s.file := h₂.file.trans hf₁
    rw [hf₁, ← hpath] at hfound
    subst hfound
    have hr₂ : ∀ j, s₂.refs j = s.refs j +
        (if (dirName path).bytes.length ≠ 1 ∧ some p = some j then 1 else 0) +
        (if j = 1 then visits (inodeAt s.file) 1 fsRoot (pathNames (dirName path).bytes) else 0) +
        if namei s.file path = some j then 1 else 0 := fun j => by
      rw [h₂.refs j, hr₁ j, ite_self, Nat.add_zero]
    have hrp₂ : s₂.refs p ≠ 0 := by
      rw [h₂.refs p]
      omega
    -- the root has been reached by its own name, without a reference
    have hone : (dirName path).bytes.length = 1 → p = 1 ∧
        visits (inodeAt s.file) 1 fsRoot (pathNames (dirName path).bytes) = 0 := fun hone => by
      have hp1 : namei s.file (dirName path) = some fsRoot := if_pos hone
      obtain ⟨c, hc⟩ := List.length_eq_one_iff.mp hone
      have hhead := head_dirName hp
      rw [hc] at hhead ⊢
      obtain rfl : c = slash := Option.some.inj hhead
      exact ⟨Option.some.inj (hq.symm.trans hp1), rfl⟩
    have hspec : wp (removeNode p (namei s.file path) (basePart path)) _ _ s₂ :=
      removeNode_spec h₂.mounted h₂.typed hrp₂ (hf₂ ▸ htidy p hq) (by rw [hf₂, hpath])
        fun i hi => ?_
    · refine hspec.mono (fun r s' hs => ?_) fun _ _ _ => trivial
      obtain ⟨hm, hiff, hrefuse, hdone⟩ := hs
      rw [hf₂] at hiff hdone
      refine ⟨hm, hiff.trans ⟨fun ⟨i, hi, hrem⟩ => ⟨p, i, hq, hi, hrem⟩, ?_⟩,
        fun hr q i hqp hi => ?_, fun hr => ?_⟩
      · rintro ⟨q, i, hqp, hi, hrem⟩
        exact ⟨i, hi, Option.some.inj (hqp.symm.trans hq) ▸ hrem⟩
      · obtain rfl : p = q := Option.some.inj (hq.symm.trans hqp)
        obtain ⟨hrem, hrefs⟩ := hdone hr i hi
        refine ⟨hrem, fun j => ?_⟩
        have hne := hrem.ne
        have hi1 : i ≠ 1 := fun e => hroot (hi.trans (congrArg some e))
        have h1 := h.root
        have hval : ∀ q, s₂.refs q =
          s.refs q + (if (dirName path).bytes.length ≠ 1 ∧ p = q then 1 else 0) +
            (if q = 1 then
              visits (inodeAt s.file) 1 fsRoot (pathNames (dirName path).bytes) else 0) +
            if i = q then 1 else 0 := by
          simpa only [hi, Option.some_inj] using hr₂
        rw [hrefs j]
        exact settled hne h1 hone hval j
      · rw [hrefuse hr, hq]
        exact ⟨hf₂, hr₂⟩
    · have hi1 : i ≠ 1 := fun e => hroot (hi.trans (congrArg some e))
      rw [hf₂]
      refine ⟨hi1, ?_, fun e => ?_, hfile i hi⟩
      · rw [h₂.refs i, hi, if_pos rfl]
        omega
      · have hlen : (dirName path).bytes.length ≠ 1 := fun hlen => hi1 (e.trans (hone hlen).1)
        rw [hr₂ p, hi, if_pos ⟨hlen, rfl⟩, if_pos (congrArg some e)]
        omega

/-- **`fs_unlink`** by a path: the directory that it leads to is in order, and what it leads to is
not the root, and has entries only if it is a directory. -/
theorem unlink_path {a : Arrays} {cwd bytes : List UInt8} {path : CStr} {r : Bool} (h : Mounted s)
    (ht : Typed s) (hc : canonizePath cwd bytes = some path.bytes)
    (hp : path.bytes.head? = some slash) (hl : path.bytes.length < maxPathLen)
    (hn : (basePart path).Short)
    (htidy : ∀ p, namei s.file (dirName path) = some p → Files.Tidy p s.file)
    (hroot : namei s.file path ≠ some 1)
    (hfile : ∀ i, namei s.file path = some i → Files.type s.file i &&& 0xF000 ≠ 0x4000 →
      Files.entries s.file i = [])
    (hrun : fsUnlink a cwd bytes s = .ok r s') : UnlinkDone path s r s' :=
  (fsUnlink_spec h ht hc hp hl hn htidy hroot hfile).ok hrun

end

end

/-! ### A root with one file -/

attribute [local instance] Stack.zero

/-- Arrays of zeros. -/
def noArrays : Arrays := ⟨⟨fun _ => 0, []⟩, ⟨fun _ => 0, []⟩⟩

theorem value_unlink : (fsUnlink noArrays [47] [97] oneFile).value? = some true := by decide +kernel

theorem tidy_dirName {F : Files} (h : F.Tidy 1) (p : ℕ) (hp : namei F (dirName pathA) = some p) :
    F.Tidy p := by
  have hroot : namei F (dirName pathA) = some 1 := if_pos (by decide)
  exact Option.some.inj (hroot.symm.trans hp) ▸ h

theorem entries_oneFile : Files.entries oneFile.file 2 = [] := by decide +kernel

theorem namei_oneFile : namei oneFile.file pathA = some 2 :=
  ((namei_resolves shown_oneFile.mounted typed_oneFile rfl).ok
    (Outcome.eq_ok_of_value value_namei)).1.symm

theorem namei_oneFile_ne : namei oneFile.file pathA ≠ some 1 := by
  rw [namei_oneFile]
  decide

theorem entries_of_namei (i : ℕ) (hi : namei oneFile.file pathA = some i)
    (_ : Files.type oneFile.file i &&& 0xF000 ≠ 0x4000) : Files.entries oneFile.file i = [] := by
  obtain rfl : 2 = i := Option.some.inj (namei_oneFile.symm.trans hi)
  exact entries_oneFile

theorem canonizePath_a : canonizePath [47] [97] = some pathA.bytes := by decide

/-- `fs_unlink("a")` in the root removes the file. -/
theorem unlink_path_oneFile : ∃ s', fsUnlink noArrays [47] [97] oneFile = .ok true s' ∧
    UnlinkDone pathA oneFile true s' :=
  ⟨_, Outcome.eq_ok_of_value value_unlink,
    unlink_path shown_oneFile.mounted typed_oneFile canonizePath_a rfl (by decide) (by decide)
      (tidy_dirName shown_oneFile.tidy) namei_oneFile_ne entries_of_namei
      (Outcome.eq_ok_of_value value_unlink)⟩

end Cosiris.Vfs
