import Cosiris.Cofs.DirMap
import Cosiris.Lib.Paths
import Cosiris.Vfs.Canonize

/-!
# From a path to a node

`fs_namei` of `vfs.c` walks the components of a path from the root with `cofs_finddir`. A node
on the way loses the reference that the lookup has given it before the next lookup, without
`cofs_put_node`, so that the node may be recycled while its entries are looked up. The root is
left out of this, and keeps a reference for each time that it is passed.
-/

namespace Cosiris.Vfs

open Function Prog Cofs Paths

section

variable [Stack]

/-! ### The program -/

/-- The inode of `fs_root`. -/
def fsRoot : ℕ := 1

/-- `fs_finddir`. Every node of the file system has the operation. -/
def fsFinddir (i : ℕ) (name : CStr) : Prog Halt Fs (Option ℕ) := do
  let node ← getNode i
  if node.type &&& 0x4000 ≠ 0 then cofsFinddir i name else return none

/-- `if (node->inode != 1) node->ref_count--`. -/
def letGo (i : ℕ) : Prog Halt Fs Unit := do
  let node ← getNode i
  if node.inode ≠ 1 then modifyNode i fun n => { n with refCount := n.refCount - 1 }

/-- A round of `fs_namei` that has read a name. -/
def enter (node : Option ℕ) (name : CStr) : Prog Halt Fs (Option ℕ) :=
  match node with
  | some i => do
    letGo i
    fsFinddir i name
  | none => fsFinddir fsRoot name

/-- The loop of `fs_namei`: `p` is what is left of the string, and `len` the characters that are to
be read. Every round reads one, so that the rounds do not outnumber them. -/
def nameiLoop : ℕ → ℕ → List UInt8 → Option ℕ → Prog Halt Fs (Option ℕ)
  | 0, _, _, node => return node
  | n + 1, len, p, node =>
    if len > 0 then
      let name := cstr p
      let rest := fun node =>
        nameiLoop n (len - name.bytes.length - 1) (p.drop (name.bytes.length + 1)) node
      if name ≠ CStr.empty then do
        match ← enter node name with
        | some i => rest (some i)
        | none => return none
      else rest node
    else return node

/-- `*p == '/'` made `0`. -/
def cutSlashes (path : List UInt8) : List UInt8 := path.map fun c => if c = slash then 0 else c

/-- `fs_namei`. -/
def fsNamei (path : CStr) : Prog Halt Fs (Option ℕ) := do
  kassert "*path" (path ≠ CStr.empty)
  if path.bytes.head? ≠ some slash then halt (.panic "Path [%s] is not full path\n")
  let len := path.bytes.length
  if len = 1 then return some fsRoot
  else nameiLoop len len (cutSlashes path.bytes ++ [0]) none

/-! ### What it is for -/

/-- The names in a path. -/
def pathNames (path : List UInt8) : List CStr := ((components path).filter (· ≠ [])).map cstr

/-- The inode that directory `i` has under a name. -/
def inodeAt (F : Files) (i : ℕ) (name : CStr) : Option ℕ :=
  if lookup (F.entries i) name = 0 then none else some (lookup (F.entries i) name)

/-- `fs_namei`: where the names of a path lead. -/
def namei (F : Files) (path : CStr) : Option ℕ :=
  if path.bytes.length = 1 then some fsRoot
  else if pathNames path.bytes = [] then none
  else trail (inodeAt F) fsRoot (pathNames path.bytes)

/-- Some of the names lead to an inode that no file has. -/
def Dangling (F : Files) (i : ℕ) (names : List CStr) : Prop :=
  ∃ l, l <+: names ∧ ∃ j, trail (inodeAt F) i l = some j ∧ F.type j &&& 0xF000 = 0

/-- The type of a node can be told from its record: its mode does not reach into the type. -/
def Typed (s : Fs) : Prop := ∀ i, s.Loaded i → (s.node i).pack.type &&& 0xF000 = (s.node i).type

/-- Every node of the cache is referred to and the cache has no room. -/
def Full (s : Fs) : Prop :=
  s.cache.length = maxCachedNodes ∧ ∀ j ∈ s.cache, (s.node j).refCount ≠ 0

/-- What is left of the walk is walked from inode `i`, or from the root if there is no node yet. -/
def walk (node : Option ℕ) : List CStr → Prog Halt Fs (Option ℕ)
  | [] => return node
  | name :: names => do
    match ← enter node name with
    | some i => walk (some i) names
    | none => return none

end

/-! ### The loop -/

section

variable {c r q : List UInt8} {node : Option ℕ} {n : ℕ}

theorem cutSlashes_of_not_mem (h : slash ∉ c) : cutSlashes c = c := by
  refine (List.map_congr_left fun x hx => ?_).trans (List.map_id c)
  exact if_neg fun e : x = slash => h (e ▸ hx)

theorem bytes_cstr_append (h : 0 ∉ c) : (cstr (c ++ 0 :: r)).bytes = c := by
  show (c ++ 0 :: r).takeWhile (· ≠ 0) = c
  rw [takeWhile_nonzero h, List.takeWhile_cons_of_neg (by simp), List.append_nil]

theorem bytes_cstr (h : 0 ∉ c) : (cstr c).bytes = c :=
  List.takeWhile_eq_self_iff.mpr fun x hx => decide_eq_true fun e : x = 0 => h (e ▸ hx)

theorem cstr_append (h : 0 ∉ c) : cstr (c ++ 0 :: r) = cstr c :=
  CStr.ext ((bytes_cstr_append h).trans (bytes_cstr h).symm)

theorem pathNames_nil : pathNames [] = [] := by
  unfold pathNames components
  rw [List.splitOn_nil]
  rfl

theorem pathNames_single (h : slash ∉ c) (h0 : c ≠ []) : pathNames c = [cstr c] := by
  unfold pathNames components
  rw [List.splitOn_eq_singleton h, List.filter_singleton, decide_eq_true h0]
  rfl

theorem pathNames_cons (h : slash ∉ c) :
    pathNames (c ++ slash :: r) = if c = [] then pathNames r else cstr c :: pathNames r := by
  unfold pathNames components
  rw [List.splitOn_append_cons_self, List.splitOn_eq_singleton h, List.singleton_append,
    List.filter_cons]
  by_cases h0 : c = []
  · rw [if_pos h0, if_neg (by simpa using h0)]
  · rw [if_neg h0, if_pos (by simpa using h0), List.map_cons]

/-- The characters before the first separator, and what follows them. -/
theorem exists_first (q : List UInt8) : ∃ c, slash ∉ c ∧ (q = c ∨ ∃ r, q = c ++ slash :: r) := by
  refine ⟨q.takeWhile (· ≠ slash), fun h => by simpa using List.mem_takeWhile_imp h, ?_⟩
  have hq := List.takeWhile_append_dropWhile (p := (· ≠ slash)) (l := q)
  cases hd : q.dropWhile (· ≠ slash) with
  | nil =>
    rw [hd, List.append_nil] at hq
    exact .inl hq.symm
  | cons x r =>
    have hx : x = slash := by
      have := List.head?_dropWhile_not (· ≠ slash) q
      rw [hd] at this
      simpa using this
    rw [hd, hx] at hq
    exact .inr ⟨r, hq.symm⟩

variable [Stack]

theorem nameiLoop_zero (p : List UInt8) : nameiLoop n 0 p node = return node := by
  cases n <;> rfl

/-- **The loop walks the names of the path.** -/
theorem nameiLoop_eq (h0 : 0 ∉ q) (hn : q.length ≤ n) :
    nameiLoop n q.length (cutSlashes q ++ [0]) node = walk node (pathNames q) := by
  induction n generalizing q node with
  | zero =>
    rw [List.length_eq_zero_iff.mp (Nat.le_zero.mp hn), pathNames_nil]
    rfl
  | succ n ih =>
    obtain ⟨c, hc, hq⟩ := exists_first q
    have hc0 : 0 ∉ c := fun h => by
      rcases hq with rfl | ⟨r, rfl⟩
      · exact h0 h
      · exact h0 (List.mem_append_left _ h)
    by_cases hnil : q = []
    · subst hnil
      rw [pathNames_nil]
      exact nameiLoop_zero _
    have hpos : 0 < q.length := List.length_pos_iff.mpr hnil
    -- what follows the name is a string of the same kind
    have hrest : ∃ r, cutSlashes q ++ [0] = c ++ 0 :: r ∧
        (∀ node, nameiLoop n (q.length - c.length - 1) r node =
          walk node (pathNames (q.drop (c.length + 1)))) ∧
        pathNames q = if c = [] then pathNames (q.drop (c.length + 1))
          else cstr c :: pathNames (q.drop (c.length + 1)) := by
      rcases hq with rfl | ⟨r, rfl⟩
      · refine ⟨[], by rw [cutSlashes_of_not_mem hc], fun node => ?_, ?_⟩
        · rw [Nat.sub_self, Nat.zero_sub, nameiLoop_zero, List.drop_eq_nil_of_le (Nat.le_succ _),
            pathNames_nil]
          rfl
        · rw [if_neg hnil, pathNames_single hc hnil, List.drop_eq_nil_of_le (Nat.le_succ _),
            pathNames_nil]
      · have hd : (c ++ slash :: r).drop (c.length + 1) = r := by simp
        have hl : (c ++ slash :: r).length - c.length - 1 = r.length := by simp
        refine ⟨cutSlashes r ++ [0], ?_, fun node => ?_, ?_⟩
        · unfold cutSlashes
          rw [List.map_append, List.map_cons, if_pos rfl, List.append_assoc, List.cons_append]
          exact congrArg (· ++ _) (cutSlashes_of_not_mem hc)
        · rw [hd, hl]
          exact ih (fun h => h0 (by simp [h]))
            (by rw [List.length_append, List.length_cons] at hn; omega)
        · rw [hd, pathNames_cons hc]
    obtain ⟨r, hp, hloop, hnames⟩ := hrest
    have hb : (cstr (c ++ 0 :: r)).bytes = c := bytes_cstr_append hc0
    have hdrop : (c ++ 0 :: r).drop (c.length + 1) = r := by simp
    rw [nameiLoop, if_pos hpos, hp, hnames]
    simp only [hb, hdrop, hloop]
    by_cases hc1 : c = []
    · have : cstr (c ++ 0 :: r) = CStr.empty := CStr.ext (hb.trans hc1)
      rw [if_neg (not_not.mpr this), if_pos hc1]
    · have : cstr (c ++ 0 :: r) ≠ CStr.empty := fun e => hc1 (hb.symm.trans (congrArg CStr.bytes e))
      rw [if_pos this, if_neg hc1, cstr_append hc0, walk]

end

section

variable [Stack]

/-! ### References on the way -/

section

variable {s₀ s s' : Fs} {i j k : ℕ} {o : Option ℕ} {name : CStr} {names : List CStr}

/-- A node has one reference less. -/
theorem Inv.letGo (h : Inv s) (hr : s.refs i ≠ 0) (hl : (s.node i).lock = false)
    (hc : s.dev.inode i = (s.node i).pack) (hs : s' = s.setNode i fun n =>
      { n with refCount := n.refCount - 1 }) :
    Inv s' ∧ Rest (· = i) s s' ∧ s'.file = s.file := by
  have hmem := Fs.mem_of_refs hr
  have hload := h.loaded hr
  have hn : ∀ j, j ≠ i → s'.node j = s.node j := fun j hj => hs ▸ Fs.setNode_ne s _ hj
  have hi : s'.node i = { s.node i with refCount := (s.node i).refCount - 1 } := by
    rw [hs, Fs.setNode_self]
  subst hs
  have hload' : Fs.Loaded (s.setNode i fun n => { n with refCount := n.refCount - 1 }) i :=
    ⟨hmem, by rw [hi]; exact hload.2⟩
  refine h.recache rfl h.cacheLock h.nodup h.length (fun _ _ hj => hj) (fun _ _ hj _ => hj) hn
    (fun _ => ?_) (fun _ => ?_) (fun _ => ?_) (fun _ _ => hload'.2) (fun _ _ => ?_) fun _ _ => ?_
  · rw [Fs.record_of_loaded hload', Fs.record_of_loaded hload, hi]
    rfl
  · rw [hi]
    exact (h.each i).inode hmem
  · rw [hi]
    have hfit := h.fits hr
    exact ⟨hfit.type, hfit.size, hfit.addrs, hfit.rest⟩
  · rw [hi]
    exact hl
  · rw [hi]
    exact hc

/-- On the way, from the start `s₀`: the node `o` has one more reference, and the root `k` more. -/
structure OnTheWay (s₀ : Fs) (o : Option ℕ) (k : ℕ) (s : Fs) : Prop where
  mounted : Mounted s
  typed : Typed s
  file : s.file = s₀.file
  superb : s.dev.superb = s₀.dev.superb
  refs : ∀ j, s.refs j = s₀.refs j + (if o = some j then 1 else 0) + if j = 1 then k else 0

theorem OnTheWay.start (h : Mounted s) (ht : Typed s) : OnTheWay s none 0 s :=
  ⟨h, ht, rfl, rfl, fun j => by simp⟩

/-- The cache is full on the way only if it was at the start. -/
theorem OnTheWay.full (h : OnTheWay s₀ none k s) (h₀ : Mounted s₀)
    (hf : s.CacheFull i) : Full s₀ := by
  obtain ⟨-, hlen, hall⟩ := hf
  have hsub : ∀ j ∈ s.cache, s₀.refs j ≠ 0 := by
    intro j hj
    have hr := hall j hj
    rw [← Fs.refs_of_mem hj, h.refs j, if_neg (by simp)] at hr
    by_cases h1 : j = 1
    · exact h1 ▸ h₀.root
    · rwa [if_neg h1] at hr
  have hperm : s.cache.Perm s₀.cache :=
    (h.mounted.inv.nodup.subperm fun j hj => Fs.mem_of_refs (hsub j hj)).perm_of_length_le
      (hlen ▸ h₀.inv.length)
  refine ⟨hperm.length_eq ▸ hlen, fun j hj => ?_⟩
  rw [← Fs.refs_of_mem hj]
  exact hsub j (hperm.mem_iff.mpr hj)

/-- `fs_namei` gives up a node. -/
theorem OnTheWay.letGo (h : OnTheWay s₀ (some i) k s) :
    wp (letGo i) (fun _ s' => OnTheWay s₀ none (k + if i = 1 then 1 else 0) s' ∧ s'.Loaded i)
      (fun _ _ => False) s := by
  have hinv := h.mounted.inv
  have hr : s.refs i ≠ 0 := by
    rw [h.refs, if_pos rfl]
    omega
  have hload := hinv.loaded hr
  have hnum := hinv.inode_eq hr
  simp only [Vfs.letGo, wp_bind, wp_getNode, wp_ite, wp_modifyNode, wp_pure]
  by_cases h1 : i = 1
  · rw [if_neg (by rw [hnum]; exact not_not.mpr h1), if_pos h1]
    refine ⟨⟨h.mounted, h.typed, h.file, h.superb, fun j => ?_⟩, hload⟩
    rw [h.refs j, if_neg (Option.some_ne_none j).symm]
    by_cases hj : j = 1
    · rw [if_pos hj, if_pos hj, if_pos (by rw [h1, hj])]
      omega
    · rw [if_neg hj, if_neg hj, if_neg fun e => hj (h1 ▸ (Option.some.inj e).symm)]
  · rw [if_pos (by rw [hnum]; exact h1), if_neg h1]
    have hlock := h.mounted.quiet.unlocked i (Fs.mem_of_refs hr)
    have hclean := h.mounted.quiet.clean i hload
    obtain ⟨hinv', hrest, hfile⟩ := Inv.letGo hinv hr hlock hclean rfl
    generalize hs : s.setNode i (fun n => { n with refCount := n.refCount - 1 }) =
      s' at hinv' hrest hfile
    have hi : s'.node i = { s.node i with refCount := (s.node i).refCount - 1 } := by
      rw [← hs, Fs.setNode_self]
    have hcached := Fs.mem_of_refs hr
    have hmem : i ∈ s'.cache := by
      rw [← hs]
      exact hcached
    have hload' : s'.Loaded i := ⟨hmem, by rw [hi]; exact hload.2⟩
    have hquiet := hrest.quiet hinv' h.mounted.quiet fun j hj _ => by
      rw [hj, hi, ← hs]
      exact ⟨hlock, hclean⟩
    refine ⟨⟨⟨hinv', hquiet, ?_⟩, fun j hj => ?_, hfile.trans h.file,
      hrest.superb.trans h.superb, fun j => ?_⟩, hload'⟩
    · rw [hrest.refs 1 (Ne.symm h1)]
      exact h.mounted.root
    · by_cases hji : j = i
      · rw [hji, hi]
        exact h.typed i hload
      · obtain ⟨hin, e⟩ := hrest.cached j hji hj.1
        rw [e]
        exact h.typed j ⟨hin, e ▸ hj.2⟩
    · rw [if_neg (Option.some_ne_none j).symm, Nat.add_zero, Nat.add_zero]
      by_cases hji : j = i
      · have hold := h.refs i
        rw [hji, Fs.refs_of_mem hmem, hi]
        rw [Fs.refs_of_mem (Fs.mem_of_refs hr), if_pos rfl] at hold
        show (s.node i).refCount - 1 = _
        omega
      · rw [hrest.refs j hji, h.refs j, if_neg fun e => hji (Option.some.inj e).symm, Nat.add_zero]

omit [Stack] in
/-- The record of a node that is no directory is not one of a directory. -/
theorem Typed.not_dir (ht : Typed s) (hl : s.Loaded i) (hd : (s.node i).type &&& 0x4000 = 0) :
    (s.node i).pack.type &&& 0x4000 = 0 := by
  rwa [← ht i hl, Nat.and_assoc, show 0xF000 &&& 0x4000 = 0x4000 from rfl] at hd

/-- The entries of a node that has been loaded. -/
theorem entries_loaded (h : Inv s) (ht : Typed s) (hl : s.Loaded i) :
    Files.entries s.file i = if (s.node i).type &&& 0x4000 = 0 then [] else slots (s.data i) := by
  rw [Files.entries_of_some (h.file_loaded hl)]
  unfold File.entries
  by_cases hd : (s.node i).type &&& 0x4000 = 0
  · rw [if_pos hd]
    exact if_pos (ht.not_dir hl hd)
  · rw [if_neg hd]
    exact if_neg (pack_type_dir hd)

/-- A node that `cofs_finddir` has found. -/
theorem OnTheWay.found {nm : CStr} (h : OnTheWay s₀ none k s) (hf : s'.file = s.file)
    (ht : Turn j s s'
      { s.core j with name := nm, refCount := s.refs j + 1, lock := false } (s.text j)
      (s.dev.inode j)) :
    OnTheWay s₀ (some j) k s' := by
  have hinv := h.mounted.inv
  have hmounted := ht.mounted h.mounted rfl
    (hinv.inode_core fun hr => h.mounted.quiet.clean j (hinv.loaded hr)) fun _ => Nat.succ_ne_zero _
  refine ⟨hmounted, fun x hx => ?_, hf.trans h.file, ht.rest.superb.trans h.superb, fun x => ?_⟩
  · by_cases hxj : x = j
    · rw [hxj, ht.node]
      show (s.core j).pack.type &&& 0xF000 = (s.core j).type
      by_cases hl : s.Loaded j
      · rw [Fs.core_of_loaded hl]
        exact h.typed j hl
      · -- a node that has just been loaded has the type of its record
        have hcore : s.core j = (freshNode j).load (s.dev.inode j) := if_neg hl
        rw [hcore, FsNode.pack_load _ (s.dev.inode_fits j)]
        rfl
    · obtain ⟨hin, e⟩ := ht.rest.cached x hxj hx.1
      rw [e]
      exact h.typed x ⟨hin, e ▸ hx.2⟩
  · by_cases hxj : x = j
    · rw [hxj, ht.refs, if_pos rfl]
      show s.refs j + 1 = _
      rw [h.refs j, if_neg (Option.some_ne_none j).symm]
      omega
    · rw [ht.rest.refs x hxj, h.refs x, if_neg (Option.some_ne_none x).symm,
        if_neg fun e => hxj (Option.some.inj e).symm]

/-- **`fs_finddir` on the way** finds the inode that the directory has under the name. -/
theorem OnTheWay.finddir (h : OnTheWay s₀ none k s) (h₀ : Mounted s₀) (hl : s.Loaded i) :
    wp (fsFinddir i name)
      (fun r s' => r = inodeAt s₀.file i name ∧ OnTheWay s₀ r k s')
      (fun _ _ => Full s₀ ∨ ∃ j, inodeAt s₀.file i name = some j ∧
        Files.type s₀.file j &&& 0xF000 = 0) s := by
  have hinv := h.mounted.inv
  have hent := entries_loaded hinv h.typed hl
  rw [h.file] at hent
  unfold inodeAt
  rw [hent]
  simp only [fsFinddir, wp_bind, wp_getNode, wp_ite, wp_pure]
  by_cases hd : (s.node i).type &&& 0x4000 = 0
  · rw [if_neg (not_not.mpr hd), if_pos hd, if_pos (show lookup [] name = 0 from rfl)]
    exact ⟨rfl, h⟩
  · rw [if_pos hd, if_neg hd]
    refine finddir_loaded hinv hl (fun e s' _ _ hf => ?_) (fun _ h0 => ?_)
      fun j _ hj h0 hlt _ s' hf nm _ _ ht => ?_
    · rcases hf with hf | ⟨h0, hfull | ⟨hr, hlock⟩ | htype⟩
      · exact absurd hf hd
      · exact .inl (h.full h₀ hfull)
      · rw [h.mounted.quiet.unlocked _ (Fs.mem_of_refs hr)] at hlock
        cases hlock
      · refine .inr ⟨_, if_neg h0, ?_⟩
        rw [← h.file]
        by_cases ha : s.Allocated (lookup (slots (s.data i)) name)
        · rw [Files.type_of_some (Fs.file_of_allocated ha)]
          exact htype
        · rw [Files.type_of_none (Fs.file_eq_none.mpr ha), Nat.zero_and]
    · rw [if_pos h0]
      exact ⟨rfl, h⟩
    · rw [hj, if_neg h0]
      exact ⟨rfl, h.found hf ht⟩

/-- The names after the next one lead to an inode that no file has. -/
theorem Dangling.cons {F : Files} (h : inodeAt F i name = some j) (hd : Dangling F j names) :
    Dangling F i (name :: names) := by
  obtain ⟨l, hl, x, hx, ht⟩ := hd
  refine ⟨name :: l, List.cons_prefix_cons.mpr ⟨rfl, hl⟩, x, ?_, ht⟩
  rw [trail_cons, h]
  exact hx

/-- **A round**: the node is given up, and the next one is found. -/
theorem OnTheWay.enter (h : OnTheWay s₀ o k s) (h₀ : Mounted s₀) :
    wp (enter o name)
      (fun r s' => r = inodeAt s₀.file (o.getD 1) name ∧
        OnTheWay s₀ r (k + if o = some 1 then 1 else 0) s')
      (fun _ _ => Full s₀ ∨ ∃ j, inodeAt s₀.file (o.getD 1) name = some j ∧
        Files.type s₀.file j &&& 0xF000 = 0) s := by
  cases o with
  | none => exact h.finddir h₀ (h.mounted.inv.loaded h.mounted.root)
  | some i =>
    rw [Vfs.enter, wp_bind]
    refine h.letGo.mono (fun _ s₁ hs => ?_) fun _ _ => False.elim
    obtain ⟨h₁, hl⟩ := hs
    rw [show (if some i = some 1 then 1 else 0) = if i = 1 then 1 else 0 by simp]
    exact h₁.finddir h₀ hl

/-- **The walk** from a node that it holds, or from the root: it ends where the names lead, with a
reference to that node alone. -/
theorem OnTheWay.walk (h : OnTheWay s₀ o k s) (h₀ : Mounted s₀) (hne : o = none → names ≠ []) :
    wp (walk o names)
      (fun r s' => r = trail (inodeAt s₀.file) (o.getD 1) names ∧
        OnTheWay s₀ r (k + (if o = some 1 ∧ names ≠ [] then 1 else 0) +
          visits (inodeAt s₀.file) 1 (o.getD 1) names) s')
      (fun _ _ => Full s₀ ∨ Dangling s₀.file (o.getD 1) names) s := by
  induction names generalizing o k s with
  | nil =>
    obtain ⟨i, rfl⟩ := Option.ne_none_iff_exists'.mp fun e => hne e rfl
    have hk : k + (if some i = some 1 ∧ ([] : List CStr) ≠ [] then 1 else 0) + 0 = k := by simp
    refine ⟨rfl, ?_⟩
    show OnTheWay s₀ (some i) (k + _ + 0) s
    rwa [hk]
  | cons name names ih =>
    rw [Vfs.walk, wp_bind]
    have hk : (if o = some 1 ∧ name :: names ≠ [] then 1 else 0) = if o = some 1 then 1 else 0 := by
      simp
    rw [hk, trail_cons, visits_cons]
    refine (h.enter h₀).mono (fun r s₁ hs => ?_) fun _ _ he => he.imp_right fun ⟨j, hj, ht⟩ =>
      ⟨[name], List.cons_prefix_cons.mpr ⟨rfl, List.nil_prefix⟩, j, by rw [trail_cons, hj]; rfl, ht⟩
    obtain ⟨hr, h₁⟩ := hs
    rw [← hr]
    cases r with
    | none => exact ⟨rfl, h₁⟩
    | some j =>
      refine (ih h₁ fun e => absurd e (Option.some_ne_none j)).mono (fun r s' hr' => ?_)
        fun _ _ he => he.imp_right fun hd => hd.cons hr.symm
      have e : (if some j = some 1 ∧ names ≠ [] then 1 else 0) = if j = 1 ∧
        names ≠ [] then 1 else 0 := by
        simp
      rwa [e, Option.getD_some, Nat.add_assoc] at hr'

/-- **`fs_namei`** ends where the names of the path lead, and no file changes. The node that it
returns has one reference more, unless the path is `"/"`; the root has one more for each time that
it was passed. It halts only if the cache is full or a name on the way leads to no file. -/
theorem namei_resolves {s : Fs} {path : CStr} (h : Mounted s) (ht : Typed s)
    (hp : path.bytes.head? = some slash) :
    wp (fsNamei path)
      (fun r s' => r = namei s.file path ∧ Mounted s' ∧ Typed s' ∧ s'.file = s.file ∧
        s'.dev.superb = s.dev.superb ∧
        ∀ j, s'.refs j = s.refs j + (if path.bytes.length ≠ 1 ∧ r = some j then 1 else 0) +
          if j = 1 then visits (inodeAt s.file) 1 fsRoot (pathNames path.bytes) else 0)
      (fun _ _ => Full s ∨ Dangling s.file fsRoot (pathNames path.bytes)) s := by
  have hne : path ≠ CStr.empty := by
    rintro rfl
    cases hp
  have hvisits : path.bytes.length = 1 → pathNames path.bytes = [] := fun hl => by
    obtain ⟨c, hc⟩ := List.length_eq_one_iff.mp hl
    rw [hc] at hp ⊢
    obtain rfl : c = slash := Option.some.inj hp
    rfl
  simp only [fsNamei, kassert, wp_bind, decide_eq_true hne, if_true, wp_pure, wp_ite, hp, ne_eq,
    not_true, if_false]
  unfold namei
  by_cases hl : path.bytes.length = 1
  · rw [if_pos hl, if_pos hl, hvisits hl]
    refine ⟨rfl, h, ht, trivial, trivial, fun j => ?_⟩
    rw [if_neg fun hc => hc.1 hl]
    simp
  · rw [if_neg hl, if_neg hl, nameiLoop_eq path.nonzero le_rfl]
    by_cases hn : pathNames path.bytes = []
    · rw [hn, if_pos rfl]
      refine ⟨rfl, h, ht, rfl, rfl, fun j => ?_⟩
      rw [if_neg fun hc => Option.some_ne_none j hc.2.symm]
      simp
    · rw [if_neg hn]
      refine ((OnTheWay.start h ht).walk h fun _ => hn).mono (fun r s' hs => ?_) fun _ _ he => he
      obtain ⟨hr, hs⟩ := hs
      have hnone : ¬ ((none : Option ℕ) = some 1 ∧ pathNames path.bytes ≠ []) := fun hc =>
        Option.some_ne_none 1 hc.1.symm
      rw [if_neg hnone, Nat.zero_add] at hs
      refine ⟨hr, hs.mounted, hs.typed, hs.file, hs.superb, fun j => ?_⟩
      rw [hs.refs j]
      simp [hl, fsRoot]

end

end

/-! ### A root with one file -/

attribute [local instance] Stack.zero

/-- `"/a"`. -/
def pathA : CStr := ⟨[47, 97], by decide⟩

/-- A run of calls on a directory in order. -/
theorem shown_of_reach {p : ℕ} {m : CStr → Option ℕ} {s₀ s : Fs} (h : Mounted s₀)
    (ht : Files.Tidy p s₀.file)
    (hrun : Reach (DirStep p) (Files.names s₀.file p, s₀) (m, s)) : Shown p m s := by
  have hstart : Shown p (Files.names s₀.file p) s₀ := ⟨h, ht, rfl⟩
  exact Reach.invariant (I := fun x => Shown p x.1 x.2) (fun _ _ h hs => h.step hs) hstart hrun

theorem Typed.of_cache {s : Fs}
    (h : ∀ i ∈ s.cache, (s.node i).pack.type &&& 0xF000 = (s.node i).type) :
    Typed s := fun i hi => h i hi.1

theorem shown_oneFile : Shown 1 oneName oneFile :=
  shown_of_reach tiny_mounted tiny_tidy (.single dirStep_oneFile)

theorem typed_oneFile : Typed oneFile := .of_cache (by decide +kernel)

theorem value_namei : (fsNamei pathA oneFile).value? = some (some 2) := by decide +kernel

/-- `fs_namei("/a")` finds the file. -/
theorem namei_resolves_oneFile :
    (fsNamei pathA oneFile).value? = some (some 2) ∧ namei oneFile.file pathA = some 2 :=
  ⟨value_namei, ((namei_resolves shown_oneFile.mounted typed_oneFile rfl).ok
    (Outcome.eq_ok_of_value value_namei)).1.symm⟩

end Cosiris.Vfs
