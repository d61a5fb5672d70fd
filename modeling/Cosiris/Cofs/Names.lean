import Cosiris.Cofs.Calls

/-!
# Long names

The name field of a directory entry has 28 bytes (`DIRSIZE`), and `cofs_dirlink` cuts a longer
name off to fit. The lookup compares the whole name with what an entry has. A name of 28 characters
leaves no room for the zero that ends it, and the comparison goes on with what is on the stack
behind the entry: the name is found again only if that is the rest of it, which for 28 characters
is a zero.
-/

namespace Cosiris.Cofs

open Function Prog

/-! ### Lookup in parts of a list -/

theorem lookup_cons (e : Dirent) (l : List Dirent) (name : CStr) :
    lookup (e :: l) name = if e.name = name then e.inode else lookup l name := by
  unfold lookup
  by_cases h : e.name = name
  · rw [List.find?_cons_of_pos (by simpa using h), if_pos h]
  · rw [List.find?_cons_of_neg (by simpa using h), if_neg h]

/-- Where no entry is free, every name in the list is found. -/
theorem lookup_eq_zero_iff {l : List Dirent} (hl : ∀ e ∈ l, e.inode ≠ 0) {name : CStr} :
    lookup l name = 0 ↔ ∀ e ∈ l, e.name ≠ name := by
  constructor
  · intro h e he hname
    unfold lookup at h
    cases hf : l.find? fun e => e.name = name with
    | none =>
      have := List.find?_eq_none.mp hf e he
      exact absurd hname (by simpa using this)
    | some x =>
      rw [hf] at h
      exact hl x (List.mem_of_find?_eq_some hf) h
  · exact lookup_of_none

/-! ### An entry is added -/

theorem FreeSlot.unique {l : List Dirent} {k k' : ℕ} (h : FreeSlot l k) (h' : FreeSlot l k')
    (hk : k ≤ l.length)
    (hk' : k' < l.length) : k = k' := by
  rcases Nat.lt_trichotomy k k' with hlt | heq | hgt
  · have := h'.2 l[k] (List.mem_take_iff_getElem.mpr ⟨k, by omega, rfl⟩)
    exact absurd (h.1 (by omega)) this
  · exact heq
  · have := h.2 l[k'] (List.mem_take_iff_getElem.mpr ⟨k', by omega, rfl⟩)
    exact absurd (h'.1 hk') this

section

variable {l : List Dirent} {k : ℕ} {e : Dirent} (hfree : FreeSlot l k)

include hfree

end

/-! ### The operations -/

section

variable [Stack]

/-- The operations that enter a name in a directory. -/
inductive Naming where
  | creat (mode : ℕ)
  | mkdir (mode : ℕ)
  | link (node : ℕ)

/-- The operation on directory `p`: the inode that the name stands for, none if it is refused. -/
def Naming.run (p : ℕ) (name : CStr) : Naming → Prog Halt Fs (Option ℕ)
  | creat mode => cofsCreat p name mode
  | mkdir mode => cofsMkdir p name mode
  | link node => do
    let ok ← cofsLink p node name
    return if ok then some node else none

/-- The node that the operation is given is referred to. -/
def Naming.Given (s : Fs) : Naming → Prop
  | creat _ | mkdir _ => True
  | link node => s.refs node ≠ 0

/-- Inode `i` is found under the name, a second creation of the name is refused, and the other
names of directory `p` are found as before. -/
structure Named (p : ℕ) (name : CStr) (i : ℕ) (s s' : Fs) : Prop where
  finds : wp (cofsFinddir p name) (fun r _ => r = some i) (fun _ _ => False) s'
  refuses : ∀ mode, wp (cofsCreat p name mode) (fun r _ => r = none) (fun _ _ => False) s' ∧
    wp (cofsMkdir p name mode) (fun r _ => r = none) (fun _ _ => False) s'
  others : ∀ other, other ≠ name →
      lookup (slots (s'.data p)) other = lookup (slots (s.data p)) other

section

variable {s : Fs} {p i : ℕ} {name : CStr} (h : Inv s) (hq : Quiet s) (hr : s.refs p ≠ 0)
  (hd : (s.node p).type &&& 0x4000 ≠ 0) (hl : lookup (slots (s.data p)) name = i)
  (hi : s.refs i ≠ 0)

include h hq hd hl hi

theorem not_findFails : ¬ FindFails s p name := by
  rintro (hn | ⟨-, hfull | hlock | htype⟩)
  · exact hd hn
  · rw [hl] at hfull
    exact hfull.1 (Fs.mem_of_refs hi)
  · rw [hl, hq.unlocked i (Fs.mem_of_refs hi)] at hlock
    exact absurd hlock.2 (by decide)
  · rw [hl, Fs.record_of_loaded (h.loaded hi)] at htype
    exact (h.fits hi).pack_type_and_ne_zero (h.loaded hi).2 htype

include hr

end

/-! ### Exactly when a long name is right -/

/-- The directory after an entry for inode `i` has been added. -/
structure Entered (p : ℕ) (name : CStr) (i : ℕ) (s s' : Fs) : Prop where
  inv : Inv s'
  quiet : Quiet s'
  refs : s'.refs p ≠ 0
  dir : (s'.node p).type &&& 0x4000 ≠ 0
  node : s'.refs i ≠ 0
  absent : lookup (slots (s.data p)) name = 0
  entry : ∃ k, k ≤ (slots (s.data p)).length ∧ FreeSlot (slots (s.data p)) k ∧
    slots (s'.data p) = putSlot (slots (s.data p)) k ⟨i, name.stored⟩

/-- A node that is looked up and put back does not change the contents of an open file. -/
theorem PutBack.data_eq {s s' : Fs} {p j : ℕ} (hb : PutBack j s s') (h : Inv s)
    (hr : s.refs p ≠ 0) :
    s'.data p = s.data p := by
  by_cases hj : p = j
  · subst hj
    have hr' : s'.refs p ≠ 0 := by rwa [hb.refs, if_neg fun hc => hr hc.2]
    have hfile : s'.file p = s.file p := by rw [hb.file, if_neg fun ho => hr ho.1]
    rw [hb.inv.file_eq hr', h.file_eq hr] at hfile
    exact congrArg File.data (Option.some.inj hfile)
  · exact hb.rest.data h hb.inv hj hr

section

variable {s : Fs} {p : ℕ} {name : CStr} (h : Mounted s) (hr : s.refs p ≠ 0)

include hr

theorem Added.entered {i : ℕ} {n : FsNode} {data : List UInt8} {s' : Fs}
    (ha : Added p name i n data s s') :
    Entered p name i s s' := by
  obtain ⟨k, hk, hfree, hslots⟩ := ha.parent
  refine ⟨ha.inv, ha.quiet, ha.parent_refs ▸ hr,
    ?_, by rw [ha.refs]; decide, ha.absent, k, ?_, hfree, hslots⟩
  · rw [ha.parent_node]
    exact ha.dir
  · rw [length_slots, Fs.length_data]
    omega

theorem LinkAdded.entered {i : ℕ} {s' : Fs} (hi : s.refs i ≠ 0) (ha : LinkAdded p i name s s') :
    Entered p name i s s' := by
  obtain ⟨k, hk, hfree, hslots⟩ := ha.parent
  refine ⟨ha.inv, ha.quiet, ha.parent_refs ▸ hr, ?_, ha.refs ▸ hi, ha.absent, k, ?_, hfree, hslots⟩
  · rw [ha.parent_node]
    exact ha.dir
  · rw [length_slots, Fs.length_data]
    omega

include h

theorem Inserted.entered {type mask : ℕ} {l : ℕ → List Dirent} {r : Option ℕ} {s' : Fs}
    (hi : Inserted p name type mask l s r s') :
    (r = none ∧ lookup (slots (s.data p)) name ≠ 0 ∧ s'.data p = s.data p) ∨
      ∃ i, r = some i ∧ Entered p name i s s' := by
  rcases hi with ⟨rfl, he⟩ | ⟨i, n, data, rfl, ha, -⟩
  · exact .inl ⟨rfl, he.found, he.back.data_eq h.inv hr⟩
  · exact .inr ⟨i, rfl, ha.entered hr⟩

/-- What an operation that returns has done to the directory. -/
theorem Naming.spec {op : Naming} (hg : op.Given s) :
    wp (op.run p name)
      (fun r s' => (r = none ∧ lookup (slots (s.data p)) name ≠ 0 ∧ s'.data p = s.data p) ∨
      ∃ i, r = some i ∧ Entered p name i s s') (fun _ _ => True) s := by
  have hroot : s.Orphan (lookup (slots (s.data p)) name) → lookup (slots (s.data p)) name ≠ 1 :=
    fun ho e => h.root (e ▸ ho.1)
  cases op with
  | creat mode =>
    exact (creat_spec h.inv h.quiet hr hroot).mono (fun _ _ hi => hi.entered h hr)
      fun _ _ _ => trivial
  | mkdir mode =>
    exact (mkdir_spec h.inv h.quiet hr hroot).mono (fun _ _ hi => hi.entered h hr)
      fun _ _ _ => trivial
  | link node =>
    rw [Naming.run, wp_bind]
    refine (link_spec h.inv h.quiet hr hg h.root).mono (fun ok s' hl => ?_) fun _ _ _ => trivial
    rw [wp_pure]
    rcases hl with ⟨rfl, ha⟩ | ⟨j, rfl, hj⟩
    · exact .inr ⟨node, rfl, ha.entered hr hg⟩
    · refine .inl ⟨rfl, ?_, hj.parent_data⟩
      rw [hj.found]
      exact hj.pos

end

end

/-! ### A zero behind the array -/

attribute [local instance] Stack.zero

end Cosiris.Cofs
