import Cosiris.Cofs.Contents
import Cosiris.Cofs.Remove
import Cosiris.Lib.Runs

/-!
# Runs of calls

The operations of `cofs.c` as calls on nodes that the caller refers to, one after the
other. Between two calls no node is locked, every node is written back and the root is
referred to. `Call.Effect` says all that a call that returns may have done.
-/

namespace Cosiris.Cofs

open Function Prog

variable [Stack]

/-- A call of an operation. Nodes are given by their inode numbers. -/
inductive Call where
  | finddir (dir : ℕ) (name : CStr)
  | creat (dir : ℕ) (name : CStr) (mode : ℕ)
  | mkdir (dir : ℕ) (name : CStr) (mode : ℕ)
  | mknod (dir : ℕ) (name : CStr) (mode dev : ℕ)
  | link (dir node : ℕ) (name : CStr)
  | unlink (dir : ℕ) (name : CStr)
  | put (node : ℕ)
  | dup (node : ℕ)
  | write (node offset : ℕ) (bytes : List UInt8)
  | truncate (node length : ℕ)

namespace Call

/-- The call, without what it returns. -/
def exec : Call → Prog Halt Fs Unit
  | finddir dir name => do let _ ← cofsFinddir dir name
  | creat dir name mode => do let _ ← cofsCreat dir name mode
  | mkdir dir name mode => do let _ ← cofsMkdir dir name mode
  | mknod dir name mode dev => do let _ ← cofsMknod dir name mode dev
  | link dir node name => do let _ ← cofsLink dir node name
  | unlink dir name => do let _ ← cofsUnlink dir name
  | put node => cofsPutNode node
  | dup node => cofsDup node
  | write node offset bytes => do let _ ← onNode node (cofsWrite offset bytes)
  | truncate node length => do let _ ← onNode node (cofsTruncate length)

/-- The nodes that the call is given. -/
def nodes : Call → List ℕ
  | finddir dir _ | creat dir _ _ | mkdir dir _ _ | mknod dir _ _ _ | unlink dir _ => [dir]
  | link dir node _ => [dir, node]
  | put node | dup node | write node _ _ | truncate node _ => [node]

/-- The caller refers to the nodes it gives. -/
def Given (s : Fs) (c : Call) : Prop := ∀ i ∈ c.nodes, s.refs i ≠ 0

/-- The call releases the file of inode `i`, if it gets that far. -/
def Drops (s : Fs) (c : Call) (i : ℕ) : Prop :=
  match c with
  | creat dir name _ | mkdir dir name _ | mknod dir name _ _ | link dir _ name =>
    i = lookup (slots (s.data dir)) name ∧ i ≠ 0 ∧ s.Orphan i
  | unlink dir name => lookup (slots (s.data dir)) name ≠ 0 ∧
      (i = lookup (slots (s.data dir)) name ∧ s.LastLink i ∨ i = dir ∧ s.Last i)
  | put node => i = node ∧ s.Last i
  | finddir _ _ | dup _ | write _ _ _ | truncate _ _ => False

/-- What the callers of `cofs_write` and `cofs_truncate` keep to: a write starts within the file
and stays within the largest size, and leaves a directory a list of entries; the new length is one
that the assertions admit, and the size is not one with which `cofs_truncate` goes wrong. -/
def Proper (s : Fs) : Call → Prop
  | write i offset bytes => offset ≤ (s.node i).size ∧ offset + bytes.length ≤ maxFileSize ∧
      ((s.node i).pack.file (overlay (s.data i) offset bytes)).DirOk s.dev.superb.numInodes
  | truncate i length => length ≤ (s.node i).size ∧ length % 512 = 0 ∧ TruncateOk (s.node i).size
  | _ => True

/-- What the call has done when it returns. -/
def Effect (s : Fs) (c : Call) (s' : Fs) : Prop :=
  match c with
  | finddir dir name =>
      s' = s ∨ ∃ i nm, lookup (slots (s.data dir)) name = i ∧ i ≠ 0 ∧ s'.file = s.file ∧
      Turn i s s' { s.core i with name := nm, refCount := s.refs i + 1, lock := false } (s.text i)
        (s.dev.inode i)
  | creat dir name mode => ∃ r, Inserted dir name 0x8000 mode (fun _ => []) s r s'
  | mkdir dir name mode =>
      ∃ r, Inserted dir name 0x4000 mode (fun i => [⟨i, dot⟩, ⟨dir, dotdot⟩]) s r s'
  | mknod dir name mode dev => ∃ r, Inserted dir name (dev &&& 0xF000) mode (fun _ => []) s r s'
  | link dir node name => LinkAdded dir node name s s' ∨ ∃ j, LinkRefused dir node j name s s'
  | unlink dir name => s' = s ∨ ∃ i, Unlinked dir name i s s'
  | put i =>
      Inv s' ∧ Rest (· = i) s s' ∧ s'.refs i = (if i = 1 ∧ s.refs i = 1 then 1 else s.refs i - 1) ∧
      s'.file i = (if s.Last i then (s.node i).remains else s.file i) ∧
      (s'.refs i ≠ 0 → s'.node i = { s.node i with refCount := s'.refs i } ∧
        s'.dev.inode i = (s'.node i).pack)
  | dup i => Turn i s s' { s.node i with refCount := s.refs i + 1 } (s.data i) (s.dev.inode i)
  | write i offset bytes => Turn i s s'
      { s.node i with addrs := (s'.node i).addrs,
                      size := max (s.node i).size (offset + bytes.length) }
      (overlay (s.data i) offset bytes) (s'.node i).pack
  | truncate i length => Turn i s s' { s.node i with addrs := (s'.node i).addrs, size := length }
      ((s.data i).take length) (s'.node i).pack

end Call

/-- **The state between two calls.** -/
structure Mounted (s : Fs) : Prop where
  inv : Inv s
  quiet : Quiet s
  root : s.refs 1 ≠ 0

/-- A call that meets the condition `P` returns. -/
def Step (P : Fs → Call → Prop) (s s' : Fs) : Prop :=
  ∃ c : Call, c.Given s ∧ P s c ∧ c.exec s = .ok () s'

theorem Step.of_returned {P : Fs → Call → Prop} {s : Fs} {c : Call} (hg : c.Given s) (hp : P s c)
    (h : (c.exec s).returned = true) :
    Step P s (c.exec s).state := ⟨c, hg, hp, Outcome.eq_ok_of_returned h⟩

section

variable {s s' : Fs} {c : Call}

theorem Mounted.not_orphan_root (h : Mounted s) : ¬ s.Orphan 1 := fun ho => h.root ho.1

theorem Turn.mounted {i : ℕ} {n : FsNode} {data : List UInt8} {ino : Inode} (h : Mounted s)
    (ht : Turn i s s' n data ino)
    (hl : n.lock = false) (hc : ino = n.pack) (hn : i = 1 → n.refCount ≠ 0) : Mounted s' where
  inv := ht.inv
  quiet := by
    refine ht.rest.quiet ht.inv h.quiet ?_
    rintro j rfl -
    rw [ht.node, ht.inode]
    exact ⟨hl, hc⟩
  root := by
    by_cases h1 : i = 1
    · subst h1
      rw [ht.refs]
      exact hn rfl
    · rw [ht.rest.refs 1 (Ne.symm h1)]
      exact h.root

theorem Inserted.mounted {p type mask : ℕ} {name : CStr} {l : ℕ → List Dirent} {r : Option ℕ}
    (h : Mounted s)
    (hi : Inserted p name type mask l s r s') : Mounted s' := by
  rcases hi with ⟨-, he⟩ | ⟨i, n, data, -, ha, -⟩
  · refine ⟨he.back.inv, he.quiet, ?_⟩
    by_cases h1 : (1 : ℕ) = lookup (slots (s.data p)) name
    · have := he.back.refs
      rw [← h1] at this
      rw [this, if_neg fun hc => h.root hc.2]
      exact h.root
    · rw [he.back.rest.refs 1 h1]
      exact h.root
  · refine ⟨ha.inv, ha.quiet, ?_⟩
    by_cases hp : (1 : ℕ) = p
    · rw [hp, ha.parent_refs, ← hp]
      exact h.root
    · by_cases hi : (1 : ℕ) = i
      · rw [hi, ha.refs]
        exact Nat.one_ne_zero
      · rw [ha.rest.refs 1 fun hc => hc.elim hp hi]
        exact h.root

theorem Call.Effect.mounted (h : Mounted s) (hg : c.Given s) (he : c.Effect s s') : Mounted s' := by
  cases c with
  | finddir p name =>
    rcases he with rfl | ⟨i, nm, -, -, -, ht⟩
    · exact h
    · exact ht.mounted h rfl (h.inv.inode_core fun hr => h.quiet.clean i (h.inv.loaded hr)) fun _ =>
        Nat.succ_ne_zero _
  | creat p name mode => exact he.elim fun r hi => hi.mounted h
  | mkdir p name mode => exact he.elim fun r hi => hi.mounted h
  | mknod p name mode dev => exact he.elim fun r hi => hi.mounted h
  | link p i name =>
    rcases he with ha | ⟨j, hr⟩
    · refine ⟨ha.inv, ha.quiet, ?_⟩
      by_cases hp : (1 : ℕ) = p
      · rw [hp, ha.parent_refs, ← hp]
        exact h.root
      · by_cases hi : (1 : ℕ) = i
        · rw [hi, ha.refs, ← hi]
          exact h.root
        · rw [ha.rest.refs 1 fun hc => hc.elim hp hi]
          exact h.root
    · refine ⟨hr.inv, hr.quiet, ?_⟩
      by_cases hp : (1 : ℕ) = p
      · rw [hp, hr.parent_refs, ← hp]
        exact h.root
      · by_cases hi : (1 : ℕ) = i
        · rw [hi, hr.refs, ← hi]
          exact h.root
        · by_cases hj : (1 : ℕ) = j
          · rw [hj, hr.other_refs, ← hj, if_neg fun hc => h.root hc.2]
            exact h.root
          · rw [hr.rest.refs 1 fun hc => hc.elim hp fun hc => hc.elim hi hj]
            exact h.root
  | unlink p name =>
    rcases he with rfl | ⟨i, hu⟩
    · exact h
    · refine ⟨hu.inv, hu.quiet, ?_⟩
      have hrp : s.refs p ≠ 0 := hg p (by simp [Call.nodes])
      by_cases hp : (1 : ℕ) = p
      · rw [hp, hu.parent_refs]
        split_ifs with hc
        · exact Nat.one_ne_zero
        · have : s.refs p ≠ 1 := fun e => hc ⟨hp.symm, e⟩
          omega
      · by_cases hi : (1 : ℕ) = i
        · rw [hi, hu.refs, ← hi, if_neg fun hc => h.root hc.2]
          exact h.root
        · rw [hu.rest.refs 1 fun hc => hc.elim hp hi]
          exact h.root
  | put i =>
    obtain ⟨hinv, hrest, hrefs, -, hnode⟩ := he
    have hri : s.refs i ≠ 0 := hg i (by simp [Call.nodes])
    refine ⟨hinv, hrest.quiet hinv h.quiet ?_, ?_⟩
    · rintro j rfl hr
      refine ⟨?_, (hnode hr).2⟩
      rw [(hnode hr).1]
      exact h.quiet.unlocked _ (Fs.mem_of_refs hri)
    · by_cases hi : (1 : ℕ) = i
      · rw [hi, hrefs]
        split_ifs with hc
        · exact Nat.one_ne_zero
        · have : s.refs i ≠ 1 := fun e => hc ⟨hi.symm, e⟩
          omega
      · rw [hrest.refs 1 hi]
        exact h.root
  | dup i =>
    have hri : s.refs i ≠ 0 := hg i (by simp [Call.nodes])
    exact he.mounted h (h.quiet.unlocked _ (Fs.mem_of_refs hri))
      (h.quiet.clean i (h.inv.loaded hri))
      fun _ => Nat.succ_ne_zero _
  | write i offset bytes =>
    have hri : s.refs i ≠ 0 := hg i (by simp [Call.nodes])
    exact he.mounted h (h.quiet.unlocked _ (Fs.mem_of_refs hri)) (by rw [← he.node]) fun _ =>
      Inv.refCount hri
  | truncate i length =>
    have hri : s.refs i ≠ 0 := hg i (by simp [Call.nodes])
    exact he.mounted h (h.quiet.unlocked _ (Fs.mem_of_refs hri)) (by rw [← he.node]) fun _ =>
      Inv.refCount hri

theorem dup_spec {i : ℕ} (h : Inv s) (hr : s.refs i ≠ 0) :
    wp (cofsDup i)
      (fun _ s' =>
        Turn i s s' { s.node i with refCount := s.refs i + 1 } (s.data i) (s.dev.inode i))
      (fun _ _ => False) s := by
  have hs : ∀ s : Fs, s.cacheLock = false → ({ s with cacheLock := false } : Fs) = s := by
    intro s hs
    rw [← hs]
  have ht := h.touch (f := fun n => { n with refCount := n.refCount + 1 }) hr rfl rfl rfl rfl rfl
    (Nat.succ_ne_zero _)
  rw [← hs _ (show (s.setNode i fun n => { n with refCount := n.refCount + 1 }).cacheLock =
    false from h.cacheLock)] at ht
  simp only [cofsDup, lockCache, unlockCache, wp_bind, wp_read, h.cacheLock, Bool.false_eq_true,
    if_false, wp_ite, wp_modify, wp_modifyNode]
  rw [Fs.refs_of_mem (Fs.mem_of_refs hr)]
  exact ht

/-- **What a call does**: it returns with its effect, or it halts, and then all that it has freed
was in use unless it releases a file of a size with which that goes wrong. -/
theorem Call.exec_spec (h : Mounted s) (hg : c.Given s) (hroot : ¬ c.Drops s 1) (hp : c.Proper s) :
    wp c.exec (fun _ s' => c.Effect s s') (fun _ s' => (∀ p i name, c ≠ .link p i name) →
      Logged s.dev s'.dev ∨
      ∃ i, c.Drops s i ∧ ¬ TruncateOk (s.core i).size) s := by
  have horphan : ∀ {i : ℕ}, s.Orphan i → i ≠ 1 := by
    rintro i ho rfl
    exact h.not_orphan_root ho
  have hins : ∀ p name, lookup (slots (s.data p)) name ≠ 0 ∧
    s.Orphan (lookup (slots (s.data p)) name) ∧
      ¬ TruncateOk (s.core (lookup (slots (s.data p)) name)).size →
        ∃ i, (i = lookup (slots (s.data p)) name ∧ i ≠ 0 ∧
        s.Orphan i) ∧ ¬ TruncateOk (s.core i).size :=
    fun p name ⟨h0, ho, hsize⟩ => ⟨_, ⟨rfl, h0, ho⟩, hsize⟩
  cases c with
  | finddir p name =>
    have hrp : s.refs p ≠ 0 := hg p (by simp [Call.nodes])
    refine wp_bind _ _ _ ▸ finddir_spec h.inv hrp (fun e s' _ hd _ _ => .inl ?_)
      (fun _ _ => .inl rfl)
      fun i _ hl h0 _ _ s' hf nm _ _ ht => .inr ⟨i, nm, hl, h0, hf, ht⟩
    rw [hd]
    exact Logged.refl _
  | creat p name mode =>
    have hrp : s.refs p ≠ 0 := hg p (by simp [Call.nodes])
    exact wp_bind _ _ _ ▸ (creat_spec h.inv h.quiet hrp horphan).mono
      (fun r s' hi => ⟨r, hi⟩) fun e s' he _ => he.1.2.imp_right (hins p name)
  | mkdir p name mode =>
    have hrp : s.refs p ≠ 0 := hg p (by simp [Call.nodes])
    exact wp_bind _ _ _ ▸ (mkdir_spec h.inv h.quiet hrp horphan).mono
      (fun r s' hi => ⟨r, hi⟩) fun e s' he _ => he.1.2.imp_right (hins p name)
  | mknod p name mode dev =>
    have hrp : s.refs p ≠ 0 := hg p (by simp [Call.nodes])
    exact wp_bind _ _ _ ▸ (mknod_spec h.inv h.quiet hrp horphan).mono
      (fun r s' hi => ⟨r, hi⟩) fun e s' he _ => he.1.2.imp_right (hins p name)
  | link p i name =>
    have hrp : s.refs p ≠ 0 := hg p (by simp [Call.nodes])
    have hri : s.refs i ≠ 0 := hg i (by simp [Call.nodes])
    refine wp_bind _ _ _ ▸ (link_spec h.inv h.quiet hrp hri h.root).mono (fun r s' hl => ?_)
      fun e s' he hc => absurd rfl (hc p i name)
    exact hl.imp And.right fun ⟨j, hj⟩ => ⟨j, hj.2⟩
  | unlink p name =>
    have hrp : s.refs p ≠ 0 := hg p (by simp [Call.nodes])
    refine wp_bind _ _ _ ▸ (unlink_spec h.inv h.quiet hrp h.root fun h0 hl h1 =>
      hroot ⟨h0, .inr ⟨h1.symm, h1 ▸ hl⟩⟩).mono
      (fun r s' hu => ?_) fun e s' he _ => he.2.imp_right ?_
    · exact hu.imp (fun hn => hn.2.2) fun ⟨i, hi⟩ => ⟨i, hi.2⟩
    · rintro ⟨h0, ⟨hl, hsize⟩ | ⟨hl, hsize⟩⟩
      · exact ⟨_, ⟨h0, .inl ⟨rfl, hl⟩⟩, hsize⟩
      · exact ⟨p, ⟨h0, .inr ⟨rfl, hl⟩⟩, by rwa [Fs.core_of_refs h.inv hrp]⟩
  | put i =>
    have hri : s.refs i ≠ 0 := hg i (by simp [Call.nodes])
    refine (put_spec h.inv hri (h.quiet.unlocked i (Fs.mem_of_refs hri))
      (h.quiet.clean i (h.inv.loaded hri))
      fun hl h1 => hroot ⟨h1.symm, h1 ▸ hl⟩).mono (fun _ s' hp => ?_) fun e s' he _ =>
        .inr ⟨i, ⟨rfl, he.2.1⟩, ?_⟩
    · obtain ⟨hinv, hrest, -, hrefs, hfile, hnode⟩ := hp
      exact ⟨hinv, hrest, hrefs, hfile, hnode⟩
    · rw [Fs.core_of_refs h.inv hri]
      exact he.2.2
  | dup i =>
    have hri : s.refs i ≠ 0 := hg i (by simp [Call.nodes])
    exact (dup_spec h.inv hri).mono (fun _ _ ht => ht) fun _ _ he => he.elim
  | write i offset bytes =>
    have hri : s.refs i ≠ 0 := hg i (by simp [Call.nodes])
    obtain ⟨ho, hb, hd⟩ := hp
    refine wp_bind _ _ _ ▸ (write_spec h.inv hri ho hb hd).mono (fun n s' hw => ?_) fun e s' he _ =>
      .inl he.2.1
    obtain ⟨-, ht, hc⟩ := hw
    exact ⟨ht.inv, ht.rest, ht.mem, ht.node, ht.data,
      hc (.inr (h.quiet.clean i (h.inv.loaded hri)))⟩
  | truncate i length =>
    have hri : s.refs i ≠ 0 := hg i (by simp [Call.nodes])
    obtain ⟨hle, hmod, hok⟩ := hp
    exact wp_bind _ _ _ ▸ (truncate_spec h.inv hri hle hmod hok).mono
      (fun n s' ht => ht.2) fun _ _ he => he.elim

end

/-! ### A small partition -/

/-- The small partition with an empty root directory is consistent. -/
theorem tiny_mounted : Mounted (tiny (emptyNode 0x4000)) := by
  have ht : 0x4000 &&& 0xF000 = 0x4000 := by decide
  have h0 : (0x4000 : ℕ) ≠ 0 := by decide
  have hload := tiny_loaded_iff h0
  have halloc := tiny_allocated_iff ht h0
  have hfits := emptyNode_fits ht
  have hcache : ∀ {j}, j ∈ (tiny (emptyNode 0x4000)).cache → j = 1 := fun {j} hj =>
    List.mem_singleton.mp hj
  have hc := tiny_consistent ht h0
  have href : ∀ o, refAt (tiny (emptyNode 0x4000)).dev (tiny (emptyNode 0x4000)).table o =
    0 := fun o => by
    unfold refAt
    rw [tiny_table ht h0, addrAt_zero]
  have hdata : (tiny (emptyNode 0x4000)).dev.superb.dataStart = 5 := by
    rw [tiny_superb]
    decide
  have hbits : (tiny (emptyNode 0x4000)).dev.superb.numBits = 4096 := by
    rw [tiny_superb]
    decide
  have hclean : (tiny (emptyNode 0x4000)).dev.inode 1 = (emptyNode 0x4000).pack := tiny_inode_one _
  refine ⟨⟨⟨hc.layout, fun {o o'} ho => absurd (href o) ho,
    fun {o} ho => absurd (href o) ho, fun b =>
    ?_⟩, rfl, rfl, rfl, List.nodup_singleton 1, by decide, fun j => ⟨?_, ?_, ?_, ?_, ?_, ?_, ?_⟩⟩,
      ⟨?_, ?_⟩, Nat.one_ne_zero⟩
  · rw [hdata, hbits]
    constructor
    · rintro ⟨hb, hu⟩
      rw [tiny_used _ hb] at hu
      exact .inl (.inl (of_decide_eq_true hu))
    · rintro ((hb | hb) | ⟨hb, o, ho⟩)
      · have hlt : b < 4096 := by omega
        refine ⟨hlt, ?_⟩
        rw [tiny_used _ hlt]
        exact decide_eq_true hb
      · exact hb.elim
      · exact absurd (ho ▸ href o) hb
  · intro hj
    obtain rfl := hcache hj
    exact ⟨rfl, Nat.one_pos, hc.layout.root⟩
  · intro _
    exact hfits
  · intro _ _
    exact h0
  · intro _ _
    rfl
  · intro hl _
    obtain rfl := (hload j).mp hl
    exact hclean
  · intro ha
    obtain rfl := (halloc j).mp ha
    rw [tiny_record_one h0, hfits.pack_addrs, hfits.pack_size]
    exact ⟨Nat.zero_le _, fun p _ _ hp => absurd (addrAt_zero _ p) hp, fun f _ =>
      ⟨fun hf => absurd (addrAt_zero _ _) hf, fun hf => absurd hf (Nat.not_lt_zero _)⟩⟩
  · intro f hf
    by_cases ha : (tiny (emptyNode 0x4000)).Allocated j
    · obtain rfl := (halloc j).mp ha
      rw [Fs.file_of_allocated ha, tiny_record_one h0, hfits.pack_size] at hf
      exact Option.some.inj hf ▸ File.dirOk_nil _ _
    · rw [Fs.file_eq_none.mpr ha] at hf
      cases hf
  · intro j hj
    rfl
  · intro j hl
    obtain rfl := (hload j).mp hl
    exact hclean

/-- The name `"a"`. -/
def nameA : CStr := ⟨[97], by decide⟩

end Cosiris.Cofs
