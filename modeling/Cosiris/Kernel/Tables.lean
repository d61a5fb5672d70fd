import Cosiris.Kernel.Records

/-!
# Descriptor tables as maps

The descriptors of a task as a map to nodes. A call that opens a descriptor puts a node under the
first descriptor that is free, and `sys_close` takes one out; `fork_int` copies the map. Whatever a
task does, the maps of the other tasks stay as they are (`Local`). -/

namespace Cosiris.Descriptors

open Function Prog

/-- The node that task `k` has under a descriptor. -/
def State.nodeAt (s : State) (k i : ℕ) : Option ℕ := (s.slotAt k i).map fun f => (s.file f).fsNode

/-- How many descriptors of task `k` are open. -/
def State.openAt (s : State) (k : ℕ) : ℕ := ((s.files k).map openFiles).getD 0

/-- `num_files` of task `k`. -/
def State.sizeAt (s : State) (k : ℕ) : ℕ := ((s.files k).map List.length).getD 0

/-- The first free descriptor of a map. -/
structure FirstFree (t : ℕ → Option ℕ) (i : ℕ) : Prop where
  free : t i = none
  first : ∀ j < i, t j ≠ none

/-- What a task may do to the descriptors: those of the other tasks stay as they are. -/
structure Local (k : ℕ) (s s' : State) : Prop where
  tidy : s'.Tidy
  records : s.nextFile ≤ s'.nextFile
  tasks : s.nextTask ≤ s'.nextTask
  files : ∀ j, j ≠ k → j < s.nextTask → s'.files j = s.files j
  node : ∀ f, f < s.nextFile → (s'.file f).fsNode = (s.file f).fsNode

/-- Node `m` was put under the first free descriptor. -/
structure Put (k i m : ℕ) (s s' : State) : Prop extends Local k s s' where
  first : FirstFree (s.nodeAt k) i
  map : s'.nodeAt k = update (s.nodeAt k) i (some m)
  count : s'.openAt k = s.openAt k + 1
  size : i < s'.sizeAt k ∧ s.sizeAt k ≤ s'.sizeAt k

/-- Descriptor `i` was closed. -/
structure Taken (k i : ℕ) (s s' : State) : Prop extends Local k s s' where
  map : s'.nodeAt k = update (s.nodeAt k) i none
  count : s'.openAt k + (if s.nodeAt k i = none then 0 else 1) = s.openAt k
  size : s'.sizeAt k = s.sizeAt k

/-- Nothing was opened. -/
structure Same (k : ℕ) (s s' : State) : Prop extends Local k s s' where
  map : s'.nodeAt k = s.nodeAt k
  count : s'.openAt k = s.openAt k
  size : s.sizeAt k ≤ s'.sizeAt k

/-- Task `c` was made, with the descriptors of task `k`. -/
structure Forked (k c : ℕ) (s s' : State) : Prop extends Local c s s' where
  fresh : s.nextTask ≤ c
  task : c < s'.nextTask
  map : s'.nodeAt c = s.nodeAt k
  count : s'.openAt c = s.openAt k
  size : s'.sizeAt c = s.sizeAt k

/-- `sys_pipe`, with what it stores in `filedes`. -/
def sysPipeFds (k rd wr : ℕ) : Kern (ℤ × ℤ) := do
  let fin ← fileAlloc
  let fout ← fileAlloc
  updateFile fin fun file => { file with flags := 0, fsNode := rd }
  updateFile fout fun file => { file with flags := 1, fsNode := wr }
  let _ ← fdAllocFor k
  let i ← fdAllocFor k
  writeSlot k i (some fin)
  let o ← fdAllocFor k
  writeSlot k o (some fout)
  return (i, o)

theorem sysPipe_eq (k rd wr : ℕ) : sysPipe k rd wr = (do
    let _ ← sysPipeFds k rd wr
    return 0) := by
  simp only [sysPipe, sysPipeFds, bind_assoc, pure_bind]

section

variable {s s' t : State} {k j f i m n : ℕ} {files files₁ : List (Option ℕ)}
    {E : Halt → State → Prop}

theorem FirstFree.unique {t : ℕ → Option ℕ} (h : FirstFree t i) (h' : FirstFree t j) : i = j := by
  rcases Nat.lt_trichotomy i j with hij | hij | hij
  · exact absurd h.free (h'.first i hij)
  · exact hij
  · exact absurd h'.free (h.first j hij)

/-! ### The other tasks -/

theorem Change.toLocal (hc : Change k s s') (h : s.Tidy) : Local k s s' := by
  refine ⟨hc.tidy h, hc.renewed.next, ?_, fun j hj _ => ?_, fun f hf => ?_⟩
  · cases hc <;> exact le_rfl
  · cases hc <;> first | rfl | exact update_of_ne hj _ _
  · cases hc with
    | leave hk hi hdup =>
      rename_i g
      show (update s.file g _ f).fsNode = _
      rw [update_apply]
      split_ifs with hfg
      · rw [hfg]
      · rfl
    | seek g offs =>
      show (update s.file g _ f).fsNode = _
      rw [update_apply]
      split_ifs with hfg
      · rw [hfg]
      · rfl
    | install i file hk hi hnode hdup => exact congrArg File.fsNode (update_of_ne hf.ne _ _)
    | waste file => exact congrArg File.fsNode (update_of_ne hf.ne _ _)
    | _ => rfl

theorem Local.refl (h : s.Tidy) : Local k s s :=
    ⟨h, le_rfl, le_rfl, fun _ _ _ => rfl, fun _ _ => rfl⟩

theorem Local.trans (h : Local k s t) (h' : Local k t s') : Local k s s' where
  tidy := h'.tidy
  records := h.records.trans h'.records
  tasks := h.tasks.trans h'.tasks
  files j hj hlt := (h'.files j hj (hlt.trans_le h.tasks)).trans (h.files j hj hlt)
  node f hf := (h'.node f (hf.trans_le h.records)).trans (h.node f hf)

theorem Changes.toLocal (hc : Changes k s s') (h : s.Tidy) : Local k s s' := by
  induction hc with
  | refl => exact .refl h
  | tail _ hstep ih => exact ih.trans (hstep.toLocal ih.tidy)

/-- A task is gone. -/
theorem Local.remove (h : s.Tidy) : Local k s (s.remove k) :=
  ⟨h.remove, le_rfl, le_rfl, fun _ hj _ => update_of_ne hj _ _, fun _ _ => rfl⟩

theorem nodeAt_of (hk : s.files k = some files) :
    s.nodeAt k i = files[i]?.join.map fun f => (s.file f).fsNode := by
  rw [State.nodeAt, State.slotAt_of hk]

theorem openAt_of (hk : s.files k = some files) : s.openAt k = openFiles files := by
  rw [State.openAt, hk]
  rfl

theorem sizeAt_of (hk : s.files k = some files) : s.sizeAt k = files.length := by
  rw [State.sizeAt, hk]
  rfl

/-- **The other tasks are left alone.** -/
theorem Local.other (h : Local k s s') (ht : s.Tidy) (hj : j ≠ k) (hlt : j < s.nextTask) :
    s'.nodeAt j = s.nodeAt j ∧ s'.openAt j = s.openAt j ∧ s'.sizeAt j = s.sizeAt j := by
  have hfiles := h.files j hj hlt
  refine ⟨funext fun i => ?_, by rw [State.openAt, State.openAt, hfiles],
    by rw [State.sizeAt, State.sizeAt, hfiles]⟩
  have hslot : s'.slotAt j i = s.slotAt j i := by rw [State.slotAt, State.slotAt, hfiles]
  rw [State.nodeAt, State.nodeAt, hslot]
  cases hf : s.slotAt j i with
  | none => rfl
  | some f => exact congrArg some (h.node f (ht.slot_lt hf))

/-! ### The calls -/

/-- `fd_alloc` returns the first free descriptor. -/
theorem Allocated.firstFree (hi : Allocated files i n files₁) (hk : s.files k = some files) :
    FirstFree (s.nodeAt k) i := by
  refine ⟨?_, fun j hj hnone => ?_⟩
  · have hfree := hi.free
    rw [nodeAt_of hk]
    rcases Nat.lt_or_ge i files.length with hlt | hge
    · rw [hi.eq, List.getElem?_append_left hlt] at hfree
      rw [hfree]
      rfl
    · rw [List.getElem?_eq_none hge]
      rfl
  · have hfd := hi.fd
    unfold fdAlloc at hfd
    dsimp only at hfd
    have hle : i ≤ files.findIdx (·.isNone) := by
      split_ifs at hfd <;> exact (Option.some.inj hfd).ge
    have hfirst := lt_of_lt_of_le hj hle
    have hlt : j < files.length := hfirst.trans_le List.findIdx_le_length
    have hsome := List.not_of_lt_findIdx hfirst
    rw [nodeAt_of hk, List.getElem?_eq_getElem hlt] at hnone
    cases ho : files[j] with
    | none =>
      rw [ho] at hsome
      cases hsome
    | some f =>
      rw [ho] at hnone
      cases hnone

/-- The nodes of the records that were there. -/
theorem Local.node_of (h : Local k s s') (ht : s.Tidy) (hk : s.files k = some files) :
    (files[j]?.join.map fun f => (s'.file f).fsNode) = s.nodeAt k j := by
  rw [nodeAt_of hk]
  cases hf : files[j]?.join with
  | none => rfl
  | some f =>
    exact congrArg some (h.node f ((ht.array k files hk).old f
      (List.mem_of_getElem? (Option.join_eq_some_iff.mp hf))))

/-- A record is put into the slot that `fd_alloc` returns. -/
theorem Local.put (h : Local k s s') (ht : s.Tidy) (hk : s.files k = some files)
    (hi : Allocated files i n files₁) (hk' : s'.files k = some (files₁.set i (some f)))
    (hm : (s'.file f).fsNode = m) : Put k i m s s' := by
  have hlt := lt_of_getElem? hi.free
  refine ⟨h, hi.firstFree hk, funext fun j => ?_, ?_, ?_⟩
  · rw [nodeAt_of hk']
    by_cases hj : j = i
    · subst hj
      rw [List.getElem?_set_self hlt, update_self, ← hm]
      rfl
    · rw [List.getElem?_set_ne (Ne.symm hj), update_of_ne hj, ← h.node_of ht hk, hi.eq]
      rcases Nat.lt_or_ge j files.length with hjl | hjl
      · rw [List.getElem?_append_left hjl]
      · rw [List.getElem?_append_right hjl, List.getElem?_eq_none hjl, List.getElem?_replicate]
        split <;> rfl
  · rw [openAt_of hk', openAt_of hk, openFiles_set hi.free, hi.openFiles]
  · rw [sizeAt_of hk', sizeAt_of hk, List.length_set]
    exact ⟨hlt, hi.length ▸ Nat.le_add_right _ _⟩

/-- An open slot is emptied. -/
theorem Local.taken (h : Local k s s') (ht : s.Tidy) (hk : s.files k = some files)
    (hf : files[i]? = some (some f))
    (hk' : s'.files k = some (files.set i none)) : Taken k i s s' := by
  obtain ⟨hi, ho⟩ := List.getElem?_eq_some_iff.mp hf
  have hsome : s.nodeAt k i ≠ none := by
    rw [nodeAt_of hk, hf]
    exact Option.some_ne_none _
  refine ⟨h, funext fun j => ?_, ?_, ?_⟩
  · rw [nodeAt_of hk', update_apply]
    split_ifs with hj
    · subst hj
      rw [List.getElem?_set_self hi]
      rfl
    · rw [List.getElem?_set_ne (Ne.symm hj), h.node_of ht hk]
  · rw [if_neg hsome, openAt_of hk', openAt_of hk, openFiles, openFiles, List.countP_set hi, ho]
    have hpos : 0 < files.countP (·.isSome) :=
      List.countP_pos_iff.mpr ⟨some f, List.mem_of_getElem? hf, rfl⟩
    simp only [Option.isSome_some, if_true, Option.isSome_none, Bool.false_eq_true, if_false]
    omega
  · rw [sizeAt_of hk', sizeAt_of hk, List.length_set]

/-- The array has grown. -/
theorem Local.same (h : Local k s s') (ht : s.Tidy) (hk : s.files k = some files)
    (hi : Allocated files i n files₁) (hk' : s'.files k = some files₁) : Same k s s' := by
  refine ⟨h, funext fun j => ?_, ?_, ?_⟩
  · rw [nodeAt_of hk', ← h.node_of ht hk, hi.eq]
    rcases Nat.lt_or_ge j files.length with hjl | hjl
    · rw [List.getElem?_append_left hjl]
    · rw [List.getElem?_append_right hjl, List.getElem?_eq_none hjl, List.getElem?_replicate]
      split <;> rfl
  · rw [openAt_of hk', openAt_of hk, hi.openFiles]
  · rw [sizeAt_of hk', sizeAt_of hk]
    exact hi.length ▸ Nat.le_add_right _ _

theorem node_install {file : File} :
    ((s.withFile s.nextFile file).file s.nextFile).fsNode = file.fsNode := by
  rw [State.withFile_file, if_pos rfl]

/-- A new record is put into the slot that `fd_alloc` returns. -/
theorem Allocated.install {g : File} (hi : Allocated files i n files₁) (h : s.Tidy)
    (hk : s.files k = some files) (hnode : g.fsNode ≠ 0) (hdup : g.dupCnt = 0) :
    Put k i g.fsNode s { ((((s.withFiles k files₁).record (.alloc (some i) (some none))).record
      (.slot i files₁.length)).withFile s.nextFile g).withFiles k
        (files₁.set i (some s.nextFile)) with nextFile := s.nextFile + 1 } := by
  have hgood : (Access.slot i files₁.length).Good :=
    ⟨Int.natCast_nonneg i, Int.ofNat_lt.mpr (lt_of_getElem? hi.free)⟩
  have hc := ((hi.changes hk).note hgood).tail
    (.install i g State.withFiles_self_files hi.free hnode hdup)
  exact (Changes.toLocal hc h).put h hk hi State.withFiles_self_files node_install

theorem exists_files (hk : s.files k ≠ none) : ∃ files, s.files k = some files :=
  Option.ne_none_iff_exists'.mp hk

/-- **`sys_open`** fails, or puts the node under the first free descriptor. -/
theorem sysOpen_spec {found : Namei} {flags mode : ℕ} (h : s.Tidy) (hk : s.files k ≠ none)
    (hroom : s.openAt k < maxOpenFiles) :
    wp (sysOpen k found flags mode) (fun fd s' =>
      if found.ret < 0 ∨ found.node = 0 then fd = -1 ∧ Same k s s'
      else ∃ i : ℕ, fd = i ∧ Put k i found.node s s') E s := by
  obtain ⟨files, hk⟩ := exists_files hk
  have ha := h.array k files hk
  rw [openAt_of hk] at hroom
  obtain ⟨i, n, files₁, hi⟩ := fdAlloc_spec ha.pos ha.len hroom
  have hs₁ := hi.changes hk
  have hfree := hi.free
  have hlt := lt_of_getElem? hfree
  have hgood : (Access.slot i files₁.length).Good := ⟨by omega, by omega⟩
  rw [sysOpen, wp_bind, wp_fdAllocFor hk hi]
  have hk₁ : ((s.withFiles k files₁).record (.alloc (some i) (some none))).files k = some files₁ :=
    State.withFiles_self_files
  generalize (s.withFiles k files₁).record (.alloc (some i) (some none)) = s₁ at *
  have hneg : ¬ (i : ℤ) < 0 := by omega
  simp only [if_neg hneg]
  rw [wp_newFile]
  simp only [updateFile, freeFile, wp_bind, wp_read, wp_modify, wp_pure, wp_ite, State.alloc_file]
  split_ifs with hbad
  · refine (wp_writeSlot (by exact hk₁) (by omega) (by simpa using hlt)).mpr ?_
    rw [Int.toNat_natCast, set_none hfree, State.withFiles_self (by exact hk₁)]
    have hc := Changes.note (hs₁.tail (.waste { File.zero with fsNode := found.node })) hgood
    exact ⟨trivial, (hc.toLocal h).same h hk hi hk₁⟩
  · rw [State.alloc_withFile]
    refine (wp_writeSlot (by exact hk₁) (by omega) (by simpa using hlt)).mpr ?_
    rw [Int.toNat_natCast]
    refine ⟨i, rfl,
      Local.put (Changes.toLocal ((hs₁.note hgood).tail (.install i _ hk₁ hfree ?_ ?_)) h)
      h hk hi State.withFiles_self_files node_install⟩
    · exact fun h0 => hbad (.inr h0)
    · rfl

/-- **`sys_dup`** puts the node of an open descriptor under the first free one. -/
theorem sysDup_spec (h : s.Tidy) (hj : s.nodeAt k j = some m) (hroom : s.openAt k < maxOpenFiles) :
    wp (sysDup k j) (fun fd s' => ∃ i : ℕ, fd = i ∧ Put k i m s s') E s := by
  obtain ⟨f, hslot, hm⟩ := Option.map_eq_some_iff.mp hj
  obtain ⟨files, hk, hf⟩ := Option.bind_eq_some_iff.mp hslot
  rw [Option.join_eq_some_iff] at hf
  have ha := h.array k files hk
  rw [openAt_of hk] at hroom
  have hvalid : dupValid files j = true := by
    refine List.any_eq_true.mpr ⟨j, List.mem_range.mpr (lt_of_getElem? hf), ?_⟩
    rw [List.getD_eq_getElem?_getD, hf]
    simp
  obtain ⟨i, n, files₁, hi⟩ := fdAlloc_spec ha.pos ha.len hroom
  have hs₁ := hi.changes hk
  have hfree := hi.free
  have hf₁ : files₁[j]? = some (some f) := by
    rw [hi.eq, List.getElem?_append_left (lt_of_getElem? hf), hf]
  have hlt := lt_of_getElem? hfree
  have hltj := lt_of_getElem? hf₁
  have hgood : (Access.slot i files₁.length).Good := ⟨by omega, by omega⟩
  have hgoodj : (Access.slot j files₁.length).Good := ⟨by omega, by omega⟩
  have hold := ha.old f (List.mem_of_getElem? hf)
  rw [sysDup, wp_bind, wp_filesOf hk, wp_ite, if_neg (by simp [hvalid]), wp_bind,
    wp_fdAllocFor hk hi]
  have hk₁ : ((s.withFiles k files₁).record (.alloc (some i) (some none))).files k = some files₁ :=
    State.withFiles_self_files
  generalize (s.withFiles k files₁).record (.alloc (some i) (some none)) = s₁ at *
  have hneg : ¬ (i : ℤ) < 0 := by omega
  rw [wp_ite, if_neg hneg, wp_bind, wp_readSlot hk₁ (by omega) (by simpa using hf₁), wp_bind]
  refine (wp_writeSlot (by exact hk₁) (by omega) (by simpa using hlt)).mpr ?_
  rw [Int.toNat_natCast, wp_bind]
  refine (wp_slotFile (f := f) State.withFiles_self_files (by omega) ?_).mpr ?_
  · rw [Int.toNat_natCast, List.getElem?_set_self hlt]
  rw [List.length_set]
  -- up to here only accesses were recorded; now the record is shared
  have hc := (((hs₁.note hgoodj).note hgood).note hgood).toLocal h
  have hshare := hc.tidy.share (i := i) hk₁ (List.mem_of_getElem? hf₁)
  refine ⟨i, rfl,
    Local.put ⟨hshare, hc.records, hc.tasks, fun l hl hlt => ?_, fun g hg => ?_⟩ h hk hi
    State.withFiles_self_files ?_⟩
  · exact (update_of_ne hl _ _).trans (hc.files l hl hlt)
  · refine Eq.trans ?_ (hc.node g hg)
    show (State.file (State.withFile _ f _) g).fsNode = _
    rw [State.withFile_file]
    split_ifs with hgf
    · rw [hgf]
      rfl
    · rfl
  · show (State.file (State.withFile _ f _) f).fsNode = _
    rw [State.withFile_file, if_pos rfl]
    exact (hc.node f hold).trans hm

theorem wp_fdIsValid {Q : Bool → State → Prop} {o : Option ℕ} (hk : s.files k = some files)
    (hi : files[i]? = some o) :
    wp (fdIsValid k i) Q E s = Q o.isSome (s.record (.slot i files.length)) := by
  have hlt := lt_of_getElem? hi
  rw [fdIsValid, wp_bind, wp_filesOf hk, wp_ite, if_neg (by omega), wp_ite,
    if_neg (by omega), wp_bind,
    wp_readSlot hk (by omega) (by simpa using hi), wp_pure]

/-- **`sys_close`** of a descriptor inside the array, open or not. -/
theorem sysClose_spec (h : s.Tidy) (hi : i < s.sizeAt k) :
    wp (sysClose k i) (fun _ s' => Taken k i s s') E s := by
  cases hk : s.files k with
  | none =>
    rw [State.sizeAt, hk] at hi
    exact absurd hi (Nat.not_lt_zero _)
  | some files =>
  rw [sizeAt_of hk] at hi
  have ha := h.array k files hk
  have hgood : (Access.slot i files.length).Good := ⟨by omega, by omega⟩
  have hfi := List.getElem?_eq_getElem hi
  rw [sysClose, wp_bind, wp_fdIsValid hk hfi]
  cases ho : files[i] with
  | none =>
    rw [ho] at hfi
    have hnone : s.nodeAt k i = none := by
      rw [nodeAt_of hk, hfi]
      rfl
    refine ⟨(Changes.note .refl hgood).toLocal h, ?_, ?_, rfl⟩
    · rw [← hnone, update_eq_self]
      rfl
    · rw [if_pos hnone]
      rfl
  | some f =>
    rw [ho] at hfi
    have hdup := ha.dup f (List.mem_of_getElem? hfi)
    have hc : Changes k s ((s.record (.slot i files.length)).record (.slot i files.length)) :=
      (Changes.note .refl hgood).note hgood
    simp only [Option.isSome_some, Bool.not_true, Bool.false_eq_true, if_false, wp_bind]
    rw [wp_slotFile (s := s.record _) hk (by omega) (by simpa using hfi)]
    simp only [wp_read, wp_bind, wp_ite, freeFile, updateFile, wp_modify, wp_pure]
    split_ifs with hneg hlast
    · exact absurd hneg (not_lt.mpr hdup)
    · refine (wp_writeSlot (by exact hk) (by omega) (by simpa using hi)).mpr ?_
      rw [Int.toNat_natCast]
      exact Local.taken (Changes.toLocal ((hc.note hgood).tail (.last hk hfi hlast)) h) h hk hfi
        State.withFiles_self_files
    · refine (wp_writeSlot (by exact hk) (by omega) (by simpa using hi)).mpr ?_
      rw [Int.toNat_natCast]
      exact Local.taken (Changes.toLocal ((hc.note hgood).tail (.leave hk hfi hlast)) h) h hk hfi
        State.withFiles_self_files

theorem Same.put (h : Same k s t) (h' : Put k i m t s') : Put k i m s s' where
  toLocal := h.toLocal.trans h'.toLocal
  first := h.map ▸ h'.first
  map := h.map ▸ h'.map
  count := h.count ▸ h'.count
  size := ⟨h'.size.1, h.size.trans h'.size.2⟩

/-- **`sys_pipe`** puts the two nodes under the first two free descriptors. -/
theorem sysPipeFds_spec {rd wr : ℕ} (h : s.Tidy) (hk : s.files k ≠ none)
    (hroom : s.openAt k + 2 ≤ maxOpenFiles) (hrd : rd ≠ 0) (hwr : wr ≠ 0) :
    wp (sysPipeFds k rd wr) (fun p s' => ∃ (i o : ℕ) (t : State), p = (↑i, ↑o) ∧ Put k i rd s t ∧
      Put k o wr t s') E s := by
  obtain ⟨files, hk⟩ := exists_files hk
  have ha := h.array k files hk
  have hpos := ha.pos
  rw [openAt_of hk] at hroom
  -- the first index is not used
  obtain ⟨i₀, n₀, files₀, h₀⟩ := fdAlloc_spec hpos ha.len (show _ ≤ _ by omega)
  have hlen₀ := h₀.length
  have hopen₀ := h₀.openFiles
  obtain ⟨i, n₁, files₁, h₁⟩ :=
    fdAlloc_spec (show 0 < files₀.length by omega) (by rw [hlen₀]; exact h₀.len)
    (show _ ≤ _ by omega)
  have hlen₁ := h₁.length
  have hopen₁ := h₁.openFiles
  have hlt := lt_of_getElem? h₁.free
  obtain ⟨o, n₂, files₂, h₂⟩ :=
    fdAlloc_spec (show 0 < (files₁.set i (some s.nextFile)).length by rw [List.length_set]; omega)
    (by rw [List.length_set, hlen₁]; exact h₁.len)
    (by unfold Room; rw [openFiles_set h₁.free]; omega)
  have hlt₂ := lt_of_getElem? h₂.free
  have hi : (i : ℤ).toNat < files₁.length := by simpa using hlt
  have ho : (o : ℤ).toNat < files₂.length := by simpa using hlt₂
  rw [sysPipeFds, wp_newFiles, wp_bind]
  refine (wp_fdAllocFor (by exact hk) h₀).mpr ?_
  rw [wp_bind]
  refine (wp_fdAllocFor (by exact State.withFiles_self_files) h₁).mpr ?_
  rw [wp_bind]
  refine (wp_writeSlot (by exact State.withFiles_self_files) (by omega) hi).mpr ?_
  rw [Int.toNat_natCast, wp_bind]
  refine (wp_fdAllocFor (by exact State.withFiles_self_files) h₂).mpr ?_
  rw [wp_bind]
  refine (wp_writeSlot (by exact State.withFiles_self_files) (by omega) ho).mpr ?_
  rw [Int.toNat_natCast, wp_pure]
  have hc₀ := (h₀.changes hk).toLocal h
  have hput := (hc₀.same h hk h₀ State.withFiles_self_files).put
    (h₁.install (g := { File.zero with flags := 0, fsNode := rd }) hc₀.tidy
      State.withFiles_self_files hrd rfl)
  exact ⟨i, o, _, rfl, hput, h₂.install (g := { File.zero with flags := 1, fsNode := wr }) hput.tidy
    State.withFiles_self_files hwr rfl⟩

theorem Copies.openFiles {copies : List (Option ℕ)} (hc : Copies s t files copies) :
    openFiles copies = openFiles files := by
  have hmap : copies.map (·.isSome) = files.map (·.isSome) := by
    refine List.ext_getElem (by simp [hc.length]) fun j hj hj' => ?_
    rw [List.length_map] at hj hj'
    rw [List.getElem_map, List.getElem_map]
    have hget := List.getElem?_eq_getElem hj
    cases hf : files[j] with
    | none =>
      have := hc.empty j (by rw [List.getElem?_eq_getElem hj', hf])
      rw [hget] at this
      rw [Option.some.inj this]
    | some f =>
      obtain ⟨g, hg, -⟩ := hc.copy j f (by rw [List.getElem?_eq_getElem hj', hf])
      rw [hget] at hg
      rw [Option.some.inj hg]
      rfl
  have hcount : ∀ l : List (Option ℕ), Cosiris.openFiles l =
      (l.map (·.isSome)).countP id := fun l => by
    rw [List.countP_map]
    rfl
  rw [hcount, hcount, hmap]

/-- **`fork_int`** makes a task with the descriptors of its parent. -/
theorem forkInt_spec (h : s.Tidy) (hk : s.files k ≠ none) :
    wp (forkInt k) (fun c s' => c = s.nextTask ∧ Forked k s.nextTask s s') E s := by
  obtain ⟨files, hk⟩ := exists_files hk
  have ha := h.array k files hk
  rw [forkInt, wp_bind, wp_filesOf hk, wp_bind, wp_read, wp_bind]
  refine (forkFiles_copies ha.old ha.node).mono (fun copies t ht => ⟨rfl, ?_⟩) fun _ _ => id
  suffices hf : Forked k s.nextTask s (t.child copies) by
    rw [State.child, ht.nextTask] at hf
    exact hf
  have hk' : (t.child copies).files s.nextTask = some copies := by
    rw [← ht.nextTask]
    exact State.withFiles_self_files
  refine ⟨⟨ht.tidy h hk, ht.next, ?_, fun j hj _ => ?_, fun f hf => ?_⟩, le_rfl, ?_,
    funext fun j => ?_, ?_, ?_⟩
  · exact ht.nextTask ▸ Nat.le_succ _
  · show update t.files t.nextTask _ j = _
    rw [ht.nextTask, update_of_ne hj, ht.arrays]
  · exact congrArg File.fsNode (ht.old f hf)
  · exact ht.nextTask ▸ Nat.lt_succ_self _
  · rw [nodeAt_of hk', nodeAt_of hk]
    rcases Nat.lt_or_ge j files.length with hj | hj
    · have hget := List.getElem?_eq_getElem hj
      cases hf : files[j] with
      | none =>
        rw [hf] at hget
        rw [hget, ht.empty j hget]
        rfl
      | some f =>
        rw [hf] at hget
        obtain ⟨g, hg, -, -, hfile⟩ := ht.copy j f hget
        rw [hget, hg]
        exact congrArg (fun file => some (File.fsNode file)) hfile
    · rw [List.getElem?_eq_none hj, List.getElem?_eq_none (ht.length ▸ hj)]
      rfl
  · rw [openAt_of hk', openAt_of hk, ht.openFiles]
  · rw [sizeAt_of hk', sizeAt_of hk, ht.length]

/-! ### What is in a map afterwards -/

theorem lt_sizeAt (h : s.nodeAt k i ≠ none) : i < s.sizeAt k := by
  by_contra hlt
  refine h ?_
  cases hk : s.files k with
  | none =>
    rw [State.nodeAt, State.slotAt, hk]
    rfl
  | some files =>
    rw [sizeAt_of hk, Nat.not_lt] at hlt
    rw [nodeAt_of hk, List.getElem?_eq_none hlt]
    rfl

/-- There is room for a descriptor if one of the first `MAX_OPEN_FILES` is free. -/
theorem openAt_lt (h : s.Tidy) (hi : s.nodeAt k i = none) (hlt : i < maxOpenFiles) :
    s.openAt k < maxOpenFiles := by
  cases hk : s.files k with
  | none =>
    rw [State.openAt, hk]
    exact Nat.zero_lt_of_lt hlt
  | some files =>
    rw [openAt_of hk]
    have hlen := (h.array k files hk).len
    refine lt_of_le_of_ne ((openFiles_le files).trans hlen) fun hfull => ?_
    have hall : openFiles files = files.length := le_antisymm (openFiles_le files) (hfull ▸ hlen)
    have hi' : i < files.length := by rwa [← hall, hfull]
    have hsome := List.countP_eq_length.mp hall files[i] (List.getElem_mem hi')
    rw [nodeAt_of hk, List.getElem?_eq_getElem hi'] at hi
    cases ho : files[i] with
    | none =>
      rw [ho] at hsome
      cases hsome
    | some f =>
      rw [ho] at hi
      cases hi

theorem live_of_lt (h : i < s.sizeAt k) : s.files k ≠ none := fun hk => by
  rw [State.sizeAt, hk] at h
  exact Nat.not_lt_zero _ h

theorem Put.self (h : Put k i m s s') : s'.nodeAt k i = some m := by rw [h.map, update_self]

theorem Put.cases (h : Put k i m s s') (hn : s'.nodeAt k j = some n) :
    j = i ∧ n = m ∨ j ≠ i ∧ s.nodeAt k j = some n := by
  rw [h.map, update_apply] at hn
  split_ifs at hn with hj
  · exact .inl ⟨hj, (Option.some.inj hn).symm⟩
  · exact .inr ⟨hj, hn⟩

theorem Put.ne (h : Put k i m s s') (hn : s.nodeAt k j ≠ none) : j ≠ i := by
  rintro rfl
  exact hn h.first.free

theorem Put.keeps (h : Put k i m s s') (hn : s.nodeAt k j ≠ none) :
    s'.nodeAt k j = s.nodeAt k j := by
  rw [h.map, update_of_ne (h.ne hn)]

theorem Taken.cases (h : Taken k i s s') (hn : s'.nodeAt k j = some n) :
    j ≠ i ∧ s.nodeAt k j = some n := by
  rw [h.map, update_apply] at hn
  split_ifs at hn with hj
  exact ⟨hj, hn⟩

theorem Taken.keeps (h : Taken k i s s') (hj : j ≠ i) : s'.nodeAt k j = s.nodeAt k j := by
  rw [h.map, update_of_ne hj]

end

end Cosiris.Descriptors
