import Cosiris.Kernel.Descriptors

/-!
# The descriptor table stays in bounds

What a call can do to the arrays and the records, as a sequence of changes: an array grows, a
record is put into an empty slot, is shared by a second one, or leaves a slot. `fd_alloc` gives
the index of an empty slot unless `MAX_OPEN_FILES` slots are in use: then it gives the index past
the array, since it compares with `>`. So does `fd_is_valid`, and `sys_opendir` uses `-1` as an
index. Without these, every access is in bounds (`accesses_in_bounds`). -/

namespace Cosiris.Descriptors

open Prog

/-- The access is to a slot of the array, and the index that `fd_alloc` returned is that of an
empty slot. -/
def Access.Good : Access → Prop
  | .slot fd numFiles => 0 ≤ fd ∧ fd < numFiles
  | .alloc none _ => True
  | .alloc (some _) found => found = some none

/-- What the calls of task `k` but `sys_dup` do, one after the other. -/
inductive Change (k : ℕ) : State → State → Prop where
  /-- An access is recorded. -/
  | note {s : State} (a : Access) (h : a.Good) : Change k s (s.record a)
  /-- The array grows. -/
  | grow {s : State} {files : List (Option ℕ)} (n : ℕ) (h : s.files k = some files)
      (hn : files.length + n ≤ maxOpenFiles) :
      Change k s (s.withFiles k (files ++ List.replicate n none))
  /-- A new record is put into a slot. -/
  | install {s : State} {files : List (Option ℕ)} (i : ℕ) (file : File) (h : s.files k = some files)
      (hi : files[i]? = some none) (hnode : file.fsNode ≠ 0) (hdup : file.dupCnt = 0) :
      Change k s { (s.withFile s.nextFile file).withFiles k (files.set i (some s.nextFile)) with
                   nextFile := s.nextFile + 1 }
  /-- A new record is freed again. -/
  | waste {s : State} (file : File) : Change k s
      { s.withFile s.nextFile file with
        frees := Function.update s.frees s.nextFile (s.frees s.nextFile + 1)
        nextFile := s.nextFile + 1 }
  /-- The last slot of a record is closed. -/
  | last {s : State} {files : List (Option ℕ)} {i f : ℕ} (h : s.files k = some files)
      (hi : files[i]? = some (some f)) (hdup : (s.file f).dupCnt = 0) :
      Change k s
        { s.withFiles k (files.set i none) with frees := Function.update s.frees f (s.frees f + 1) }
  /-- A slot of a shared record is closed. -/
  | leave {s : State} {files : List (Option ℕ)} {i f : ℕ} (h : s.files k = some files)
      (hi : files[i]? = some (some f)) (hdup : (s.file f).dupCnt ≠ 0) :
      Change k s ((s.withFiles k (files.set i none)).withFile f
        { s.file f with dupCnt := (s.file f).dupCnt - 1 })
  /-- An offset changes. -/
  | seek {s : State} (f offs : ℕ) : Change k s (s.withFile f { s.file f with offs := offs })

/-- What a call of task `k` does. -/
abbrev Changes (k : ℕ) (s s' : State) : Prop := Reach (Change k) s s'

/-- The state with a new record. -/
def State.alloc (s : State) (file : File) : State :=
  { s.withFile s.nextFile file with nextFile := s.nextFile + 1 }

/-- The state in which record `f` is shared by slot `i`, too. -/
def State.share (s : State) (k : ℕ) (files : List (Option ℕ)) (i f : ℕ) : State :=
  (s.withFiles k (files.set i (some f))).withFile f
    { s.file f with dupCnt := (s.file f).dupCnt + 1 }

/-- The array has a length it may have, and its records are records of open files. -/
structure State.TidyArray (s : State) (files : List (Option ℕ)) : Prop where
  pos : 0 < files.length
  len : files.length ≤ maxOpenFiles
  old : ∀ f, some f ∈ files → f < s.nextFile
  node : ∀ f, some f ∈ files → (s.file f).fsNode ≠ 0
  dup : ∀ f, some f ∈ files → 0 ≤ (s.file f).dupCnt

/-- The arrays are in order, and all accesses so far were good. -/
structure State.Tidy (s : State) : Prop where
  array : ∀ k files, s.files k = some files → s.TidyArray files
  fresh : ∀ k, s.nextTask ≤ k → s.files k = none
  good : ∀ a ∈ s.trace, a.Good

section

variable {s s' : State} {k f i : ℕ} {files : List (Option ℕ)} {file : File}

theorem State.withFiles_files {k' : ℕ} :
    (s.withFiles k files).files k' = if k' = k then some files else s.files k' := by
  simp [State.withFiles, Function.update_apply]

theorem State.withFile_file {f' : ℕ} :
    (s.withFile f file).file f' = if f' = f then file else s.file f' := by
  simp [State.withFile, Function.update_apply]

/-- The records of an array are still records of open files. -/
theorem State.TidyArray.keep (h : s.TidyArray files) (hnext : s.nextFile ≤ s'.nextFile)
    (hnode : ∀ f, f < s.nextFile → (s'.file f).fsNode = (s.file f).fsNode)
    (hdup : ∀ f, some f ∈ files → 0 ≤ (s'.file f).dupCnt) : s'.TidyArray files where
  pos := h.pos
  len := h.len
  old f hf := (h.old f hf).trans_le hnext
  node f hf := by
    rw [hnode f (h.old f hf)]
    exact h.node f hf
  dup := hdup

/-- A slot is written. -/
theorem State.TidyArray.set (h : s.TidyArray files) {o : Option ℕ}
    (ho : ∀ f, o = some f → f < s.nextFile ∧ (s.file f).fsNode ≠ 0 ∧ 0 ≤ (s.file f).dupCnt) :
    s.TidyArray (files.set i o) := by
  have hmem : ∀ f, some f ∈ files.set i o → some f ∈ files ∨ o = some f := fun f hf =>
    (List.mem_or_eq_of_mem_set hf).imp_right Eq.symm
  refine ⟨by simpa using h.pos, by simpa using h.len, fun f hf => ?_, fun f hf => ?_,
    fun f hf => ?_⟩
  · exact (hmem f hf).elim (h.old f) fun e => (ho f e).1
  · exact (hmem f hf).elim (h.node f) fun e => (ho f e).2.1
  · exact (hmem f hf).elim (h.dup f) fun e => (ho f e).2.2

/-- The array of a task has changed. -/
theorem State.Tidy.update (h : s.Tidy) (hkeep : ∀ files, s.TidyArray files → s'.TidyArray files)
    (hfiles : ∀ k' l, s'.files k' = some l → s.files k' = some l ∨ k' = k ∧ s'.TidyArray l)
    (hk : k < s.nextTask)
    (htask : s'.nextTask = s.nextTask) (htrace : s'.trace = s.trace) : s'.Tidy where
  array k' l hl := (hfiles k' l hl).elim (fun hl => hkeep l (h.array k' l hl)) And.right
  fresh k' hk' := by
    cases hl : s'.files k' with
    | none => rfl
    | some l =>
      rw [htask] at hk'
      rcases hfiles k' l hl with hl | ⟨rfl, -⟩
      · rw [h.fresh k' hk'] at hl
        cases hl
      · omega
  good := htrace ▸ h.good

theorem State.Tidy.lt_nextTask (h : s.Tidy) (hk : s.files k = some files) : k < s.nextTask := by
  by_contra hlt
  rw [h.fresh k (by omega)] at hk
  cases hk

/-- A slot is written with a record of the array or with none, and counts change. -/
theorem State.Tidy.slot {o : Option ℕ} (h : s.Tidy) (hk : s.files k = some files)
    (ho : ∀ f, o = some f → some f ∈ files)
    (hfiles : s'.files = Function.update s.files k (some (files.set i o)))
    (hnext : s'.nextFile = s.nextFile)
    (htask : s'.nextTask = s.nextTask) (htrace : s'.trace = s.trace)
    (hnode : ∀ f, (s'.file f).fsNode = (s.file f).fsNode)
    (hdup : ∀ f, 0 ≤ (s.file f).dupCnt → 0 ≤ (s'.file f).dupCnt) : s'.Tidy := by
  have hkeep : ∀ l, s.TidyArray l → s'.TidyArray l := fun l hl =>
    hl.keep hnext.ge (fun f _ => hnode f) fun f hf => hdup f (hl.dup f hf)
  have ha := hkeep files (h.array k files hk)
  refine h.update hkeep (fun k' l hl => ?_) (h.lt_nextTask hk) htask htrace
  rw [hfiles, Function.update_apply] at hl
  split at hl
  · obtain rfl := Option.some.inj hl
    exact .inr ⟨‹_›,
      ha.set fun f hf => ⟨ha.old f (ho f hf), ha.node f (ho f hf), ha.dup f (ho f hf)⟩⟩
  · exact .inl hl

/-- **Every change keeps the state tidy.** -/
theorem Change.tidy (hc : Change k s s') (h : s.Tidy) : s'.Tidy := by
  cases hc with
  | note a ha =>
    refine ⟨fun k' l hl => (h.array k' l hl).keep le_rfl (fun _ _ => rfl) (h.array k' l hl).dup,
      h.fresh, fun b hb => ?_⟩
    rcases List.mem_append.mp hb with hb | hb
    · exact h.good b hb
    · exact List.mem_singleton.mp hb ▸ ha
  | @grow files n hk hn =>
    have ha := h.array k files hk
    have hkeep : ∀ l, s.TidyArray l →
      (s.withFiles k (files ++ List.replicate n none)).TidyArray l := fun l hl =>
      hl.keep le_rfl (fun _ _ => rfl) hl.dup
    refine h.update hkeep (fun k' l hl => ?_) (h.lt_nextTask hk) rfl rfl
    rw [State.withFiles_files] at hl
    split at hl
    · obtain rfl := Option.some.inj hl
      have hmem : ∀ f, some f ∈ files ++ List.replicate n none →
        some f ∈ files := fun f hf => by simpa using hf
      refine .inr ⟨‹_›, by simp [ha.pos], by simpa using hn, fun f hf => ha.old f (hmem f hf),
        fun f hf => ha.node f (hmem f hf),
        fun f hf => ha.dup f (hmem f hf)⟩
    · exact .inl hl
  | @install files i file hk hi hnode hdup =>
    have hother : ∀ f, f < s.nextFile → (s.withFile s.nextFile file).file f =
        s.file f := fun f hf => by
      rw [State.withFile_file, if_neg (by omega)]
    have hkeep : ∀ l, s.TidyArray l → State.TidyArray { (s.withFile s.nextFile file).withFiles k
        (files.set i (some s.nextFile)) with nextFile := s.nextFile + 1 } l := fun l hl =>
      hl.keep (Nat.le_succ _) (fun f hf => congrArg File.fsNode (hother f hf)) fun f hf => by
        show 0 ≤ ((s.withFile s.nextFile file).file f).dupCnt
        rw [hother f (hl.old f hf)]
        exact hl.dup f hf
    refine h.update hkeep (fun k' l hl => ?_) (h.lt_nextTask hk) rfl rfl
    change ((s.withFile s.nextFile file).withFiles k (files.set i (some s.nextFile))).files k' =
      some l at hl
    rw [State.withFiles_files] at hl
    split at hl
    · obtain rfl := Option.some.inj hl
      refine .inr ⟨‹_›, (hkeep files (h.array k files hk)).set fun f hf => ?_⟩
      obtain rfl := Option.some.inj hf
      refine ⟨Nat.lt_succ_self _, ?_, ?_⟩
      · show ((s.withFile s.nextFile file).file s.nextFile).fsNode ≠ 0
        rwa [State.withFile_file, if_pos rfl]
      · show 0 ≤ ((s.withFile s.nextFile file).file s.nextFile).dupCnt
        rw [State.withFile_file, if_pos rfl, hdup]
    · exact .inl hl
  | waste file => 
    have hother : ∀ f, f < s.nextFile → (s.withFile s.nextFile file).file f =
        s.file f := fun f hf => by
      rw [State.withFile_file, if_neg (by omega)]
    refine ⟨fun k' l hl => ?_, h.fresh, h.good⟩
    have ha := h.array k' l hl
    refine ha.keep (Nat.le_succ _) (fun f hf => congrArg File.fsNode (hother f hf)) fun f hf => ?_
    show 0 ≤ ((s.withFile s.nextFile file).file f).dupCnt
    rw [hother f (ha.old f hf)]
    exact ha.dup f hf
  | last hk hi hdup =>
      exact h.slot hk (by rintro _ ⟨⟩) rfl rfl rfl rfl (fun _ => rfl) fun _ hg => hg
  | @leave files i f hk hi hdup =>
    refine h.slot hk (by rintro _ ⟨⟩) rfl rfl rfl rfl (fun g => ?_) fun g hg => ?_
    · rw [State.withFile_file]
      split <;> simp_all [State.withFiles]
    · rw [State.withFile_file]
      split
      · rename_i e
        subst e
        show 0 ≤ (s.file g).dupCnt - 1
        omega
      · exact hg
  | seek f offs =>
    refine ⟨fun k' l hl => ?_, h.fresh, h.good⟩
    have ha := h.array k' l hl
    refine ha.keep le_rfl (fun g _ => ?_) fun g hg => ?_
    · rw [State.withFile_file]
      split <;> simp_all
    · rw [State.withFile_file]
      split
      · rename_i e
        subst e
        exact ha.dup g hg
      · exact ha.dup g hg

/-- Sharing a record keeps the state tidy. -/
theorem State.Tidy.share (h : s.Tidy) (hk : s.files k = some files) (hf : some f ∈ files) :
    (s.share k files i f).Tidy := by
  refine h.slot hk (fun g hg => Option.some.inj hg ▸ hf) rfl rfl rfl rfl (fun g => ?_)
    fun g hg => ?_
  · rw [State.share, State.withFile_file]
    split <;> simp_all [State.withFiles]
  · rw [State.share, State.withFile_file]
    split
    · rename_i e
      subst e
      exact Int.add_nonneg hg (by decide)
    · exact hg

/-! ### What the calls do -/

variable {E : Halt → State → Prop} {fd : ℤ} {o : Option ℕ}

theorem wp_filesOf {Q : List (Option ℕ) → State → Prop} (hk : s.files k = some files) :
    wp (filesOf k) Q E s = Q files s := by
  simp [filesOf, hk]

theorem wp_readSlot {Q : Option ℕ → State → Prop} (hk : s.files k = some files) (h0 : 0 ≤ fd)
    (hi : files[fd.toNat]? = some o) :
    wp (readSlot k fd) Q E s = Q o (s.record (.slot fd files.length)) := by
  simp only [readSlot, wp_bind, wp_filesOf hk, wp_modify, if_neg (Int.not_lt.mpr h0), wp_pure, hi]

theorem wp_slotFile {Q : ℕ → State → Prop} (hk : s.files k = some files) (h0 : 0 ≤ fd)
    (hi : files[fd.toNat]? = some (some f)) :
    wp (slotFile k fd) Q E s = Q f (s.record (.slot fd files.length)) := by
  simp only [slotFile, wp_bind, wp_readSlot hk h0 hi, wp_pure]

theorem wp_writeSlot {Q : Unit → State → Prop} (hk : s.files k = some files) (h0 : 0 ≤ fd)
    (hlt : fd.toNat < files.length) :
    wp (writeSlot k fd o) Q E s =
      Q () ((s.record (.slot fd files.length)).withFiles k (files.set fd.toNat o)) := by
  have hin : ¬(fd < 0 ∨ files.length ≤ fd.toNat) := by omega
  simp only [writeSlot, wp_bind, wp_filesOf hk, wp_modify, wp_ite, if_neg hin]

theorem Access.slot_good (h0 : 0 ≤ fd) (hlt : fd.toNat < files.length) :
    (Access.slot fd files.length).Good :=
  ⟨h0, by omega⟩

theorem Changes.note (h : Changes k s s') {a : Access} (ha : a.Good) : Changes k s (s'.record a) :=
    h.tail (.note a ha)

theorem Changes.tidy (hc : Changes k s s') (h : s.Tidy) : s'.Tidy :=
    hc.invariant (fun _ _ h hc => hc.tidy h) h

/-- How the calls on a descriptor begin: `r` is returned for one that is not valid. -/
theorem wp_validFile {α : Type} {Q : α → State → Prop} {r : α} {body : ℕ → Kern α}
    (hk : s.files k = some files)
    (hfd : fd ≠ files.length) (hr : ∀ s', Changes k s s' → Q r s')
    (hbody : ∀ f s', Changes k s s' → s'.files = s.files → s'.file = s.file → 0 ≤ fd →
      files[fd.toNat]? = some (some f) →
      wp (body f) Q E s') :
    wp (fdIsValid k fd >>= fun valid => if !valid then pure r
      else slotFile k fd >>= body) Q E s := by
  have hrefl : Changes k s s := .refl
  rw [wp_bind, fdIsValid, wp_bind, wp_filesOf hk]
  by_cases h1 : fd > files.length
  · simpa [h1] using hr s hrefl
  by_cases h2 : fd < 0
  · simpa [h1, h2] using hr s hrefl
  have h0 : 0 ≤ fd := by omega
  have hlt : fd.toNat < files.length := by omega
  have hgood : (Access.slot fd files.length).Good := Access.slot_good h0 hlt
  obtain ⟨o, hi⟩ : ∃ o, files[fd.toNat]? = some o := ⟨_, List.getElem?_eq_getElem hlt⟩
  simp only [if_neg h1, if_neg h2, wp_bind, wp_readSlot hk h0 hi, wp_pure]
  cases o with
  | none => simpa using hr _ (hrefl.note hgood)
  | some f =>
    simp only [Option.isSome_some, Bool.not_true, Bool.false_eq_true, if_false, wp_bind]
    rw [wp_slotFile (s := s.record _) hk h0 hi]
    exact hbody f _ ((hrefl.note hgood).note hgood) rfl rfl h0 hi

/-- **`sys_close`**, of any index but `num_files`. -/
theorem sysClose_changes (hk : s.files k = some files) (hfd : fd ≠ files.length) :
    wp (sysClose k fd) (fun _ s' => Changes k s s') E s := by
  refine wp_validFile hk hfd (fun _ => id) fun f s' hs hfiles hfile h0 hi => ?_
  have hk' : s'.files k = some files := hfiles ▸ hk
  have hlt : fd.toNat < files.length := (List.getElem?_eq_some_iff.mp hi).1
  have hgood : (Access.slot fd files.length).Good := Access.slot_good h0 hlt
  simp only [wp_bind, wp_read, wp_ite, wp_pure]
  split_ifs with hneg hdup
  · exact hs
  · simp only [freeFile, wp_modify]
    refine (wp_writeSlot (by exact hk') h0 hlt).mpr ?_
    exact (hs.note hgood).tail (.last hk' hi hdup)
  · simp only [updateFile, wp_modify]
    refine (wp_writeSlot (by exact hk') h0 hlt).mpr ?_
    exact (hs.note hgood).tail (.leave hk' hi hdup)

/-- **`sys_read`**. -/
theorem sysRead_changes {bytes : ℕ} (hk : s.files k = some files) (hfd : fd ≠ files.length) :
    wp (sysRead k fd bytes) (fun _ s' => Changes k s s') E s := by
  refine wp_validFile hk hfd (fun _ => id) fun f s' hs hfiles hfile h0 hi => ?_
  simp only [wp_bind, wp_read, wp_ite, wp_pure, updateFile, wp_modify]
  split_ifs
  · exact hs
  · exact hs.tail (.seek f _)

/-- **`sys_fstat`**. -/
theorem sysFstat_changes (hk : s.files k = some files) (hfd : fd ≠ files.length) :
    wp (sysFstat k fd) (fun _ s' => Changes k s s') E s :=
  wp_validFile hk hfd (fun _ => id) fun _ _ hs _ _ _ _ => hs

/-- A task has room for `n` more descriptors. -/
def Room (files : List (Option ℕ)) (n : ℕ) : Prop := openFiles files + n ≤ maxOpenFiles

/-- The array that `fd_alloc` returns a slot of: it has grown, and the slot is empty. -/
structure Allocated (files : List (Option ℕ)) (i n : ℕ) (files' : List (Option ℕ)) : Prop where
  fd : (fdAlloc files).1 = some i
  grown : (fdAlloc files).2 = files'
  eq : files' = files ++ List.replicate n none
  free : files'[i]? = some none
  len : files.length + n ≤ maxOpenFiles

theorem fdAlloc_spec (hpos : 0 < files.length) (hlen : files.length ≤ maxOpenFiles)
    (hroom : Room files 1) :
    ∃ i n files', Allocated files i n files' := by
  obtain ⟨i, hi, hlt⟩ := fdAlloc_of_room hpos (Nat.lt_of_succ_le hroom)
  obtain ⟨n, hn⟩ := fdAlloc_files files
  have hfree := fdAlloc_free hi hlt
  have hmax := length_fdAlloc_le hlen
  rw [hn] at hfree hmax
  exact ⟨i, n, _, hi, hn, rfl, hfree, by simpa using hmax⟩

theorem Allocated.length {n : ℕ} {files' : List (Option ℕ)} (h : Allocated files i n files') :
    files'.length = files.length + n := by
  rw [h.eq, List.length_append, List.length_replicate]

theorem Allocated.openFiles {n : ℕ} {files' : List (Option ℕ)} (h : Allocated files i n files') :
    openFiles files' = openFiles files := by
  simp [h.eq, Cosiris.openFiles, List.countP_replicate]

theorem wp_fdAllocFor {Q : ℤ → State → Prop} {n : ℕ} {files' : List (Option ℕ)}
    (hk : s.files k = some files)
    (h : Allocated files i n files') :
    wp (fdAllocFor k) Q E s =
      Q i ((s.withFiles k files').record (.alloc (some i) (some none))) := by
  simp only [fdAllocFor, wp_bind, wp_filesOf hk, wp_modify, wp_pure, h.fd, h.grown,
    Option.bind_some, h.free]

/-- What `fd_alloc` does, with room for one more. -/
theorem Allocated.changes {n : ℕ} {files' : List (Option ℕ)} (h : Allocated files i n files')
    (hk : s.files k = some files) :
    Changes k s ((s.withFiles k files').record (.alloc (some i) (some none))) :=
  Changes.note (.single (h.eq ▸ .grow n hk h.len)) rfl

theorem State.withFiles_self (hk : s.files k = some files) : s.withFiles k files = s := by
  have : Function.update s.files k (some files) = s.files := by rw [← hk, Function.update_eq_self]
  simp only [State.withFiles, this]

theorem set_none (hi : files[i]? = some none) : files.set i none = files := by
  refine List.ext_getElem? fun j => ?_
  rw [List.getElem?_set]
  split
  · rename_i e
    subst e
    rw [hi, if_pos (List.getElem?_eq_some_iff.mp hi).1]
  · rfl

theorem lt_of_getElem? (hi : files[i]? = some o) : i < files.length :=
    (List.getElem?_eq_some_iff.mp hi).1

@[simp] theorem State.withFiles_self_files : (s.withFiles k files).files k = some files := by
  simp [State.withFiles]

theorem State.alloc_withFile {a b : File} : (s.alloc a).withFile s.nextFile b = s.alloc b := by
  simp [State.alloc, State.withFile]

@[simp] theorem State.alloc_file {a : File} : (s.alloc a).file s.nextFile = a := by
  simp [State.alloc, State.withFile]

/-- A new record is filled in. -/
theorem wp_newFile {α : Type} {Q : α → State → Prop} {g : File → File} {rest : ℕ → Kern α} :
    wp (fileAlloc >>= fun f => updateFile f g >>= fun _ => rest f) Q E s =
      wp (rest s.nextFile) Q E (s.alloc (g File.zero)) := by
  simp only [fileAlloc, updateFile, wp_bind, wp_read, wp_modify, wp_pure]
  show wp (rest s.nextFile) Q E
    ((s.alloc File.zero).withFile s.nextFile (g ((s.alloc File.zero).file s.nextFile))) = _
  rw [State.alloc_file, State.alloc_withFile]

/-- **`sys_open`**. -/
theorem sysOpen_changes {found : Namei} {flags mode : ℕ} (h : s.Tidy) (hk : s.files k = some files)
    (hroom : Room files 1) :
    wp (sysOpen k found flags mode)
      (fun fd s' => Changes k s s' ∧ ∃ files', s'.files k = some files' ∧
      ((found.ret < 0 ∨ found.node = 0) ∧ fd = -1 ∨ ∃ (i f : ℕ), fd = i ∧
        files'[i]? = some (some f)))
        E s := by
  have ha := h.array k files hk
  obtain ⟨i, n, files₁, hi⟩ := fdAlloc_spec ha.pos ha.len hroom
  have hs₁ := hi.changes hk
  have hfree := hi.free
  rw [sysOpen, wp_bind, wp_fdAllocFor hk hi]
  have hk₁ : ((s.withFiles k files₁).record (.alloc (some i) (some none))).files k = some files₁ :=
    State.withFiles_self_files
  generalize (s.withFiles k files₁).record (.alloc (some i) (some none)) = s₁ at *
  have hlt := lt_of_getElem? hfree
  have hneg : ¬(i : ℤ) < 0 := by omega
  have hgood : (Access.slot i files₁.length).Good := ⟨by omega, by omega⟩
  simp only [if_neg hneg]
  rw [wp_newFile]
  simp only [updateFile, freeFile, wp_bind, wp_read, wp_modify, wp_pure, wp_ite, State.alloc_file]
  split_ifs with hbad
  · refine (wp_writeSlot (by exact hk₁) (by omega) (by simpa using hlt)).mpr ?_
    rw [Int.toNat_natCast, set_none hfree, State.withFiles_self (by exact hk₁)]
    exact ⟨Changes.note (hs₁.tail (.waste { File.zero with fsNode := found.node })) hgood, files₁,
      hk₁, .inl ⟨hbad, trivial⟩⟩
  · rw [State.alloc_withFile]
    refine (wp_writeSlot (by exact hk₁) (by omega) (by simpa using hlt)).mpr ?_
    rw [Int.toNat_natCast]
    refine ⟨(hs₁.note hgood).tail (.install i _ hk₁ hfree ?_ ?_), _, State.withFiles_self_files,
      .inr ⟨i, s₁.nextFile, rfl, ?_⟩⟩
    · exact fun h0 => hbad (.inr h0)
    · rfl
    · rw [List.getElem?_set_self hlt]

theorem Changes.trans {s₁ s₂ : State} (h : Changes k s s₁) (h' : Changes k s₁ s₂) :
    Changes k s s₂ := Relation.ReflTransGen.trans h h'

/-- **`sys_opendir`**, of a name that can be opened. -/
theorem sysOpendir_changes {found : Namei} (h : s.Tidy) (hk : s.files k = some files)
    (hroom : Room files 1)
    (hret : 0 ≤ found.ret) (hnode : found.node ≠ 0) :
    wp (sysOpendir k found) (fun _ s' => Changes k s s') E s := by
  rw [sysOpendir, wp_bind]
  refine (sysOpen_changes h hk hroom).mono ?_ fun _ _ => id
  rintro fd s₁ ⟨hs₁, files₁, hk₁, ⟨hbad, -⟩ | ⟨i, f, rfl, hi⟩⟩
  · omega
  have hlt := lt_of_getElem? hi
  have h0 : (0 : ℤ) ≤ i := by omega
  have hgood : (Access.slot i files₁.length).Good := ⟨h0, by omega⟩
  have hi' : files₁[(i : ℤ).toNat]? = some (some f) := by simpa using hi
  rw [wp_ite]
  split_ifs with h0'
  · exact hs₁
  rw [wp_bind, wp_slotFile hk₁ h0 hi', wp_bind, wp_read, wp_ite]
  split_ifs
  · rw [wp_bind]
    have hclose : wp (sysClose k i) (fun _ s₂ => Changes k (s₁.record (.slot i files₁.length)) s₂) E
        (s₁.record (.slot i files₁.length)) := sysClose_changes hk₁ (by omega)
    exact hclose.mono (fun _ s₂ hs₂ => (hs₁.note hgood).trans hs₂) fun _ _ => id
  · exact hs₁.note hgood

theorem dupValid_spec (hvalid : dupValid files fd = true) :
    ∃ j f : ℕ, fd = j ∧ files[j]? = some (some f) := by
  obtain ⟨j, hj, hval⟩ := List.any_eq_true.mp hvalid
  simp only [Bool.and_eq_true, decide_eq_true_eq] at hval
  obtain ⟨rfl, hsome⟩ := hval
  have hlt := List.mem_range.mp hj
  rw [List.getD_eq_getElem?_getD, List.getElem?_eq_getElem hlt, Option.getD_some] at hsome
  obtain ⟨f, hf⟩ := Option.isSome_iff_exists.mp hsome
  exact ⟨j, f, rfl, by rw [List.getElem?_eq_getElem hlt, hf]⟩

/-- **`sys_dup`**: the descriptor is not open, or its record is shared by an empty slot. -/
theorem sysDup_changes (h : s.Tidy) (hk : s.files k = some files)
    (hroom : dupValid files fd = true → Room files 1) :
    wp (sysDup k fd) (fun _ s' => s' = s ∨ ∃ s₁ n i j f, Changes k s s₁ ∧
      s₁.files = (s.withFiles k (files ++ List.replicate n none)).files ∧ s₁.nextFile = s.nextFile ∧
      (files ++ List.replicate n none)[i]? = some none ∧ fd = (j : ℕ) ∧ files[j]? = some (some f) ∧
      s' = s₁.share k (files ++ List.replicate n none) i f) E s := by
  have ha := h.array k files hk
  rw [sysDup, wp_bind, wp_filesOf hk, wp_ite]
  split_ifs with hvalid
  · exact .inl rfl
  simp only [Bool.not_eq_true', Bool.not_eq_false] at hvalid
  obtain ⟨i, n, files₁, hi⟩ := fdAlloc_spec ha.pos ha.len (hroom hvalid)
  have hs₁ := hi.changes hk
  have hfree := hi.free
  obtain ⟨j, f, rfl, hj⟩ := dupValid_spec hvalid
  have hj₁ : files₁[j]? = some (some f) := by
    rw [hi.eq, List.getElem?_append_left (lt_of_getElem? hj), hj]
  rw [wp_bind, wp_fdAllocFor hk hi]
  have hk₁ : ((s.withFiles k files₁).record (.alloc (some i) (some none))).files k = some files₁ :=
    State.withFiles_self_files
  have hfiles₁ : ((s.withFiles k files₁).record (.alloc (some i) (some none))).files =
    (s.withFiles k files₁).files := rfl
  have hnext₁ :
    ((s.withFiles k files₁).record (.alloc (some i) (some none))).nextFile = s.nextFile :=
    rfl
  generalize (s.withFiles k files₁).record (.alloc (some i) (some none)) = s₁ at *
  have hlt := lt_of_getElem? hfree
  have hltj := lt_of_getElem? hj₁
  have hneg : ¬(i : ℤ) < 0 := by omega
  have hgood : (Access.slot i files₁.length).Good := ⟨by omega, by omega⟩
  have hgoodj : (Access.slot j files₁.length).Good := ⟨by omega, by omega⟩
  rw [wp_ite, if_neg hneg, wp_bind, wp_readSlot hk₁ (by omega) (by simpa using hj₁), wp_bind]
  refine (wp_writeSlot (by exact hk₁) (by omega) (by simpa using hlt)).mpr ?_
  rw [Int.toNat_natCast, wp_bind]
  refine (wp_slotFile (f := f) State.withFiles_self_files (by omega) ?_).mpr ?_
  · rw [Int.toNat_natCast, List.getElem?_set_self hlt]
  rw [List.length_set]
  obtain rfl := hi.eq
  exact .inr ⟨_, n, i, j, f, ((hs₁.note hgoodj).note hgood).note hgood, hfiles₁, hnext₁, hfree, rfl,
    hj, rfl⟩

theorem openFiles_set (hi : files[i]? = some none) :
    openFiles (files.set i (some f)) = openFiles files + 1 := by
  have hlt := lt_of_getElem? hi
  have hnone : files[i] = none := by
    rw [List.getElem?_eq_getElem hlt] at hi
    exact Option.some.inj hi
  rw [openFiles, List.countP_set hlt, hnone]
  simp [openFiles]

/-- Two new records. -/
theorem State.alloc_alloc_withFile {a b c : File} :
    ((s.alloc a).alloc b).withFile s.nextFile c = (s.alloc c).alloc b := by
  have hne : s.nextFile ≠ s.nextFile + 1 := by omega
  simp only [State.alloc, State.withFile, Function.update_comm hne, Function.update_idem]

theorem wp_newFiles {α : Type} {Q : α → State → Prop} {g g' : File → File} {rest : ℕ → ℕ → Kern α} :
    wp (fileAlloc >>= fun f => fileAlloc >>= fun f' => updateFile f g >>= fun _ =>
      updateFile f' g' >>= fun _ => rest f f') Q E s =
      wp (rest s.nextFile (s.nextFile + 1)) Q E ((s.alloc (g File.zero)).alloc (g' File.zero)) := by
  have hne : s.nextFile ≠ s.nextFile + 1 := by omega
  have hold : ((s.alloc File.zero).alloc File.zero).file s.nextFile = File.zero := by
    simp [State.alloc, State.withFile]
  have hnew : ((s.alloc (g File.zero)).alloc File.zero).file (s.nextFile + 1) = File.zero :=
    State.alloc_file
  simp only [fileAlloc, updateFile, wp_bind, wp_read, wp_modify, wp_pure]
  show wp (rest s.nextFile (s.nextFile + 1)) Q E
    ((((s.alloc File.zero).alloc File.zero).withFile s.nextFile
    (g (((s.alloc File.zero).alloc File.zero).file s.nextFile))).withFile (s.nextFile + 1)
      (g' ((((s.alloc File.zero).alloc File.zero).withFile s.nextFile
        (g (((s.alloc File.zero).alloc File.zero).file s.nextFile))).file (s.nextFile + 1)))) = _
  rw [hold, State.alloc_alloc_withFile, hnew]
  exact congrArg _ State.alloc_withFile

/-- **`sys_pipe`**. -/
theorem sysPipe_changes {rd wr : ℕ} (h : s.Tidy) (hk : s.files k = some files)
    (hroom : Room files 2) (hrd : rd ≠ 0) (hwr : wr ≠ 0) :
    wp (sysPipe k rd wr) (fun _ s' => Changes k s s') E s := by
  have ha := h.array k files hk
  have hpos := ha.pos
  unfold Room at hroom
  -- the first index is not used
  obtain ⟨i₀, n₀, files₀, h₀⟩ := fdAlloc_spec hpos ha.len (show _ ≤ _ by omega)
  have hlen₀ := h₀.length
  have hopen₀ := h₀.openFiles
  obtain ⟨i, n₁, files₁, h₁⟩ :=
    fdAlloc_spec (show 0 < files₀.length by omega) (by rw [hlen₀]; exact h₀.len)
      (show _ ≤ _ by omega)
  have hlen₁ := h₁.length
  have hopen₁ := h₁.openFiles
  have hlt := lt_of_getElem? h₁.free
  have hset : ∀ f, openFiles (files₁.set i (some f)) = openFiles files₁ + 1 := fun f =>
    openFiles_set h₁.free
  obtain ⟨j, n₂, files₂, h₂⟩ :=
    fdAlloc_spec (show 0 < (files₁.set i (some s.nextFile)).length by rw [List.length_set]; omega)
    (by rw [List.length_set, hlen₁]; exact h₁.len) (by unfold Room; rw [hset]; omega)
  have hlt₂ := lt_of_getElem? h₂.free
  have hgood : (Access.slot i files₁.length).Good := ⟨by omega, by omega⟩
  have hgood₂ : (Access.slot j files₂.length).Good := ⟨by omega, by omega⟩
  have hi : (i : ℤ).toNat < files₁.length := by simpa using hlt
  have hj : (j : ℤ).toNat < files₂.length := by simpa using hlt₂
  rw [sysPipe, wp_newFiles, wp_bind]
  refine (wp_fdAllocFor (by exact hk) h₀).mpr ?_
  rw [wp_bind]
  refine (wp_fdAllocFor (by exact State.withFiles_self_files) h₁).mpr ?_
  rw [wp_bind]
  refine (wp_writeSlot (by exact State.withFiles_self_files) (by omega) hi).mpr ?_
  rw [Int.toNat_natCast, wp_bind]
  refine (wp_fdAllocFor (by exact State.withFiles_self_files) h₂).mpr ?_
  rw [wp_bind]
  refine (wp_writeSlot (by exact State.withFiles_self_files) (by omega) hj).mpr ?_
  rw [Int.toNat_natCast, wp_pure]
  have hs₀ := h₀.changes hk
  have hs₁ := hs₀.trans (h₁.changes State.withFiles_self_files)
  have hin := (hs₁.note hgood).tail (.install i { File.zero with flags := 0, fsNode := rd }
    State.withFiles_self_files h₁.free hrd rfl)
  have hs₂ := hin.trans (h₂.changes State.withFiles_self_files)
  exact (Changes.note hs₂ hgood₂).tail (.install j { File.zero with flags := 1, fsNode := wr }
    State.withFiles_self_files h₂.free hwr rfl)

/-! ### Processes -/

/-- The state without a task. -/
def State.remove (s : State) (k : ℕ) : State := { s with files := Function.update s.files k none }

theorem State.withFiles_withFiles {files' : List (Option ℕ)} :
    (s.withFiles k files).withFiles k files' = s.withFiles k files' := by
  simp [State.withFiles]

/-- The loop of `task_free` closes the slots that are left. -/
theorem closeFiles_changes {n : ℕ} (hnode : ∀ f, some f ∈ files → (s.file f).fsNode ≠ 0) :
    wp (closeFiles files) (fun _ s' => Changes k (s.withFiles k (List.replicate n none ++ files))
      (s'.withFiles k (List.replicate (n + files.length) none))) E s := by
  induction files generalizing s n with
  | nil => simpa [closeFiles] using (.refl : Changes k _ _)
  | cons o files ih =>
    have hnext : List.replicate n none ++ none :: files = List.replicate (n + 1) none ++ files := by
      rw [List.replicate_succ', List.append_assoc]
      rfl
    have hlen : n + (o :: files).length = n + 1 + files.length := by
      simp [Nat.add_comm, Nat.add_left_comm]
    rw [hlen]
    have hnode' : ∀ f, some f ∈ files → (s.file f).fsNode ≠ 0 := fun f hf =>
      hnode f (List.mem_cons_of_mem _ hf)
    cases o with
    | none =>
      rw [hnext]
      exact ih hnode'
    | some f =>
      have hf := hnode f List.mem_cons_self
      have hi : (List.replicate n none ++ some f :: files)[n]? = some (some f) := by simp
      have hset : (List.replicate n none ++ some f :: files).set n none =
        List.replicate (n + 1) none ++ files := by
        rw [← hnext]
        simp
      simp only [closeFiles, wp_bind, wp_read, kassert, decide_eq_true hf, if_true, wp_pure, wp_ite]
      split_ifs with hdup
      · simp only [freeFile, wp_modify]
        have hlast :=
          Change.last (s := s.withFiles k (List.replicate n none ++ some f :: files))
            State.withFiles_self_files hi hdup
        rw [hset, State.withFiles_withFiles] at hlast
        exact wp.mono (ih (n := n + 1) hnode')
          (fun _ _ hs' => Relation.ReflTransGen.head hlast hs') fun _ _ => id
      · simp only [updateFile, wp_modify]
        have hleave :=
          Change.leave (s := s.withFiles k (List.replicate n none ++ some f :: files))
            State.withFiles_self_files hi hdup
        rw [hset, State.withFiles_withFiles] at hleave
        refine wp.mono (ih (n := n + 1) fun g hg => ?_)
          (fun _ _ hs' => Relation.ReflTransGen.head hleave hs') fun _ _ => id
        rw [State.withFile_file]
        split
        · rename_i e
          exact e ▸ hf
        · exact hnode' g hg

/-- **`task_free`** closes all slots, and the task is gone. -/
theorem taskFree_changes (h : s.Tidy) (hk : s.files k = some files) :
    wp (taskFree k) (fun _ s' => ∃ t, Changes k s t ∧
      t.files k = some (List.replicate files.length none) ∧ s' = t.remove k)
      E s := by
  rw [taskFree, wp_bind, wp_filesOf hk, wp_bind]
  refine (closeFiles_changes (k := k) (n := 0) (h.array k files hk).node).mono
    (fun _ t ht => ?_) fun _ _ => id
  rw [List.replicate_zero, List.nil_append, State.withFiles_self hk, Nat.zero_add] at ht
  refine ⟨_, ht, State.withFiles_self_files, ?_⟩
  simp [State.remove, State.withFiles]

/-- The array of a child: a copy of every record. -/
structure Copies (s s' : State) (files copies : List (Option ℕ)) : Prop where
  frees : s'.frees = s.frees
  arrays : s'.files = s.files
  nextTask : s'.nextTask = s.nextTask
  trace : s'.trace = s.trace
  length : copies.length = files.length
  next : s.nextFile ≤ s'.nextFile
  old : ∀ f, f < s.nextFile → s'.file f = s.file f
  empty : ∀ i : ℕ, files[i]? = some none → copies[i]? = some none
  copy : ∀ (i : ℕ) f, files[i]? = some (some f) → ∃ g, copies[i]? = some (some g) ∧ s.nextFile ≤ g ∧
      g < s'.nextFile ∧
    s'.file g = s.file f
  inj : ∀ (i j : ℕ) g, copies[i]? = some (some g) → copies[j]? = some (some g) → i = j
  onto : ∀ g, s.nextFile ≤ g → g < s'.nextFile → some g ∈ copies

/-- The record of a slot of the child. -/
theorem Copies.record {copies : List (Option ℕ)} {g : ℕ} (h : Copies s s' files copies)
    (hi : copies[i]? = some (some g)) :
    ∃ f, files[i]? = some (some f) ∧ s.nextFile ≤ g ∧ g < s'.nextFile ∧ s'.file g = s.file f := by
  have hlt : i < files.length := h.length ▸ (List.getElem?_eq_some_iff.mp hi).1
  cases hf : files[i] with
  | none =>
    have := h.empty i (by rw [List.getElem?_eq_getElem hlt, hf])
    rw [hi] at this
    cases this
  | some f =>
    have hf' : files[i]? = some (some f) := by rw [List.getElem?_eq_getElem hlt, hf]
    obtain ⟨g', hg', h1, h2, h3⟩ := h.copy i f hf'
    rw [hi] at hg'
    obtain rfl := Option.some.inj (Option.some.inj hg')
    exact ⟨f, hf', h1, h2, h3⟩

/-- The loop of `fork_int` over the slots. -/
theorem forkFiles_copies (hold : ∀ f, some f ∈ files → f < s.nextFile)
    (hnode : ∀ f, some f ∈ files → (s.file f).fsNode ≠ 0) :
    wp (forkFiles files) (fun copies s' => Copies s s' files copies) E s := by
  induction files generalizing s with
  | nil =>
      exact ⟨rfl, rfl, rfl, rfl, rfl,
        le_rfl, fun _ _ => rfl, by simp, by simp, by simp, fun g h1 h2 => by omega⟩
  | cons o files ih =>
    have hold' : ∀ f, some f ∈ files → f < s.nextFile :=
      fun f hf => hold f (List.mem_cons_of_mem _ hf)
    have hnode' : ∀ f, some f ∈ files → (s.file f).fsNode ≠ 0 := fun f hf =>
      hnode f (List.mem_cons_of_mem _ hf)
    cases o with
    | none =>
      rw [forkFiles, wp_bind]
      refine (ih hold' hnode').mono (fun copies s' h => ?_) fun _ _ => id
      refine ⟨h.frees, h.arrays, h.nextTask, h.trace, congrArg (· + 1) h.length, h.next,
        h.old, fun i hi => ?_, fun i f hi => ?_, fun i j g hi hj => ?_, fun g h1 h2 =>
          List.mem_cons_of_mem _ (h.onto g h1 h2)⟩
      · cases i with
        | zero => rfl
        | succ i => exact h.empty i hi
      · cases i with
        | zero => cases hi
        | succ i => exact h.copy i f hi
      · cases i with
        | zero => cases hi
        | succ i =>
          cases j with
          | zero => cases hj
          | succ j => exact congrArg (· + 1) (h.inj i j g hi hj)
    | some f =>
      have hf := hold f List.mem_cons_self
      have hfile : (s.alloc File.zero).file f = s.file f := by
        show (s.withFile s.nextFile File.zero).file f = _
        rw [State.withFile_file, if_neg (by omega)]
      simp only [forkFiles, fileAlloc, updateFile, wp_bind, wp_read, wp_modify, wp_pure, wp_ite]
      change if ((s.alloc File.zero).file f).fsNode = 0 then _ else
        wp (forkFiles files) _ E
          ((s.alloc File.zero).withFile s.nextFile ((s.alloc File.zero).file f))
      rw [hfile, if_neg (hnode f List.mem_cons_self), State.alloc_withFile]
      have hnext : (s.alloc (s.file f)).nextFile = s.nextFile + 1 := rfl
      have hkeep : ∀ e, e < s.nextFile → (s.alloc (s.file f)).file e = s.file e := fun e he => by
        show (s.withFile s.nextFile _).file e = _
        rw [State.withFile_file, if_neg (by omega)]
      refine wp.mono (ih (fun e he => ?_) fun e he => ?_) (fun copies s' h => ?_) fun _ _ => id
      · have := hold' e he
        omega
      · rw [hkeep e (hold' e he)]
        exact hnode' e he
      have hlt : s.nextFile < s'.nextFile := Nat.lt_of_succ_le h.next
      have hcopy : s'.file s.nextFile = s.file f :=
        (h.old _ (Nat.lt_succ_self _)).trans State.alloc_file
      have hlater : ∀ (i : ℕ) g, copies[i]? = some (some g) → s.nextFile < g := fun i g hi => by
        obtain ⟨_, _, hg, _⟩ := h.record hi
        exact Nat.lt_of_succ_le hg
      refine ⟨h.frees, h.arrays, h.nextTask, h.trace, congrArg (· + 1) h.length,
        hlt.le, fun e he => ?_, fun i hi => ?_, fun i e hi => ?_, fun i j g hi hj => ?_,
          fun g h1 h2 => ?_⟩
      · exact (h.old e (Nat.lt_succ_of_lt he)).trans (hkeep e he)
      · cases i with
        | zero => cases hi
        | succ i => exact h.empty i hi
      · cases i with
        | zero =>
          obtain rfl := Option.some.inj (Option.some.inj hi)
          exact ⟨s.nextFile, rfl, le_rfl, hlt, hcopy⟩
        | succ i =>
          obtain ⟨g, hg, h1, h2, h3⟩ := h.copy i e hi
          refine ⟨g, hg, by omega, h2, h3.trans (hkeep e (hold' e (List.mem_of_getElem? hi)))⟩
      · cases i with
        | zero =>
          obtain rfl := Option.some.inj (Option.some.inj hi)
          cases j with
          | zero => rfl
          | succ j => exact absurd (hlater j _ hj) (Nat.lt_irrefl _)
        | succ i =>
          cases j with
          | zero =>
            obtain rfl := Option.some.inj (Option.some.inj hj)
            exact absurd (hlater i _ hi) (Nat.lt_irrefl _)
          | succ j => exact congrArg (· + 1) (h.inj i j g hi hj)
      · rcases Nat.eq_or_lt_of_le h1 with rfl | h1
        · exact List.mem_cons_self
        · exact List.mem_cons_of_mem _ (h.onto g h1 h2)

/-- The state with a new task. -/
def State.child (s : State) (copies : List (Option ℕ)) : State :=
  { s.withFiles s.nextTask copies with nextTask := s.nextTask + 1 }

/-- **`fork_int`**. -/
theorem forkInt_copies (h : s.Tidy) (hk : s.files k = some files) :
    wp (forkInt k) (fun _ s' => ∃ t copies, Copies s t files copies ∧ s' = t.child copies) E s := by
  have ha := h.array k files hk
  rw [forkInt, wp_bind, wp_filesOf hk, wp_bind, wp_read, wp_bind]
  refine (forkFiles_copies ha.old ha.node).mono (fun copies t ht => ?_) fun _ _ => id
  refine ⟨t, copies, ht, ?_⟩
  rw [State.child, ht.nextTask]

theorem Copies.tidy {t : State} {copies : List (Option ℕ)}
    (hc : Copies s t files copies) (h : s.Tidy)
    (hk : s.files k = some files) : (t.child copies).Tidy := by
  have htask := hc.nextTask
  have htfiles := hc.arrays
  have ha := h.array k files hk
  have hkeep : ∀ l, s.TidyArray l → (t.child copies).TidyArray l := fun l hl =>
    hl.keep hc.next (fun f hf => congrArg File.fsNode (hc.old f hf)) fun f hf => by
      show 0 ≤ (t.file f).dupCnt
      rw [hc.old f (hl.old f hf)]
      exact hl.dup f hf
  have hrecord : ∀ g, some g ∈ copies → ∃ f, some f ∈ files ∧ g < t.nextFile ∧
    t.file g = s.file f := fun g hg => by
    obtain ⟨i, hi⟩ := List.mem_iff_getElem?.mp hg
    obtain ⟨f, hf, -, h2, h3⟩ := hc.record hi
    exact ⟨f, List.mem_of_getElem? hf, h2, h3⟩
  refine ⟨fun k' l hl => ?_, fun k' hk' => ?_, fun a ha' => h.good a (hc.trace ▸ ha')⟩
  · change (t.withFiles t.nextTask copies).files k' = some l at hl
    rw [State.withFiles_files] at hl
    split at hl
    · obtain rfl := Option.some.inj hl
      refine ⟨hc.length ▸ ha.pos, hc.length ▸ ha.len, fun g hg => ?_, fun g hg => ?_,
        fun g hg => ?_⟩
      all_goals obtain ⟨f, hf, hlt, hfile⟩ := hrecord g hg
      · exact hlt
      · show (t.file g).fsNode ≠ 0
        rw [hfile]
        exact ha.node f hf
      · show 0 ≤ (t.file g).dupCnt
        rw [hfile]
        exact ha.dup f hf
    · rw [htfiles] at hl
      exact hkeep l (h.array k' l hl)
  · change t.nextTask + 1 ≤ k' at hk'
    show (t.withFiles t.nextTask copies).files k' = none
    rw [State.withFiles_files, if_neg (by omega), htfiles]
    exact h.fresh k' (by omega)

/-- A task is gone. -/
theorem State.Tidy.remove (h : s.Tidy) : (s.remove k).Tidy where
  array k' l hl := by
    change Function.update s.files k none k' = some l at hl
    rw [Function.update_apply] at hl
    split at hl
    · cases hl
    · have ha := h.array k' l hl
      exact ha.keep le_rfl (fun _ _ => rfl) ha.dup
  fresh k' hk' := by
    show Function.update s.files k none k' = none
    rw [Function.update_apply]
    split
    · rfl
    · exact h.fresh k' hk'
  good := h.good

/-! ### Runs -/

/-- The task that makes a call. -/
def Op.task : Op → ℕ
  | .openFile k _ _ _ | .opendir k _ | .dup k _ | .pipe k _ _ | .close k _ | .readFile k _ _
  | .fstat k _ | .fork k | .free k => k

/-- The task is there, and `pipe_new` has made two nodes. -/
def Op.Allowed (s : State) (op : Op) : Prop :=
  s.files op.task ≠ none ∧ match op with
    | .pipe _ rd wr => rd ≠ 0 ∧ wr ≠ 0
    | _ => True

/-- The call finds room for the descriptors that it makes, does not close or access the descriptor
`num_files`, and opens a directory that can be opened. -/
def Op.InBounds (s : State) : Op → Prop
  | .openFile k _ _ _ => ∀ files, s.files k = some files → Room files 1
  | .opendir k found =>
      (∀ files, s.files k = some files → Room files 1) ∧ 0 ≤ found.ret ∧ found.node ≠ 0
  | .dup k oldfd => ∀ files, s.files k = some files → dupValid files oldfd = true → Room files 1
  | .pipe k _ _ => ∀ files, s.files k = some files → Room files 2
  | .close k fd | .readFile k fd _ | .fstat k fd =>
      ∀ files, s.files k = some files → fd ≠ files.length
  | .fork _ | .free _ => True

/-- A call that meets a condition, and returns; then the nodes of the files change. -/
def Step (C : State → Op → Prop) (s s' : State) : Prop :=
  ∃ op t node, op.Allowed s ∧ C s op ∧ op.exec s = .ok () t ∧ s' = { t with node := node }

/-- What a call does. -/
def Op.Effect (s s' : State) : Op → Prop
  | .dup k oldfd => s' = s ∨ ∃ s₁ files n i j f, s.files k = some files ∧ Changes k s s₁ ∧
      s₁.files = (s.withFiles k (files ++ List.replicate n none)).files ∧ s₁.nextFile = s.nextFile ∧
      (files ++ List.replicate n none)[i]? = some none ∧ oldfd = (j : ℕ) ∧
        files[j]? = some (some f) ∧
      s' = s₁.share k (files ++ List.replicate n none) i f
  | .fork k =>
      ∃ t files copies, s.files k = some files ∧ Copies s t files copies ∧ s' = t.child copies
  | .free k => ∃ t n, Changes k s t ∧ t.files k = some (List.replicate n none) ∧ s' = t.remove k
  | op => Changes op.task s s'

theorem wp_discard {α : Type} {m : Kern α} {Q : State → Prop} (h : wp m (fun _ s' => Q s') E s) :
    wp (discard m) (fun _ s' => Q s') E s := by
  show wp ((fun _ => PUnit.unit) <$> m) _ _ _
  rwa [wp_map]

/-- **What the calls do**, when they stay in bounds. -/
theorem Op.exec_spec {op : Op} (h : s.Tidy) (ha : op.Allowed s) (hb : op.InBounds s) :
    wp op.exec (fun _ s' => op.Effect s s') E s := by
  obtain ⟨files, hk⟩ := Option.ne_none_iff_exists'.mp ha.1
  cases op with
  | openFile k found flags mode =>
    exact wp_discard ((sysOpen_changes h hk (hb files hk)).mono (fun _ _ => And.left) fun _ _ => id)
  | opendir k found => exact wp_discard (sysOpendir_changes h hk (hb.1 files hk) hb.2.1 hb.2.2)
  | dup k oldfd =>
    refine wp_discard ((sysDup_changes h hk (hb files hk)).mono (fun _ s' hs' => ?_) fun _ _ => id)
    refine hs'.imp_right ?_
    rintro ⟨s₁, n, i, j, f, hs₁⟩
    exact ⟨s₁, files, n, i, j, f, hk, hs₁⟩
  | pipe k rd wr => exact wp_discard (sysPipe_changes h hk (hb files hk) ha.2.1 ha.2.2)
  | close k fd => exact wp_discard (sysClose_changes hk (hb files hk))
  | readFile k fd bytes => exact wp_discard (sysRead_changes hk (hb files hk))
  | fstat k fd => exact wp_discard (sysFstat_changes hk (hb files hk))
  | fork k =>
    refine wp_discard ((forkInt_copies h hk).mono (fun _ s' hs' => ?_) fun _ _ => id)
    obtain ⟨t, copies, hc, he⟩ := hs'
    exact ⟨t, files, copies, hk, hc, he⟩
  | free k =>
    refine wp_discard ((taskFree_changes h hk).mono (fun _ s' hs' => ?_) fun _ _ => id)
    obtain ⟨t, hc, ht, he⟩ := hs'
    exact ⟨t, _, hc, ht, he⟩

/-- Every call keeps the state tidy. -/
theorem Op.Effect.tidy {op : Op} (he : op.Effect s s') (h : s.Tidy) : s'.Tidy := by
  cases op with
  | dup k oldfd =>
    rcases he with rfl | ⟨s₁, files, n, i, j, f, _, hc, hfiles, _, _, _, hj, rfl⟩
    · exact h
    · have hk : s₁.files k = some (files ++ List.replicate n none) := by
        rw [hfiles, State.withFiles_self_files]
      exact (hc.tidy h).share hk (List.mem_append_left _ (List.mem_of_getElem? hj))
  | fork k =>
    obtain ⟨t, files, copies, hk, hc, rfl⟩ := he
    exact hc.tidy h hk
  | free k =>
    obtain ⟨t, n, hc, -, rfl⟩ := he
    exact (hc.tidy h).remove
  | openFile | opendir | pipe | close | readFile | fstat => exact Changes.tidy he h

theorem State.Tidy.world (h : s.Tidy) (node : ℕ → FsNode) : State.Tidy { s with node := node } where
  array k l hl := (h.array k l hl).keep le_rfl (fun _ _ => rfl) (h.array k l hl).dup
  fresh := h.fresh
  good := h.good

theorem Step.tidy (hs : Step Op.InBounds s s') (h : s.Tidy) : s'.Tidy := by
  obtain ⟨op, t, node, ha, hb, hexec, rfl⟩ := hs
  have he : op.Effect s t := (Op.exec_spec (E := fun _ _ => True) h ha hb).ok hexec
  exact (he.tidy h).world node

/-- **The descriptor table stays in bounds**: in every run whose calls meet the condition, every
access so far was to a slot of the array, and every index that `fd_alloc` has returned was that of
an empty slot; no array is longer than `MAX_OPEN_FILES`; and the next call that meets the
condition returns, too. -/
theorem accesses_in_bounds (h : s.Tidy) (hr : Reach (Step Op.InBounds) s s') :
    (∀ a ∈ s'.trace, a.Good) ∧ (∀ k files, s'.files k = some files → files.length ≤ maxOpenFiles) ∧
      ∀ op : Op, op.Allowed s' → op.InBounds s' → ∃ t, op.exec s' = .ok () t ∧
        ∀ a ∈ t.trace, a.Good := by
  have h' : s'.Tidy := hr.invariant (fun _ _ h hs => hs.tidy h) h
  refine ⟨h'.good, fun k files hk => (h'.array k files hk).len, fun op ha hb => ?_⟩
  obtain ⟨⟨⟩, t, hexec, he⟩ := (Op.exec_spec h' ha hb).returns
  exact ⟨t, hexec, (he.tidy h').good⟩

end

/-- The first process: its first three descriptors are open, on node 1. -/
def boot : State where
  file := fun _ => { File.zero with fsNode := 1 }
  frees := fun _ => 0
  nextFile := 3
  node := fun _ => ⟨fsChardevice, 0⟩
  files := fun k => if k = 0 then some [some 0, some 1, some 2, none, none, none] else none
  nextTask := 1
  trace := []

theorem boot_files {k : ℕ} {files : List (Option ℕ)} (hk : boot.files k = some files) :
    k = 0 ∧ files = [some 0, some 1, some 2, none, none, none] := by
  unfold boot at hk
  dsimp only at hk
  split at hk
  · exact ⟨‹_›, (Option.some.inj hk).symm⟩
  · cases hk

theorem boot_tidy : boot.Tidy where
  array k files hk := by
    obtain ⟨rfl, rfl⟩ := boot_files hk
    refine ⟨by decide, by decide, fun f hf => ?_, fun f _ => Nat.one_ne_zero, fun f _ => le_rfl⟩
    simp only [List.mem_cons, Option.some.injEq, reduceCtorEq, List.not_mem_nil, or_false] at hf
    show f < 3
    omega
  fresh k hk := if_neg (by change 1 ≤ k at hk; omega)
  good := by simp [boot]

theorem Op.exec_of_returned {op : Op} {s : State} (h : (op.exec s).returned = true) :
    op.exec s = .ok () (op.exec s).state :=
  Outcome.eq_ok_of_returned h

/-- A process opens a file, and makes a pipe. -/
theorem accesses_in_bounds_pipe : ∃ s', Reach (Step Op.InBounds) boot s' ∧
    s'.files 0 = some [some 0, some 1, some 2, some 3, some 4, some 5] ∧
      ∀ a ∈ s'.trace, a.Good := by
  have hok : ((Op.openFile 0 ⟨0, 2⟩ 0 0).exec boot).returned = true := by decide +kernel
  have hfiles : ((Op.openFile 0 ⟨0, 2⟩ 0 0).exec boot).state.files 0 =
    some [some 0, some 1, some 2, some 3, none, none] := by
    decide +kernel
  have hok' :
    ((Op.pipe 0 3 4).exec ((Op.openFile 0 ⟨0, 2⟩ 0 0).exec boot).state).returned = true := by
    decide +kernel
  have hfiles' : ((Op.pipe 0 3 4).exec ((Op.openFile 0 ⟨0, 2⟩ 0 0).exec boot).state).state.files 0 =
    some [some 0, some 1, some 2, some 3, some 4, some 5] := by decide +kernel
  have hexec := Op.exec_of_returned hok
  have hexec' := Op.exec_of_returned hok'
  generalize ((Op.openFile 0 ⟨0, 2⟩ 0 0).exec boot).state = s₁ at *
  generalize ((Op.pipe 0 3 4).exec s₁).state = s₂ at *
  have hstep : Step Op.InBounds boot s₁ := by
    refine ⟨.openFile 0 ⟨0, 2⟩ 0 0, s₁, s₁.node, ⟨by decide, trivial⟩,
      fun files hk => ?_, hexec, rfl⟩
    obtain ⟨-, rfl⟩ := boot_files hk
    show 3 + 1 ≤ 64
    omega
  have hstep' : Step Op.InBounds s₁ s₂ := by
    have hlive : s₁.files 0 ≠ none := by rw [hfiles]; simp
    refine ⟨.pipe 0 3 4, s₂, s₂.node, ⟨hlive, by decide, by decide⟩,
      fun files hk => ?_, hexec', rfl⟩
    rw [hfiles] at hk
    obtain rfl := Option.some.inj hk
    show 4 + 2 ≤ 64
    omega
  have hrun := (Relation.ReflTransGen.single hstep).tail hstep'
  exact ⟨s₂, hrun, hfiles', (accesses_in_bounds boot_tidy hrun).1⟩

/-- **An index out of bounds**: `sys_opendir` of a name that is not there reads `files[-1]`. -/
theorem opendir_out_of_bounds :
    ∃ op : Op, boot.Tidy ∧ op.Allowed boot ∧ (op.exec boot).returned = false ∧
    ∃ a ∈ (op.exec boot).state.trace, ¬a.Good := by
  have hhalt : ((Op.opendir 0 ⟨-1, 0⟩).exec boot).returned = false := by decide +kernel
  have hmem : Access.slot (-1) 6 ∈ ((Op.opendir 0 ⟨-1, 0⟩).exec boot).state.trace := by
    decide +kernel
  exact ⟨_, boot_tidy, ⟨by decide, trivial⟩, hhalt, _, hmem, fun h => absurd h.1 (by decide)⟩

end Cosiris.Descriptors
