import Cosiris.Kernel.Files
import Cosiris.Lib.Runs
import Cosiris.Pipe.Buffer
import Mathlib.Algebra.Order.BigOperators.Group.List
import Mathlib.Algebra.Order.Group.Nat

/-!
# Pipe ends and descriptors

`sys_pipe`, `sys_dup`, `sys_close`, `fork_int` and `task_free` as they handle
descriptors: the `files` arrays of all tasks, the `struct file` records they
point to, and the pipes. Each pipe counts its open ends in `readers` and
`writers`; the counts are meant to be the numbers of slots, over all tasks, that
refer to the two ends. `pipe_open`, `fork_int` and `pipe_close` adjust them;
`sys_dup` goes through `fs_dup`, which does not (`dup_breaks_counts`). As long
as no end of a pipe is duplicated, the counts are exact.
-/

namespace Cosiris.Pipe

/-- The two ends of a pipe. -/
inductive End where
  | rd
  | wr
  deriving DecidableEq

/-- What a descriptor refers to: an end of a pipe (by the pipe's number), or any other
`fs_node`. -/
inductive Node where
  | pipe (e : End) (p : ℕ)
  | other (n : ℕ)
  deriving DecidableEq

/-- `struct file`, as far as its node and its sharing go. -/
structure File where
  /-- `fs_node`. -/
  node : Node
  /-- `dup_cnt`. -/
  dupCnt : ℤ

/-- A task, as far as its descriptors go. -/
structure Task where
  /-- `pid`. -/
  pid : ℕ
  /-- `files`: pointers to `struct file`s. -/
  files : List (Option ℕ)

/-- The count of an end. -/
def VfsPipe.count (p : VfsPipe) : End → UInt32
  | .rd => p.readers
  | .wr => p.writers

/-- The pipe with another count of an end. -/
def VfsPipe.setCount (p : VfsPipe) (e : End) (c : UInt32) : VfsPipe :=
  match e with
  | .rd => { p with readers := c }
  | .wr => { p with writers := c }

@[simp] theorem VfsPipe.count_setCount_self (p : VfsPipe) (e : End) (c : UInt32) :
    (p.setCount e c).count e = c := by cases e <;> rfl

theorem VfsPipe.count_setCount_ne (p : VfsPipe) {e e' : End} (c : UInt32) (h : e' ≠ e) :
    (p.setCount e c).count e' = p.count e' := by
      cases e <;> cases e' <;> first | rfl | exact absurd rfl h

/-- The descriptors of the whole system. -/
structure Ends where
  /-- The pipes, by number. -/
  pipe : ℕ → VfsPipe
  /-- The pipes that have been freed. -/
  freed : ℕ → Bool
  /-- The number of the next pipe. -/
  nextPipe : ℕ
  /-- `ref_count` of every node. -/
  refCount : Node → ℤ
  /-- The `struct file`s, by address. -/
  file : ℕ → File
  /-- The next address. -/
  nextFile : ℕ
  /-- The tasks that have not been freed. -/
  tasks : List Task
  /-- `next_pid`. -/
  nextPid : ℕ
  /-- A count was decremented when it was `0`. -/
  underflow : Bool

abbrev Kern := Prog Halt Ends

open Prog

/-! ### The code -/

/-- `fs_dup`: one more reference to the node, whatever it is. -/
def fsDup (n : Node) : Kern Unit :=
  modify fun s => { s with refCount := Function.update s.refCount n (s.refCount n + 1) }

/-- One more open end: the increment `pipe_open` and `fork_int` make. -/
def countUp (e : End) (p : ℕ) : Kern Unit :=
  modify fun s =>
    { s with pipe := Function.update s.pipe p ((s.pipe p).setCount e ((s.pipe p).count e + 1)) }

/-- `pipe_open` of an end, in the mode of that end. -/
def pipeOpen (e : End) (p : ℕ) : Kern Unit := do
  fsDup (.pipe e p)
  countUp e p

/-- `pipe_close`: one open end less, and the pipe freed when both counts are `0`. -/
def pipeClose (e : End) (p : ℕ) : Kern Unit := do
  if (← read).freed p then halt .fault
  modify fun s =>
    { s with pipe := Function.update s.pipe p ((s.pipe p).setCount e ((s.pipe p).count e - 1))
             refCount := Function.update s.refCount (.pipe e p) (s.refCount (.pipe e p) - 1)
             underflow := s.underflow || decide ((s.pipe p).count e = 0) }
  let s ← read
  if (s.pipe p).readers = 0 ∧ (s.pipe p).writers = 0 then
    modify fun s => { s with freed := Function.update s.freed p true }

/-- `fs_close`: the node's own `close`; a node that is no pipe is only released. -/
def fsClose : Node → Kern Unit
  | .pipe e p => pipeClose e p
  | .other n =>
      modify fun s =>
        { s with refCount := Function.update s.refCount (.other n) (s.refCount (.other n) - 1) }

/-- The `files` of task `k`. -/
def filesOf (k : ℕ) : Kern (List (Option ℕ)) := do
  match (← read).tasks[k]? with
  | some t => pure t.files
  | none => halt .fault

/-- The state with other `files` of task `k`. -/
def Ends.withFiles (s : Ends) (k : ℕ) (files : List (Option ℕ)) : Ends :=
  { s with tasks := s.tasks.modify k fun t => { t with files := files } }

/-- Change the `files` of task `k`. -/
def setFiles (k : ℕ) (files : List (Option ℕ)) : Kern Unit := modify fun s => s.withFiles k files

/-- `fd_alloc`, for task `k`. -/
def fdAllocFor (k : ℕ) : Kern (Option ℕ) := do
  let files ← filesOf k
  setFiles k (fdAlloc files).2
  pure (fdAlloc files).1

/-- `current_task->files[fd] = f`, in bounds or not. -/
def storeFile (k : ℕ) (fd : Option ℕ) (f : Option ℕ) : Kern Unit := do
  let files ← filesOf k
  match fd with
  | some i => if i < files.length then setFiles k (files.set i f) else halt .fault
  | none => halt .fault

/-- `file_alloc`, with the node filled in. -/
def fileAlloc (file : File) : Kern ℕ := do
  let s ← read
  modify fun s =>
    { s with file := Function.update s.file s.nextFile file, nextFile := s.nextFile + 1 }
  pure s.nextFile

/-- `pipe_new`: a pipe with no open end yet, and its two nodes without references. -/
def pipeNewAt (buf : ℕ → UInt8) : Kern ℕ := do
  let s ← read
  modify fun s =>
    { s with pipe := Function.update s.pipe s.nextPipe (pipeNew buf 0 0)
             freed := Function.update s.freed s.nextPipe false
             refCount := Function.update (Function.update s.refCount (.pipe .rd s.nextPipe) 0)
               (.pipe .wr s.nextPipe) 0
             nextPipe := s.nextPipe + 1 }
  pure s.nextPipe

/-- The slots `sys_pipe` takes for its two files. The first `fd_alloc` is for nothing: the
second finds the same slot again. -/
def pipeSlots (k fin fout : ℕ) : Kern Unit := do
  let _ ← fdAllocFor k
  let i ← fdAllocFor k
  storeFile k i (some fin)
  let o ← fdAllocFor k
  storeFile k o (some fout)

/-- `sys_pipe`, for task `k`; `buf` is what `malloc` gives. -/
def sysPipe (buf : ℕ → UInt8) (k : ℕ) : Kern ℤ := do
  let p ← pipeNewAt buf
  let fin ← fileAlloc ⟨.pipe .rd p, 0⟩
  let fout ← fileAlloc ⟨.pipe .wr p, 0⟩
  pipeSlots k fin fout
  pipeOpen .rd p
  pipeOpen .wr p
  pure 0

/-- `sys_dup`, for task `k`. -/
def sysDup (k : ℕ) (oldfd : ℕ) : Kern ℤ := do
  let files ← filesOf k
  match files[oldfd]? with
  | some (some f) =>
    let fd ← fdAllocFor k
    match fd with
    | none => pure (-1)
    | some i =>
      storeFile k fd (some f)
      let s ← read
      fsDup (s.file f).node
      modify fun s =>
        { s with
          file := Function.update s.file f { s.file f with dupCnt := (s.file f).dupCnt + 1 } }
      pure i
  | _ => pure (-1)

/-- What `fork_int` does for the node of a copied slot: `fs_dup`, and the count when it is
an end of a pipe. -/
def forkDup (n : Node) : Kern Unit := do
  fsDup n
  match n with
  | .pipe e p => countUp e p
  | .other _ => pure ()

/-- The loop of `fork_int` over the parent's slots: a copy of every `struct file`. -/
def forkFiles : List (Option ℕ) → Kern (List (Option ℕ))
  | [] => pure []
  | none :: fs => do
    let rest ← forkFiles fs
    pure (none :: rest)
  | some f :: fs => do
    let s ← read
    let g ← fileAlloc (s.file f)
    forkDup (s.file f).node
    let rest ← forkFiles fs
    pure (some g :: rest)

/-- `fork_int`, of task `k`. -/
def forkInt (k : ℕ) : Kern ℤ := do
  let files ← filesOf k
  let s ← read
  modify fun s => { s with nextPid := s.nextPid + 1 }
  let copies ← forkFiles files
  modify fun t => { t with tasks := t.tasks ++ [⟨s.nextPid, copies⟩] }
  pure s.nextPid

/-- Release a `struct file`: it is freed when `dup_cnt` is `0`, and stays otherwise. -/
def dropFile (f : ℕ) : Kern Unit :=
  modify fun s =>
    if (s.file f).dupCnt = 0 then s
    else { s with
           file := Function.update s.file f { s.file f with dupCnt := (s.file f).dupCnt - 1 } }

/-- `sys_close`, for task `k`. A descriptor equal to `num_files` passes the test of
`fd_is_valid` and is read past the end of the array. -/
def sysClose (k : ℕ) (fd : ℤ) : Kern ℤ := do
  let files ← filesOf k
  if fd > files.length then pure (-1)
  else if fd < 0 then pure (-1)
  else
    match files[fd.toNat]? with
    | none => halt .fault
    | some none => pure (-1)
    | some (some f) =>
      let s ← read
      if (s.file f).dupCnt < 0 then pure (-1)
      else
        fsClose (s.file f).node
        dropFile f
        storeFile k (some fd.toNat) none
        pure 0

/-- The loop of `task_free` over the slots. -/
def closeFiles : List (Option ℕ) → Kern Unit
  | [] => pure ()
  | none :: fs => closeFiles fs
  | some f :: fs => do
    let s ← read
    fsClose (s.file f).node
    dropFile f
    closeFiles fs

/-- `task_free`, of task `k`. -/
def taskFree (k : ℕ) : Kern ℤ := do
  let files ← filesOf k
  closeFiles files
  modify fun s => { s with tasks := s.tasks.eraseIdx k }
  pure 0

/-- The operations on descriptors, each by the task in position `k`. -/
inductive EndOp where
  | pipe (buf : ℕ → UInt8) (k : ℕ)
  | dup (k oldfd : ℕ)
  | fork (k : ℕ)
  | close (k : ℕ) (fd : ℤ)
  | free (k : ℕ)

/-- What an operation runs. -/
def EndOp.exec : EndOp → Kern ℤ
  | .pipe buf k => sysPipe buf k
  | .dup k oldfd => sysDup k oldfd
  | .fork k => forkInt k
  | .close k fd => sysClose k fd
  | .free k => taskFree k

/-! ### Counting slots -/

/-- The slot refers to node `n`. -/
def points (file : ℕ → File) (n : Node) : Option ℕ → Bool
  | some f => decide ((file f).node = n)
  | none => false

/-- How many of the slots refer to node `n`. -/
def refs (file : ℕ → File) (n : Node) (files : List (Option ℕ)) : ℕ := files.countP (points file n)

/-- How many slots, over all tasks, refer to node `n`. -/
def Ends.slots (s : Ends) (n : Node) : ℕ := (s.tasks.map fun t => refs s.file n t.files).sum

/-- How many slots, over all tasks, are open. -/
def Ends.opens (s : Ends) : ℕ := (s.tasks.map fun t => openFiles t.files).sum

/-- The counts of the pipes are `c`: no count has gone below `0`, and a pipe is freed
exactly when both its counts are `0`. -/
structure Counts (s : Ends) (c : Node → ℕ) : Prop where
  count : ∀ p < s.nextPipe, ∀ e, ((s.pipe p).count e).toNat = c (.pipe e p)
  under : s.underflow = false
  freed : ∀ p < s.nextPipe, (s.freed p = true ↔ c (.pipe .rd p) = 0 ∧ c (.pipe .wr p) = 0)
  fresh : ∀ p, s.nextPipe ≤ p → ∀ e, c (.pipe e p) = 0

/-- **The ends are accounted for**: `readers` and `writers` of every pipe are the numbers
of slots that refer to its ends, no count has gone below `0`, and a pipe is freed
exactly when both its counts are `0` and no slot refers to it. -/
def Ends.Balanced (s : Ends) : Prop := Counts s s.slots

/-- The pointers of the tables are good, and the tables are no longer than they may be. -/
structure Ends.Wf (s : Ends) : Prop where
  ptr : ∀ t ∈ s.tasks, ∀ f, some f ∈ t.files → f < s.nextFile
  pos : ∀ t ∈ s.tasks, 0 < t.files.length
  len : ∀ t ∈ s.tasks, t.files.length ≤ maxOpenFiles

/-- No pipe has been made yet. -/
structure Ends.Start (s : Ends) : Prop where
  wf : s.Wf
  pipes : s.nextPipe = 0
  nodes : ∀ t ∈ s.tasks, ∀ f, some f ∈ t.files → ∀ e p, (s.file f).node ≠ .pipe e p
  under : s.underflow = false

/-- The task in position `k` may do the operation with its descriptors: a duplicated
descriptor is no end of a pipe, and new descriptors fit in the table. -/
def EndOp.Careful (s : Ends) : EndOp → Prop
  | .pipe _ k => ∃ t, s.tasks[k]? = some t ∧ openFiles t.files + 2 ≤ maxOpenFiles
  | .dup k oldfd => ∃ t, s.tasks[k]? = some t ∧ openFiles t.files + 1 ≤ maxOpenFiles ∧
      ∀ f, t.files[oldfd]? = some (some f) → ∀ e p, (s.file f).node ≠ .pipe e p
  | .fork k => ∃ t, s.tasks[k]? = some t
  | .close k fd => ∃ t, s.tasks[k]? = some t ∧ fd ≠ t.files.length
  | .free k => ∃ t, s.tasks[k]? = some t

/-- The slots of all tasks are fewer than `2³²`, also after one more operation: each is a
pointer of four bytes in an address space of `2³²`. -/
def Ends.Fits (s : Ends) : Prop := s.opens + maxOpenFiles < 2 ^ 32

/-- A careful operation that returns. -/
def Ends.CarefulStep (s t : Ends) : Prop :=
  ∃ op, EndOp.Careful s op ∧ s.Fits ∧ ∃ r, op.exec s = .ok r t

/-- Only the nodes of the slots matter. -/
theorem refs_congr {file file' : ℕ → File} {l : List (Option ℕ)} (n : Node)
    (h : ∀ f, some f ∈ l → (file' f).node = (file f).node) : refs file' n l = refs file n l := by
  refine List.countP_congr fun o ho => ?_
  cases o with
  | none => rfl
  | some f => simp [points, h f ho]

@[simp] theorem refs_cons_none (file : ℕ → File) (n : Node) (l : List (Option ℕ)) :
    refs file n (none :: l) = refs file n l := by simp [refs, points]

theorem refs_cons_some (file : ℕ → File) (n : Node) (f : ℕ) (l : List (Option ℕ)) :
    refs file n (some f :: l) = refs file n l + if (file f).node = n then 1 else 0 := by
  simp [refs, points, List.countP_cons]

theorem refs_append_replicate (file : ℕ → File) (n : Node) (l : List (Option ℕ)) (k : ℕ) :
    refs file n (l ++ List.replicate k none) = refs file n l := by
  simp [refs, List.countP_append, points]

theorem openFiles_append_replicate (l : List (Option ℕ)) (k : ℕ) :
    openFiles (l ++ List.replicate k none) = openFiles l := by
  simp [openFiles, List.countP_append]

theorem refs_le_openFiles (file : ℕ → File) (n : Node) (l : List (Option ℕ)) :
    refs file n l ≤ openFiles l := by
  refine List.countP_mono_left fun o _ ho => ?_
  cases o <;> simp_all [points]

/-- Storing into a free slot. -/
theorem refs_set_none {file : ℕ → File} {n : Node} {l : List (Option ℕ)} {i : ℕ} (f : ℕ)
    (h : l[i]? = some none) :
    refs file n (l.set i (some f)) = refs file n l + if (file f).node = n then 1 else 0 := by
  induction l generalizing i with
  | nil => simp at h
  | cons o l ih =>
    cases i with
    | zero =>
      simp only [List.getElem?_cons_zero, Option.some.injEq] at h
      subst h
      rw [List.set_cons_zero, refs_cons_some, refs_cons_none]
    | succ i =>
      rw [List.set_cons_succ]
      have := ih (i := i) (by simpa using h)
      cases o with
      | none => simpa using this
      | some g => rw [refs_cons_some, refs_cons_some, this]; omega

/-- Clearing a slot. -/
theorem refs_set_some {file : ℕ → File} {n : Node} {l : List (Option ℕ)} {i f : ℕ}
    (h : l[i]? = some (some f)) :
    refs file n l = refs file n (l.set i none) + if (file f).node = n then 1 else 0 := by
  have hi : (l.set i none)[i]? = some none := by
    rw [List.getElem?_set_self]
    exact (List.getElem?_eq_some_iff.mp h).1
  have hset := @refs_set_none file n _ i f hi
  rw [List.set_set] at hset
  rw [← hset]
  congr 1
  refine List.ext_getElem? fun j => ?_
  by_cases hj : i = j
  · subst hj
    rw [h, List.getElem?_set_self (List.getElem?_eq_some_iff.mp h).1]
  · rw [List.getElem?_set_ne hj]

/-! ### What the operations do to the counts -/

/-- The tables are left alone: tasks, addresses and nodes of the `struct file`s. -/
structure SameTables (s t : Ends) : Prop where
  tasks : t.tasks = s.tasks
  node : ∀ f, (t.file f).node = (s.file f).node
  nextFile : t.nextFile = s.nextFile
  nextPipe : t.nextPipe = s.nextPipe

theorem toNat_sub_one {x : UInt32} (h : 0 < x.toNat) : (x - 1).toNat = x.toNat - 1 := by
  have := x.toNat_lt
  rw [UInt32.toNat_sub, UInt32.toNat_one]
  omega

theorem toNat_add_one {x : UInt32} (h : x.toNat + 1 < 2 ^ 32) : (x + 1).toNat = x.toNat + 1 := by
  rw [UInt32.toNat_add, UInt32.toNat_one]
  omega

theorem toNat_eq_zero {x : UInt32} : x.toNat = 0 ↔ x = 0 := by
  rw [← UInt32.toNat_inj]
  rfl

/-- A new count of one end, with the pipe freed exactly when both counts are `0`. -/
theorem Counts.setCount {s t : Ends} {c : Node → ℕ} (h : Counts s c) {e : End} {p : ℕ}
    (hp : p < s.nextPipe)
    {v : UInt32} (hpipe : t.pipe = Function.update s.pipe p ((s.pipe p).setCount e v))
    (hnext : t.nextPipe = s.nextPipe) (hunder : t.underflow = false)
    (hne : ∀ q, q ≠ p → t.freed q = s.freed q)
    (hfreed : t.freed p = true ↔ (t.pipe p).readers = 0 ∧ (t.pipe p).writers = 0) :
    Counts t (Function.update c (.pipe e p) v.toNat) := by
  have hcount : ∀ q < s.nextPipe, ∀ e', ((t.pipe q).count e').toNat =
      Function.update c (.pipe e p) v.toNat (.pipe e' q) := by
    intro q hq e'
    by_cases hqp : q = p
    · subst hqp
      by_cases hee : e' = e
      · subst hee
        rw [hpipe, Function.update_self, Function.update_self, VfsPipe.count_setCount_self]
      · rw [hpipe, Function.update_self, VfsPipe.count_setCount_ne _ _ hee,
          Function.update_of_ne (by simp [hee])]
        exact h.count q hq e'
    · rw [hpipe, Function.update_of_ne hqp, Function.update_of_ne (by simp [hqp])]
      exact h.count q hq e'
  refine ⟨fun q hq => hcount q (by omega), hunder, fun q hq => ?_, fun q hq e' => ?_⟩
  · by_cases hqp : q = p
    · subst hqp
      rw [hfreed, ← hcount q hp .rd, ← hcount q hp .wr, toNat_eq_zero, toNat_eq_zero]
      rfl
    · rw [hne q hqp, Function.update_of_ne (by simp [hqp]), Function.update_of_ne (by simp [hqp])]
      exact h.freed q (by omega)
  · rw [Function.update_of_ne (by simp only [ne_eq, Node.pipe.injEq, not_and]; omega)]
    exact h.fresh q (by omega) e'

/-- Only the pipes and the counts of their ends matter. -/
theorem Counts.congr {s t : Ends} {c c' : Node → ℕ} (h : Counts s c) (hpipe : t.pipe = s.pipe)
    (hnext : t.nextPipe = s.nextPipe) (hunder : t.underflow = s.underflow)
    (hfreed : t.freed = s.freed) (hc : ∀ e p, c' (.pipe e p) = c (.pipe e p)) : Counts t c' := by
  refine ⟨fun p hp e => ?_, hunder.trans h.under, fun p hp => ?_, fun p hp e => ?_⟩
  · rw [hc, hpipe]
    exact h.count p (by omega) e
  · rw [hc, hc, hfreed]
    exact h.freed p (by omega)
  · rw [hc]
    exact h.fresh p (by omega) e

/-- A pipe one of whose ends is referred to exists and is not freed. -/
theorem Counts.live {s : Ends} {c : Node → ℕ} (h : Counts s c) {e : End} {p : ℕ}
    (hn : 0 < c (.pipe e p)) :
    p < s.nextPipe ∧ s.freed p = false := by
  have hp : p < s.nextPipe := by
    by_contra hle
    have := h.fresh p (by omega) e
    omega
  refine ⟨hp, ?_⟩
  rw [← Bool.not_eq_true, h.freed p hp]
  cases e <;> omega

/-- **Closing** a node that is referred to takes one from its count. -/
theorem fsClose_spec {s : Ends} {c : Node → ℕ} (h : Counts s c) {n : Node} (hn : 0 < c n) :
    wp (fsClose n) (fun _ t => Counts t (Function.update c n (c n - 1)) ∧ SameTables s t)
      (fun _ _ => False) s := by
  cases n with
  | other n => exact ⟨h.congr rfl rfl rfl rfl fun e p => by simp, rfl, fun _ => rfl, rfl, rfl⟩
  | pipe e p =>
    obtain ⟨hp, hfreed⟩ := h.live hn
    have hcount := h.count p hp e
    have hne : (s.pipe p).count e ≠ 0 := by
      rw [ne_eq, ← toNat_eq_zero]
      omega
    have hsub : ((s.pipe p).count e - 1).toNat = c (.pipe e p) - 1 := by
      rw [toNat_sub_one (by omega), hcount]
    rw [← hsub]
    simp only [fsClose, pipeClose, wp_bind, wp_read, wp_ite, hfreed, Bool.false_eq_true, if_false,
      wp_pure, wp_modify]
    split_ifs with hz
    · refine ⟨h.setCount hp rfl rfl (by simp [h.under, hne]) (fun q hq => ?_) ?_, rfl, fun _ => rfl,
        rfl, rfl⟩
      · simp [Function.update_of_ne hq]
      · simpa using hz
    · refine ⟨h.setCount hp rfl rfl (by simp [h.under, hne]) (fun q hq => rfl) ?_,
        rfl, fun _ => rfl,
        rfl, rfl⟩
      simpa [hfreed] using hz

/-- **Counting up** an end that is referred to adds one to its count. -/
theorem countUp_spec {s : Ends} {c : Node → ℕ} (h : Counts s c) {e : End} {p : ℕ}
    (hn : 0 < c (.pipe e p))
    (hlt : c (.pipe e p) + 1 < 2 ^ 32) :
    wp (countUp e p) (fun _ t => Counts t (Function.update c (.pipe e p) (c (.pipe e p) + 1)) ∧
      SameTables s t)
      (fun _ _ => False) s := by
  obtain ⟨hp, hfreed⟩ := h.live hn
  have hcount := h.count p hp e
  have hadd : ((s.pipe p).count e + 1).toNat = c (.pipe e p) + 1 := by
    rw [toNat_add_one (by omega), hcount]
  rw [← hadd]
  refine ⟨h.setCount hp rfl rfl h.under (fun q hq => rfl) ?_, rfl, fun _ => rfl, rfl, rfl⟩
  have hpos : ((s.pipe p).setCount e ((s.pipe p).count e + 1)).count e ≠ 0 := by
    rw [VfsPipe.count_setCount_self, ne_eq, ← toNat_eq_zero, hadd]
    omega
  simp only [hfreed, Bool.false_eq_true, false_iff, Function.update_self]
  rintro ⟨h0, h1⟩
  cases e
  · exact hpos h0
  · exact hpos h1

/-- A reference that is only `fs_dup`'s does not show in the counts. -/
theorem fsDup_spec {s : Ends} {c : Node → ℕ} (h : Counts s c) (n : Node) :
    wp (fsDup n) (fun _ t => Counts t c ∧ SameTables s t) (fun _ _ => False) s :=
  ⟨⟨h.count, h.under, h.freed, h.fresh⟩, rfl, fun _ => rfl, rfl, rfl⟩

theorem SameTables.trans {s t u : Ends} (h : SameTables s t) (h' : SameTables t u) :
    SameTables s u :=
  ⟨h'.tasks.trans h.tasks, fun f => (h'.node f).trans (h.node f), h'.nextFile.trans h.nextFile,
    h'.nextPipe.trans h.nextPipe⟩

theorem dropFile_spec {s : Ends} {c : Node → ℕ} (h : Counts s c) (f : ℕ) :
    wp (dropFile f) (fun _ t => Counts t c ∧ SameTables s t) (fun _ _ => False) s := by
  simp only [dropFile, wp_modify]
  split_ifs
  · exact ⟨h, rfl, fun _ => rfl, rfl, rfl⟩
  · refine ⟨⟨h.count, h.under, h.freed, h.fresh⟩, rfl, fun g => ?_, rfl, rfl⟩
    by_cases hg : g = f
    · subst hg
      simp
    · simp [Function.update_of_ne hg]

/-- `task_free` takes from every count the slots it closes. -/
theorem closeFiles_spec (l : List (Option ℕ)) {s : Ends} {c : Node → ℕ} (h : Counts s c)
    (hle : ∀ n, refs s.file n l ≤ c n) :
    wp (closeFiles l) (fun _ t => Counts t (fun n => c n - refs s.file n l) ∧ SameTables s t)
      (fun _ _ => False) s := by
  induction l generalizing s c with
  | nil => exact ⟨by simpa [refs] using h, rfl, fun _ => rfl, rfl, rfl⟩
  | cons o l ih =>
    cases o with
    | none => simpa [closeFiles] using ih h (by simpa using hle)
    | some f =>
      have hpos : 0 < c (s.file f).node := by
        have := hle (s.file f).node
        rw [refs_cons_some, if_pos rfl] at this
        omega
      simp only [closeFiles, wp_bind, wp_read]
      refine (fsClose_spec h hpos).mono (fun _ t ht => ?_) fun _ _ hf => hf
      refine (dropFile_spec ht.1 f).mono (fun _ u hu => ?_) fun _ _ hf => hf
      have hsu := ht.2.trans hu.2
      have hrefs : ∀ n, refs u.file n l = refs s.file n l :=
        fun n => refs_congr n fun f _ => hsu.node f
      refine (ih hu.1 fun n => ?_).mono (fun _ v hv => ⟨?_, hsu.trans hv.2⟩) fun _ _ hf => hf
      · have := hle n
        rw [refs_cons_some] at this
        rw [hrefs]
        by_cases hn : (s.file f).node = n
        · subst hn
          rw [if_pos rfl] at this
          rw [Function.update_self]
          omega
        · rw [if_neg hn] at this
          rw [Function.update_of_ne (Ne.symm hn)]
          omega
      · refine (funext fun n => ?_ : (fun n => c n - refs s.file n (some f :: l)) = _) ▸ hv.1
        rw [hrefs, refs_cons_some]
        by_cases hn : (s.file f).node = n
        · subst hn
          rw [if_pos rfl, Function.update_self]
          omega
        · rw [if_neg hn, Function.update_of_ne (Ne.symm hn)]
          rfl

theorem forkDup_spec {s : Ends} {c : Node → ℕ} (h : Counts s c) {n : Node} (hn : 0 < c n)
    (hlt : c n + 1 < 2 ^ 32) :
    wp (forkDup n) (fun _ t => Counts t (fun m => c m + if n = m then 1 else 0) ∧ SameTables s t)
      (fun _ _ => False) s := by
  have hupd : (fun m => c m + if n = m then 1 else 0) = Function.update c n (c n + 1) := by
    funext m
    by_cases hm : n = m
    · subst hm
      simp
    · simp [hm, Function.update_of_ne (Ne.symm hm)]
  rw [hupd]
  simp only [forkDup, wp_bind]
  refine (fsDup_spec h n).mono (fun _ t ht => ?_) fun _ _ hf => hf
  cases n with
  | other n => exact ⟨ht.1.congr rfl rfl rfl rfl fun e p => by simp, ht.2⟩
  | pipe e p =>
    refine (countUp_spec ht.1 hn hlt).mono (fun _ u hu => ⟨hu.1, ht.2.trans hu.2⟩) fun _ _ hf => hf

/-- What the copies of `fork_int` are: new `struct file`s with the parent's nodes. -/
structure Copies (s t : Ends) (l copies : List (Option ℕ)) : Prop where
  tasks : t.tasks = s.tasks
  old : ∀ f < s.nextFile, (t.file f).node = (s.file f).node
  next : s.nextFile ≤ t.nextFile
  ptr : ∀ f, some f ∈ copies → f < t.nextFile
  refs : ∀ n, refs t.file n copies = refs s.file n l
  length : copies.length = l.length
  opens : openFiles copies = openFiles l
  nextPipe : t.nextPipe = s.nextPipe

/-- `fork_int` adds to every count the slots it copies. -/
theorem forkFiles_spec (l : List (Option ℕ)) {s : Ends} {c : Node → ℕ} (h : Counts s c)
    (hptr : ∀ f, some f ∈ l → f < s.nextFile) (hpos : ∀ f, some f ∈ l → 0 < c (s.file f).node)
    (hfit : ∀ n, c n + openFiles l < 2 ^ 32) :
    wp (forkFiles l) (fun copies t => Counts t (fun n => c n + refs s.file n l) ∧
      Copies s t l copies)
      (fun _ _ => False) s := by
  induction l generalizing s c with
  | nil =>
      exact ⟨by simpa [refs] using h, rfl, fun _ _ => rfl, le_rfl, by simp, fun _ => rfl,
        rfl, rfl, rfl⟩
  | cons o l ih =>
    cases o with
    | none =>
      simp only [forkFiles, wp_bind, wp_pure]
      refine (ih h (fun f hf => hptr f (by simp [hf])) (fun f hf => hpos f (by simp [hf]))
        (fun n => by simpa [openFiles] using hfit n)).mono (fun copies t ht => ?_) fun _ _ hf => hf
      obtain ⟨hc, hcp⟩ := ht
      exact ⟨by simpa using hc, hcp.tasks, hcp.old, hcp.next,
        fun f hf => hcp.ptr f (by simpa using hf),
        fun n => by simpa using hcp.refs n, by simp [hcp.length],
        by simpa [openFiles] using hcp.opens, hcp.nextPipe⟩
    | some f =>
      have hf : f < s.nextFile := hptr f (by simp)
      have hopen : openFiles (some f :: l) = openFiles l + 1 := by simp [openFiles]
      have hs₁ : Counts { s with file := Function.update s.file s.nextFile (s.file f)
                                 nextFile := s.nextFile + 1 } c :=
        ⟨h.count, h.under, h.freed, h.fresh⟩
      simp only [forkFiles, fileAlloc, wp_bind, wp_read, wp_modify, wp_pure]
      refine (forkDup_spec hs₁ (hpos f (by simp)) ?_).mono (fun _ t ht => ?_) fun _ _ hf => hf
      · have := hfit (s.file f).node
        omega
      obtain ⟨hct, hst⟩ := ht
      have hnode : ∀ g, (t.file g).node = (Function.update s.file s.nextFile (s.file f) g).node :=
        hst.node
      have hold : ∀ g < s.nextFile, (t.file g).node = (s.file g).node := by
        intro g hg
        rw [hnode, Function.update_of_ne (Nat.ne_of_lt hg)]
      have hrefs : ∀ n, refs t.file n l = refs s.file n l := fun n =>
        refs_congr n fun g hg => hold g (hptr g (by simp [hg]))
      have hnext : t.nextFile = s.nextFile + 1 := hst.nextFile
      refine (ih hct (fun g hg => ?_) (fun g hg => ?_) fun n => ?_).mono
        (fun copies u hu => ?_) fun _ _ hf => hf
      · have := hptr g (by simp [hg])
        omega
      · have := hpos g (by simp [hg])
        rw [hold g (hptr g (by simp [hg]))]
        omega
      · have := hfit n
        split_ifs <;> omega
      · obtain ⟨hcu, hcp⟩ := hu
        have hnew : (u.file s.nextFile).node = (s.file f).node := by
          rw [hcp.old _ (by omega), hnode, Function.update_self]
        refine ⟨?_, hcp.tasks.trans hst.tasks, fun g hg => ?_, ?_, fun g hg => ?_,
          fun n => ?_, ?_, ?_, hcp.nextPipe.trans hst.nextPipe⟩
        · refine (funext fun n => ?_ : (fun n => c n + refs s.file n (some f :: l)) = _) ▸ hcu
          rw [hrefs, refs_cons_some]
          omega
        · rw [hcp.old g (by omega), hold g hg]
        · have := hcp.next
          omega
        · rcases List.mem_cons.mp hg with hg | hg
          · cases hg
            have := hcp.next
            omega
          · exact hcp.ptr g hg
        · rw [refs_cons_some, refs_cons_some, hcp.refs, hrefs, hnew]
        · simp [hcp.length]
        · rw [hopen, ← hcp.opens]
          simp [openFiles]

/-! ### The tables -/

section Sums

variable {l : List Task} {k : ℕ} {t : Task}

theorem sum_modify (g : Task → ℕ) (f : Task → Task) (h : l[k]? = some t) :
    ((l.modify k f).map g).sum + g t = (l.map g).sum + g (f t) := by
  induction l generalizing k with
  | nil => simp at h
  | cons a l ih =>
    cases k with
    | zero =>
      simp only [List.getElem?_cons_zero, Option.some.injEq] at h
      subst h
      simp only [List.modify_zero_cons, List.map_cons, List.sum_cons]
      omega
    | succ k =>
      have := ih (k := k) (by simpa using h)
      simp only [List.modify_succ_cons, List.map_cons, List.sum_cons]
      omega

theorem sum_eraseIdx (g : Task → ℕ) (h : l[k]? = some t) :
    ((l.eraseIdx k).map g).sum + g t = (l.map g).sum := by
  induction l generalizing k with
  | nil => simp at h
  | cons a l ih =>
    cases k with
    | zero =>
      simp only [List.getElem?_cons_zero, Option.some.injEq] at h
      subst h
      simp only [List.eraseIdx_cons_zero, List.map_cons, List.sum_cons]
      omega
    | succ k =>
      have := ih (k := k) (by simpa using h)
      simp only [List.eraseIdx_cons_succ, List.map_cons, List.sum_cons]
      omega

theorem le_sum (g : Task → ℕ) (h : l[k]? = some t) : g t ≤ (l.map g).sum := by
  have := sum_eraseIdx g h
  omega

end Sums

theorem Ends.slots_le_opens (s : Ends) (n : Node) : s.slots n ≤ s.opens :=
  List.sum_le_sum fun t _ => refs_le_openFiles s.file n t.files

/-- Other `files` of one task, in a state whose nodes are the same. -/
theorem slots_withFiles {s u : Ends} {k : ℕ} {t : Task} {files : List (Option ℕ)}
    (hk : s.tasks[k]? = some t)
    (hu : u.tasks = s.tasks.modify k fun t => { t with files := files })
    (hnode : ∀ t ∈ s.tasks, ∀ f, some f ∈ t.files → (u.file f).node = (s.file f).node) (n : Node) :
    u.slots n + refs s.file n t.files = s.slots n + refs u.file n files := by
  have hmod := sum_modify (fun t => refs u.file n t.files) (fun t => { t with files := files }) hk
  have hsame : (s.tasks.map fun t => refs u.file n t.files) = s.tasks.map fun t =>
    refs s.file n t.files :=
    List.map_congr_left fun t ht => refs_congr n (hnode t ht)
  have hat : refs u.file n t.files = refs s.file n t.files :=
    refs_congr n (hnode t (List.mem_of_getElem? hk))
  rw [hsame, hat] at hmod
  unfold Ends.slots
  rw [hu]
  exact hmod

/-- The tables after other `files` of one task. -/
theorem Ends.Wf.withFiles {s u : Ends} {k : ℕ} {files : List (Option ℕ)} (h : s.Wf)
    (hu : u.tasks = s.tasks.modify k fun t => { t with files := files })
    (hnext : s.nextFile ≤ u.nextFile)
    (hptr : ∀ f, some f ∈ files → f < u.nextFile) (hpos : 0 < files.length)
    (hlen : files.length ≤ maxOpenFiles) : u.Wf := by
  have hmem : ∀ t ∈ u.tasks, t ∈ s.tasks ∨ t.files = files := by
    intro t ht
    rw [hu] at ht
    obtain ⟨i, hi⟩ := List.mem_iff_getElem?.mp ht
    rw [List.getElem?_modify] at hi
    cases hsi : s.tasks[i]? with
    | none => simp [hsi] at hi
    | some t' =>
      rw [hsi] at hi
      simp only [Option.map_eq_map, Option.map_some, Option.some.injEq] at hi
      split_ifs at hi
      · right
        rw [← hi]
      · left
        rw [← hi]
        exact List.mem_of_getElem? hsi
  refine ⟨fun t ht f hf => ?_, fun t ht => ?_, fun t ht => ?_⟩
  · rcases hmem t ht with hm | hm
    · exact lt_of_lt_of_le (h.ptr t hm f hf) hnext
    · exact hptr f (hm ▸ hf)
  · rcases hmem t ht with hm | hm
    · exact h.pos t hm
    · rw [hm]
      exact hpos
  · rcases hmem t ht with hm | hm
    · exact h.len t hm
    · rw [hm]
      exact hlen

/-- The `files` after `fd_alloc` and a store of `f` at the index it gives. -/
structure Stored (files files' : List (Option ℕ)) (f : ℕ) : Prop where
  refs : ∀ (file : ℕ → File) (n : Node),
    refs file n files' = refs file n files + if (file f).node = n then 1 else 0
  opens : openFiles files' = openFiles files + 1
  ptr : ∀ g, some g ∈ files' → g = f ∨ some g ∈ files
  pos : 0 < files'.length
  len : files.length ≤ maxOpenFiles → files'.length ≤ maxOpenFiles

theorem Stored.of_alloc {files : List (Option ℕ)} {fd : ℕ} (f : ℕ) (h : (fdAlloc files).1 = some fd)
    (hlt : fd < (fdAlloc files).2.length) : Stored files ((fdAlloc files).2.set fd (some f)) f := by
  have hfree := fdAlloc_free h hlt
  obtain ⟨k, hk⟩ := fdAlloc_files files
  refine ⟨fun file n => ?_, ?_, fun g hg => ?_, ?_, fun hlen => ?_⟩
  · rw [refs_set_none f hfree, hk, refs_append_replicate]
  · have hopen : openFiles ((fdAlloc files).2.set fd (some f)) =
      openFiles (fdAlloc files).2 + 1 := by
      have := @refs_set_none (fun _ => ⟨.other 0, 0⟩) (.other 0) _ fd f hfree
      have hall : ∀ l, Pipe.refs (fun _ => ⟨.other 0, 0⟩) (.other 0) l = openFiles l := by
        intro l
        refine List.countP_congr fun o _ => ?_
        cases o <;> simp [points]
      rw [hall, hall] at this
      simpa using this
    rw [hopen, hk, openFiles_append_replicate]
  · rcases List.mem_or_eq_of_mem_set hg with hg | hg
    · right
      rw [hk, List.mem_append] at hg
      rcases hg with hg | hg
      · exact hg
      · simp [List.mem_replicate] at hg
    · left
      exact Option.some.inj hg
  · rw [List.length_set]
    omega
  · rw [List.length_set]
    exact length_fdAlloc_le hlen

section Table

variable {s : Ends} {k : ℕ} {t : Task} (hk : s.tasks[k]? = some t)

include hk

theorem wp_filesOf (Q : List (Option ℕ) → Ends → Prop) (E : Halt → Ends → Prop) :
    wp (filesOf k) Q E s = Q t.files s := by
  simp [filesOf, hk]

theorem wp_fdAllocFor (Q : Option ℕ → Ends → Prop) (E : Halt → Ends → Prop) :
    wp (fdAllocFor k) Q E s = Q (fdAlloc t.files).1 (s.withFiles k (fdAlloc t.files).2) := by
  simp [fdAllocFor, setFiles, wp_filesOf hk]

theorem wp_storeFile (Q : Unit → Ends → Prop) (E : Halt → Ends → Prop) {i : ℕ} (f : Option ℕ)
    (hi : i < t.files.length) :
    wp (storeFile k (some i) f) Q E s = Q () (s.withFiles k (t.files.set i f)) := by
  simp [storeFile, setFiles, wp_filesOf hk, hi]

theorem tasks_withFiles (files : List (Option ℕ)) :
    (s.withFiles k files).tasks[k]? = some { t with files := files } := by
  simp [Ends.withFiles, hk]

omit hk in
@[simp] theorem withFiles_withFiles (a b : List (Option ℕ)) :
    (s.withFiles k a).withFiles k b = s.withFiles k b := by
  simp [Ends.withFiles, List.modify_modify_eq, Function.comp_def]

/-- `fd_alloc` and a store at the index it gives, with room in the table. -/
theorem alloc_store_spec (hpos : 0 < t.files.length)
    (hroom : openFiles t.files < maxOpenFiles) (f : ℕ) {Q : Unit → Ends → Prop}
    {E : Halt → Ends → Prop} (hQ : ∀ files, Stored t.files files f → Q () (s.withFiles k files)) :
    wp (fdAllocFor k) (fun fd u => wp (storeFile k fd (some f)) Q E u) E s := by
  obtain ⟨fd, hfd, hlt⟩ := fdAlloc_of_room hpos hroom
  rw [wp_fdAllocFor hk, hfd, wp_storeFile (tasks_withFiles hk _) _ _ _ hlt, withFiles_withFiles]
  exact hQ _ (.of_alloc f hfd hlt)

end Table

/-! ### What the operations keep -/

/-- The table of a task of a well-formed state. -/
theorem Ends.Wf.at {s : Ends} (h : s.Wf) {k : ℕ} {t : Task} (hk : s.tasks[k]? = some t) :
    (∀ f, some f ∈ t.files → f < s.nextFile) ∧ 0 < t.files.length ∧ t.files.length ≤ maxOpenFiles :=
  ⟨h.ptr t (List.mem_of_getElem? hk), h.pos t (List.mem_of_getElem? hk),
    h.len t (List.mem_of_getElem? hk)⟩

/-- A slot of a task counts. -/
theorem slots_pos {s : Ends} {k : ℕ} {t : Task} (hk : s.tasks[k]? = some t) {f : ℕ}
    (hf : some f ∈ t.files) :
    0 < s.slots (s.file f).node := by
  have hle : refs s.file (s.file f).node t.files ≤ s.slots (s.file f).node :=
    le_sum (fun t => refs s.file (s.file f).node t.files) hk
  have hpos : 0 < refs s.file (s.file f).node t.files :=
    List.countP_pos_iff.mpr ⟨some f, hf, by simp [points]⟩
  omega

theorem sysClose_spec {s : Ends} (hw : s.Wf) (hb : s.Balanced) {k : ℕ} {fd : ℤ}
    (hc : EndOp.Careful s (.close k fd)) :
    wp (sysClose k fd) (fun _ t => t.Wf ∧ t.Balanced) (fun _ _ => False) s := by
  obtain ⟨t, hk, hfd⟩ := hc
  obtain ⟨hptr, hpos, hlen⟩ := hw.at hk
  simp only [sysClose, wp_bind, wp_filesOf hk, wp_ite, wp_pure]
  split_ifs with h₁ h₂
  · exact ⟨hw, hb⟩
  · exact ⟨hw, hb⟩
  · have hi : fd.toNat < t.files.length := by omega
    rw [List.getElem?_eq_getElem hi]
    cases hslot : t.files[fd.toNat] with
    | none => exact ⟨hw, hb⟩
    | some f =>
      have hget : t.files[fd.toNat]? = some (some f) := by rw [List.getElem?_eq_getElem hi, hslot]
      have hmem : some f ∈ t.files := List.mem_of_getElem? hget
      simp only [wp_bind, wp_read, wp_ite, wp_pure]
      split_ifs
      · exact ⟨hw, hb⟩
      · refine (fsClose_spec hb (slots_pos hk hmem)).mono (fun _ u hu => ?_) fun _ _ hf => hf
        refine (dropFile_spec hu.1 f).mono (fun _ v hv => ?_) fun _ _ hf => hf
        have hsv := hu.2.trans hv.2
        have hkv : v.tasks[k]? = some t := by rw [hsv.tasks]; exact hk
        rw [wp_storeFile hkv _ _ _ hi]
        refine ⟨?_, ?_⟩
        · refine Ends.Wf.withFiles hw (k := k) (by simp only [Ends.withFiles, hsv.tasks]; rfl)
            (by simp only [Ends.withFiles, hsv.nextFile]; exact le_rfl) (fun g hg => ?_)
            (by simpa using hpos)
            (by simpa using hlen)
          rcases List.mem_or_eq_of_mem_set hg with hg | hg
          · simp only [Ends.withFiles, hsv.nextFile]
            exact hptr g hg
          · cases hg
        · refine hv.1.congr rfl rfl rfl rfl fun e p => ?_
          have hs := slots_withFiles hk (u := v.withFiles k (t.files.set fd.toNat none))
            (by simp only [Ends.withFiles, hsv.tasks]; rfl) (fun _ _ g _ => hsv.node g) (.pipe e p)
          have hclear := @refs_set_some s.file (.pipe e p) t.files fd.toNat f hget
          have hsame : refs (v.withFiles k (t.files.set fd.toNat none)).file (.pipe e p)
            (t.files.set fd.toNat none) =
              refs s.file (.pipe e p) (t.files.set fd.toNat none) :=
            refs_congr _ fun g _ => hsv.node g
          by_cases hn : (s.file f).node = .pipe e p
          · rw [if_pos hn] at hclear
            rw [hn, Function.update_self]
            omega
          · rw [if_neg hn] at hclear
            rw [Function.update_of_ne (Ne.symm hn)]
            omega

theorem taskFree_spec {s : Ends} (hw : s.Wf) (hb : s.Balanced) {k : ℕ}
    (hc : EndOp.Careful s (.free k)) :
    wp (taskFree k) (fun _ t => t.Wf ∧ t.Balanced) (fun _ _ => False) s := by
  obtain ⟨t, hk⟩ := hc
  simp only [taskFree, wp_bind, wp_filesOf hk, wp_modify, wp_pure]
  refine (closeFiles_spec t.files hb fun n => le_sum (fun t => refs s.file n t.files) hk).mono
    (fun _ u hu => ?_) fun _ _ hf => hf
  obtain ⟨hcu, hsu⟩ := hu
  have hsub : ∀ t ∈ (s.tasks.eraseIdx k), t ∈ s.tasks := fun t ht => List.mem_of_mem_eraseIdx ht
  refine ⟨⟨?_, ?_, ?_⟩, hcu.congr rfl rfl rfl rfl fun e p => ?_⟩
  · intro t' ht' f hf
    rw [hsu.tasks] at ht'
    have : f < s.nextFile := hw.ptr t' (hsub t' ht') f hf
    rw [← hsu.nextFile] at this
    exact this
  · intro t' ht'
    rw [hsu.tasks] at ht'
    exact hw.pos t' (hsub t' ht')
  · intro t' ht'
    rw [hsu.tasks] at ht'
    exact hw.len t' (hsub t' ht')
  · have hsum := sum_eraseIdx (fun t => refs s.file (.pipe e p) t.files) hk
    have hsame : ∀ t : Task, refs u.file (.pipe e p) t.files = refs s.file (.pipe e p) t.files :=
      fun t => refs_congr _ fun g _ => hsu.node g
    simp only [Ends.slots, hsu.tasks, hsame]
    omega

theorem forkInt_spec {s : Ends} (hw : s.Wf) (hb : s.Balanced) {k : ℕ}
    (hc : EndOp.Careful s (.fork k))
    (hfits : s.Fits) : wp (forkInt k) (fun _ t => t.Wf ∧ t.Balanced) (fun _ _ => False) s := by
  obtain ⟨t, hk⟩ := hc
  obtain ⟨hptr, hpos, hlen⟩ := hw.at hk
  have hbs : Counts { s with nextPid := s.nextPid + 1 } s.slots :=
    hb.congr rfl rfl rfl rfl fun _ _ => rfl
  simp only [forkInt, wp_bind, wp_filesOf hk, wp_read, wp_modify, wp_pure]
  refine (forkFiles_spec t.files hbs hptr (fun f hf => slots_pos hk hf) fun n => ?_).mono
    (fun copies u hu => ?_) fun _ _ hf => hf
  · have := s.slots_le_opens n
    have := openFiles_le t.files
    unfold Ends.Fits at hfits
    omega
  · obtain ⟨hcu, hcp⟩ := hu
    have htasks : u.tasks = s.tasks := hcp.tasks
    have hold : ∀ f < s.nextFile, (u.file f).node = (s.file f).node := hcp.old
    have hnext : s.nextFile ≤ u.nextFile := hcp.next
    have hrefs : ∀ n, refs u.file n copies = refs s.file n t.files := hcp.refs
    refine ⟨⟨?_, ?_, ?_⟩, hcu.congr rfl rfl rfl rfl fun e p => ?_⟩
    · intro t' ht' f hf
      rw [htasks, List.mem_append, List.mem_singleton] at ht'
      rcases ht' with ht' | rfl
      · exact lt_of_lt_of_le (hw.ptr t' ht' f hf) hnext
      · exact hcp.ptr f hf
    · intro t' ht'
      rw [htasks, List.mem_append, List.mem_singleton] at ht'
      rcases ht' with ht' | rfl
      · exact hw.pos t' ht'
      · rw [hcp.length]
        exact hpos
    · intro t' ht'
      rw [htasks, List.mem_append, List.mem_singleton] at ht'
      rcases ht' with ht' | rfl
      · exact hw.len t' ht'
      · rw [hcp.length]
        exact hlen
    · have hsame : (s.tasks.map fun t => refs u.file (.pipe e p) t.files) =
          s.tasks.map fun t => refs s.file (.pipe e p) t.files :=
        List.map_congr_left fun t' ht' => refs_congr _ fun f hf => hold f (hw.ptr t' ht' f hf)
      simp only [Ends.slots, htasks, List.map_append, List.map_singleton, List.sum_append,
        List.sum_singleton, hsame, hrefs]

theorem sysDup_spec {s : Ends} (hw : s.Wf) (hb : s.Balanced) {k oldfd : ℕ}
    (hc : EndOp.Careful s (.dup k oldfd)) :
    wp (sysDup k oldfd) (fun _ t => t.Wf ∧ t.Balanced) (fun _ _ => False) s := by
  obtain ⟨t, hk, hroom, hnode⟩ := hc
  obtain ⟨hptr, hpos, hlen⟩ := hw.at hk
  simp only [sysDup, wp_bind, wp_filesOf hk]
  cases hslot : t.files[oldfd]? with
  | none => exact ⟨hw, hb⟩
  | some o =>
    cases o with
    | none => exact ⟨hw, hb⟩
    | some f =>
      have hf : f < s.nextFile := hptr f (List.mem_of_getElem? hslot)
      obtain ⟨fd, hfd, hlt⟩ := fdAlloc_of_room hpos hroom
      simp only [wp_bind, wp_fdAllocFor hk, hfd, wp_storeFile (tasks_withFiles hk _) _ _ _ hlt,
        withFiles_withFiles, wp_read, fsDup, wp_modify, wp_pure]
      have hst := Stored.of_alloc f hfd hlt
      have hnodes : ∀ g,
        (Function.update s.file f { s.file f with dupCnt := (s.file f).dupCnt + 1 } g).node =
          (s.file g).node := by
        intro g
        by_cases hg : g = f
        · subst hg
          simp
        · simp [Function.update_of_ne hg]
      refine ⟨hw.withFiles (k := k) rfl le_rfl (fun g hg => ?_) hst.pos (hst.len hlen), ?_⟩
      · rcases hst.ptr g hg with rfl | hg
        · exact hf
        · exact hptr g hg
      · refine hb.congr rfl rfl rfl rfl fun e p => ?_
        have hr := hst.refs s.file (.pipe e p)
        rw [if_neg (hnode f hslot e p), Nat.add_zero] at hr
        refine Nat.add_right_cancel ((slots_withFiles hk rfl (fun _ _ g _ => hnodes g) _).trans ?_)
        exact congrArg (s.slots (.pipe e p) + ·) ((refs_congr _ fun g _ => hnodes g).trans hr)

/-- The new pipe of `sys_pipe`, once both its ends are open. -/
theorem Counts.newPipe {s t : Ends} {c c' : Node → ℕ} (h : Counts s c)
    (hnext : t.nextPipe = s.nextPipe + 1)
    (hunder : t.underflow = s.underflow)
    (hfreed : ∀ p, t.freed p = (if p = s.nextPipe then false else s.freed p))
    (hold : ∀ p < s.nextPipe, t.pipe p = s.pipe p) (hnew : ∀ e, (t.pipe s.nextPipe).count e = 1)
    (hc : ∀ e p, c' (.pipe e p) = if p = s.nextPipe then 1 else c (.pipe e p)) : Counts t c' := by
  refine ⟨fun p hp e => ?_, hunder.trans h.under, fun p hp => ?_, fun p hp e => ?_⟩
  · rw [hc]
    split_ifs with he
    · rw [he, hnew]
      rfl
    · rw [hold p (by omega)]
      exact h.count p (by omega) e
  · rw [hc, hc, hfreed]
    split_ifs with he
    · simp
    · exact h.freed p (by omega)
  · rw [hc, if_neg (by omega)]
    exact h.fresh p (by omega) e

/-- The table of a task with two more files. -/
structure StoredTwo (files files' : List (Option ℕ)) (f g : ℕ) : Prop where
  refs : ∀ (file : ℕ → File) (n : Node), refs file n files' = refs file n files +
    (if (file f).node = n then 1 else 0) + if (file g).node = n then 1 else 0
  ptr : ∀ h, some h ∈ files' → h = f ∨ h = g ∨ some h ∈ files
  pos : 0 < files'.length
  len : files.length ≤ maxOpenFiles → files'.length ≤ maxOpenFiles

theorem pipeSlots_spec {s : Ends} {k : ℕ} {t : Task} (hk : s.tasks[k]? = some t)
    (hpos : 0 < t.files.length)
    (hroom : openFiles t.files + 2 ≤ maxOpenFiles) (f g : ℕ) :
    wp (pipeSlots k f g) (fun _ u => ∃ files, u = s.withFiles k files ∧ StoredTwo t.files files f g)
      (fun _ _ => False) s := by
  obtain ⟨m, hm⟩ := fdAlloc_files t.files
  have hpos₁ : 0 < (fdAlloc t.files).2.length := by
    rw [hm, List.length_append]
    omega
  have hopen₁ : openFiles (fdAlloc t.files).2 = openFiles t.files := by
    rw [hm, openFiles_append_replicate]
  simp only [pipeSlots, wp_bind, wp_fdAllocFor hk]
  refine alloc_store_spec (tasks_withFiles hk (fdAlloc t.files).2) hpos₁
    (hopen₁ ▸ by omega) f fun files₂ h₂ => ?_
  rw [withFiles_withFiles]
  have hopen₂ : openFiles files₂ = openFiles t.files + 1 := h₂.opens.trans (congrArg (· + 1) hopen₁)
  refine alloc_store_spec (tasks_withFiles hk files₂) h₂.pos (hopen₂ ▸ by omega) g
    fun files₃ h₃ => ?_
  rw [withFiles_withFiles]
  refine ⟨files₃, rfl, fun file n => ?_, fun h hh => ?_,
    h₃.pos, fun hlen => h₃.len (h₂.len (length_fdAlloc_le hlen))⟩
  · rw [h₃.refs, h₂.refs, hm, refs_append_replicate]
  · rcases h₃.ptr h hh with rfl | hh
    · exact Or.inr (Or.inl rfl)
    · rcases h₂.ptr h hh with rfl | hh
      · exact Or.inl rfl
      · right; right
        rw [hm, List.mem_append] at hh
        rcases hh with hh | hh
        · exact hh
        · simp [List.mem_replicate] at hh

theorem sysPipe_spec (buf : ℕ → UInt8) {s : Ends} (hw : s.Wf) (hb : s.Balanced) {k : ℕ}
    (hc : EndOp.Careful s (.pipe buf k)) :
    wp (sysPipe buf k) (fun _ t => t.Wf ∧ t.Balanced) (fun _ _ => False) s := by
  obtain ⟨t, hk, hroom⟩ := hc
  obtain ⟨hptr, hpos, hlen⟩ := hw.at hk
  simp only [sysPipe, pipeNewAt, fileAlloc, wp_bind, wp_read, wp_modify, wp_pure]
  refine (pipeSlots_spec (t := t) ?_ hpos hroom _ _).mono (fun _ u hu => ?_) fun _ _ hf => hf
  · exact hk
  obtain ⟨files, rfl, hst⟩ := hu
  simp only [pipeOpen, fsDup, countUp, wp_bind, wp_modify]
  have hfile : ∀ f < s.nextFile,
    (Function.update (Function.update s.file s.nextFile ⟨.pipe .rd s.nextPipe, 0⟩)
      (s.nextFile + 1) ⟨.pipe .wr s.nextPipe, 0⟩ f) = s.file f := by
    intro f hf
    rw [Function.update_of_ne (by omega), Function.update_of_ne (by omega)]
  refine ⟨hw.withFiles (k := k) rfl (by show s.nextFile ≤ s.nextFile + 1 + 1; omega)
    (fun f hf => ?_) hst.pos
    (hst.len hlen), ?_⟩
  · show f < s.nextFile + 1 + 1
    rcases hst.ptr f hf with rfl | rfl | hf
    · omega
    · omega
    · have := hptr f hf
      omega
  · refine hb.newPipe rfl rfl (fun p => ?_) (fun p hp => ?_) (fun e => ?_) fun e p => ?_
    · by_cases hp : p = s.nextPipe
      · simp [hp, Ends.withFiles]
      · simp [hp, Ends.withFiles]
    · simp [Ends.withFiles, Function.update_of_ne (Nat.ne_of_lt hp)]
    · cases e <;> simp [Ends.withFiles, pipeNew, VfsPipe.count, VfsPipe.setCount]
    · refine Nat.add_right_cancel ((slots_withFiles hk rfl
        (fun t' ht' f hf => congrArg File.node (hfile f (hw.ptr t' ht' f hf))) _).trans ?_)
      refine (congrArg (s.slots (.pipe e p) + ·) (hst.refs _ _)).trans ?_
      have hsame := refs_congr (.pipe e p) fun f hf => congrArg File.node (hfile f (hptr f hf))
      have hzero := hb.fresh s.nextPipe le_rfl e
      simp only [Ends.withFiles, hsame, Function.update_self,
        Function.update_of_ne (Nat.succ_ne_self s.nextFile).symm, Node.pipe.injEq]
      by_cases hp : p = s.nextPipe
      · subst hp
        rw [hzero]
        cases e <;> simp <;> omega
      · simp [hp, Ne.symm hp]

/-- **Every careful operation** returns and keeps the ends accounted for. -/
theorem EndOp.spec {s : Ends} (hw : s.Wf) (hb : s.Balanced) {op : EndOp} (hc : EndOp.Careful s op)
    (hf : s.Fits) :
    wp op.exec (fun _ t => t.Wf ∧ t.Balanced) (fun _ _ => False) s := by
  cases op with
  | pipe buf k => exact sysPipe_spec buf hw hb hc
  | dup k oldfd => exact sysDup_spec hw hb hc
  | fork k => exact forkInt_spec hw hb hc hf
  | close k fd => exact sysClose_spec hw hb hc
  | free k => exact taskFree_spec hw hb hc

theorem Ends.Start.balanced {s : Ends} (h : s.Start) : s.Balanced := by
  have hzero : ∀ e p, s.slots (.pipe e p) = 0 := by
    intro e p
    refine List.sum_eq_zero fun m hm => ?_
    obtain ⟨t, ht, rfl⟩ := List.mem_map.mp hm
    refine List.countP_eq_zero.mpr fun o ho => ?_
    cases o with
    | none => simp [points]
    | some f => simpa [points] using h.nodes t ht f ho e p
  exact ⟨fun p hp => absurd hp (by rw [h.pipes]; omega),
    h.under, fun p hp => absurd hp (by rw [h.pipes]; omega),
    fun p _ e => hzero e p⟩

/-- **Pipe ends are accounted for in every run of careful operations**: from a state
without pipes, as long as no end of a pipe is duplicated by `sys_dup` and new
descriptors fit in their tables, in every state reached `readers` and `writers` of
every pipe are the numbers of slots of all tasks that refer to its ends, no count
has gone below `0`, a pipe is freed exactly when both counts are `0`, and every
further careful operation returns. -/
theorem pipe_ends_balanced_of_careful {s t : Ends} (hs : s.Start) (h : Reach Ends.CarefulStep s t) :
    t.Balanced ∧ ∀ op, EndOp.Careful t op → t.Fits → ∃ r u, op.exec t = .ok r u := by
  have hinv : t.Wf ∧ t.Balanced :=
    Reach.invariant (I := fun u => u.Wf ∧ u.Balanced)
      (fun _ _ hi ⟨_, hc, hf, _, hr⟩ => (EndOp.spec hi.1 hi.2 hc hf).ok hr) ⟨hs.wf, hs.balanced⟩ h
  refine ⟨hinv.2, fun op hc hf => ?_⟩
  obtain ⟨r, u, hr, -⟩ := (EndOp.spec hinv.1 hinv.2 hc hf).returns
  exact ⟨r, u, hr⟩

/-- One task, with the table `task_init` makes and nothing open. -/
def Ends.idle : Ends where
  pipe := fun _ => pipeNew (fun _ => 0) 0 0
  freed := fun _ => false
  nextPipe := 0
  refCount := fun _ => 0
  file := fun _ => ⟨.other 0, 0⟩
  nextFile := 0
  tasks := [⟨1, List.replicate taskInitialNumFiles none⟩]
  nextPid := 2
  underflow := false

theorem Ends.idle_start : Ends.idle.Start := by
  refine ⟨⟨?_, ?_, ?_⟩, rfl, ?_, rfl⟩ <;> simp [Ends.idle, taskInitialNumFiles, maxOpenFiles]

/-- A task makes a pipe, forks, and closes its write end; the child's is then the only one. -/
theorem pipe_ends_balanced_of_careful_fork :
    ∃ t : Ends, Reach Ends.CarefulStep Ends.idle t ∧ (t.pipe 0).readers = 2 ∧
      (t.pipe 0).writers = 1 ∧
      t.Balanced ∧ ∀ op, EndOp.Careful t op → t.Fits → ∃ r u, op.exec t = .ok r u := by
  have h₁ : Reach Ends.CarefulStep Ends.idle _ :=
    .single ⟨.pipe (fun _ => 0) 0, ⟨_, rfl, by decide⟩, by unfold Ends.Fits; decide, 0, rfl⟩
  have h₂ := h₁.tail ⟨.fork 0, ⟨_, rfl⟩, by unfold Ends.Fits; decide, 2, rfl⟩
  have h₃ := h₂.tail ⟨.close 0 1, ⟨_, rfl, by decide⟩, by unfold Ends.Fits; decide, 0, rfl⟩
  exact ⟨_, h₃, by decide, by decide, pipe_ends_balanced_of_careful Ends.idle_start h₃⟩

/-- An operation that returns. -/
def Ends.AnyStep (s t : Ends) : Prop := ∃ (op : EndOp) (r : ℤ), op.exec s = .ok r t

/-- **`sys_dup` breaks the counts**: a task makes a pipe, duplicates its read end and closes
both descriptors; the second close takes the count of readers from `0` to `2³² – 1`. -/
theorem dup_breaks_counts : ¬ ∀ t : Ends, Reach Ends.AnyStep Ends.idle t → t.Balanced := by
  have h₁ : Reach Ends.AnyStep Ends.idle _ := .single ⟨.pipe (fun _ => 0) 0, 0, rfl⟩
  have h₂ := h₁.tail ⟨.dup 0 0, 2, rfl⟩
  have h₃ := h₂.tail ⟨.close 0 0, 0, rfl⟩
  have h₄ := h₃.tail ⟨.close 0 2, 0, rfl⟩
  intro h
  have hunder := (h _ h₄).under
  revert hunder
  decide

end Cosiris.Pipe
