import Cosiris.Lib.Prog
import Mathlib.Data.List.Basic

/-!
# Halting, and the descriptor table

The ways the kernel stops, and `fd_alloc` of `sysfile.c`: the search for a free
slot of a task's `files` array, and its growth. The array is a list of slots;
`num_files` is its length.
-/

namespace Cosiris

/-- The ways the kernel stops. -/
inductive Halt where
  /-- `panic`. -/
  | panic (msg : String)
  /-- A `KASSERT` that fails. -/
  | kassert (cond : String)
  /-- A `spin_lock` on a lock the process itself holds: it spins for ever. -/
  | deadlock
  /-- An access to memory that is not there: a null or freed pointer, an index out of
  bounds. -/
  | fault
  deriving DecidableEq

/-- `KASSERT`. -/
def kassert {σ : Type} (cond : String) (b : Bool) : Prog Halt σ Unit :=
  if b then pure () else Prog.halt (.kassert cond)

/-- `MAX_OPEN_FILES`. -/
def maxOpenFiles : ℕ := 64

/-- `TASK_INITIAL_NUM_FILES`. -/
def taskInitialNumFiles : ℕ := 6

variable {α : Type*}

/-- `fd_alloc`: the first free slot, or `none` for `-1`, and the array, grown when it has
no free slot. The limit is compared with `>`, so that a full array of
`MAX_OPEN_FILES` slots gives the index just past it. -/
def fdAlloc (files : List (Option α)) : Option ℕ × List (Option α) :=
  let n := files.length
  let fd := files.findIdx (·.isNone)
  if fd = n then
    if fd > maxOpenFiles then (none, files)
    else
      let m := if n * 2 ≥ maxOpenFiles then maxOpenFiles else n * 2
      (some fd, files ++ List.replicate (m - n) none)
  else (some fd, files)

/-- The number of open descriptors. -/
def openFiles (files : List (Option α)) : ℕ := files.countP (·.isSome)

theorem openFiles_le (files : List (Option α)) : openFiles files ≤ files.length :=
    List.countP_le_length

/-- Growing only adds free slots. -/
theorem fdAlloc_files (files : List (Option α)) :
    ∃ k, (fdAlloc files).2 = files ++ List.replicate k none := by
  unfold fdAlloc
  dsimp only
  split_ifs
  · exact ⟨0, by simp⟩
  · exact ⟨_, rfl⟩
  · exact ⟨_, rfl⟩
  · exact ⟨0, by simp⟩

/-- The array never grows past `MAX_OPEN_FILES`. -/
theorem length_fdAlloc_le {files : List (Option α)} (h : files.length ≤ maxOpenFiles) :
    (fdAlloc files).2.length ≤ maxOpenFiles := by
  unfold fdAlloc
  dsimp only
  split_ifs <;> simp only [List.length_append, List.length_replicate] <;> omega

/-- An index that is found holds no file. -/
theorem fdAlloc_free {files : List (Option α)} {fd : ℕ} (h : (fdAlloc files).1 = some fd)
    (hlt : fd < (fdAlloc files).2.length) : (fdAlloc files).2[fd]? = some none := by
  unfold fdAlloc at *
  dsimp only at *
  by_cases hfull : files.findIdx (·.isNone) = files.length
  · rw [if_pos hfull] at h hlt ⊢
    split_ifs at h hlt ⊢ with h₁ h₂
    all_goals
      simp only [Option.some.injEq] at h
      subst h
      simp only [List.length_append, List.length_replicate] at hlt
      rw [hfull, List.getElem?_append_right (Nat.le_refl _)]
      simp only [Nat.sub_self, List.getElem?_replicate]
      rw [if_pos (by omega)]
  · rw [if_neg hfull] at h hlt ⊢
    simp only [Option.some.injEq] at h
    subst h
    have hn := List.findIdx_getElem (p := fun o : Option α => o.isNone) (w := hlt)
    rw [List.getElem?_eq_getElem hlt]
    simpa using hn

/-- A full array has as many open descriptors as slots. -/
theorem openFiles_of_full {files : List (Option α)} (h : files.findIdx (·.isNone) = files.length) :
    openFiles files = files.length := by
  rw [openFiles, List.countP_eq_length]
  intro o ho
  have := List.findIdx_eq_length.mp h o ho
  cases o <;> simp_all

/-- With fewer than `MAX_OPEN_FILES` open descriptors, the index found lies inside the array. -/
theorem fdAlloc_of_room {files : List (Option α)} (hpos : 0 < files.length)
    (h : openFiles files < maxOpenFiles) :
    ∃ fd, (fdAlloc files).1 = some fd ∧ fd < (fdAlloc files).2.length := by
  unfold fdAlloc
  dsimp only
  by_cases hfull : files.findIdx (·.isNone) = files.length
  · rw [openFiles_of_full hfull] at h
    have hle : ¬ files.findIdx (·.isNone) > maxOpenFiles := by omega
    rw [if_pos hfull, if_neg hle]
    refine ⟨_, rfl, ?_⟩
    simp only [List.length_append, List.length_replicate]
    split_ifs <;> omega
  · rw [if_neg hfull]
    have : files.findIdx (·.isNone) ≤ files.length := List.findIdx_le_length
    exact ⟨_, rfl, Nat.lt_of_le_of_ne this hfull⟩

end Cosiris
