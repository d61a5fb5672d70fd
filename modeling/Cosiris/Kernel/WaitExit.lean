import Cosiris.Kernel.Tasks
import Mathlib.Algebra.BigOperators.Group.Finset.Piecewise
import Mathlib.Algebra.Group.Action.Defs
import Mathlib.Algebra.Order.BigOperators.Group.Finset
import Mathlib.Data.List.Perm.Basic
import Mathlib.Data.List.Nodup
import Mathlib.Data.List.Pairwise
import Mathlib.Data.List.Induction

/-!
# Waiting for processes that exit

In every run a task is in the task queue, in one wait queue, or freed; and a task that has exited is
reported once, to the task that forked it or to task 0 if that one had exited before, unless it is
freed in the exit of the task that forked it.

`next_pid` never comes round: every fork leaves a copy of a path in the kernel heap, which is full
long before.
-/

namespace Cosiris.Tasks

open Prog

/-! ### What should have happened -/

/-- The child was neither reported nor discarded. -/
def Unsettled (log : List Event) (c : ℕ) : Prop :=
  (∀ p pid status, .reported p c pid status ∉ log) ∧ ∀ p, .discarded p c ∉ log

/-- Who is to know of the exit of a child: the task that forked it, or task 0 when that one had
exited while the child was still running. -/
def Heir (log : List Event) (c q : ℕ) : Prop :=
  .forked q c ∈ log ∨ q = 0 ∧
    ∃ p after pid status before, log = after ++ .exited c pid status :: before ∧
    .forked p c ∈ before ∧ ∃ pid' status', .exited p pid' status' ∈ before

/-- The events are in order, from the latest: a child is reported once, after its exit, with its
number and status, and to its heir; and it is discarded only in the exit of the task that forked
it. -/
def LogOk : List Event → Prop
  | [] => True
  | .reported p c pid status :: past =>
      LogOk past ∧ .exited c pid status ∈ past ∧ Heir past c p ∧ Unsettled past c
  | .discarded p c :: past => LogOk past ∧ .forked p c ∈ past ∧ Unsettled past c
  | .forked _ _ :: past | .exited _ _ _ :: past => LogOk past

/-- The tasks of the wait queues. -/
def State.waiting (s : State) : List ℕ := s.queue.flatMap fun t => (s.task t).waitQueue

/-- **The tasks are accounted for**: each is in the queue, in the wait queue of one task in the
queue, or freed once; the parent of each is in the queue; what has happened is in order; and what
was freed was reported or discarded. -/
structure State.Accounted (s : State) : Prop where
  place : ∀ t, t < s.next →
    t ∈ s.queue ∧ (∀ p ∈ s.queue, t ∉ (s.task p).waitQueue) ∧ s.frees t = 0 ∨
    t ∉ s.queue ∧
      (∃ p ∈ s.queue, (s.task p).waitQueue.count t = 1 ∧ ∀ p' ∈ s.queue, t ∈ (s.task p').waitQueue →
        p' = p) ∧
      s.frees t = 0 ∨
    t ∉ s.queue ∧ (∀ p ∈ s.queue, t ∉ (s.task p).waitQueue) ∧ s.frees t = 1
  parent : ∀ t ∈ s.queue, (s.task t).pid ≠ 1 → ∃ p ∈ s.queue, (s.task p).pid = (s.task t).ppid
  log : LogOk s.log
  freed : ∀ t, s.frees t ≠ 0 → ¬Unsettled s.log t

/-! ### The invariant -/

/-- The state between two calls. -/
structure Inv (s : State) : Prop where
  first : s.queue.head? = some 0
  init : (s.task 0).pid = 1
  nodup : (s.queue ++ s.waiting).Nodup
  bound : ∀ t ∈ s.queue ++ s.waiting, t < s.next
  kept : ∀ t, t ∈ s.queue ++ s.waiting ∨ s.next ≤ t → s.frees t = 0
  gone : ∀ t, t < s.next → t ∉ s.queue ++ s.waiting → s.frees t = 1
  number : ∀ t < s.next, (s.task t).pid = UInt32.ofNat (t + 1)
  nextNumber : s.nextPid = UInt32.ofNat (s.next + 1)
  room : s.cwdBytes ≤ heapRoom
  live : ∀ t ∈ s.queue, (s.task t).state ≠ .exiting
  kin : ∀ t ∈ s.queue, t ≠ 0 → ∃ p, p ≠ t ∧ .forked p t ∈ s.log ∧
    (p ∈ s.queue ∧ (s.task t).ppid = (s.task p).pid ∨ (∃ pid status, .exited p pid status ∈ s.log) ∧
      (s.task t).ppid = 1)
  zombie : ∀ p ∈ s.queue, ∀ z ∈ (s.task p).waitQueue, (s.task z).state = .exiting ∧
      (s.task z).waitQueue = [] ∧
    .exited z (s.task z).pid (s.task z).exitStatus ∈ s.log ∧ Heir s.log z p
  log : LogOk s.log
  settled : ∀ t, t ∈ s.queue ++ s.waiting ∨ s.next ≤ t → Unsettled s.log t
  freed : ∀ t, s.frees t ≠ 0 → ¬Unsettled s.log t

section

variable {s s' : State} {p q t z : ℕ}

theorem Heir.cons {log : List Event} {c : ℕ} (h : Heir log c q) (e : Event) :
    Heir (e :: log) c q := by
  rcases h with h | ⟨rfl, p, after, pid, status, before, rfl, hf, hx⟩
  · exact .inl (List.mem_cons_of_mem _ h)
  · exact .inr ⟨rfl, p, e :: after, pid, status, before, rfl, hf, hx⟩

theorem mem_waiting : t ∈ s.waiting ↔ ∃ p ∈ s.queue, t ∈ (s.task p).waitQueue := List.mem_flatMap

theorem Inv.zero_mem (h : Inv s) : 0 ∈ s.queue := List.mem_of_mem_head? h.first

theorem Inv.queue_nodup (h : Inv s) : s.queue.Nodup := (List.nodup_append.mp h.nodup).1

theorem Inv.waiting_nodup (h : Inv s) : s.waiting.Nodup := (List.nodup_append.mp h.nodup).2.1

theorem Inv.notMem_waiting (h : Inv s) (hp : p ∈ s.queue) : p ∉ s.waiting := fun hw =>
  (List.nodup_append.mp h.nodup).2.2 p hp p hw rfl

theorem Inv.queue_lt (h : Inv s) (hp : p ∈ s.queue) : p < s.next :=
    h.bound p (List.mem_append_left _ hp)

/-! ### Process numbers -/

theorem le_copySize (path : List UInt8) : 24 ≤ copySize path := by
  unfold copySize
  omega

/-- A task takes 24 bytes at least. -/
theorem le_cwdBytes (s : State) : 24 * s.next ≤ s.cwdBytes := by
  have hle := Finset.card_nsmul_le_sum (Finset.range s.next) (fun t => copySize (s.task t).cwd) 24
    fun t _ => le_copySize _
  rw [Finset.card_range, smul_eq_mul, Nat.mul_comm] at hle
  exact hle

theorem cwdBytes_congr (hnext : s'.next = s.next) (hcwd : ∀ t, (s'.task t).cwd = (s.task t).cwd) :
    s'.cwdBytes = s.cwdBytes := by
  unfold State.cwdBytes
  rw [hnext]
  exact Finset.sum_congr rfl fun t _ => by rw [hcwd]

/-- The numbers have not come round. -/
theorem Inv.next_lt (h : Inv s) : s.next + 1 < 2 ^ 32 := by
  have hle := le_cwdBytes s
  have hroom := h.room
  unfold heapRoom at hroom
  omega

theorem number_inj {m n : ℕ} (hm : m < 2 ^ 32) (hn : n < 2 ^ 32)
    (h : UInt32.ofNat m = UInt32.ofNat n) : m = n := by
  rw [← UInt32.toNat_inj, UInt32.toNat_ofNat_of_lt' hm, UInt32.toNat_ofNat_of_lt' hn] at h
  exact h

theorem Inv.pids (h : Inv s) : ∀ t ∈ s.queue, ∀ t' ∈ s.queue, (s.task t).pid = (s.task t').pid →
    t = t' := fun t ht t' ht' he => by
  have hlt := h.queue_lt ht
  have hlt' := h.queue_lt ht'
  have hnext := h.next_lt
  rw [h.number t hlt, h.number t' hlt'] at he
  exact Nat.succ.inj (number_inj (by omega) (by omega) he)

/-- The parent of a task is in the queue. -/
theorem Inv.parent (h : Inv s) (ht : t ∈ s.queue) (h0 : t ≠ 0) :
    ∃ q ∈ s.queue, q ≠ t ∧ (s.task q).pid = (s.task t).ppid := by
  obtain ⟨p, hne, -, ⟨hp, hpp⟩ | ⟨-, hpp⟩⟩ := h.kin t ht h0
  · exact ⟨p, hp, hne, hpp.symm⟩
  · exact ⟨0, h.zero_mem, h0.symm, h.init.trans hpp.symm⟩

theorem Inv.accounted (h : Inv s) : s.Accounted where
  place t ht := by
    by_cases hq : t ∈ s.queue
    · have hw := h.notMem_waiting hq
      exact .inl ⟨hq, fun p hp hz => hw (mem_waiting.mpr ⟨p, hp, hz⟩),
        h.kept t (.inl (List.mem_append_left _ hq))⟩
    · by_cases hw : t ∈ s.waiting
      · obtain ⟨p, hp, hz⟩ := mem_waiting.mp hw
        obtain ⟨hwq, hpair⟩ := List.nodup_flatMap.mp h.waiting_nodup
        refine .inr (.inl
          ⟨hq, ⟨p, hp, List.count_eq_one_of_mem (hwq p hp) hz, fun p' hp' hz' => ?_⟩,
            h.kept t (.inl (List.mem_append_right _ hw))⟩)
        by_contra hne
        have : Std.Symm (Function.onFun List.Disjoint fun t => (s.task t).waitQueue) :=
          ⟨fun _ _ h _ ha hb => h hb ha⟩
        exact hpair.forall hp' hp hne hz' hz
      · exact .inr (.inr ⟨hq, fun p hp hz => hw (mem_waiting.mpr ⟨p, hp, hz⟩),
          h.gone t ht fun hx => (List.mem_append.mp hx).elim hq hw⟩)
  parent t ht hne := by
    obtain ⟨q, hq, -, hpid⟩ := h.parent ht fun h0 => hne (h0 ▸ h.init)
    exact ⟨q, hq, hpid⟩
  log := h.log
  freed := h.freed

/-! ### Sleeping and waking -/

/-- Only the states of the tasks have changed, and none has exited. -/
structure Same (s s' : State) : Prop where
  queue : s'.queue = s.queue
  next : s'.next = s.next
  frees : s'.frees = s.frees
  log : s'.log = s.log
  nextPid : s'.nextPid = s.nextPid
  pid : ∀ t, (s'.task t).pid = (s.task t).pid
  ppid : ∀ t, (s'.task t).ppid = (s.task t).ppid
  waitQueue : ∀ t, (s'.task t).waitQueue = (s.task t).waitQueue
  exitStatus : ∀ t, (s'.task t).exitStatus = (s.task t).exitStatus
  exiting : ∀ t, (s'.task t).state = .exiting ↔ (s.task t).state = .exiting

theorem Same.waiting (h : Same s s') : s'.waiting = s.waiting := by
  unfold State.waiting
  simp only [h.queue, h.waitQueue]

theorem Inv.same (h : Inv s) (hs : Same s s') (hroom : s'.cwdBytes ≤ heapRoom) : Inv s' where
  first := by rw [hs.queue, h.first]
  init := by rw [hs.pid, h.init]
  nodup := by
    rw [hs.queue, hs.waiting]
    exact h.nodup
  bound := by
    rw [hs.queue, hs.waiting, hs.next]
    exact h.bound
  kept := by
    rw [hs.queue, hs.waiting, hs.next, hs.frees]
    exact h.kept
  gone := by
    rw [hs.queue, hs.waiting, hs.next, hs.frees]
    exact h.gone
  number := by
    simp only [hs.next, hs.pid]
    exact h.number
  nextNumber := by
    rw [hs.nextPid, hs.next]
    exact h.nextNumber
  room := hroom
  live := by
    simp only [hs.queue, ne_eq, hs.exiting]
    exact h.live
  kin := by
    simp only [hs.queue, hs.log, hs.pid, hs.ppid]
    exact h.kin
  zombie := by
    simp only [hs.queue, hs.log, hs.pid, hs.exitStatus, hs.waitQueue, hs.exiting]
    exact h.zombie
  log := hs.log ▸ h.log
  settled := by
    rw [hs.queue, hs.waiting, hs.next, hs.log]
    exact h.settled
  freed := by
    rw [hs.frees, hs.log]
    exact h.freed

theorem State.update_task (f : Task → Task) :
    (s.update p f).task t = if t = p then f (s.task p) else s.task t := by
  simp [State.update, Function.update_apply]

theorem cwdBytes_update {f : Task → Task} (hcwd : (f (s.task p)).cwd = (s.task p).cwd) :
    (s.update p f).cwdBytes = s.cwdBytes := by
  refine cwdBytes_congr rfl fun t => ?_
  rw [State.update_task]
  split_ifs with he
  · rw [hcwd, he]
  · rfl

/-- A task changes its state, and does not exit. -/
theorem same_update {f : Task → Task} (hp : (s.task p).state ≠ .exiting)
    (hpid : (f (s.task p)).pid = (s.task p).pid)
    (hppid : (f (s.task p)).ppid = (s.task p).ppid)
    (hwq : (f (s.task p)).waitQueue = (s.task p).waitQueue)
    (hst : (f (s.task p)).exitStatus = (s.task p).exitStatus)
    (hstate : (f (s.task p)).state ≠ .exiting) :
    Same s (s.update p f) where
  queue := rfl
  next := rfl
  frees := rfl
  log := rfl
  nextPid := rfl
  pid t := by
    rw [State.update_task]
    split_ifs with he
    · rw [hpid, he]
    · rfl
  ppid t := by
    rw [State.update_task]
    split_ifs with he
    · rw [hppid, he]
    · rfl
  waitQueue t := by
    rw [State.update_task]
    split_ifs with he
    · rw [hwq, he]
    · rfl
  exitStatus t := by
    rw [State.update_task]
    split_ifs with he
    · rw [hst, he]
    · rfl
  exiting t := by
    rw [State.update_task]
    split_ifs with he
    · rw [he]
      simp [hp, hstate]
    · rfl

/-! ### Forking -/

/-- The state after a fork. -/
def State.forked (s : State) (p : ℕ) : State := { s with
  task := Function.update s.task s.next
    ⟨s.nextPid, (s.task p).pid, .running, none, 0, [], false, (s.task p).cwd⟩
  queue := s.queue ++ [s.next]
  next := s.next + 1
  nextPid := s.nextPid + 1
  log := .forked p s.next :: s.log }

theorem State.forked_child : (s.forked p).task s.next =
    ⟨s.nextPid, (s.task p).pid, .running, none, 0, [], false, (s.task p).cwd⟩ :=
  Function.update_self ..

theorem State.forked_other (h : t ≠ s.next) : (s.forked p).task t = s.task t :=
    Function.update_of_ne h ..

/-- The child takes as much as its parent. -/
theorem State.forked_cwdBytes : (s.forked p).cwdBytes = s.cwdBytes + copySize (s.task p).cwd := by
  unfold State.cwdBytes
  show ∑ t ∈ Finset.range (s.next + 1), copySize ((s.forked p).task t).cwd = _
  rw [Finset.sum_range_succ, State.forked_child]
  congr 1
  refine Finset.sum_congr rfl fun t ht => ?_
  rw [State.forked_other (Finset.mem_range.mp ht).ne]

theorem Inv.ne_next (h : Inv s) (ht : t ∈ s.queue ++ s.waiting) : t ≠ s.next := fun he =>
    absurd (h.bound t ht) (by omega)

theorem Inv.forked_waiting (h : Inv s) : (s.forked p).waiting = s.waiting := by
  show (s.queue ++ [s.next]).flatMap (fun t => ((s.forked p).task t).waitQueue) =
    s.queue.flatMap fun t => (s.task t).waitQueue
  rw [List.flatMap_append, List.flatMap_singleton, State.forked_child, List.append_nil]
  refine List.flatMap_congr fun t ht => ?_
  rw [State.forked_other (h.ne_next (List.mem_append_left _ ht))]

theorem Unsettled.cons_forked {log : List Event} {c : ℕ} (h : Unsettled log c) (p t : ℕ) :
    Unsettled (.forked p t :: log) c := by
  unfold Unsettled at *
  simpa using h

theorem Inv.fork (h : Inv s) (hp : p ∈ s.queue) (hfits : Op.Fits s (.fork p)) :
    Inv (s.forked p) := by
  have hqueue : ∀ {t}, t ∈ (s.forked p).queue →
    t = s.next ∨ t ∈ s.queue ∧ (s.forked p).task t = s.task t := fun {t} ht => by
    rcases List.mem_append.mp ht with ht | ht
    · exact .inr ⟨ht, State.forked_other (h.ne_next (List.mem_append_left _ ht))⟩
    · exact .inl (List.mem_singleton.mp ht)
  have hparent : (s.forked p).task p = s.task p :=
    State.forked_other (h.ne_next (List.mem_append_left _ hp))
  have hmem : ∀ {t}, t ∈ (s.forked p).queue ++ (s.forked p).waiting ↔ t = s.next ∨
    t ∈ s.queue ++ s.waiting := fun {t} => by
    rw [h.forked_waiting]
    show t ∈ (s.queue ++ [s.next]) ++ s.waiting ↔ _
    simp only [List.mem_append, List.mem_singleton]
    tauto
  have hold : ∀ {t}, t ∈ (s.forked p).queue ++ (s.forked p).waiting ∨ (s.forked p).next ≤ t →
      t ∈ s.queue ++ s.waiting ∨ s.next ≤ t := fun {t} ht => by
    rcases ht with ht | ht
    · rcases hmem.mp ht with rfl | ht
      · exact .inr (Nat.le_refl _)
      · exact .inl ht
    · exact .inr (Nat.le_of_succ_le ht)
  constructor
  case first =>
    show (s.queue ++ [s.next]).head? = some 0
    rw [List.head?_append, h.first]
    rfl
  case init => rw [State.forked_other (h.ne_next (List.mem_append_left _ h.zero_mem)), h.init]
  case nodup =>
    rw [h.forked_waiting]
    show ((s.queue ++ [s.next]) ++ s.waiting).Nodup
    rw [List.append_assoc, List.singleton_append, List.nodup_middle, List.nodup_cons]
    exact ⟨fun ht => h.ne_next ht rfl, h.nodup⟩
  case bound =>
    intro t ht
    show t < s.next + 1
    rcases hmem.mp ht with rfl | ht
    · omega
    · have := h.bound t ht
      omega
  case kept => exact fun t ht => h.kept t (hold ht)
  case gone =>
    intro t hlt ht
    rw [hmem, not_or] at ht
    exact h.gone t (Nat.lt_of_le_of_ne (Nat.le_of_lt_succ hlt) ht.1) ht.2
  case number =>
    intro t (hlt : t < s.next + 1)
    rcases Nat.lt_succ_iff_lt_or_eq.mp hlt with hlt | rfl
    · rw [State.forked_other hlt.ne, h.number t hlt]
    · rw [State.forked_child, h.nextNumber]
  case nextNumber =>
    show s.nextPid + 1 = UInt32.ofNat (s.next + 1 + 1)
    rw [h.nextNumber, UInt32.ofNat_add (s.next + 1) 1]
    rfl
  case room => exact State.forked_cwdBytes ▸ hfits
  case live =>
    intro t ht
    rcases hqueue ht with rfl | ⟨ht, heq⟩
    · rw [State.forked_child]
      exact TaskState.noConfusion
    · rw [heq]
      exact h.live t ht
  case kin =>
    intro t ht h0
    rcases hqueue ht with rfl | ⟨ht, heq⟩
    · refine ⟨p, h.ne_next (List.mem_append_left _ hp), List.mem_cons_self ..,
        .inl ⟨List.mem_append_left _ hp, ?_⟩⟩
      rw [State.forked_child, hparent]
    · obtain ⟨q, hne, hq, hcase⟩ := h.kin t ht h0
      refine ⟨q, hne, List.mem_cons_of_mem _ hq, ?_⟩
      rw [heq]
      rcases hcase with ⟨hq', hpp⟩ | ⟨⟨pid, status, hx⟩, hpp⟩
      · refine .inl ⟨List.mem_append_left _ hq', ?_⟩
        rw [State.forked_other (h.ne_next (List.mem_append_left _ hq')), hpp]
      · exact .inr ⟨⟨pid, status, List.mem_cons_of_mem _ hx⟩, hpp⟩
  case zombie =>
    intro q hq z hz
    rcases hqueue hq with rfl | ⟨hq, heq⟩
    · rw [State.forked_child] at hz
      cases hz
    · rw [heq] at hz
      have hzn : z ≠ s.next := h.ne_next (List.mem_append_right _ (mem_waiting.mpr ⟨q, hq, hz⟩))
      obtain ⟨hst, hwq, hx, hheir⟩ := h.zombie q hq z hz
      rw [State.forked_other hzn]
      exact ⟨hst, hwq, List.mem_cons_of_mem _ hx, hheir.cons _⟩
  case log => exact h.log
  case settled =>
    intro t ht
    exact (h.settled t (hold ht)).cons_forked _ _
  case freed =>
    intro t ht hu
    refine h.freed t ht ?_
    unfold Unsettled at *
    simpa [State.forked] using hu

/-! ### Freeing -/

/-- The tasks `gone` were taken from the wait queues and freed. -/
structure Freed (s s' : State) (gone : List ℕ) : Prop where
  next : s'.next = s.next
  perm : (gone ++ (s'.queue ++ s'.waiting)).Perm (s.queue ++ s.waiting)
  frees : ∀ t, s'.frees t = s.frees t + gone.count t
  unsettled : ∀ t, Unsettled s'.log t ↔ Unsettled s.log t ∧ t ∉ gone

section

variable {gone : List ℕ}

theorem Freed.nodup (hf : Freed s s' gone) (h : Inv s) : (s'.queue ++ s'.waiting).Nodup :=
  (List.nodup_append.mp (hf.perm.nodup_iff.mpr h.nodup)).2.1

theorem Freed.mem (hf : Freed s s' gone) (h : Inv s) (ht : t ∈ s'.queue ++ s'.waiting) :
    t ∈ s.queue ++ s.waiting ∧ t ∉ gone :=
  ⟨hf.perm.mem_iff.mp (List.mem_append_right _ ht),
    fun hg => (List.nodup_append.mp (hf.perm.nodup_iff.mpr h.nodup)).2.2 t hg t ht rfl⟩

theorem Freed.bound (hf : Freed s s' gone) (h : Inv s) :
    ∀ t ∈ s'.queue ++ s'.waiting, t < s'.next := fun t ht => by
  rw [hf.next]
  exact h.bound t (hf.mem h ht).1

theorem Freed.old (hf : Freed s s' gone) (h : Inv s)
    (ht : t ∈ s'.queue ++ s'.waiting ∨ s'.next ≤ t) :
    (t ∈ s.queue ++ s.waiting ∨ s.next ≤ t) ∧ t ∉ gone := by
  rcases ht with ht | ht
  · exact ⟨.inl (hf.mem h ht).1, (hf.mem h ht).2⟩
  · rw [hf.next] at ht
    refine ⟨.inr ht, fun hg => ?_⟩
    have := h.bound t (hf.perm.mem_iff.mp (List.mem_append_left _ hg))
    omega

theorem Freed.kept (hf : Freed s s' gone) (h : Inv s) :
    ∀ t, t ∈ s'.queue ++ s'.waiting ∨ s'.next ≤ t → s'.frees t = 0 := fun t ht => by
  obtain ⟨hold, hg⟩ := hf.old h ht
  rw [hf.frees, h.kept t hold, List.count_eq_zero.mpr hg]

theorem Freed.gone_once (hf : Freed s s' gone) (h : Inv s) :
    ∀ t, t < s'.next → t ∉ s'.queue ++ s'.waiting → s'.frees t = 1 := fun t hlt ht => by
  rw [hf.next] at hlt
  rw [hf.frees]
  have hnd := (List.nodup_append.mp (hf.perm.nodup_iff.mpr h.nodup)).1
  by_cases hg : t ∈ gone
  · rw [h.kept t (.inl (hf.perm.mem_iff.mp (List.mem_append_left _ hg))),
      List.count_eq_one_of_mem hnd hg]
  · have hnot : t ∉ s.queue ++ s.waiting := fun hm =>
      (List.mem_append.mp (hf.perm.mem_iff.mpr hm)).elim hg ht
    rw [h.gone t hlt hnot, List.count_eq_zero.mpr hg]

theorem Freed.settled (hf : Freed s s' gone) (h : Inv s) :
    ∀ t, t ∈ s'.queue ++ s'.waiting ∨ s'.next ≤ t → Unsettled s'.log t := fun t ht => by
  obtain ⟨hold, hg⟩ := hf.old h ht
  exact (hf.unsettled t).mpr ⟨h.settled t hold, hg⟩

theorem Freed.freed (hf : Freed s s' gone) (h : Inv s) :
    ∀ t, s'.frees t ≠ 0 → ¬Unsettled s'.log t := fun t ht hu => by
  obtain ⟨hu, hg⟩ := (hf.unsettled t).mp hu
  rw [hf.frees, List.count_eq_zero.mpr hg] at ht
  exact h.freed t ht hu

end

/-- The tasks of the queue and of the wait queues, with those of one task first. -/
theorem all_perm (s : State) (hp : p ∈ s.queue) : (s.queue ++ s.waiting).Perm
    ((s.task p).waitQueue ++
      (s.queue ++ (s.queue.erase p).flatMap fun t => (s.task t).waitQueue)) := by
  have hq := (List.perm_cons_erase hp).flatMap_right fun t => (s.task t).waitQueue
  rw [List.flatMap_cons] at hq
  refine (hq.append_left s.queue).trans ?_
  rw [← List.append_assoc, ← List.append_assoc]
  exact List.perm_append_comm.append_right _

theorem wp_taskFree {Q : Unit → State → Prop} {E : Halt → State → Prop}
    (hs : (s.task t).state = .exiting)
    (hw : (s.task t).waitQueue = []) :
    wp (taskFree t) Q E s = Q () { s with frees := Function.update s.frees t (s.frees t + 1) } := by
  simp [taskFree, kassert, hs, hw]

theorem unsettled_reported {log : List Event} {c : ℕ} {pid : UInt32} {status : ℤ} :
    Unsettled (.reported p z pid status :: log) c ↔ Unsettled log c ∧ ¬c = z := by
  constructor
  · rintro ⟨hr, hd⟩
    refine ⟨⟨fun p' pid' status' hm => hr p' pid' status' (List.mem_cons_of_mem _ hm),
      fun p' hm => hd p' (List.mem_cons_of_mem _ hm)⟩, ?_⟩
    rintro rfl
    exact hr p pid status (List.mem_cons_self ..)
  · rintro ⟨⟨hr, hd⟩, hne⟩
    refine ⟨fun p' pid' status' hm => ?_, fun p' hm => ?_⟩
    · rcases List.mem_cons.mp hm with he | hm
      · cases he
        exact hne rfl
      · exact hr p' pid' status' hm
    · rcases List.mem_cons.mp hm with he | hm
      · cases he
      · exact hd p' hm

theorem unsettled_discarded {log : List Event} {c : ℕ} :
    Unsettled (.discarded p z :: log) c ↔ Unsettled log c ∧ ¬c = z := by
  constructor
  · rintro ⟨hr, hd⟩
    refine ⟨⟨fun p' pid' status' hm => hr p' pid' status' (List.mem_cons_of_mem _ hm),
      fun p' hm => hd p' (List.mem_cons_of_mem _ hm)⟩, ?_⟩
    rintro rfl
    exact hd p (List.mem_cons_self ..)
  · rintro ⟨⟨hr, hd⟩, hne⟩
    refine ⟨fun p' pid' status' hm => ?_, fun p' hm => ?_⟩
    · rcases List.mem_cons.mp hm with he | hm
      · cases he
      · exact hr p' pid' status' hm
    · rcases List.mem_cons.mp hm with he | hm
      · cases he
        exact hne rfl
      · exact hd p' hm

theorem unsettled_exited {log : List Event} {c t : ℕ} {pid : UInt32} {status : ℤ} :
    Unsettled (.exited t pid status :: log) c ↔ Unsettled log c := by
  unfold Unsettled
  simp

theorem Inv.erase_flatMap {f : ℕ → List ℕ} (h : Inv s)
    (hf : ∀ t, t ≠ p → f t = (s.task t).waitQueue) :
    (s.queue.erase p).flatMap f = (s.queue.erase p).flatMap fun t => (s.task t).waitQueue :=
  List.flatMap_congr fun t ht => hf t fun he => h.queue_nodup.not_mem_erase (he ▸ ht)

/-- The state after the first task of a wait queue was reported. -/
def State.reaped (s : State) (p z : ℕ) (rest : List ℕ) : State :=
  State.note { s.update p fun x => { x with waitQueue := rest } with
               frees := Function.update s.frees z (s.frees z + 1) }
    (.reported p z (s.task z).pid (s.task z).exitStatus)

theorem State.reaped_task {rest : List ℕ} :
    (s.reaped p z rest).task t = if t = p then { s.task p with waitQueue := rest } else s.task t :=
  State.update_task (s := s) fun x => { x with waitQueue := rest }

theorem Inv.reaped {rest : List ℕ} (h : Inv s) (hp : p ∈ s.queue)
    (hw : (s.task p).waitQueue = z :: rest) :
    Inv (s.reaped p z rest) := by
  have hz : z ∈ s.waiting := mem_waiting.mpr ⟨p, hp, by rw [hw]; exact List.mem_cons_self ..⟩
  obtain ⟨-, -, hexit, hheir⟩ := h.zombie p hp z (by rw [hw]; exact List.mem_cons_self ..)
  have hpid : ∀ t, ((s.reaped p z rest).task t).pid = (s.task t).pid := fun t => by
    rw [State.reaped_task]
    split_ifs with he
    · rw [he]
    · rfl
  have hppid : ∀ t, ((s.reaped p z rest).task t).ppid = (s.task t).ppid := fun t => by
    rw [State.reaped_task]
    split_ifs with he
    · rw [he]
    · rfl
  have hcwd : ∀ t, ((s.reaped p z rest).task t).cwd = (s.task t).cwd := fun t => by
    rw [State.reaped_task]
    split_ifs with he
    · rw [he]
    · rfl
  have hroom : (s.reaped p z rest).cwdBytes = s.cwdBytes := cwdBytes_congr rfl hcwd
  have hfreed : Freed s (s.reaped p z rest) [z] := by
    refine ⟨rfl, ?_, fun t => ?_, fun t => ?_⟩
    · have hnew := all_perm (s.reaped p z rest) hp
      rw [State.reaped_task, if_pos rfl] at hnew
      change List.Perm _ (rest ++ (s.queue ++ (s.queue.erase p).flatMap _)) at hnew
      rw [h.erase_flatMap fun t ht => by rw [State.reaped_task, if_neg ht]] at hnew
      have hold := all_perm s hp
      rw [hw, List.cons_append] at hold
      exact (hnew.cons z).trans hold.symm
    · show Function.update s.frees z (s.frees z + 1) t = _
      by_cases he : t = z
      · subst he
        simp
      · rw [Function.update_of_ne he, List.count_eq_zero.mpr (by simpa using he)]
        rfl
    · rw [List.mem_singleton]
      exact unsettled_reported
  exact
    { first := h.first
      init := (hpid 0).trans h.init
      nodup := hfreed.nodup h
      bound := hfreed.bound h
      kept := hfreed.kept h
      gone := hfreed.gone_once h
      number := fun t ht => (hpid t).trans (h.number t ht)
      nextNumber := h.nextNumber
      room := hroom.trans_le h.room
      live := fun t ht => by
        rw [State.reaped_task]
        split_ifs with he
        · exact h.live p hp
        · exact h.live t ht
      kin := fun t ht h0 => by
        obtain ⟨q, hne, hq, hcase⟩ := h.kin t ht h0
        refine ⟨q, hne, List.mem_cons_of_mem _ hq, ?_⟩
        rw [hppid, hpid]
        exact hcase.imp_right fun ⟨⟨pid, status, hx⟩, hpp⟩ =>
          ⟨⟨pid, status, List.mem_cons_of_mem _ hx⟩, hpp⟩
      zombie := fun q hq z' hz' => by
        have hmem : z' ∈ (s.task q).waitQueue := by
          rw [State.reaped_task] at hz'
          split_ifs at hz' with he
          · rw [he, hw]
            exact List.mem_cons_of_mem _ hz'
          · exact hz'
        have hne : z' ≠ p := fun he => h.notMem_waiting hp (mem_waiting.mpr ⟨q, hq, he ▸ hmem⟩)
        obtain ⟨hst, hwq, hx, hh⟩ := h.zombie q hq z' hmem
        rw [State.reaped_task, if_neg hne]
        exact ⟨hst, hwq, List.mem_cons_of_mem _ hx, hh.cons _⟩
      log := ⟨h.log, hexit, hheir, h.settled z (.inl (List.mem_append_right _ hz))⟩
      settled := hfreed.settled h
      freed := hfreed.freed h }

theorem Inv.reap (h : Inv s) (hp : p ∈ s.queue) :
    wp (reap p) (fun _ s' => Inv s') (fun _ _ => False) s := by
  unfold Tasks.reap
  rw [wp_bind, wp_read]
  cases hw : (s.task p).waitQueue with
  | nil => exact h
  | cons z rest =>
    have hz : z ∈ s.waiting := mem_waiting.mpr ⟨p, hp, by rw [hw]; exact List.mem_cons_self ..⟩
    have hne : z ≠ p := fun he => h.notMem_waiting hp (he ▸ hz)
    obtain ⟨hst, hwq, -, -⟩ := h.zombie p hp z (by rw [hw]; exact List.mem_cons_self ..)
    have htask : (s.update p fun x => { x with waitQueue := rest }).task z = s.task z := by
      rw [State.update_task, if_neg hne]
    simp only [wp_bind, wp_modify]
    rw [wp_taskFree (by rw [htask, hst]) (by rw [htask, hwq])]
    have hr := h.reaped hp hw
    unfold State.reaped at hr
    rw [← htask] at hr
    exact hr

/-! ### Exiting -/

/-- The loop of `task_exit` takes the task out of the queue, unless it is the first. -/
theorem unlink_eq_erase {l : List ℕ} (hnd : l.Nodup) (hhead : l.head? ≠ some p) :
    unlink p l = l.erase p := by
  induction l using unlink.induct p with
  | case1 => rfl
  | case2 t =>
    have hne : t ≠ p := fun he => hhead (by rw [he]; rfl)
    rw [unlink, List.erase_cons_tail (by simpa using hne)]
    rfl
  | case3 t rest ih =>
    have hne : t ≠ p := fun he => hhead (by rw [he]; rfl)
    rw [unlink, if_pos rfl, List.erase_cons_tail (by simpa using hne), List.erase_cons_head]
    have hrest := (List.nodup_cons.mp (List.nodup_cons.mp hnd).2)
    rw [ih hrest.2 fun he => hrest.1 (List.mem_of_mem_head? he), List.erase_of_not_mem hrest.1]
  | case4 t n rest hn ih =>
    have hne : t ≠ p := fun he => hhead (by rw [he]; rfl)
    rw [unlink, if_neg hn, List.erase_cons_tail (by simpa using hne),
      ih (List.nodup_cons.mp hnd).2 (by simpa using hn)]

theorem head_unlink (l : List ℕ) : (unlink p l).head? = l.head? := by
  induction l using unlink.induct p with
  | case1 => rfl
  | case2 t => rfl
  | case3 t rest ih => rw [unlink, if_pos rfl, List.head?_cons, List.head?_cons]
  | case4 t n rest hn ih => rw [unlink, if_neg hn, List.head?_cons, List.head?_cons]

/-- The state after the tasks `zs` of the wait queue of `p` were discarded. -/
def State.discard (s : State) (p : ℕ) (zs : List ℕ) : State := { s with
  task := Function.update s.task p { s.task p with waitQueue := [] }
  frees := fun t => s.frees t + zs.count t
  log := (zs.map (.discarded p)).reverse ++ s.log }

theorem wp_freeExited {E : Halt → State → Prop} (zs : List ℕ) (hw : (s.task p).waitQueue = zs)
    (hz : ∀ z ∈ zs, z ≠ p ∧ (s.task z).state = .exiting ∧ (s.task z).waitQueue = []) :
    wp (freeExited p zs) (fun _ s' => s' = s.discard p zs) E s := by
  induction zs generalizing s with
  | nil =>
    show s = _
    have hself : { s.task p with waitQueue := [] } = s.task p := by rw [← hw]
    simp [State.discard, hself]
  | cons z rest ih =>
    obtain ⟨hne, hst, hwq⟩ := hz z (List.mem_cons_self ..)
    rw [freeExited, wp_bind, wp_taskFree hst hwq, wp_bind, wp_modify]
    refine (ih ?_ fun z' hz' => ?_).mono (fun _ s' hs' => ?_) fun _ _ => id
    · rw [State.update_task, if_pos rfl]
    · obtain ⟨hne', hst', hwq'⟩ := hz z' (List.mem_cons_of_mem _ hz')
      rw [State.update_task, if_neg hne']
      exact ⟨hne', hst', hwq'⟩
    · rw [hs']
      unfold State.discard State.update State.note
      simp only [Function.update_self, Function.update_idem, List.map_cons, List.reverse_cons,
        List.append_assoc, List.singleton_append, State.mk.injEq, true_and, and_true]
      funext t
      rw [List.count_cons]
      by_cases he : z = t
      · subst he
        simp
        omega
      · simp [he, Function.update_of_ne (Ne.symm he)]

/-- What the exit of task `p` does: the task is in the wait queue of `q`, its children have the
parent 1, and the tasks of its wait queue are discarded. -/
structure Exits (s s' : State) (p q : ℕ) (status : ℤ) : Prop where
  queue : s'.queue = s.queue.erase p
  next : s'.next = s.next
  nextPid : s'.nextPid = s.nextPid
  pid : ∀ t, (s'.task t).pid = (s.task t).pid
  cwd : ∀ t, (s'.task t).cwd = (s.task t).cwd
  ppid : ∀ t ∈ s.queue.erase p, (s'.task t).ppid = if (s.task t).ppid = (s.task p).pid then 1
      else (s.task t).ppid
  waitQueue : ∀ t, t ≠ p → (s'.task t).waitQueue = if t = q then (s.task q).waitQueue ++ [p]
      else (s.task t).waitQueue
  own : (s'.task p).waitQueue = []
  exitStatus : ∀ t, (s'.task t).exitStatus = if t = p then status else (s.task t).exitStatus
  exiting : ∀ t, (s'.task t).state = .exiting ↔ t = p ∨ (s.task t).state = .exiting
  frees : ∀ t, s'.frees t = s.frees t + (s.task p).waitQueue.count t
  log : s'.log =
      .exited p (s.task p).pid status ::
        (((s.task p).waitQueue.map (.discarded p)).reverse ++ s.log)

theorem Inv.taskExit {status : ℤ} (h : Inv s) (hp : p ∈ s.queue) (hpid : (s.task p).pid ≠ 1) :
    wp (taskExit p status) (fun _ s' => ∃ q ∈ s.queue.erase p, (s.task q).pid = (s.task p).ppid ∧
      Exits s s' p q status)
      (fun _ _ => False) s := by
  have hp0 : p ≠ 0 := fun he => hpid (he ▸ h.init)
  have hunlink : unlink p s.queue = s.queue.erase p :=
    unlink_eq_erase h.queue_nodup (by rw [h.first]; simpa using hp0.symm)
  have hself : p ∉ s.queue.erase p := h.queue_nodup.not_mem_erase
  obtain ⟨q₀, hq₀, hne₀, hpid₀⟩ := h.parent hp hp0
  have hmem₀ : q₀ ∈ (s.queue.erase p).filter fun t => (s.task t).pid = (s.task p).ppid :=
    List.mem_filter.mpr ⟨(List.mem_erase_of_ne hne₀).mpr hq₀, by simpa using hpid₀⟩
  obtain ⟨q, hq⟩ :
    ∃ q, ((s.queue.erase p).filter fun t => (s.task t).pid = (s.task p).ppid).getLast? =
    some q :=
    Option.ne_none_iff_exists'.mp
      fun hn => by rw [List.getLast?_eq_none_iff.mp hn] at hmem₀; cases hmem₀
  obtain ⟨hqmem, hqpid⟩ := List.mem_filter.mp (List.mem_of_getLast? hq)
  have hqp : q ≠ p := fun he => hself (he ▸ hqmem)
  unfold Tasks.taskExit
  simp only [wp_bind, wp_read, ne_eq, hpid, not_false_eq_true, if_true, wp_modify, hunlink, hq]
  refine (wp_freeExited _ ?_ fun z hz => ?_).mono ?_ fun _ _ => id
  · simp [hself]
  · have hw : z ∈ s.waiting := mem_waiting.mpr ⟨p, hp, hz⟩
    have hzq : z ∉ s.queue.erase p := fun hm =>
      (List.nodup_append.mp h.nodup).2.2 z (List.mem_of_mem_erase hm) z hw rfl
    obtain ⟨hst, hwq, -, -⟩ := h.zombie p hp z hz
    have hne : z ≠ p := fun he => h.notMem_waiting hp (he ▸ hw)
    simp [hzq, hne, hst, hwq]
  · rintro - s₁ rfl
    simp only [wakeup, wp_modify]
    refine ⟨q, hqmem, by simpa using hqpid, ?_⟩
    constructor
    case queue => rfl
    case next => rfl
    case nextPid => rfl
    case frees => exact fun _ => rfl
    case own => simp [State.note, State.update, State.discard, hqp.symm, hself]
    case pid =>
      intro t
      simp only [State.note, State.update, State.discard, Function.update_apply]
      split_ifs <;> simp_all
    case cwd =>
      intro t
      simp only [State.note, State.update, State.discard, Function.update_apply]
      split_ifs <;> simp_all
    case ppid =>
      intro t ht
      have hne : t ≠ p := fun he => hself (he ▸ ht)
      simp only [State.note, State.update, State.discard, Function.update_apply]
      split_ifs <;> simp_all
    case waitQueue =>
      intro t hne
      simp only [State.note, State.update, State.discard, Function.update_apply]
      split_ifs <;> simp_all
    case exitStatus =>
      intro t
      simp only [State.note, State.update, State.discard, Function.update_apply]
      split_ifs <;> simp_all
    case exiting =>
      intro t
      simp only [State.note, State.update, State.discard, Function.update_apply]
      split_ifs <;> simp_all
    case log =>
      simp [State.note, State.update, State.discard, Function.update_apply, hqp.symm, hself]

theorem Exits.mem_log {status : ℤ} {e : Event} (hx : Exits s s' p q status) (he : e ∈ s.log) :
    e ∈ s'.log := by
  rw [hx.log]
  exact List.mem_cons_of_mem _ (List.mem_append_right _ he)

theorem Heir.append {log : List Event} {c : ℕ} (h : Heir log c q) (l : List Event) :
    Heir (l ++ log) c q := by
  induction l with
  | nil => exact h
  | cons e l ih => exact ih.cons e

theorem unsettled_discards {log : List Event} {c : ℕ} (zs : List ℕ) :
    Unsettled ((zs.map (.discarded p)).reverse ++ log) c ↔ Unsettled log c ∧ c ∉ zs := by
  induction zs using List.reverseRecOn with
  | nil => simp
  | append_singleton zs z ih =>
    rw [List.map_append, List.reverse_append, List.map_singleton, List.reverse_singleton,
      List.singleton_append, List.cons_append, unsettled_discarded, ih]
    simp only [List.mem_append, List.mem_singleton, not_or]
    tauto

/-- The discards of tasks that the task itself has forked are in order. -/
theorem LogOk.discards {log : List Event} {zs : List ℕ} (h : LogOk log) (hnd : zs.Nodup)
    (hz : ∀ z ∈ zs, .forked p z ∈ log ∧ Unsettled log z) :
    LogOk ((zs.map (.discarded p)).reverse ++ log) := by
  induction zs using List.reverseRecOn with
  | nil => exact h
  | append_singleton zs z ih =>
    rw [List.map_append, List.reverse_append, List.map_singleton, List.reverse_singleton,
      List.singleton_append, List.cons_append]
    have hnot : z ∉ zs := fun hm =>
      (List.nodup_append.mp hnd).2.2 z hm z (List.mem_singleton_self z) rfl
    obtain ⟨hf, hu⟩ := hz z (List.mem_append_right _ (List.mem_singleton_self z))
    refine ⟨ih (List.nodup_append.mp hnd).1 fun z' hz' => hz z' (List.mem_append_left _ hz'),
      List.mem_append_right _ hf, ?_⟩
    exact (unsettled_discards zs).mpr ⟨hu, hnot⟩

/-- A task that is not task 0 is the heir of those it has forked. -/
theorem Heir.forked {log : List Event} {c : ℕ} (h : Heir log c p) (hp : p ≠ 0) :
    .forked p c ∈ log :=
  h.resolve_right fun h0 => hp h0.1

theorem Exits.freed {status : ℤ} (hx : Exits s s' p q status) (h : Inv s) (hp : p ∈ s.queue)
    (hq : q ∈ s.queue.erase p) :
    Freed s s' (s.task p).waitQueue := by
  have hqp : q ≠ p := fun he => h.queue_nodup.not_mem_erase (he ▸ hq)
  refine ⟨hx.next, ?_, hx.frees, fun t => ?_⟩
  · have hnew := all_perm s' (p := q) (by rw [hx.queue]; exact hq)
    rw [hx.waitQueue q hqp, if_pos rfl, hx.queue] at hnew
    have hrest : ((s.queue.erase p).erase q).flatMap (fun t => (s'.task t).waitQueue) =
        ((s.queue.erase p).erase q).flatMap fun t => (s.task t).waitQueue :=
          List.flatMap_congr fun t ht => by
      have htq : t ≠ q := fun he => (h.queue_nodup.erase p).not_mem_erase (he ▸ ht)
      have htp : t ≠ p := fun he => h.queue_nodup.not_mem_erase (he ▸ List.mem_of_mem_erase ht)
      rw [hx.waitQueue t htp, if_neg htq]
    rw [hrest] at hnew
    have hold := all_perm s hp
    have hothers := (List.perm_cons_erase hq).flatMap_right fun t => (s.task t).waitQueue
    rw [List.flatMap_cons] at hothers
    have hqueue := List.perm_cons_erase hp
    rw [List.perm_iff_count] at *
    intro t
    have h₁ := hnew t
    have h₂ := hold t
    have h₃ := hothers t
    have h₄ := hqueue t
    simp only [List.count_append, List.count_cons, List.count_nil, hx.queue] at h₁ h₂ h₃ h₄ ⊢
    omega
  · rw [hx.log, unsettled_exited, unsettled_discards]

/-- Where the task that exits goes: to the task that forked it, or to task 0 if that one has
exited. -/
theorem Exits.heir {status : ℤ} (hx : Exits s s' p q status) (h : Inv s) (hp : p ∈ s.queue)
    (hp0 : p ≠ 0)
    (hq : q ∈ s.queue) (hpid : (s.task q).pid = (s.task p).ppid) : Heir s'.log p q := by
  obtain ⟨f, -, hf, ⟨hfq, hpp⟩ | ⟨⟨pid, status', hexit⟩, hpp⟩⟩ := h.kin p hp hp0
  · have he : f = q := h.pids f hfq q hq (hpp.symm.trans hpid.symm)
    exact .inl (he ▸ hx.mem_log hf)
  · have he : q = 0 := h.pids q hq 0 h.zero_mem (hpid.trans (hpp.trans h.init.symm))
    exact .inr ⟨he, f, [], _, _, _, hx.log, List.mem_append_right _ hf, pid, status',
      List.mem_append_right _ hexit⟩

theorem Exits.kin {status : ℤ} (hx : Exits s s' p q status) (h : Inv s) (hp : p ∈ s.queue)
    (hne : (s.task p).pid ≠ 1)
    (ht : t ∈ s.queue.erase p) (h0 : t ≠ 0) : ∃ f, f ≠ t ∧ .forked f t ∈ s'.log ∧
      (f ∈ s'.queue ∧ (s'.task t).ppid = (s'.task f).pid ∨
        (∃ pid status, .exited f pid status ∈ s'.log) ∧ (s'.task t).ppid = 1) := by
  obtain ⟨f, hft, hf, hcase⟩ := h.kin t (List.mem_of_mem_erase ht) h0
  refine ⟨f, hft, hx.mem_log hf, ?_⟩
  rw [hx.ppid t ht, hx.pid, hx.queue]
  rcases hcase with ⟨hfq, hpp⟩ | ⟨⟨pid, status', hexit⟩, hpp⟩
  · by_cases hfp : f = p
    · rw [if_pos (hfp ▸ hpp)]
      exact .inr ⟨⟨_, _, by rw [hx.log, hfp]; exact List.mem_cons_self ..⟩, rfl⟩
    · rw [if_neg fun he => hfp (h.pids f hfq p hp (hpp.symm.trans he))]
      exact .inl ⟨(List.mem_erase_of_ne hfp).mpr hfq, hpp⟩
  · rw [if_neg fun he => hne (he.symm.trans hpp)]
    exact .inr ⟨⟨pid, status', hx.mem_log hexit⟩, hpp⟩

/-- A task of a wait queue after the exit was there before, or is the one that exits. -/
theorem Exits.mem_waitQueue {status : ℤ} {r : ℕ} (hx : Exits s s' p q status) (h : Inv s)
    (hr : r ∈ s.queue.erase p)
    (hz : z ∈ (s'.task r).waitQueue) : z ∈ (s.task r).waitQueue ∨ r = q ∧ z = p := by
  rw [hx.waitQueue r fun he => h.queue_nodup.not_mem_erase (he ▸ hr)] at hz
  split_ifs at hz with he
  · subst he
    rcases List.mem_append.mp hz with hz | hz
    · exact .inl hz
    · exact .inr ⟨rfl, List.mem_singleton.mp hz⟩
  · exact .inl hz

theorem Exits.inv {status : ℤ} (hx : Exits s s' p q status) (h : Inv s) (hp : p ∈ s.queue)
    (hne : (s.task p).pid ≠ 1)
    (hq : q ∈ s.queue.erase p) (hpid : (s.task q).pid = (s.task p).ppid) : Inv s' := by
  have hp0 : p ≠ 0 := fun he => hne (he ▸ h.init)
  have hfreed := hx.freed h hp hq
  have hzero := h.zero_mem
  constructor
  case first =>
    rw [hx.queue, ← unlink_eq_erase h.queue_nodup (by rw [h.first]; simpa using hp0.symm)]
    rw [head_unlink, h.first]
  case init => rw [hx.pid, h.init]
  case nodup => exact hfreed.nodup h
  case bound => exact hfreed.bound h
  case kept => exact hfreed.kept h
  case gone => exact hfreed.gone_once h
  case number =>
    intro t ht
    rw [hx.next] at ht
    rw [hx.pid, h.number t ht]
  case nextNumber => rw [hx.nextPid, hx.next, h.nextNumber]
  case room => exact (cwdBytes_congr hx.next hx.cwd).trans_le h.room
  case live =>
    intro t ht
    rw [hx.queue] at ht
    rw [ne_eq, hx.exiting, not_or]
    exact ⟨fun he => h.queue_nodup.not_mem_erase (he ▸ ht), h.live t (List.mem_of_mem_erase ht)⟩
  case kin =>
    intro t ht h0
    rw [hx.queue] at ht
    exact hx.kin h hp hne ht h0
  case zombie =>
    intro r hr z hz
    rw [hx.queue] at hr
    rcases hx.mem_waitQueue h hr hz with hz | ⟨rfl, rfl⟩
    · have hw : z ∈ s.waiting := mem_waiting.mpr ⟨r, List.mem_of_mem_erase hr, hz⟩
      have hzp : z ≠ p := fun he => h.notMem_waiting hp (he ▸ hw)
      have hzq : z ≠ q := fun he => h.notMem_waiting (List.mem_of_mem_erase hq) (he ▸ hw)
      obtain ⟨hst, hwq, hexit, hheir⟩ := h.zombie r (List.mem_of_mem_erase hr) z hz
      rw [hx.exiting, hx.waitQueue z hzp, if_neg hzq, hx.pid, hx.exitStatus, if_neg hzp]
      refine ⟨.inr hst, hwq, hx.mem_log hexit, ?_⟩
      rw [hx.log]
      exact (hheir.append _).cons _
    · rw [hx.exiting, hx.own, hx.pid, hx.exitStatus, if_pos rfl]
      refine ⟨.inl rfl, rfl, ?_, hx.heir h hp hp0 (List.mem_of_mem_erase hq) hpid⟩
      rw [hx.log]
      exact List.mem_cons_self ..
  case log =>
    rw [hx.log]
    refine h.log.discards ((List.nodup_flatMap.mp h.waiting_nodup).1 p hp) fun z hz => ?_
    obtain ⟨-, -, -, hheir⟩ := h.zombie p hp z hz
    exact ⟨hheir.forked hp0,
      h.settled z (.inl (List.mem_append_right _ (mem_waiting.mpr ⟨p, hp, hz⟩)))⟩
  case settled => exact hfreed.settled h
  case freed => exact hfreed.freed h

/-! ### Every run -/

/-- A task changes its directory. -/
theorem Inv.chdir {path : List UInt8} (h : Inv s) (hp : p ∈ s.queue)
    (hfits : Op.Fits s (.chdir p path)) : Inv (s.update p fun x => { x with cwd := path }) := by
  refine h.same (same_update (h.live p hp) rfl rfl rfl rfl (h.live p hp)) ?_
  refine Nat.le_trans ?_ hfits
  have hterm : ∀ t ∈ Finset.range s.next,
      copySize ((s.update p fun x => { x with cwd := path }).task t).cwd ≤
        copySize (s.task t).cwd + if t = p then copySize path else 0 := fun t _ => by
    rw [State.update_task]
    split_ifs
    · exact Nat.le_add_left _ _
    · exact Nat.le_refl _
  refine (Finset.sum_le_sum hterm).trans ?_
  rw [Finset.sum_add_distrib, Finset.sum_ite_eq', if_pos (Finset.mem_range.mpr (h.queue_lt hp))]
  exact Nat.le_refl _

theorem wp_copyPath {Q : Unit → State → Prop} {E : Halt → State → Prop} {path : List UInt8} :
    wp (copyPath path) Q E s =
      if heapRoom < s.cwdBytes + copySize path then E .fault s else Q () s := by
  unfold copyPath
  rw [wp_bind, wp_read]
  split_ifs <;> rfl

/-- A call by a task in the queue keeps the invariant, and it returns if there is room for the path
that it copies. -/
theorem Op.exec_spec {op : Op} (h : Inv s) (ha : op.Allowed s) :
    wp op.exec (fun _ s' => Inv s') (fun _ _ => ¬op.Fits s) s := by
  cases op with
  | fork p =>
    show wp (forkInt p) _ _ s
    unfold forkInt
    rw [wp_bind, wp_read, wp_bind, wp_copyPath]
    split_ifs with hfull
    · exact Nat.not_le.mpr hfull
    · exact h.fork ha.1 (Nat.not_lt.mp hfull)
  | chdir p path =>
    show wp (sysChdir p path) _ _ s
    unfold sysChdir
    rw [wp_bind, wp_copyPath]
    split_ifs with hfull
    · exact Nat.not_le.mpr hfull
    · exact h.chdir ha.1 (Nat.not_lt.mp hfull)
  | wait p =>
    obtain ⟨hp, hrun, -⟩ := ha
    show wp (taskWait p) _ _ s
    unfold taskWait
    rw [wp_bind, wp_read]
    split_ifs
    · refine h.same (same_update (h.live p hp) rfl rfl rfl rfl TaskState.noConfusion) ?_
      exact (cwdBytes_update rfl).trans_le h.room
    · exact h
    · exact (h.reap hp).mono (fun _ _ => id) fun _ _ => False.elim
  | waitAwake p =>
    obtain ⟨hp, hrun, -⟩ := ha
    show wp (taskWaitAwake p) _ _ s
    unfold taskWaitAwake
    rw [wp_bind, wp_modify]
    have hs := h.same
      (same_update (f := fun x => { x with inWait := false }) (h.live p hp) rfl rfl rfl rfl
        (h.live p hp)) ((cwdBytes_update rfl).trans_le h.room)
    exact (hs.reap hp).mono (fun _ _ => id) fun _ _ => False.elim
  | exit p status =>
    obtain ⟨hp, hrun, hne⟩ := ha
    exact (h.taskExit hp hne).mono (fun _ _ ⟨q, hq, hpid, hx⟩ => hx.inv h hp hne hq hpid)
      fun _ _ => False.elim
  | rouse p =>
    refine h.same (same_update (h.live p ha.1) rfl rfl rfl rfl TaskState.noConfusion) ?_
    exact (cwdBytes_update rfl).trans_le h.room

end

end Cosiris.Tasks
