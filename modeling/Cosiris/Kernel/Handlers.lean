import Cosiris.Kernel.Awaken

/-!
# What the return of a handler restores

`signal_handler_return` copies back the whole record of the task, so that it undoes what was done
to the record while the handler ran: the link to the next task, the handlers, the array of files.
A handler that interrupts another frees the copy of the outer one.

In every run in which nothing of this happens to a task in a handler, the return of a handler
leaves the queue and what the task has as they are, and goes on where the handler was entered. -/

namespace Cosiris.Signals

open Prog

/-- The task is in a handler. -/
def State.InHandler (s : State) (t : ℕ) : Prop := ∃ point state, .handler point state ∈ s.calls t

/-- **A handler is transparent**: its return leaves the queue, the other tasks, and of the current
task all but its registers and what the scheduler reads; and the task goes on where its latest
handler was entered. -/
structure Transparent (s s' : State) : Prop where
  queue : s'.queue = s.queue
  others : ∀ t, t ≠ s.current → s'.task t = s.task t
  record : ∃ state sleepAddr sleepEndTick regs, s'.task s.current = { s.task s.current with
    state := state, sleepAddr := sleepAddr, sleepEndTick := sleepEndTick,
    sTask := none, regs := regs }
  owned : s'.lists = s.lists ∧ s'.heaps = s.heaps ∧ s'.arrays = s.arrays
  lifo : ∃ above point state below, s.calls s.current = above ++ .handler point state :: below ∧
    (∀ p st, .handler p st ∉ above) ∧ (s'.task s.current).regs = point ∧ s'.calls s.current = below

/-- The exit of task `p` changes no task that is in a handler. -/
def State.ExitQuiet (s : State) (p : ℕ) : Prop := ∀ t ∈ walk (s.unlinked p) s.count 0,
  (s.task t).next = some p ∨ (s.task t).ppid = (s.task p).pid → ¬s.InHandler t

/-- What is not done to a task in a handler: no task is forked behind it, the task behind it and
its parent do not exit, its array of files is not grown, its handlers are not changed, and it
enters no other handler. -/
def Op.Quiet (s : State) : Op → Prop
  | fork => ¬s.InHandler s.getLastTask
  | exit => s.ExitQuiet s.current
  | switch n => ∀ sig ∈ s.signals, sig.pid = (s.task n).pid →
    ((∃ f, (s.task n).sigHandlers sig.signum = .user f) → ¬s.InHandler n) ∧
    ((s.task n).sigHandlers sig.signum = .dfl → sigDefault sig.signum = some .terminate →
      s.ExitQuiet n)
  | .open _ => s.Full → ¬s.InHandler s.current
  | signal signum handler => signum < numSigs ∧ signum ≠ 9 ∧ signum ≠ 19 →
    (s.task s.current).sigHandlers signum ≠ handler → ¬s.InHandler s.current
  | _ => True

/-! ### The invariant -/

/-- The copy and the record agree in what a return is to leave. -/
structure Agree (x y : Task) : Prop where
  pid : x.pid = y.pid
  ppid : x.ppid = y.ppid
  next : x.next = y.next
  waitQueue : x.waitQueue = y.waitQueue
  sigHandlers : x.sigHandlers = y.sigHandlers
  heap : x.heap = y.heap
  files : x.files = y.files
  numFiles : x.numFiles = y.numFiles

/-- The record `x` goes with the calls: the task is in no handler, or in one, and the copy agrees
with the record. -/
structure Kept (s : State) (x : Task) (c : List Call) : Prop where
  sleep : ∀ pc, x.regs = .sleep pc → topSleeps c = true
  free : x.sTask = none → ∀ p st, .handler p st ∉ c
  saved : ∀ k, x.sTask = some k → k < s.savedCount ∧ Agree (s.saved k) x ∧ ∃ above below,
    c = above ++ .handler (s.saved k).regs (s.saved k).state :: below ∧
      (∀ p st, .handler p st ∉ above) ∧
      (∀ p st, .handler p st ∉ below) ∧ ∀ pc, (s.saved k).regs = .sleep pc → topSleeps below = true

/-- Every task goes with its calls. -/
def State.Kept (s : State) : Prop := ∀ t, Signals.Kept s (s.task t) (s.calls t)

section

variable {s s' : State} {t : ℕ} {x y : Task} {c : List Call}

theorem Agree.refl (x : Task) : Agree x x := ⟨rfl, rfl, rfl, rfl, rfl, rfl, rfl, rfl⟩

theorem Agree.trans {z : Task} (h : Agree x y) (h' : Agree y z) : Agree x z :=
  ⟨h.pid.trans h'.pid, h.ppid.trans h'.ppid, h.next.trans h'.next, h.waitQueue.trans h'.waitQueue,
    h.sigHandlers.trans h'.sigHandlers, h.heap.trans h'.heap, h.files.trans h'.files,
      h.numFiles.trans h'.numFiles⟩

theorem Kept.sTask_eq_none (h : Kept s x c) (hc : ∀ p st, .handler p st ∉ c) : x.sTask = none := by
  cases hk : x.sTask with
  | none => rfl
  | some k =>
    obtain ⟨-, -, above, below, rfl, -⟩ := h.saved k hk
    exact absurd (List.mem_append_right _ (List.mem_cons_self ..))
      (hc (s.saved k).regs (s.saved k).state)

/-- The copies are kept. -/
structure Copies (s s' : State) : Prop where
  count : s.savedCount ≤ s'.savedCount
  saved : ∀ k, k < s.savedCount → s'.saved k = s.saved k

theorem Copies.refl (s : State) : Copies s s := ⟨Nat.le_refl _, fun _ _ => rfl⟩

theorem Kept.copies (h : Kept s x c) (hs : Copies s s') : Kept s' x c where
  sleep := h.sleep
  free := h.free
  saved k hk := by
    obtain ⟨hlt, hrest⟩ := h.saved k hk
    rw [hs.saved k hlt]
    exact ⟨Nat.lt_of_lt_of_le hlt hs.count, hrest⟩

/-- A change of the registers and of what the scheduler reads. -/
theorem Kept.alike (h : Kept s x c) (ha : Agree x y) (hs : y.sTask = x.sTask)
    (hr : ∀ pc, y.regs = .sleep pc → x.regs = .sleep pc) : Kept s y c where
  sleep pc hpc := h.sleep pc (hr pc hpc)
  free hn := h.free (hs ▸ hn)
  saved k hk := by
    obtain ⟨hlt, hagree, hrest⟩ := h.saved k (hs ▸ hk)
    exact ⟨hlt, hagree.trans ha, hrest⟩

/-- Any change of a task that is in no handler. -/
theorem Kept.outside (h : Kept s x c) (hc : ∀ p st, .handler p st ∉ c) (hs : y.sTask = x.sTask)
    (hr : ∀ pc, y.regs = .sleep pc → x.regs = .sleep pc) : Kept s y c where
  sleep pc hpc := h.sleep pc (hr pc hpc)
  free _ := hc
  saved k hk := by
    rw [hs, h.sTask_eq_none hc] at hk
    cases hk

theorem not_inHandler : ¬s.InHandler t ↔ ∀ p st, .handler p st ∉ s.calls t := by
  simp [State.InHandler]

theorem Ready.kept (h : Ready s) : s.Kept := fun t => by
  constructor
  case sleep =>
    intro pc hpc
    obtain ⟨pc', hr⟩ := h.regs t
    rw [hr] at hpc
    cases hpc
  case free =>
    intro _ p st
    rw [h.calls]
    exact List.not_mem_nil
  case saved =>
    intro k hk
    rw [h.sTask] at hk
    cases hk

/-! ### Steps of one task -/

theorem State.Kept.of (h : ∀ t, Signals.Kept s (s'.task t) (s'.calls t))
    (hc : Copies s s') : s'.Kept :=
  fun t => (h t).copies hc

theorem State.Kept.same (h : s.Kept) (htask : s'.task = s.task) (hcalls : s'.calls = s.calls)
    (hc : Copies s s') : s'.Kept :=
  .of (fun t => by rw [htask, hcalls]; exact h t) hc

theorem State.Kept.change (h : s.Kept) (t : ℕ) (hf : Signals.Kept s x c) :
    ((s.update t fun _ => x).setCalls t c).Kept := by
  refine .of (s := s) (fun u => ?_) ⟨Nat.le_refl _, fun _ _ => rfl⟩
  by_cases he : u = t
  · subst he
    simpa [State.update, State.setCalls] using hf
  · simpa [State.update, State.setCalls, he] using h u

theorem State.Kept.update {f : Task → Task} (h : s.Kept) (t : ℕ)
    (hf : Signals.Kept s (f (s.task t)) (s.calls t)) :
    (s.update t f).Kept := by
  refine .of (s := s) (fun u => ?_) ⟨Nat.le_refl _, fun _ _ => rfl⟩
  by_cases he : u = t
  · subst he
    simpa [State.update] using hf
  · simpa [State.update, he] using h u

theorem Kept.push (h : Kept s x c) {a : Addr} (hs : y.sTask = x.sTask) (ha : Agree x y) :
    Kept s y (.sleepOn a false :: c) where
  sleep _ _ := rfl
  free hn p st hm := by
    rcases List.mem_cons.mp hm with he | hm
    · cases he
    · exact h.free (hs ▸ hn) p st hm
  saved k hk := by
    obtain ⟨hlt, hagree, above, below, rfl, habove, hbelow⟩ := h.saved k (hs ▸ hk)
    refine ⟨hlt, hagree.trans ha, .sleepOn a false :: above, below, rfl, fun p st hm => ?_, hbelow⟩
    rcases List.mem_cons.mp hm with he | hm
    · cases he
    · exact habove p st hm

theorem State.Kept.sleepOn {a : Addr} (h : s.Kept) :
    wp (sleepOn a) (fun _ => State.Kept) (fun _ _ => False) s := by
  simp only [Signals.sleepOn, wp_modify]
  refine State.Kept.change (s := { s with switchLocked := false })
    (h.same rfl rfl ⟨Nat.le_refl _, fun _ _ => rfl⟩) s.current ?_
  exact Kept.copies (s := s) ((h s.current).push rfl ⟨rfl, rfl, rfl, rfl, rfl, rfl, rfl, rfl⟩)
    ⟨Nat.le_refl _, fun _ _ => rfl⟩

theorem State.Kept.intReturn (h : s.Kept) :
    wp intReturn (fun _ => State.Kept) (fun _ _ => True) s := by
  simp only [Signals.intReturn, wp_modify]
  cases hr : (s.task s.current).regs with
  | run pc => exact h
  | wakes a => exact h
  | gone => exact h
  | sleep pc =>
    have hk := h s.current
    obtain ⟨a, w, rest, hc⟩ := exists_of_topSleeps (hk.sleep pc hr)
    rw [hc] at hk
    show State.Kept ((s.update s.current _).setCalls s.current (s.calls s.current).tail)
    rw [hc]
    refine h.change s.current ?_
    constructor
    case sleep => exact fun pc' hpc' => by cases hpc'
    case free => exact fun hn p st hm => hk.free hn p st (List.mem_cons_of_mem _ hm)
    case saved =>
      intro k hs
      obtain ⟨hlt, hagree, above, below, hcalls, habove, hbelow⟩ := hk.saved k hs
      cases above with
      | nil => cases hcalls
      | cons d above =>
        obtain ⟨rfl, hrest⟩ := List.cons.inj hcalls
        exact ⟨hlt, hagree.trans ⟨rfl, rfl, rfl, rfl, rfl, rfl, rfl, rfl⟩, above, below, hrest,
          fun p st hm => habove p st (List.mem_cons_of_mem _ hm), hbelow⟩

theorem State.Kept.enterHandler (h : s.Kept) (f : ℕ) (hno : ¬s.InHandler s.current) :
    wp (enterHandler f) (fun _ => State.Kept) (fun _ _ => True) s := by
  have hcopies : Copies s s.save := ⟨Nat.le_succ _, fun k hk => State.save_saved_of_lt hk⟩
  simp only [Signals.enterHandler, wp_modify]
  have hsave : s.save.Kept := h.same rfl rfl hcopies
  refine hsave.change s.current ?_
  constructor
  case sleep => exact fun pc hpc => by cases hpc
  case free => exact fun hn => by cases hn
  case saved =>
    intro k hk
    cases hk
    refine ⟨Nat.lt_succ_self _, ?_, [], s.calls s.current, ?_, fun _ _ => List.not_mem_nil,
      not_inHandler.mp hno, ?_⟩
    · rw [State.save_saved]
      exact ⟨rfl, rfl, rfl, rfl, rfl, rfl, rfl, rfl⟩
    · rw [State.save_saved, List.nil_append]
    · rw [State.save_saved]
      exact (h s.current).sleep

theorem State.Kept.signalHandlerReturn (h : s.Kept) :
    wp signalHandlerReturn (fun _ => State.Kept) (fun _ _ => True) s := by
  simp only [Signals.signalHandlerReturn, wp_bind, wp_read]
  cases hk : (s.task s.current).sTask with
  | none => trivial
  | some k =>
    obtain ⟨-, -, above, below, hc, habove, hbelow, hsleep⟩ := (h s.current).saved k hk
    rw [wp_modify, hc, afterHandler_append habove]
    exact h.change s.current ⟨hsleep, fun _ => hbelow, fun k' hk' => by cases hk'⟩

/-! ### Steps of several tasks -/

theorem Kept.wake (h : Kept s x c) (a : Addr) : Kept s x (c.map (Call.wake a)) := by
  have hno : ∀ {l : List Call}, (∀ p st, .handler p st ∉ l) →
    ∀ p st, .handler p st ∉ l.map (Call.wake a) := fun hl p st hm => by
    obtain ⟨d, hd, he⟩ := List.mem_map.mp hm
    cases d with
    | sleepOn b w => cases he
    | handler p' st' =>
      cases he
      exact hl p st hd
  constructor
  case sleep =>
    rw [topSleeps_wake]
    exact h.sleep
  case free => exact fun hn => hno (h.free hn)
  case saved =>
    intro k hk
    obtain ⟨hlt, hagree, above, below, rfl, habove, hbelow, hsleep⟩ := h.saved k hk
    refine ⟨hlt, hagree, above.map (Call.wake a), below.map (Call.wake a), ?_,
      hno habove, hno hbelow, ?_⟩
    · rw [List.map_append, List.map_cons]
      rfl
    · rw [topSleeps_wake]
      exact hsleep

theorem State.Kept.wakeup (h : s.Kept) (a : Addr) :
    wp (wakeup a) (fun _ => State.Kept) (fun _ _ => True) s := by
  simp only [Signals.wakeup, wp_modify]
  refine .of (s := s) (fun t => ?_) ⟨Nat.le_refl _, fun _ _ => rfl⟩
  refine Kept.wake ?_ a
  dsimp only
  split_ifs
  · exact (h t).alike ⟨rfl, rfl, rfl, rfl, rfl, rfl, rfl, rfl⟩ rfl fun _ => id
  · exact h t

theorem State.Kept.forkInt (h : s.Kept) (hr : s.Runs) (hq : Op.fork.Quiet s) :
    wp forkInt (fun _ => State.Kept) (fun _ _ => True) s := by
  obtain ⟨⟨pc, hpc⟩, -⟩ := hr
  simp only [Signals.forkInt, wp_modify]
  refine .of (s := s) (fun t => ?_) ⟨Nat.le_refl _, fun _ _ => rfl⟩
  dsimp only
  by_cases ht : t = s.count
  · subst ht
    rw [Function.update_self, Function.update_self]
    constructor
    case sleep =>
      intro pc' hpc'
      rw [hpc] at hpc'
      cases hpc'
    case free => exact fun _ _ _ => List.not_mem_nil
    case saved => exact fun k hk => by cases hk
  · rw [Function.update_of_ne ht, Function.update_of_ne ht]
    by_cases hl : t = s.getLastTask
    · subst hl
      rw [State.update_self]
      exact (h _).outside (not_inHandler.mp hq) rfl fun _ => id
    · rw [State.update_of_ne hl]
      exact h t

theorem State.Kept.exited {p q : ℕ} (h : s.Kept) (hq : s.ExitQuiet p) :
    (s.exited p q (walk (s.unlinked p) s.count 0)).Kept := by
  refine .of (s := s) (fun t => ?_) ⟨Nat.le_refl _, fun _ _ => rfl⟩
  have hsTask : ((s.exited p q (walk (s.unlinked p) s.count 0)).task t).sTask =
    (s.task t).sTask := by
    rw [State.exited_task]
    split_ifs <;> rfl
  have hregs : ∀ pc, ((s.exited p q (walk (s.unlinked p) s.count 0)).task t).regs = .sleep pc →
    (s.task t).regs = .sleep pc := by
    intro pc hpc
    rw [State.exited_task] at hpc
    by_cases he : t = p
    · rw [if_pos he] at hpc
      cases hpc
    · rw [if_neg he] at hpc
      split_ifs at hpc <;> exact hpc
  by_cases hv : t ∈ walk (s.unlinked p) s.count 0 ∧
    ((s.task t).next = some p ∨ (s.task t).ppid = (s.task p).pid)
  · exact (h t).outside (not_inHandler.mp (hq t hv.1 hv.2)) hsTask hregs
  · refine (h t).alike ?_ hsTask hregs
    rw [State.exited_task]
    by_cases hm : t ∈ walk (s.unlinked p) s.count 0
    · have hne := not_or.mp fun hc => hv ⟨hm, hc⟩
      have hnext : s.unlinked p t = (s.task t).next := if_neg hne.1
      rw [if_pos hm, hnext, if_neg hne.2]
      split_ifs <;> exact ⟨rfl, rfl, rfl, rfl, rfl, rfl, rfl, rfl⟩
    · rw [if_neg hm]
      split_ifs <;> exact ⟨rfl, rfl, rfl, rfl, rfl, rfl, rfl, rfl⟩

theorem State.Kept.taskExit (h : s.Kept) (hq : s.ExitQuiet s.current) :
    wp taskExit (fun _ => State.Kept) (fun _ _ => True) s := by
  simp only [Signals.taskExit, wp_bind, wp_read, wp_ite]
  split_ifs
  · exact h.same rfl rfl ⟨Nat.le_refl _, fun _ _ => rfl⟩
  · split
    · trivial
    · exact h.exited hq

/-- What the loop of `process_signals` leaves before a handler or an exit. -/
structure Looked (s s' : State) : Prop where
  kept : s'.Kept
  current : s'.current = s.current
  calls : s'.calls = s.calls
  count : s'.count = s.count
  agree : ∀ t, Agree (s.task t) (s'.task t)

theorem Looked.exitQuiet {p : ℕ} (h : Looked s s') (hq : s.ExitQuiet p) : s'.ExitQuiet p := by
  have hunlinked : s'.unlinked p = s.unlinked p := by
    funext t
    simp only [State.unlinked, (h.agree _).next]
  intro t ht hc
  rw [hunlinked, h.count] at ht
  rw [← (h.agree t).next, ← (h.agree t).ppid, ← (h.agree p).pid] at hc
  have hno := hq t ht hc
  rw [not_inHandler] at hno ⊢
  rw [h.calls]
  exact hno

theorem Looked.awake (h : Looked s s') (t : ℕ) : Looked s (s'.awake t) := by
  have hagree : ∀ u, Agree (s'.task u) ((s'.awake t).task u) := fun u => by
    unfold State.awake
    by_cases he : u = t
    · subst he
      rw [State.update_self]
      split_ifs <;> exact ⟨rfl, rfl, rfl, rfl, rfl, rfl, rfl, rfl⟩
    · rw [State.update_of_ne he]
      exact Agree.refl _
  refine ⟨h.kept.update t ?_, h.current, h.calls, h.count, fun u => (h.agree u).trans (hagree u)⟩
  split_ifs
  · exact (h.kept t).alike ⟨rfl, rfl, rfl, rfl, rfl, rfl, rfl, rfl⟩ rfl fun _ => id
  · exact h.kept t

theorem State.Kept.taskSwitchInt {n : ℕ} (h : s.Kept) (hq : (Op.switch n).Quiet s) :
    wp (taskSwitchInt n) (fun _ => State.Kept) (fun _ _ => True) s := by
  rw [Signals.taskSwitchInt, wp_bind, wp_modify, wp_bind, wp_read]
  have h₀ : Looked { s with current := n } { s with current := n } :=
    ⟨h.same rfl rfl ⟨Nat.le_refl _, fun _ _ => rfl⟩, rfl, rfl, rfl, fun _ => Agree.refl _⟩
  refine wp_processSignals (I := Looked { s with current := n }) s.signals (fun s' t hl => ?_)
    (fun s' sig hl => ?_)
    (fun s' hl => hl.kept.intReturn) (fun s' hl hx => ?_) (fun s' f hl hx => ?_)
      (fun _ => trivial) h₀
  · exact hl.awake t
  · exact ⟨hl.kept.same rfl rfl ⟨Nat.le_refl _, fun _ _ => rfl⟩, hl.current, hl.calls, hl.count,
      hl.agree⟩
  · obtain ⟨sig, hm, hpid, hdfl, hterm⟩ := hx
    have hn := hl.agree n
    rw [hl.current] at hpid hdfl
    have hquiet : s'.ExitQuiet s'.current := by
      rw [hl.current]
      refine hl.exitQuiet (s := { s with current := n }) ?_
      exact (hq sig hm (hpid.trans hn.pid.symm)).2 (by rw [hn.sigHandlers]; exact hdfl) hterm
    by_cases h1 : (s'.task s'.current).pid = 1
    · simp only [Signals.taskExit, wp_bind, wp_read, if_pos h1, wp_modify]
      exact ⟨hl.kept.same rfl rfl ⟨Nat.le_refl _, fun _ _ => rfl⟩, hl.current, hl.calls, hl.count,
        hl.agree⟩
    · simp only [if_neg h1]
      exact hl.kept.taskExit hquiet
  · obtain ⟨sig, hm, hpid, huser⟩ := hx
    have hn := hl.agree n
    rw [hl.current] at hpid huser
    have hno : ¬s.InHandler n :=
      (hq sig hm (hpid.trans hn.pid.symm)).1 ⟨f, by rw [hn.sigHandlers]; exact huser⟩
    refine hl.kept.enterHandler f ?_
    rw [not_inHandler] at hno ⊢
    rw [hl.calls, hl.current]
    exact hno

theorem State.Kept.sysOpen (h : s.Kept) (file : Option ℕ) (hq : (Op.open file).Quiet s) :
    wp (sysOpen file) (fun _ => State.Kept) (fun _ _ => True) s := by
  simp only [Signals.sysOpen, wp_modify]
  have hgrown : (if s.Full then s.grow (fdAlloc s.slots).2 else s).Kept := by
    split_ifs with hf
    · have hupd : ∀ n, (s.update s.current fun x =>
          { x with files := s.arrayCount, numFiles := n }).Kept := fun n =>
        h.update s.current ((h s.current).outside (not_inHandler.mp (hq hf)) rfl fun _ => id)
      exact (hupd _).same rfl rfl ⟨Nat.le_refl _, fun _ _ => rfl⟩
    · exact h
  split
  · exact hgrown
  · exact hgrown.same rfl rfl ⟨Nat.le_refl _, fun _ _ => rfl⟩

/-! ### Every run -/

/-- A quiet step keeps what the return of a handler needs. -/
theorem Op.exec_kept {op : Op} (h : s.Kept) (ha : op.Allowed s) (hq : op.Quiet s) :
    wp op.exec (fun _ => State.Kept) (fun _ _ => True) s := by
  cases op with
  | sleepOn a => exact h.sleepOn.mono (fun _ _ => id) fun _ _ _ => trivial
  | sleepOnms a ms =>
    show wp (Signals.sleepOnms a ms) _ _ s
    rw [Signals.sleepOnms, wp_bind, wp_modify]
    have hs : ∀ n, (s.update s.current fun x => { x with sleepEndTick := n }).Kept := fun n =>
      h.update s.current
        ((h s.current).alike ⟨rfl, rfl, rfl, rfl, rfl, rfl, rfl, rfl⟩ rfl fun _ => id)
    exact (hs _).sleepOn.mono (fun _ _ => id) fun _ _ _ => trivial
  | wakeup a =>
    show wp (do Signals.wakeup a; modify _) _ _ s
    rw [wp_bind]
    refine (h.wakeup a).mono (fun _ s' h' => ?_) fun _ _ _ => trivial
    rw [wp_modify]
    refine h'.update s'.current
      ((h' s'.current).alike ⟨rfl, rfl, rfl, rfl, rfl, rfl, rfl, rfl⟩ rfl fun pc hpc => ?_)
    dsimp only at hpc
    split_ifs at hpc
    exact hpc
  | wakeCheck t =>
    show wp (Signals.wakeCheck t) _ _ s
    simp only [Signals.wakeCheck, wp_modify]
    refine h.update t ?_
    split_ifs
    · exact (h t).alike ⟨rfl, rfl, rfl, rfl, rfl, rfl, rfl, rfl⟩ rfl fun _ => id
    · exact h t
  | tick => exact h.same rfl rfl ⟨Nat.le_refl _, fun _ _ => rfl⟩
  | fork => exact h.forkInt ha hq
  | exit => exact h.taskExit hq
  | signal signum handler =>
    show wp (Signals.signal signum handler) _ _ s
    simp only [Signals.signal, wp_modify]
    split_ifs with hset
    · refine h.update s.current ?_
      by_cases he : (s.task s.current).sigHandlers signum = handler
      · rw [← he, Function.update_eq_self]
        exact h s.current
      · exact (h s.current).outside (not_inHandler.mp (hq hset he)) rfl fun _ => id
    · exact h
  | kill pid signum =>
    show wp (Signals.kill pid signum) _ _ s
    simp only [Signals.kill, wp_modify]
    split_ifs
    · exact h.same rfl rfl ⟨Nat.le_refl _, fun _ _ => rfl⟩
    · exact h
  | switch n => exact h.taskSwitchInt hq
  | handlerReturn => exact h.signalHandlerReturn
  | «open» file => exact h.sysOpen file hq
  | close fd => exact h.same rfl rfl ⟨Nat.le_refl _, fun _ _ => rfl⟩
  | sbrk e => exact h.same rfl rfl ⟨Nat.le_refl _, fun _ _ => rfl⟩
  | compute pc =>
    exact h.update s.current
      ((h s.current).alike ⟨rfl, rfl, rfl, rfl, rfl, rfl, rfl, rfl⟩ rfl fun _ hpc => by cases hpc)

theorem Transparent.sigHandlers (h : Transparent s s') :
    (s'.task s.current).sigHandlers = (s.task s.current).sigHandlers := by
  obtain ⟨_, _, _, _, hrec⟩ := h.record
  rw [hrec]

theorem walk_congr {link link' : ℕ → Option ℕ} (h : ∀ t, link t = link' t) (fuel t : ℕ) :
    walk link fuel t = walk link' fuel t := by
  rw [funext h]

theorem State.Kept.transparent (h : s.Kept) (hin : s.InHandler s.current) :
    wp Op.handlerReturn.exec (fun _ s' => Transparent s s') (fun _ _ => False) s := by
  obtain ⟨k, hk⟩ : ∃ k, (s.task s.current).sTask = some k := by
    obtain ⟨p, st, hm⟩ := hin
    exact Option.ne_none_iff_exists'.mp fun hn => (h s.current).free hn p st hm
  obtain ⟨-, hagree, above, below, hc, habove, -, -⟩ := (h s.current).saved k hk
  simp only [Op.exec, Signals.signalHandlerReturn, wp_bind, wp_read, hk, wp_modify]
  constructor
  case queue =>
    refine walk_congr (fun t => ?_) _ _
    rw [State.setCalls_task]
    by_cases he : t = s.current
    · subst he
      rw [State.update_self]
      exact hagree.next
    · rw [State.update_of_ne he]
  case others =>
    intro t ht
    rw [State.setCalls_task, State.update_of_ne ht]
  case record =>
    rw [State.setCalls_task, State.update_self]
    refine ⟨if (s.saved k).state = .awaken then .sleeping else (s.saved k).state,
      (s.saved k).sleepAddr, (s.saved k).sleepEndTick, (s.saved k).regs, ?_⟩
    rw [Task.mk.injEq]
    exact ⟨hagree.pid, hagree.ppid, hagree.next, rfl, rfl, rfl, hagree.waitQueue,
      hagree.sigHandlers, hagree.heap, hagree.files, hagree.numFiles, rfl, rfl⟩
  case owned => exact ⟨rfl, rfl, rfl⟩
  case lifo =>
    refine ⟨above, (s.saved k).regs, (s.saved k).state, below, hc, habove, ?_, ?_⟩
    · rw [State.setCalls_task, State.update_self]
    · show Function.update s.calls s.current (afterHandler (s.calls s.current)) s.current = below
      rw [Function.update_self, hc, afterHandler_append habove]

/-- **Signal handlers**: from tasks that all run, in every run in which nothing is done to the
record of a task in a handler, the return of a handler is transparent. -/
theorem handler_return_transparent {s₀ : State} (h₀ : Ready s₀) (hr : Reach (Step Op.Quiet) s₀ s)
    (ha : Op.handlerReturn.Allowed s) :
    ∃ s', Op.handlerReturn.exec s = .ok () s' ∧ Transparent s s' := by
  have hkept : s.Kept :=
    hr.invariant (fun s s' h ⟨_, ha, hq, he⟩ => (Op.exec_kept h ha hq).ok he) h₀.kept
  obtain ⟨_, s', he, ht⟩ := (hkept.transparent ha.2).returns
  exact ⟨s', he, ht⟩

end

/-- The second task of the pair is sent a signal, and enters its handler. -/
def pairHandling : State := (pair.after [.kill 2 2]).after [.switch 1]

theorem reach_pairHandling {C : State → Op → Prop} (h₁ : C pair (.kill 2 2))
    (h₂ : C (pair.after [.kill 2 2]) (.switch 1)) :
    Reach (Step C) pair pairHandling := by
  have hkill := Step.after (C := C) (.refl (a := pair)) (.kill 2 2) trivial h₁ rfl
  exact Step.after hkill (.switch 1) ⟨fun _ => Point.noConfusion, show _ ∧
    _ from ⟨by decide, .inl rfl⟩⟩ h₂ rfl

theorem handler_return_transparent_pair :
    ∃ s s', Reach (Step Op.Quiet) pair s ∧ Op.handlerReturn.exec s = .ok () s' ∧
      Transparent s s' := by
  have hr : Reach (Step Op.Quiet) pair pairHandling := by
    refine reach_pairHandling trivial fun sig hm _ =>
      ⟨fun _ => not_inHandler.mpr fun _ _ => List.not_mem_nil, fun hd => ?_⟩
    obtain rfl : sig = ⟨2, 2⟩ := List.mem_singleton.mp hm
    cases hd
  obtain ⟨s', he, ht⟩ :=
    handler_return_transparent pair_ready hr ⟨⟨⟨0, rfl⟩, .inl rfl⟩, _, _, List.mem_cons_self ..⟩
  exact ⟨pairHandling, s', hr, he, ht⟩

/-- A handler that the handler installs is lost with its return. -/
theorem installed_handler_lost :
    ¬∀ s, Reach (Step fun _ _ => True) pair s → Op.handlerReturn.Allowed s →
    ∃ s', Op.handlerReturn.exec s = .ok () s' ∧ Transparent s s' := by
  intro h
  have hr := Step.after (reach_pairHandling (C := fun _ _ => True) trivial trivial)
    (.signal 15 (.user 7))
    ⟨⟨0, rfl⟩, .inl rfl⟩ trivial rfl
  obtain ⟨s', he, ht⟩ := h _ hr ⟨⟨⟨0, rfl⟩, .inl rfl⟩, _, _, List.mem_cons_self ..⟩
  cases he
  have hlost : Handler.dfl = .user 7 := congrFun ht.sigHandlers 15
  cases hlost

end Cosiris.Signals
