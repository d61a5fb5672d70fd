import Cosiris.Kernel.Awaken
import Mathlib.Algebra.Order.Ring.Int
import Mathlib.Data.List.Perm.Subperm

/-!
# Signal numbers from user space

`sys_signal` and `sys_kill` with any `int` for the number. `signal` compares the number with
`NUM_SIGS` as a signed one and `kill` does not look at it; `process_signals` takes it for an index
in two tables, of which `sig_default` has gaps.

A signal is queued for a task of the task queue, and `task_exit` drops the signals of its task. In
every run in which the numbers are those of default actions, and the link of a task in a handler
is not changed, what `process_signals` reads is there. -/

namespace Cosiris.Signals

open Prog

/-! ### The calls -/

/-- A step: a call with its `int` arguments, or another step. -/
inductive Sys where
  | signal (signum : ℤ) (handler : Handler)
  | kill (pid signum : ℤ)
  | step (op : Op)

/-- `sys_signal`. A negative number is an index outside `sig_handlers`. -/
def sysSignal (signum : ℤ) (handler : Handler) : Kern Unit :=
  if signum < numSigs ∧ signum ≠ 9 ∧ signum ≠ 19 then
    if 0 ≤ signum then signal signum.toNat handler else halt .fault
  else pure ()

/-- `sys_kill`. The number is queued as it is, and read as an `uint32_t`. -/
def sysKill (pid signum : ℤ) : Kern Unit :=
  kill (UInt32.ofNat (pid % 2 ^ 32).toNat) (signum % 2 ^ 32).toNat

/-- The other steps of a run. -/
def Op.Other : Op → Prop
  | signal _ _ | kill _ _ => False
  | _ => True

/-- A run of the step. -/
def Sys.exec : Sys → Kern Unit
  | signal signum handler => sysSignal signum handler
  | kill pid signum => sysKill pid signum
  | step op => op.exec

/-- When the step may be taken. -/
def Sys.Allowed (s : State) : Sys → Prop
  | signal _ _ => s.Runs
  | kill _ _ => True
  | step op => op.Other ∧ op.Allowed s

/-- A step that meets a condition, and returns. -/
def SysStep (C : State → Sys → Prop) (s s' : State) : Prop :=
  ∃ op, op.Allowed s ∧ C s op ∧ Sys.exec op s = .ok () s'

/-! ### What is read -/

/-- What `signal` and `process_signals` read: an entry of `sig_handlers`, an action of
`sig_default`, a task. -/
inductive Access where
  | handlers (index : ℤ)
  | default (index : ℤ) (action : Option Default)
  | task (found : Option ℕ)

/-- The index is that of an entry, and the pointer that is followed is not null. -/
def Access.Ok : Access → Prop
  | handlers index => 0 ≤ index ∧ index < numSigs
  | default index action => 0 ≤ index ∧ index < numSigs ∧ action.isSome
  | task found => found.isSome

/-- What the loop of `process_signals` reads. -/
def reads : List Signal → State → List Access
  | [], _ => []
  | sig :: rest, s =>
    if (s.task s.current).pid ≠ sig.pid then
      .task (s.getTaskByPid sig.pid) :: match s.getTaskByPid sig.pid with
        | none => []
        | some t => reads rest (s.awake t)
    else
      let s' := { s with signals := s.signals.erase sig }
      .handlers sig.signum :: if sig.signum < numSigs then
        match (s.task s.current).sigHandlers sig.signum with
        | .dfl => .default sig.signum (sigDefault sig.signum) :: match sigDefault sig.signum with
          | none => []
          | some .print => reads rest s'
          | some .terminate =>
              if (s.task s.current).pid = 1 then reads rest (taskExit s').state else []
        | .ign => reads rest s'
        | .user _ => []
      else []

/-- What the step reads. -/
def Sys.reads (s : State) : Sys → List Access
  | signal signum _ =>
      if signum < numSigs ∧ signum ≠ 9 ∧ signum ≠ 19 then [.handlers signum] else []
  | step (.switch n) => Signals.reads s.signals { s with current := n }
  | _ => []

/-- **Signal numbers are harmless**: every signal is queued for a task of the task queue, and the
next step reads nothing that is not there. -/
structure Harmless (C : State → Sys → Prop) (s : State) : Prop where
  queued : ∀ sig ∈ s.signals, ∃ t ∈ s.queue, (s.task t).pid = sig.pid
  reads : ∀ op : Sys, op.Allowed s → C s op → ∀ a ∈ op.reads s, a.Ok

/-- The exit of task `p` changes the link of no task in a handler. -/
def State.ExitClear (s : State) (p : ℕ) : Prop :=
  ∀ t ∈ walk (s.unlinked p) s.count 0, (s.task t).next = some p →
  (s.task t).sTask = none

/-- The number that `signal` is given is not negative, the number that `kill` queues has a default
action; no task is forked behind one in a handler, and the task behind one in a handler does not
exit. -/
def Sys.Sound (s : State) : Sys → Prop
  | signal signum _ => 0 ≤ signum
  | kill pid signum => (s.getTaskByPid (UInt32.ofNat (pid % 2 ^ 32).toNat)).isSome →
    (sigDefault (signum % 2 ^ 32).toNat).isSome
  | step .fork => (s.task s.getLastTask).sTask = none
  | step .exit => s.ExitClear s.current
  | step (.switch n) =>
      (∃ sig ∈ s.signals, sig.pid = (s.task n).pid ∧ (s.task n).sigHandlers sig.signum = .dfl ∧
    sigDefault sig.signum = some .terminate) → s.ExitClear n
  | _ => True

/-! ### The links -/

/-- The links lead through the list, and end there. -/
def Path (link : ℕ → Option ℕ) : List ℕ → Prop
  | [] => True
  | [t] => link t = none
  | t :: u :: l => link t = some u ∧ Path link (u :: l)

section

variable {link link' : ℕ → Option ℕ} {t p n fuel : ℕ} {l : List ℕ}

theorem walk_eq (h : Path link (t :: l)) (hf : l.length < fuel) : walk link fuel t = t :: l := by
  induction l generalizing t fuel with
  | nil =>
    obtain ⟨fuel, rfl⟩ := Nat.exists_eq_add_of_lt hf
    rw [walk, show link t = none from h]
  | cons u l ih =>
    obtain ⟨k, rfl⟩ := Nat.exists_eq_add_of_lt hf
    rw [walk, h.1]
    dsimp only
    rw [ih h.2 (by simp; omega)]

theorem Path.congr (h : Path link l) (hl : ∀ u ∈ l, link' u = link u) : Path link' l := by
  induction l with
  | nil => trivial
  | cons t l ih =>
    cases l with
    | nil => exact (hl t (by simp)).trans h
    | cons u l =>
        exact ⟨(hl t (by simp)).trans h.1, ih h.2 fun v hv => hl v (List.mem_cons_of_mem _ hv)⟩

/-- A link of the list leads into the list. -/
theorem Path.mem_of_link (h : Path link (t :: l)) (hp : p ∈ t :: l)
    (hn : link p = some n) : n ∈ l := by
  induction l generalizing t with
  | nil =>
    obtain rfl := List.mem_singleton.mp hp
    cases (show link p = none from h).symm.trans hn
  | cons u l ih =>
    rcases List.mem_cons.mp hp with rfl | hp
    · obtain rfl : u = n := Option.some.inj (h.1.symm.trans hn)
      exact List.mem_cons_self ..
    · exact List.mem_cons_of_mem _ (ih h.2 hp)

/-- One more task at the end. -/
theorem Path.snoc (h : Path link (l ++ [t])) (hn : link' n = none) (ht : link' t = some n)
    (hl : ∀ u ∈ l, link' u = link u) : Path link' (l ++ [t] ++ [n]) := by
  induction l with
  | nil => exact ⟨ht, hn⟩
  | cons u l ih =>
    have hu : link' u = link u := hl u (List.mem_cons_self ..)
    have hrest : ∀ v ∈ l, link' v = link v := fun v hv => hl v (List.mem_cons_of_mem _ hv)
    cases l with
    | nil => exact ⟨hu.trans h.1, ih h.2 hrest⟩
    | cons v l => exact ⟨hu.trans h.1, ih h.2 hrest⟩

/-- A task is taken out of the list. -/
theorem Path.erase (h : Path link (t :: l)) (hnd : (t :: l).Nodup) :
    Path (fun u => if link u = some p then link p else link u) (t :: l.erase p) := by
  induction l generalizing t with
  | nil =>
    have ht : link t = none := h
    show (if link t = some p then link p else link t) = none
    rw [if_neg (by simp [ht]), ht]
  | cons u l ih =>
    have hnd' : (u :: l).Nodup := (List.nodup_cons.mp hnd).2
    by_cases hu : u = p
    · subst hu
      rw [List.erase_cons_head]
      have ht : (if link t = some u then link u else link t) = link u := if_pos h.1
      have hsame : ∀ v ∈ l, (if link v = some u then link u else link v) = link v := fun v hv =>
        if_neg fun hvu =>
          (List.nodup_cons.mp hnd').1 (h.2.mem_of_link (List.mem_cons_of_mem _ hv) hvu)
      cases l with
      | nil => exact ht.trans h.2
      | cons v l => exact ⟨ht.trans h.2.1, h.2.2.congr hsame⟩
    · rw [List.erase_cons_tail (by simpa using hu)]
      refine ⟨?_, ih h.2 hnd'⟩
      have ht : (if link t = some p then link p else link t) = link t :=
        if_neg (by simpa [h.1] using hu)
      exact ht.trans h.1

end

/-! ### The invariant -/

/-- Every signal has a default action, and is queued for a task of the task queue. -/
def State.Served (s : State) (sigs : List Signal) : Prop :=
  ∀ sig ∈ sigs, (sigDefault sig.signum).isSome ∧ ∃ t ∈ s.queue, (s.task t).pid = sig.pid

/-- The links from the first task, which is `init`, lead through a list and end; the copy of a
record has its link and its number; the signals are served. -/
structure Chained (s : State) : Prop where
  init : (s.task 0).pid = 1
  path : ∃ l, Path (fun t => (s.task t).next) (0 :: l) ∧ (0 :: l).Nodup ∧ ∀ t ∈ 0 :: l, t < s.count
  saved : ∀ t k, (s.task t).sTask = some k →
    k < s.savedCount ∧ (s.saved k).next = (s.task t).next ∧ (s.saved k).pid = (s.task t).pid
  served : s.Served s.signals

section

variable {s s' s'' : State} {t : ℕ} {sigs : List Signal}

/-- A list without repetition, of numbers below `n`, is no longer than `n`. -/
theorem length_le_of_nodup {l : List ℕ} {n : ℕ} (hnd : l.Nodup) (hlt : ∀ t ∈ l, t < n) :
    l.length ≤ n := by
  have hsub : l ⊆ List.range n := fun t ht => List.mem_range.mpr (hlt t ht)
  simpa using (hnd.subperm hsub).length_le

/-- The queue is the list that the links lead through. -/
theorem queue_eq {l : List ℕ} (hp : Path (fun t => (s.task t).next) (0 :: l)) (hnd : (0 :: l).Nodup)
    (hlt : ∀ t ∈ 0 :: l, t < s.count) : s.queue = 0 :: l := by
  have hlen := length_le_of_nodup hnd hlt
  exact walk_eq hp (Nat.lt_of_succ_le hlen)

theorem State.Served.isSome {sig : Signal} (h : s.Served sigs) (hm : sig ∈ sigs) :
    (s.getTaskByPid sig.pid).isSome := by
  obtain ⟨-, t, ht, hpid⟩ := h sig hm
  exact List.find?_isSome.mpr ⟨t, ht, by simpa using hpid⟩

/-- A step leaves the links and the numbers of the tasks, and the copies that are in use. -/
structure Alike (s s' : State) : Prop where
  next : ∀ t, (s'.task t).next = (s.task t).next
  pid : ∀ t, (s'.task t).pid = (s.task t).pid
  sTask : ∀ t k, (s'.task t).sTask = some k → (s.task t).sTask = some k
  count : s'.count = s.count
  saved : s'.saved = s.saved
  savedCount : s'.savedCount = s.savedCount
  signals : ∀ sig ∈ s'.signals, sig ∈ s.signals

theorem State.Served.mono {sigs' : List Signal} (h : s.Served sigs)
    (hsub : ∀ sig ∈ sigs', sig ∈ sigs) :
    s.Served sigs' := fun sig hm => h sig (hsub sig hm)

theorem State.Served.same (h : s.Served sigs) (hnext : ∀ t, (s'.task t).next = (s.task t).next)
    (hpid : ∀ t, (s'.task t).pid = (s.task t).pid)
    (hcount : s'.count = s.count) : s'.Served sigs := by
  have hqueue : s'.queue = s.queue := by
    unfold State.queue
    rw [hcount, funext hnext]
  intro sig hm
  obtain ⟨hd, t, ht, ht'⟩ := h sig hm
  exact ⟨hd, t, hqueue ▸ ht, (hpid t).trans ht'⟩

theorem Alike.served (h : Alike s s') (hs : s.Served sigs) : s'.Served sigs :=
    hs.same h.next h.pid h.count

/-- A step that leaves the links and the numbers. -/
theorem Chained.same (h : Chained s) (hnext : ∀ t, (s'.task t).next = (s.task t).next)
    (hpid : ∀ t, (s'.task t).pid = (s.task t).pid) (hcount : s'.count = s.count)
    (hsaved : ∀ t k, (s'.task t).sTask = some k →
      k < s'.savedCount ∧ (s'.saved k).next = (s.task t).next ∧ (s'.saved k).pid = (s.task t).pid)
    (hserved : s.Served s'.signals) : Chained s' where
  init := (hpid 0).trans h.init
  path := by
    rw [funext hnext, hcount]
    exact h.path
  saved t k hk := by
    rw [hnext, hpid]
    exact hsaved t k hk
  served := hserved.same hnext hpid hcount

theorem Chained.alike (h : Chained s) (ha : Alike s s') : Chained s' := by
  refine h.same ha.next ha.pid ha.count (fun t k hk => ?_) (h.served.mono ha.signals)
  rw [ha.savedCount, ha.saved]
  exact h.saved t k (ha.sTask t k hk)

/-- A step that changes nothing of the records that is looked at here. -/
theorem Alike.of_task (htask : ∀ t, (s'.task t).next = (s.task t).next ∧
    (s'.task t).pid = (s.task t).pid ∧
    (s'.task t).sTask = (s.task t).sTask) (hcount : s'.count = s.count)
      (hsaved : s'.saved = s.saved)
    (hn : s'.savedCount = s.savedCount) (hsig : s'.signals = s.signals) : Alike s s' where
  next t := (htask t).1
  pid t := (htask t).2.1
  sTask t _ hk := (htask t).2.2 ▸ hk
  count := hcount
  saved := hsaved
  savedCount := hn
  signals _ hm := hsig ▸ hm

theorem Alike.refl (s : State) : Alike s s := .of_task (fun _ => ⟨rfl, rfl, rfl⟩) rfl rfl rfl rfl

theorem Alike.trans (h : Alike s s') (h' : Alike s' s'') : Alike s s'' where
  next t := (h'.next t).trans (h.next t)
  pid t := (h'.pid t).trans (h.pid t)
  sTask t k hk := h.sTask t k (h'.sTask t k hk)
  count := h'.count.trans h.count
  saved := h'.saved.trans h.saved
  savedCount := h'.savedCount.trans h.savedCount
  signals sig hm := h.signals sig (h'.signals sig hm)

/-- The record of one task changes. -/
theorem Alike.update {f : Task → Task} (t : ℕ) (hnext : (f (s.task t)).next = (s.task t).next)
    (hpid : (f (s.task t)).pid = (s.task t).pid)
    (hsTask : ∀ k, (f (s.task t)).sTask = some k → (s.task t).sTask = some k) :
    Alike s (s.update t f) := by
  have htask : ∀ u, (s.update t f).task u = if u = t then f (s.task t) else s.task u := fun u =>
    Function.update_apply ..
  constructor
  case next =>
    intro u
    rw [htask]
    split_ifs with hu
    · rw [hu, hnext]
    · rfl
  case pid =>
    intro u
    rw [htask]
    split_ifs with hu
    · rw [hu, hpid]
    · rfl
  case sTask =>
    intro u k hk
    rw [htask] at hk
    split_ifs at hk with hu
    · rw [hu]
      exact hsTask k hk
    · exact hk
  case count => rfl
  case saved => rfl
  case savedCount => rfl
  case signals => exact fun _ => id

theorem Alike.exitClear {p : ℕ} (h : Alike s s') (hc : s.ExitClear p) : s'.ExitClear p := by
  have hunlinked : s'.unlinked p = s.unlinked p := by
    funext t
    simp only [State.unlinked, h.next]
  intro t ht hn
  rw [hunlinked, h.count] at ht
  rw [h.next] at hn
  have hnone := hc t ht hn
  by_contra hk
  obtain ⟨k, hk⟩ := Option.ne_none_iff_exists'.mp hk
  rw [h.sTask t k hk] at hnone
  cases hnone

/-! ### What is read is there -/

theorem lt_numSigs_of_isSome {n : ℕ} (h : (sigDefault n).isSome) : n < numSigs := by
  unfold sigDefault at h
  unfold numSigs
  split at h <;> first | omega | cases h

theorem Alike.awake (s : State) (t : ℕ) : Alike s (s.awake t) := by
  unfold State.awake
  apply Alike.update t
  · split_ifs <;> rfl
  · split_ifs <;> rfl
  · intro k hk
    split_ifs at hk <;> exact hk

theorem Alike.erase (s : State) (sig : Signal) :
    Alike s { s with signals := s.signals.erase sig } where
  next _ := rfl
  pid _ := rfl
  sTask _ _ := id
  count := rfl
  saved := rfl
  savedCount := rfl
  signals _ hm := List.mem_of_mem_erase hm

/-- `task_exit` of `init`. -/
theorem Alike.taskExit (h : (s.task s.current).pid = 1) : Alike s (taskExit s).state := by
  rw [Signals.taskExit, read_bind, if_pos h]
  exact .of_task (fun _ => ⟨rfl, rfl, rfl⟩) rfl rfl rfl rfl

/-- The loop reads what is there, if the signals are served. -/
theorem reads_ok (hs : s.Served sigs) : ∀ a ∈ reads sigs s, a.Ok := by
  induction sigs generalizing s with
  | nil => exact fun a ha => by cases ha
  | cons sig rest ih =>
    obtain ⟨hdefault, -⟩ := hs sig (List.mem_cons_self ..)
    have hnum := lt_numSigs_of_isSome hdefault
    have hindex : 0 ≤ (sig.signum : ℤ) ∧ (sig.signum : ℤ) < numSigs :=
      ⟨Int.natCast_nonneg _, Int.ofNat_lt.mpr hnum⟩
    have hrest : s.Served rest := hs.mono fun _ => List.mem_cons_of_mem _
    by_cases hpid : (s.task s.current).pid ≠ sig.pid
    · rw [reads, if_pos hpid]
      have hfound := hs.isSome (List.mem_cons_self ..)
      obtain ⟨t, ht⟩ := Option.isSome_iff_exists.mp hfound
      rw [ht]
      intro a ha
      rcases List.mem_cons.mp ha with rfl | ha
      · exact rfl
      · exact ih ((Alike.awake s t).served hrest) a ha
    · rw [reads, if_neg hpid]
      have herased := (Alike.erase s sig).served hrest
      intro a ha
      rcases List.mem_cons.mp ha with rfl | ha
      · exact hindex
      · rw [if_pos hnum] at ha
        split at ha
        · rcases List.mem_cons.mp ha with rfl | ha
          · exact ⟨hindex.1, hindex.2, hdefault⟩
          · split at ha
            · cases ha
            · exact ih herased a ha
            · split_ifs at ha with hinit
              · exact ih ((Alike.taskExit (s := { s with signals := s.signals.erase sig })
                  hinit).served herased) a ha
              · cases ha
        · exact ih herased a ha
        · cases ha

/-! ### Steps -/

theorem Alike.setCalls {c : List Call} (h : Alike s s') : Alike s (s'.setCalls t c) :=
  h.trans (.of_task (fun _ => ⟨rfl, rfl, rfl⟩) rfl rfl rfl rfl)

theorem Alike.sleepOn {a : Addr} : wp (sleepOn a) (fun _ => Alike s) (fun _ _ => True) s := by
  have hunlock : Alike s { s with switchLocked := false } :=
    .of_task (fun _ => ⟨rfl, rfl, rfl⟩) rfl rfl rfl rfl
  simp only [Signals.sleepOn, wp_modify]
  apply Alike.setCalls
  exact hunlock.trans (Alike.update s.current rfl rfl fun _ => id)

theorem Alike.intReturn : wp intReturn (fun _ => Alike s) (fun _ _ => True) s := by
  simp only [Signals.intReturn, wp_modify]
  split
  · apply Alike.setCalls
    exact Alike.update s.current rfl rfl fun _ => id
  · exact Alike.refl s

theorem Chained.intReturn (h : Chained s) : wp intReturn (fun _ => Chained) (fun _ _ => True) s :=
  Alike.intReturn.mono (fun _ _ => h.alike) fun _ _ => id

theorem Chained.signalHandlerReturn (h : Chained s) :
    wp signalHandlerReturn (fun _ => Chained) (fun _ _ => True) s := by
  simp only [Signals.signalHandlerReturn, wp_bind, wp_read]
  cases hk : (s.task s.current).sTask with
  | none => trivial
  | some k =>
    obtain ⟨-, hnext, hpid⟩ := h.saved s.current k hk
    rw [wp_modify]
    apply h.alike
    apply Alike.setCalls
    exact Alike.update s.current hnext hpid fun k hk => by cases hk

theorem Chained.enterHandler (h : Chained s) (f : ℕ) :
    wp (enterHandler f) (fun _ => Chained) (fun _ _ => True) s := by
  simp only [Signals.enterHandler, wp_modify]
  have htask :
    ∀ u, (s.save.update s.current fun x =>
      { x with sTask := some s.savedCount, regs := .run f }).task u =
      if u = s.current then { s.task s.current with sTask := some s.savedCount, regs := .run f }
      else s.task u :=
    fun u => Function.update_apply ..
  refine h.same (fun u => ?_) (fun u => ?_) rfl (fun u k hk => ?_) h.served
  · rw [State.setCalls_task, htask]
    split_ifs with hu
    · rw [hu]
    · rfl
  · rw [State.setCalls_task, htask]
    split_ifs with hu
    · rw [hu]
    · rfl
  · rw [State.setCalls_task, htask] at hk
    split_ifs at hk with hu
    · cases hk
      rw [hu]
      exact ⟨Nat.lt_succ_self _, congrArg Task.next State.save_saved,
        congrArg Task.pid State.save_saved⟩
    · obtain ⟨hlt, hnext, hpid⟩ := h.saved u k hk
      have hcopy := State.save_saved_of_lt hlt
      exact ⟨Nat.lt_succ_of_lt hlt, (congrArg Task.next hcopy).trans hnext,
        (congrArg Task.pid hcopy).trans hpid⟩

theorem Chained.kill {pid : UInt32} {signum : ℕ} (h : Chained s)
    (hd : (s.getTaskByPid pid).isSome → (sigDefault signum).isSome) :
    wp (kill pid signum) (fun _ => Chained) (fun _ _ => True) s := by
  simp only [Signals.kill, wp_modify]
  split_ifs with hfound
  · refine h.same (fun _ => rfl) (fun _ => rfl) rfl h.saved fun sig hm => ?_
    rcases List.mem_append.mp hm with hm | hm
    · exact h.served sig hm
    · obtain rfl := List.mem_singleton.mp hm
      obtain ⟨t, ht, hpid⟩ := List.find?_isSome.mp hfound
      exact ⟨hd hfound, t, ht, of_decide_eq_true hpid⟩
  · exact h

/-- The records after a fork: that of the child, that of the task before it, and the others. -/
theorem forkInt_task (hne : s.getLastTask ≠ s.count) :
    (((forkInt s).state.task s.count).next = none ∧ ((forkInt s).state.task s.count).sTask = none) ∧
    (forkInt s).state.task s.getLastTask = { s.task s.getLastTask with next := some s.count } ∧
    ∀ u, u ≠ s.count → u ≠ s.getLastTask → (forkInt s).state.task u = s.task u := by
  have htask : ∃ child : Task, child.next = none ∧ child.sTask = none ∧ (forkInt s).state.task =
      Function.update (s.update s.getLastTask fun y => { y with next := some s.count }).task s.count
        child :=
    ⟨_, rfl, rfl, rfl⟩
  obtain ⟨child, hnext, hsTask, htask⟩ := htask
  rw [htask]
  refine ⟨?_, ?_, fun u hu hlast => ?_⟩
  · rw [Function.update_self]
    exact ⟨hnext, hsTask⟩
  · rw [Function.update_of_ne hne, State.update_self]
  · rw [Function.update_of_ne hu, State.update_of_ne hlast]

theorem Chained.forkInt (h : Chained s) (hlast : (s.task s.getLastTask).sTask = none) :
    wp forkInt (fun _ => Chained) (fun _ _ => True) s := by
  show Chained (Signals.forkInt s).state
  obtain ⟨l, hpath, hnd, hlt⟩ := h.path
  have hqueue := queue_eq hpath hnd hlt
  obtain ⟨m, t, hmt⟩ : ∃ m t, 0 :: l = m ++ [t] :=
    ⟨_, _, (List.dropLast_append_getLast (List.cons_ne_nil 0 l)).symm⟩
  have hgetLast : s.getLastTask = t := by
    unfold State.getLastTask
    rw [hqueue, hmt, List.getLast?_append, List.getLast?_singleton]
    rfl
  have hne : ∀ u ∈ 0 :: l, u ≠ s.count := fun u hu => Nat.ne_of_lt (hlt u hu)
  have ht : t ∈ 0 :: l := hmt ▸ List.mem_append_right _ (List.mem_singleton_self t)
  obtain ⟨⟨hnone, hfree⟩, htask, hother⟩ := forkInt_task (by rw [hgetLast]; exact hne t ht)
  rw [hgetLast] at hlast htask hother
  have hnew : 0 :: (l ++ [s.count]) = m ++ [t] ++ [s.count] := by rw [← List.cons_append, hmt]
  have hpath' :
    Path (fun u => ((Signals.forkInt s).state.task u).next) (0 :: (l ++ [s.count])) := by
    rw [hnew]
    rw [hmt] at hpath
    refine hpath.snoc hnone (by rw [htask]) fun u hu => ?_
    have hut : u ≠ t := by
      rintro rfl
      rw [hmt] at hnd
      exact (List.nodup_append.mp hnd).2.2 u hu u (List.mem_singleton_self u) rfl
    rw [hother u (hne u (hmt ▸ List.mem_append_left _ hu)) hut]
  have hnd' : (0 :: (l ++ [s.count])).Nodup := by
    rw [← List.cons_append]
    exact List.nodup_append.mpr
      ⟨hnd, List.pairwise_singleton .., fun u hu v hv => List.mem_singleton.mp hv ▸ hne u hu⟩
  have hlt' : ∀ u ∈ 0 :: (l ++ [s.count]), u < s.count + 1 := fun u hu => by
    rw [← List.cons_append] at hu
    rcases List.mem_append.mp hu with hu | hu
    · exact Nat.lt_succ_of_lt (hlt u hu)
    · exact List.mem_singleton.mp hu ▸ Nat.lt_succ_self _
  have hpid : ∀ u ∈ 0 :: l, ((Signals.forkInt s).state.task u).pid =
      (s.task u).pid := fun u hu => by
    by_cases hut : u = t
    · rw [hut, htask]
    · rw [hother u (hne u hu) hut]
  constructor
  case init => exact (hpid 0 (List.mem_cons_self ..)).trans h.init
  case path => exact ⟨_, hpath', hnd', hlt'⟩
  case saved =>
    intro u k hk
    by_cases hu : u = s.count
    · rw [hu, hfree] at hk
      cases hk
    by_cases hut : u = t
    · rw [hut, htask] at hk
      cases hlast.symm.trans hk
    rw [hother u hu hut] at hk ⊢
    exact h.saved u k hk
  case served =>
    intro sig hm
    obtain ⟨hd, u, hu, hpid'⟩ := h.served sig hm
    rw [hqueue] at hu
    refine ⟨hd, u, ?_, (hpid u hu).trans hpid'⟩
    rw [queue_eq hpath' hnd' hlt', ← List.cons_append]
    exact List.mem_append_left _ hu

theorem Chained.exited {p q : ℕ} (h : Chained s) (hp : (s.task p).pid ≠ 1) (hc : s.ExitClear p) :
    Chained (s.exited p q (walk (s.unlinked p) s.count 0)) := by
  obtain ⟨l, hpath, hnd, hlt⟩ := h.path
  have hqueue := queue_eq hpath hnd hlt
  have hp0 : (0 : ℕ) ≠ p := fun he => hp (he ▸ h.init)
  have hsub : ∀ t ∈ 0 :: l.erase p, t ∈ 0 :: l := fun t ht => by
    rcases List.mem_cons.mp ht with rfl | ht
    · exact List.mem_cons_self ..
    · exact List.mem_cons_of_mem _ (List.mem_of_mem_erase ht)
  have herase : Path (s.unlinked p) (0 :: l.erase p) := hpath.erase hnd
  have hnd' : (0 :: l.erase p).Nodup := by
    obtain ⟨h0, hl⟩ := List.nodup_cons.mp hnd
    exact List.nodup_cons.mpr ⟨fun hm => h0 (List.mem_of_mem_erase hm), hl.erase p⟩
  have hlt' : ∀ t ∈ 0 :: l.erase p, t < s.count := fun t ht => hlt t (hsub t ht)
  have hvisited : walk (s.unlinked p) s.count 0 = 0 :: l.erase p :=
    walk_eq herase (Nat.lt_of_succ_le (length_le_of_nodup hnd' hlt'))
  unfold State.ExitClear at hc
  rw [hvisited] at hc ⊢
  have hnext : ∀ t, ((s.exited p q (0 :: l.erase p)).task t).next =
      if t ∈ 0 :: l.erase p then s.unlinked p t else (s.task t).next := fun t => by
    rw [State.exited_task]
    split_ifs <;> rfl
  have hpid : ∀ t, ((s.exited p q (0 :: l.erase p)).task t).pid = (s.task t).pid := fun t => by
    rw [State.exited_task]
    split_ifs <;> rfl
  have hsTask : ∀ t, ((s.exited p q (0 :: l.erase p)).task t).sTask =
      (s.task t).sTask := fun t => by
    rw [State.exited_task]
    split_ifs <;> rfl
  have hpath' : Path (fun t => ((s.exited p q (0 :: l.erase p)).task t).next) (0 :: l.erase p) :=
    herase.congr fun t ht => by rw [hnext, if_pos ht]
  constructor
  case init => rw [hpid, h.init]
  case path => exact ⟨l.erase p, hpath', hnd', hlt'⟩
  case saved =>
    intro t k hk
    rw [hsTask] at hk
    obtain ⟨hk', hsnext, hspid⟩ := h.saved t k hk
    refine ⟨hk', ?_, by rw [hpid]; exact hspid⟩
    rw [hnext]
    split_ifs with hm
    · have hother : s.unlinked p t = (s.task t).next := if_neg fun hn => by
        rw [hc t hm hn] at hk
        cases hk
      rw [hother]
      exact hsnext
    · exact hsnext
  case served =>
    intro sig hm
    obtain ⟨hm, hne⟩ := List.mem_filter.mp hm
    obtain ⟨hd, t, ht, ht'⟩ := h.served sig hm
    have htp : t ≠ p := by
      rintro rfl
      exact of_decide_eq_true hne ht'.symm
    rw [queue_eq hpath' hnd' hlt']
    rw [hqueue] at ht
    refine ⟨hd, t, ?_, (hpid t).trans ht'⟩
    rcases List.mem_cons.mp ht with rfl | ht
    · exact List.mem_cons_self ..
    · exact List.mem_cons_of_mem _ ((List.mem_erase_of_ne htp).mpr ht)

theorem Chained.taskExit (h : Chained s) (hc : s.ExitClear s.current) :
    wp taskExit (fun _ => Chained) (fun _ _ => True) s := by
  simp only [Signals.taskExit, wp_bind, wp_read, wp_ite]
  split_ifs with hinit
  · exact h.alike (.of_task (fun _ => ⟨rfl, rfl, rfl⟩) rfl rfl rfl rfl)
  · split
    · trivial
    · exact h.exited hinit hc

/-- What the loop of `process_signals` leaves before a handler or an exit. -/
structure Passed (s s' : State) : Prop where
  alike : Alike s s'
  current : s'.current = s.current
  sigHandlers : ∀ t, (s'.task t).sigHandlers = (s.task t).sigHandlers

theorem Passed.awake (h : Passed s s') (t : ℕ) : Passed s (s'.awake t) where
  alike := h.alike.trans (Alike.awake s' t)
  current := h.current
  sigHandlers u := by
    unfold State.awake
    by_cases hu : u = t
    · subst hu
      rw [State.update_self, ← h.sigHandlers]
      split_ifs <;> rfl
    · rw [State.update_of_ne hu]
      exact h.sigHandlers u

theorem Chained.taskSwitchInt {n : ℕ} (h : Chained s) (hc : Sys.Sound s (.step (.switch n))) :
    wp (taskSwitchInt n) (fun _ => Chained) (fun _ _ => True) s := by
  rw [Signals.taskSwitchInt, wp_bind, wp_modify, wp_bind, wp_read]
  have hn : Alike s { s with current := n } := .of_task (fun _ => ⟨rfl, rfl, rfl⟩) rfl rfl rfl rfl
  have h₀ : Passed { s with current := n } { s with current := n } :=
    ⟨Alike.refl _, rfl, fun _ => rfl⟩
  refine wp_processSignals (I := Passed { s with current := n }) s.signals
    (fun s' t hp => hp.awake t)
    (fun s' sig hp => ⟨hp.alike.trans (Alike.erase s' sig), hp.current, hp.sigHandlers⟩)
    (fun s' hp => ((h.alike hn).alike hp.alike).intReturn) (fun s' hp hx => ?_)
    (fun s' f hp _ => ((h.alike hn).alike hp.alike).enterHandler f) (fun _ => trivial) h₀
  obtain ⟨sig, hm, hpid, hdfl, hterm⟩ := hx
  have hclear : s'.ExitClear s'.current := by
    rw [hp.current] at hpid hdfl ⊢
    rw [hp.alike.pid] at hpid
    rw [hp.sigHandlers] at hdfl
    exact (hn.trans hp.alike).exitClear (hc ⟨sig, hm, hpid, hdfl, hterm⟩)
  by_cases hinit : (s'.task s'.current).pid = 1
  · simp only [Signals.taskExit, wp_bind, wp_read, if_pos hinit, wp_modify]
    exact ⟨hp.alike.trans (.of_task (fun _ => ⟨rfl, rfl, rfl⟩) rfl rfl rfl rfl), hp.current,
      hp.sigHandlers⟩
  · simp only [if_neg hinit]
    exact ((h.alike hn).alike hp.alike).taskExit hclear

/-! ### Every run -/

theorem Alike.wakeup {a : Addr} : wp (wakeup a) (fun _ => Alike s) (fun _ _ => True) s := by
  simp only [Signals.wakeup, wp_modify]
  refine .of_task (fun t => ?_) rfl rfl rfl rfl
  dsimp only
  split_ifs <;> exact ⟨rfl, rfl, rfl⟩

theorem Alike.sysOpen {file : Option ℕ} :
    wp (sysOpen file) (fun _ => Alike s) (fun _ _ => True) s := by
  have hgrown : Alike s (if s.Full then s.grow (fdAlloc s.slots).2 else s) := by
    split_ifs
    · have hupdate : ∀ n,
        Alike s (s.update s.current fun x => { x with files := s.arrayCount, numFiles := n }) :=
        fun n => Alike.update s.current rfl rfl fun _ => id
      exact (hupdate _).trans (.of_task (fun _ => ⟨rfl, rfl, rfl⟩) rfl rfl rfl rfl)
    · exact Alike.refl s
  simp only [Signals.sysOpen, wp_modify]
  split
  · exact hgrown
  · exact hgrown.trans (.of_task (fun _ => ⟨rfl, rfl, rfl⟩) rfl rfl rfl rfl)

theorem Chained.of_wp {m : Kern Unit} (h : Chained s)
    (hm : wp m (fun _ => Alike s) (fun _ _ => True) s) :
    wp m (fun _ => Chained) (fun _ _ => True) s := hm.mono (fun _ _ => h.alike) fun _ _ => id

theorem Op.exec_chained {op : Op} (h : Chained s) (ho : op.Other) (hc : Sys.Sound s (.step op)) :
    wp op.exec (fun _ => Chained) (fun _ _ => True) s := by
  cases op with
  | sleepOn a => exact h.of_wp Alike.sleepOn
  | sleepOnms a ms =>
    show wp (Signals.sleepOnms a ms) _ _ s
    rw [Signals.sleepOnms, wp_bind, wp_modify]
    exact (h.alike (Alike.update s.current rfl rfl fun _ => id)).of_wp Alike.sleepOn
  | wakeup a =>
    show wp (do Signals.wakeup a; modify _) _ _ s
    rw [wp_bind]
    refine (h.of_wp Alike.wakeup).mono (fun _ s' h' => ?_) fun _ _ => id
    rw [wp_modify]
    exact h'.alike (Alike.update s'.current rfl rfl fun _ => id)
  | wakeCheck t =>
    show wp (Signals.wakeCheck t) _ _ s
    simp only [Signals.wakeCheck, wp_modify]
    apply h.alike
    apply Alike.update t
    · split_ifs <;> rfl
    · split_ifs <;> rfl
    · intro k hk
      split_ifs at hk <;> exact hk
  | tick => exact h.alike (.of_task (fun _ => ⟨rfl, rfl, rfl⟩) rfl rfl rfl rfl)
  | fork => exact h.forkInt hc
  | exit => exact h.taskExit hc
  | signal signum handler => cases ho
  | kill pid signum => cases ho
  | switch n => exact h.taskSwitchInt hc
  | handlerReturn => exact h.signalHandlerReturn
  | «open» file => exact h.of_wp Alike.sysOpen
  | close fd => exact h.alike (.of_task (fun _ => ⟨rfl, rfl, rfl⟩) rfl rfl rfl rfl)
  | sbrk e => exact h.alike (.of_task (fun _ => ⟨rfl, rfl, rfl⟩) rfl rfl rfl rfl)
  | compute pc => exact h.alike (Alike.update s.current rfl rfl fun _ => id)

/-- A step that meets the condition keeps the invariant. -/
theorem Sys.exec_spec {op : Sys} (h : Chained s) (ha : op.Allowed s) (hc : op.Sound s) :
    wp op.exec (fun _ => Chained) (fun _ _ => True) s := by
  cases op with
  | signal signum handler =>
    show wp (sysSignal signum handler) _ _ s
    simp only [sysSignal, Signals.signal, wp_ite, wp_modify, wp_pure, wp_halt]
    have hset : ∀ n, Chained (s.update s.current fun x =>
        { x with sigHandlers := Function.update x.sigHandlers n handler }) := fun n =>
          h.alike (Alike.update s.current rfl rfl fun _ => id)
    split_ifs <;> first | exact hset _ | exact h
  | kill pid signum => exact h.kill hc
  | step op => exact Op.exec_chained h ha.1 hc

/-- The invariant gives what is claimed of a state. -/
theorem Chained.harmless (h : Chained s) : Harmless Sys.Sound s where
  queued sig hm := (h.served sig hm).2
  reads op ha hc a hread := by
    cases op with
    | signal signum handler =>
      simp only [Sys.reads] at hread
      split_ifs at hread with hset
      · obtain rfl := List.mem_singleton.mp hread
        exact ⟨hc, hset.1⟩
      · cases hread
    | kill pid signum => cases hread
    | step op =>
      cases op with
      | switch n =>
        have hn : Alike s { s with current := n } :=
          .of_task (fun _ => ⟨rfl, rfl, rfl⟩) rfl rfl rfl rfl
        exact reads_ok (hn.served h.served) a hread
      | _ => cases hread

end

/-- The first task is `init`, the links end at the last task, and no signal is queued. -/
structure Started (s : State) : Prop extends Ready s where
  init : (s.task 0).pid = 1
  last : (s.task (s.count - 1)).next = none
  signals : s.signals = []

/-- The tasks in the order of their numbers. -/
theorem path_range {link : ℕ → Option ℕ} {n : ℕ} (hlink : ∀ t, t < n → link t = some (t + 1))
    (hlast : link n = none) :
    ∀ k, k ≤ n → Path link (List.range' (n - k) (k + 1)) := by
  intro k
  induction k with
  | zero => exact fun _ => hlast
  | succ k ih =>
    intro hk
    have hrest := ih (by omega)
    rw [show n - k = n - (k + 1) + 1 by omega] at hrest
    exact ⟨hlink _ (by omega), hrest⟩

theorem Started.chained {s : State} (h : Started s) : Chained s := by
  have hpos := h.current
  constructor
  case init => exact h.init
  case path =>
    have hp :=
      path_range (n := s.count - 1) (fun t ht => h.linked t (by omega)) h.last (s.count - 1)
      (Nat.le_refl _)
    rw [Nat.sub_self] at hp
    have hnd : (List.range' 0 (s.count - 1 + 1)).Nodup := List.nodup_range' ..
    have hlt : ∀ t ∈ List.range' 0 (s.count - 1 + 1), t < s.count := fun t ht => by
      have := List.mem_range'_1.mp ht
      omega
    exact ⟨_, hp, hnd, hlt⟩
  case saved =>
    intro t k hk
    rw [h.sTask] at hk
    cases hk
  case served =>
    intro sig hm
    rw [h.signals] at hm
    cases hm

/-- **Signal numbers from user space**: in every run in which `signal` is given no negative
number, `kill` queues only numbers with a default action, and the link of a task in a handler is
not changed, they are harmless. -/
theorem signals_harmless {s₀ s : State} (h₀ : Started s₀) (hr : Reach (SysStep Sys.Sound) s₀ s) :
    Harmless Sys.Sound s := by
  have hinv : Chained s :=
    hr.invariant (fun s s' h ⟨_, ha, hc, he⟩ => (Sys.exec_spec h ha hc).ok he) h₀.chained
  exact hinv.harmless

theorem pair_started : Started pair := ⟨pair_ready, rfl, rfl, rfl⟩

/-- The second task of the pair is sent a signal. -/
def pairSent (signum : ℕ) : State := { pair with signals := [⟨2, signum⟩] }

theorem reach_pairSent {C : State → Sys → Prop} {signum : ℕ} (hlt : signum < 2 ^ 32)
    (hc : C pair (.kill 2 signum)) :
    Reach (SysStep C) pair (pairSent signum) := by
  refine .tail .refl ⟨.kill 2 signum, trivial, hc, ?_⟩
  have hnum : ((signum : ℤ) % 2 ^ 32).toNat = signum := by omega
  show Outcome.ok () (if (pair.getTaskByPid 2).isSome then _ else _) = _
  rw [hnum]
  rfl

/-- `SIGTERM`. -/
theorem signals_harmless_pair :
    Reach (SysStep Sys.Sound) pair (pairSent 15) ∧ Harmless Sys.Sound (pairSent 15) := by
  have hr : Reach (SysStep Sys.Sound) pair (pairSent 15) := reach_pairSent (by decide) fun _ => rfl
  exact ⟨hr, signals_harmless pair_started hr⟩

/-- **`kill` queues the number 5**, of which the action in `sig_default` is null: it is read when
the task is switched to. And `signal` reads before the table for a negative number. -/
theorem number_without_action : (∃ a ∈ (Sys.signal (-1) .ign).reads pair, ¬a.Ok) ∧
    ¬∀ s, Reach (SysStep fun _ _ => True) pair s → Harmless (fun _ _ => True) s := by
  refine ⟨⟨.handlers (-1), List.mem_singleton_self _, fun hok => absurd hok.1 (by decide)⟩,
    fun h => ?_⟩
  have hr : Reach (SysStep fun _ _ => True) pair (pairSent 5) := reach_pairSent (by decide) trivial
  have hallowed : (Sys.step (.switch 1)).Allowed (pairSent 5) :=
    ⟨trivial, fun _ => Point.noConfusion, show _ ∧ _ from ⟨by decide, .inl rfl⟩⟩
  have hread : .default 5 none ∈ (Sys.step (.switch 1)).reads (pairSent 5) :=
    List.mem_cons_of_mem _ (List.mem_cons_self ..)
  obtain ⟨-, -, hsome⟩ := (h _ hr).reads _ hallowed trivial _ hread
  cases hsome

end Cosiris.Signals
