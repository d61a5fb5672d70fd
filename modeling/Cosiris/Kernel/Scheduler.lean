import Cosiris.Kernel.Numbers
import Cosiris.Lib.RoundRobin

/-!
# The scheduler

`task_switch_inner`. It takes the first task behind the current one, round the queue, that may run.
Between two turns of a task each other one that may always run has a turn. It has more than one only
if the first task is asleep for a while.
-/

namespace Cosiris.Signals

open Prog RoundRobin

/-! ### The code -/

/-- A loop of `task_switch_inner`, from a task on, for a number of rounds. -/
def scan : ℕ → Option ℕ → Kern (Option ℕ)
  | _, none => pure none
  | 0, some _ => halt .fault
  | fuel + 1, some n => do
    wakeCheck n
    let s ← read
    if (s.task n).state = .running ∨ (s.task n).state = .awaken then pure (some n)
    else scan fuel (s.task n).next

/-- `task_switch_inner`. A loop has at most as many rounds as there are tasks. -/
def taskSwitchInner : Kern ℕ := do
  let s ← read
  if s.switchLocked then pure s.current
  else
    let n ← scan s.count (s.task s.current).next
    let n ← if n.isSome then pure n else scan s.count (some 0)
    match n with
    | none => halt (.panic "All threads sleeping, even idle\n")
    | some n =>
      modify fun s => { s with current := n }
      pure n

/-! ### Who may run -/

/-- The tasks of the queue, from `task_queue` on. -/
structure State.Queue (s : State) (q : List ℕ) : Prop where
  head : q.head? = some 0
  path : Path (fun t => (s.task t).next) q
  alloc : ∀ t ∈ q, t < s.count

/-- The timed sleep of a task has expired. -/
def State.expired (s : State) (t : ℕ) : Bool :=
  (s.task t).state = .sleeping ∧ 0 < (s.task t).sleepEndTick ∧
    (s.task t).sleepEndTick < s.timerTicks

/-- A task may run: it is `TASK_RUNNING` or `TASK_AWAKEN`, or its timed sleep has expired. -/
def State.runnable (s : State) (t : ℕ) : Bool :=
  (s.task t).state = .running ∨ (s.task t).state = .awaken ∨ s.expired t

/-- The state behind a `wake_check` of a task. -/
def State.checked (s : State) (t : ℕ) : State :=
  if s.expired t then s.update t fun x => { x with state := .running, sleepEndTick := 0 } else s

/-- The state behind a turn of a task. -/
def State.taken (s : State) (t : ℕ) : State := { s.checked t with current := t }

section

variable {s s' : State} {q l l₁ l₂ : List ℕ} {t c fuel : ℕ} {link : ℕ → Option ℕ}

theorem wakeCheck_eq (s : State) (t : ℕ) : wakeCheck t s = .ok () (s.checked t) := by
  unfold wakeCheck Prog.modify State.checked State.expired State.update
  dsimp only
  by_cases h : (s.task t).state = .sleeping ∧ 0 < (s.task t).sleepEndTick ∧
    (s.task t).sleepEndTick < s.timerTicks
  · rw [if_pos h, if_pos (decide_eq_true h)]
  · rw [if_neg h, if_neg (by simpa using h), Function.update_eq_self]

theorem checked_of_not (h : s.runnable t = false) : s.checked t = s := by
  apply if_neg
  intro hexp
  unfold State.runnable at h
  simp [hexp] at h

/-- A task that may run is running or awake behind `wake_check`, and no other is. -/
theorem checked_state : ((s.checked t).task t).state = .running ∨
    ((s.checked t).task t).state = .awaken ↔ s.runnable t = true := by
  unfold State.checked State.runnable
  by_cases h : s.expired t = true
  · rw [if_pos h, State.update_self]
    simp [h]
  · rw [if_neg h]
    simp [h]

/-! ### The loops -/

theorem Path.of_append (h : Path link (l₁ ++ l₂)) : Path link l₂ := by
  induction l₁ with
  | nil => exact h
  | cons t l ih =>
    apply ih
    cases hl : l ++ l₂ with
    | nil => trivial
    | cons u v =>
      rw [List.cons_append, hl] at h
      exact h.2

theorem Path.link_eq (h : Path link (t :: l)) : link t = l.head? := by
  cases l with
  | nil => exact h
  | cons u l => exact h.1

/-- Links that end go through no task twice. -/
theorem Path.nodup (h : Path link l) : l.Nodup := by
  induction l with
  | nil => exact List.nodup_nil
  | cons t l ih =>
    have hl : Path link l := @Path.of_append [t] _ _ h
    refine List.nodup_cons.mpr ⟨fun ht => ?_, ih hl⟩
    obtain ⟨u, v, rfl⟩ := List.append_of_mem ht
    have hlong := walk_eq h (Nat.lt_succ_self _)
    have hshort := walk_eq hl.of_append (show v.length < (u ++ t :: v).length + 1 by simp; omega)
    have hlen := congrArg List.length (hlong.symm.trans hshort)
    simp only [List.length_cons, List.length_append] at hlen
    omega

/-- A loop stops at the first task that may run. -/
theorem scan_eq (h : Path (fun t => (s.task t).next) q) (hlen : q.length ≤ fuel) :
    scan fuel q.head? s = match q.find? s.runnable with
      | none => .ok none s
      | some n => .ok (some n) (s.checked n) := by
  induction q generalizing fuel with
  | nil =>
    unfold scan
    rfl
  | cons t q ih =>
    obtain ⟨fuel, rfl⟩ := Nat.exists_eq_add_one_of_ne_zero (Nat.ne_zero_of_lt hlen)
    have hround : scan (fuel + 1) (some t) s =
        (if s.runnable t then pure (some t) else scan fuel ((s.checked t).task t).next : Kern _)
          (s.checked t) := by
      rw [scan, bind_of_ok (wakeCheck_eq s t), read_bind]
      by_cases hrun : s.runnable t = true
      · rw [if_pos (checked_state.mpr hrun), if_pos hrun]
      · rw [if_neg (fun h => hrun (checked_state.mp h)), if_neg hrun]
    rw [List.head?_cons, hround]
    cases hrun : s.runnable t with
    | true =>
      rw [List.find?_cons_of_pos hrun]
      rfl
    | false =>
      rw [List.find?_cons_of_neg (by rw [hrun]; exact Bool.false_ne_true),
        if_neg Bool.false_ne_true,
        checked_of_not hrun]
      have hnext : (s.task t).next = q.head? := Path.link_eq h
      rw [hnext]
      exact ih (@Path.of_append [t] _ _ h) (Nat.le_of_succ_le_succ hlen)

theorem State.Queue.length_le (h : s.Queue q) : q.length ≤ s.count :=
  length_le_of_nodup h.path.nodup h.alloc

/-- The two loops take the first task behind the current one that may run. -/
theorem taskSwitchInner_eq (h : s.Queue q) (hc : s.current ∈ q) (hopen : s.switchLocked = false) :
    taskSwitchInner s = match (after q s.current).find? s.runnable with
      | none => .halt (.panic "All threads sleeping, even idle\n") s
      | some n => .ok n (s.taken n) := by
  obtain ⟨u, v, hq⟩ := List.append_of_mem hc
  have hpath := h.path
  have hlen := h.length_le
  have hnext : (s.task s.current).next = v.head? := Path.link_eq (hq ▸ hpath).of_append
  have hfind : (after q s.current).find? s.runnable =
      (v.find? s.runnable).or (q.find? s.runnable) := by
    rw [hq]
    exact find_after (not_mem_of_split (hq ▸ hpath.nodup))
  have hv : v.length ≤ s.count := by
    rw [hq, List.length_append, List.length_cons] at hlen
    omega
  have hfirst := scan_eq (@Path.of_append [s.current] _ _ (hq ▸ hpath).of_append) hv
  have hsecond := scan_eq hpath hlen
  rw [← hnext] at hfirst
  rw [h.head] at hsecond
  rw [taskSwitchInner, read_bind, hopen, if_neg Bool.false_ne_true, hfind]
  cases hrest : v.find? s.runnable with
  | some n =>
    rw [hrest] at hfirst
    rw [bind_of_ok hfirst]
    rfl
  | none =>
    rw [hrest] at hfirst
    rw [bind_of_ok hfirst, Option.none_or, Option.isSome_none, if_neg Bool.false_ne_true]
    cases hall : q.find? s.runnable with
    | some n =>
      rw [hall] at hsecond
      rw [bind_of_ok hsecond]
      rfl
    | none =>
      rw [hall] at hsecond
      rw [bind_of_ok hsecond]
      rfl

end

/-! ### Runs -/

/-- A run in which the queue is fixed, with its turns: for each the state before it, and the task.
Between the turns the tasks and the time change in any way. -/
inductive Run (q : List ℕ) : State → List (State × ℕ) → State → Prop
  | refl (s : State) : Run q s [] s
  | change {s s' s'' : State} {turns : List (State × ℕ)} : s'.Queue q → s'.current = s.current →
      Run q s' turns s'' → Run q s turns s''
  | turn {s s' s'' : State} {n : ℕ} {turns : List (State × ℕ)} : s.switchLocked = false →
      taskSwitchInner s = .ok n s' → Run q s' turns s'' → Run q s ((s, n) :: turns) s''

/-- The turns between two of task `a`, and the state before the second. -/
def Between (turns : List (State × ℕ)) (a : ℕ) (between : List (State × ℕ)) (s : State) : Prop :=
  a ∉ between.map Prod.snd ∧
    ∃ earlier s' later, turns = earlier ++ (s', a) :: (between ++ (s, a) :: later)

/-- A task may run at each of the turns, and at one more. -/
def StaysRunnable (b : ℕ) (turns : List (State × ℕ)) (s : State) : Prop :=
  (∀ r ∈ turns, r.1.runnable b = true) ∧ s.runnable b = true

section

variable {s s' s'' : State} {q : List ℕ} {a b c t : ℕ} {turns between : List (State × ℕ)}

theorem State.Queue.alike (h : s.Queue q) (ha : Alike s s') : s'.Queue q :=
  ⟨h.head, h.path.congr fun u _ => ha.next u, ha.count ▸ h.alloc⟩

theorem alike_taken : Alike s (s.taken t) := by
  have hchecked : Alike s (s.checked t) := by
    unfold State.checked
    split_ifs
    · exact Alike.update t rfl rfl fun _ => id
    · exact Alike.refl s
  exact hchecked.trans (.of_task (fun _ => ⟨rfl, rfl, rfl⟩) rfl rfl rfl rfl)

/-- A turn takes a task of the queue, and leaves the queue. -/
theorem turn_spec (h : s.Queue q) (hc : s.current ∈ q) (hopen : s.switchLocked = false)
    (hturn : taskSwitchInner s = .ok t s') : (after q s.current).find? s.runnable = some t ∧
      s'.Queue q ∧ s'.current = t ∧ t ∈ q := by
  rw [taskSwitchInner_eq h hc hopen] at hturn
  cases hfind : (after q s.current).find? s.runnable with
  | none =>
    rw [hfind] at hturn
    cases hturn
  | some n =>
    rw [hfind] at hturn
    cases hturn
    exact ⟨rfl, h.alike alike_taken, rfl, (mem_after_iff hc).mp (List.mem_of_find?_eq_some hfind)⟩

/-- The turns of a run are taken round the queue. -/
theorem Run.round (hrun : Run q s turns s') (h : s.Queue q) (hc : s.current ∈ q) :
    Turns q s.current (turns.map fun r => (r.1.runnable, r.2)) := by
  induction hrun with
  | refl => trivial
  | change hq hcurrent _ ih => exact hcurrent ▸ ih hq (hcurrent ▸ hc)
  | turn hopen hturn _ ih =>
    obtain ⟨hfind, hq, rfl, hmem⟩ := turn_spec h hc hopen hturn
    exact ⟨hfind, ih hq hmem⟩

/-- What may run at each of the turns stays runnable between two of them. -/
theorem Between.staysRunnable (h : Between turns a between s)
    (hall : ∀ r ∈ turns, r.1.runnable b = true) : StaysRunnable b between s := by
  obtain ⟨-, earlier, s', later, rfl⟩ := h
  exact ⟨fun r hr => hall r (by simp [hr]), hall (s, a) (by simp)⟩

theorem StaysRunnable.may (h : StaysRunnable b between s) :
    ∀ r ∈ (between.map fun r => (r.1.runnable, r.2)) ++ [(s.runnable, a)], r.1 b = true := by
  intro r hr
  rcases List.mem_append.mp hr with hr | hr
  · obtain ⟨r', hr', rfl⟩ := List.mem_map.mp hr
    exact h.1 r' hr'
  · obtain rfl := List.mem_singleton.mp hr
    exact h.2

/-- The turns between two of a task are turns round the queue. -/
theorem Between.round (hbetween : Between turns a between s') (hrun : Run q s turns s'')
    (h : s.Queue q) (hc : s.current ∈ q) : a ∈ q ∧
      Turns q a ((between.map fun r => (r.1.runnable, r.2)) ++ [(s'.runnable, a)]) := by
  obtain ⟨-, earlier, s₀, later, rfl⟩ := hbetween
  have hturns := hrun.round h hc
  rw [List.map_append, List.map_cons, List.map_append, List.map_cons] at hturns
  exact ⟨hturns.mem hc _ (List.mem_append_right _ List.mem_cons_self), hturns.after_turn.up_to⟩

end

/-! ### The turns -/

/-- **`task_switch_inner` takes the first task behind the current one, round the queue, that may
run, and panics if there is none. While the queue is fixed, between two turns of a task each other
one that may always run has a turn, and exactly one if the first may always run as well.** -/
theorem round_robin {s : State} {q : List ℕ} (h : s.Queue q) (hc : s.current ∈ q) :
    (s.switchLocked = false →
      (∀ t, (∃ s', taskSwitchInner s = .ok t s' ∧ s'.current = t) ↔
        (after q s.current).find? s.runnable = some t) ∧
      ((∃ msg s', taskSwitchInner s = .halt (.panic msg) s') ↔ ∀ t ∈ q, s.runnable t = false)) ∧
    ∀ turns s'', Run q s turns s'' → ∀ a b between s', Between turns a between s' → b ∈ q → b ≠ a →
      StaysRunnable b between s' → b ∈ between.map Prod.snd ∧
        (StaysRunnable a between s' → (between.map Prod.snd).count b = 1) := by
  refine ⟨fun hopen => ?_, fun turns s'' hrun a b between s' hbetween hb hne hmay => ?_⟩
  · rw [taskSwitchInner_eq h hc hopen]
    cases hfind : (after q s.current).find? s.runnable with
    | none =>
      refine ⟨fun t => iff_of_false (fun ⟨_, hok, _⟩ => by cases hok) nofun, ?_⟩
      refine iff_of_true ⟨_, _, rfl⟩ fun t ht => ?_
      rw [List.find?_eq_none] at hfind
      exact Bool.eq_false_iff.mpr (hfind t ((mem_after_iff hc).mpr ht))
    | some n =>
      constructor
      · intro t
        constructor
        · rintro ⟨s', hok, -⟩
          cases hok
          rfl
        · rintro ⟨⟩
          exact ⟨_, rfl, rfl⟩
      · refine iff_of_false (fun ⟨_, _, hhalt⟩ => by cases hhalt) fun hnone => ?_
        have hmem := (mem_after_iff hc).mp (List.mem_of_find?_eq_some hfind)
        exact Bool.false_ne_true ((hnone n hmem).symm.trans (List.find?_some hfind))
  · obtain ⟨ha, hround⟩ := hbetween.round hrun h hc
    have hsnd : (between.map fun r => (r.1.runnable, r.2)).map Prod.snd = between.map Prod.snd := by
      rw [List.map_map]
      rfl
    rw [← hsnd]
    have hnot := hbetween.1
    rw [← hsnd] at hnot
    exact ⟨mem_between h.path.nodup ha hb hne hround hmay.may hnot, fun hfirst =>
      count_between h.path.nodup ha hb hne hround hmay.may hnot hfirst.may⟩

theorem taskSwitchInner_of_find {s : State} {q : List ℕ} {t : ℕ} (h : s.Queue q)
    (hc : s.current ∈ q) (hopen : s.switchLocked = false)
    (hfind : (after q s.current).find? s.runnable = some t) :
    taskSwitchInner s = .ok t (s.taken t) := by
  rw [taskSwitchInner_eq h hc hopen, hfind]

theorem pair_queue : pair.Queue [0, 1] := ⟨rfl, ⟨rfl, rfl⟩, by decide⟩

/-- The turns of two tasks that run. -/
def pairTurns : List (State × ℕ) := [(pair, 0), (pair.taken 0, 1), ((pair.taken 0).taken 1, 0)]

/-- Two tasks that run take turns: between two turns of the first, the second has one. -/
theorem round_robin_pair : (∃ s', taskSwitchInner pair = .ok 0 s' ∧ s'.current = 0) ∧
    Run [0, 1] pair pairTurns (((pair.taken 0).taken 1).taken 0) ∧
    ∀ between s', Between pairTurns 0 between s' →
      1 ∈ between.map Prod.snd ∧ (between.map Prod.snd).count 1 = 1 := by
  have hq₁ := pair_queue.alike (@alike_taken pair 0)
  have hq₂ := hq₁.alike (@alike_taken (pair.taken 0) 1)
  have h₀ := taskSwitchInner_of_find pair_queue (by decide) rfl (show _ = some 0 from rfl)
  have h₁ := taskSwitchInner_of_find hq₁ (by decide) rfl (show _ = some 1 from rfl)
  have h₂ := taskSwitchInner_of_find hq₂ (by decide) rfl (show _ = some 0 from rfl)
  have hrun : Run [0, 1] pair pairTurns (((pair.taken 0).taken 1).taken 0) :=
    .turn rfl h₀ (.turn rfl h₁ (.turn rfl h₂ (.refl _)))
  have hmay : ∀ b ∈ [0, 1], ∀ r ∈ pairTurns, r.1.runnable b = true := by decide
  have hc : pair.current ∈ [0, 1] := by decide
  refine ⟨(((round_robin pair_queue hc).1 rfl).1 0).mpr rfl, hrun, fun between s' hbetween => ?_⟩
  have hround := (round_robin pair_queue hc).2 _ _ hrun 0 1 between s' hbetween (by decide)
    (by decide) (hbetween.staysRunnable (hmay 1 (by decide)))
  exact ⟨hround.1, hround.2 (hbetween.staysRunnable (hmay 0 (by decide)))⟩

/-- The first task of the pair has its turn, and sleeps. -/
def pairDozing : State := (pair.taken 0).after [.sleepOn (.other 5)]

/-- The second task has had two turns, and the first is woken. -/
def pairWoken : State := ((pairDozing.taken 1).taken 1).after [.wakeup (.other 5)]

/-- The second task of the pair has two turns while the first sleeps. -/
theorem not_round_robin : ¬∀ (s : State) (q : List ℕ), s.Queue q → s.current ∈ q →
    ∀ turns s'', Run q s turns s'' → ∀ a b between s', Between turns a between s' → b ∈ q → b ≠ a →
      StaysRunnable b between s' → (between.map Prod.snd).count b = 1 := by
  intro hall
  have hdozing : pairDozing.Queue [0, 1] := ⟨rfl, ⟨rfl, rfl⟩, by decide⟩
  have hwoken : pairWoken.Queue [0, 1] := ⟨rfl, ⟨rfl, rfl⟩, by decide⟩
  have hturn := hdozing.alike (@alike_taken pairDozing 1)
  have h₀ := taskSwitchInner_of_find pair_queue (by decide) rfl (show _ = some 0 from rfl)
  have h₁ := taskSwitchInner_of_find hdozing (by decide) rfl (show _ = some 1 from rfl)
  have h₂ := taskSwitchInner_of_find hturn (by decide) rfl (show _ = some 1 from rfl)
  have h₃ := taskSwitchInner_of_find hwoken (by decide) rfl (show _ = some 0 from rfl)
  have hrun : Run [0, 1] pair [(pair, 0), (pairDozing, 1), (pairDozing.taken 1, 1), (pairWoken, 0)]
      (pairWoken.taken 0) :=
    .turn rfl h₀ (.change hdozing rfl (.turn rfl h₁ (.turn rfl h₂
      (.change hwoken rfl (.turn rfl h₃ (.refl _))))))
  have hbetween : Between [(pair, 0), (pairDozing, 1), (pairDozing.taken 1, 1), (pairWoken, 0)] 0
      [(pairDozing, 1), (pairDozing.taken 1, 1)] pairWoken := ⟨by decide, [], pair, [], rfl⟩
  have hmay : StaysRunnable 1 [(pairDozing, 1), (pairDozing.taken 1, 1)] pairWoken :=
    ⟨List.forall_mem_cons.mpr ⟨rfl, List.forall_mem_singleton.mpr rfl⟩, rfl⟩
  have hcount := hall pair [0, 1] pair_queue (by decide) _ _ hrun 0 1 _ _ hbetween (by decide)
    (by decide) hmay
  exact absurd hcount (by decide)

end Cosiris.Signals
