import Cosiris.Kernel.Scheduler

/-!
# Timed sleep

`sleep_onms` keeps the tick at which a sleep ends, which is a word of 32 bits, and `wake_check`
compares it with the ticks so far. A tick that is not before the last word of the first half wraps
the comparison around, and 0 is no tick at all.
-/

namespace Cosiris.Signals

open Prog

/-! ### Time -/

/-- The ticks that a step takes. -/
def Op.ticks : Op → ℕ
  | tick => 1
  | _ => 0

section

variable {s s' : State} {T : UInt32}

theorem ticks_taskExit (h : s.timerTicks = T) :
    wp taskExit (fun _ s' => s'.timerTicks = T) (fun _ _ => True) s := by
  unfold taskExit
  simp only [wp_bind, wp_read, wp_ite, wp_modify]
  split_ifs
  · exact h
  · split
    · trivial
    · exact h

theorem ticks_intReturn (h : s.timerTicks = T) :
    wp intReturn (fun _ s' => s'.timerTicks = T) (fun _ _ => True) s := by
  simp only [intReturn, wp_modify]
  split <;> exact h

theorem ticks_taskSwitchInt (n : ℕ) (h : s.timerTicks = T) :
    wp (taskSwitchInt n) (fun _ s' => s'.timerTicks = T) (fun _ _ => True) s := by
  rw [taskSwitchInt, wp_bind, wp_modify, wp_bind, wp_read]
  refine wp_processSignals (I := fun s => s.timerTicks = T) s.signals (fun _ _ hs => hs)
    (fun _ _ hs => hs) (fun _ hs => ticks_intReturn hs) (fun s hs _ => ?_) (fun _ _ hs _ => hs)
    (fun _ => trivial) h
  refine (ticks_taskExit hs).mono (fun _ s' hs' => ?_) fun _ _ => id
  rw [ite_self]
  exact hs'

/-- Only the timer changes the time. -/
theorem Op.exec_ticks (op : Op) (s : State) :
    wp op.exec (fun _ s' => s'.timerTicks = s.timerTicks + .ofNat op.ticks)
      (fun _ _ => True) s := by
  have hsame (n : UInt32) : n = n + .ofNat 0 := (UInt32.add_zero n).symm
  cases op with
  | tick => rfl
  | exit => exact ticks_taskExit (hsame _)
  | switch n => exact ticks_taskSwitchInt n (hsame _)
  | handlerReturn =>
    show wp signalHandlerReturn _ _ s
    simp only [signalHandlerReturn, wp_bind, wp_read]
    split
    · trivial
    · exact hsame _
  | «open» file =>
    show wp (sysOpen file) _ _ s
    simp only [sysOpen, wp_modify]
    split_ifs <;> split <;> exact hsame _
  | signal signum handler =>
    show wp (Signals.signal signum handler) _ _ s
    simp only [Signals.signal, wp_modify]
    split_ifs <;> exact hsame _
  | kill pid signum =>
    show wp (Signals.kill pid signum) _ _ s
    simp only [Signals.kill, wp_modify]
    split_ifs <;> exact hsame _
  | _ => exact hsame _

end

/-! ### Sleeps -/

/-- The ticks of a time, rounded up. -/
def ticksOf (ms : UInt32) : ℕ := (ms.toNat + 9) / 10

/-- A run in which a task stays asleep, with its sleep as it was, and the number of ticks. -/
inductive Asleep (t : ℕ) (s₀ : State) : ℕ → State → Prop
  | start : Asleep t s₀ 0 s₀
  | step {n : ℕ} {s s' : State} (op : Op) : Asleep t s₀ n s → op.exec s = .ok () s' →
      (s'.task t).state = .sleeping → (s'.task t).sleepEndTick = (s₀.task t).sleepEndTick →
      Asleep t s₀ (n + op.ticks) s'

/-- The state behind `sleep_onms`. -/
def State.slept (s : State) (a : Addr) (ms : UInt32) : State := (sleepOnms a ms s).state

/-- A sleep of the current task is timely: as long as it lasts, `wake_check` does not end it before
its ticks have passed, and ends it later, within the next `2 ^ 31` ticks. -/
def Timely (s : State) (a : Addr) (ms : UInt32) : Prop :=
  ∀ n s', Asleep s.current (s.slept a ms) n s' →
    (n < ticksOf ms → (((wakeCheck s.current s').state).task s.current).state ≠ .running) ∧
    (ticksOf ms < n → n ≤ ticksOf ms + 2 ^ 31 →
      (((wakeCheck s.current s').state).task s.current).state = .running)

section

variable {s s' : State} {t n : ℕ} {a : Addr} {ms : UInt32}

theorem toNat_ticks (ms : UInt32) :
    (ms / msPerTick + if ms % msPerTick ≠ 0 then 1 else 0).toNat = ticksOf ms := by
  have hms := ms.toNat_lt
  have hzero : ms % msPerTick ≠ 0 ↔ ms.toNat % 10 ≠ 0 := by
    rw [Ne, ← UInt32.toNat_inj]
    rfl
  have hadd : (if ms % msPerTick ≠ 0 then (1 : UInt32) else 0).toNat =
      if ms.toNat % 10 ≠ 0 then 1 else 0 := by
    rw [← if_congr hzero rfl rfl]
    split_ifs <;> rfl
  have hdiv : (ms / msPerTick).toNat = ms.toNat / 10 := rfl
  rw [UInt32.toNat_add, hadd, hdiv]
  unfold ticksOf
  split_ifs <;> omega

theorem sleepOn_spec (a : Addr) (s : State) : wp (sleepOn a) (fun _ s' =>
    s'.timerTicks = s.timerTicks ∧ (s'.task s.current).state = .sleeping ∧
      (s'.task s.current).sleepEndTick = (s.task s.current).sleepEndTick) (fun _ _ => False) s := by
  simp only [sleepOn, wp_modify, State.setCalls_task, State.update_self]
  exact ⟨rfl, trivial, trivial⟩

/-- The task sleeps to the tick that the words give. -/
theorem slept_spec (s : State) (a : Addr) (ms : UInt32) :
    (s.slept a ms).timerTicks = s.timerTicks ∧
      ((s.slept a ms).task s.current).state = .sleeping ∧
      ((s.slept a ms).task s.current).sleepEndTick.toNat =
        (s.timerTicks.toNat + ticksOf ms) % 2 ^ 32 := by
  have hsleep : wp (sleepOnms a ms) (fun _ s' => s'.timerTicks = s.timerTicks ∧
      (s'.task s.current).state = .sleeping ∧ (s'.task s.current).sleepEndTick =
        s.timerTicks + (ms / msPerTick + if ms % msPerTick ≠ 0 then 1 else 0))
      (fun _ _ => False) s := by
    rw [sleepOnms, wp_bind, wp_modify]
    refine (sleepOn_spec a _).mono (fun _ s' h => ?_) fun _ _ => id
    obtain ⟨hticks, hstate, hend⟩ := h
    exact ⟨hticks, hstate, hend.trans (congrArg Task.sleepEndTick State.update_self)⟩
  obtain ⟨_, s', heq, hticks, hstate, hend⟩ := hsleep.returns
  unfold State.slept
  rw [heq, ← toNat_ticks, ← UInt32.toNat_add]
  exact ⟨hticks, hstate, congrArg UInt32.toNat hend⟩

theorem Asleep.task (h : Asleep t s n s') (hs : (s.task t).state = .sleeping) :
    (s'.task t).state = .sleeping ∧ (s'.task t).sleepEndTick = (s.task t).sleepEndTick := by
  cases h with
  | start => exact ⟨hs, rfl⟩
  | step op _ _ hstate htick => exact ⟨hstate, htick⟩

/-- The ticks are counted modulo `2 ^ 32`. -/
theorem Asleep.timerTicks (h : Asleep t s n s') :
    s'.timerTicks.toNat = (s.timerTicks.toNat + n) % 2 ^ 32 := by
  induction h with
  | start => exact (Nat.mod_eq_of_lt s.timerTicks.toNat_lt).symm
  | step op _ hexec _ _ ih =>
    have hticks := (op.exec_ticks _).ok hexec
    rw [hticks, UInt32.toNat_add, ih, UInt32.toNat_ofNat', ← Nat.add_mod, Nat.add_assoc]

/-- A task sleeps through any number of ticks. -/
theorem asleep_ticks (hs : (s.task t).state = .sleeping) (n : ℕ) : ∃ s', Asleep t s n s' := by
  induction n with
  | zero => exact ⟨s, .start⟩
  | succ n ih =>
    obtain ⟨s', h⟩ := ih
    obtain ⟨hstate, htick⟩ := h.task hs
    exact ⟨_, .step .tick h rfl hstate htick⟩

/-- `wake_check` of a task that sleeps. -/
theorem wakeCheck_running (h : (s.task t).state = .sleeping) :
    (((wakeCheck t s).state).task t).state = .running ↔
      0 < (s.task t).sleepEndTick ∧ (s.task t).sleepEndTick < s.timerTicks := by
  rw [wakeCheck_eq]
  show ((s.checked t).task t).state = .running ↔ _
  have hexpired : s.expired t = true ↔
      0 < (s.task t).sleepEndTick ∧ (s.task t).sleepEndTick < s.timerTicks := by
    unfold State.expired
    rw [decide_eq_true_iff, and_iff_right h]
  rw [← hexpired]
  unfold State.checked
  split_ifs with hexp
  · rw [State.update_self]
    exact iff_of_true rfl hexp
  · rw [h]
    exact iff_of_false TaskState.noConfusion hexp

/-- What `wake_check` does at a tick of the sleep, in numbers. -/
theorem wakes_iff (h : Asleep s.current (s.slept a ms) n s') :
    (((wakeCheck s.current s').state).task s.current).state = .running ↔
      0 < (s.timerTicks.toNat + ticksOf ms) % 2 ^ 32 ∧
        (s.timerTicks.toNat + ticksOf ms) % 2 ^ 32 < (s.timerTicks.toNat + n) % 2 ^ 32 := by
  obtain ⟨hticks, hstate, hend⟩ := slept_spec s a ms
  obtain ⟨hstate', hend'⟩ := h.task hstate
  have htime := h.timerTicks
  rw [hticks] at htime
  rw [wakeCheck_running hstate', hend', UInt32.lt_iff_toNat_lt, UInt32.lt_iff_toNat_lt, hend, htime]
  rfl

/-- A tick of the sleep is reached, whatever its number. -/
theorem Timely.at (h : Timely s a ms) (n : ℕ) :
    (n < ticksOf ms → ¬(0 < (s.timerTicks.toNat + ticksOf ms) % 2 ^ 32 ∧
        (s.timerTicks.toNat + ticksOf ms) % 2 ^ 32 < (s.timerTicks.toNat + n) % 2 ^ 32)) ∧
      (ticksOf ms < n → n ≤ ticksOf ms + 2 ^ 31 →
        0 < (s.timerTicks.toNat + ticksOf ms) % 2 ^ 32 ∧
        (s.timerTicks.toNat + ticksOf ms) % 2 ^ 32 < (s.timerTicks.toNat + n) % 2 ^ 32) := by
  obtain ⟨s', hs'⟩ := asleep_ticks (slept_spec s a ms).2.1 n
  rw [← wakes_iff hs']
  exact h n s' hs'

/-! ### Deadlines -/

/-- **A timed sleep is timely exactly if its last tick is not 0 and is before tick `2 ^ 31`.** -/
theorem timely_iff (s : State) (a : Addr) (ms : UInt32) : Timely s a ms ↔
    0 < s.timerTicks.toNat + ticksOf ms ∧ s.timerTicks.toNat + ticksOf ms < 2 ^ 31 := by
  have hT := s.timerTicks.toNat_lt
  have hms := ms.toNat_lt
  have hk : ticksOf ms = (ms.toNat + 9) / 10 := rfl
  constructor
  · intro h
    -- the tick behind the last one, and the start
    obtain ⟨hpos, hnext⟩ := (h.at (ticksOf ms + 1)).2 (by omega) (by omega)
    have hstart := (h.at 0).1
    have hlow : s.timerTicks.toNat + ticksOf ms < 2 ^ 32 := by
      by_contra hwrap
      exact hstart (by omega) ⟨hpos, by omega⟩
    refine ⟨by omega, ?_⟩
    -- the tick at which the counter is 0 again
    by_contra hhigh
    have hzero := (h.at (2 ^ 32 - s.timerTicks.toNat)).2 (by omega) (by omega)
    omega
  · rintro ⟨hpos, hlt⟩ n s' hs'
    rw [Ne, wakes_iff hs']
    refine ⟨fun hn => ?_, fun hn hle => ?_⟩ <;> omega

end

/-- The timer is about to wrap around, and the task sleeps for 100 ms. -/
theorem not_timely : ¬∀ (s : State) (a : Addr) (ms : UInt32), Timely s a ms := by
  intro h
  have hearly := (h { pair with timerTicks := 0xFFFFFFFB } (.other 5) 100).at 0
  exact hearly.1 (by decide) (by decide)

end Cosiris.Signals
