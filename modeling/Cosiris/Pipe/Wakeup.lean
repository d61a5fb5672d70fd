import Cosiris.Lib.Runs
import Cosiris.Pipe.Buffer

/-!
# Sleeping on a pipe

`pipe_read` and `pipe_write` again, now cut at every `spin_lock`, `spin_unlock`,
`sleep_on` and `wakeup`, with a switch to another process possible between any
two pieces. A process that finds nothing to do releases `pipe->lock` and only
then, in `sleep_on`, marks itself sleeping. Between the two the other side can
move bytes and call `wakeup`, which does not find it; it then sleeps with work
to do (`lost_reader`). This is the only way to lose a wake-up: if no `wakeup`
that announces moved bytes runs in such a gap, none is lost.
-/

namespace Cosiris.Pipe

variable {ι : Type*}

/-- The addresses processes sleep on: `&pipe->read_pos` and `&pipe->write_pos`. -/
inductive SleepAddr where
  | readPos
  | writePos
  deriving DecidableEq

/-- The task states that matter here: `TASK_RUNNING`, and `TASK_SLEEPING` on an address. -/
inductive TaskState where
  | running
  | sleeping (addr : SleepAddr)
  deriving DecidableEq

/-- The next piece of code of a process. -/
inductive Pc where
  /-- Outside both functions, having returned `n` from the last one. -/
  | out (n : ℕ)
  /-- `pipe_read`, at `spin_lock`, on entry or after `sleep_on`. -/
  | rLock (size : UInt32)
  /-- `pipe_read`, at the test of its `while`. -/
  | rTest (size : UInt32)
  /-- `pipe_read`, at the `spin_unlock` in its `while`. -/
  | rUnlock (size : UInt32)
  /-- `pipe_read`, at `sleep_on(&pipe->read_pos)`. -/
  | rSleep (size : UInt32)
  /-- `pipe_read`, at `wakeup(&pipe->write_pos)`, having copied `bytes`. -/
  | rWake (bytes : List UInt8)
  /-- `pipe_read`, at its last `spin_unlock`. -/
  | rEnd (bytes : List UInt8)
  /-- `pipe_write`, at `spin_lock`, on entry or after `sleep_on`. -/
  | wLock (buf rest : List UInt8)
  /-- `pipe_write`, in its `for` loop. -/
  | wLoop (buf rest : List UInt8)
  /-- `pipe_write`, at `wakeup(&pipe->read_pos)` with the buffer full; `moved` says
  whether it has enqueued since it took the lock. -/
  | wWake (moved : Bool) (buf rest : List UInt8)
  /-- `pipe_write`, at the `spin_unlock` before `sleep_on`. -/
  | wUnlock (buf rest : List UInt8)
  /-- `pipe_write`, at `sleep_on(&pipe->write_pos)`. -/
  | wSleep (buf rest : List UInt8)
  /-- `pipe_write`, at the `spin_unlock` before it returns `0`. -/
  | wBroken
  /-- `pipe_write`, at the `wakeup(&pipe->read_pos)` after its loop. -/
  | wWakeEnd (moved : Bool) (n : ℕ)
  /-- `pipe_write`, at its last `spin_unlock`. -/
  | wEnd (n : ℕ)
  deriving DecidableEq

/-- The process holds `pipe->lock`. -/
def Pc.crit : Pc → Bool
  | .rTest _ | .rUnlock _ | .rWake _ | .rEnd _ | .wLoop _ _ | .wWake _ _ _ | .wUnlock _ _ | .wBroken
  | .wWakeEnd _ _ | .wEnd _ => true
  | .out _ | .rLock _ | .rSleep _ | .wLock _ _ | .wSleep _ _ => false

/-- The process has released the lock and is about to mark itself sleeping. -/
def Pc.dozes : Pc → Option SleepAddr
  | .rSleep _ => some .readPos
  | .wSleep _ _ => some .writePos
  | _ => none

/-- The process has moved bytes and not yet called `wakeup` for them: it is between its
last buffer update and its wake-up call. -/
def Pc.signals : Pc → Option SleepAddr
  | .rWake bytes => if bytes = [] then none else some .writePos
  | .wWake moved _ _ => if moved then some .readPos else none
  | .wWakeEnd moved _ => if moved then some .readPos else none
  | _ => none

/-- The process holds the lock and has found that it must wait. -/
def Pc.waits : Pc → Option SleepAddr
  | .rUnlock _ => some .readPos
  | .wWake _ _ _ | .wUnlock _ _ => some .writePos
  | _ => none

/-- The processes, the pipe they share and its lock. -/
structure Sched (ι : Type*) where
  /-- The pipe. -/
  pipe : VfsPipe
  /-- `pipe->lock`. -/
  lock : Bool
  /-- Where each process is. -/
  pc : ι → Pc
  /-- The state of each task. -/
  task : ι → TaskState

/-- A new pipe; no process is in either function and none sleeps. -/
def Sched.start (ι : Type*) (buf : ℕ → UInt8) (readers writers : UInt32) : Sched ι :=
  ⟨pipeNew buf readers writers, false, fun _ => .out 0, fun _ => .running⟩

/-- `wakeup(addr)`: every task sleeping on `addr` runs again. -/
def wakeup (addr : SleepAddr) (task : ι → TaskState) : ι → TaskState :=
  fun j => if task j = .sleeping addr then .running else task j

/-- What the body of `pipe_read`'s critical section comes to. -/
def afterTest (size : UInt32) (p : VfsPipe) : Pc × VfsPipe :=
  if p.readPos = p.writePos ∧ 0 < p.writers then (.rUnlock size, p)
  else (.rWake (readLoop size.toNat p).1, (readLoop size.toNat p).2)

/-- What the `for` loop of `pipe_write` comes to. -/
def afterLoop (buf rest : List UInt8) (p : VfsPipe) : Pc × VfsPipe :=
  let w := writeLoop rest p
  let moved := decide (w.1 ≠ rest)
  if w.1 = [] then (.wWakeEnd moved buf.length, w.2)
  else if w.2.readers = 0 then (.wBroken, w.2)
  else (.wWake moved buf w.1, w.2)

/-- The waiting condition of an address: the pipe is empty, or full. -/
def Blocked (p : VfsPipe) : SleepAddr → Prop
  | .readPos => p.readPos = p.writePos
  | .writePos => p.writePos = p.readPos + p.size

/-- Process `i` waits on `addr`: it sleeps there, or is about to. -/
def Sched.Waiting (s : Sched ι) (i : ι) (addr : SleepAddr) : Prop :=
  (s.pc i).dozes = some addr ∨ s.task i = .sleeping addr

/-- Some process is between its last buffer update and its `wakeup(addr)`. -/
def Sched.Signalled (s : Sched ι) (addr : SleepAddr) : Prop := ∃ j, (s.pc j).signals = some addr

/-- **A lost wake-up**: a process sleeps on an address although it has work to do and no
process is about to wake it. -/
def Sched.Lost (s : Sched ι) : Prop :=
  ∃ i addr, s.task i = .sleeping addr ∧ ¬ Blocked s.pipe addr ∧ ¬ s.Signalled addr

/-- No process is in the gap between its `spin_unlock` and its `sleep_on` on the address
that process `i` is about to wake for the bytes it has moved. -/
def Sched.Timely (s : Sched ι) (i : ι) : Prop :=
  ∀ addr, (s.pc i).signals = some addr → ∀ j, (s.pc j).dozes ≠ some addr

/-- What holds of the lock and of the waiting processes. -/
structure Sched.Inv (s : Sched ι) : Prop where
  readers : s.pipe.readers ≠ 0
  held : ∀ i, (s.pc i).crit = true → s.lock = true
  excl : ∀ i j, (s.pc i).crit = true → (s.pc j).crit = true → i = j
  waits : ∀ i addr, (s.pc i).waits = some addr → Blocked s.pipe addr
  wait : ∀ i addr, s.Waiting i addr → Blocked s.pipe addr ∨ s.Signalled addr

theorem Sched.start_inv (buf : ℕ → UInt8) {readers : UInt32} (writers : UInt32) (hr : readers ≠ 0) :
    (Sched.start ι buf readers writers).Inv where
  readers := hr
  held := by simp [Sched.start, Pc.crit]
  excl := by simp [Sched.start, Pc.crit]
  waits := by simp [Sched.start, Pc.waits]
  wait := by simp [Sched.start, Sched.Waiting, Pc.dozes]

/-- A process that is about to wake another holds the lock. -/
theorem Pc.crit_of_signals {pc : Pc} {addr : SleepAddr} (h : pc.signals = some addr) :
    pc.crit = true := by
  cases pc <;> simp_all [Pc.signals, Pc.crit]

/-- A process that has found it must wait holds the lock. -/
theorem Pc.crit_of_waits {pc : Pc} {addr : SleepAddr} (h : pc.waits = some addr) :
    pc.crit = true := by
  cases pc <;> simp_all [Pc.waits, Pc.crit]

theorem readLoop_nil {n : ℕ} {p : VfsPipe} (h : (readLoop n p).1 = []) : (readLoop n p).2 = p := by
  cases n with
  | zero => rfl
  | succ n =>
    unfold readLoop at h ⊢
    split_ifs at h ⊢
    rfl

theorem readLoop_empty (n : ℕ) {p : VfsPipe} (h : p.readPos = p.writePos) :
    (readLoop n p).1 = [] := by
  cases n with
  | zero => rfl
  | succ n => simp [readLoop, h]

theorem length_writeLoop_le (cs : List UInt8) (p : VfsPipe) :
    (writeLoop cs p).1.length ≤ cs.length := by
  induction cs generalizing p with
  | nil => exact le_rfl
  | cons c cs ih =>
    unfold writeLoop
    split_ifs
    · exact le_rfl
    · exact (ih _).trans (Nat.le_succ _)

theorem writeLoop_same {cs : List UInt8} {p : VfsPipe} (h : (writeLoop cs p).1 = cs) :
    (writeLoop cs p).2 = p := by
  cases cs with
  | nil => rfl
  | cons c cs =>
    unfold writeLoop at h ⊢
    split_ifs at h ⊢
    · rfl
    · have := congrArg List.length h
      have hle := length_writeLoop_le cs (p.put c)
      simp only [VfsPipe.put, List.length_cons] at this hle
      omega

theorem writeLoop_full (cs : List UInt8) {p : VfsPipe} (h : p.writePos = p.readPos + p.size) :
    (writeLoop cs p).1 = cs := by
  cases cs with
  | nil => rfl
  | cons c cs => unfold writeLoop; rw [if_pos h]

/-- The loop of a write that is not finished stops at a full buffer. -/
theorem writeLoop_stops {cs : List UInt8} {p : VfsPipe} (h : (writeLoop cs p).1 ≠ []) :
    (writeLoop cs p).2.writePos = (writeLoop cs p).2.readPos + (writeLoop cs p).2.size := by
  induction cs generalizing p with
  | nil => exact absurd rfl h
  | cons c cs ih =>
    unfold writeLoop at h ⊢
    split_ifs at h ⊢ with hf
    · exact hf
    · exact ih h

/-- A state in which the invariant holds has no lost wake-up. -/
theorem Sched.Inv.not_lost {s : Sched ι} (h : s.Inv) : ¬ s.Lost := by
  rintro ⟨i, addr, hi, hb, hs⟩
  rcases h.wait i addr (Or.inr hi) with hb' | hs'
  · exact hb hb'
  · exact hs hs'

/-- A process that has nothing to announce falls into no gap. -/
theorem Sched.Timely.of_signals {s : Sched ι} {i : ι} (h : (s.pc i).signals = none) :
    s.Timely i := by
  intro addr ha
  rw [h] at ha
  cases ha

variable [DecidableEq ι]

/-- Process `i` moves on to the piece `pc`. -/
def Sched.goto (s : Sched ι) (i : ι) (pc : Pc) : Sched ι :=
  { s with pc := Function.update s.pc i pc }

/-- Process `i`, running, executes its next piece of code. -/
inductive Sched.Step (i : ι) : Sched ι → Sched ι → Prop where
  /-- `pipe_read` is called. -/
  | callRead {s : Sched ι} {n : ℕ} (size : UInt32) (hr : s.task i = .running)
      (h : s.pc i = .out n) :
      Step i s (s.goto i (.rLock size))
  /-- `pipe_write` is called. -/
  | callWrite {s : Sched ι} {n : ℕ} (buf : List UInt8) (hr : s.task i = .running)
      (h : s.pc i = .out n) :
      Step i s (s.goto i (.wLock buf buf))
  /-- `spin_lock` succeeds, in `pipe_read`. -/
  | rLock {s : Sched ι} {size : UInt32} (hr : s.task i = .running) (h : s.pc i = .rLock size)
      (hl : s.lock = false) : Step i s { s.goto i (.rTest size) with lock := true }
  /-- The test of the `while`, and the `for` loop when it is left. -/
  | rTest {s : Sched ι} {size : UInt32} (hr : s.task i = .running) (h : s.pc i = .rTest size) :
      Step i s { s.goto i (afterTest size s.pipe).1 with pipe := (afterTest size s.pipe).2 }
  /-- `spin_unlock`, before the sleep. -/
  | rUnlock {s : Sched ι} {size : UInt32} (hr : s.task i = .running) (h : s.pc i = .rUnlock size) :
      Step i s { s.goto i (.rSleep size) with lock := false }
  /-- `sleep_on(&pipe->read_pos)`. -/
  | rSleep {s : Sched ι} {size : UInt32} (hr : s.task i = .running) (h : s.pc i = .rSleep size) :
      Step i s { s.goto i (.rLock size) with task := Function.update s.task i (.sleeping .readPos) }
  /-- `wakeup(&pipe->write_pos)`. -/
  | rWake {s : Sched ι} {bytes : List UInt8} (hr : s.task i = .running)
      (h : s.pc i = .rWake bytes) :
      Step i s { s.goto i (.rEnd bytes) with task := wakeup .writePos s.task }
  /-- `spin_unlock`, and the return. -/
  | rEnd {s : Sched ι} {bytes : List UInt8} (hr : s.task i = .running) (h : s.pc i = .rEnd bytes) :
      Step i s { s.goto i (.out bytes.length) with lock := false }
  /-- `spin_lock` succeeds, in `pipe_write`. -/
  | wLock {s : Sched ι} {buf rest : List UInt8} (hr : s.task i = .running)
      (h : s.pc i = .wLock buf rest)
      (hl : s.lock = false) : Step i s { s.goto i (.wLoop buf rest) with lock := true }
  /-- The `for` loop, until it ends or the buffer is full. -/
  | wLoop {s : Sched ι} {buf rest : List UInt8} (hr : s.task i = .running)
      (h : s.pc i = .wLoop buf rest) :
      Step i s { s.goto i (afterLoop buf rest s.pipe).1 with pipe := (afterLoop buf rest s.pipe).2 }
  /-- `wakeup(&pipe->read_pos)`, with the buffer full. -/
  | wWake {s : Sched ι} {moved : Bool} {buf rest : List UInt8} (hr : s.task i = .running)
      (h : s.pc i = .wWake moved buf rest) :
      Step i s { s.goto i (.wUnlock buf rest) with task := wakeup .readPos s.task }
  /-- `spin_unlock`, before the sleep. -/
  | wUnlock {s : Sched ι} {buf rest : List UInt8} (hr : s.task i = .running)
      (h : s.pc i = .wUnlock buf rest) : Step i s { s.goto i (.wSleep buf rest) with lock := false }
  /-- `sleep_on(&pipe->write_pos)`. -/
  | wSleep {s : Sched ι} {buf rest : List UInt8} (hr : s.task i = .running)
      (h : s.pc i = .wSleep buf rest) :
      Step i s { s.goto i (.wLock buf rest) with
                 task := Function.update s.task i (.sleeping .writePos) }
  /-- `spin_unlock`, and the return of `0`. -/
  | wBroken {s : Sched ι} (hr : s.task i = .running) (h : s.pc i = .wBroken) :
      Step i s { s.goto i (.out 0) with lock := false }
  /-- `wakeup(&pipe->read_pos)`, after the loop. -/
  | wWakeEnd {s : Sched ι} {moved : Bool} {n : ℕ} (hr : s.task i = .running)
      (h : s.pc i = .wWakeEnd moved n) :
      Step i s { s.goto i (.wEnd n) with task := wakeup .readPos s.task }
  /-- `spin_unlock`, and the return. -/
  | wEnd {s : Sched ι} {n : ℕ} (hr : s.task i = .running) (h : s.pc i = .wEnd n) :
      Step i s { s.goto i (.out n) with lock := false }

/-- Any process takes a step. -/
def Sched.AnyStep (s t : Sched ι) : Prop := ∃ i, Sched.Step i s t

/-- Any process takes a step, and no wake-up for moved bytes falls into a gap. -/
def Sched.TimelyStep (s t : Sched ι) : Prop := ∃ i, s.Timely i ∧ Sched.Step i s t

/-! ### What a step keeps -/

/-- The lock after process `i` moves on: it was free, or `i` keeps what it has, or `i`
gives it up. -/
theorem Sched.Inv.lock {s : Sched ι} (h : s.Inv) {i : ι} {pc : Pc} {l : Bool}
    (hl : (s.lock = false ∧ l = true) ∨ ((s.pc i).crit = pc.crit ∧ l = s.lock) ∨
      ((s.pc i).crit = true ∧ pc.crit = false)) :
    (∀ j, (Function.update s.pc i pc j).crit = true → l = true) ∧
      ∀ j k, (Function.update s.pc i pc j).crit = true →
        (Function.update s.pc i pc k).crit = true → j = k := by
  have hheld := h.held
  have hexcl := h.excl
  refine ⟨fun j hj => ?_, fun j k hj hk => ?_⟩
  · by_cases hji : j = i
    · subst hji
      rw [Function.update_self] at hj
      have := hheld j
      grind
    · rw [Function.update_of_ne hji] at hj
      have := hheld j hj
      have := hexcl j i hj
      grind
  · by_cases hji : j = i <;> by_cases hki : k = i
    · rw [hji, hki]
    · subst hji
      rw [Function.update_self] at hj
      rw [Function.update_of_ne hki] at hk
      have := hheld k hk
      have := hexcl j k
      grind
    · subst hki
      rw [Function.update_self] at hk
      rw [Function.update_of_ne hji] at hj
      have := hheld j hj
      have := hexcl j k hj
      grind
    · rw [Function.update_of_ne hji] at hj
      rw [Function.update_of_ne hki] at hk
      exact hexcl j k hj hk

/-- A step that moves no bytes: whoever comes to wait is blocked, and an announcement
that is made reaches everyone who waits for it. -/
theorem Sched.Inv.quiet {s : Sched ι} (h : s.Inv) {i : ι} {pc : Pc} {l : Bool}
    {task : ι → TaskState}
    (hl : (s.lock = false ∧ l = true) ∨ ((s.pc i).crit = pc.crit ∧ l = s.lock) ∨
      ((s.pc i).crit = true ∧ pc.crit = false))
    (hwaits : ∀ a, pc.waits = some a → Blocked s.pipe a)
    (hwait : ∀ j a, Sched.Waiting ⟨s.pipe, l, Function.update s.pc i pc, task⟩ j a →
      (s.Waiting j a ∨ Blocked s.pipe a) ∧ (pc.signals = some a ∨ (s.pc i).signals ≠ some a)) :
    Sched.Inv ⟨s.pipe, l, Function.update s.pc i pc, task⟩ where
  readers := h.readers
  held := (h.lock hl).1
  excl := (h.lock hl).2
  waits := by
    intro j a hj
    by_cases hji : j = i
    · subst hji
      exact hwaits a (by simpa using hj)
    · exact h.waits j a (by simpa [hji] using hj)
  wait := by
    intro j a hj
    obtain ⟨hold, hsig⟩ := hwait j a hj
    rcases hold with hold | hb
    · rcases h.wait j a hold with hb | ⟨k, hk⟩
      · exact Or.inl hb
      · by_cases hki : k = i
        · subst hki
          rcases hsig with hs | hs
          · exact Or.inr ⟨k, by simpa using hs⟩
          · exact absurd hk hs
        · exact Or.inr ⟨k, by simpa [hki] using hk⟩
    · exact Or.inl hb

/-- A step that may move bytes, made under the lock: what was blocked stays blocked or is
announced. -/
theorem Sched.Inv.moving {s : Sched ι} (h : s.Inv) {i : ι} {pc : Pc} {p : VfsPipe}
    (hr : s.task i = .running)
    (hc : (s.pc i).crit = true) (hs : (s.pc i).signals = none) (hc' : pc.crit = true)
    (hd : pc.dozes = none)
    (hreaders : p.readers = s.pipe.readers) (hwaits : ∀ a, pc.waits = some a → Blocked p a)
    (hblock : ∀ a, Blocked s.pipe a → Blocked p a ∨ pc.signals = some a) :
    Sched.Inv ⟨p, s.lock, Function.update s.pc i pc, s.task⟩ where
  readers := by rw [hreaders]; exact h.readers
  held := (h.lock (Or.inr (Or.inl ⟨by rw [hc, hc'], rfl⟩))).1
  excl := (h.lock (l := s.lock) (Or.inr (Or.inl ⟨by rw [hc, hc'], rfl⟩))).2
  waits := by
    intro j a hj
    by_cases hji : j = i
    · subst hji
      exact hwaits a (by simpa using hj)
    · have hj' : (s.pc j).waits = some a := by simpa [hji] using hj
      exact absurd (h.excl j i (Pc.crit_of_waits hj') hc) hji
  wait := by
    intro j a hj
    have hold : s.Waiting j a := by
      by_cases hji : j = i
      · subst hji
        rcases hj with hj | hj
        · simp [hd] at hj
        · rw [hr] at hj
          cases hj
      · simpa [Sched.Waiting, hji] using hj
    have hb : Blocked s.pipe a := by
      rcases h.wait j a hold with hb | ⟨k, hk⟩
      · exact hb
      · have := h.excl k i (Pc.crit_of_signals hk) hc
        subst this
        rw [hs] at hk
        cases hk
    rcases hblock a hb with hb' | hsig
    · exact Or.inl hb'
    · exact Or.inr ⟨i, by simpa using hsig⟩

/-- The `while` and the `for` of `pipe_read`, as a piece made under the lock. -/
theorem Sched.Inv.afterTest {s : Sched ι} (h : s.Inv) {i : ι} {size : UInt32}
    (hr : s.task i = .running)
    (hpc : s.pc i = .rTest size) :
    Sched.Inv ⟨(afterTest size s.pipe).2, s.lock, Function.update s.pc i (afterTest size s.pipe).1,
      s.task⟩ := by
  unfold Pipe.afterTest
  split_ifs with he
  · refine h.moving hr (by rw [hpc]; rfl) (by rw [hpc]; rfl) rfl rfl rfl ?_ fun _ hb => Or.inl hb
    rintro a ⟨⟩
    exact he.1
  · refine h.moving hr (by rw [hpc]; rfl) (by rw [hpc]; rfl) rfl rfl (readLoop_counts _ _).1
      (by simp [Pc.waits]) fun a hb => ?_
    by_cases hnil : (readLoop size.toNat s.pipe).1 = []
    · left
      rw [readLoop_nil hnil]
      exact hb
    · cases a with
      | readPos => exact absurd (readLoop_empty _ hb) hnil
      | writePos => exact Or.inr (by simp [Pc.signals, hnil])

/-- The `for` of `pipe_write`, as a piece made under the lock. -/
theorem Sched.Inv.afterLoop {s : Sched ι} (h : s.Inv) {i : ι} {buf rest : List UInt8}
    (hr : s.task i = .running) (hpc : s.pc i = .wLoop buf rest) :
    Sched.Inv ⟨(afterLoop buf rest s.pipe).2, s.lock,
      Function.update s.pc i (afterLoop buf rest s.pipe).1, s.task⟩ := by
  have hcnt := (writeLoop_counts rest s.pipe).1
  have hblock : ∀ a, Blocked s.pipe a → Blocked (writeLoop rest s.pipe).2 a ∨
      ((writeLoop rest s.pipe).1 ≠ rest ∧ a = .readPos) := by
    intro a hb
    by_cases hsame : (writeLoop rest s.pipe).1 = rest
    · left
      rw [writeLoop_same hsame]
      exact hb
    · cases a with
      | readPos => exact Or.inr ⟨hsame, rfl⟩
      | writePos => exact absurd (writeLoop_full rest hb) hsame
  unfold Pipe.afterLoop
  dsimp only
  split_ifs with hnil hr0
  · refine h.moving hr (by rw [hpc]; rfl) (by rw [hpc]; rfl) rfl rfl hcnt
      (by simp [Pc.waits]) fun a hb => ?_
    rcases hblock a hb with hb' | ⟨hm, rfl⟩
    · exact Or.inl hb'
    · exact Or.inr (by simp [Pc.signals, hm])
  · exact absurd (hcnt ▸ hr0) h.readers
  · refine h.moving hr (by rw [hpc]; rfl) (by rw [hpc]; rfl) rfl rfl hcnt ?_ fun a hb => ?_
    · rintro a ⟨⟩
      exact writeLoop_stops hnil
    · rcases hblock a hb with hb' | ⟨hm, rfl⟩
      · exact Or.inl hb'
      · exact Or.inr (by simp [Pc.signals, hm])

/-- A process that goes on without sleeping, waking or announcing leaves the waiters as
they were. -/
theorem Sched.Inv.silent {s : Sched ι} (h : s.Inv) {i : ι} {pc : Pc} {l : Bool}
    (hl : (s.lock = false ∧ l = true) ∨ ((s.pc i).crit = pc.crit ∧ l = s.lock) ∨
      ((s.pc i).crit = true ∧ pc.crit = false))
    (hwaits : ∀ a, pc.waits = some a → Blocked s.pipe a) (hs : (s.pc i).signals = none)
    (hd : ∀ a, pc.dozes = some a → Blocked s.pipe a) :
    Sched.Inv ⟨s.pipe, l, Function.update s.pc i pc, s.task⟩ := by
  refine h.quiet hl hwaits fun j a hj => ⟨?_, Or.inr (by simp [hs])⟩
  rcases hj with hj | hj
  · by_cases hji : j = i
    · subst hji
      exact Or.inr (hd a (by simpa using hj))
    · exact Or.inl (Or.inl (by simpa [hji] using hj))
  · exact Or.inl (Or.inr hj)

/-- `sleep_on`: the process was about to sleep, and does. -/
theorem Sched.Inv.sleep {s : Sched ι} (h : s.Inv) {i : ι} {pc : Pc} {addr : SleepAddr}
    (hd : (s.pc i).dozes = some addr) (hc : (s.pc i).crit = pc.crit) (hs : (s.pc i).signals = none)
    (hw : pc.waits = none) (hd' : pc.dozes = none) :
    Sched.Inv ⟨s.pipe, s.lock, Function.update s.pc i pc,
      Function.update s.task i (.sleeping addr)⟩ := by
  refine h.quiet (Or.inr (Or.inl ⟨hc, rfl⟩)) (by simp [hw]) fun j a hj =>
    ⟨Or.inl ?_, Or.inr (by simp [hs])⟩
  by_cases hji : j = i
  · subst hji
    rcases hj with hj | hj
    · simp [hd'] at hj
    · simp only [Function.update_self, TaskState.sleeping.injEq] at hj
      subst hj
      exact Or.inl hd
  · simpa [Sched.Waiting, hji] using hj

/-- `wakeup`: whoever sleeps on the address runs, and nobody is in the gap before
sleeping on it if bytes were moved. -/
theorem Sched.Inv.wake {s : Sched ι} (h : s.Inv) {i : ι} {pc : Pc} {addr : SleepAddr}
    (ht : s.Timely i) (hs : ∀ a, (s.pc i).signals = some a → a = addr)
    (hc : (s.pc i).crit = pc.crit) (hw : ∀ a, pc.waits = some a → (s.pc i).waits = some a)
    (hd : pc.dozes = none) :
    Sched.Inv ⟨s.pipe, s.lock, Function.update s.pc i pc, wakeup addr s.task⟩ := by
  refine h.quiet (Or.inr (Or.inl ⟨hc, rfl⟩)) (fun a ha => h.waits i a (hw a ha)) fun j a hj => ?_
  have hold : s.Waiting j a := by
    rcases hj with hj | hj
    · by_cases hji : j = i
      · subst hji
        simp [hd] at hj
      · exact Or.inl (by simpa [hji] using hj)
    · simp only [wakeup] at hj
      split_ifs at hj
      exact Or.inr hj
  refine ⟨Or.inl hold, ?_⟩
  by_cases hsa : (s.pc i).signals = some a
  · exfalso
    have ha : a = addr := hs a hsa
    subst ha
    rcases hj with hj | hj
    · by_cases hji : j = i
      · subst hji
        simp [hd] at hj
      · exact ht a hsa j (by simpa [hji] using hj)
    · simp only [wakeup] at hj
      split_ifs at hj with hsl
      exact hsl hj
  · exact Or.inr hsa

/-- **Every timely step keeps the invariant.** -/
theorem Sched.Inv.step {s t : Sched ι} {i : ι} (h : s.Inv) (ht : s.Timely i)
    (hst : Sched.Step i s t) : t.Inv := by
  cases hst with
  | callRead size hr hpc =>
    exact h.silent (Or.inr (Or.inl ⟨by rw [hpc]; rfl, rfl⟩)) (by simp [Pc.waits]) (by rw [hpc]; rfl)
      (by simp [Pc.dozes])
  | callWrite buf hr hpc =>
    exact h.silent (Or.inr (Or.inl ⟨by rw [hpc]; rfl, rfl⟩)) (by simp [Pc.waits]) (by rw [hpc]; rfl)
      (by simp [Pc.dozes])
  | rLock hr hpc hl =>
    exact h.silent (Or.inl ⟨hl, rfl⟩) (by simp [Pc.waits]) (by rw [hpc]; rfl) (by simp [Pc.dozes])
  | wLock hr hpc hl =>
    exact h.silent (Or.inl ⟨hl, rfl⟩) (by simp [Pc.waits]) (by rw [hpc]; rfl) (by simp [Pc.dozes])
  | rTest hr hpc => exact h.afterTest hr hpc
  | wLoop hr hpc => exact h.afterLoop hr hpc
  | rUnlock hr hpc =>
    refine h.silent (Or.inr (Or.inr ⟨by rw [hpc]; rfl, rfl⟩)) (by simp [Pc.waits])
      (by rw [hpc]; rfl) ?_
    rintro a ⟨⟩
    exact h.waits i .readPos (by rw [hpc]; rfl)
  | wUnlock hr hpc =>
    refine h.silent (Or.inr (Or.inr ⟨by rw [hpc]; rfl, rfl⟩)) (by simp [Pc.waits])
      (by rw [hpc]; rfl) ?_
    rintro a ⟨⟩
    exact h.waits i .writePos (by rw [hpc]; rfl)
  | rSleep hr hpc => exact h.sleep (by rw [hpc]; rfl) (by rw [hpc]; rfl) (by rw [hpc]; rfl) rfl rfl
  | wSleep hr hpc => exact h.sleep (by rw [hpc]; rfl) (by rw [hpc]; rfl) (by rw [hpc]; rfl) rfl rfl
  | rWake hr hpc =>
    exact h.wake ht (by rw [hpc]; simp only [Pc.signals]; intro a; split_ifs <;> simp_all)
      (by rw [hpc]; rfl)
      (by simp [Pc.waits]) rfl
  | wWake hr hpc =>
    exact h.wake ht (by rw [hpc]; simp only [Pc.signals]; intro a; split_ifs <;> simp_all)
      (by rw [hpc]; rfl)
      (by rw [hpc]; simp [Pc.waits]) rfl
  | wWakeEnd hr hpc =>
    exact h.wake ht (by rw [hpc]; simp only [Pc.signals]; intro a; split_ifs <;> simp_all)
      (by rw [hpc]; rfl)
      (by simp [Pc.waits]) rfl
  | rEnd hr hpc =>
    exact h.silent (Or.inr (Or.inr ⟨by rw [hpc]; rfl, rfl⟩)) (by simp [Pc.waits]) (by rw [hpc]; rfl)
      (by simp [Pc.dozes])
  | wBroken hr hpc =>
    exact h.silent (Or.inr (Or.inr ⟨by rw [hpc]; rfl, rfl⟩)) (by simp [Pc.waits]) (by rw [hpc]; rfl)
      (by simp [Pc.dozes])
  | wEnd hr hpc =>
    exact h.silent (Or.inr (Or.inr ⟨by rw [hpc]; rfl, rfl⟩)) (by simp [Pc.waits]) (by rw [hpc]; rfl)
      (by simp [Pc.dozes])

/-- **No wake-up is lost in a run without a wake-up in a gap**: from a new pipe whose read
end is open, if no process announces moved bytes while another is between its
`spin_unlock` and its `sleep_on`, no state reached has a process asleep with work
to do and nobody about to wake it. -/
theorem no_lost_wakeup_of_timely (buf : ℕ → UInt8) {readers : UInt32} (writers : UInt32)
    (hr : readers ≠ 0)
    {s : Sched ι} (h : Reach Sched.TimelyStep (Sched.start ι buf readers writers) s) : ¬ s.Lost :=
  (Reach.invariant (fun _ _ hs ⟨_, ht, hst⟩ => Sched.Inv.step hs ht hst)
    (Sched.start_inv buf writers hr) h).not_lost

/-- A reader goes to sleep on an empty pipe; a writer then writes a byte and wakes it. -/
theorem no_lost_wakeup_of_timely_one_byte :
    ∃ s : Sched Bool, Reach Sched.TimelyStep (Sched.start Bool (fun _ => 0) 1 1) s ∧
      s.task false = .running ∧ s.pc false = .rLock 1 ∧ s.pipe.queue = [7] ∧ ¬ s.Lost := by
  have quiet : ∀ {s : Sched Bool} {i : Bool}, (s.pc i).signals = none → s.Timely i :=
    Sched.Timely.of_signals
  have h₁ : Reach Sched.TimelyStep (Sched.start Bool (fun _ => 0) 1 1) _ :=
    .single ⟨false, quiet rfl, .callRead (n := 0) 1 rfl rfl⟩
  have h₂ := h₁.tail ⟨false, quiet rfl, .rLock rfl rfl rfl⟩
  have h₃ := h₂.tail ⟨false, quiet rfl, .rTest rfl rfl⟩
  have h₄ := h₃.tail ⟨false, quiet rfl, .rUnlock rfl rfl⟩
  have h₅ := h₄.tail ⟨false, quiet rfl, .rSleep rfl rfl⟩
  have h₆ := h₅.tail ⟨true, quiet rfl, .callWrite (n := 0) [7] rfl rfl⟩
  have h₇ := h₆.tail ⟨true, quiet rfl, .wLock rfl rfl rfl⟩
  have h₈ := h₇.tail ⟨true, quiet rfl, .wLoop rfl rfl⟩
  have h₉ := h₈.tail ⟨true, fun _ _ j => by cases j <;> rintro ⟨⟩, .wWakeEnd rfl rfl⟩
  exact ⟨_, h₉, rfl, rfl, by decide, no_lost_wakeup_of_timely _ _ (by decide) h₉⟩

/-- **A wake-up can be lost**: a reader finds the pipe empty and releases the lock; before
it marks itself sleeping a writer writes a byte, calls `wakeup` and returns; the
reader then sleeps on a pipe that holds a byte. -/
theorem lost_reader :
    ¬ ∀ s : Sched Bool, Reach Sched.AnyStep (Sched.start Bool (fun _ => 0) 1 1) s → ¬ s.Lost := by
  have h₁ : Reach Sched.AnyStep (Sched.start Bool (fun _ => 0) 1 1) _ :=
    .single ⟨false, .callRead (n := 0) 1 rfl rfl⟩
  have h₂ := h₁.tail ⟨false, .rLock rfl rfl rfl⟩
  have h₃ := h₂.tail ⟨false, .rTest rfl rfl⟩
  have h₄ := h₃.tail ⟨false, .rUnlock rfl rfl⟩
  have h₅ := h₄.tail ⟨true, .callWrite (n := 0) [7] rfl rfl⟩
  have h₆ := h₅.tail ⟨true, .wLock rfl rfl rfl⟩
  have h₇ := h₆.tail ⟨true, .wLoop rfl rfl⟩
  have h₈ := h₇.tail ⟨true, .wWakeEnd rfl rfl⟩
  have h₉ := h₈.tail ⟨true, .wEnd rfl rfl⟩
  have h₁₀ := h₉.tail ⟨false, .rSleep rfl rfl⟩
  intro h
  refine h _ h₁₀ ⟨false, .readPos, rfl, by unfold Blocked; decide, ?_⟩
  rintro ⟨j, hj⟩
  cases j <;> cases hj

end Cosiris.Pipe
