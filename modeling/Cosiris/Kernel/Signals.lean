import Cosiris.Kernel.Files
import Cosiris.Lib.Runs
import Mathlib.Logic.Function.Basic

/-!
# Signals

`signal.c`, and of `task.c` what a signal handler may meet: `sleep_on`, `wakeup`, `task_exit`,
`fork_int` and the switch to another task. A `task_t` has a number, in the order of allocation,
that stands for its address; the queue is linked through the `next` fields, and what a task points
to (its wait queue, its heap, its files) is kept apart from the record, since `process_signals`
saves the record alone, and `signal_handler_return` copies it back.

A task goes on where its registers say. `calls` is not in the code: it has, for each task, the
calls of `sleep_on` and the signal handlers that have not returned, the latest first.

Each function is atomic, and which of the tasks that may run the scheduler takes is left open.
`task_exit` is cut before its `wakeup`, which is a step of its own. Tasks that `task_exit` frees
are not reused. -/

namespace Cosiris.Signals

open Prog

inductive TaskState where
  | running
  | awaken
  | sleeping
  | exiting
  deriving DecidableEq

/-- What a task may sleep on: the wait queue of a task, or another address. -/
inductive Addr where
  | waitQueue (task : ℕ)
  | other (addr : ℕ)
  deriving DecidableEq

/-- `sighandler_t`. -/
inductive Handler where
  | dfl
  | ign
  | user (addr : ℕ)
  deriving DecidableEq

/-- Where a task goes on: at an address outside `sleep_on`, in `sleep_on`, before the `wakeup` of
`task_exit`, or nowhere. -/
inductive Point where
  | run (pc : ℕ)
  | sleep (pc : ℕ)
  | wakes (addr : Addr)
  | gone
  deriving DecidableEq

/-- `struct task`. The wait queue, the heap and the files are the numbers of what the fields point
to. -/
structure Task where
  pid : UInt32
  ppid : UInt32
  next : Option ℕ
  state : TaskState
  sleepAddr : Option Addr
  sleepEndTick : UInt32
  waitQueue : ℕ
  sigHandlers : ℕ → Handler
  heap : ℕ
  files : ℕ
  numFiles : ℕ
  sTask : Option ℕ
  regs : Point

/-- `signal_t`. -/
structure Signal where
  pid : UInt32
  signum : ℕ
  deriving DecidableEq

/-- A call that has not returned: a `sleep_on`, and whether `wakeup` was called for its address
since; or a signal handler, with where the task was, and its state. -/
inductive Call where
  | sleepOn (addr : Addr) (woken : Bool)
  | handler (point : Point) (state : TaskState)

/-- The tasks, the copies of their records, and what they point to. -/
structure State where
  task : ℕ → Task
  count : ℕ
  nextPid : UInt32
  current : ℕ
  switchLocked : Bool
  timerTicks : UInt32
  signals : List Signal
  saved : ℕ → Task
  savedCount : ℕ
  lists : ℕ → List ℕ
  heaps : ℕ → UInt32
  arrays : ℕ → List (Option ℕ)
  arrayCount : ℕ
  calls : ℕ → List Call

abbrev Kern := Prog Halt State

/-- The state with a task changed. -/
def State.update (s : State) (t : ℕ) (f : Task → Task) : State :=
  { s with task := Function.update s.task t (f (s.task t)) }

theorem State.update_self {s : State} {t : ℕ} {f : Task → Task} :
    (s.update t f).task t = f (s.task t) := Function.update_self ..

theorem State.update_of_ne {s : State} {t u : ℕ} {f : Task → Task} (h : u ≠ t) :
    (s.update t f).task u = s.task u :=
  Function.update_of_ne h ..

/-- The state with the calls of a task changed. -/
def State.setCalls (s : State) (t : ℕ) (l : List Call) : State :=
  { s with calls := Function.update s.calls t l }

theorem State.setCalls_task {s : State} {t : ℕ} {l : List Call} :
    (s.setCalls t l).task = s.task := rfl

/-- The tasks from task `t` on, along the links. -/
def walk (link : ℕ → Option ℕ) : ℕ → ℕ → List ℕ
  | 0, _ => []
  | fuel + 1, t => t :: match link t with
    | none => []
    | some n => walk link fuel n

/-- The tasks reached from `task_queue`. -/
def State.queue (s : State) : List ℕ := walk (fun t => (s.task t).next) s.count 0

/-- `get_task_by_pid`. -/
def State.getTaskByPid (s : State) (pid : UInt32) : Option ℕ := s.queue.find? fun t =>
  (s.task t).pid = pid

/-- `get_last_task`. -/
def State.getLastTask (s : State) : ℕ := s.queue.getLast?.getD 0

/-! ### Sleeping and waking -/

/-- `sleep_on`, up to the switch. -/
def sleepOn (a : Addr) : Kern Unit := modify fun s =>
  let t := s.current
  let s := { s with switchLocked := false }
  (s.update t fun x => { x with
    state := .sleeping
    sleepAddr := some a
    regs := match x.regs with
      | .run pc => .sleep pc
      | r => r }).setCalls t (.sleepOn a false :: s.calls t)

/-- `MS_PER_TICK`. -/
def msPerTick : UInt32 := 10

/-- `sleep_onms`, up to the switch. -/
def sleepOnms (a : Addr) (ms : UInt32) : Kern Unit := do
  let ticks := ms / msPerTick + if ms % msPerTick ≠ 0 then 1 else 0
  modify fun s => s.update s.current fun x => { x with sleepEndTick := s.timerTicks + ticks }
  sleepOn a

/-- A `wakeup` for the address is noted. -/
def Call.wake (a : Addr) : Call → Call
  | .sleepOn b woken => .sleepOn b (woken || decide (b = a))
  | c => c

/-- `wakeup`. -/
def wakeup (a : Addr) : Kern Unit := modify fun s => { s with
  task := fun t =>
    if t ∈ s.queue ∧ (s.task t).state = .sleeping ∧ (s.task t).sleepAddr = some a then
      { s.task t with state := .running, sleepAddr := none, sleepEndTick := 0 }
    else s.task t
  switchLocked := false
  calls := fun t => (s.calls t).map (Call.wake a) }

/-- `wake_check`. -/
def wakeCheck (t : ℕ) : Kern Unit := modify fun s => s.update t fun x =>
  if x.state = .sleeping ∧ 0 < x.sleepEndTick ∧ x.sleepEndTick < s.timerTicks then
    { x with state := .running, sleepEndTick := 0 }
  else x

/-! ### Tasks -/

/-- `fork_int`. -/
def forkInt : Kern Unit := modify fun s =>
  let x := s.task s.current
  let child : Task :=
    ⟨s.nextPid, x.pid, none, .running, none, 0, s.count, x.sigHandlers, s.count, s.arrayCount,
      x.numFiles, none, x.regs⟩
  let s' := s.update s.getLastTask fun y => { y with next := some s.count }
  { s' with
    task := Function.update s'.task s.count child
    count := s.count + 1
    nextPid := s.nextPid + 1
    switchLocked := false
    lists := Function.update s.lists s.count []
    heaps := Function.update s.heaps s.count (s.heaps x.heap)
    arrays := Function.update s.arrays s.arrayCount ((s.arrays x.files).take x.numFiles)
    arrayCount := s.arrayCount + 1
    calls := Function.update s.calls s.count [] }

/-- The links, as the loop of `task_exit` of task `p` leaves them. -/
def State.unlinked (s : State) (p t : ℕ) : Option ℕ :=
  if (s.task t).next = some p then (s.task p).next else (s.task t).next

/-- What `task_exit` of task `p` changes, when `q` is the parent and the loop visits the tasks
`visited`. -/
def State.exited (s : State) (p q : ℕ) (visited : List ℕ) : State :=
  let lists := Function.update s.lists (s.task p).waitQueue []
  State.update { s with
    task := fun t => if t ∈ visited then { s.task t with
      next := s.unlinked p t
      ppid := if (s.task t).ppid = (s.task p).pid then 1 else (s.task t).ppid } else s.task t
    signals := s.signals.filter fun sig => sig.pid ≠ (s.task p).pid
    lists := Function.update lists (s.task q).waitQueue (lists (s.task q).waitQueue ++ [p])
    switchLocked := true } p fun x => { x with state := .exiting, regs := .wakes (.waitQueue q) }

/-- `task_exit`, up to its `wakeup`. The variable `parent` is not initialised, so that without a
parent in the queue the code goes on with a stray pointer. -/
def taskExit : Kern Unit := do
  let s ← read
  let p := s.current
  if (s.task p).pid = 1 then modify fun s => { s with switchLocked := true }
  else
    let visited := walk (s.unlinked p) s.count 0
    match (visited.filter fun t => (s.task t).pid = (s.task p).ppid).getLast? with
    | none => halt .fault
    | some q => modify fun s => s.exited p q visited

/-! ### Signals -/

/-- `NUM_SIGS`. -/
def numSigs : ℕ := 32

/-- `signal`. -/
def signal (signum : ℕ) (handler : Handler) : Kern Unit := modify fun s =>
  if signum < numSigs ∧ signum ≠ 9 ∧ signum ≠ 19 then
    s.update s.current fun x =>
      { x with sigHandlers := Function.update x.sigHandlers signum handler }
  else s

/-- `kill`. -/
def kill (pid : UInt32) (signum : ℕ) : Kern Unit := modify fun s =>
  if (s.getTaskByPid pid).isSome then { s with signals := s.signals ++ [⟨pid, signum⟩] } else s

/-- What the handlers of the table `sig_default` do. -/
inductive Default where
  | terminate
  | print

/-- `sig_default`; the other pointers of the table are null. -/
def sigDefault : ℕ → Option Default
  | 1 | 2 | 3 | 4 | 6 | 8 | 9 | 11 | 15 => some .terminate
  | 18 | 19 | 20 => some .print
  | _ => none

/-- The return to where the registers of the current task say. -/
def intReturn : Kern Unit := modify fun s =>
  match (s.task s.current).regs with
  | .sleep pc =>
      (s.update s.current fun x => { x with regs := .run pc }).setCalls s.current
        (s.calls s.current).tail
  | _ => s

/-- A copy is made of the record of the current task. -/
def State.save (s : State) : State := { s with
  saved := Function.update s.saved s.savedCount (s.task s.current)
  savedCount := s.savedCount + 1 }

/-- `process_signals`, where it enters a handler. -/
def enterHandler (f : ℕ) : Kern Unit := modify fun s =>
  let x := s.task s.current
  (s.save.update s.current fun x => { x with sTask := some s.savedCount, regs := .run f }).setCalls
    s.current
    (.handler x.regs x.state :: s.calls s.current)

/-- A task that sleeps is `TASK_AWAKEN`. -/
def State.awake (s : State) (t : ℕ) : State :=
  s.update t fun x => if x.state = .sleeping then { x with state := .awaken } else x

/-- The loop of `process_signals`, and the return from the interrupt. -/
def processSignals : List Signal → Kern Unit
  | [] => intReturn
  | sig :: rest => do
    let s ← read
    if (s.task s.current).pid ≠ sig.pid then
      match s.getTaskByPid sig.pid with
      | none => halt .fault
      | some t =>
        modify fun s => s.awake t
        processSignals rest
    else
      modify fun s => { s with signals := s.signals.erase sig }
      if sig.signum < numSigs then
        match (s.task s.current).sigHandlers sig.signum with
        | .dfl => match sigDefault sig.signum with
          | none => halt .fault
          | some .print => processSignals rest
          | some .terminate =>
            taskExit
            if (s.task s.current).pid = 1 then processSignals rest
        | .ign => processSignals rest
        | .user f => enterHandler f
      else halt .fault

/-- `task_switch_int`, when the scheduler has taken task `n`. -/
def taskSwitchInt (n : ℕ) : Kern Unit := do
  modify fun s => { s with current := n }
  let s ← read
  processSignals s.signals

/-- The calls after the latest handler has returned. -/
def afterHandler : List Call → List Call
  | [] => []
  | .handler _ _ :: rest => rest
  | .sleepOn _ _ :: rest => afterHandler rest

/-- `signal_handler_return`, up to the switch if the task is to sleep. The copy that is freed is
the one whose address is in the copy, and `s_task` is 0 after it. -/
def signalHandlerReturn : Kern Unit := do
  let s ← read
  match (s.task s.current).sTask with
  | none => halt .fault
  | some k =>
    modify fun s => (s.update s.current fun _ => { s.saved k with
      sTask := none
      state := if (s.saved k).state = .awaken then .sleeping else (s.saved k).state }).setCalls
        s.current
        (afterHandler (s.calls s.current))

/-! ### What a task has open -/

/-- The array of the current task is given to `realloc`. -/
def State.grow (s : State) (slots : List (Option ℕ)) : State :=
  { s.update s.current fun x => { x with files := s.arrayCount, numFiles := slots.length } with
    arrays := Function.update s.arrays s.arrayCount slots
    arrayCount := s.arrayCount + 1 }

/-- A slot of an array is set. -/
def State.setSlot (s : State) (arr fd : ℕ) (file : Option ℕ) : State :=
  { s with arrays := Function.update s.arrays arr ((s.arrays arr).set fd file) }

/-- The slots of the current task. -/
def State.slots (s : State) : List (Option ℕ) :=
  (s.arrays (s.task s.current).files).take (s.task s.current).numFiles

/-- `fd_alloc` finds no free slot, and grows the array. -/
def State.Full (s : State) : Prop := s.slots.all (·.isSome) ∧ s.slots.length ≤ maxOpenFiles

instance (s : State) : Decidable s.Full := inferInstanceAs (Decidable (_ ∧ _))

/-- `sys_open`; `file` is what `fs_open_namei` gives. -/
def sysOpen (file : Option ℕ) : Kern Unit := modify fun s =>
  let s' := if s.Full then s.grow (fdAlloc s.slots).2 else s
  match (fdAlloc s.slots).1 with
  | none => s'
  | some fd => s'.setSlot (s'.task s.current).files fd file

/-- `sys_close` of a descriptor that is open. -/
def sysClose (fd : ℕ) : Kern Unit := modify fun s => s.setSlot (s.task s.current).files fd none

/-- `sys_sbrk`, to a new end of the heap. -/
def sysSbrk (endAddr : UInt32) : Kern Unit := modify fun s =>
  { s with heaps := Function.update s.heaps (s.task s.current).heap endAddr }

/-! ### Runs -/

/-- A step: of the current task, of the scheduler, or of an interrupt. -/
inductive Op where
  | sleepOn (a : Addr)
  | sleepOnms (a : Addr) (ms : UInt32)
  | wakeup (a : Addr)
  | wakeCheck (t : ℕ)
  | tick
  | fork
  | exit
  | signal (signum : ℕ) (handler : Handler)
  | kill (pid : UInt32) (signum : ℕ)
  | switch (n : ℕ)
  | handlerReturn
  | open (file : Option ℕ)
  | close (fd : ℕ)
  | sbrk (endAddr : UInt32)
  | compute (pc : ℕ)

/-- A run of the step. -/
def Op.exec : Op → Kern Unit
  | sleepOn a => Signals.sleepOn a
  | sleepOnms a ms => Signals.sleepOnms a ms
  | wakeup a => do
    Signals.wakeup a
    modify fun s => s.update s.current fun x =>
      { x with regs := if x.regs = .wakes a then .gone else x.regs }
  | wakeCheck t => Signals.wakeCheck t
  | tick => modify fun s => { s with timerTicks := s.timerTicks + 1 }
  | fork => forkInt
  | exit => taskExit
  | signal signum handler => Signals.signal signum handler
  | kill pid signum => Signals.kill pid signum
  | switch n => taskSwitchInt n
  | handlerReturn => signalHandlerReturn
  | .open file => sysOpen file
  | close fd => sysClose fd
  | sbrk endAddr => sysSbrk endAddr
  | compute pc => modify fun s => s.update s.current fun x => { x with regs := .run pc }

/-- The current task is at an address outside `sleep_on`, and has not exited. -/
def State.Runs (s : State) : Prop :=
  (∃ pc, (s.task s.current).regs = .run pc) ∧
    ((s.task s.current).state = .running ∨ (s.task s.current).state = .awaken)

/-- When the step may be taken. A handler returns when one was entered. -/
def Op.Allowed (s : State) : Op → Prop
  | wakeup _ | tick | kill _ _ => True
  | wakeCheck t => t ∈ s.queue
  | switch n => (∀ a, (s.task s.current).regs ≠ .wakes a) ∧
    if s.switchLocked then n = s.current
    else n ∈ s.queue ∧ ((s.task n).state = .running ∨ (s.task n).state = .awaken)
  | handlerReturn => s.Runs ∧ ∃ point state, .handler point state ∈ s.calls s.current
  | close fd => s.Runs ∧ fd < (s.task s.current).numFiles
  | sleepOn _ | sleepOnms _ _ | fork | exit | signal _ _ | .open _ | sbrk _ | compute _ => s.Runs

/-- A step that meets a condition, and returns. -/
def Step (C : State → Op → Prop) (s s' : State) : Prop :=
  ∃ op, op.Allowed s ∧ C s op ∧ op.exec s = .ok () s'

/-! ### The rule for `process_signals` -/

/-- A property that the loop keeps, and that a return, an exit or a handler turns into another. -/
theorem wp_processSignals {I J : State → Prop} {E : Halt → State → Prop} (sigs : List Signal)
    (hawake : ∀ s t, I s → I (s.awake t))
    (herase : ∀ s sig, I s → I { s with signals := s.signals.erase sig })
    (hreturn : ∀ s, I s → wp intReturn (fun _ => J) E s)
    (hexit : ∀ s, I s → (∃ sig ∈ sigs, sig.pid = (s.task s.current).pid ∧
      (s.task s.current).sigHandlers sig.signum = .dfl ∧ sigDefault sig.signum = some .terminate) →
      wp taskExit (fun _ s' => if (s.task s.current).pid = 1 then I s' else J s') E s)
    (henter : ∀ s f, I s → (∃ sig ∈ sigs, sig.pid = (s.task s.current).pid ∧
      (s.task s.current).sigHandlers sig.signum = .user f) → wp (enterHandler f) (fun _ => J) E s)
    (hfault : ∀ s, E .fault s) {s : State} (h : I s) : wp (processSignals sigs)
    (fun _ => J) E s := by
  induction sigs generalizing s with
  | nil => exact hreturn s h
  | cons sig rest ih =>
    have hrest : ∀ {s}, I s → wp (processSignals rest) (fun _ => J) E s := fun h =>
      ih (fun s hs ⟨sig', hm, he⟩ => hexit s hs ⟨sig', List.mem_cons_of_mem _ hm, he⟩)
        (fun s f hs ⟨sig', hm, he⟩ => henter s f hs ⟨sig', List.mem_cons_of_mem _ hm, he⟩) h
    have he := herase s sig h
    rw [processSignals, wp_bind, wp_read]
    by_cases hpid : (s.task s.current).pid ≠ sig.pid
    · rw [if_pos hpid]
      cases s.getTaskByPid sig.pid with
      | none => exact hfault s
      | some t => exact hrest (hawake s t h)
    · rw [if_neg hpid, wp_bind, wp_modify]
      by_cases hnum : sig.signum < numSigs
      · rw [if_pos hnum]
        cases hh : (s.task s.current).sigHandlers sig.signum with
        | ign => exact hrest he
        | user f => exact henter _ f he ⟨sig, List.mem_cons_self .., (not_not.mp hpid).symm, hh⟩
        | dfl =>
          cases hd : sigDefault sig.signum with
          | none => exact hfault _
          | some d => cases d with
            | print => exact hrest he
            | terminate =>
              dsimp only
              rw [wp_bind]
              have hx := hexit _ he ⟨sig, List.mem_cons_self .., (not_not.mp hpid).symm, hh, hd⟩
              refine hx.mono (fun _ s' hs' => ?_) fun _ _ => id
              dsimp only at hs'
              split_ifs at hs' ⊢ with h1
              · exact hrest hs'
              · exact hs'
      · rw [if_neg hnum]
        exact hfault _

end Cosiris.Signals
