import Cosiris.Kernel.Files
import Cosiris.Lib.Runs
import Mathlib.Algebra.BigOperators.Group.Finset.Basic
import Mathlib.Data.Int.Notation
import Mathlib.Logic.Function.Basic

/-!
# Processes that fork, exit and wait

`fork_int`, `task_exit` and `task_wait` of `task.c`. A `task_t` has a number, in the order of
allocation, that stands for its address; the task queue, which the code links through the `next`
fields, and the wait queues are lists of these numbers. Task 0 is the one that `task_init` makes.

Each function is atomic, except that `task_wait` is left and entered again where it sleeps.
Threads, signals and what a task owns besides its wait queue and its working directory are left
out. When `task_exit` empties the wait queue it reads the `next` field of a node that it has just
freed; the model takes it that the field is still there.

`fork_int` makes a copy of the working directory that `task_free` does not free, so that every fork
takes some memory of the kernel heap for good. -/

namespace Cosiris.Tasks

open Prog

/-- The states of a task in which these functions leave it. -/
inductive TaskState where
  | running
  | sleeping
  | exiting
  deriving DecidableEq

/-- `struct task`. The address that a task sleeps on is that of the wait queue of a task; `inWait`
says that it is to go on in `task_wait`. -/
structure Task where
  pid : UInt32
  ppid : UInt32
  state : TaskState
  sleepAddr : Option ℕ
  exitStatus : ℤ
  waitQueue : List ℕ
  inWait : Bool
  cwd : List UInt8

/-- What has happened to the tasks. -/
inductive Event where
  /-- `fork_int` of the parent. -/
  | forked (parent child : ℕ)
  /-- `task_exit`. -/
  | exited (task : ℕ) (pid : UInt32) (status : ℤ)
  /-- `task_wait` of the parent has returned the process number of the child, and its status. -/
  | reported (parent child : ℕ) (pid : UInt32) (status : ℤ)
  /-- The child was freed in `task_exit` of the parent. -/
  | discarded (parent child : ℕ)

/-- The tasks, the task queue, how often a task was freed, and what has happened, the latest
first. -/
structure State where
  task : ℕ → Task
  queue : List ℕ
  frees : ℕ → ℕ
  next : ℕ
  nextPid : UInt32
  log : List Event

abbrev Kern := Prog Halt State

/-- The state with a task changed. -/
def State.update (s : State) (t : ℕ) (f : Task → Task) : State :=
  { s with task := Function.update s.task t (f (s.task t)) }

/-- The state with one more event. -/
def State.note (s : State) (e : Event) : State := { s with log := e :: s.log }

/-- The bytes that a path takes in the kernel heap: the header of the block, and the text with its
NUL, in words. -/
def copySize (path : List UInt8) : ℕ := 20 + (path.length + 4) / 4 * 4

/-- The bytes that the working directories take, those of freed tasks included. -/
def State.cwdBytes (s : State) : ℕ := ∑ t ∈ Finset.range s.next, copySize (s.task t).cwd

/-- The bytes from `HEAP_START` to the end of the addresses. -/
def heapRoom : ℕ := 2 ^ 32 - 0xD0000000

/-- A path is copied into the kernel heap. -/
def copyPath (path : List UInt8) : Kern Unit := do
  let s ← read
  if heapRoom < s.cwdBytes + copySize path then halt .fault

/-- `fork_int`, by task `p`. -/
def forkInt (p : ℕ) : Kern Unit := do
  let s ← read
  copyPath (s.task p).cwd
  modify fun s => { s with
    task := Function.update s.task s.next
      ⟨s.nextPid, (s.task p).pid, .running, none, 0, [], false, (s.task p).cwd⟩
    queue := s.queue ++ [s.next]
    next := s.next + 1
    nextPid := s.nextPid + 1
    log := .forked p s.next :: s.log }

/-- `sys_chdir`, by task `p`, to a directory that can be opened. The old path is freed when the new
one is there. -/
def sysChdir (p : ℕ) (path : List UInt8) : Kern Unit := do
  copyPath path
  modify fun s => s.update p fun x => { x with cwd := path }

/-- `task_free`. -/
def taskFree (t : ℕ) : Kern Unit := do
  let s ← read
  kassert "task->state == TASK_EXITING" (decide ((s.task t).state = .exiting))
  kassert "task->wait_queue->num_items == 0" (decide ((s.task t).waitQueue.length = 0))
  modify fun s => { s with frees := Function.update s.frees t (s.frees t + 1) }

/-- `wakeup` of the tasks that sleep on the wait queue of task `p`. -/
def wakeup (p : ℕ) : Kern Unit :=
  modify fun s => { s with
    task := fun t =>
      if t ∈ s.queue ∧ (s.task t).state = .sleeping ∧ (s.task t).sleepAddr = some p then
        { s.task t with state := .running, sleepAddr := none }
      else s.task t }

/-- The end of `task_wait`: the first task of the wait queue is reported and freed. -/
def reap (p : ℕ) : Kern Unit := do
  let s ← read
  match (s.task p).waitQueue with
  | [] => pure ()
  | t :: rest =>
    modify fun s => s.update p fun x => { x with waitQueue := rest }
    taskFree t
    modify fun s => s.note (.reported p t (s.task t).pid (s.task t).exitStatus)

/-- `task_wait`, up to where it sleeps. -/
def taskWait (p : ℕ) : Kern Unit := do
  let s ← read
  if (s.task p).waitQueue = [] then
    if ∃ t ∈ s.queue, (s.task t).ppid = (s.task p).pid then
      modify fun s => s.update p fun x =>
        { x with state := .sleeping, sleepAddr := some p, inWait := true }
  else reap p

/-- `task_wait`, from where it has slept on. -/
def taskWaitAwake (p : ℕ) : Kern Unit := do
  modify fun s => s.update p fun x => { x with inWait := false }
  reap p

/-- The tasks that the loop of `task_exit` of task `p` visits: the task before `p` takes it out. -/
def unlink (p : ℕ) : List ℕ → List ℕ
  | [] => []
  | [t] => [t]
  | t :: n :: rest => if n = p then t :: unlink p rest else t :: unlink p (n :: rest)

/-- The loop of `task_exit` that frees the tasks of the wait queue. -/
def freeExited (p : ℕ) : List ℕ → Kern Unit
  | [] => pure ()
  | t :: rest => do
    taskFree t
    modify fun s => (s.note (.discarded p t)).update p fun x => { x with waitQueue := rest }
    freeExited p rest

/-- `task_exit`, by task `p`. The variable `parent` is not initialised, so that without a parent
in the queue the code goes on with a stray pointer. -/
def taskExit (p : ℕ) (status : ℤ) : Kern Unit := do
  let s ← read
  if (s.task p).pid ≠ 1 then
    let visited := unlink p s.queue
    let parent := (visited.filter fun t => (s.task t).pid = (s.task p).ppid).getLast?
    modify fun s => { s with
      queue := visited
      task := fun t =>
        if t ∈ visited ∧ (s.task t).ppid = (s.task p).pid then { s.task t with ppid := 1 }
        else s.task t }
    freeExited p (s.task p).waitQueue
    match parent with
    | none => halt .fault
    | some q =>
      modify fun s =>
        (s.update p fun x => { x with exitStatus := status, state := .exiting }).update q fun x =>
        { x with waitQueue := x.waitQueue ++ [p] }
      wakeup q
      modify fun s => s.note (.exited p (s.task p).pid status)

/-- What a task does, or what is done to it: `rouse` is a signal that ends its sleep. -/
inductive Op where
  | fork (p : ℕ)
  | wait (p : ℕ)
  | waitAwake (p : ℕ)
  | exit (p : ℕ) (status : ℤ)
  | chdir (p : ℕ) (path : List UInt8)
  | rouse (p : ℕ)

/-- A run of the call. -/
def Op.exec : Op → Kern Unit
  | fork p => forkInt p
  | wait p => taskWait p
  | waitAwake p => taskWaitAwake p
  | exit p status => taskExit p status
  | chdir p path => sysChdir p path
  | rouse p => modify fun s => s.update p fun x => { x with state := .running }

/-- The task is in the queue, and where the call is made. Process 1 does not exit. -/
def Op.Allowed (s : State) : Op → Prop
  | fork p | wait p | chdir p _ =>
      p ∈ s.queue ∧ (s.task p).state = .running ∧ (s.task p).inWait = false
  | waitAwake p => p ∈ s.queue ∧ (s.task p).state = .running ∧ (s.task p).inWait = true
  | exit p _ => p ∈ s.queue ∧ (s.task p).state = .running ∧ (s.task p).pid ≠ 1
  | rouse p => p ∈ s.queue ∧ (s.task p).state = .sleeping

instance (s : State) : (op : Op) → Decidable (op.Allowed s)
  | .fork _ | .wait _ | .waitAwake _ | .exit _ _ | .chdir _ _ =>
    inferInstanceAs (Decidable (_ ∧ _ ∧ _))
  | .rouse _ => inferInstanceAs (Decidable (_ ∧ _))

/-- There is room for the path that the call copies. -/
def Op.Fits (s : State) : Op → Prop
  | fork p => s.cwdBytes + copySize (s.task p).cwd ≤ heapRoom
  | chdir _ path => s.cwdBytes + copySize path ≤ heapRoom
  | _ => True

/-- The state after a call. -/
def State.after (s : State) (op : Op) : State := (op.exec s).state

/-- The state after some calls, if each of them may be made and returns. -/
def State.runs (s : State) : List Op → Option State
  | [] => some s
  | op :: ops => if op.Allowed s ∧ (op.exec s).returned then (s.after op).runs ops else none

/-- A call that returns. -/
def Step (s s' : State) : Prop := ∃ op : Op, op.Allowed s ∧ op.exec s = .ok () s'

/-- The state after `task_init`. -/
def boot : State where
  task := fun _ => ⟨1, 0, .running, none, 0, [], false, [47]⟩
  queue := [0]
  frees := fun _ => 0
  next := 1
  nextPid := 2
  log := []

end Cosiris.Tasks
