import Cosiris.Kernel.Files
import Cosiris.Lib.Runs
import Mathlib.Algebra.Order.Group.Nat
import Mathlib.Logic.Function.Basic

/-!
# Descriptors

The system calls of `sysfile.c` on the `files` array of a task, `fork_int` and `task_free` as far
as they handle it: the arrays of all tasks, and the `struct file` records they point to. What the
file system answers is an argument of each call, and nodes are known by their address, `0` for
`NULL`.

Each access to an array by an index that its code has not itself counted up is recorded, with the
length of the array, and so is what `fd_alloc` returns, with the slot it has found. An access past
the ends of the array stops the run. -/

namespace Cosiris.Descriptors

open Prog

/-- `struct file`. -/
structure File where
  mode : ℕ
  flags : ℕ
  offs : ℕ
  fsNode : ℕ
  dupCnt : ℤ

/-- `calloc` of a `struct file`. -/
def File.zero : File := ⟨0, 0, 0, 0, 0⟩

/-- `fs_node`, as far as the calls read it. -/
structure FsNode where
  type : ℕ
  size : ℕ

/-- What is recorded. -/
inductive Access where
  /-- An array of `numFiles` slots was accessed at `fd`. -/
  | slot (fd : ℤ) (numFiles : ℕ)
  /-- `fd_alloc` returned `fd`, where the array has a slot as given. -/
  | alloc (fd : Option ℕ) (slot : Option (Option ℕ))
  deriving DecidableEq

/-- The descriptors of the system. -/
structure State where
  /-- The `struct file`s, by address. -/
  file : ℕ → File
  /-- How often each was freed. -/
  frees : ℕ → ℕ
  /-- The next address. -/
  nextFile : ℕ
  node : ℕ → FsNode
  /-- The `files` of the tasks that have not been freed. -/
  files : ℕ → Option (List (Option ℕ))
  /-- The next task. -/
  nextTask : ℕ
  trace : List Access

abbrev Kern := Prog Halt State

/-- What `fs_open_namei` answers: its result, and the node it has stored. -/
structure Namei where
  ret : ℤ
  node : ℕ

/-- The state with one more access recorded. -/
def State.record (s : State) (a : Access) : State := { s with trace := s.trace ++ [a] }

/-- The state with other `files` of task `k`. -/
def State.withFiles (s : State) (k : ℕ) (files : List (Option ℕ)) : State :=
  { s with files := Function.update s.files k (some files) }

/-- The state with another `struct file`. -/
def State.withFile (s : State) (f : ℕ) (file : File) : State :=
  { s with file := Function.update s.file f file }

/-- The `files` of task `k`. -/
def filesOf (k : ℕ) : Kern (List (Option ℕ)) := do
  match (← read).files k with
  | some files => return files
  | none => halt .fault

/-- Read `current_task->files[fd]`. -/
def readSlot (k : ℕ) (fd : ℤ) : Kern (Option ℕ) := do
  let files ← filesOf k
  modify fun s => s.record (.slot fd files.length)
  if fd < 0 then halt .fault
  match files[fd.toNat]? with
  | some f => return f
  | none => halt .fault

/-- Write `current_task->files[fd]`. -/
def writeSlot (k : ℕ) (fd : ℤ) (f : Option ℕ) : Kern Unit := do
  let files ← filesOf k
  modify fun s => s.record (.slot fd files.length)
  if fd < 0 ∨ files.length ≤ fd.toNat then halt .fault
  modify fun s => s.withFiles k (files.set fd.toNat f)

/-- The record a slot points to. -/
def slotFile (k : ℕ) (fd : ℤ) : Kern ℕ := do
  match ← readSlot k fd with
  | some f => return f
  | none => halt .fault

/-- `file_alloc`. -/
def fileAlloc : Kern ℕ := do
  let s ← read
  modify fun s => { s.withFile s.nextFile File.zero with nextFile := s.nextFile + 1 }
  return s.nextFile

/-- `free` of a `struct file`. -/
def freeFile (f : ℕ) : Kern Unit := modify fun s =>
  { s with frees := Function.update s.frees f (s.frees f + 1) }

/-- Change a `struct file`. -/
def updateFile (f : ℕ) (g : File → File) : Kern Unit := modify fun s => s.withFile f (g (s.file f))

/-- `fd_alloc`, for task `k`. -/
def fdAllocFor (k : ℕ) : Kern ℤ := do
  let files ← filesOf k
  let fd := (fdAlloc files).1
  let files := (fdAlloc files).2
  modify fun s => (s.withFiles k files).record (.alloc fd (fd.bind fun i => files[i]?))
  return match fd with
    | some i => i
    | none => -1

/-- `fd_is_valid`. The index is compared with `num_files` by `>`. -/
def fdIsValid (k : ℕ) (fd : ℤ) : Kern Bool := do
  let files ← filesOf k
  if fd > files.length then return false
  if fd < 0 then return false
  let f ← readSlot k fd
  return f.isSome

/-- Where a file that is opened with these flags starts. -/
def openOffs (flags : ℕ) (node : FsNode) : ℕ :=
  if flags &&& 0x400 ≠ 0 ∧ flags &&& 3 ≠ 0 then node.size else 0

/-- `sys_open`, when `fs_open_namei` answers `found`. -/
def sysOpen (k : ℕ) (found : Namei) (flags mode : ℕ) : Kern ℤ := do
  let fd ← fdAllocFor k
  if fd < 0 then return -1
  let f ← fileAlloc
  updateFile f fun file => { file with fsNode := found.node }
  if found.ret < 0 ∨ found.node = 0 then do
    freeFile f
    writeSlot k fd none
    return -1
  let s ← read
  updateFile f fun file =>
    { file with offs := openOffs flags (s.node found.node), flags := flags % 65536,
                mode := mode % 65536 }
  writeSlot k fd (some f)
  return fd

/-- `sys_close`. -/
def sysClose (k : ℕ) (fd : ℤ) : Kern ℤ := do
  let valid ← fdIsValid k fd
  if !valid then return -1
  let f ← slotFile k fd
  let s ← read
  if (s.file f).dupCnt < 0 then return -1
  if (s.file f).dupCnt = 0 then freeFile f
  else updateFile f fun file => { file with dupCnt := file.dupCnt - 1 }
  writeSlot k fd none
  return 0

/-- `sys_fstat`: the node that the buffer describes, or `none` for `-1`. -/
def sysFstat (k : ℕ) (fd : ℤ) : Kern (Option FsNode) := do
  let valid ← fdIsValid k fd
  if !valid then return none
  let f ← slotFile k fd
  let s ← read
  return some (s.node (s.file f).fsNode)

/-- `FS_CHARDEVICE`. -/
def fsChardevice : ℕ := 0x2000

/-- `FS_PIPE`. -/
def fsPipe : ℕ := 0x1000

/-- `FS_DIRECTORY`. -/
def fsDirectory : ℕ := 0x4000

/-- `sys_read`, when `fs_read` answers `bytes`. -/
def sysRead (k : ℕ) (fd : ℤ) (bytes : ℕ) : Kern ℤ := do
  let valid ← fdIsValid k fd
  if !valid then return -1
  let f ← slotFile k fd
  let s ← read
  let node := s.node (s.file f).fsNode
  if (s.file f).offs ≥ node.size ∧ node.type ≠ fsChardevice ∧ node.type ≠ fsPipe then return 0
  updateFile f fun file => { file with offs := (file.offs + bytes) % 2 ^ 32 }
  return bytes

/-- `sys_opendir`. It takes the result `0` of `sys_open` for a failure, and `-1` for an index. -/
def sysOpendir (k : ℕ) (found : Namei) : Kern (Option ℕ) := do
  let fd ← sysOpen k found 0 0
  if fd = 0 then return none
  let d ← slotFile k fd
  let s ← read
  if (s.node (s.file d).fsNode).type &&& fsDirectory = 0 then do
    let _ ← sysClose k fd
    return none
  return some d

/-- The loop of `sys_dup`: the descriptor is open. -/
def dupValid (files : List (Option ℕ)) (oldfd : ℤ) : Bool :=
  (List.range files.length).any fun fd => decide ((fd : ℤ) = oldfd) && (files.getD fd none).isSome

/-- `sys_dup`. -/
def sysDup (k : ℕ) (oldfd : ℤ) : Kern ℤ := do
  let files ← filesOf k
  if !dupValid files oldfd then return -1
  let fd ← fdAllocFor k
  if fd < 0 then return -1
  let f ← readSlot k oldfd
  writeSlot k fd f
  let g ← slotFile k fd
  updateFile g fun file => { file with dupCnt := file.dupCnt + 1 }
  return fd

/-- `sys_pipe`, when `pipe_new` makes the nodes `rd` and `wr`. -/
def sysPipe (k rd wr : ℕ) : Kern ℤ := do
  let fin ← fileAlloc
  let fout ← fileAlloc
  updateFile fin fun file => { file with flags := 0, fsNode := rd }
  updateFile fout fun file => { file with flags := 1, fsNode := wr }
  let _ ← fdAllocFor k
  let i ← fdAllocFor k
  writeSlot k i (some fin)
  let o ← fdAllocFor k
  writeSlot k o (some fout)
  return 0

/-- The loop of `fork_int` over the parent's slots. -/
def forkFiles : List (Option ℕ) → Kern (List (Option ℕ))
  | [] => return []
  | none :: files => do
    let copies ← forkFiles files
    return none :: copies
  | some f :: files => do
    let g ← fileAlloc
    let s ← read
    if (s.file f).fsNode = 0 then
      halt (.panic "task fork: pid: %d, fd: %d fs_node does not exists\n")
    updateFile g fun _ => s.file f
    let copies ← forkFiles files
    return some g :: copies

/-- `fork_int`. -/
def forkInt (k : ℕ) : Kern ℤ := do
  let files ← filesOf k
  let s ← read
  let copies ← forkFiles files
  modify fun t => { t.withFiles s.nextTask copies with nextTask := s.nextTask + 1 }
  return s.nextTask

/-- The loop of `task_free` over the slots. -/
def closeFiles : List (Option ℕ) → Kern Unit
  | [] => return ()
  | none :: files => closeFiles files
  | some f :: files => do
    let s ← read
    kassert "task->files[fd]->fs_node" (decide ((s.file f).fsNode ≠ 0))
    if (s.file f).dupCnt = 0 then freeFile f
    else updateFile f fun file => { file with dupCnt := file.dupCnt - 1 }
    closeFiles files

/-- `task_free`. -/
def taskFree (k : ℕ) : Kern ℤ := do
  let files ← filesOf k
  closeFiles files
  modify fun s => { s with files := Function.update s.files k none }
  return 0

/-- The calls, each by task `k`. -/
inductive Op where
  | openFile (k : ℕ) (found : Namei) (flags mode : ℕ)
  | opendir (k : ℕ) (found : Namei)
  | dup (k : ℕ) (oldfd : ℤ)
  | pipe (k rd wr : ℕ)
  | close (k : ℕ) (fd : ℤ)
  | readFile (k : ℕ) (fd : ℤ) (bytes : ℕ)
  | fstat (k : ℕ) (fd : ℤ)
  | fork (k : ℕ)
  | free (k : ℕ)

/-- What a call runs. -/
def Op.exec : Op → Kern Unit
  | .openFile k found flags mode => discard (sysOpen k found flags mode)
  | .opendir k found => discard (sysOpendir k found)
  | .dup k oldfd => discard (sysDup k oldfd)
  | .pipe k rd wr => discard (sysPipe k rd wr)
  | .close k fd => discard (sysClose k fd)
  | .readFile k fd bytes => discard (sysRead k fd bytes)
  | .fstat k fd => discard (sysFstat k fd)
  | .fork k => discard (forkInt k)
  | .free k => discard (taskFree k)

end Cosiris.Descriptors
