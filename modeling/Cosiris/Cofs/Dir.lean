import Cosiris.Cofs.Image

/-!
# Directories

The operations of `cofs.c` on directories. A directory is a file of entries of 32
bytes, each an inode number and a name; an entry with inode number `0` is free. The
lookup, the insertion and the removal each walk the entries from the start.

A node is passed by its inode number. `cofs_unlink` finds the entry that it clears by
the name that the node has got from `cofs_finddir`, not by its argument.
-/

namespace Cosiris.Cofs

open Function Prog

/-! ### Entries -/

/-- `struct cofs_dirent`. -/
structure Dirent where
  inode : ℕ
  name : CStr
  deriving DecidableEq

/-- What is on the stack behind the variable `dir` of `cofs_finddir` and `cofs_unlink`, up to the
first zero. It is taken to be the same at every comparison. -/
class Stack where
  behind : CStr

/-- There is a zero behind the variable. -/
@[reducible] def Stack.zero : Stack := ⟨CStr.empty⟩

/-- The entry in a buffer of 32 bytes. The name is the string at `dir.name`: one that fills the
array goes on behind it. -/
def getDirent [Stack] (buf : List UInt8) : Dirent :=
  ⟨leVal (buf.take 4), cstr (buf.drop 4 ++ Stack.behind.bytes)⟩

/-- The bytes of an entry. -/
def putDirent (inum : ℕ) (name : CStr) : List UInt8 := leBytes 4 inum ++ name.pad 28

/-- `"."`. -/
def dot : CStr := ⟨[46], by decide⟩

/-- `".."`. -/
def dotdot : CStr := ⟨[46, 46], by decide⟩

/-- The loops of `cofs_finddir`, `cofs_dirlink` and `cofs_unlink`: read the entries of directory
`i` from `offs` until one passes the test. It returns whether one did, the offset it has reached
and the buffer, in which a short read replaces the first bytes only. Every round but the last
reads something, so that the rounds do not outnumber the bytes of the directory. -/
def scan [Stack] (i : ℕ) (test : Dirent → Bool) :
  ℕ → ℕ → List UInt8 → Prog Halt Fs (Bool × ℕ × List UInt8)
  | 0, _, _ => halt .fault
  | n + 1, offs, dir => do
    let (k, bytes) ← onNode i (cofsRead offs 32)
    if k = 0 then return (false, offs, dir)
    else
      let dir := bytes ++ dir.drop k
      if test (getDirent dir) then return (true, offs, dir)
      else scan i test n (offs + k) dir

/-- The walk from the start of the directory. -/
def scanDir [Stack] (i : ℕ) (test : Dirent → Bool) : Prog Halt Fs (Bool × ℕ × List UInt8) := do
  let node ← getNode i
  scan i test (node.size + 1) 0 (List.replicate 32 0)

/-! ### Lookup -/

/-- `cofs_finddir`. -/
def cofsFinddir [Stack] (i : ℕ) (name : CStr) : Prog Halt Fs (Option ℕ) := do
  let node ← getNode i
  if node.type &&& 0x4000 = 0 then halt (.panic "cofs_finddir() - node is not a directory\n")
  let (found, _, dir) ← scanDir i fun e => e.name = name
  let inum := if found then (getDirent dir).inode else 0
  if inum = 0 then return none
  else
    let newNode ← cofsGetNode inum
    cofsLock newNode
    let newNode ← deref newNode
    modifyNode newNode fun n => if n.inode ≠ 1 then { n with name := name.take 255 } else n
    cofsUnlock newNode
    return some newNode

/-- `cofs_readdir`: no entry, or an entry, which for a free slot has inode number `0` and no
name. -/
def cofsReaddir [Stack] (i index : ℕ) : Prog Halt Fs (Option Dirent) := do
  let node ← getNode i
  kassert "node->lock == 0" (node.lock = false)
  cofsLock (some i)
  let (n, dir) ← onNode i (cofsRead (index * 32 % 2 ^ 32) 32)
  let res := if n = 0 then none
    else if (getDirent dir).inode = 0 then some ⟨0, CStr.empty⟩
    else some ⟨(getDirent dir).inode, (getDirent dir).name.take 27⟩
  cofsUnlock i
  return res

/-! ### Insertion -/

/-- `cofs_dirlink`: whether it has inserted the name, where the source returns `0` or `-1`. -/
def cofsDirlink [Stack] (i : ℕ) (name : CStr) (inum : ℕ) : Prog Halt Fs Bool := do
  match ← cofsFinddir i name with
  | some n =>
    cofsPutNode n
    return false
  | none =>
    let (_, offs, _) ← scanDir i fun e => e.inode = 0
    let n ← onNode i (cofsWrite offs (putDirent inum name))
    if n ≠ 32 then halt (.panic "cofs_dirlink")
    return true

/-- `cofs_update_node` on the node of inode `i`. -/
def updateNode (i : ℕ) : Prog Halt Fs Unit := do
  let node ← getNode i
  disk (cofsUpdateNode node)

/-- One more link to the node. -/
def FsNode.linkUp (n : FsNode) : FsNode :=
  { n with numLinks := if n.numLinks = 2 ^ 32 - 1 then 0 else n.numLinks + 1 }

/-- One link less to the node. -/
def FsNode.linkDown (n : FsNode) : FsNode :=
  { n with numLinks := if n.numLinks = 0 then 2 ^ 32 - 1 else n.numLinks - 1 }

/-- `cofs_link`. -/
def cofsLink [Stack] (parent node : ℕ) (name : CStr) : Prog Halt Fs Bool := do
  cofsLock (some node)
  modifyNode node FsNode.linkUp
  updateNode node
  cofsLock (some parent)
  let n ← getNode node
  let ret ← cofsDirlink parent name n.inode
  cofsUnlock parent
  cofsUnlock node
  return ret

/-- What `cofs_mkdir`, `cofs_mknod` and `cofs_creat` have in common: nothing if the name exists,
otherwise a new inode of the type, set up by `init` under its lock and then inserted in `dir`. -/
def addNode [Stack] (dir : ℕ) (name : CStr) (type : ℕ)
  (init : ℕ → Prog Halt Fs Unit) : Prog Halt Fs (Option ℕ) := do
  match ← cofsFinddir dir name with
  | some n =>
    cofsPutNode n
    return none
  | none =>
    let node ← inodeAlloc type
    cofsLock node
    let node ← deref node
    modifyNode node fun n => { n with name := name.take 255 }
    init node
    updateNode node
    cofsUnlock node
    cofsLock (some dir)
    let n ← getNode node
    let _ ← cofsDirlink dir name n.inode
    cofsUnlock dir
    return some node

/-- `cofs_mkdir`. -/
def cofsMkdir [Stack] (i : ℕ) (name : CStr) (mode : ℕ) : Prog Halt Fs (Option ℕ) :=
  addNode i name 0x4000 fun newDir => do
    modifyNode newDir fun n => { n with mask := mode, numLinks := 1 }
    let n ← getNode newDir
    let _ ← cofsDirlink newDir dot n.inode
    let node ← getNode i
    let _ ← cofsDirlink newDir dotdot node.inode

/-- `cofs_mknod`. The type comes from the device number. -/
def cofsMknod [Stack] (i : ℕ) (name : CStr) (mode dev : ℕ) : Prog Halt Fs (Option ℕ) :=
  addNode i name ((dev &&& 0xF000) ||| (mode &&& 0xFF)) fun node =>
    let dev := dev &&& (2 ^ 32 - 1 - 0xF000)
    modifyNode node fun n =>
      { n with major := major dev, minor := minor dev, mask := mode, numLinks := 1 }

/-- `cofs_creat`. -/
def cofsCreat [Stack] (i : ℕ) (name : CStr) (mode : ℕ) : Prog Halt Fs (Option ℕ) := do
  let node ← getNode i
  kassert "node->type & FS_DIRECTORY" (node.type &&& 0x4000 ≠ 0)
  addNode i name 0x8000 fun newFile => modifyNode newFile fun n =>
    { n with mask := mode, numLinks := 1 }

/-! ### Removal -/

/-- `cofs_unlink`: whether it has removed the name, where the source returns `0` or `-1`. It
gives up a reference to the parent. -/
def cofsUnlink [Stack] (parent : ℕ) (name : CStr) : Prog Halt Fs Bool := do
  match ← cofsFinddir parent name with
  | none => return false
  | some node =>
    cofsLock (some node)
    cofsLock (some parent)
    let n ← getNode node
    let (found, offs, _) ← scanDir parent fun e => e.name = n.name
    kassert "found" found
    let k ← onNode parent (cofsWrite offs (putDirent 0 CStr.empty))
    if k ≠ 32 then halt (.panic "cofs_unlink")
    updateNode parent
    cofsUnlock parent
    modifyNode node FsNode.linkDown
    updateNode node
    cofsUnlock node
    cofsPutNode node
    cofsPutNode parent
    return true

/-- `cofs_dup`. -/
def cofsDup (i : ℕ) : Prog Halt Fs Unit := do
  lockCache
  modifyNode i fun n => { n with refCount := n.refCount + 1 }
  unlockCache

end Cosiris.Cofs
