import Cosiris.Cofs.Truncate

/-!
# The inode cache

The nodes that `cofs_cache` holds, and the functions of `cofs.c` that take, lock and
release them. A node is known by its inode number. The cache is the list of the
numbers of its nodes, in the order of the list; a node with no references may be
recycled for another inode.

A lock that is held is a lock that the running process itself holds, so that
`spin_lock` on it never returns.
-/

namespace Cosiris.Cofs

open Function Prog

/-! ### The state -/

/-- The disk and the inode cache. -/
structure Fs where
  dev : Dev
  /-- The inode numbers of the nodes in `cofs_cache->list`. -/
  cache : List ℕ
  /-- `cofs_cache->lock`. -/
  cacheLock : Bool
  /-- The node of each inode in the cache. -/
  node : ℕ → FsNode

/-- Change a node. -/
def Fs.setNode (s : Fs) (i : ℕ) (f : FsNode → FsNode) : Fs :=
  { s with node := update s.node i (f (s.node i)) }

/-- A program on the disk. -/
def disk {α : Type} (m : Prog Halt Dev α) : Prog Halt Fs α :=
  zoom Fs.dev (fun d s => { s with dev := d }) m

/-- A program on a node and the disk. -/
def onNode {α : Type} (i : ℕ) (m : Prog Halt Open α) : Prog Halt Fs α :=
  zoom (fun s => ⟨s.dev, s.node i⟩)
    (fun o s => { s with dev := o.dev, node := update s.node i o.node }) m

/-- Change the fields of a node. -/
def modifyNode (i : ℕ) (f : FsNode → FsNode) : Prog Halt Fs Unit := modify fun s => s.setNode i f

/-- The node of inode `i`. -/
def getNode (i : ℕ) : Prog Halt Fs FsNode := do
  let s ← read
  return s.node i

/-- Follow a pointer to a node. -/
def deref : Option ℕ → Prog Halt Fs ℕ
  | some i => pure i
  | none => halt .fault

/-- `spin_lock(&cofs_cache->lock)`. -/
def lockCache : Prog Halt Fs Unit := do
  let s ← read
  if s.cacheLock then halt .deadlock
  modify fun s => { s with cacheLock := true }

/-- `spin_unlock(&cofs_cache->lock)`. -/
def unlockCache : Prog Halt Fs Unit := modify fun s => { s with cacheLock := false }

/-! ### Taking a node -/

/-- `MAX_CACHED_NODES`. -/
def maxCachedNodes : ℕ := 100

/-- The last node of the list that has no references. -/
def Fs.freeNode (s : Fs) : Option ℕ := s.cache.reverse.find? fun i => (s.node i).refCount = 0

/-- A node as `cofs_get_node` sets it up. -/
def freshNode (inum : ℕ) : FsNode where
  name := CStr.empty
  mask := 0
  major := 0
  minor := 0
  uid := 0
  gid := 0
  type := 0
  inode := inum
  size := 0
  refCount := 1
  numLinks := 0
  atime := 0
  ctime := 0
  mtime := 0
  addrs := fun _ => 0
  lock := false

/-- `cofs_get_node`. When the cache is full it returns no node and leaves the cache locked. -/
def cofsGetNode (inum : ℕ) : Prog Halt Fs (Option ℕ) := do
  lockCache
  let s ← read
  if inum ∈ s.cache then
    modifyNode inum fun n => { n with refCount := n.refCount + 1 }
    unlockCache
    return some inum
  else
    match s.freeNode with
    | some j =>
      modify fun s => { s with cache := s.cache.map fun i => if i = j then inum else i }
      modifyNode inum fun _ => freshNode inum
      unlockCache
      return some inum
    | none =>
      if s.cache.length ≥ maxCachedNodes then return none
      else do
        modify fun s => { s with cache := s.cache ++ [inum] }
        modifyNode inum fun _ => freshNode inum
        unlockCache
        return some inum

/-- `cofs_lock`: lock the node and load its record if it has not been loaded. -/
def cofsLock : Option ℕ → Prog Halt Fs Unit
  | none => halt (.panic "cofs_lock - no node\n")
  | some i => do
    let n ← getNode i
    if n.refCount = 0 then halt (.panic "ref_count for node is 0\n")
    if n.lock then halt .deadlock
    modifyNode i fun n => { n with lock := true }
    if n.type = 0 then
      let s ← read
      let buf ← disk (getHdBuf (s.dev.superb.inoBlk n.inode))
      modifyNode i fun n => n.load (getInode buf (n.inode % 8))
      disk (putHdBuf (s.dev.superb.inoBlk n.inode))
      let n ← getNode i
      if n.type = 0 then halt (.panic "cofs_lock - node type is 0\n")

/-- `cofs_unlock`. -/
def cofsUnlock (i : ℕ) : Prog Halt Fs Unit := do
  let n ← getNode i
  if !n.lock then halt (.panic "")
  modifyNode i fun n => { n with lock := false }

/-- `cofs_put_node`: release the node. When nothing links to it and nobody else has it, the
file is truncated and the inode marked free. The root keeps one reference. -/
def cofsPutNode (i : ℕ) : Prog Halt Fs Unit := do
  lockCache
  let n ← getNode i
  if n.refCount = 0 then halt (.panic "already put\n")
  if n.refCount = 1 ∧ n.type > 0 ∧ n.numLinks = 0 then
    unlockCache
    let _ ← onNode i (cofsTruncate 0)
    modifyNode i fun n => { n with type := 0 }
    let n ← getNode i
    disk (cofsUpdateNode n)
    lockCache
  let n ← getNode i
  if n.inode = 1 then
    if n.refCount > 1 then modifyNode i fun n => { n with refCount := n.refCount - 1 }
  else modifyNode i fun n => { n with refCount := n.refCount - 1 }
  unlockCache

/-- `major`. -/
def major (dev : ℕ) : ℕ := (dev &&& 0xFF00) / 2 ^ 8

/-- `minor`. -/
def minor (dev : ℕ) : ℕ := dev &&& 0xFF

/-- The record that `inode_alloc` writes. The test of the type is for any bit of
`FS_CHARDEVICE` or `FS_BLOCKDEVICE`, which `FS_DIRECTORY` passes too. -/
def allocInode (type : ℕ) : Inode :=
  let t := type &&& 0xF000
  let isDev := t &&& 0x2000 ≠ 0 ∨ t &&& 0x6000 ≠ 0
  { type := t, major := if isDev then major type else 0, minor := if isDev then minor type else 0,
    uid := 0, gid := 0, numLinks := 0, atime := 0, mtime := 0, ctime := 0,
    size := 0, addrs := fun _ => 0 }

/-- The loop of `inode_alloc` from inode `inoNum`, with `n` inodes to go. -/
def inodeAllocFrom (type : ℕ) : ℕ → ℕ → Prog Halt Fs (Option ℕ)
  | 0, _ => halt (.panic "No free inodes\n")
  | n + 1, inoNum => do
    let s ← read
    let buf ← disk (getHdBuf (s.dev.superb.inoBlk inoNum))
    if (getInode buf (inoNum % 8)).type = 0 then
      disk (setBuf (s.dev.superb.inoBlk inoNum) (putInode buf (inoNum % 8) (allocInode type)))
      disk (putHdBuf (s.dev.superb.inoBlk inoNum))
      cofsGetNode inoNum
    else
      disk (putHdBuf (s.dev.superb.inoBlk inoNum))
      inodeAllocFrom type n (inoNum + 1)

/-- `inode_alloc`: take the first free inode of the disk. -/
def inodeAlloc (type : ℕ) : Prog Halt Fs (Option ℕ) := do
  let s ← read
  inodeAllocFrom type (s.dev.superb.numInodes - 1) 1

end Cosiris.Cofs
