import Cosiris.Cofs.Device
import Mathlib.Data.List.TakeWhile

/-!
# Inodes, on disk and in memory

`cofs_inode`, the record of 64 bytes on the disk, and `fs_node`, its image in
memory, with the two ways between them: `cofs_lock` loads a record and
`cofs_update_node` writes it back. The type of the file and its access mode share
a field of the record; in memory they are two.
-/

namespace Cosiris.Cofs

open Function Prog

/-- `cofs_inode`. The nine addresses are those of six direct blocks, of the single and the
double indirect block, and one that is never used. -/
structure Inode where
  type : ℕ
  major : ℕ
  minor : ℕ
  uid : ℕ
  gid : ℕ
  numLinks : ℕ
  atime : ℕ
  mtime : ℕ
  ctime : ℕ
  size : ℕ
  addrs : ℕ → ℕ

/-- The widths and values of the fields, in their order on the disk. -/
def Inode.fields (ino : Inode) : List (ℕ × ℕ) :=
  [(2, ino.type), (2, ino.major), (2, ino.minor), (2, ino.uid), (2, ino.gid), (2, ino.numLinks),
    (4, ino.atime), (4, ino.mtime), (4, ino.ctime), (4, ino.size),
    (4, ino.addrs 0), (4, ino.addrs 1), (4, ino.addrs 2), (4, ino.addrs 3), (4, ino.addrs 4),
    (4, ino.addrs 5), (4, ino.addrs 6), (4, ino.addrs 7), (4, ino.addrs 8)]

/-- The inode in slot `s` of a block. -/
def getInode (b : Block) (s : ℕ) : Inode where
  type := getLe b (64 * s) 2
  major := getLe b (64 * s + 2) 2
  minor := getLe b (64 * s + 4) 2
  uid := getLe b (64 * s + 6) 2
  gid := getLe b (64 * s + 8) 2
  numLinks := getLe b (64 * s + 10) 2
  atime := getLe b (64 * s + 12) 4
  mtime := getLe b (64 * s + 16) 4
  ctime := getLe b (64 * s + 20) 4
  size := getLe b (64 * s + 24) 4
  addrs := fun k => if k < 9 then getLe b (64 * s + 28 + 4 * k) 4 else 0

/-- Write the inode in slot `s` of a block. -/
def putInode (b : Block) (s : ℕ) (ino : Inode) : Block := putBytes b (64 * s) (encode ino.fields)

/-- The fields fit their widths. -/
structure Inode.Fits (ino : Inode) : Prop where
  type : ino.type < 2 ^ 16
  major : ino.major < 2 ^ 16
  minor : ino.minor < 2 ^ 16
  uid : ino.uid < 2 ^ 16
  gid : ino.gid < 2 ^ 16
  numLinks : ino.numLinks < 2 ^ 16
  atime : ino.atime < 2 ^ 32
  mtime : ino.mtime < 2 ^ 32
  ctime : ino.ctime < 2 ^ 32
  size : ino.size < 2 ^ 32
  addrs : ∀ k, k < 9 → ino.addrs k < 2 ^ 32
  rest : ∀ k, 9 ≤ k → ino.addrs k = 0

theorem getInode_fits (b : Block) (s : ℕ) : (getInode b s).Fits where
  type := getLe_lt b _ 2
  major := getLe_lt b _ 2
  minor := getLe_lt b _ 2
  uid := getLe_lt b _ 2
  gid := getLe_lt b _ 2
  numLinks := getLe_lt b _ 2
  atime := getLe_lt b _ 4
  mtime := getLe_lt b _ 4
  ctime := getLe_lt b _ 4
  size := getLe_lt b _ 4
  addrs := by
    intro k hk
    simp only [getInode, if_pos hk]
    exact getLe_lt b _ 4
  rest := by
    intro k hk
    simp only [getInode, if_neg (Nat.not_lt.mpr hk)]

/-- Field `n` of a record that was written. -/
theorem getLe_putInode (b : Block) (s : ℕ) (ino : Inode) {n w v : ℕ}
    (h : ino.fields[n]? = some (w, v)) :
    getLe (putInode b s ino) (64 * s + ((ino.fields.take n).map Prod.fst).sum) w = v % 256 ^ w := by
  obtain ⟨hn, he⟩ := List.getElem?_eq_some_iff.mp h
  have hsplit : ino.fields = ino.fields.take n ++ (w, v) :: ino.fields.drop (n + 1) := by
    rw [← he, List.getElem_cons_drop, List.take_append_drop]
  have := getLe_putBytes_encode b (64 * s) (ino.fields.take n) (ino.fields.drop (n + 1)) w v
  rw [← hsplit] at this
  exact this

/-- An inode that was written is read back. -/
theorem getInode_putInode (b : Block) (s : ℕ) {ino : Inode} (h : ino.Fits) :
    getInode (putInode b s ino) s = ino := by
  have hf : ∀ n {a w v : ℕ}, ino.fields[n]? = some (w, v) →
    ((ino.fields.take n).map Prod.fst).sum = a →
      v < 256 ^ w → getLe (putInode b s ino) (64 * s + a) w = v := by
    intro n a w v hget hoff hv
    have := getLe_putInode b s ino hget
    rw [hoff] at this
    rw [this, Nat.mod_eq_of_lt hv]
  have haddr : ∀ k, k < 9 → getLe (putInode b s ino) (64 * s + 28 + 4 * k) 4 = ino.addrs k := by
    intro k hk
    rw [Nat.add_assoc]
    have hlt := h.addrs k hk
    rcases (by omega : k = 0 ∨ k = 1 ∨ k = 2 ∨ k = 3 ∨ k = 4 ∨ k = 5 ∨ k = 6 ∨ k = 7 ∨ k = 8) with
      rfl | rfl | rfl | rfl | rfl | rfl | rfl | rfl | rfl
    · exact hf 10 rfl (by simp [Inode.fields]) hlt
    · exact hf 11 rfl (by simp [Inode.fields]) hlt
    · exact hf 12 rfl (by simp [Inode.fields]) hlt
    · exact hf 13 rfl (by simp [Inode.fields]) hlt
    · exact hf 14 rfl (by simp [Inode.fields]) hlt
    · exact hf 15 rfl (by simp [Inode.fields]) hlt
    · exact hf 16 rfl (by simp [Inode.fields]) hlt
    · exact hf 17 rfl (by simp [Inode.fields]) hlt
    · exact hf 18 rfl (by simp [Inode.fields]) hlt
  unfold getInode
  congr 1
  · exact hf 0 rfl rfl h.type
  · exact hf 1 rfl (by simp [Inode.fields]) h.major
  · exact hf 2 rfl (by simp [Inode.fields]) h.minor
  · exact hf 3 rfl (by simp [Inode.fields]) h.uid
  · exact hf 4 rfl (by simp [Inode.fields]) h.gid
  · exact hf 5 rfl (by simp [Inode.fields]) h.numLinks
  · exact hf 6 rfl (by simp [Inode.fields]) h.atime
  · exact hf 7 rfl (by simp [Inode.fields]) h.mtime
  · exact hf 8 rfl (by simp [Inode.fields]) h.ctime
  · exact hf 9 rfl (by simp [Inode.fields]) h.size
  · funext k
    split_ifs with hk
    · exact haddr k hk
    · exact (h.rest k (Nat.not_lt.mp hk)).symm

/-- The other slots of the block stay. -/
theorem getInode_putInode_ne (b : Block) {s t : ℕ} (ino : Inode) (h : t ≠ s) :
    getInode (putInode b s ino) t = getInode b t := by
  have hlen : (encode ino.fields).length = 64 := by simp [length_encode, Inode.fields]
  have hsame : ∀ a n, 64 * t ≤ a → a + n ≤ 64 * t + 64 →
    getLe (putInode b s ino) a n = getLe b a n := by
    intro a n h1 h2
    unfold getLe putInode
    rw [getBytes_putBytes_disjoint (by rw [hlen]; omega)]
  unfold getInode
  congr 1
  on_goal 11 =>
    funext k
    split_ifs with hk
    · exact hsame _ _ (by omega) (by omega)
    · rfl
  all_goals exact hsame _ _ (by omega) (by omega)

/-! ### Strings -/

/-- A C string: the bytes before its final zero. -/
structure CStr where
  bytes : List UInt8
  nonzero : 0 ∉ bytes
  deriving DecidableEq

/-- The empty string. -/
def CStr.empty : CStr := ⟨[], by decide⟩

/-- The string at the start of some bytes: those before the first zero. -/
def cstr (bytes : List UInt8) : CStr where
  bytes := bytes.takeWhile (· ≠ 0)
  nonzero := by
    intro h
    simpa using List.mem_takeWhile_imp h

/-- The string cut off after `n` characters. -/
def CStr.take (name : CStr) (n : ℕ) : CStr where
  bytes := name.bytes.take n
  nonzero := fun h => name.nonzero (List.mem_of_mem_take h)

/-- `strncpy`: the characters written in an array of `n`, zeros after the end of the string. -/
def CStr.pad (name : CStr) (n : ℕ) : List UInt8 :=
  name.bytes.take n ++ List.replicate (n - name.bytes.length) 0

/-! ### In memory -/

/-- `fs_node`, without its pointers to operations. -/
structure FsNode where
  name : CStr
  mask : ℕ
  major : ℕ
  minor : ℕ
  uid : ℕ
  gid : ℕ
  type : ℕ
  inode : ℕ
  size : ℕ
  refCount : ℕ
  numLinks : ℕ
  atime : ℕ
  ctime : ℕ
  mtime : ℕ
  addrs : ℕ → ℕ
  lock : Bool

/-- The node with other addresses. -/
def FsNode.withAddrs (node : FsNode) (addrs : ℕ → ℕ) : FsNode := { node with addrs := addrs }

@[simp] theorem FsNode.withAddrs_addrs (node : FsNode) (addrs : ℕ → ℕ) :
    (node.withAddrs addrs).addrs = addrs := rfl

/-- The record that `cofs_update_node` writes for a node. -/
def FsNode.pack (node : FsNode) : Inode where
  type := ((node.type &&& 0xF000) ||| node.mask) % 2 ^ 16
  major := node.major % 2 ^ 16
  minor := node.minor % 2 ^ 16
  uid := node.uid % 2 ^ 16
  gid := node.gid % 2 ^ 16
  numLinks := node.numLinks % 2 ^ 16
  atime := node.atime % 2 ^ 32
  mtime := node.mtime % 2 ^ 32
  ctime := node.ctime % 2 ^ 32
  size := node.size % 2 ^ 32
  addrs := fun k => if k < 9 then node.addrs k % 2 ^ 32 else 0

/-- What `cofs_lock` loads into a node from its record. -/
def FsNode.load (node : FsNode) (ino : Inode) : FsNode :=
  { node with
    type := ino.type &&& 0xF000, mask := ino.type &&& 0xFFF, major := ino.major, minor := ino.minor,
    uid := ino.uid, gid := ino.gid, numLinks := ino.numLinks,
    atime := ino.atime, ctime := ino.ctime,
    mtime := ino.mtime, size := ino.size, addrs := ino.addrs }

theorem FsNode.pack_fits (node : FsNode) : node.pack.Fits where
  type := Nat.mod_lt _ (by decide)
  major := Nat.mod_lt _ (by decide)
  minor := Nat.mod_lt _ (by decide)
  uid := Nat.mod_lt _ (by decide)
  gid := Nat.mod_lt _ (by decide)
  numLinks := Nat.mod_lt _ (by decide)
  atime := Nat.mod_lt _ (by decide)
  mtime := Nat.mod_lt _ (by decide)
  ctime := Nat.mod_lt _ (by decide)
  size := Nat.mod_lt _ (by decide)
  addrs := by
    intro k hk
    simp only [FsNode.pack, if_pos hk]
    exact Nat.mod_lt _ (by decide)
  rest := by
    intro k hk
    simp only [FsNode.pack, if_neg (Nat.not_lt.mpr hk)]

/-- The type and the mode of a loaded node make up the field they came from. -/
theorem and_or_and_eq {t : ℕ} (h : t < 2 ^ 16) :
    ((t &&& 0xF000) &&& 0xF000) ||| (t &&& 0xFFF) = t := by
  rw [Nat.and_assoc, Nat.and_self, ← Nat.and_or_distrib_left]
  have : (0xF000 ||| 0xFFF : ℕ) = 2 ^ 16 - 1 := rfl
  rw [this, Nat.and_two_pow_sub_one_eq_mod, Nat.mod_eq_of_lt h]

/-- Loading a record and writing it back changes nothing. -/
theorem FsNode.pack_load (node : FsNode) {ino : Inode} (h : ino.Fits) :
    (node.load ino).pack = ino := by
  unfold FsNode.load FsNode.pack
  dsimp only
  rw [and_or_and_eq h.type, Nat.mod_eq_of_lt h.type, Nat.mod_eq_of_lt h.major,
    Nat.mod_eq_of_lt h.minor, Nat.mod_eq_of_lt h.uid, Nat.mod_eq_of_lt h.gid,
    Nat.mod_eq_of_lt h.numLinks,
      Nat.mod_eq_of_lt h.atime,
    Nat.mod_eq_of_lt h.mtime, Nat.mod_eq_of_lt h.ctime, Nat.mod_eq_of_lt h.size]
  congr 1
  funext k
  split_ifs with hk
  · exact Nat.mod_eq_of_lt (h.addrs k hk)
  · exact (h.rest k (Nat.not_lt.mp hk)).symm

/-! ### The inode blocks -/

/-- The record of an inode on the disk. -/
def Dev.inode (d : Dev) (i : ℕ) : Inode := getInode (d.disk (d.superb.inoBlk i)) (i % 8)

theorem Dev.inode_fits (d : Dev) (i : ℕ) : (d.inode i).Fits := getInode_fits _ _

/-- Write a record on the disk. -/
def Dev.putInode (d : Dev) (i : ℕ) (ino : Inode) : Dev :=
  { d with disk :=
      update d.disk (d.superb.inoBlk i) (Cofs.putInode (d.disk (d.superb.inoBlk i)) (i % 8) ino) }

theorem Dev.inode_putInode_self (d : Dev) (i : ℕ) {ino : Inode} (h : ino.Fits) :
    (d.putInode i ino).inode i = ino := by
  unfold Dev.inode Dev.putInode
  dsimp only
  rw [update_self, getInode_putInode _ _ h]

theorem Dev.inode_putInode_ne (d : Dev) {i j : ℕ} (ino : Inode) (h : j ≠ i) :
    (d.putInode i ino).inode j = d.inode j := by
  unfold Dev.inode Dev.putInode
  dsimp only
  by_cases hb : d.superb.inoBlk j = d.superb.inoBlk i
  · rw [hb, update_self, getInode_putInode_ne]
    intro e
    unfold Superblock.inoBlk at hb
    omega
  · rw [update_of_ne hb]

/-- `cofs_update_node`. -/
def cofsUpdateNode (node : FsNode) : Prog Halt Dev Unit := do
  let d ← read
  let buf ← getHdBuf (d.superb.inoBlk node.inode)
  setBuf (d.superb.inoBlk node.inode) (putInode buf (node.inode % 8) node.pack)
  putHdBuf (d.superb.inoBlk node.inode)

/-- **`cofs_update_node` writes the record of its node.** -/
theorem wp_cofsUpdateNode {node : FsNode} {d : Dev} {Q : Unit → Dev → Prop} {E : Halt → Dev → Prop}
    (h : d.superb.inoBlk node.inode ∉ d.held) :
    wp (cofsUpdateNode node) Q E d = Q () (d.putInode node.inode node.pack) := by
  simp only [cofsUpdateNode, wp_bind, wp_read, wp_getHdBuf, if_neg h, wp_setBuf, wp_putHdBuf,
    List.erase_cons_head]
  rfl

/-! ### A node and the disk -/

/-- What the functions on one node work on. -/
structure Open where
  dev : Dev
  node : FsNode

/-- A program on the disk. -/
def onDev {α : Type} (m : Prog Halt Dev α) : Prog Halt Open α :=
  zoom Open.dev (fun d o => { o with dev := d }) m

/-- Change the node. -/
def setNode (f : FsNode → FsNode) : Prog Halt Open Unit :=
  modify fun o => { o with node := f o.node }

section

variable {α : Type} {o : Open} {E : Halt → Open → Prop}

@[simp] theorem wp_onDev {m : Prog Halt Dev α} {Q : α → Open → Prop} :
    wp (onDev m) Q E o = wp m (fun a d => Q a ⟨d, o.node⟩) (fun e d => E e ⟨d, o.node⟩) o.dev :=
      wp_zoom _ _ _

@[simp] theorem wp_setNode {f : FsNode → FsNode} {Q : Unit → Open → Prop} :
    wp (setNode f) Q E o = Q () ⟨o.dev, f o.node⟩ := rfl

end

end Cosiris.Cofs
