import Cosiris.Cofs.Holes
import Cosiris.Cofs.Nodes

/-!
# The kernel on a formatted image

`cofs_init` of `cofs.c`, and what `cofs_finddir` and `cofs_read` find on the image that `mkcofs`
has laid out: the two programs compute the place of a byte of a file each in its own way.

The kernel finds the partition at the offset at which the formatter has put it. The last block of
the root directory may be a hole, so that the walk through the root directory is followed only to
the entry that it finds. -/

namespace Cosiris.Cofs

open Function Prog

variable [Stack]

/-! ### Mounting -/

/-- The superblock in a block. -/
def readSuper (buf : Block) : Superblock where
  size := getLe buf 4 4
  numInodes := getLe buf 12 4
  bitmapStart := getLe buf 16 4
  inodeStart := getLe buf 20 4

/-- `get_superblock`. It returns the field `magic`, which the superblock of the model does not
have. -/
def getSuperblock : Prog Halt Fs ℕ := do
  let buf ← disk (getHdBuf 1)
  modify fun s => { s with dev := { s.dev with superb := readSuper buf } }
  disk (putHdBuf 1)
  return getLe buf 0 4

/-- `"/"`. -/
def slash : CStr := ⟨[47], by decide⟩

/-- `cofs_init`. -/
def cofsInit : Prog Halt Fs ℕ := do
  let magic ← getSuperblock
  if magic ≠ Mkcofs.cofsMagic then
    halt (.panic "Invalid file system, cannot find COFS_MAGIC, got: %u\n")
  modify fun s => { s with cache := [], cacheLock := false }
  let root ← cofsGetNode 1
  cofsLock root
  let root ← deref root
  let n ← getNode root
  if n.type ≠ 0x4000 then halt (.panic "root is not a directory")
  modifyNode root fun n => { n with name := slash }
  cofsUnlock root
  return root

/-- The kernel before `cofs_init`, with a disk of the given blocks. -/
def boot (blocks : ℕ → Block) : Fs := ⟨⟨⟨0, 0, 0, 0⟩, blocks, [], []⟩, [], false, freshNode⟩

/-! ### Taking a node that is not in the cache -/

section

variable {s : Fs} {i : ℕ}

/-- A node as `cofs_get_node` and `cofs_lock` leave it, when it was not in the cache. -/
def lockedNode (i : ℕ) (ino : Inode) : FsNode :=
  ({ freshNode i with lock := true } : FsNode).load ino

/-- The state after `cofs_get_node` and `cofs_lock`, when the inode was not in the cache and the
cache had room. -/
def Fs.taken (s : Fs) (i : ℕ) : Fs :=
  { s with cache := s.cache ++ [i], node := update s.node i (lockedNode i (s.dev.inode i)) }

omit [Stack] in
@[simp] theorem Fs.taken_node (s : Fs) (i : ℕ) :
    (s.taken i).node i = lockedNode i (s.dev.inode i) :=
    update_self ..

omit [Stack] in
/-- **A node is taken and locked**, and its record loaded. -/
theorem wp_cofsGetNode_taken (hlock : s.cacheLock = false) (hh : s.dev.held = []) (hi : i ∉ s.cache)
    (hused : ∀ j ∈ s.cache, (s.node j).refCount ≠ 0) (hroom : s.cache.length < maxCachedNodes)
    (ht : (s.dev.inode i).type &&& 0xF000 ≠ 0) {Q : Option ℕ → Fs → Prop} {E : Halt → Fs → Prop}
    (hQ : Q (some i) (s.taken i)) :
    wp (cofsGetNode i) (fun r s₁ => wp (cofsLock r) (fun _ s₂ => Q r s₂) E s₁) E s := by
  have hfree : ({ s with cacheLock := true } : Fs).freeNode = none := by
    refine List.find?_eq_none.mpr fun j hj => ?_
    have := hused j (List.mem_reverse.mp hj)
    simpa using this
  simp only [cofsGetNode, lockCache, unlockCache, wp_bind, wp_read, hlock, Bool.false_eq_true,
    if_false, wp_modify, wp_ite, if_neg hi, hfree, if_neg (Nat.not_le.mpr hroom), wp_modifyNode,
      wp_pure]
  generalize hs₁ :
    ({ ({ s with cacheLock := true, cache := s.cache ++ [i] } : Fs).setNode i
      (fun _ => freshNode i) with
    cacheLock := false } : Fs) = s₁
  have hnode : s₁.node i = freshNode i := by
    rw [← hs₁]
    exact update_self ..
  have hdev : s₁.dev = s.dev := by
    rw [← hs₁]
    rfl
  refine wp_cofsLock (hdev ▸ hh) (by rw [hnode]; exact Nat.one_ne_zero) (by rw [hnode]; rfl)
    (fun hl => ?_) (fun _ _ h0 => ?_) fun _ _ => ?_
  · rw [hnode] at hl
    cases hl
  · rw [hdev] at h0
    exact absurd h0 ht
  · have hstate : s₁.setNode i (fun n => n.locked (s₁.dev.inode i)) = s.taken i := by
      unfold Fs.setNode Fs.taken
      rw [hnode, hdev, ← hs₁, ← hlock]
      unfold Fs.setNode
      dsimp only
      rw [update_idem]
      rfl
    rw [hstate]
    exact hQ

end

/-! ### A walk to an entry -/

section

variable {s : Fs} {i k : ℕ} {test : Dirent → Bool} {Q : Bool × ℕ × List UInt8 → Fs → Prop}
    {E : Halt → Fs → Prop}

omit [Stack] in
/-- Reading an entry before which no block is missing. -/
theorem wp_read_dirent_filled (hh : s.dev.held = []) (hsize : (s.node i).size < 2 ^ 32)
    (hf : Filled s.dev.disk (s.node i).addrs (32 * (k + 1))) (hk : 32 * (k + 1) ≤ (s.node i).size)
    {Q : ℕ × List UInt8 → Fs → Prop} :
    wp (onNode i (cofsRead (32 * k) 32)) Q E s =
      Q (32, getBytes (byteAt s.dev.disk (s.node i).addrs) (32 * k) 32) s := by
  have hle := hf.1
  rw [wp_onNode]
  simp only [cofsRead, wp_bind, wp_read, wp_ite, wp_pure]
  rw [if_neg (by omega), if_neg (by omega), readLoop_eq hh (Nat.le_refl _) (by omega) fun q _ h2 =>
    hf.2 q (by omega)]
  dsimp only
  rw [Fs.put_self]

/-- **A walk finds the first entry that passes the test**, if no block is missing up to it. -/
theorem scanDir_first (hh : s.dev.held = []) (hsize : (s.node i).size < 2 ^ 32) {data : List UInt8}
    (hdata : contents s.dev.disk (s.node i).addrs data.length = data)
    (hf : Filled s.dev.disk (s.node i).addrs data.length) (hle : data.length ≤ (s.node i).size)
    (hk : 32 * (k + 1) ≤ data.length)
    (hbefore : ∀ j, j < k → test (getDirent ((data.drop (32 * j)).take 32)) = false)
    (hfound : test (getDirent ((data.drop (32 * k)).take 32)) = true)
    (hQ : Q (true, 32 * k, (data.drop (32 * k)).take 32) s) : wp (scanDir i test) Q E s := by
  have hbytes : ∀ j, j ≤ k →
    getBytes (byteAt s.dev.disk (s.node i).addrs) (32 * j) 32 = (data.drop (32 * j)).take 32 := by
    intro j hj
    rw [← drop_take_contents _ _ (show 32 * j + 32 ≤ data.length by omega), hdata]
  have hfilled : ∀ j, j ≤ k → Filled s.dev.disk (s.node i).addrs (32 * (j + 1)) := fun j hj =>
    ⟨by have := hf.1; omega, fun q hq => hf.2 q (by omega)⟩
  have hscan : ∀ n j buf, buf.length = 32 → j ≤ k → k < n + j →
    wp (scan i test n (32 * j) buf) Q E s := by
    intro n
    induction n with
    | zero => exact fun j _ _ hj hn => absurd hn (by omega)
    | succ n ih =>
      intro j buf hb hj hn
      rw [scan, wp_bind, wp_read_dirent_filled hh hsize (hfilled j hj) (by omega), hbytes j hj]
      dsimp only
      have hlen : ((data.drop (32 * j)).take 32).length = 32 := by
        rw [List.length_take, List.length_drop]
        omega
      rw [wp_ite, if_neg (by decide), List.drop_eq_nil_of_le (Nat.le_of_eq hb),
        List.append_nil, wp_ite]
      rcases Nat.lt_or_eq_of_le hj with hlt | rfl
      · rw [if_neg (by rw [hbefore j hlt]; decide)]
        exact ih (j + 1) _ hlen hlt (by omega)
      · rw [if_pos hfound]
        exact hQ
  rw [scanDir, wp_bind, wp_getNode]
  exact hscan _ 0 _ (by simp) (Nat.zero_le k) (by omega)

end

end Cosiris.Cofs

namespace Cosiris.Mkcofs

open Function Prog Cofs

/-! ### What the kernel sees -/

section

variable [Stack] {files : List Input} {s s' : Img} {k : ℕ} {f : Input}

/-- The partition after the program has run to its end. -/
def Img.dev (s : Img) : Dev := ⟨s.superb, s.block, [], []⟩

omit [Stack] in
theorem Done.dev_eq (h : Done files s s') : s'.dev = s.view.putInode 1 s.rounded := by
  unfold Img.dev
  rw [h.superb, h.block]
  rfl

omit [Stack] in
/-- The superblock is in block 1. -/
theorem Done.super (h : Done files s s') : s'.block 1 = superBlock s.superb := by
  have hroot := h.laid.marks.layout.root
  have hbitmap := h.laid.marks.layout.bitmap
  have hmarks := h.laid.marks.putInode hroot s.rounded
  rw [h.block, ← h.laid.marks.view_putInode, view_of_not_inBitmap fun hin => ?_]
  · exact hmarks.super
  · have hge : s.superb.bitmapStart ≤ 1 := hin.1
    omega

omit [Stack] in
/-- **The kernel reads the superblock that was written.** -/
theorem readSuper_superBlock {sb : Superblock} (h1 : sb.size < 2 ^ 32) (h2 : sb.numInodes < 2 ^ 32)
    (h3 : sb.bitmapStart < 2 ^ 32)
    (h4 : sb.inodeStart < 2 ^ 32) :
    readSuper (superBlock sb) = sb ∧ getLe (superBlock sb) 0 4 = cofsMagic := by
  have hget : ∀ pre post v a,
    [(4, cofsMagic), (4, sb.size), (4, sb.size + 2 ^ 32 - sb.dataStart), (4, sb.numInodes),
      (4, sb.bitmapStart), (4, sb.inodeStart), (4, 0)] = pre ++ (4, v) :: post →
        (pre.map Prod.fst).sum = a →
      v < 2 ^ 32 → getLe (superBlock sb) a 4 = v := by
    intro pre post v a he ha hv
    have := getLe_putBytes_encode zeroBlock 0 pre post 4 v
    rw [Nat.zero_add, ← he, ha] at this
    exact this.trans (Nat.mod_eq_of_lt hv)
  have hmagic : getLe (superBlock sb) 0 4 = cofsMagic := hget [] _ _ _ rfl rfl (by decide)
  have hsize : getLe (superBlock sb) 4 4 = sb.size := hget [_] _ _ _ rfl rfl h1
  have hinodes : getLe (superBlock sb) 12 4 = sb.numInodes := hget [_, _, _] _ _ _ rfl rfl h2
  have hbitmap : getLe (superBlock sb) 16 4 = sb.bitmapStart := hget [_, _, _, _] _ _ _ rfl rfl h3
  have hstart : getLe (superBlock sb) 20 4 = sb.inodeStart := hget [_, _, _, _, _] _ _ _ rfl rfl h4
  refine ⟨?_, hmagic⟩
  unfold readSuper
  rw [hsize, hinodes, hbitmap, hstart]

omit [Stack] in
/-- The blocks below `free_block` are marked, and no others. -/
theorem Done.used (h : Done files s s') {b : ℕ} (hb : b < s'.superb.numBits) :
    s'.dev.used b = decide (b < s.freeBlock) := by
  have hnb := Superblock.inoBlk_not_inBitmap h.laid.marks.layout 1
  rw [h.superb] at hb
  rw [h.dev_eq, ← view_used hb]
  unfold Dev.used
  rw [show (s.view.putInode 1 s.rounded).disk _ = update s.view.disk _ _ _ from rfl, update_of_ne]
  · rfl
  · intro he
    exact hnb (he ▸ Superblock.inBitmap_bitmapBlock hb)

/-- The kernel finds in inode `i` a record of the type and size, with at least the bytes `data`. -/
structure Readable (d : Dev) (i type size : ℕ) (data : List UInt8) : Prop where
  type : (d.inode i).type = type
  size : (d.inode i).size = size
  filled : Filled d.disk (d.inode i).addrs data.length
  contents : contents d.disk (d.inode i).addrs data.length = data

omit [Stack] in
/-- **A file can be read back.** -/
theorem Done.file (h : Done files s s') (hk : files[k]? = some f) :
    Readable s'.dev (k + 2) 0x8000 f.data.length f.data := by
  have hc : (layout files)[k + 1]? = some ⟨0x8000, f.data⟩ := by
    unfold layout
    rw [List.getElem?_cons_succ, List.getElem?_map, hk]
    rfl
  have hold := h.laid.holds (k + 1) _ hc
  have hlt := h.laid.numInodes_pos hc
  obtain ⟨hframe, -⟩ := h.laid.marks.sound.writeInode h.laid.marks.layout.root s.rounded
  have hne : k + 2 ≠ 1 := by omega
  have hinode := hframe.inodes (k + 2) hne hlt
  have htable : s.table (k + 2) = (s.view.inode (k + 2)).addrs := Img.table_of_lt hlt
  have hfilled := hframe.filled hne (htable ▸ hold.filled)
  have hcontents := hframe.contents hne (htable ▸ hold.filled)
  rw [htable] at hfilled hcontents
  rw [h.dev_eq]
  constructor
  case type =>
    rw [hinode, hold.inode]
    rfl
  case size =>
    rw [hinode, hold.inode]
    rfl
  case filled =>
    rw [hinode]
    exact hfilled
  case contents =>
    rw [hinode]
    exact hcontents.trans hold.contents

/-- The bytes of the entries of the root directory. -/
def rootEntries (files : List Input) : List (List UInt8) :=
  putDirent 1 dot :: putDirent 1 dotdot :: files.mapIdx fun k f => putDirent (k + 2) f.name

omit [Stack] in
/-- **The root directory can be read back**, up to its last entry. -/
theorem Done.root (h : Done files s s') :
    Readable s'.dev 1 0x4000 (roundUp (rootSize files.length)) (rootEntries files).flatten := by
  have hc : (layout files)[0]? = some ⟨0x4000, (rootEntries files).flatten⟩ := by
    unfold layout rootEntries entries
    rw [List.flatten_cons, List.flatten_cons, List.append_assoc]
    rfl
  obtain ⟨c, hc', hlen⟩ := layout_root files
  obtain rfl := Option.some.inj (hc'.symm.trans hc)
  have hold : Holds s 1 _ := h.laid.holds 0 _ hc
  have hroot := h.laid.marks.layout.root
  have hself : s'.dev.inode 1 = s.rounded := by
    rw [h.dev_eq]
    exact Dev.inode_putInode_self _ _ h.rounded_fits
  have htable : s.table 1 = (s.view.inode 1).addrs := Img.table_of_lt hroot
  have hwrote := (Filling.nil h.laid.marks.sound 1 0).wrote.writeInode hroot s.rounded
  rw [← h.dev_eq] at hwrote
  have hfilled := hwrote.filled (htable ▸ hold.filled) (Nat.zero_le _) (Nat.zero_le _)
  have hcontents := hwrote.contents (htable ▸ hold.filled) (Nat.zero_le _)
  rw [htable] at hfilled hcontents
  simp only [List.length_nil, Nat.zero_add, Nat.max_zero] at hfilled hcontents
  constructor
  case type =>
    rw [hself]
    show (s.view.inode 1).type = _
    rw [hold.inode]
    rfl
  case size =>
    rw [hself, ← hlen]
    show roundUp (s.view.inode 1).size = _
    rw [hold.inode]
    rfl
  case filled =>
    rw [hself]
    exact hfilled
  case contents =>
    rw [hself]
    refine hcontents.trans ?_
    rw [hold.contents]
    simp [overlay]

/-! ### Mounting -/

/-- The state after `cofs_init`. -/
structure Mounted (d : Dev) (t : Fs) : Prop where
  dev : t.dev = d
  cache : t.cache = [1]
  cacheLock : t.cacheLock = false
  refCount : (t.node 1).refCount = 1
  type : (t.node 1).type = (d.inode 1).type &&& 0xF000
  size : (t.node 1).size = (d.inode 1).size
  addrs : (t.node 1).addrs = (d.inode 1).addrs

omit [Stack] in
theorem Done.superb_fits (h : Done files s s') : readSuper (superBlock s.superb) = s.superb ∧
    getLe (superBlock s.superb) 0 4 = cofsMagic := by
  have hlayout := h.laid.marks.layout
  have hsize := h.laid.marks.size_le
  have hinodes := hlayout.inodes
  have hdata := hlayout.data
  have hwidth := hlayout.width
  unfold Superblock.dataStart at hdata
  exact readSuper_superBlock (by omega) (by omega) (by omega) (by omega)

omit [Stack] in
/-- **The kernel mounts the image.** -/
theorem Done.cofsInit_spec (h : Done files s s') :
    wp cofsInit (fun root t => root = 1 ∧ Mounted s'.dev t) (fun _ _ => False) (boot s'.block) := by
  obtain ⟨hsuper, hmagic⟩ := h.superb_fits
  have htype := h.root.type
  have hdev : (⟨s.superb, s'.block, [], []⟩ : Dev) = s'.dev := by
    unfold Img.dev
    rw [h.superb]
  simp only [cofsInit, getSuperblock, wp_bind, wp_disk, wp_getHdBuf, wp_putHdBuf,
    wp_modify, wp_pure, wp_ite, wp_halt, boot, List.not_mem_nil, if_false, List.erase_cons_head,
    h.super, hsuper, hmagic,
      ne_eq, not_true_eq_false, hdev]
  have htype' : (lockedNode 1 (s'.dev.inode 1)).type = 0x4000 := by
    show (s'.dev.inode 1).type &&& 0xF000 = 0x4000
    rw [htype]
    rfl
  have hroom : ([] : List ℕ).length < maxCachedNodes := by decide
  refine wp_cofsGetNode_taken (s := ⟨s'.dev, [], false, freshNode⟩) rfl rfl List.not_mem_nil
    (fun j hj => absurd hj List.not_mem_nil) hroom (by rw [htype]; decide) ?_
  simp only [deref, cofsUnlock, wp_pure, wp_getNode, wp_modifyNode, wp_bind, wp_ite, wp_halt,
    Fs.setNode_self, Fs.taken_node]
  rw [if_neg (not_not.mpr htype'), if_neg (by show ¬ ((!true) = true); decide)]
  refine ⟨trivial, rfl, rfl, rfl, ?_, ?_, ?_, ?_⟩ <;> rw
    [Fs.setNode_self, Fs.setNode_self, Fs.taken_node] <;> rfl

/-! ### Lookup -/

/-- The names of the files: they are all different, have 1 to 27 characters, and none is that of a
directory. -/
structure Named (files : List Input) : Prop where
  nodup : (files.map Input.name).Nodup
  length : ∀ f ∈ files, 1 ≤ f.name.bytes.length ∧ f.name.bytes.length ≤ 27
  plain : ∀ f ∈ files, f.name ≠ dot ∧ f.name ≠ dotdot

omit [Stack] in
/-- A part of a list of entries. -/
theorem drop_take_flatten {L : List (List UInt8)} (hL : ∀ c ∈ L, c.length = 32) {c : List UInt8}
    (hk : L[k]? = some c) :
    (L.flatten.drop (32 * k)).take 32 = c := by
  induction L generalizing k with
  | nil => cases hk
  | cons x L ih =>
    have hx := hL x List.mem_cons_self
    rw [List.flatten_cons]
    cases k with
    | zero =>
      obtain rfl := Option.some.inj hk
      exact List.take_left' hx
    | succ k =>
      rw [show 32 * (k + 1) = 32 + 32 * k by omega, ← List.drop_drop, List.drop_left' hx]
      exact ih (fun c hc => hL c (List.mem_cons_of_mem x hc)) hk

omit [Stack] in
theorem length_mem_rootEntries {c : List UInt8} (h : c ∈ rootEntries files) : c.length = 32 := by
  unfold rootEntries at h
  simp only [List.mem_cons, List.mem_mapIdx] at h
  obtain rfl | rfl | ⟨j, hj, rfl⟩ := h <;> exact length_putDirent _ _

omit [Stack] in
theorem length_rootEntries (files : List Input) :
    (rootEntries files).flatten.length = rootSize files.length := by
  have hdata : (rootEntries files).flatten = putDirent 1 dot ++ putDirent 1 dotdot ++
    entries files := by
    unfold rootEntries entries
    rw [List.flatten_cons, List.flatten_cons, List.append_assoc]
  rw [hdata, List.length_append, List.length_append, length_putDirent, length_putDirent,
    length_entries, rootSize]
  omega

/-- The entry of a file. -/
theorem dirent_file (hnamed : Named files) (hk : files[k]? = some f) :
    getDirent (((rootEntries files).flatten.drop (32 * (k + 2))).take 32) =
      ⟨(k + 2) % 2 ^ 32, f.name⟩ := by
  have hentry : (rootEntries files)[k + 2]? = some (putDirent (k + 2) f.name) := by
    unfold rootEntries
    rw [List.getElem?_cons_succ, List.getElem?_cons_succ, List.getElem?_mapIdx, hk]
    rfl
  have hle := (hnamed.length f (List.mem_of_getElem? hk)).2
  rw [drop_take_flatten (fun c => length_mem_rootEntries) hentry, getDirent_putDirent,
    CStr.stored_of_lt (Nat.lt_succ_of_le hle)]

/-- No entry before that of a file has its name. -/
theorem dirent_before (hnamed : Named files) (hk : files[k]? = some f) {j : ℕ} (hj : j < k + 2) :
    (getDirent (((rootEntries files).flatten.drop (32 * j)).take 32)).name ≠ f.name := by
  have hplain := hnamed.plain f (List.mem_of_getElem? hk)
  have hklt := (List.getElem?_eq_some_iff.mp hk).1
  match j with
  | 0 =>
    have hentry : (rootEntries files)[0]? = some (putDirent 1 dot) := rfl
    rw [drop_take_flatten (fun c => length_mem_rootEntries) hentry, getDirent_putDirent]
    exact Ne.symm hplain.1
  | 1 =>
    have hentry : (rootEntries files)[1]? = some (putDirent 1 dotdot) := rfl
    rw [drop_take_flatten (fun c => length_mem_rootEntries) hentry, getDirent_putDirent]
    exact Ne.symm hplain.2
  | j + 2 =>
    have hjk : j < k := by omega
    have hg : files[j]? = some files[j] := List.getElem?_eq_getElem (by omega)
    rw [dirent_file hnamed hg]
    intro he
    have hmap : (files.map Input.name)[j]? = (files.map Input.name)[k]? := by
      rw [List.getElem?_map, List.getElem?_map, hg, hk]
      exact congrArg some he
    have hlt : j < (files.map Input.name).length := by
      rw [List.length_map]
      omega
    exact absurd ((List.getElem?_inj hlt hnamed.nodup).mp hmap) (by omega)

/-- **The kernel finds the file by its name.** -/
theorem Done.finddir_spec (h : Done files s s') (hnamed : Named files) (hk : files[k]? = some f)
    {t : Fs}
    (hm : Mounted s'.dev t) :
    wp (cofsFinddir 1 f.name) (fun r t' => r = some (k + 2) ∧ t'.dev = s'.dev ∧
      (t'.node (k + 2)).size = f.data.length ∧
        (t'.node (k + 2)).addrs = (s'.dev.inode (k + 2)).addrs)
      (fun _ _ => False) t := by
  have hklt := (List.getElem?_eq_some_iff.mp hk).1
  have hlen := length_rootEntries files
  have hroot := h.root
  have hdir := h.root.filled.1
  have htype : (t.node 1).type &&& 0x4000 ≠ 0 := by
    rw [hm.type, hroot.type]
    decide
  have hheld : t.dev.held = [] := by
    rw [hm.dev]
    rfl
  have hsize : (t.node 1).size = roundUp (rootSize files.length) := hm.size.trans hroot.size
  have hround : rootSize files.length ≤ roundUp (rootSize files.length) ∧
    roundUp (rootSize files.length) < 2 ^ 32 := by
    unfold roundUp
    omega
  rw [cofsFinddir, wp_bind, wp_getNode]
  dsimp only
  rw [wp_ite, if_neg htype, wp_bind]
  have hdata : contents t.dev.disk (t.node 1).addrs (rootEntries files).flatten.length =
    (rootEntries files).flatten := by
    rw [hm.dev, hm.addrs]
    exact hroot.contents
  have hfilled : Filled t.dev.disk (t.node 1).addrs (rootEntries files).flatten.length := by
    rw [hm.dev, hm.addrs]
    exact hroot.filled
  have hin : 32 * (k + 2 + 1) ≤ (rootEntries files).flatten.length := by
    rw [hlen, rootSize]
    omega
  refine scanDir_first hheld (by omega) hdata hfilled (by omega) hin (fun j hj => ?_) ?_ ?_
  · exact decide_eq_false (dirent_before hnamed hk hj)
  · rw [dirent_file hnamed hk]
    exact decide_eq_true rfl
  · have hinum : (k + 2) % 2 ^ 32 = k + 2 := by
      unfold rootSize at hlen
      omega
    have hnotin : k + 2 ∉ t.cache := by
      rw [hm.cache, List.mem_singleton]
      omega
    have hrefs : ∀ j ∈ t.cache, (t.node j).refCount ≠ 0 := by
      intro j hj
      rw [hm.cache, List.mem_singleton] at hj
      rw [hj, hm.refCount]
      decide
    have hroom : t.cache.length < maxCachedNodes := by
      rw [hm.cache]
      decide
    have hfile := h.file hk
    have htype' : (t.dev.inode (k + 2)).type &&& 0xF000 ≠ 0 := by
      rw [hm.dev, hfile.type]
      decide
    dsimp only
    rw [dirent_file hnamed hk, if_pos rfl, hinum, wp_ite, if_neg (Nat.succ_ne_zero _), wp_bind]
    simp only [wp_bind]
    refine wp_cofsGetNode_taken hm.cacheLock hheld hnotin hrefs hroom htype' ?_
    have hne : (lockedNode (k + 2) (t.dev.inode (k + 2))).inode ≠ 1 := show k + 2 ≠ 1 by omega
    simp only [deref, cofsUnlock, wp_pure, wp_getNode, wp_modifyNode, wp_bind, wp_ite, wp_halt,
      Fs.setNode_self, Fs.taken_node, if_pos hne]
    rw [if_neg (by show ¬ ((!true) = true); decide), ← hm.dev]
    refine ⟨trivial, rfl, ?_, rfl⟩
    rw [← hfile.size, ← hm.dev]
    rfl

/-- Mount the image, find the name in the root directory, and read the whole file. -/
def lookup (name : CStr) : Prog Halt Fs (ℕ × List UInt8) := do
  let root ← cofsInit
  let node ← cofsFinddir root name
  let i ← deref node
  let n ← getNode i
  onNode i (cofsRead 0 n.size)

/-- **The kernel reads the bytes of the file.** -/
theorem Done.lookup_spec (h : Done files s s') (hnamed : Named files) (hk : files[k]? = some f) :
    wp (lookup f.name) (fun r _ => r = (f.data.length, f.data)) (fun _ _ => False)
      (boot s'.block) := by
  rw [lookup, wp_bind]
  refine h.cofsInit_spec.mono (fun root t ht => ?_) fun _ _ => False.elim
  obtain ⟨rfl, hm⟩ := ht
  rw [wp_bind]
  refine (h.finddir_spec hnamed hk hm).mono (fun r t' hr => ?_) fun _ _ => False.elim
  obtain ⟨rfl, hdev, hsize, haddrs⟩ := hr
  have hfile := h.file hk
  have hheld : t'.dev.held = [] := by
    rw [hdev]
    rfl
  have hfilled : Filled t'.dev.disk (t'.node (k + 2)).addrs (t'.node (k + 2)).size := by
    rw [hdev, haddrs, hsize]
    exact hfile.filled
  have hcontents :
    contents t'.dev.disk (t'.node (k + 2)).addrs (t'.node (k + 2)).size = f.data := by
    rw [hdev, haddrs, hsize]
    exact hfile.contents
  have hle := hfile.filled.1
  rw [wp_bind, deref, wp_pure, wp_bind, wp_getNode, wp_onNode, cofsRead_eq hheld hfilled (by omega)]
  dsimp only
  rw [hcontents, hsize, List.drop_zero, List.take_length, Nat.sub_zero, Nat.min_self]

omit [Stack] in
/-- Files for which there is room do not make the program end early. -/
theorem Early.no_files {sb : Superblock} {e : Stop} (h : Early sb files e)
    (hlong : ∀ f ∈ files, f.data.length ≤ 16518 * 512)
    (hbits : need sb (layout files) ≤ 4096) (hsize : need sb (layout files) ≤ sb.size) :
    files = [] := by
  have hroot : rootSize files.length ≤ 16518 * 512 := by
    have h1 := cost_root_le sb files
    have h2 := le_cost (blocks (rootSize files.length))
    unfold blocks at h1 h2
    omega
  cases h with
  | usage h => exact h
  | root h =>
    have := need_append_le sb [] files
    rw [List.nil_append] at this
    omega
  | file h =>
    obtain ⟨a, f, b, rfl, hstop, -, -⟩ := h
    have hall := need_append_le sb (a ++ [f]) b
    rw [List.append_assoc, List.singleton_append] at hall
    have hempty := need_empty_le sb a f
    have hf := hlong f (List.mem_append_right a List.mem_cons_self)
    rw [List.length_append, List.length_cons] at hroot
    unfold rootSize at hroot
    rcases hstop with (⟨-, hlt⟩ | ⟨-, hlt, -⟩) | ⟨-, ⟨-, hlt⟩ | ⟨-, hlt, -⟩⟩
    · rw [List.nil_append] at hlt
      omega
    · rw [List.nil_append, rootSize] at hlt
      omega
    · rw [List.nil_append] at hlt
      omega
    · omega
  | bitmap _ _ h => omega

/-- **Formatter and kernel agree.** When the files have different names of 1 to 27 characters,
none is longer than 16518 blocks, and together with the metadata they take at most 4096 blocks and
no more than there are, the program does not exit unless there is no file, the bitmap marks the
blocks below `free_block`, and the kernel finds each file by its name and reads its bytes. -/
theorem kernel_reads_files (sectors : ℕ) (disk : ℕ → Block) (files : List Input)
    (hfits : Fits sectors files)
    (hnamed : Named files) (hlong : ∀ f ∈ files, f.data.length ≤ (6 + 128 + 16384) * 512)
    (hbits : need (superblock sectors) (layout files) ≤ 4096)
    (hsize : need (superblock sectors) (layout files) ≤ (superblock sectors).size) :
    wp (main files)
      (fun _ s => (∀ b, b < s.superb.numBits → (s.dev.used b = true ↔ b < s.freeBlock)) ∧
        ∀ f ∈ files,
          wp (lookup f.name) (fun r _ => r = (f.data.length, f.data)) (fun _ _ => False)
            (boot s.block))
      (fun _ _ => files = []) (start sectors disk) := by
  refine (main_spec hfits).mono (fun _ s' hs => ?_) fun e _ he => he.no_files hlong hbits hsize
  obtain ⟨s, hdone, hsb⟩ := hs
  refine ⟨fun b hb => ?_, fun f hf => ?_⟩
  · rw [hdone.used hb, hdone.freeBlock, decide_eq_true_iff]
  · obtain ⟨k, hk⟩ := List.getElem?_of_mem hf
    exact hdone.lookup_spec hnamed hk

end

attribute [local instance] Stack.zero

theorem kernel_reads_two :
    wp (main [emptyFile, threeBytes])
      (fun _ s => (∀ b, b < s.superb.numBits → (s.dev.used b = true ↔ b < s.freeBlock)) ∧
        ∀ f ∈ [emptyFile, threeBytes],
          wp (lookup f.name) (fun r _ => r = (f.data.length, f.data)) (fun _ _ => False)
            (boot s.block))
      (fun _ _ => False) (start (partitionOffset + 200) fun _ => zeroBlock) := by
  have hfits : Fits (partitionOffset + 200) [emptyFile, threeBytes] := fits_small (by decide)
  have hnamed : Named [emptyFile, threeBytes] := ⟨by decide, by decide, by decide⟩
  have hneed : need (superblock (partitionOffset + 200)) (layout [emptyFile, threeBytes]) = 9 := by
    unfold superblock
    rw [need_layout, Nat.add_sub_cancel_left]
    decide
  have hsize : (superblock (partitionOffset + 200)).size = 200 := Nat.add_sub_cancel_left ..
  have hlong : ∀ f ∈ [emptyFile, threeBytes], f.data.length ≤ (6 + 128 + 16384) * 512 := by decide
  have hbits :
    need (superblock (partitionOffset + 200)) (layout [emptyFile, threeBytes]) ≤ 4096 := by
    rw [hneed]; decide
  have hroom : need (superblock (partitionOffset + 200)) (layout [emptyFile, threeBytes]) ≤
      (superblock (partitionOffset + 200)).size := by rw [hneed, hsize]; decide
  generalize partitionOffset + 200 = sectors at hfits hbits hroom ⊢
  exact (kernel_reads_files sectors (fun _ => zeroBlock) [emptyFile, threeBytes]
    hfits hnamed hlong hbits hroom).mono (fun _ _ h => h) fun _ _ h => List.cons_ne_nil _ _ h

end Cosiris.Mkcofs
