import Cosiris.Kernel.Files
import Cosiris.Lib.Runs
import Mathlib.Data.Finset.Card
import Mathlib.Logic.Function.Basic

/-!
# The disk buffers

`hd_queue.c`: `get_hd_buf` and `put_hd_buf` over the list of at most
`MAX_HD_BUFS` buffers. A pointer to a buffer is its place in the list, which only
grows. `hd_rw` reads a clean buffer from its sector and writes a dirty one to it.

Run by one process that asks only for blocks it does not hold, the buffers are
invisible: every `get_hd_buf` gives what was last put for the block, and the
disk holds it (`buffers_refine_disk`).
-/

namespace Cosiris.Hd

open Function Prog

/-- The contents of a sector (`BLOCK_SIZE` bytes). -/
abbrev Sector := Vector UInt8 512

/-- `MAX_HD_BUFS`. -/
def maxHdBufs : ℕ := 200

/-- A disk buffer (`hd_buf_t`). -/
structure HdBuf where
  blockNo : ℤ
  isDirty : Bool
  refCount : ℤ
  lock : Bool
  buf : Sector
  deriving DecidableEq

/-- The queue (`buf_queue`) and the sectors of the partition. -/
structure Queue where
  list : List HdBuf
  lock : Bool
  disk : ℤ → Sector

/-- `hd_queue_init`. -/
def hdQueueInit (disk : ℤ → Sector) : Queue := ⟨[], false, disk⟩

/-- `new_hd_buf`: a buffer in the memory `malloc` gave, of which `lock` and `buf` are left as
they are. -/
def newHdBuf (mem : HdBuf) : HdBuf := { mem with blockNo := 0, isDirty := false, refCount := 0 }

/-- The buffer of a block, if it is in the queue: the first loop of `get_hd_buf`. -/
def Queue.find (q : Queue) (b : ℤ) : Option ℕ := q.list.findIdx? fun h => h.blockNo = b

/-- The test of the search for a buffer to reuse. -/
def HdBuf.free (h : HdBuf) : Bool := decide (h.refCount = 0) && !h.isDirty && !h.lock

/-- The second loop of `get_hd_buf` from place `i`, with `hdb` the buffer seen last: the
first free buffer, or the last of all. -/
def scanFrom : List HdBuf → ℕ → Option ℕ → Option ℕ
  | [], _, hdb => hdb
  | h :: l, i, _ => if h.free then some i else scanFrom l (i + 1) (some i)

/-- Change the buffer at place `i`. -/
def Queue.update (q : Queue) (i : ℕ) (f : HdBuf → HdBuf) : Queue :=
  { q with list := q.list.modify i f }

/-- Add a buffer at the end (`list_add`). -/
def Queue.add (q : Queue) (h : HdBuf) : Queue := { q with list := q.list ++ [h] }

/-- Set the lock of the queue. -/
def Queue.setLock (q : Queue) (l : Bool) : Queue := { q with lock := l }

/-- Write a sector. -/
def Queue.store (q : Queue) (b : ℤ) (buf : Sector) : Queue :=
  { q with disk := Function.update q.disk b buf }

/-- What `get_hd_buf` writes into a buffer it takes for block `b`. -/
def HdBuf.claim (b : ℤ) (h : HdBuf) : HdBuf :=
  { h with lock := false, blockNo := b, isDirty := false, refCount := 1 }

/-- `spin_lock(&buf_queue->lock)`. -/
def lockQueue : Prog Halt Queue Unit := do
  let q ← read
  if q.lock then halt .deadlock
  modify (·.setLock true)

/-- `spin_unlock(&buf_queue->lock)`. -/
def unlockQueue : Prog Halt Queue Unit := modify (·.setLock false)

/-- The buffer at place `i`. -/
def bufAt (i : ℕ) : Prog Halt Queue HdBuf := do
  let q ← read
  match q.list[i]? with
  | some h => return h
  | none => halt .fault

/-- `spin_lock(&hdb->lock)`. -/
def lockBuf (i : ℕ) : Prog Halt Queue Unit := do
  let h ← bufAt i
  if h.lock then halt .deadlock
  modify fun q => q.update i fun h => { h with lock := true }

/-- `spin_unlock(&hdb->lock)`. -/
def unlockBuf (i : ℕ) : Prog Halt Queue Unit := modify fun q => q.update i fun h =>
  { h with lock := false }

/-- `hd_rw`. -/
def hdRw (i : ℕ) : Prog Halt Queue Unit := do
  let h ← bufAt i
  kassert "hdb->lock == 1" h.lock
  if h.isDirty then modify (·.store h.blockNo h.buf)
  else modify fun q => q.update i fun h' => { h' with buf := q.disk h.blockNo }

/-- The place of a buffer for a block that is not in the queue: a new one at the end, or a
reused one. -/
def takeBuf (mem : HdBuf) : Prog Halt Queue ℕ := do
  let q ← read
  if q.list.length < maxHdBufs then
    modify (·.add (newHdBuf mem))
    return q.list.length
  else
    match scanFrom q.list 0 none with
    | some i => return i
    | none => halt (.panic "max_hd_bufs %u reached and cannot find any free buf!\n")

/-- A buffer is taken for block `b`, and marked so. -/
def pickBuf (mem : HdBuf) (b : ℤ) : Prog Halt Queue ℕ := do
  let i ← takeBuf mem
  modify fun q => q.update i (HdBuf.claim b)
  return i

/-- `get_hd_buf`; `mem` is the memory a new buffer is made in. -/
def getHdBuf (mem : HdBuf) (b : ℤ) : Prog Halt Queue ℕ := do
  lockQueue
  let q ← read
  unlockQueue
  match q.find b with
  | some i =>
    modify fun q => q.update i fun h => { h with refCount := h.refCount + 1 }
    lockBuf i
    return i
  | none =>
    lockQueue
    let i ← pickBuf mem b
    lockBuf i
    unlockQueue
    hdRw i
    return i

/-- One reference less to a buffer, which is written to the disk if it is dirty and has no
other. -/
def dropBuf (i : ℕ) : Prog Halt Queue Unit := do
  let h ← bufAt i
  if h.refCount ≤ 0 then halt (.panic "pid: %d trying to close not opened block %d\n")
  modify fun q => q.update i fun h => { h with refCount := h.refCount - 1 }
  let h ← bufAt i
  if h.isDirty ∧ h.refCount = 0 then
    hdRw i
    modify fun q => q.update i fun h => { h with isDirty := false }

/-- `put_hd_buf`. -/
def putHdBuf (i : ℕ) : Prog Halt Queue Unit := do
  lockQueue
  dropBuf i
  unlockBuf i
  unlockQueue

/-! ### What the pieces do -/

section

variable {q : Queue} {i : ℕ} {h : HdBuf} {f g : HdBuf → HdBuf} {E : Halt → Queue → Prop}

@[simp] theorem Queue.update_disk : (q.update i f).disk = q.disk := rfl

@[simp] theorem Queue.setLock_list {l : Bool} : (q.setLock l).list = q.list := rfl

@[simp] theorem Queue.setLock_lock {l : Bool} : (q.setLock l).lock = l := rfl

@[simp] theorem Queue.setLock_disk {l : Bool} : (q.setLock l).disk = q.disk := rfl

@[simp] theorem Queue.setLock_setLock {l l' : Bool} : (q.setLock l).setLock l' = q.setLock l' := rfl

@[simp] theorem Queue.setLock_find {l : Bool} {b : ℤ} : (q.setLock l).find b = q.find b := rfl

@[simp] theorem Queue.update_setLock {l : Bool} :
    (q.setLock l).update i f = (q.update i f).setLock l := rfl

@[simp] theorem Queue.update_store {b : ℤ} {buf : Sector} :
    (q.store b buf).update i f = (q.update i f).store b buf := rfl

@[simp] theorem Queue.update_update : (q.update i f).update i g = q.update i (g ∘ f) := by
  unfold Queue.update
  rw [List.modify_modify_eq]

theorem Queue.update_list_self (hi : q.list[i]? = some h) :
    (q.update i f).list[i]? = some (f h) := by
  simp [Queue.update, hi]

theorem Queue.update_list_ne {j : ℕ} (hj : j ≠ i) : (q.update i f).list[j]? = q.list[j]? := by
  simp [Queue.update, hj.symm]

/-- Only the value at the place counts. -/
theorem Queue.update_congr (hi : q.list[i]? = some h) (hfg : f h = g h) :
    q.update i f = q.update i g := by
  unfold Queue.update
  congr 1
  refine List.ext_getElem? fun j => ?_
  rw [List.getElem?_modify, List.getElem?_modify]
  by_cases hj : i = j
  · subst hj
    simp [hi, hfg]
  · simp [hj]

theorem Queue.add_list_self : (q.add h).list[q.list.length]? = some h := by
  simp [Queue.add]

theorem Queue.add_list_ne {j : ℕ} (hj : j ≠ q.list.length) : (q.add h).list[j]? = q.list[j]? := by
  unfold Queue.add
  rcases Nat.lt_or_gt_of_ne hj with hj | hj
  · exact List.getElem?_append_left hj
  · rw [List.getElem?_eq_none hj.le, List.getElem?_eq_none (by simpa using Nat.succ_le_of_lt hj)]

/-- No two buffers are for the same block. -/
def Queue.Distinct (q : Queue) : Prop :=
  ∀ (i j : ℕ) (h h' : HdBuf), q.list[i]? = some h → q.list[j]? = some h' → h.blockNo = h'.blockNo →
    i = j

/-- Changes that keep the block number keep the buffers distinct. -/
theorem Queue.Distinct.update (hq : q.Distinct) (hf : ∀ h, (f h).blockNo = h.blockNo) :
    (q.update i f).Distinct := by
  have hback : ∀ (j : ℕ) (h : HdBuf), (q.update i f).list[j]? = some h →
      ∃ h', q.list[j]? = some h' ∧ h'.blockNo = h.blockNo := by
    intro j h hj
    rw [Queue.update, List.getElem?_modify] at hj
    obtain ⟨h', hget, rfl⟩ := Option.map_eq_some_iff.mp hj
    refine ⟨h', hget, ?_⟩
    split
    · exact (hf h').symm
    · rfl
  intro j k h₁ h₂ h1 h2 heq
  obtain ⟨h₃, h3, heq₁⟩ := hback j h₁ h1
  obtain ⟨h₄, h4, heq₂⟩ := hback k h₂ h2
  exact hq j k h₃ h₄ h3 h4 (by rw [heq₁, heq₂, heq])

@[simp] theorem wp_lockQueue {Q : Unit → Queue → Prop} :
    wp lockQueue Q E q = if q.lock = true then E .deadlock q else Q () (q.setLock true) := by
  simp only [lockQueue, wp_bind, wp_read, wp_ite, wp_halt, wp_modify]

@[simp] theorem wp_unlockQueue {Q : Unit → Queue → Prop} :
    wp unlockQueue Q E q = Q () (q.setLock false) := rfl

theorem wp_bufAt {Q : HdBuf → Queue → Prop} (hi : q.list[i]? = some h) :
    wp (bufAt i) Q E q = Q h q := by
  simp only [bufAt, wp_bind, wp_read, hi, wp_pure]

theorem wp_lockBuf {Q : Unit → Queue → Prop} (hi : q.list[i]? = some h) (hl : h.lock = false) :
    wp (lockBuf i) Q E q = Q () (q.update i fun h => { h with lock := true }) := by
  simp [lockBuf, wp_bind, wp_bufAt hi, hl]

@[simp] theorem wp_unlockBuf {Q : Unit → Queue → Prop} :
    wp (unlockBuf i) Q E q = Q () (q.update i fun h => { h with lock := false }) := rfl

theorem wp_hdRw {Q : Unit → Queue → Prop} (hi : q.list[i]? = some h) (hl : h.lock = true) :
    wp (hdRw i) Q E q =
      if h.isDirty = true then Q () (q.store h.blockNo h.buf)
      else Q () (q.update i fun h' => { h' with buf := q.disk h.blockNo }) := by
  simp [hdRw, wp_bind, wp_bufAt hi, kassert, hl]

theorem wp_takeBuf_new {Q : ℕ → Queue → Prop} {mem : HdBuf} (hlt : q.list.length < maxHdBufs) :
    wp (takeBuf mem) Q E q = Q q.list.length (q.add (newHdBuf mem)) := by
  simp [takeBuf, hlt]

theorem wp_takeBuf_reuse {Q : ℕ → Queue → Prop} {mem : HdBuf} (hfull : ¬q.list.length < maxHdBufs)
    (hi : scanFrom q.list 0 none = some i) : wp (takeBuf mem) Q E q = Q i q := by
  simp [takeBuf, hfull, hi]

/-- A new buffer is locked and read in. -/
theorem wp_fill {Q : ℕ → Queue → Prop} {b : ℤ} (hh : q.list[i]? = some h) :
    wp (lockBuf i) (fun _ q => wp (hdRw i) (fun _ q => Q i q) E (q.setLock false)) E
        (q.update i (HdBuf.claim b)) =
      Q i ((q.update i fun h => { h.claim b with lock := true, buf := q.disk b }).setLock
        false) := by
  have hclaim : (q.update i (HdBuf.claim b)).list[i]? = some (h.claim b) :=
    Queue.update_list_self hh
  have hlocked : (((q.update i (HdBuf.claim b)).update i fun h =>
      { h with lock := true }).setLock false).list[i]? = some { h.claim b with lock := true } :=
    Queue.update_list_self hclaim
  rw [wp_lockBuf hclaim rfl, wp_hdRw hlocked rfl]
  simp only [HdBuf.claim, Bool.false_eq_true, if_false, Queue.update_setLock, Queue.update_update]
  rfl

/-- What `put_hd_buf` leaves in the buffer, but for its lock. -/
def HdBuf.drop (h : HdBuf) : HdBuf :=
  { h with refCount := h.refCount - 1, isDirty := h.isDirty && decide (h.refCount ≠ 1) }

theorem wp_dropBuf {Q : Unit → Queue → Prop} (hh : q.list[i]? = some h) (hpos : 0 < h.refCount)
    (hl : h.isDirty = true → h.refCount = 1 → h.lock = true) :
    wp (dropBuf i) Q E q =
      if h.isDirty = true ∧ h.refCount = 1 then Q () ((q.update i HdBuf.drop).store h.blockNo h.buf)
      else Q () (q.update i HdBuf.drop) := by
  have hself :=
    Queue.update_list_self (q := q) (f := fun h => { h with refCount := h.refCount - 1 }) hh
  simp only [dropBuf, wp_bind]
  rw [wp_bufAt hh]
  simp only [wp_ite, if_neg (not_le.mpr hpos), wp_modify, wp_bind]
  rw [wp_bufAt hself]
  by_cases hd : h.isDirty = true ∧ h.refCount = 1
  · have hflush : h.isDirty = true ∧ h.refCount - 1 = 0 := ⟨hd.1, by omega⟩
    rw [if_pos hd, if_pos hflush, wp_hdRw hself (hl hd.1 hd.2)]
    simp only [hd.1, if_true, Queue.update_store, Queue.update_update]
    rw [Queue.update_congr (g := HdBuf.drop) hh (by simp [HdBuf.drop, hd])]
  · have hkeep : ¬(h.isDirty = true ∧ h.refCount - 1 = 0) := fun hk => hd ⟨hk.1, by omega⟩
    rw [if_neg hd, if_neg hkeep]
    have hdirty : (h.isDirty && decide (h.refCount ≠ 1)) = h.isDirty := by
      cases hb : h.isDirty
      · rfl
      · simpa [hb] using hd
    rw [Queue.update_congr (g := HdBuf.drop) hh (by simp only [HdBuf.drop, hdirty])]
    rfl

/-- `put_hd_buf`, for a buffer that is referenced and locked. -/
theorem wp_putHdBuf {Q : Unit → Queue → Prop} (hq : q.lock = false) (hh : q.list[i]? = some h)
    (hpos : 0 < h.refCount)
    (hl : h.lock = true) :
    wp (putHdBuf i) Q E q =
      if h.isDirty = true ∧ h.refCount = 1 then
        Q () (((q.update i fun h =>
          { h.drop with lock := false }).store h.blockNo h.buf).setLock false)
      else Q () ((q.update i fun h => { h.drop with lock := false }).setLock false) := by
  simp only [putHdBuf, wp_bind, wp_lockQueue, hq, Bool.false_eq_true, if_false]
  rw [wp_dropBuf (by exact hh) hpos fun _ _ => hl]
  simp only [wp_unlockBuf, wp_unlockQueue, Queue.update_store, Queue.update_setLock,
    Queue.update_update]
  rfl

end

/-! ### The two loops -/

theorem Queue.find_some {q : Queue} {b : ℤ} {i : ℕ} (hf : q.find b = some i) :
    ∃ h, q.list[i]? = some h ∧ h.blockNo = b := by
  obtain ⟨hi, hb, -⟩ := List.findIdx?_eq_some_iff_getElem.mp hf
  exact ⟨_, List.getElem?_eq_getElem hi, of_decide_eq_true hb⟩

theorem Queue.find_none {q : Queue} {b : ℤ} (hf : q.find b = none) {i : ℕ} {h : HdBuf}
    (hi : q.list[i]? = some h) : h.blockNo ≠ b := by
  have := List.findIdx?_eq_none_iff.mp hf h (List.mem_of_getElem? hi)
  exact of_decide_eq_false this

/-- The second loop finds a free buffer if there is one. -/
theorem scanFrom_free {l : List HdBuf} (hl : ∃ h ∈ l, h.free = true) (n : ℕ) (hdb : Option ℕ) :
    ∃ i h, scanFrom l n hdb = some (n + i) ∧ l[i]? = some h ∧ h.free = true := by
  induction l generalizing n hdb with
  | nil => simp at hl
  | cons h l ih =>
    by_cases hh : h.free = true
    · exact ⟨0, h, by simp [scanFrom, hh], rfl, hh⟩
    · have htail : ∃ h' ∈ l, h'.free = true := by
        obtain ⟨h', hmem, hfree⟩ := hl
        rcases List.mem_cons.mp hmem with rfl | hmem
        · exact absurd hfree hh
        · exact ⟨h', hmem, hfree⟩
      obtain ⟨i, h', heq, hget, hfree⟩ := ih htail (n + 1) (some n)
      refine ⟨i + 1, h', ?_, hget, hfree⟩
      rw [scanFrom, if_neg hh, heq]
      congr 1
      omega

/-- The second loop ends at a buffer of a queue that is not empty. -/
theorem scanFrom_mem {l : List HdBuf} {n i : ℕ} {hdb : Option ℕ} (hi : scanFrom l n hdb = some i) :
    (l = [] ∧ hdb = some i) ∨ (n ≤ i ∧ i < n + l.length) := by
  induction l generalizing n hdb with
  | nil => exact .inl ⟨rfl, hi⟩
  | cons h l ih =>
    right
    rw [scanFrom] at hi
    rw [List.length_cons]
    split at hi
    · cases hi
      omega
    · rcases ih hi with ⟨-, heq⟩ | ⟨h1, h2⟩
      · cases heq
        omega
      · omega

/-- With no free buffer the second loop ends at the last one. -/
theorem scanFrom_full {l : List HdBuf} (hl : ∀ h ∈ l, h.free = false) (n : ℕ) (hdb : Option ℕ) :
    scanFrom l n hdb = if l = [] then hdb else some (n + l.length - 1) := by
  induction l generalizing n hdb with
  | nil => rfl
  | cons h l ih =>
    have hh : ¬h.free = true := by simp [hl h (by simp)]
    rw [scanFrom, if_neg hh, ih fun h' hmem => hl h' (by simp [hmem])]
    cases l with
    | nil => simp
    | cons _ _ => simp; omega

/-! ### One process -/

/-- A process, with the buffers it holds (the block it asked for and the buffer it was
given), and what was last put for each block. -/
structure Client where
  queue : Queue
  held : List (ℤ × ℕ)
  last : ℤ → Sector

/-- The process holds the buffer at place `i`. -/
def Client.Holds (c : Client) (i : ℕ) : Prop := ∃ b, (b, i) ∈ c.held

/-- What the process does: it asks for a block it does not hold, with fewer than
`MAX_HD_BUFS` buffers held; it changes a buffer it holds and marks it dirty; it puts a
buffer back. -/
inductive Client.Step : Client → Client → Prop where
  | get {c : Client} {mem : HdBuf} {b : ℤ} {i : ℕ} {q : Queue} (hb : ∀ i, (b, i) ∉ c.held)
      (hlt : c.held.length < maxHdBufs) (hq : getHdBuf mem b c.queue = .ok i q) :
      Step c { c with queue := q, held := (b, i) :: c.held }
  | edit {c : Client} {b : ℤ} {i : ℕ} (hi : (b, i) ∈ c.held) (buf : Sector) :
      Step c { c with queue := c.queue.update i fun h => { h with buf := buf, isDirty := true } }
  | put {c : Client} {b : ℤ} {i : ℕ} {h : HdBuf} {q : Queue} (hi : (b, i) ∈ c.held)
      (hh : c.queue.list[i]? = some h) (hq : putHdBuf i c.queue = .ok () q) :
      Step c { queue := q, held := c.held.erase (b, i), last := update c.last b h.buf }

/-- The process before its first call. -/
def Client.init (disk : ℤ → Sector) : Client := ⟨hdQueueInit disk, [], disk⟩

/-- A buffer held for block `b`: a clean one still has what was put last. -/
structure HdBuf.Held (h : HdBuf) (last : ℤ → Sector) (b : ℤ) : Prop where
  blockNo : h.blockNo = b
  refCount : h.refCount = 1
  lock : h.lock = true
  clean : h.isDirty = false → h.buf = last b

/-- A buffer nobody holds: it is free, and has what was put last. -/
structure HdBuf.Idle (h : HdBuf) (last : ℤ → Sector) : Prop where
  refCount : h.refCount = 0
  lock : h.lock = false
  clean : h.isDirty = false
  buf : h.buf = last h.blockNo

/-- The invariant of the process. -/
structure Client.Inv (c : Client) : Prop where
  unlocked : c.queue.lock = false
  length : c.queue.list.length ≤ maxHdBufs
  labels : c.queue.Distinct
  nodup : (c.held.map Prod.snd).Nodup
  held : ∀ b i, (b, i) ∈ c.held → ∃ h, c.queue.list[i]? = some h ∧ h.Held c.last b
  idle : ∀ i h, c.queue.list[i]? = some h → ¬c.Holds i → h.Idle c.last
  disk : c.queue.disk = c.last

theorem HdBuf.Idle.free {h : HdBuf} {last : ℤ → Sector} (hh : h.Idle last) : h.free = true := by
  simp [HdBuf.free, hh.refCount, hh.lock, hh.clean]

theorem Client.init_inv (disk : ℤ → Sector) : (Client.init disk).Inv where
  unlocked := rfl
  length := by simp [Client.init, hdQueueInit]
  labels := by simp [Client.init, hdQueueInit, Queue.Distinct]
  nodup := List.nodup_nil
  held := by simp [Client.init]
  idle := by simp [Client.init, hdQueueInit]
  disk := rfl

section

variable {c : Client} {q : Queue} {b : ℤ} {i : ℕ} {h : HdBuf}

/-- A buffer nobody held is given to the process for block `b`: the invariant is kept if
the rest of the queue is as before and has no other buffer for `b`. -/
theorem Client.Inv.take (hc : c.Inv) (hi : ¬c.Holds i) (hh : q.list[i]? = some h)
    (hheld : h.Held c.last b) (hlock : q.lock = false) (hdisk : q.disk = c.queue.disk)
    (hlen : q.list.length ≤ maxHdBufs) (hrest : ∀ j, j ≠ i → q.list[j]? = c.queue.list[j]?)
    (hb : ∀ j h', j ≠ i → c.queue.list[j]? = some h' → h'.blockNo ≠ b) :
    ({ c with queue := q, held := (b, i) :: c.held } : Client).Inv where
  unlocked := hlock
  length := hlen
  labels := by
    intro j k h₁ h₂ h1 h2 heq
    dsimp only at h1 h2
    by_cases hj : j = i <;> by_cases hk : k = i
    · rw [hj, hk]
    · subst hj
      cases hh.symm.trans h1
      rw [hrest k hk] at h2
      exact absurd (heq.symm.trans hheld.blockNo) (hb k h₂ hk h2)
    · subst hk
      cases hh.symm.trans h2
      rw [hrest j hj] at h1
      exact absurd (heq.trans hheld.blockNo) (hb j h₁ hj h1)
    · rw [hrest j hj] at h1
      rw [hrest k hk] at h2
      exact hc.labels j k h₁ h₂ h1 h2 heq
  nodup := by
    refine List.nodup_cons.mpr ⟨?_, hc.nodup⟩
    intro hmem
    obtain ⟨⟨b', i'⟩, hmem', rfl⟩ := List.mem_map.mp hmem
    exact hi ⟨b', hmem'⟩
  held := by
    intro b' j hmem
    rcases List.mem_cons.mp hmem with heq | hmem'
    · cases heq
      exact ⟨h, hh, hheld⟩
    · have hj : j ≠ i := by
        rintro rfl
        exact hi ⟨b', hmem'⟩
      obtain ⟨h', hget, hheld'⟩ := hc.held b' j hmem'
      exact ⟨h', (hrest j hj).trans hget, hheld'⟩
  idle := by
    intro j h' hget hj
    have hji : j ≠ i := by
      rintro rfl
      exact hj ⟨b, by simp⟩
    refine hc.idle j h' ((hrest j hji).symm.trans hget) ?_
    rintro ⟨b', hmem⟩
    exact hj ⟨b', by simp [hmem]⟩
  disk := hdisk.trans hc.disk

/-- With fewer than `MAX_HD_BUFS` buffers held, a full queue has one nobody holds. -/
theorem Client.Inv.exists_idle (hc : c.Inv) (hlt : c.held.length < maxHdBufs)
    (hfull : ¬c.queue.list.length < maxHdBufs) : ∃ h ∈ c.queue.list, h.free = true := by
  have hcard : (c.held.map Prod.snd).toFinset.card < (Finset.range maxHdBufs).card := by
    calc (c.held.map Prod.snd).toFinset.card
        ≤ (c.held.map Prod.snd).length := List.toFinset_card_le _
      _ < (Finset.range maxHdBufs).card := by simpa using hlt
  obtain ⟨i, hi, hnot⟩ := Finset.exists_mem_notMem_of_card_lt_card hcard
  have hlen : i < c.queue.list.length := by
    have := Finset.mem_range.mp hi
    omega
  refine ⟨c.queue.list[i], List.getElem_mem hlen,
    (hc.idle i _ (List.getElem?_eq_getElem hlen) ?_).free⟩
  rintro ⟨b, hmem⟩
  exact hnot (List.mem_toFinset.mpr (List.mem_map.mpr ⟨(b, i), hmem, rfl⟩))

/-- A free buffer is not held. -/
theorem Client.Inv.not_holds (hc : c.Inv) (hh : c.queue.list[i]? = some h) (hfree : h.free = true) :
    ¬c.Holds i := by
  rintro ⟨b, hmem⟩
  obtain ⟨h', hget, hheld⟩ := hc.held b i hmem
  cases hh.symm.trans hget
  simp [HdBuf.free, hheld.lock] at hfree

/-- The invariant after a call that changed only place `i` of the queue, for a buffer nobody held.
-/
theorem Client.Inv.take_update (hc : c.Inv) {f : HdBuf → HdBuf} (hi : ¬c.Holds i)
    (hh : c.queue.list[i]? = some h) (hheld : (f h).Held c.last b)
    (hb : ∀ j h', j ≠ i → c.queue.list[j]? = some h' → h'.blockNo ≠ b) :
    ({ c with queue := (c.queue.update i f).setLock false, held := (b, i) :: c.held } :
      Client).Inv :=
  hc.take hi (Queue.update_list_self hh) hheld rfl rfl (by simpa [Queue.update] using hc.length)
    (fun _ hj => Queue.update_list_ne hj) hb

/-- `get_hd_buf` gives a clean buffer of the block, locked, with what was put last. -/
def Client.Given (c : Client) (b : ℤ) (i : ℕ) (q : Queue) : Prop :=
  (∃ h, q.list[i]? = some h ∧ h.Held c.last b ∧ h.isDirty = false) ∧
    ({ c with queue := q, held := (b, i) :: c.held } : Client).Inv

theorem Client.Inv.get_found (hc : c.Inv) (hb : ∀ i, (b, i) ∉ c.held) (mem : HdBuf)
    (hf : c.queue.find b = some i) :
    wp (getHdBuf mem b) (c.Given b) (fun _ _ => False) c.queue := by
  obtain ⟨h, hh, hlabel⟩ := Queue.find_some hf
  have hi : ¬c.Holds i := by
    rintro ⟨b', hmem⟩
    obtain ⟨h', hget, hheld⟩ := hc.held b' i hmem
    cases hh.symm.trans hget
    rw [← hheld.blockNo, hlabel] at hmem
    exact hb i hmem
  have hidle := hc.idle i h hh hi
  have hheld : HdBuf.Held { h with refCount := h.refCount + 1, lock := true } c.last b :=
    ⟨hlabel, by simp [hidle.refCount], rfl, fun _ => hlabel ▸ hidle.buf⟩
  have hother : ∀ j h', j ≠ i → c.queue.list[j]? = some h' → h'.blockNo ≠ b := by
    intro j h' hj hget heq
    exact hj (hc.labels j i h' h hget hh (heq.trans hlabel.symm))
  simp only [getHdBuf, wp_bind, wp_lockQueue, hc.unlocked, Bool.false_eq_true, if_false, wp_read,
    wp_unlockQueue, Queue.setLock_find, hf, wp_modify, Queue.setLock_setLock]
  rw [wp_lockBuf (Queue.update_list_self (q := c.queue.setLock false) hh) hidle.lock, wp_pure,
    Queue.update_setLock, Queue.update_setLock, Queue.update_update]
  exact ⟨⟨_, Queue.update_list_self hh, hheld, hidle.clean⟩, hc.take_update hi hh hheld hother⟩

/-- A block that is not in the queue. -/
theorem wp_getHdBuf_miss {Q : ℕ → Queue → Prop} {E : Halt → Queue → Prop} {mem : HdBuf}
    (hq : q.lock = false) (hf : q.find b = none) :
    wp (getHdBuf mem b) Q E q = wp (takeBuf mem) (fun i q₁ => wp (lockBuf i) (fun _ q₂ =>
      wp (hdRw i) (fun _ q₃ => Q i q₃) E (q₂.setLock false)) E (q₁.update i (HdBuf.claim b))) E
        (q.setLock true) := by
  simp only [getHdBuf, wp_bind, wp_lockQueue, hq, Bool.false_eq_true, if_false, wp_read,
    wp_unlockQueue, Queue.setLock_find, hf, Queue.setLock_lock, Queue.setLock_setLock, pickBuf,
    wp_modify, wp_pure]

theorem Client.Inv.get_missing (hc : c.Inv) (hlt : c.held.length < maxHdBufs) (mem : HdBuf)
    (hf : c.queue.find b = none) : wp (getHdBuf mem b) (c.Given b) (fun _ _ => False) c.queue := by
  have hother : ∀ (j : ℕ) (h' : HdBuf), c.queue.list[j]? = some h' → h'.blockNo ≠ b :=
    fun j h' => Queue.find_none hf
  rw [wp_getHdBuf_miss hc.unlocked hf]
  have hheld : ∀ h : HdBuf,
    HdBuf.Held { h.claim b with lock := true, buf := c.queue.disk b } c.last b :=
    fun h => ⟨rfl, rfl, rfl, fun _ => congrFun hc.disk b⟩
  by_cases hlen : c.queue.list.length < maxHdBufs
  · have hnew : (c.queue.add (newHdBuf mem)).list[c.queue.list.length]? = some (newHdBuf mem) :=
      Queue.add_list_self
    have hi : ¬c.Holds c.queue.list.length := by
      rintro ⟨b', hmem⟩
      obtain ⟨h, hget, -⟩ := hc.held b' _ hmem
      simp at hget
    rw [wp_takeBuf_new (by exact hlen), wp_fill (by exact hnew)]
    refine ⟨⟨_, Queue.update_list_self hnew, hheld _, rfl⟩, ?_⟩
    refine hc.take hi (Queue.update_list_self hnew) (hheld _) rfl rfl ?_ ?_
      fun j h' _ => hother j h'
    · simpa [Queue.update, Queue.add] using Nat.succ_le_of_lt hlen
    · intro j hj
      exact (Queue.update_list_ne hj).trans (Queue.add_list_ne hj)
  · obtain ⟨i, h, hscan, hh, hfree⟩ := scanFrom_free (hc.exists_idle hlt hlen) 0 none
    rw [Nat.zero_add] at hscan
    rw [wp_takeBuf_reuse (by exact hlen) (by exact hscan), wp_fill (by exact hh)]
    exact ⟨⟨_, Queue.update_list_self hh, hheld _, rfl⟩,
      hc.take_update (hc.not_holds hh hfree) hh (hheld _) fun j h' _ => hother j h'⟩

theorem Client.Inv.get_spec (hc : c.Inv) (hb : ∀ i, (b, i) ∉ c.held)
    (hlt : c.held.length < maxHdBufs)
    (mem : HdBuf) : wp (getHdBuf mem b) (c.Given b) (fun _ _ => False) c.queue := by
  cases hf : c.queue.find b with
  | some i => exact hc.get_found hb mem hf
  | none => exact hc.get_missing hlt mem hf

/-- Changing a held buffer and marking it dirty. -/
theorem Client.Inv.edit (hc : c.Inv) (hi : (b, i) ∈ c.held) (buf : Sector) :
    ({ c with queue := c.queue.update i fun h => { h with buf := buf, isDirty := true } } :
      Client).Inv := by
  obtain ⟨h, hh, hheld⟩ := hc.held b i hi
  have hself : (c.queue.update i fun h => { h with buf := buf, isDirty := true }).list[i]? =
      some { h with buf := buf, isDirty := true } := Queue.update_list_self hh
  refine ⟨hc.unlocked, by simpa [Queue.update] using hc.length, hc.labels.update fun _ => rfl,
    hc.nodup, ?_, ?_,
    hc.disk⟩
  · intro b' j hmem
    obtain ⟨h', hget, hheld'⟩ := hc.held b' j hmem
    by_cases hj : j = i
    · subst hj
      cases hh.symm.trans hget
      exact ⟨_, hself, ⟨hheld'.blockNo, hheld'.refCount, hheld'.lock, nofun⟩⟩
    · exact ⟨h', (Queue.update_list_ne hj).trans hget, hheld'⟩
  · intro j h' hget hj
    have hji : j ≠ i := by
      rintro rfl
      exact hj ⟨b, hi⟩
    exact hc.idle j h' ((Queue.update_list_ne hji).symm.trans hget) hj

/-- A buffer is held once. -/
theorem Client.Inv.notMem_erase (hc : c.Inv) (hi : (b, i) ∈ c.held) (b' : ℤ) :
    (b', i) ∉ c.held.erase (b, i) := by
  intro hmem
  obtain ⟨hne, hmem⟩ := (hc.nodup.of_map Prod.snd).mem_erase_iff.mp hmem
  exact hne (List.inj_on_of_nodup_map hc.nodup hmem hi rfl)

/-- A held buffer is put back, clean and with the disk up to date. -/
theorem Client.Inv.release (hc : c.Inv) (hi : (b, i) ∈ c.held) {f : HdBuf → HdBuf} {buf : Sector}
    (hlabel : ∀ h, (f h).blockNo = h.blockNo)
    (hidle : ∀ h, c.queue.list[i]? = some h → (f h).Idle (update c.last b buf))
    (hlock : q.lock = false) (hdisk : q.disk = update c.last b buf)
    (hlist : q.list = (c.queue.update i f).list) :
    ({ queue := q, held := c.held.erase (b, i), last := update c.last b buf } : Client).Inv := by
  obtain ⟨h, hh, hheld⟩ := hc.held b i hi
  have hother : ∀ (j : ℕ) (h' : HdBuf), j ≠ i → c.queue.list[j]? = some h' → h'.blockNo ≠ b := by
    intro j h' hj hget heq
    exact hj (hc.labels j i h' h hget hh (heq.trans hheld.blockNo.symm))
  refine ⟨hlock, ?_, ?_, hc.nodup.sublist (List.erase_sublist.map _), ?_, ?_, hdisk⟩
  · rw [hlist]
    simpa [Queue.update] using hc.length
  · rw [Queue.Distinct, hlist]
    exact hc.labels.update hlabel
  · intro b' j hmem
    have hji : j ≠ i := by
      rintro rfl
      exact hc.notMem_erase hi b' hmem
    obtain ⟨h', hget, hheld'⟩ := hc.held b' j (List.mem_of_mem_erase hmem)
    refine ⟨h', ?_, ⟨hheld'.blockNo, hheld'.refCount, hheld'.lock, fun hclean => ?_⟩⟩
    · rw [hlist, Queue.update_list_ne hji, hget]
    · have hb : b' ≠ b := hheld'.blockNo ▸ hother j h' hji hget
      rw [hheld'.clean hclean]
      exact (update_of_ne hb _ _).symm
  · intro j h' hget hj
    rw [hlist] at hget
    by_cases hji : j = i
    · subst hji
      cases (Queue.update_list_self hh).symm.trans hget
      exact hidle h hh
    · rw [Queue.update_list_ne hji] at hget
      have hidle' :=
        hc.idle j h' hget fun ⟨b', hmem⟩ => hj ⟨b', (List.mem_erase_of_ne (by simp [hji])).mpr hmem⟩
      refine ⟨hidle'.refCount, hidle'.lock, hidle'.clean, ?_⟩
      rw [hidle'.buf]
      exact (update_of_ne (hother j h' hji hget) _ _).symm

theorem Client.Inv.put_spec (hc : c.Inv) (hi : (b, i) ∈ c.held) (hh : c.queue.list[i]? = some h) :
    wp (putHdBuf i)
      (fun _ q => ({ queue := q, held := c.held.erase (b, i), last := update c.last b h.buf } :
        Client).Inv)
      (fun _ _ => False) c.queue := by
  obtain ⟨h', hget, hheld⟩ := hc.held b i hi
  cases hh.symm.trans hget
  rw [wp_putHdBuf hc.unlocked hh (by simp [hheld.refCount]) hheld.lock]
  have hidle : ∀ h', c.queue.list[i]? = some h' →
      HdBuf.Idle { h'.drop with lock := false } (update c.last b h.buf) := by
    intro h' hget
    cases hh.symm.trans hget
    refine ⟨by simp [HdBuf.drop, hheld.refCount], rfl, by simp [HdBuf.drop, hheld.refCount], ?_⟩
    simp [HdBuf.drop, hheld.blockNo]
  split
  case isTrue hd =>
    refine hc.release (f := fun h => { h.drop with lock := false }) hi
      (fun _ => rfl) hidle rfl ?_ rfl
    simp only [Queue.setLock_disk, Queue.store, Queue.update_disk, hc.disk, hheld.blockNo]
  case isFalse hd =>
    have hclean : h.isDirty = false := by
      simpa [hheld.refCount] using hd
    refine hc.release (f := fun h => { h.drop with lock := false }) hi
      (fun _ => rfl) hidle rfl ?_ rfl
    rw [hheld.clean hclean, update_eq_self]
    exact hc.disk

end

/-- The invariant holds in every state of the process. -/
theorem Client.inv_of_reach {disk : ℤ → Sector} {c : Client}
    (hc : Reach Client.Step (Client.init disk) c) : c.Inv := by
  refine Reach.invariant ?_ (Client.init_inv disk) hc
  intro c c' hinv hstep
  cases hstep with
  | get hb hlt hq => exact ((hinv.get_spec hb hlt _).ok hq).2
  | edit hi buf => exact hinv.edit hi buf
  | put hi hh hq => exact (hinv.put_spec hi hh).ok hq

/-- **The buffers refine the disk**: in every state of a process that asks only for blocks
it does not hold and holds fewer than `MAX_HD_BUFS` buffers, `get_hd_buf` returns a
buffer of the block it is asked for, locked, with what was put last for the block
(at first, what was on the disk); every held buffer can be put back; and the disk has what
was put last. -/
theorem buffers_refine_disk (disk : ℤ → Sector) (c : Client)
    (hc : Reach Client.Step (Client.init disk) c) :
    (∀ mem b, (∀ i, (b, i) ∉ c.held) → c.held.length < maxHdBufs →
      ∃ i q h, getHdBuf mem b c.queue = .ok i q ∧ q.list[i]? = some h ∧ h.blockNo = b ∧
        h.lock = true ∧
        h.buf = c.last b) ∧
    (∀ b i, (b, i) ∈ c.held → ∃ q, putHdBuf i c.queue = .ok () q) ∧
    c.queue.disk = c.last := by
  have hinv := Client.inv_of_reach hc
  refine ⟨fun mem b hb hlt => ?_, fun b i hi => ?_, hinv.disk⟩
  · obtain ⟨i, q, hq, ⟨h, hh, hheld, hclean⟩, -⟩ := (hinv.get_spec hb hlt mem).returns
    exact ⟨i, q, h, hq, hh, hheld.blockNo, hheld.lock, hheld.clean hclean⟩
  · obtain ⟨h, hh, -⟩ := hinv.held b i hi
    obtain ⟨_, q, hq, -⟩ := (hinv.put_spec hi hh).returns
    exact ⟨q, hq⟩

/-- A sector of equal bytes. -/
def constSector (x : UInt8) : Sector := Vector.replicate 512 x

/-- The queue after block 7 was read in from a disk of zeros, changed to ones and put back. -/
def oneBlock : Queue :=
  ⟨[⟨7, false, 0, false, constSector 1⟩], false, update (fun _ => constSector 0) 7 (constSector 1)⟩

/-- Block 7 is read again after ones were put for it. -/
theorem buffers_refine_disk_again :
    Reach Client.Step (Client.init fun _ => constSector 0) ⟨oneBlock, [], oneBlock.disk⟩ ∧
      ∃ i q h, getHdBuf ⟨0, false, 0, false, constSector 0⟩ 7 oneBlock = .ok i q ∧
        q.list[i]? = some h ∧
        h.blockNo = 7 ∧ h.lock = true ∧ h.buf = oneBlock.disk 7 := by
  have hget : Client.Step (Client.init fun _ => constSector 0)
      ⟨⟨[⟨7, false, 1, true, constSector 0⟩], false, fun _ => constSector 0⟩,
        [(7, 0)], fun _ => constSector 0⟩ :=
    .get (fun _ => List.not_mem_nil) (by decide)
      (show getHdBuf ⟨0, false, 0, false, constSector 0⟩ 7 (hdQueueInit fun _ => constSector 0) =
        .ok 0 _ from rfl)
  have hedit : Client.Step
      ⟨⟨[⟨7, false, 1, true, constSector 0⟩], false, fun _ => constSector 0⟩,
        [(7, 0)], fun _ => constSector 0⟩
      ⟨⟨[⟨7, true, 1, true, constSector 1⟩], false, fun _ => constSector 0⟩,
        [(7, 0)], fun _ => constSector 0⟩ :=
    .edit (b := 7) (i := 0) List.mem_cons_self (constSector 1)
  have hput : Client.Step
      ⟨⟨[⟨7, true, 1, true, constSector 1⟩], false, fun _ => constSector 0⟩,
        [(7, 0)], fun _ => constSector 0⟩
      ⟨oneBlock, [(7, 0)].erase (7, 0), update (fun _ => constSector 0) 7 (constSector 1)⟩ :=
    .put (h := ⟨7, true, 1, true, constSector 1⟩) List.mem_cons_self rfl rfl
  have hreach :
    Reach Client.Step (Client.init fun _ => constSector 0) ⟨oneBlock, [], oneBlock.disk⟩ :=
    ((Relation.ReflTransGen.single hget).tail hedit).tail hput
  exact ⟨hreach, (buffers_refine_disk _ _ hreach).1 _ 7 (fun _ => List.not_mem_nil) (by decide)⟩

end Cosiris.Hd
