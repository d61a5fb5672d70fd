import Cosiris.Hd.Queue
import Mathlib.Algebra.BigOperators.Ring.Finset
import Mathlib.Data.Fintype.Basic

/-!
# Sharing the disk buffers

`get_hd_buf` and `put_hd_buf` again, now cut at every operation on
`buf_queue->lock` and `hdb->lock`, with a switch to another process possible
between any two pieces. The search for a block, the new reference to what it
found, and the insertion of a new buffer are separate pieces: two processes that
miss the same block insert it twice (`block_in_two_buffers`), and a buffer can be
reused between being found and being referenced, or when none is free.

If no buffer is taken in these ways, the buffers stay distinct, and what
`get_hd_buf` returns is the caller's alone.
-/

namespace Cosiris.Hd

open Function Prog

/-- The next piece of code of a process. -/
inductive Pc where
  /-- Outside both functions. -/
  | out
  /-- `get_hd_buf`, at its first `spin_lock`. -/
  | look (b : ℤ)
  /-- `get_hd_buf`, at the search for the block. -/
  | search (b : ℤ)
  /-- `get_hd_buf`, at the `spin_unlock` after the search. -/
  | leave (b : ℤ) (hdb : Option ℕ)
  /-- `get_hd_buf`, at `hdb->ref_count++`. -/
  | refer (b : ℤ) (i : ℕ)
  /-- `get_hd_buf`, at the `spin_lock` of the buffer it found. -/
  | wait (b : ℤ) (i : ℕ)
  /-- `get_hd_buf`, at its second `spin_lock`. -/
  | miss (b : ℤ)
  /-- `get_hd_buf`, at the choice of a buffer for the block. -/
  | pick (b : ℤ)
  /-- `get_hd_buf`, at the `spin_lock` of the buffer it took. -/
  | own (b : ℤ) (i : ℕ)
  /-- `get_hd_buf`, at its last `spin_unlock`. -/
  | unlock (b : ℤ) (i : ℕ)
  /-- `get_hd_buf`, at `hd_rw`. -/
  | fill (b : ℤ) (i : ℕ)
  /-- `get_hd_buf(b)` has returned the buffer at `i`. -/
  | returned (b : ℤ) (i : ℕ)
  /-- `put_hd_buf`, at `spin_lock`. -/
  | pLock (i : ℕ)
  /-- `put_hd_buf`, in its critical section. -/
  | pDrop (i : ℕ)
  /-- `put_hd_buf`, at the `spin_unlock` of the buffer. -/
  | pFree (i : ℕ)
  /-- `put_hd_buf`, at its last `spin_unlock`. -/
  | pUnlock
  deriving DecidableEq

/-- A piece of code, and the piece that follows it. A lock that is taken, or a panic, leaves
the process where it is. -/
def Pc.next (mem : HdBuf) : Pc → Prog Halt Queue Pc
  | .look b => do lockQueue; return .search b
  | .search b => do let q ← read; return .leave b (q.find b)
  | .leave b (some i) => do unlockQueue; return .refer b i
  | .leave b none => do unlockQueue; return .miss b
  | .refer b i =>
      do modify fun q => q.update i fun h => { h with refCount := h.refCount + 1 }; return .wait b i
  | .wait b i => do lockBuf i; return .returned b i
  | .miss b => do lockQueue; return .pick b
  | .pick b => do let i ← pickBuf mem b; return .own b i
  | .own b i => do lockBuf i; return .unlock b i
  | .unlock b i => do unlockQueue; return .fill b i
  | .fill b i => do hdRw i; return .returned b i
  | .pLock i => do lockQueue; return .pDrop i
  | .pDrop i => do dropBuf i; return .pFree i
  | .pFree i => do unlockBuf i; return .pUnlock
  | .pUnlock => do unlockQueue; return .out
  | .out => return .out
  | .returned b i => return .returned b i

/-- The pieces of a call, one after the other. -/
def Pc.pieces (mem : HdBuf) : ℕ → Pc → Prog Halt Queue Pc
  | 0, pc => return pc
  | n + 1, pc => do Pc.pieces mem n (← pc.next mem)

theorem getHdBuf_eq_pieces (mem : HdBuf) (b : ℤ) :
    Pc.returned b <$> getHdBuf mem b = Pc.pieces mem 8 (.look b) := by
  simp only [getHdBuf, Pc.pieces, Pc.next, map_eq_pure_bind, bind_assoc, pure_bind, bind_pure]
  refine bind_congr fun _ => bind_congr fun q => ?_
  cases q.find b with
  | none => simp
  | some i => simp

theorem putHdBuf_eq_pieces (mem : HdBuf) (i : ℕ) :
    (fun _ => Pc.out) <$> putHdBuf i = Pc.pieces mem 4 (.pLock i) := by
  simp only [putHdBuf, Pc.pieces, Pc.next, map_eq_pure_bind, bind_assoc, pure_bind, bind_pure]

/-- A process: where it is, and the buffers it holds. -/
structure Proc where
  pc : Pc
  held : List ℕ

/-- The processes, and the queue they share. -/
structure Sched (ι : Type*) where
  queue : Queue
  proc : ι → Proc

/-- The queue is empty and no process is in either function. -/
def Sched.start (ι : Type*) (disk : ℤ → Sector) : Sched ι := ⟨hdQueueInit disk, fun _ => ⟨.out, []⟩⟩

variable {ι : Type*} [DecidableEq ι]

/-- The queue, and process `p`, have become `q` and `l`. -/
def Sched.move (s : Sched ι) (p : ι) (q : Queue) (l : Proc) : Sched ι := ⟨q, update s.proc p l⟩

/-- Process `p` takes a step: it calls one of the functions, executes a piece of it, goes on
with the buffer it was given, or changes a buffer it holds. It puts only buffers it
holds. -/
inductive Sched.Step (p : ι) : Sched ι → Sched ι → Prop where
  | callGet {s : Sched ι} (b : ℤ) (hp : (s.proc p).pc = .out) :
      Step p s (s.move p s.queue ⟨.look b, (s.proc p).held⟩)
  | callPut {s : Sched ι} {i : ℕ} (hp : (s.proc p).pc = .out) (hi : i ∈ (s.proc p).held) :
      Step p s (s.move p s.queue ⟨.pLock i, (s.proc p).held.erase i⟩)
  | piece {s : Sched ι} {mem : HdBuf} {pc : Pc} {q : Queue}
      (hq : (s.proc p).pc.next mem s.queue = .ok pc q) :
      Step p s (s.move p q ⟨pc, (s.proc p).held⟩)
  | keep {s : Sched ι} {b : ℤ} {i : ℕ} (hp : (s.proc p).pc = .returned b i) :
      Step p s (s.move p s.queue ⟨.out, i :: (s.proc p).held⟩)
  | edit {s : Sched ι} {i : ℕ} (hp : (s.proc p).pc = .out) (hi : i ∈ (s.proc p).held)
      (buf : Sector) :
      Step p s (s.move p
        (s.queue.update i fun h => { h with buf := buf, isDirty := true }) (s.proc p))

/-- Any process takes a step. -/
def Sched.AnyStep (s t : Sched ι) : Prop := ∃ p, Sched.Step p s t

/-- The place of the buffer that the next choice takes. -/
def Queue.place (q : Queue) : Option ℕ :=
  if q.list.length < maxHdBufs then some q.list.length else scanFrom q.list 0 none

/-- Process `p`, if it is about to take a buffer for block `b`, takes no other buffer's place:
no other buffer is for `b`, and one that is reused is free and no process has found it
for another block without having referred to it yet. -/
def Sched.Clean (s : Sched ι) (p : ι) : Prop :=
  ∀ b i, (s.proc p).pc = .pick b → s.queue.place = some i →
    (∀ j h, s.queue.list[j]? = some h → h.blockNo = b → j = i) ∧
    (∀ h, s.queue.list[i]? = some h → h.free = true) ∧
    ∀ r b', (s.proc r).pc = .refer b' i → b' = b

/-- Any process takes a step, and no buffer is taken that is not free to take. -/
def Sched.CleanStep (s t : Sched ι) : Prop := ∃ p, s.Clean p ∧ Sched.Step p s t

/-- The process has locked the buffer at `i`. -/
def Pc.owns : Pc → Option ℕ
  | .unlock _ i | .fill _ i | .returned _ i | .pLock i | .pDrop i | .pFree i => some i
  | _ => none

/-- How often the process has locked the buffer at `i`. -/
def Proc.owns (l : Proc) (i : ℕ) : ℕ := l.held.count i + if l.pc.owns = some i then 1 else 0

/-- **Buffers are their holders' alone**: they are for distinct blocks, and what `get_hd_buf`
returned is for the block it was asked for, locked, and locked by no other process. -/
structure Sched.Good (s : Sched ι) : Prop where
  distinct : s.queue.Distinct
  returned : ∀ p b i, (s.proc p).pc = .returned b i →
    ∃ h, s.queue.list[i]? = some h ∧ h.blockNo = b ∧ h.lock = true ∧ (s.proc p).owns i = 1 ∧
      ∀ r, r ≠ p → (s.proc r).owns i = 0

/-! ### The invariant -/

/-- The process holds `buf_queue->lock`. -/
def Pc.crit : Pc → Bool
  | .search _ | .leave _ _ | .pick _ | .own _ _ | .unlock _ _ | .pDrop _ | .pFree _
  | .pUnlock => true
  | _ => false

/-- The process works on the buffer at a place for a block. -/
def Pc.names : Pc → Option (ℤ × ℕ)
  | .leave b (some i) | .refer b i | .wait b i | .own b i | .unlock b i | .fill b i
  | .returned b i => some (b, i)
  | _ => none

/-- The process is counted among the references of the buffer at `i`. -/
def Pc.uses : Pc → Option ℕ
  | .wait _ i | .own _ i | .unlock _ i | .fill _ i | .returned _ i | .pLock i | .pDrop i => some i
  | _ => none

/-- How often the process is counted among the references of the buffer at `i`. -/
def Proc.uses (l : Proc) (i : ℕ) : ℕ := l.held.count i + if l.pc.uses = some i then 1 else 0

/-- The references of the buffer at `i`. -/
def Queue.refs (q : Queue) (i : ℕ) : ℤ := (q.list[i]?).elim 0 (·.refCount)

/-- `1` if the buffer at `i` is locked. -/
def Queue.locks (q : Queue) (i : ℕ) : ℕ := (q.list[i]?).elim 0 fun h => if h.lock then 1 else 0

variable [Fintype ι]

/-- What holds in every run: the lock of the queue excludes; the buffers are distinct, and
each process works on a buffer of its block; references and locks are counted. -/
structure Sched.Inv (s : Sched ι) : Prop where
  locked : ∀ p, (s.proc p).pc.crit = true → s.queue.lock = true
  excl : ∀ p r, (s.proc p).pc.crit = true → (s.proc r).pc.crit = true → p = r
  distinct : s.queue.Distinct
  names : ∀ p b i, (s.proc p).pc.names = some (b, i) →
      ∃ h, s.queue.list[i]? = some h ∧ h.blockNo = b
  refs : ∀ i, s.queue.refs i = ∑ p, ((s.proc p).uses i : ℤ)
  locks : ∀ i, s.queue.locks i = ∑ p, (s.proc p).owns i

omit [DecidableEq ι] in
theorem Sched.start_inv (disk : ℤ → Sector) : (Sched.start ι disk).Inv where
  locked := by simp [Sched.start, Pc.crit]
  excl := by simp [Sched.start, Pc.crit]
  distinct := by simp [Queue.Distinct, Sched.start, hdQueueInit]
  names := by simp [Sched.start, Pc.names]
  refs := by simp [Sched.start, Queue.refs, hdQueueInit, Proc.uses, Pc.uses]
  locks := by simp [Sched.start, Queue.locks, hdQueueInit, Proc.owns, Pc.owns]

/-- A sum over all processes when one of them changes. -/
theorem sum_update {M : Type*} [AddCommMonoid M] (f : Proc → M) (g : ι → Proc) (p : ι) (l : Proc) :
    ∑ r, f (update g p l r) + f (g p) = ∑ r, f (g r) + f l := by
  rw [← Finset.add_sum_erase _ _ (Finset.mem_univ p),
    ← Finset.add_sum_erase _ (fun r => f (g r)) (Finset.mem_univ p)]
  have hrest : ∑ r ∈ Finset.univ.erase p, f (update g p l r) = ∑ r ∈ Finset.univ.erase p, f (g r) :=
    Finset.sum_congr rfl fun r hr => by rw [update_of_ne (Finset.ne_of_mem_erase hr)]
  rw [hrest, update_self, add_comm (f l), add_comm (f (g p)), add_right_comm]

section

variable {s : Sched ι} {p : ι} {q : Queue} {l : Proc} {i : ℕ} {h : HdBuf} {f : HdBuf → HdBuf}

/-- The queue's lock is taken when it was free, kept, or given up. -/
def LockMoves (pc pc' : Pc) (q q' : Queue) : Prop :=
  (q.lock = false ∧ q'.lock = true) ∨ (pc.crit = pc'.crit ∧ q'.lock = q.lock) ∨
    (pc.crit = true ∧ pc'.crit = false)

/-- A process moves: the invariant is kept if the lock of the queue, the names, the
references and the locks follow. -/
theorem Sched.Inv.move (hs : s.Inv) (hlock : LockMoves (s.proc p).pc l.pc s.queue q)
    (hdist : q.Distinct)
    (hself : ∀ b i, l.pc.names = some (b, i) → ∃ h, q.list[i]? = some h ∧ h.blockNo = b)
    (hother : ∀ r b i, r ≠ p → (s.proc r).pc.names = some (b, i) → ∃ h, q.list[i]? = some h ∧
      h.blockNo = b)
    (hrefs : ∀ i, q.refs i + (s.proc p).uses i = s.queue.refs i + l.uses i)
    (hlocks : ∀ i, q.locks i + (s.proc p).owns i = s.queue.locks i + l.owns i) :
    (s.move p q l).Inv where
  locked := by
    intro r hr
    unfold Sched.move at hr
    by_cases hrp : r = p
    · subst hrp
      have := hs.locked r
      simp only [update_self] at hr
      unfold LockMoves at hlock
      show q.lock = true
      grind
    · simp only [update_of_ne hrp] at hr
      have := hs.locked r hr
      have := hs.excl r p hr
      unfold LockMoves at hlock
      show q.lock = true
      grind
  excl := by
    intro r r' hr hr'
    unfold Sched.move at hr hr'
    by_cases hrp : r = p <;> by_cases hrp' : r' = p
    · rw [hrp, hrp']
    · subst hrp
      simp only [update_self, update_of_ne hrp'] at hr hr'
      have := hs.locked r' hr'
      have := hs.excl r' r hr'
      unfold LockMoves at hlock
      grind
    · subst hrp'
      simp only [update_self, update_of_ne hrp] at hr hr'
      have := hs.locked r hr
      have := hs.excl r r' hr
      unfold LockMoves at hlock
      grind
    · simp only [update_of_ne hrp, update_of_ne hrp'] at hr hr'
      exact hs.excl r r' hr hr'
  distinct := hdist
  names := by
    intro r b i hr
    unfold Sched.move at hr ⊢
    by_cases hrp : r = p
    · subst hrp
      simp only [update_self] at hr
      exact hself b i hr
    · simp only [update_of_ne hrp] at hr
      exact hother r b i hrp hr
  refs := by
    intro i
    have hsum := sum_update (fun l => (l.uses i : ℤ)) s.proc p l
    have := hrefs i
    have := hs.refs i
    show q.refs i = ∑ r, ((update s.proc p l r).uses i : ℤ)
    omega
  locks := by
    intro i
    have hsum := sum_update (fun l => l.owns i) s.proc p l
    have := hlocks i
    have := hs.locks i
    show q.locks i = ∑ r, (update s.proc p l r).owns i
    omega

/-- A process moves and the buffers stay as they are. -/
theorem Sched.Inv.move_list (hs : s.Inv) (hlock : LockMoves (s.proc p).pc l.pc s.queue q)
    (hq : q.list = s.queue.list)
    (hself : ∀ b i, l.pc.names = some (b, i) → ∃ h, s.queue.list[i]? = some h ∧ h.blockNo = b)
    (huses : ∀ i, l.uses i = (s.proc p).uses i) (howns : ∀ i, l.owns i = (s.proc p).owns i) :
    (s.move p q l).Inv := by
  refine hs.move hlock ?_ ?_ ?_ ?_ ?_
  · rw [Queue.Distinct, hq]
    exact hs.distinct
  · rw [hq]
    exact hself
  · intro r b i _
    rw [hq]
    exact hs.names r b i
  · intro i
    rw [Queue.refs, hq, huses]
    rfl
  · intro i
    rw [Queue.locks, hq, howns]
    rfl

/-- A process moves and changes one buffer, but not its block. -/
theorem Sched.Inv.move_update (hs : s.Inv) (hlock : LockMoves (s.proc p).pc l.pc s.queue q)
    (hh : s.queue.list[i]? = some h) (hq : q.list = (s.queue.update i f).list)
    (hlabel : ∀ h, (f h).blockNo = h.blockNo)
    (hself : ∀ b j, l.pc.names = some (b, j) → ∃ h, s.queue.list[j]? = some h ∧ h.blockNo = b)
    (huses : ∀ j, j ≠ i → l.uses j = (s.proc p).uses j)
    (howns : ∀ j, j ≠ i → l.owns j = (s.proc p).owns j)
    (hrefs : (f h).refCount + (s.proc p).uses i = h.refCount + l.uses i)
    (hlocks :
      (if (f h).lock then 1 else 0) + (s.proc p).owns i = (if h.lock then 1 else 0) + l.owns i) :
    (s.move p q l).Inv := by
  have hi : q.list[i]? = some (f h) := by rw [hq, Queue.update_list_self hh]
  have hne : ∀ j, j ≠ i →
    q.list[j]? = s.queue.list[j]? := fun j hj => by rw [hq, Queue.update_list_ne hj]
  have hname : ∀ (b : ℤ) (j : ℕ), (∃ h : HdBuf, s.queue.list[j]? = some h ∧ h.blockNo = b) →
      ∃ h : HdBuf, q.list[j]? = some h ∧ h.blockNo = b := by
    rintro b j ⟨h', hget, hb⟩
    by_cases hj : j = i
    · subst hj
      cases hh.symm.trans hget
      exact ⟨f h, hi, (hlabel h).trans hb⟩
    · exact ⟨h', (hne j hj).trans hget, hb⟩
  refine hs.move hlock ?_ ?_ ?_ ?_ ?_
  · rw [Queue.Distinct, hq]
    exact hs.distinct.update hlabel
  · exact fun b j hb => hname b j (hself b j hb)
  · exact fun r b j _ hb => hname b j (hs.names r b j hb)
  · intro j
    by_cases hj : j = i
    · subst hj
      simpa [Queue.refs, hi, hh] using hrefs
    · rw [Queue.refs, hne j hj, huses j hj]
      rfl
  · intro j
    by_cases hj : j = i
    · subst hj
      simpa [Queue.locks, hi, hh] using hlocks
    · rw [Queue.locks, hne j hj, howns j hj]
      rfl

end

/-! ### What a piece does when it ends -/

section

variable {q : Queue} {i : ℕ}

theorem lockQueue_ends :
    wp lockQueue (fun _ q' => q.lock = false ∧ q' = q.setLock true) (fun _ _ => True) q := by
  rw [wp_lockQueue]
  cases hl : q.lock
  · exact ⟨rfl, rfl⟩
  · trivial

theorem bufAt_ends : wp (bufAt i) (fun h q' => q.list[i]? = some h ∧ q' = q)
    (fun _ _ => True) q := by
  cases hh : q.list[i]? with
  | none => simp [bufAt, hh]
  | some h => rw [wp_bufAt hh]; exact ⟨rfl, rfl⟩

theorem lockBuf_ends :
    wp (lockBuf i) (fun _ q' => ∃ h, q.list[i]? = some h ∧ h.lock = false ∧
      q' = q.update i fun h => { h with lock := true }) (fun _ _ => True) q := by
  unfold lockBuf
  rw [wp_bind]
  refine bufAt_ends.mono ?_ fun _ _ _ => trivial
  rintro h _ ⟨hh, rfl⟩
  cases hl : h.lock
  · simpa using ⟨h, hh, hl⟩
  · simp

theorem hdRw_ends :
    wp (hdRw i) (fun _ q' => q'.lock = q.lock ∧ ∃ h f, q.list[i]? = some h ∧
      q'.list = (q.update i f).list ∧
      ∀ h, (f h).blockNo = h.blockNo ∧ (f h).refCount = h.refCount ∧ (f h).lock = h.lock)
        (fun _ _ => True) q := by
  cases hh : q.list[i]? with
  | none => simp [hdRw, bufAt, hh]
  | some h =>
    cases hl : h.lock
    · simp [hdRw, wp_bind, wp_bufAt hh, kassert, hl]
    · rw [wp_hdRw hh hl]
      split
      · exact ⟨rfl, h, id, rfl, by simp [Queue.update, Queue.store], by simp⟩
      · exact ⟨rfl, h, _, rfl, rfl, by simp⟩

theorem dropBuf_ends :
    wp (dropBuf i) (fun _ q' => q'.lock = q.lock ∧ ∃ h, q.list[i]? = some h ∧
      q'.list = (q.update i HdBuf.drop).list)
      (fun _ _ => True) q := by
  cases hh : q.list[i]? with
  | none => simp [dropBuf, bufAt, hh]
  | some h =>
    by_cases hpos : 0 < h.refCount
    · by_cases hl : h.isDirty = true → h.refCount = 1 → h.lock = true
      · rw [wp_dropBuf hh hpos hl]
        split
        · exact ⟨rfl, h, rfl, rfl⟩
        · exact ⟨rfl, h, rfl, rfl⟩
      · simp only [Classical.not_imp, Bool.not_eq_true] at hl
        have hself :=
          Queue.update_list_self (q := q) (f := fun h => { h with refCount := h.refCount - 1 }) hh
        simp [dropBuf, wp_bufAt hh, wp_bufAt hself, hdRw, kassert, hl]
    · simp [dropBuf, wp_bind, wp_bufAt hh, not_lt.mp hpos]

theorem pickBuf_ends {mem : HdBuf} {b : ℤ} :
    wp (pickBuf mem b) (fun i q' => q.place = some i ∧ q'.lock = q.lock ∧
      ((i = q.list.length ∧ q' = (q.add (newHdBuf mem)).update i (HdBuf.claim b)) ∨
        ∃ h, q.list[i]? = some h ∧ q' = q.update i (HdBuf.claim b))) (fun _ _ => True) q := by
  simp only [pickBuf, wp_bind, wp_modify, wp_pure]
  by_cases hlt : q.list.length < maxHdBufs
  · rw [wp_takeBuf_new hlt]
    exact ⟨if_pos hlt, rfl, .inl ⟨rfl, rfl⟩⟩
  · cases hs : scanFrom q.list 0 none with
    | none => simp [takeBuf, hlt, hs]
    | some i =>
      rw [wp_takeBuf_reuse hlt hs]
      have hi : i < q.list.length := by
        rcases scanFrom_mem hs with ⟨-, h⟩ | ⟨-, h⟩
        · cases h
        · omega
      exact ⟨(if_neg hlt).trans hs, rfl, .inr ⟨_, List.getElem?_eq_getElem hi, rfl⟩⟩

end

/-! ### What a step keeps -/

section

variable {s : Sched ι} {p : ι}

/-- A buffer that a process has locked is locked once. -/
theorem Sched.Inv.owned {i : ℕ} (hs : s.Inv) (hi : 0 < (s.proc p).owns i) :
    ∃ h, s.queue.list[i]? = some h ∧ h.lock = true ∧ (s.proc p).owns i = 1 ∧ ∀ r, r ≠ p →
      (s.proc r).owns i = 0 := by
  have hsum := hs.locks i
  rw [← Finset.add_sum_erase _ _ (Finset.mem_univ p)] at hsum
  have hone : s.queue.locks i ≤ 1 ∧
    (0 < s.queue.locks i → ∃ h, s.queue.list[i]? = some h ∧ h.lock = true) := by
    unfold Queue.locks
    cases hh : s.queue.list[i]? with
    | none => simp
    | some h => cases hl : h.lock <;> simp [hl]
  obtain ⟨h, hh, hl⟩ := hone.2 (by omega)
  have hrest : ∑ r ∈ Finset.univ.erase p, (s.proc r).owns i = 0 := by omega
  refine ⟨h, hh, hl, by omega, fun r hr => ?_⟩
  exact Finset.sum_eq_zero_iff.mp hrest r (Finset.mem_erase.mpr ⟨hr, Finset.mem_univ r⟩)

omit [DecidableEq ι] in
/-- No process is counted among the references of a buffer that has none. -/
theorem Sched.Inv.unused {i : ℕ} (hs : s.Inv) (hi : s.queue.refs i = 0) (r : ι) :
    (s.proc r).uses i = 0 := by
  have hsum := hs.refs i
  rw [hi, ← Nat.cast_sum] at hsum
  exact Finset.sum_eq_zero_iff.mp (by exact_mod_cast hsum.symm) r (Finset.mem_univ r)

/-- A process that works on a buffer it is not counted for has only found it. -/
theorem Pc.names_cases {pc : Pc} {b : ℤ} {i : ℕ} (h : pc.names = some (b, i)) :
    pc.uses = some i ∨ pc.crit = true ∨ pc = .refer b i := by
  unfold Pc.names at h
  split at h <;> simp_all [Pc.uses, Pc.crit]

/-- A buffer is taken for block `b`. -/
theorem Sched.Inv.pick (hs : s.Inv) (hc : s.Clean p) {b : ℤ} (hpc : (s.proc p).pc = .pick b)
    (mem : HdBuf) :
    wp (pickBuf mem b) (fun i q => (s.move p q ⟨.own b i, (s.proc p).held⟩).Inv)
      (fun _ _ => True) s.queue := by
  refine pickBuf_ends.mono ?_ fun _ _ _ => trivial
  rintro i q ⟨hplace, hlock, hq⟩
  obtain ⟨honly, hfree, hfound⟩ := hc b i hpc hplace
  -- the buffer at `i`, new or free, is nobody's, and is now for `b`
  have hnew : ∃ h, q.list[i]? = some (HdBuf.claim b h) := by
    rcases hq with ⟨rfl, rfl⟩ | ⟨h, hh, rfl⟩
    · exact ⟨_, Queue.update_list_self Queue.add_list_self⟩
    · exact ⟨h, Queue.update_list_self hh⟩
  have hrest : ∀ j, j ≠ i → q.list[j]? = s.queue.list[j]? := by
    intro j hj
    rcases hq with ⟨rfl, rfl⟩ | ⟨h, hh, rfl⟩
    · rw [Queue.update_list_ne hj, Queue.add_list_ne hj]
    · rw [Queue.update_list_ne hj]
  have hzero : s.queue.refs i = 0 ∧ s.queue.locks i = 0 := by
    unfold Queue.refs Queue.locks
    cases hh : s.queue.list[i]? with
    | none => exact ⟨rfl, rfl⟩
    | some h =>
      have := hfree h hh
      simp_all [HdBuf.free]
  obtain ⟨h, hh⟩ := hnew
  refine hs.move (.inr (.inl ⟨by rw [hpc]; rfl, hlock⟩)) ?_ ?_ ?_ ?_ ?_
  · intro j k h₁ h₂ h1 h2 heq
    by_cases hj : j = i <;> by_cases hk : k = i
    · rw [hj, hk]
    · subst hj
      cases hh.symm.trans h1
      rw [hrest k hk] at h2
      exact (honly k h₂ h2 heq.symm).symm
    · subst hk
      cases hh.symm.trans h2
      rw [hrest j hj] at h1
      exact honly j h₁ h1 heq
    · rw [hrest j hj] at h1
      rw [hrest k hk] at h2
      exact hs.distinct j k h₁ h₂ h1 h2 heq
  · intro b' j hbj
    obtain ⟨rfl, rfl⟩ : b = b' ∧ i = j := by simpa [Pc.names] using hbj
    exact ⟨_, hh, rfl⟩
  · intro r b' j hr hbj
    by_cases hj : j = i
    · subst hj
      rcases Pc.names_cases hbj with huse | hcrit | hrefer
      · have := hs.unused hzero.1 r
        simp [Proc.uses, huse] at this
      · exact absurd (hs.excl r p hcrit (by rw [hpc]; rfl)) hr
      · exact ⟨_, hh, (hfound r b' hrefer).symm⟩
    · rw [hrest j hj]
      exact hs.names r b' j hbj
  · intro j
    by_cases hj : j = i
    · subst hj
      rw [hzero.1, hs.unused hzero.1 p]
      have hcount : (s.proc p).held.count j = 0 := by
        have := hs.unused hzero.1 p
        simp only [Proc.uses] at this
        omega
      simp [Queue.refs, hh, HdBuf.claim, Proc.uses, Pc.uses, hcount]
    · rw [Queue.refs, hrest j hj]
      simp [Queue.refs, Proc.uses, hpc, Pc.uses, Ne.symm hj]
  · intro j
    by_cases hj : j = i
    · subst hj
      rw [hzero.2]
      simp [Queue.locks, hh, HdBuf.claim, Proc.owns, hpc, Pc.owns]
    · rw [Queue.locks, hrest j hj]
      simp [Queue.locks, Proc.owns, hpc, Pc.owns]

/-- A process goes on to `pc` and the buffers stay as they are. -/
theorem Sched.Inv.goto {pc : Pc} {q : Queue} (hs : s.Inv)
    (hlock : LockMoves (s.proc p).pc pc s.queue q) (hq : q.list = s.queue.list)
    (hself : ∀ b i, pc.names = some (b, i) → ∃ h, s.queue.list[i]? = some h ∧ h.blockNo = b)
    (huses : pc.uses = (s.proc p).pc.uses) (howns : pc.owns = (s.proc p).pc.owns) :
    (s.move p q ⟨pc, (s.proc p).held⟩).Inv :=
  hs.move_list hlock hq hself (fun i => by simp [Proc.uses, huses])
    fun i => by simp [Proc.owns, howns]

/-- A piece of code keeps the invariant. -/
theorem Sched.Inv.piece (hs : s.Inv) (hc : s.Clean p) (mem : HdBuf) :
    wp ((s.proc p).pc.next mem) (fun pc q => (s.move p q ⟨pc, (s.proc p).held⟩).Inv)
      (fun _ _ => True) s.queue := by
  have hname := hs.names p
  cases hpc : (s.proc p).pc with
  | out =>
      exact hs.goto (.inr (.inl ⟨by rw [hpc], rfl⟩)) rfl (by rintro _ _ ⟨⟩)
        (by rw [hpc]) (by rw [hpc])
  | returned b i =>
    rw [hpc] at hname
    exact hs.goto (.inr (.inl ⟨by rw [hpc], rfl⟩)) rfl hname (by rw [hpc]) (by rw [hpc])
  | look b =>
    simp only [Pc.next, wp_bind, wp_pure]
    refine lockQueue_ends.mono ?_ fun _ _ _ => trivial
    rintro - _ ⟨hl, rfl⟩
    exact hs.goto (.inl ⟨hl, rfl⟩) rfl (by rintro _ _ ⟨⟩) (by rw [hpc]; rfl) (by rw [hpc]; rfl)
  | search b =>
    simp only [Pc.next, wp_bind, wp_read, wp_pure]
    refine hs.goto (.inr (.inl ⟨by rw [hpc]; rfl, rfl⟩)) rfl ?_ (by rw [hpc]; rfl)
      (by rw [hpc]; rfl)
    intro b' i hbi
    cases hf : s.queue.find b with
    | none => simp [hf, Pc.names] at hbi
    | some j =>
      obtain ⟨rfl, rfl⟩ : b = b' ∧ j = i := by simpa [hf, Pc.names] using hbi
      exact Queue.find_some hf
  | leave b hdb =>
    rw [hpc] at hname
    cases hdb with
    | none =>
        exact hs.goto (.inr (.inr ⟨by rw [hpc]; rfl, rfl⟩)) rfl (by rintro _ _ ⟨⟩)
          (by rw [hpc]; rfl)
          (by rw [hpc]; rfl)
    | some i =>
        exact hs.goto (.inr (.inr ⟨by rw [hpc]; rfl, rfl⟩)) rfl hname (by rw [hpc]; rfl)
          (by rw [hpc]; rfl)
  | refer b i =>
    rw [hpc] at hname
    obtain ⟨h, hh, -⟩ := hname b i rfl
    refine hs.move_update (.inr (.inl ⟨by rw [hpc]; rfl, rfl⟩)) hh rfl
      (fun _ => rfl) hname ?_ ?_ ?_ ?_
    · intro j hj
      simp [Proc.uses, hpc, Pc.uses, hj.symm]
    · intro j hj
      simp [Proc.owns, hpc, Pc.owns]
    · simp [Proc.uses, hpc, Pc.uses]
      omega
    · simp [Proc.owns, hpc, Pc.owns]
  | wait b i =>
    rw [hpc] at hname
    simp only [Pc.next, wp_bind, wp_pure]
    refine lockBuf_ends.mono ?_ fun _ _ _ => trivial
    rintro - _ ⟨h, hh, hl, rfl⟩
    refine hs.move_update (.inr (.inl ⟨by rw [hpc]; rfl, rfl⟩)) hh rfl
      (fun _ => rfl) hname ?_ ?_ ?_ ?_
    · intro j hj
      simp [Proc.uses, hpc, Pc.uses]
    · intro j hj
      simp [Proc.owns, hpc, Pc.owns, hj.symm]
    · simp [Proc.uses, hpc, Pc.uses]
    · simp [Proc.owns, hpc, Pc.owns, hl]
      omega
  | miss b =>
    simp only [Pc.next, wp_bind, wp_pure]
    refine lockQueue_ends.mono ?_ fun _ _ _ => trivial
    rintro - _ ⟨hl, rfl⟩
    exact hs.goto (.inl ⟨hl, rfl⟩) rfl (by rintro _ _ ⟨⟩) (by rw [hpc]; rfl) (by rw [hpc]; rfl)
  | pick b =>
    simp only [Pc.next, wp_bind, wp_pure]
    exact hs.pick hc hpc mem
  | own b i =>
    rw [hpc] at hname
    simp only [Pc.next, wp_bind, wp_pure]
    refine lockBuf_ends.mono ?_ fun _ _ _ => trivial
    rintro - _ ⟨h, hh, hl, rfl⟩
    refine hs.move_update (.inr (.inl ⟨by rw [hpc]; rfl, rfl⟩)) hh rfl
      (fun _ => rfl) hname ?_ ?_ ?_ ?_
    · intro j hj
      simp [Proc.uses, hpc, Pc.uses]
    · intro j hj
      simp [Proc.owns, hpc, Pc.owns, hj.symm]
    · simp [Proc.uses, hpc, Pc.uses]
    · simp [Proc.owns, hpc, Pc.owns, hl]
      omega
  | unlock b i =>
    rw [hpc] at hname
    exact hs.goto (.inr (.inr ⟨by rw [hpc]; rfl, rfl⟩)) rfl hname (by rw [hpc]; rfl)
      (by rw [hpc]; rfl)
  | fill b i =>
    rw [hpc] at hname
    simp only [Pc.next, wp_bind, wp_pure]
    refine hdRw_ends.mono ?_ fun _ _ _ => trivial
    rintro - q ⟨hlock, h, f, hh, hq, hf⟩
    refine hs.move_update (.inr (.inl ⟨by rw [hpc]; rfl, hlock⟩)) hh hq
      (fun h => (hf h).1) hname ?_ ?_ ?_ ?_
    · intro j hj
      simp [Proc.uses, hpc, Pc.uses]
    · intro j hj
      simp [Proc.owns, hpc, Pc.owns]
    · simp [Proc.uses, hpc, Pc.uses, (hf h).2.1]
    · simp [Proc.owns, hpc, Pc.owns, (hf h).2.2]
  | pLock i =>
    simp only [Pc.next, wp_bind, wp_pure]
    refine lockQueue_ends.mono ?_ fun _ _ _ => trivial
    rintro - _ ⟨hl, rfl⟩
    exact hs.goto (.inl ⟨hl, rfl⟩) rfl (by rintro _ _ ⟨⟩) (by rw [hpc]; rfl) (by rw [hpc]; rfl)
  | pDrop i =>
    simp only [Pc.next, wp_bind, wp_pure]
    refine dropBuf_ends.mono ?_ fun _ _ _ => trivial
    rintro - q ⟨hlock, h, hh, hq⟩
    refine hs.move_update (.inr (.inl ⟨by rw [hpc]; rfl, hlock⟩)) hh hq (fun _ => rfl)
      (by rintro _ _ ⟨⟩) ?_ ?_ ?_ ?_
    · intro j hj
      simp [Proc.uses, hpc, Pc.uses, hj.symm]
    · intro j hj
      simp [Proc.owns, hpc, Pc.owns]
    · simp [Proc.uses, hpc, Pc.uses, HdBuf.drop]
    · simp [Proc.owns, hpc, Pc.owns, HdBuf.drop]
  | pFree i =>
    obtain ⟨h, hh, hl, -⟩ := hs.owned (p := p) (i := i) (by simp [Proc.owns, hpc, Pc.owns])
    refine hs.move_update (.inr (.inl ⟨by rw [hpc]; rfl, rfl⟩)) hh rfl (fun _ => rfl)
      (by rintro _ _ ⟨⟩) ?_ ?_ ?_ ?_
    · intro j hj
      simp [Proc.uses, hpc, Pc.uses]
    · intro j hj
      simp [Proc.owns, hpc, Pc.owns, hj.symm]
    · simp [Proc.uses, hpc, Pc.uses]
    · simp [Proc.owns, hpc, Pc.owns, hl]
      omega
  | pUnlock =>
      exact hs.goto (.inr (.inr ⟨by rw [hpc]; rfl, rfl⟩)) rfl (by rintro _ _ ⟨⟩) (by rw [hpc]; rfl)
        (by rw [hpc]; rfl)

theorem count_erase_add {l : List ℕ} {i j : ℕ} (hi : i ∈ l) :
    (l.erase i).count j + (if i = j then 1 else 0) = l.count j := by
  rw [List.count_erase]
  by_cases hij : i = j
  · subst hij
    have := List.count_pos_iff.mpr hi
    simp
    omega
  · simp [hij]

/-- A step that takes no buffer it should not keeps the invariant. -/
theorem Sched.Inv.step {t : Sched ι} (hs : s.Inv) (hc : s.Clean p) (hst : Sched.Step p s t) :
    t.Inv := by
  cases hst with
  | callGet b hp =>
    exact hs.goto (.inr (.inl ⟨by rw [hp]; rfl, rfl⟩)) rfl nofun (by rw [hp]; rfl) (by rw [hp]; rfl)
  | callPut hp hi =>
    refine hs.move_list (.inr (.inl ⟨by rw [hp]; rfl, rfl⟩)) rfl nofun (fun j => ?_) fun j => ?_
    · simp [Proc.uses, hp, Pc.uses, count_erase_add hi]
    · simp [Proc.owns, hp, Pc.owns, count_erase_add hi]
  | piece hq => exact (hs.piece hc _).ok hq
  | keep hp =>
    refine hs.move_list (.inr (.inl ⟨by rw [hp]; rfl, rfl⟩)) rfl nofun (fun j => ?_) fun j => ?_
    · simp [Proc.uses, hp, Pc.uses, List.count_cons]
    · simp [Proc.owns, hp, Pc.owns, List.count_cons]
  | edit hp hi buf =>
    obtain ⟨h, hh, -⟩ :=
      hs.owned (p := p) (Nat.lt_of_lt_of_le (List.count_pos_iff.mpr hi) (Nat.le_add_right _ _))
    exact hs.move_update (.inr (.inl ⟨rfl, rfl⟩)) hh rfl (fun _ => rfl) (hs.names p)
      (fun _ _ => rfl)
      (fun _ _ => rfl)
      rfl rfl

theorem Sched.Inv.good (hs : s.Inv) : s.Good where
  distinct := hs.distinct
  returned := by
    intro p b i hp
    obtain ⟨h, hh, hb⟩ := hs.names p b i (by rw [hp]; rfl)
    obtain ⟨h', hh', hl, hone, hrest⟩ :=
      hs.owned (p := p) (i := i) (by simp [Proc.owns, hp, Pc.owns])
    cases hh.symm.trans hh'
    exact ⟨h, hh, hb, hl, hone, hrest⟩

end

/-- **Buffers shared by any number of processes**: while no process takes a buffer for a block
that has one, or one that is not free, or one another process has just found, the
buffers are for distinct blocks and what `get_hd_buf(b)` returns is the buffer of `b`,
locked by the caller. -/
theorem buffers_shared (disk : ℤ → Sector) (s : Sched ι)
    (hs : Reach Sched.CleanStep (Sched.start ι disk) s) : s.Good :=
  (Reach.invariant (fun _ _ hs ⟨_, hc, hst⟩ => hs.step hc hst) (Sched.start_inv disk) hs).good

/-! ### Two runs -/

section

variable {ι : Type*} [DecidableEq ι]

/-- Process `p` executes its next piece of code, if it can. -/
def Sched.advance (mem : HdBuf) (s : Sched ι) (p : ι) : Sched ι :=
  match (s.proc p).pc.next mem s.queue with
  | .ok pc q => s.move p q ⟨pc, (s.proc p).held⟩
  | .halt _ _ => s

theorem Sched.reach_advance {s t : Sched ι} (h : Reach Sched.AnyStep s t) (mem : HdBuf) (p : ι) :
    Reach Sched.AnyStep s (t.advance mem p) := by
  unfold Sched.advance
  split
  case h_1 hq => exact h.tail ⟨p, .piece hq⟩
  case h_2 => exact h

theorem Sched.reach_advances {s t : Sched ι} (h : Reach Sched.AnyStep s t) (mem : HdBuf)
    (ps : List ι) :
    Reach Sched.AnyStep s (ps.foldl (Sched.advance mem) t) := by
  induction ps generalizing t with
  | nil => exact h
  | cons p ps ih => exact ih (Sched.reach_advance h mem p)

omit [DecidableEq ι] in
theorem Sched.Clean.of_ne {s : Sched ι} {p : ι} (h : ∀ b, (s.proc p).pc ≠ .pick b) : s.Clean p :=
  fun b _ hp => absurd hp (h b)

theorem Sched.cleanReach_advance {s t : Sched ι} (h : Reach Sched.CleanStep s t)
    (mem : HdBuf) {p : ι} (hc : t.Clean p) :
    Reach Sched.CleanStep s (t.advance mem p) := by
  unfold Sched.advance
  split
  case h_1 hq => exact h.tail ⟨p, hc, .piece hq⟩
  case h_2 => exact h

/-- The process is about to choose a buffer. -/
def Pc.picks : Pc → Bool
  | .pick _ => true
  | _ => false

/-- Processes execute a piece of code one after the other, and none chooses a buffer. -/
def Sched.quiet (mem : HdBuf) : Sched ι → List ι → Bool
  | _, [] => true
  | s, p :: ps => !(s.proc p).pc.picks && Sched.quiet mem (s.advance mem p) ps

theorem Sched.cleanReach_quiet {s t : Sched ι} (h : Reach Sched.CleanStep s t) (mem : HdBuf)
    {ps : List ι} (hq : Sched.quiet mem t ps = true) :
    Reach Sched.CleanStep s (ps.foldl (Sched.advance mem) t) := by
  induction ps generalizing t with
  | nil => exact h
  | cons p ps ih =>
    obtain ⟨hp, hrest⟩ := Bool.and_eq_true_iff.mp hq
    refine ih (Sched.cleanReach_advance h mem (.of_ne fun b hb => ?_)) hrest
    rw [hb] at hp
    exact absurd hp Bool.false_ne_true

end

/-- Memory for a new buffer. -/
def blankBuf : HdBuf := ⟨0, false, 0, false, constSector 0⟩

/-- No process has called, the first has called `get_hd_buf(7)`, both have. -/
def noLook : Sched Bool := Sched.start Bool fun _ => constSector 0
def oneLook : Sched Bool := noLook.move false noLook.queue ⟨.look 7, []⟩
def bothLook : Sched Bool := oneLook.move true oneLook.queue ⟨.look 7, []⟩

theorem oneLook_reach : Reach Sched.CleanStep noLook oneLook :=
  .single ⟨false, .of_ne (fun _ => Pc.noConfusion), .callGet 7 rfl⟩

theorem bothLook_reach : Reach Sched.AnyStep noLook bothLook :=
  (Relation.ReflTransGen.single ⟨false, .callGet 7 rfl⟩).tail ⟨true, .callGet 7 (s := oneLook) rfl⟩

/-- The order in which they then run: each searches and finds nothing, then each inserts. -/
def bothMiss : List Bool :=
  [false, false, false, true, true, true, false, false, false, false, true, true]

/-- **A block in two buffers**: both processes insert a buffer for block 7. -/
theorem block_in_two_buffers :
    ∃ s : Sched Bool, Reach Sched.AnyStep noLook s ∧ ¬s.Good := by
  refine ⟨_, Sched.reach_advances bothLook_reach blankBuf bothMiss, fun hgood => ?_⟩
  have h0 : ((bothMiss.foldl (Sched.advance blankBuf) bothLook).queue.list[0]?).map HdBuf.blockNo =
    some 7 := by
    decide +kernel
  have h1 : ((bothMiss.foldl (Sched.advance blankBuf) bothLook).queue.list[1]?).map HdBuf.blockNo =
    some 7 := by
    decide +kernel
  obtain ⟨h, hh, hb⟩ := Option.map_eq_some_iff.mp h0
  obtain ⟨h', hh', hb'⟩ := Option.map_eq_some_iff.mp h1
  exact absurd (hgood.distinct 0 1 h h' hh hh' (hb.trans hb'.symm)) (by decide)

/-- A place at the end of the queue is free to take for a block that has no buffer, while no process
refers to one that it has found. -/
theorem Sched.Clean.of_new {ι : Type*} {s : Sched ι} {p : ι} {b : ℤ} (hp : (s.proc p).pc = .pick b)
    (hroom : s.queue.list.length < maxHdBufs) (hnew : ∀ h ∈ s.queue.list, h.blockNo ≠ b)
    (hrefer : ∀ r b' i, (s.proc r).pc ≠ .refer b' i) : s.Clean p := by
  intro b' i hp' hplace
  obtain rfl : b = b' := Pc.pick.inj (hp.symm.trans hp')
  rw [Queue.place, if_pos hroom] at hplace
  obtain rfl := Option.some.inj hplace
  refine ⟨fun j h hj hb => absurd hb (hnew h (List.mem_of_getElem? hj)), fun h hi => ?_,
    fun r b' hr => absurd hr (hrefer r b' _)⟩
  rw [List.getElem?_eq_none le_rfl] at hi
  cases hi

/-- The first process has called `get_hd_buf(7)`, and the second `get_hd_buf(8)`. -/
def twoLook : Sched Bool := oneLook.move true oneLook.queue ⟨.look 8, []⟩

theorem twoLook_reach : Reach Sched.CleanStep noLook twoLook :=
  oneLook_reach.tail ⟨true, .of_ne (fun _ => Pc.noConfusion), .callGet 8 (s := oneLook) rfl⟩

/-- Both have missed their blocks, and the first is about to choose a buffer. -/
def firstPick : Sched Bool :=
  [false, true, false, false, true, true, true, false].foldl (Sched.advance blankBuf) twoLook

/-- The first has inserted its buffer, and the second is about to choose one. -/
def secondPick : Sched Bool :=
  [false, true, false, true].foldl (Sched.advance blankBuf) (firstPick.advance blankBuf false)

/-- Both have their buffers. -/
def twoReturned : Sched Bool :=
  [true, false, true, true].foldl (Sched.advance blankBuf) (secondPick.advance blankBuf true)

theorem firstPick_clean : firstPick.Clean false :=
  .of_new (b := 7) (by decide +kernel) (by decide +kernel) (by decide +kernel) fun r => by
    cases r <;> exact fun _ _ => Pc.noConfusion

theorem secondPick_clean : secondPick.Clean true :=
  .of_new (b := 8) (by decide +kernel) (by decide +kernel) (by decide +kernel) fun r => by
    cases r <;> exact fun _ _ => Pc.noConfusion

/-- Two processes that take turns get the buffers of their blocks. -/
theorem buffers_shared_two :
    Reach Sched.CleanStep noLook twoReturned ∧ (twoReturned.proc false).pc = .returned 7 0 ∧
      (twoReturned.proc true).pc = .returned 8 1 ∧ twoReturned.Good := by
  have h1 : Reach Sched.CleanStep noLook firstPick :=
    Sched.cleanReach_quiet twoLook_reach blankBuf (by decide +kernel)
  have h2 : Reach Sched.CleanStep noLook secondPick :=
    Sched.cleanReach_quiet (Sched.cleanReach_advance h1 blankBuf firstPick_clean) blankBuf
      (by decide +kernel)
  have h3 : Reach Sched.CleanStep noLook twoReturned :=
    Sched.cleanReach_quiet (Sched.cleanReach_advance h2 blankBuf secondPick_clean) blankBuf
      (by decide +kernel)
  exact ⟨h3, by decide +kernel, by decide +kernel, buffers_shared _ _ h3⟩

end Cosiris.Hd
