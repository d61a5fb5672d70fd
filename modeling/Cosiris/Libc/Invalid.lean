import Cosiris.Libc.Heap

/-!
# Pointers that `free` does not know

The loop of `free` walks over all blocks. At the last one, if this is a free block with bytes, it
calls `abort`; an exact split leaves a last block without bytes, and before the first allocation
there is no block at all. But `abort` only queues a signal, and the loop goes on from `NULL` in
every case: no pointer that is not the payload of a block is caught (`invalid_free_uncaught`). -/

namespace Cosiris.Libc

open Function Prog

/-- The blocks that are reached from `first_block`. -/
inductive Linked (h : Heap) : ℕ → Prop where
  | first (hne : h.firstBlock ≠ 0) : Linked h h.firstBlock
  | next {p : ℕ} {b : BlockMeta} (hp : Linked h p) (hm : h.mem p = some b) (hne : b.next ≠ 0) :
      Linked h b.next

/-- A pointer that is not `NULL` and not the payload of a block. -/
def Invalid (h : Heap) (ptr : ℕ) : Prop := ptr ≠ 0 ∧ ∀ p, Linked h p → p + metaSize ≠ ptr

/-- `free` ends with a call of `abort`, with the blocks as they were. -/
def Caught (R : Region) (h : Heap) (ptr : ℕ) : Prop :=
  wp (free R ptr) (fun _ h' => h' = h.abort) (fun _ _ => False) h

/-- The last block has bytes. -/
def LastHasBytes (h : Heap) : Prop := ∃ p b, Linked h p ∧ h.mem p = some b ∧ b.next = 0 ∧ 0 < b.size

section

variable {R : Region} {h : Heap} {l k L : List Block} {b : Block} {s ptr : ℕ}

/-- The blocks that are reached are those of the heap. -/
theorem Tiled.linked (hL : Tiled R h (l ++ b :: k)) : Linked h (h.firstBlock + len l) := by
  induction l using List.reverseRecOn generalizing b k with
  | nil => exact .first hL.first_pos.ne'
  | append_singleton l a ih =>
    have hL' : Tiled R h (l ++ a :: b :: k) := by simpa using hL
    have hnext := Linked.next (ih hL') hL'.header.1 (by
      have := hL.first_pos
      simp only [newMeta_next, link_cons]
      omega)
    have haddr : h.firstBlock + len (l ++ [a]) = h.firstBlock + len l + metaSize + a.size := by
      simp only [len_append, len_cons, len_nil]
      omega
    rw [haddr]
    exact hnext

theorem Tiled.of_linked {p : ℕ} (hL : Tiled R h L) (hp : Linked h p) :
    ∃ l b k, L = l ++ b :: k ∧ p = h.firstBlock + len l := by
  induction hp with
  | first hne =>
    obtain ⟨k, s, rfl⟩ := hL.last.split
    cases k with
    | nil => exact ⟨[], _, _, rfl, rfl⟩
    | cons b k => exact ⟨[], b, _, rfl, rfl⟩
  | next hp hm hne ih =>
    obtain ⟨l, b, k, rfl, rfl⟩ := ih
    have hhead := hL.header.1
    rw [hm] at hhead
    obtain rfl := Option.some.inj hhead
    cases k with
    | nil => exact absurd rfl hne
    | cons c k =>
      refine ⟨l ++ [b], c, k, by simp, ?_⟩
      simp only [newMeta_next, link_cons, len_append, len_cons, len_nil]
      omega

theorem Tiled.lastHasBytes_iff (hL : Tiled R h (l ++ [⟨s, true⟩])) : LastHasBytes h ↔ 0 < s := by
  constructor
  · rintro ⟨p, b, hp, hm, hnext, hpos⟩
    obtain ⟨l', b', k, heq, rfl⟩ := hL.of_linked hp
    have hhead := (heq ▸ hL).header.1
    rw [hm] at hhead
    obtain rfl := Option.some.inj hhead
    cases k with
    | nil =>
      obtain ⟨-, hlast⟩ := List.append_inj' heq rfl
      cases hlast
      exact hpos
    | cons c k =>
      have := hL.first_pos
      simp only [newMeta_next, link_cons] at hnext
      omega
  · intro hs
    exact ⟨_, _, hL.linked, hL.header.1, rfl, hs⟩

theorem wp_load_null {E : Stop → Heap → Prop} {Q : BlockMeta → Heap → Prop} (hnull : h.mem 0 = none)
    (hE : E .fault h) :
    wp (load 0) Q E h := by
  simp only [load, access, wp_bind, wp_read, wp_ite, wp_pure, wp_halt, hnull]
  split
  · exact hE
  · exact hE

/-- The walk from `NULL` is stopped by the machine. -/
theorem wp_freeLoop_null {fuel prev : ℕ} (hnull : h.mem 0 = none) (hfuel : fuel ≠ 0) :
    wp (freeLoop ptr fuel prev 0) (fun _ _ => False) (fun e h' => e = .fault ∧ h' = h) h := by
  cases fuel with
  | zero => exact absurd rfl hfuel
  | succ fuel =>
    rw [Libc.freeLoop]
    split
    · rw [Libc.release, wp_bind]
      exact wp_load_null hnull ⟨rfl, rfl⟩
    · rw [wp_bind]
      exact wp_load_null hnull ⟨rfl, rfl⟩

/-- The `for` loop of `free`, at the block after `l`, looking for a pointer that is not a payload.
-/
theorem Tiled.wp_freeLoop (fuel : ℕ) {prev : ℕ} (hL : Tiled R h (l ++ (k ++ [⟨s, true⟩])))
    (hnull : h.mem 0 = none)
    (hptr : ∀ p, Linked h p → p + metaSize ≠ ptr) (hfuel : k.length + 2 ≤ fuel) :
    wp (Libc.freeLoop ptr fuel prev (h.firstBlock + len l)) (fun _ _ => False)
      (fun e h' => e = .fault ∧ h' = if 0 < s then h.abort else h) h := by
  induction fuel generalizing l k prev with
  | zero => omega
  | succ fuel ih =>
    rw [Libc.freeLoop]
    cases k with
    | nil =>
      rw [List.nil_append] at hL
      rw [if_neg (hptr _ hL.linked), wp_bind, hL.wp_load]
      by_cases hs : 0 < s
      · simp only [newMeta, link_nil, hs, if_true, and_self, wp_bind, wp_modify]
        exact wp_freeLoop_null (h := h.abort) hnull (by omega)
      · simp only [newMeta, link_nil, hs, and_false, if_false]
        exact wp_freeLoop_null hnull (by omega)
    | cons b k =>
      rw [List.cons_append] at hL
      rw [List.length_cons] at hfuel
      have hnext : link (k ++ [⟨s, true⟩]) (h.firstBlock + len l + metaSize + b.size) =
        h.firstBlock + len (l ++ [b]) := by
        unfold link
        rw [if_neg (by simp)]
        simp only [len_append, len_cons, len_nil]
        omega
      have hpos := hL.first_pos
      have hrest := @ih (l ++ [b]) k (h.firstBlock + len l) (by simpa using hL) (by omega)
      rw [if_neg (hptr _ hL.linked), wp_bind, hL.wp_load, hnext]
      simpa [hpos.ne'] using hrest

open Classical in
/-- **`free` of a pointer that it does not know** reads a header from `NULL`, behind the call of
`abort` if there is one. -/
theorem free_invalid (hL : Ready R h L) (hnull : h.mem 0 = none) (hp : Invalid h ptr) :
    wp (free R ptr) (fun _ _ => False)
      (fun e h' => e = .fault ∧ h' = if LastHasBytes h then h.abort else h) h := by
  rw [Libc.free, if_pos hp.1, wp_bind, wp_read, wp_bind]
  rcases hL with ⟨hfirst, -, -⟩ | hL
  · have hnone : ¬LastHasBytes h := by
      rintro ⟨p, b, hp, -⟩
      have hne : h.firstBlock ≠ 0 := by
        induction hp with
        | first hne => exact hne
        | next _ _ _ ih => exact ih
      exact hne hfirst
    rw [hfirst, if_neg hnone]
    exact (wp_freeLoop_null hnull (by decide)).mono (fun _ _ => False.elim) fun _ _ => id
  · obtain ⟨k, s, rfl⟩ := hL.last.split
    have hlen := hL.length_lt
    have hloop := @Tiled.wp_freeLoop R h [] k s ptr maxSteps 0 hL hnull hp.2 (by
      rw [List.length_append] at hlen
      unfold maxSteps
      simp at hlen
      omega)
    rw [len_nil, Nat.add_zero] at hloop
    refine hloop.mono (fun _ _ => False.elim) ?_
    rintro e h' ⟨rfl, rfl⟩
    simp only [hL.lastHasBytes_iff, true_and]

theorem not_caught {E : Stop → Heap → Prop} (hfree : wp (free R ptr) (fun _ _ => False) E h) :
    ¬Caught R h ptr := fun hc => by
  obtain ⟨a, h', hrun, -⟩ := hc.returns
  exact hfree.ok hrun

end

/-- Nothing is at `NULL` in any state of a program. -/
theorem User.null_empty {R : Region} {u : User} (hu : Reach (User.Step R) (User.init R) u) :
    u.Inv R ∧ u.heap.mem 0 = none := by
  refine Reach.invariant (I := fun u => u.Inv R ∧ u.heap.mem 0 = none) ?_ ⟨User.init_inv R, rfl⟩ hu
  rintro u _ ⟨hinv, hnull⟩ ⟨hc, hq⟩
  obtain ⟨hinv', hbelow⟩ := (Call.exec_spec hinv hc).ok hq
  exact ⟨hinv', (hbelow 0 R.pos).trans hnull⟩

open Classical in
/-- **An invalid `free` is never caught**: in every state of a program `free` ends in a read from
`NULL`, and has called `abort` exactly when the last block has bytes. The blocks are as they were.
-/
theorem invalid_free_uncaught (R : Region) (u : User) (hu : Reach (User.Step R) (User.init R) u)
    (ptr : ℕ) (hp : Invalid u.heap ptr) :
    ¬Caught R u.heap ptr ∧
      free R ptr u.heap = .halt .fault (if LastHasBytes u.heap then u.heap.abort else u.heap) := by
  obtain ⟨⟨L, hL, -⟩, hnull⟩ := User.null_empty hu
  have hfree := free_invalid hL hnull hp
  refine ⟨not_caught hfree, ?_⟩
  cases hrun : free R ptr u.heap with
  | ok a h' => exact (hfree.ok hrun).elim
  | halt e h' =>
    obtain ⟨rfl, rfl⟩ := hfree.halted hrun
    rfl

/-- No payload is at an address this small. -/
theorem invalid_four (h : Heap) : Invalid h 4 := ⟨by decide, fun p _ => by unfold metaSize; omega⟩

/-- A program after its first call, which asks for `n` bytes. -/
theorem reach_malloc {n q : ℕ} (hn : n + 4100 ≤ 2 ^ 32)
    (hq : (malloc userHeap n (Heap.init userHeap)).value? = some q) :
    Reach (User.Step userHeap) (User.init userHeap) ⟨(malloc userHeap n (Heap.init userHeap)).state,
      [(q, n)]⟩ :=
  .single (.call (c := .malloc n) hn (Outcome.eq_ok_of_value hq))

/-- A program that has asked for 100 bytes: the rest of the page is a free block. -/
theorem invalid_free_uncaught_hundred :
    ∃ u, Reach (User.Step userHeap) (User.init userHeap) u ∧ Invalid u.heap 4 ∧
      ¬Caught userHeap u.heap 4 ∧ free userHeap 4 u.heap = .halt .fault u.heap.abort := by
  have hq : (malloc userHeap 100 (Heap.init userHeap)).value? = some 0x20000014 := by decide +kernel
  have hfirst : (malloc userHeap 100 (Heap.init userHeap)).state.firstBlock = 0x20000000 := by
    decide +kernel
  have hm : (malloc userHeap 100 (Heap.init userHeap)).state.mem 0x20000000 =
    some (newMeta 100 false 0x20000078) := by
    decide +kernel
  have hm' : (malloc userHeap 100 (Heap.init userHeap)).state.mem 0x20000078 =
    some (newMeta 3956 true 0) := by
    decide +kernel
  have hreach := reach_malloc (by decide) hq
  have hlinked :=
    Linked.first (h := (malloc userHeap 100 (Heap.init userHeap)).state) (by rw [hfirst]; decide)
  rw [hfirst] at hlinked
  have hlast : LastHasBytes (malloc userHeap 100 (Heap.init userHeap)).state :=
    ⟨_, _, hlinked.next hm (by decide), hm', rfl, by decide⟩
  obtain ⟨hnot, hrun⟩ := invalid_free_uncaught userHeap _ hreach 4 (invalid_four _)
  rw [if_pos hlast] at hrun
  exact ⟨_, hreach, invalid_four _, hnot, hrun⟩

/-- **Behind `abort`** `free` goes on from `NULL`. -/
theorem abort_returns :
    ∃ u, Reach (User.Step userHeap) (User.init userHeap) u ∧ Invalid u.heap 4 ∧
      ¬Caught userHeap u.heap 4 := by
  have hq : (malloc userHeap 100 (Heap.init userHeap)).value? = some 0x20000014 := by decide +kernel
  have hreach := reach_malloc (by decide) hq
  obtain ⟨⟨L, hL, -⟩, hnull⟩ := User.null_empty hreach
  exact ⟨_, hreach, invalid_four _, not_caught (free_invalid hL hnull (invalid_four _))⟩

end Cosiris.Libc
