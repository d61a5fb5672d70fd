import Cosiris.Hd.Queue

/-!
# Recycling a buffer

`get_hd_buf` for a block that is not in the queue, from any state of the queue. A queue
that is full is searched for a buffer that is free; the loop leaves its variable at the
last buffer when there is none, so that the test for the panic behind the loop never
fires and the last buffer is taken, whoever uses it.
-/

namespace Cosiris.Hd

open Function Prog

section

variable {q q' : Queue} {b : ℤ} {i : ℕ} {mem : HdBuf}

/-- The buffer at place `i` may be taken: it is a new one, or it was free. -/
def Queue.Free (q : Queue) (i : ℕ) : Prop :=
  (i = q.list.length ∧ q.list.length < maxHdBufs) ∨ ∃ h, q.list[i]? = some h ∧ h.free = true

/-- **No buffer is stolen**: `get_hd_buf` returns a buffer that was free to take, or panics, and
leaves all other buffers alone. -/
def NotStolen (mem : HdBuf) (b : ℤ) (q : Queue) : Prop :=
  wp (getHdBuf mem b) (fun i q' => q.Free i ∧ ∀ j, j ≠ i → q'.list[j]? = q.list[j]?)
    (fun e q' => (∃ msg, e = .panic msg) ∧ q'.list = q.list) q

/-- The buffer that is taken is the only one that changes. -/
theorem wp_getHdBuf_reuse {Q : ℕ → Queue → Prop} {E : Halt → Queue → Prop} {h : HdBuf}
    (hq : q.lock = false)
    (hf : q.find b = none) (hfull : ¬ q.list.length < maxHdBufs)
    (hscan : scanFrom q.list 0 none = some i)
    (hh : q.list[i]? = some h) :
    wp (getHdBuf mem b) Q E q =
      Q i ((q.update i fun h =>
        { h.claim b with lock := true, buf := q.disk b }).setLock false) := by
  rw [wp_getHdBuf_miss hq hf, wp_takeBuf_reuse (by exact hfull) (by exact hscan),
    wp_fill (by exact hh)]
  rfl

theorem not_stolen_new (hq : q.lock = false) (hf : q.find b = none)
    (hlen : q.list.length < maxHdBufs) :
    NotStolen mem b q := by
  unfold NotStolen
  rw [wp_getHdBuf_miss hq hf, wp_takeBuf_new (by exact hlen),
    wp_fill (Q := fun i q' => q.Free i ∧ ∀ j, j ≠ i → q'.list[j]? = q.list[j]?)
      (by exact Queue.add_list_self)]
  refine ⟨.inl ⟨rfl, hlen⟩, fun j hj => ?_⟩
  exact (Queue.update_list_ne hj).trans (Queue.add_list_ne hj)

theorem not_stolen_free (hq : q.lock = false) (hf : q.find b = none)
    (hfull : ¬ q.list.length < maxHdBufs)
    (hfree : ∃ h ∈ q.list, h.free = true) : NotStolen mem b q := by
  obtain ⟨i, h, hscan, hh, hidle⟩ := scanFrom_free hfree 0 none
  rw [Nat.zero_add] at hscan
  unfold NotStolen
  rw [wp_getHdBuf_reuse hq hf hfull hscan hh]
  exact ⟨.inr ⟨h, hh, hidle⟩, fun j hj => Queue.update_list_ne hj⟩

/-- With no free buffer the last one is taken. -/
theorem stolen_last (mem : HdBuf) (hq : q.lock = false) (hf : q.find b = none)
    (hfull : ¬ q.list.length < maxHdBufs)
    (hbusy : ∀ h ∈ q.list, h.free = false) : ∃ q' h h', getHdBuf mem b q =
    .ok (q.list.length - 1) q' ∧
      q.list[q.list.length - 1]? = some h ∧ h.free = false ∧ q'.list[q.list.length - 1]? = some h' ∧
        h'.blockNo = b := by
  have hpos : 0 < q.list.length := by
    unfold maxHdBufs at hfull
    omega
  have hscan : scanFrom q.list 0 none = some (q.list.length - 1) := by
    rw [scanFrom_full hbusy, if_neg (List.length_pos_iff.mp hpos), Nat.zero_add]
  have hlt : q.list.length - 1 < q.list.length := by omega
  have hh := List.getElem?_eq_getElem hlt
  have hwp : wp (getHdBuf mem b) (fun i q' => i = q.list.length - 1 ∧
    ∃ h', q'.list[q.list.length - 1]? = some h' ∧
      h'.blockNo = b) (fun _ _ => False) q := by
    rw [wp_getHdBuf_reuse hq hf hfull hscan hh]
    exact ⟨rfl, _, Queue.update_list_self hh, rfl⟩
  obtain ⟨i, q', hget, rfl, h', hh', hb⟩ := hwp.returns
  exact ⟨q', _, h', hget, hh, hbusy _ (List.getElem_mem hlt), hh', hb⟩

/-- **No buffer is stolen** exactly if the queue is not full or one of its buffers is free. -/
theorem not_stolen_iff (mem : HdBuf) (b : ℤ) (q : Queue) (hq : q.lock = false)
    (hmiss : q.find b = none) :
    NotStolen mem b q ↔ q.list.length < maxHdBufs ∨ ∃ h ∈ q.list, h.free = true := by
  constructor
  · intro hn
    by_contra hc
    obtain ⟨hfull, hnone⟩ := not_or.mp hc
    have hbusy : ∀ h ∈ q.list, h.free = false := fun h hmem => by
      by_contra hfree
      exact hnone ⟨h, hmem, Bool.eq_true_of_not_eq_false hfree⟩
    obtain ⟨q', h, h', hget, hh, hf, -, -⟩ := stolen_last mem hq hmiss hfull hbusy
    rcases (hn.ok hget).1 with ⟨-, hlt⟩ | ⟨h₁, hh₁, hfree⟩
    · exact hfull hlt
    · cases hh.symm.trans hh₁
      rw [hf] at hfree
      cases hfree
  · intro hc
    by_cases hlen : q.list.length < maxHdBufs
    · exact not_stolen_new hq hmiss hlen
    · exact not_stolen_free hq hmiss hlen (hc.resolve_left hlen)

end

/-- `n` buffers, for the blocks from `0`, all in use. -/
def busyQueue (n : ℕ) : Queue :=
  ⟨(List.range n).map fun k : ℕ => ⟨k, true, 1, true, constSector 0⟩, false, fun _ => constSector 0⟩

/-- The same, with the buffer of block `k` free. -/
def idleQueue (n k : ℕ) : Queue :=
  { busyQueue n with list := (busyQueue n).list.set k ⟨k, false, 0, false, constSector 0⟩ }

theorem busyQueue_find (n : ℕ) : (busyQueue n).find n = none := by
  refine List.findIdx?_eq_none_iff.mpr fun h hmem => ?_
  obtain ⟨k, hk, rfl⟩ := List.mem_map.mp hmem
  have := List.mem_range.mp hk
  simp only [decide_eq_false_iff_not]
  omega

theorem idleQueue_find {n k : ℕ} (hk : k < n) : (idleQueue n k).find n = none := by
  refine List.findIdx?_eq_none_iff.mpr fun h hmem => ?_
  rcases List.mem_or_eq_of_mem_set hmem with hmem | rfl
  · exact List.findIdx?_eq_none_iff.mp (busyQueue_find n) h hmem
  · simp only [decide_eq_false_iff_not]
    omega

theorem idleQueue_mem {n k : ℕ} (hk : k < n) :
    ⟨k, false, 0, false, constSector 0⟩ ∈ (idleQueue n k).list :=
  List.mem_set (by rwa [busyQueue, List.length_map, List.length_range]) _

theorem idleQueue_length (n k : ℕ) : (idleQueue n k).list.length = n := by
  rw [idleQueue, List.length_set, busyQueue, List.length_map, List.length_range]

/-- Block 200 is asked for when the queue is full and only the buffer of block 7 is free. -/
theorem not_stolen_oneFree : ¬ (idleQueue 200 7).list.length < maxHdBufs ∧
    NotStolen ⟨0, false, 0, false, constSector 0⟩ 200 (idleQueue 200 7) := by
  have hlock : (idleQueue 200 7).lock = false := rfl
  have hmiss : (idleQueue 200 7).find 200 = none := idleQueue_find (by decide)
  have hfree := idleQueue_mem (show 7 < 200 by decide)
  have hlen := idleQueue_length 200 7
  refine ⟨by rw [hlen]; decide, ?_⟩
  rw [not_stolen_iff _ 200 _ hlock hmiss]
  exact .inr ⟨_, hfree, rfl⟩

/-- **A buffer in use is taken** when all are: the dirty and locked buffer of block 199 becomes that
of block 200. -/
theorem busy_buffer_stolen : (busyQueue 200).lock = false ∧ (busyQueue 200).find 200 = none ∧
    ∃ q h h', getHdBuf ⟨0, false, 0, false, constSector 0⟩ 200 (busyQueue 200) = .ok 199 q ∧
      (busyQueue 200).list[199]? = some h ∧ h.free = false ∧ q.list[199]? = some h' ∧
        h'.blockNo = 200 := by
  have hmiss : (busyQueue 200).find 200 = none := busyQueue_find 200
  have hbusy : ∀ h ∈ (busyQueue 200).list, h.free = false := by
    intro h hmem
    obtain ⟨k, -, rfl⟩ := List.mem_map.mp hmem
    rfl
  have hlen : (busyQueue 200).list.length = 200 := by
    unfold busyQueue
    rw [List.length_map, List.length_range]
  have hlast :=
    stolen_last ⟨0, false, 0, false, constSector 0⟩ rfl hmiss (by rw [hlen]; decide) hbusy
  rw [hlen] at hlast
  exact ⟨rfl, hmiss, hlast⟩

end Cosiris.Hd
