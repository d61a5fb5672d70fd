import Mathlib.Data.List.Range
import Mathlib.Data.Nat.ModEq
import Mathlib.Logic.Function.Basic

/-!
# Ring buffers with free-running positions

A ring buffer of `n` cells whose read and write positions are 32-bit counters
that are never reset: they run past the end of the buffer and past `2³²`, and
the cell of a position is the position modulo `n`. When `n` divides `2³²` the
two wrap-arounds agree, and the buffer is a queue: its contents are the cells
from the read position up to the write position.
-/

namespace Cosiris.Ring

variable {α : Type*}

/-- How many cells are in use between the positions `r` and `w`. -/
def used (r w : UInt32) : ℕ := (w - r).toNat

/-- The queue a buffer holds between the positions `r` and `w`. -/
def contents (buf : ℕ → α) (n : ℕ) (r w : UInt32) : List α :=
  (List.range (used r w)).map fun k => buf ((r.toNat + k) % n)

theorem used_eq (r w : UInt32) : used r w = (w.toNat + 2 ^ 32 - r.toNat) % 2 ^ 32 := by
  have hr := r.toNat_lt
  have hw := w.toNat_lt
  simp only [used, UInt32.toNat_sub]
  omega

@[simp] theorem used_self (r : UInt32) : used r r = 0 := by simp [used]

@[simp] theorem length_contents (buf : ℕ → α) (n : ℕ) (r w : UInt32) :
    (contents buf n r w).length = used r w := by simp [contents]

@[simp] theorem contents_self (buf : ℕ → α) (n : ℕ) (r : UInt32) : contents buf n r r = [] := by
  simp [contents]

/-- The positions meet exactly when the queue is empty. -/
theorem used_eq_zero_iff (r w : UInt32) : used r w = 0 ↔ r = w := by
  constructor
  · intro h
    rw [used_eq] at h
    have hr := r.toNat_lt
    have hw := w.toNat_lt
    exact UInt32.toNat_inj.mp (by omega)
  · rintro rfl
    exact used_self r

/-- The write position is `n` ahead of the read position exactly when the queue is full. -/
theorem used_eq_size_iff (r w n : UInt32) : used r w = n.toNat ↔ w = r + n := by
  have hr := r.toNat_lt
  have hw := w.toNat_lt
  have hn := n.toNat_lt
  rw [used_eq, ← UInt32.toNat_inj, UInt32.toNat_add]
  omega

theorem used_succ_right {r w : UInt32} (h : used r w + 1 < 2 ^ 32) :
    used r (w + 1) = used r w + 1 := by
  rw [used_eq] at h ⊢
  rw [used_eq, UInt32.toNat_add, UInt32.toNat_one]
  have hr := r.toNat_lt
  have hw := w.toNat_lt
  omega

theorem used_succ_left {r w : UInt32} (h : 0 < used r w) : used (r + 1) w + 1 = used r w := by
  rw [used_eq] at h ⊢
  rw [used_eq, UInt32.toNat_add, UInt32.toNat_one]
  have hr := r.toNat_lt
  have hw := w.toNat_lt
  omega

/-- Cells at different distances below `n` are different cells. -/
theorem cell_ne {n a i j : ℕ} (hij : i < j) (hj : j < n) : (a + i) % n ≠ (a + j) % n := by
  intro h
  have hm : i ≡ j [MOD n] := Nat.ModEq.add_left_cancel' a h
  exact hij.ne (hm.eq_of_lt_of_lt (hij.trans hj) hj)

/-! ### Positions that do not wrap -/

/-- The `k` cells from position `r` on. -/
def segment (buf : ℕ → α) (n r k : ℕ) : List α := (List.range k).map fun i => buf ((r + i) % n)

@[simp] theorem length_segment (buf : ℕ → α) (n r k : ℕ) : (segment buf n r k).length = k := by
  simp [segment]

@[simp] theorem segment_zero (buf : ℕ → α) (n r : ℕ) : segment buf n r 0 = [] := rfl

/-- Writing behind the last cell appends to the segment. -/
theorem segment_push (buf : ℕ → α) {n r k : ℕ} (x : α) (h : k < n) :
    segment (Function.update buf ((r + k) % n) x) n r (k + 1) = segment buf n r k ++ [x] := by
  unfold segment
  rw [List.range_succ, List.map_append, List.map_singleton, Function.update_self]
  congr 1
  refine List.map_congr_left fun i hi => ?_
  rw [List.mem_range] at hi
  rw [Function.update_of_ne (cell_ne hi h)]

/-- The first cell, and the segment that is left without it. -/
theorem segment_pop (buf : ℕ → α) (n r k : ℕ) :
    segment buf n r (k + 1) = buf (r % n) :: segment buf n (r + 1) k := by
  unfold segment
  rw [List.range_succ_eq_map, List.map_cons, List.map_map, Nat.add_zero]
  congr 1
  refine List.map_congr_left fun i _ => ?_
  show buf ((r + (i + 1)) % n) = buf ((r + 1 + i) % n)
  rw [Nat.add_assoc, Nat.add_comm i 1]

/-- A segment that does not pass the end of the buffer lies in it as it is. -/
theorem segment_linear (buf : ℕ → α) {n r k : ℕ} (h : r % n + k ≤ n) :
    segment buf n r k = (List.range k).map fun i => buf (r % n + i) := by
  unfold segment
  refine List.map_congr_left fun i hi => ?_
  rw [List.mem_range] at hi
  rw [Nat.add_mod, Nat.mod_eq_of_lt (show i < n by omega),
    Nat.mod_eq_of_lt (show r % n + i < n by omega)]

section Divides

variable {n : ℕ} (hn : n ∣ 2 ^ 32)

include hn

/-- The cell of a position that has wrapped. -/
theorem mod_wrap (a : ℕ) : a % 2 ^ 32 % n = a % n := Nat.mod_mod_of_dvd a hn

/-- The write position is the cell after the last one in use. -/
theorem write_cell (r w : UInt32) : w.toNat % n = (r.toNat + used r w) % n := by
  have hr := r.toNat_lt
  have hw := w.toNat_lt
  rw [← mod_wrap hn (r.toNat + used r w), used_eq]
  congr 1
  omega

/-- Writing at the write position appends to the queue. -/
theorem contents_push (buf : ℕ → α) {r w : UInt32} (x : α) (h : used r w < n) (hlt : n < 2 ^ 32) :
    contents (Function.update buf (w.toNat % n) x) n r (w + 1) = contents buf n r w ++ [x] := by
  have hu : used r (w + 1) = used r w + 1 := used_succ_right (by omega)
  unfold contents
  rw [hu, List.range_succ, List.map_append, List.map_singleton, write_cell hn r w,
    Function.update_self]
  congr 1
  refine List.map_congr_left fun k hk => ?_
  rw [List.mem_range] at hk
  rw [Function.update_of_ne (cell_ne hk h)]

/-- Reading at the read position takes the head of the queue. -/
theorem contents_pop (buf : ℕ → α) {r w : UInt32} (h : 0 < used r w) :
    contents buf n r w = buf (r.toNat % n) :: contents buf n (r + 1) w := by
  unfold contents
  rw [← used_succ_left h, List.range_succ_eq_map, List.map_cons, List.map_map, Nat.add_zero]
  congr 1
  refine List.map_congr_left fun k _ => ?_
  simp only [Function.comp, UInt32.toNat_add, UInt32.toNat_one]
  rw [← mod_wrap hn (r.toNat + (k + 1)), ← mod_wrap hn ((r.toNat + 1) % 2 ^ 32 + k)]
  congr 2
  omega

end Divides

end Cosiris.Ring
