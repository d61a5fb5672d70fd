import Mathlib.Algebra.Order.Group.Nat
import Mathlib.Data.Nat.ModEq

/-!
# One's complement sums of 16 bits

The sum of the 16-bit words of a byte string, with a carry out of the 16 bits added in again until
there is none. Read with the bytes of each word the other way round, the sum is the same with its
bytes the other way round; so it does not matter in which order a machine reads a word. -/

namespace Cosiris.Ones

/-- The sum of the words of a byte string, high byte first; a last odd byte is a word with 0
behind it. -/
def wordsBe : List UInt8 → ℕ
  | [] => 0
  | [a] => 256 * a.toNat
  | a :: b :: l => 256 * a.toNat + b.toNat + wordsBe l

/-- The sum of the words, low byte first. -/
def wordsLe : List UInt8 → ℕ
  | [] => 0
  | [a] => a.toNat
  | a :: b :: l => a.toNat + 256 * b.toNat + wordsLe l

/-- Add the carries in once. -/
def foldOnce (n : ℕ) : ℕ := n % 2 ^ 16 + n / 2 ^ 16

/-- Add the carries in until there are none. -/
def reduce (n : ℕ) : ℕ := if n = 0 then 0 else (n - 1) % (2 ^ 16 - 1) + 1

/-- A number of 16 bits with its bytes the other way round. -/
def swap16 (n : ℕ) : ℕ := n % 256 * 256 + n / 256

theorem reduce_of_lt {n : ℕ} (h : n < 2 ^ 16) : reduce n = n := by
  unfold reduce
  split_ifs
  · omega
  · omega

/-- Adding the carries in once more changes nothing. -/
theorem reduce_foldOnce (n : ℕ) : reduce (foldOnce n) = reduce n := by
  unfold reduce foldOnce
  split_ifs <;> omega

theorem reduce_lt (n : ℕ) : reduce n < 2 ^ 16 := by
  unfold reduce
  split_ifs <;> omega

theorem reduce_mod (n : ℕ) : reduce n % 65535 = n % 65535 := by
  unfold reduce
  split_ifs <;> omega

theorem reduce_eq_zero_iff {n : ℕ} : reduce n = 0 ↔ n = 0 := by
  unfold reduce
  by_cases h : n = 0
  · rw [if_pos h]
    exact ⟨fun _ => h, fun _ => rfl⟩
  · rw [if_neg h]
    exact ⟨fun h' => absurd h' (Nat.succ_ne_zero _), fun h' => absurd h' h⟩

/-- A sum that is not 0 is known from its remainder. -/
theorem reduce_eq_of_mod {n m : ℕ} (hn : 0 < n) (hm : 0 < m) (h : n % 65535 = m % 65535) :
    reduce n = reduce m := by
  unfold reduce
  rw [if_neg (by omega), if_neg (by omega)]
  omega

/-- All bits are set in the sum of a multiple of 2¹⁶ - 1. -/
theorem reduce_eq_full_iff {n : ℕ} : reduce n = 65535 ↔ 0 < n ∧ n % 65535 = 0 := by
  unfold reduce
  split_ifs with h
  · subst h
    decide
  · constructor
    · intro h'
      omega
    · rintro ⟨hn, h'⟩
      omega

/-- What leaves a reduced sum as it is: a multiple of 2¹⁶ - 1, of which only 0 can be added to 0. -/
theorem reduce_add_eq_iff {n m : ℕ} :
    reduce (n + m) = reduce n ↔ m % 65535 = 0 ∧ (n = 0 → m = 0) := by
  constructor
  · intro h
    have hmod := reduce_mod (n + m)
    rw [h, reduce_mod] at hmod
    refine ⟨by omega, fun h0 => ?_⟩
    rw [h0, Nat.zero_add, reduce_eq_zero_iff.mpr rfl] at h
    exact reduce_eq_zero_iff.mp h
  · rintro ⟨hm, h0⟩
    rcases Nat.eq_zero_or_pos n with hn | hn
    · rw [h0 hn, Nat.add_zero]
    · exact reduce_eq_of_mod (by omega) hn (by omega)

/-- A sum and its complement. -/
theorem reduce_add_compl (n : ℕ) : reduce (n + (65535 - reduce n)) = 65535 := by
  have hlt := reduce_lt n
  have hmod := reduce_mod n
  have hzero := @reduce_eq_zero_iff n
  rw [reduce_eq_full_iff]
  omega

theorem swap16_lt {n : ℕ} (h : n < 2 ^ 16) : swap16 n < 2 ^ 16 := by
  unfold swap16
  omega

theorem swap16_compl {n : ℕ} (h : n < 2 ^ 16) : swap16 (65535 - n) = 65535 - swap16 n := by
  unfold swap16
  omega

theorem swap16_mod (n : ℕ) : swap16 n % 65535 = 256 * n % 65535 := by
  unfold swap16
  omega

theorem swap16_eq_zero_iff {n : ℕ} : swap16 n = 0 ↔ n = 0 := by
  unfold swap16
  omega

theorem wordsLe_mod (l : List UInt8) : wordsLe l % 65535 = 256 * wordsBe l % 65535 := by
  induction l using wordsLe.induct with
  | case1 => rfl
  | case2 a =>
    unfold wordsLe wordsBe
    omega
  | case3 a b l ih =>
    unfold wordsLe wordsBe
    omega

theorem wordsLe_eq_zero_iff (l : List UInt8) : wordsLe l = 0 ↔ wordsBe l = 0 := by
  induction l using wordsLe.induct with
  | case1 => rfl
  | case2 a =>
    unfold wordsLe wordsBe
    omega
  | case3 a b l ih =>
    unfold wordsLe wordsBe
    omega

/-- **Byte order**: the sum with the words read the other way round is the sum the other way
round. -/
theorem reduce_wordsLe (l : List UInt8) : reduce (wordsLe l) = swap16 (reduce (wordsBe l)) := by
  have hlt := reduce_lt (wordsBe l)
  have hzero := wordsLe_eq_zero_iff l
  by_cases h0 : wordsLe l = 0
  · rw [h0, hzero.mp h0]
    rfl
  · have hpos : 0 < reduce (wordsBe l) := by
      rw [Nat.pos_iff_ne_zero, Ne, reduce_eq_zero_iff, ← hzero]
      exact h0
    have hs : 0 < swap16 (reduce (wordsBe l)) := by
      rw [Nat.pos_iff_ne_zero, Ne, swap16_eq_zero_iff]
      omega
    rw [← reduce_of_lt (swap16_lt hlt)]
    refine reduce_eq_of_mod (by omega) hs ?_
    rw [wordsLe_mod, swap16_mod, Nat.mul_mod 256 (reduce _), reduce_mod, ← Nat.mul_mod]

/-- Byte strings one behind the other, the first of whole words. -/
theorem wordsLe_append {l : List UInt8} (h : l.length % 2 = 0) (m : List UInt8) :
    wordsLe (l ++ m) = wordsLe l + wordsLe m := by
  induction l using wordsLe.induct with
  | case1 => rw [List.nil_append, wordsLe, Nat.zero_add]
  | case2 a => simp at h
  | case3 a b l ih =>
    have hl : l.length % 2 = 0 := by
      rw [List.length_cons, List.length_cons] at h
      omega
    rw [List.cons_append, List.cons_append, wordsLe, wordsLe, ih hl]
    omega

/-- Byte strings one behind the other: behind an odd number of bytes the words of the second begin
with a byte of 0. -/
theorem wordsBe_append (l m : List UInt8) :
    wordsBe (l ++ m) = wordsBe l + wordsBe (List.replicate (l.length % 2) 0 ++ m) := by
  induction l using wordsBe.induct with
  | case1 => exact (Nat.zero_add _).symm
  | case2 a =>
    cases m with
    | nil => rfl
    | cons b m =>
      show 256 * a.toNat + b.toNat + wordsBe m = 256 * a.toNat + (256 * 0 + b.toNat + wordsBe m)
      omega
  | case3 a b l ih =>
    have hparity : (a :: b :: l).length % 2 = l.length % 2 := by
      rw [List.length_cons, List.length_cons]
      omega
    rw [hparity, List.cons_append, List.cons_append, wordsBe, wordsBe, ih]
    omega

/-- A byte string, from whole words of its own and the rest. -/
theorem wordsBe_take_add_drop (l : List UInt8) {n : ℕ} (hn : n % 2 = 0) :
    wordsBe l = wordsBe (l.take n) + wordsBe (l.drop n) := by
  obtain hle | hlt := Nat.le_total l.length n
  · rw [List.take_of_length_le hle, List.drop_of_length_le hle]
    exact (Nat.add_zero _).symm
  · conv_lhs => rw [← List.take_append_drop n l, wordsBe_append, List.length_take_of_le hlt, hn]
    rw [List.replicate_zero, List.nil_append]

theorem wordsLe_le (l : List UInt8) : wordsLe l ≤ 65535 * ((l.length + 1) / 2) := by
  induction l using wordsLe.induct with
  | case1 => exact Nat.zero_le _
  | case2 a =>
    have := a.toNat_lt
    rw [wordsLe, List.length_singleton]
    omega
  | case3 a b l ih =>
    have := a.toNat_lt
    have := b.toNat_lt
    rw [wordsLe, List.length_cons, List.length_cons]
    omega

end Cosiris.Ones
