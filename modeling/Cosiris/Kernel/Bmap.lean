import Mathlib.Data.Nat.Notation
import Mathlib.Data.List.Basic
import Mathlib.Logic.Function.Basic

/-!
# Bitmaps

`bmap.c`: a bitmap is an array of words of 32 bits, and `last` is the bit that was handed out or
given back last. The search for a free bit begins in the word of `last` and goes on from the first
word. -/

namespace Cosiris

open Function

/-- `bmap_t`. -/
structure Bmap where
  size : ℕ
  last : ℕ
  data : ℕ → BitVec 32

namespace Bmap

/-- `bmap_alloc`. -/
def alloc (size : ℕ) : Bmap := ⟨size, 0, fun _ => 0⟩

/-- The bit is set. -/
def Used (b : Bmap) (bit : ℕ) : Prop := (b.data (bit / 32)).getLsbD (bit % 32) = true

instance (b : Bmap) (bit : ℕ) : Decidable (b.Used bit) :=
  inferInstanceAs (Decidable ((b.data (bit / 32)).getLsbD (bit % 32) = true))

/-- The inner loop of `bmap_scan_range`: the first bit of a word that is clear. -/
def clearBit (w : BitVec 32) : Option ℕ := (List.range 32).find? fun j => (w >>> j) &&& 1 = 0

/-- The outer loop of `bmap_scan_range`: the first bit that is clear in the words from `lo` up to
`hi`. -/
def scan (b : Bmap) (lo hi : ℕ) : Option ℕ :=
  (List.range' lo (hi - lo)).findSome? fun i =>
    if b.data i = 0xFFFFFFFF then none else (clearBit (b.data i)).map fun j => i * 32 + j

/-- The bitmap with the bit set. -/
def set (b : Bmap) (bit : ℕ) : Bmap :=
  { b with data := update b.data (bit / 32) (b.data (bit / 32) ||| 1#32 <<< (bit % 32)),
           last := bit }

/-- `bmap_scan_range`. -/
def scanRange (b : Bmap) (min max : ℕ) : Option (ℕ × Bmap) :=
  (b.scan (min / 32) (max / 32)).map fun bit => (bit, b.set bit)

/-- `bmap_get_free`. -/
def getFree (b : Bmap) : Option (ℕ × Bmap) :=
  match b.scanRange b.last b.size with
  | some r => some r
  | none => b.scanRange 0 b.last

section

variable {b : Bmap}

theorem shift_and_one_eq_zero_iff (w : BitVec 32) (j : ℕ) :
    (w >>> j) &&& 1 = 0 ↔ w.getLsbD j = false := by
  constructor
  · intro h
    have := congrArg (fun v => v.getLsbD 0) h
    simpa using this
  · intro h
    refine BitVec.eq_of_getLsbD_eq fun i hi => ?_
    cases i with
    | zero => simpa using h
    | succ i => simp [BitVec.getLsbD_one]

theorem full_word : ∀ j < 32, (0xFFFFFFFF : BitVec 32).getLsbD j = true := by decide

theorem clearBit_some {w : BitVec 32} {j : ℕ} (h : clearBit w = some j) :
    j < 32 ∧ w.getLsbD j = false := by
  have hmem := List.mem_of_find?_eq_some h
  have hp := List.find?_some h
  exact ⟨List.mem_range.mp hmem, (shift_and_one_eq_zero_iff w j).mp (by simpa using hp)⟩

theorem clearBit_ne_none {w : BitVec 32} (h : w ≠ 0xFFFFFFFF) : clearBit w ≠ none := by
  intro hn
  refine h (BitVec.eq_of_getLsbD_eq fun j hj => ?_)
  have hall := List.find?_eq_none.mp hn j (List.mem_range.mpr hj)
  rw [decide_eq_true_eq, shift_and_one_eq_zero_iff, Bool.not_eq_false] at hall
  rw [hall, full_word j hj]

/-- A search that finds a bit finds a clear one, in the words that are searched. -/
theorem scan_some {lo hi bit : ℕ} (h : b.scan lo hi = some bit) : ¬b.Used bit ∧ bit / 32 < hi := by
  obtain ⟨i, hi', hf⟩ := List.exists_of_findSome?_eq_some h
  split_ifs at hf
  obtain ⟨j, hj, rfl⟩ := Option.map_eq_some_iff.mp hf
  obtain ⟨hlt, hclear⟩ := clearBit_some hj
  have hdiv : (i * 32 + j) / 32 = i := by omega
  have hmod : (i * 32 + j) % 32 = j := by omega
  rw [List.mem_range'_1] at hi'
  unfold Used
  rw [hdiv, hmod, hclear]
  exact ⟨by simp, by omega⟩

/-- A search that finds none has met only words with all bits set. -/
theorem scan_none {lo hi bit : ℕ} (h : b.scan lo hi = none) (hlo : lo ≤ bit / 32)
    (hhi : bit / 32 < hi) : b.Used bit := by
  have hf := List.findSome?_eq_none_iff.mp h (bit / 32) (List.mem_range'_1.mpr (by omega))
  by_cases hw : b.data (bit / 32) = 0xFFFFFFFF
  · unfold Used
    rw [hw]
    exact full_word _ (Nat.mod_lt _ (by decide))
  · rw [if_neg hw, Option.map_eq_none_iff] at hf
    exact absurd hf (clearBit_ne_none hw)

theorem getLsbD_one_shift (j : ℕ) {k : ℕ} (hk : k < 32) :
    (1#32 <<< j).getLsbD k = decide (k = j) := by
  rw [BitVec.getLsbD_shiftLeft]
  simp only [hk, decide_true, Bool.true_and]
  rw [BitVec.getLsbD_one]
  by_cases h : k < j
  · simp [h]
    omega
  · simp [h]
    omega

@[simp] theorem used_set (b : Bmap) (bit bit' : ℕ) :
    (b.set bit).Used bit' ↔ bit' = bit ∨ b.Used bit' := by
  unfold Used set
  dsimp only
  by_cases hw : bit' / 32 = bit / 32
  · rw [hw, update_self, BitVec.getLsbD_or]
    have hone := getLsbD_one_shift (bit % 32) (Nat.mod_lt bit' (by decide))
    rw [hone, Bool.or_eq_true, decide_eq_true_eq, or_comm]
    have hiff : bit' % 32 = bit % 32 ↔ bit' = bit := by omega
    rw [hiff]
  · rw [update_of_ne hw]
    have hne : bit' ≠ bit := fun h => hw (by rw [h])
    simp [hne]

/-- `last` is a bit of the map. -/
def Valid (b : Bmap) : Prop := 32 ∣ b.size ∧ b.last < b.size

theorem getFree_some {bit : ℕ} {b' : Bmap} (hb : b.Valid) (h : b.getFree = some (bit, b')) :
    ¬b.Used bit ∧ bit < b.size ∧ b' = b.set bit := by
  obtain ⟨hdvd, hlast⟩ := hb
  have key : ∀ lo hi, hi ≤ b.size → b.scanRange lo hi = some (bit, b') →
    ¬b.Used bit ∧ bit < b.size ∧
    b' = b.set bit := by
    intro lo hi hle hs
    obtain ⟨bit', hs', he⟩ := Option.map_eq_some_iff.mp hs
    cases he
    obtain ⟨hu, hlt⟩ := scan_some hs'
    exact ⟨hu, by omega, rfl⟩
  unfold getFree at h
  cases hr : b.scanRange b.last b.size with
  | some r =>
    rw [hr] at h
    cases h
    exact key _ _ (Nat.le_refl _) hr
  | none =>
    rw [hr] at h
    exact key _ _ (Nat.le_of_lt hlast) h

theorem getFree_none (hb : b.Valid) (h : b.getFree = none) : ∀ bit < b.size, b.Used bit := by
  obtain ⟨hdvd, hlast⟩ := hb
  unfold getFree at h
  intro bit hbit
  cases hr : b.scanRange b.last b.size with
  | some r => rw [hr] at h; cases h
  | none =>
    rw [hr] at h
    have h₁ : b.scan (b.last / 32) (b.size / 32) = none := Option.map_eq_none_iff.mp hr
    have h₂ : b.scan (0 / 32) (b.last / 32) = none := Option.map_eq_none_iff.mp h
    by_cases hlo : b.last / 32 ≤ bit / 32
    · exact scan_none h₁ hlo (by omega)
    · exact scan_none h₂ (by omega) (by omega)

theorem Valid.set {bit : ℕ} (hb : b.Valid) (h : bit < b.size) : (b.set bit).Valid := ⟨hb.1, h⟩

@[simp] theorem not_used_alloc (size bit : ℕ) : ¬(alloc size).Used bit := by
  unfold Used alloc
  simp

end

end Bmap

end Cosiris
