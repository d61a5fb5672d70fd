import Cosiris.Libc.Scanf

/-!
# The digits that `get_int` takes

`get_int` takes the digits of its base, the letters of base 16 in either case. What a digit adds is
its value.
-/

namespace Cosiris.Scanf

open Printf (isDigit)

/-- The bases that `get_int` knows. -/
def IsBase (base : ℕ) : Prop := base = 2 ∨ base = 8 ∨ base = 10 ∨ base = 16

/-- A digit of a base. -/
def inBase (base : ℕ) (c : UInt8) : Bool :=
  (48 ≤ c && c ≤ 57 && c.toNat - 48 < base) ||
    (base = 16 && ((65 ≤ c && c ≤ 70) || (97 ≤ c && c ≤ 102)))

/-- The value of a digit. -/
def digitValue (c : UInt8) : ℕ :=
  if c ≤ 57 then c.toNat - 48 else if c ≤ 70 then c.toNat - 55 else c.toNat - 87

/-- A character in upper case. -/
def upper (c : UInt8) : UInt8 := if c ≥ 97 then c - 32 else c

section

variable {base : ℕ} {sign w neg xskip : Bool} {c : UInt8} {str : List UInt8} {width n : ℤ}

theorem IsBase.range (hbase : IsBase base) : 2 ≤ base ∧ base ≤ 16 := by
  obtain rfl | rfl | rfl | rfl := hbase <;> decide

/-- What holds of every byte and every base is a matter of cases. -/
theorem byte_cases {P : ℕ → UInt8 → Prop}
    (h : ∀ base ∈ [2, 8, 10, 16], ∀ k < 256, P base (.ofNat k))
    (hbase : IsBase base) (c : UInt8) : P base c := by
  have hk := h base (by unfold IsBase at hbase; simpa using hbase) c.toNat c.toNat_lt
  rwa [UInt8.ofNat_toNat] at hk

/-- The tests of the loop, which go over the character in upper case. -/
theorem inBase_iff (hbase : IsBase base) (c : UInt8) : inBase base c = true ↔
    ¬(¬isDigit (upper c) ∧ (base ≠ 16 ∨ upper c < 65 ∨ upper c > 70)) ∧
      ¬(base = 2 ∧ upper c > 49) ∧ ¬(base = 8 ∧ upper c > 55) := by
  refine byte_cases (P := fun base c => inBase base c = true ↔
    ¬(¬isDigit (upper c) ∧ (base ≠ 16 ∨ upper c < 65 ∨ upper c > 70)) ∧
      ¬(base = 2 ∧ upper c > 49) ∧ ¬(base = 8 ∧ upper c > 55)) ?_ hbase c
  decide +kernel

/-- The number that the loop adds for a digit. -/
theorem inBase_value (hbase : IsBase base) (hc : inBase base c) :
    (if base = 16 ∧ upper c ≥ 65 then upper c - 65 + 10 + 48 else upper c).toNat =
      48 + digitValue c := by
  refine byte_cases (P := fun base c => inBase base c = true →
    (if base = 16 ∧ upper c ≥ 65 then upper c - 65 + 10 + 48 else upper c).toNat =
      48 + digitValue c)
    ?_ hbase c hc
  decide +kernel

theorem inBase_ne (hc : inBase base c) : c ≠ 43 ∧ c ≠ 45 ∧ c ≠ 120 ∧ c ≠ 88 := by
  refine ⟨?_, ?_, ?_, ?_⟩ <;> rintro rfl <;> simp [inBase] at hc

theorem getIntLoop_inBase (hbase : IsBase base) (hc : inBase base c)
    (hw : ¬(w = true ∧ width = 0)) :
    getIntLoop base sign w (c :: str) width n neg xskip =
      getIntLoop base sign w str (if w then width - 1 else width)
        (Int.bmod (n * base + digitValue c) (2 ^ 64)) neg xskip := by
  obtain ⟨hplus, hminus, hx, hX⟩ := inBase_ne hc
  obtain ⟨hdigit, htwo, height⟩ := (inBase_iff hbase c).mp hc
  have hval := inBase_value hbase hc
  unfold upper at hdigit htwo height hval
  rw [getIntLoop, if_neg (fun h => hminus h.2.2.2), if_neg (fun h => h.2.2.elim hx hX), if_neg hw]
  dsimp only
  rw [if_neg hdigit, if_neg htwo, if_neg height, hval]
  congr 2
  push_cast
  omega

end

end Cosiris.Scanf
