import Cosiris.Lib.Bytes
import Mathlib.Tactic.Ring

/-!
# Records converted in place

A record in memory has fields, each a number of some bytes at some place. A conversion
changes the numbers in its fields one after the other. Fields that lie apart do not
disturb each other, so that a conversion is undone field by field. Within a number, a
bit-field is a stretch of its bits.
-/

namespace Cosiris

/-! ### Bit-fields -/

/-- The `n` bits of `w` from bit `k` on. -/
def getBits (k n w : ℕ) : ℕ := w / 2 ^ k % 2 ^ n

/-- The number `w` with the `n` bits from bit `k` on set to `v`. -/
def setBits (k n v w : ℕ) : ℕ := w / 2 ^ (k + n) * 2 ^ (k + n) + v % 2 ^ n * 2 ^ k + w % 2 ^ k

section

variable {k n v w : ℕ}

theorem getBits_lt : getBits k n w < 2 ^ n := Nat.mod_lt _ (Nat.two_pow_pos n)

/-- The parts of a number below and from bit `k + n` on that `setBits` keeps. -/
theorem setBits_parts : setBits k n v w % 2 ^ k = w % 2 ^ k ∧
    setBits k n v w / 2 ^ k = w / 2 ^ (k + n) * 2 ^ n + v % 2 ^ n := by
  have hpos := Nat.two_pow_pos k
  have hlow := Nat.mod_lt w hpos
  have hsum : setBits k n v w = w % 2 ^ k + 2 ^ k * (w / 2 ^ (k + n) * 2 ^ n + v % 2 ^ n) := by
    unfold setBits
    rw [Nat.mul_add, Nat.pow_add]
    ring
  rw [hsum]
  constructor
  · rw [Nat.add_mul_mod_self_left, Nat.mod_eq_of_lt hlow]
  · rw [Nat.add_mul_div_left _ _ hpos, Nat.div_eq_of_lt hlow, Nat.zero_add]

end

/-- The number that has bit-fields of some widths, from the least significant on. -/
def pack : List (ℕ × ℕ) → ℕ
  | [] => 0
  | (n, v) :: fs => v % 2 ^ n + 2 ^ n * pack fs

/-- The stretches of `w` from bit `k` on that have the widths of a list. -/
def stretches (w : ℕ) : ℕ → List ℕ → List (ℕ × ℕ)
  | _, [] => []
  | k, n :: ns => (n, getBits k n w) :: stretches w (k + n) ns

section

variable {k n v w : ℕ} {fs pre post : List (ℕ × ℕ)} {ns : List ℕ}

theorem getBits_pack_cons : getBits (n + k) w (pack ((n, v) :: fs)) = getBits k w (pack fs) := by
  have hlt := Nat.mod_lt v (Nat.two_pow_pos n)
  rw [getBits, pack, Nat.pow_add, ← Nat.div_div_eq_div_mul,
    Nat.add_mul_div_left _ _ (Nat.two_pow_pos n), Nat.div_eq_of_lt hlt, Nat.zero_add, getBits]

/-- A field that was packed. -/
theorem getBits_pack (h : fs = pre ++ (n, v) :: post) (hk : (pre.map Prod.fst).sum = k) :
    getBits k n (pack fs) = v % 2 ^ n := by
  subst h hk
  induction pre with
  | nil =>
    rw [List.map_nil, List.sum_nil, List.nil_append, pack, getBits, Nat.pow_zero, Nat.div_one,
      Nat.add_mul_mod_self_left, Nat.mod_mod]
  | cons f pre ih =>
    rw [List.map_cons, List.sum_cons, List.cons_append, getBits_pack_cons, ih]

/-- All the fields that were packed. -/
theorem stretches_pack (pre fs : List (ℕ × ℕ)) :
    stretches (pack (pre ++ fs)) (pre.map Prod.fst).sum (fs.map Prod.fst) =
      fs.map fun f => (f.1, f.2 % 2 ^ f.1) := by
  induction fs generalizing pre with
  | nil => rfl
  | cons f fs ih =>
    have hrest := ih (pre ++ [f])
    rw [List.append_assoc, List.map_append, List.sum_append] at hrest
    rw [List.map_cons, stretches, getBits_pack rfl rfl]
    exact congrArg _ hrest

theorem pack_lt (fs : List (ℕ × ℕ)) : pack fs < 2 ^ (fs.map Prod.fst).sum := by
  induction fs with
  | nil => exact Nat.one_pos
  | cons f fs ih =>
    have hlt := Nat.mod_lt f.2 (Nat.two_pow_pos f.1)
    rw [List.map_cons, List.sum_cons, Nat.pow_add, pack]
    calc f.2 % 2 ^ f.1 + 2 ^ f.1 * pack fs
        < 2 ^ f.1 + 2 ^ f.1 * pack fs := Nat.add_lt_add_right hlt _
      _ = 2 ^ f.1 * (pack fs + 1) := by ring
      _ ≤ 2 ^ f.1 * 2 ^ (fs.map Prod.fst).sum := Nat.mul_le_mul_left _ ih

/-- The stretches of a number, packed again. -/
theorem pack_stretches : pack (stretches w k ns) = w / 2 ^ k % 2 ^ ns.sum := by
  induction ns generalizing k with
  | nil => simp [stretches, pack, Nat.mod_one]
  | cons n ns ih =>
    rw [stretches, pack, ih, List.sum_cons, Nat.pow_add 2 n, Nat.mod_mul, Nat.pow_add,
      Nat.div_div_eq_div_mul, getBits, Nat.mod_mod]

end

/-! ### Fields -/

/-- What is done to the number in a field. -/
structure Conv where
  pos : ℕ
  width : ℕ
  fn : ℕ → ℕ

namespace Conv

/-- Memory after the change of one field. -/
def apply (c : Conv) (m : ℕ → UInt8) : ℕ → UInt8 :=
  putLe m c.pos c.width (c.fn (getLe m c.pos c.width))

/-- Fields that have no byte in common. -/
def Apart (c c' : Conv) : Prop := c.pos + c.width ≤ c'.pos ∨ c'.pos + c'.width ≤ c.pos

instance (c c' : Conv) : Decidable (c.Apart c') := inferInstanceAs (Decidable (_ ∨ _))

/-- The changes are of the same field, and `c'` takes back what `c` does. -/
structure Undoes (c' c : Conv) : Prop where
  pos : c'.pos = c.pos
  width : c'.width = c.width
  fn : ∀ v < 256 ^ c.width, c'.fn (c.fn v % 256 ^ c.width) % 256 ^ c.width = v

end Conv

/-- Memory after the changes of a list. -/
def convert (cs : List Conv) (m : ℕ → UInt8) : ℕ → UInt8 := cs.foldl (fun m c => c.apply m) m

section

variable {c c' d : Conv} {cs cs' : List Conv} {m : ℕ → UInt8} {i n : ℕ}

/-! ### One field -/

theorem Conv.getLe_apply :
    getLe (c.apply m) c.pos c.width = c.fn (getLe m c.pos c.width) % 256 ^ c.width :=
  getLe_putLe ..

theorem Conv.getLe_apply_of_apart (h : i + n ≤ c.pos ∨ c.pos + c.width ≤ i) :
    getLe (c.apply m) i n = getLe m i n := getLe_putLe_disjoint h

theorem Conv.Apart.symm (h : c.Apart d) : d.Apart c := Or.symm h

/-- Changes of fields that lie apart may be made in either order. -/
theorem Conv.Apart.comm (h : c.Apart d) : d.apply (c.apply m) = c.apply (d.apply m) := by
  unfold Conv.apply
  rw [getLe_putLe_disjoint h.symm, getLe_putLe_disjoint h, putLe_comm h]

theorem Conv.Undoes.apply (h : c'.Undoes c) : c'.apply (c.apply m) = m := by
  have hfn := h.fn (getLe m c.pos c.width) (getLe_lt m c.pos c.width)
  rw [Conv.apply, h.pos, h.width, c.getLe_apply, Conv.apply, putLe_putLe, ← putLe_mod, hfn]
  exact putLe_self rfl

/-! ### Many fields -/

theorem convert_cons : convert (c :: cs) m = convert cs (c.apply m) := rfl

theorem convert_apply (h : ∀ d ∈ cs, c.Apart d) :
    convert cs (c.apply m) = c.apply (convert cs m) := by
  induction cs generalizing m with
  | nil => rfl
  | cons d cs ih =>
    obtain ⟨hd, hcs⟩ := List.forall_mem_cons.mp h
    rw [convert_cons, convert_cons, hd.comm, ih hcs]

theorem getLe_convert_of_apart (h : ∀ d ∈ cs, i + n ≤ d.pos ∨ d.pos + d.width ≤ i) :
    getLe (convert cs m) i n = getLe m i n := by
  induction cs generalizing m with
  | nil => rfl
  | cons d cs ih =>
    obtain ⟨hd, hcs⟩ := List.forall_mem_cons.mp h
    rw [convert_cons, ih hcs, Conv.getLe_apply_of_apart hd]

/-- A field that is converted. -/
theorem getLe_convert (hcs : cs.Pairwise Conv.Apart) (hc : c ∈ cs) :
    getLe (convert cs m) c.pos c.width = c.fn (getLe m c.pos c.width) % 256 ^ c.width := by
  induction cs generalizing m with
  | nil => cases hc
  | cons d cs ih =>
    obtain ⟨hd, hcs⟩ := List.pairwise_cons.mp hcs
    rw [convert_cons]
    rcases List.mem_cons.mp hc with rfl | hmem
    · rw [getLe_convert_of_apart hd, c.getLe_apply]
    · rw [ih hcs hmem, Conv.getLe_apply_of_apart (hd c hmem).symm]

/-- **A conversion is undone field by field.** -/
theorem convert_undo (hcs : cs.Pairwise Conv.Apart) (h : List.Forall₂ Conv.Undoes cs' cs) :
    convert cs' (convert cs m) = m := by
  induction h generalizing m with
  | nil => rfl
  | @cons c' c cs' cs hc hrest ih =>
    obtain ⟨hd, hcs⟩ := List.pairwise_cons.mp hcs
    rw [convert_cons, convert_cons, convert_apply hd, hc.apply, ih hcs]

end

end Cosiris
