import Cosiris.Kernel.Bmap
import Mathlib.Data.Int.Notation
import Mathlib.Algebra.Order.Group.Nat
import Mathlib.Algebra.Order.Ring.Int

/-!
# Bit numbers are of type `int`

`bmap_get_free` and `bmap_free` over runs with any bit numbers. The search looks at whole
words only, so that it does not see the last bits of a map whose size is not a multiple of
32, and `bmap_free` does not refuse negative numbers. Otherwise every call does what it
should (`runs_right`). -/

namespace Cosiris

open Function

/-- `bmap_t`, with numbers of type `int` and the words of memory from `data` on. -/
structure Bitmap where
  size : ℤ
  last : ℤ
  data : ℤ → BitVec 32

namespace Bitmap

/-- `bmap_alloc`: the block has `size / 8` bytes of zeros from `data` on, in memory `mem`. -/
def alloc (size : ℕ) (mem : ℤ → BitVec 32) : Bitmap where
  size := (BitVec.ofNat 32 size).toInt
  last := 0
  data i :=
    if 0 ≤ i ∧ i < size / 32 then 0
    else if i = size / 32 then mem i >>> (size / 8 % 4 * 8) <<< (size / 8 % 4 * 8)
    else mem i

/-- Bit `bit` is set. -/
def Used (b : Bitmap) (bit : ℕ) : Prop := (b.data (bit / 32 : ℕ)).getLsbD (bit % 32) = true

instance (b : Bitmap) (bit : ℕ) : Decidable (b.Used bit) :=
  inferInstanceAs (Decidable ((b.data (bit / 32 : ℕ)).getLsbD (bit % 32) = true))

/-- The loops of `bmap_scan_range`: the first word from `lo` up to `hi` that has a clear bit, and
the first one it has. -/
def scan (b : Bitmap) (lo hi : ℤ) : Option (ℤ × ℕ) :=
  (List.range (hi - lo).toNat).findSome? fun (k : ℕ) =>
    if b.data (lo + k) = 0xFFFFFFFF then none
    else (Bmap.clearBit (b.data (lo + k))).map fun j => (lo + k, j)

/-- `bmap_scan_range`. -/
def scanRange (b : Bitmap) (min max : ℤ) : ℤ × Bitmap :=
  match b.scan (min.tdiv 32) (max.tdiv 32) with
  | some (i, j) =>
    (i * 32 + j, { b with data := update b.data i (b.data i ||| 1#32 <<< j), last := i * 32 + j })
  | none => (-1, b)

/-- `bmap_get_free`. -/
def getFree (b : Bitmap) : ℤ × Bitmap :=
  let (bit, b) := b.scanRange b.last b.size
  if bit ≥ 0 then (bit, b) else b.scanRange 0 b.last

/-- `bmap_free`. The machine takes the count of a shift modulo 32. -/
def free (b : Bitmap) (bit : ℤ) : ℤ × Bitmap :=
  if bit ≥ b.size then (-1, b)
  else
    let i := bit.tdiv 32
    (0, { b with
          data := update b.data i (b.data i &&& ~~~(1#32 <<< (bit.tmod 32 % 32).toNat)),
          last := bit })

/-! ### Runs -/

/-- A call. -/
inductive Op
  | getFree
  | free (bit : ℤ)

/-- The result of a call, and the map after it. -/
def exec (b : Bitmap) : Op → ℤ × Bitmap
  | .getFree => b.getFree
  | .free bit => b.free bit

/-- A call on a map of `n` bits does what it should. -/
def Right (n : ℕ) (b : Bitmap) : Op → Prop
  | .getFree =>
    (b.getFree.1 = -1 ↔ ∀ k < n, b.Used k) ∧
    (b.getFree.1 = -1 → ∀ k, b.getFree.2.Used k ↔ b.Used k) ∧
    (b.getFree.1 ≠ -1 → ∃ bit : ℕ, b.getFree.1 = bit ∧ bit < n ∧ ¬b.Used bit ∧
      ∀ k, b.getFree.2.Used k ↔ k = bit ∨ b.Used k)
  | .free bit =>
    (0 ≤ bit ∧ bit < n → (b.free bit).1 = 0 ∧ ∀ k : ℕ, (b.free bit).2.Used k ↔ b.Used k ∧ k ≠ bit) ∧
    (¬(0 ≤ bit ∧ bit < n) → b.free bit = (-1, b))

/-- A call that the defects leave alone: there is a clear bit in a whole word, or none at all; the
number of a bit is not negative. -/
def Meets (n : ℕ) (b : Bitmap) : Op → Prop
  | .getFree => (∃ k < n / 32 * 32, ¬b.Used k) ∨ ∀ k < n, b.Used k
  | .free bit => 0 ≤ bit

/-- What holds of every call of a run. -/
def Along (P : Bitmap → Op → Prop) : Bitmap → List Op → Prop
  | _, [] => True
  | b, op :: ops => P b op ∧ Along P (b.exec op).2 ops

/-! ### One call -/

section

variable {b : Bitmap} {n k : ℕ} {lo hi i : ℤ} {j : ℕ}

/-- The last bit is a bit of the map. -/
structure Valid (n : ℕ) (b : Bitmap) : Prop where
  size : b.size = n
  last : 0 ≤ b.last ∧ b.last < n

theorem scan_some (h : b.scan lo hi = some (i, j)) :
    lo ≤ i ∧ i < hi ∧ j < 32 ∧ (b.data i).getLsbD j = false := by
  obtain ⟨k, hk, hf⟩ := List.exists_of_findSome?_eq_some h
  have hlt := List.mem_range.mp hk
  split_ifs at hf
  obtain ⟨j', hj, he⟩ := Option.map_eq_some_iff.mp hf
  cases he
  obtain ⟨hlt', hclear⟩ := Bmap.clearBit_some hj
  exact ⟨by omega, by omega, hlt', hclear⟩

theorem scan_none (h : b.scan lo hi = none) (hlo : lo ≤ i) (hhi : i < hi) (hj : j < 32) :
    (b.data i).getLsbD j = true := by
  have hmem : (i - lo).toNat ∈ List.range (hi - lo).toNat := List.mem_range.mpr (by omega)
  have hf := List.findSome?_eq_none_iff.mp h _ hmem
  have hi' : lo + ((i - lo).toNat : ℤ) = i := by omega
  rw [hi'] at hf
  by_cases hw : b.data i = 0xFFFFFFFF
  · rw [hw]
    exact Bmap.full_word j hj
  · rw [if_neg hw, Option.map_eq_none_iff] at hf
    exact absurd hf (Bmap.clearBit_ne_none hw)

theorem scanRange_some (h : b.scan (lo.tdiv 32) (hi.tdiv 32) = some (i, j)) :
    b.scanRange lo hi =
      (i * 32 + j,
        { b with data := update b.data i (b.data i ||| 1#32 <<< j), last := i * 32 + j }) := by
  rw [scanRange, h]

theorem scanRange_none (h : b.scan (lo.tdiv 32) (hi.tdiv 32) = none) :
    b.scanRange lo hi = (-1, b) := by
  rw [scanRange, h]

/-- A bit that is set. -/
theorem used_update_or (w : ℕ) (hj : j < 32) :
    Used { b with data := update b.data w (b.data w ||| 1#32 <<< j), last := lo } k ↔
      k = w * 32 + j ∨ b.Used k := by
  unfold Used
  dsimp only
  by_cases hw : k / 32 = w
  · have hbit := Bmap.getLsbD_one_shift j (Nat.mod_lt k (y := 32) (by decide))
    have hiff : k % 32 = j ↔ k = w * 32 + j := by omega
    rw [hw, update_self, BitVec.getLsbD_or, hbit, Bool.or_eq_true, decide_eq_true_eq, or_comm, hiff]
  · have hne : ((k / 32 : ℕ) : ℤ) ≠ w := by omega
    have hk : k ≠ w * 32 + j := by omega
    simp only [update_of_ne hne, hk, false_or]

/-- A bit that is cleared. -/
theorem used_update_and (w : ℕ) (hj : j < 32) :
    Used { b with data := update b.data w (b.data w &&& ~~~(1#32 <<< j)), last := lo } k ↔
      b.Used k ∧ k ≠ w * 32 + j := by
  unfold Used
  dsimp only
  by_cases hw : k / 32 = w
  · have hlt := Nat.mod_lt k (y := 32) (by decide)
    have hbit := Bmap.getLsbD_one_shift j hlt
    have hiff : k ≠ w * 32 + j ↔ k % 32 ≠ j := by omega
    rw [hw, update_self, BitVec.getLsbD_and, BitVec.getLsbD_not, hbit, hiff]
    simp [hlt]
  · have hne : ((k / 32 : ℕ) : ℤ) ≠ w := by omega
    have hk : k ≠ w * 32 + j := by omega
    simp only [update_of_ne hne, hk, ne_eq, not_false_iff, and_true]

/-- A clear bit is set and handed out. -/
def take (b : Bitmap) (w j : ℕ) : ℤ × Bitmap :=
  (w * 32 + j, { b with data := update b.data w (b.data w ||| 1#32 <<< j), last := w * 32 + j })

/-- A search in the words from `l / 32` up to `m / 32`. -/
theorem scanRange_cases (b : Bitmap) (l m : ℕ) :
    (∃ w j, j < 32 ∧ w < m / 32 ∧ ¬b.Used (w * 32 + j) ∧ b.scanRange l m = b.take w j) ∨
    b.scanRange l m = (-1, b) ∧ ∀ k, l / 32 ≤ k / 32 → k / 32 < m / 32 → b.Used k := by
  have hl : (l : ℤ).tdiv 32 = (l / 32 : ℕ) := (Int.ofNat_tdiv l 32).symm
  have hm : (m : ℤ).tdiv 32 = (m / 32 : ℕ) := (Int.ofNat_tdiv m 32).symm
  rcases h : b.scan ((l : ℤ).tdiv 32) ((m : ℤ).tdiv 32) with _ | ⟨i, j⟩
  · refine .inr ⟨scanRange_none h, fun k hlo hhi => ?_⟩
    rw [hl, hm] at h
    exact scan_none h (by omega) (by omega) (Nat.mod_lt _ (by decide))
  · have hs := scanRange_some h
    rw [hl, hm] at h
    obtain ⟨hlo, hhi, hj, hclear⟩ := scan_some h
    obtain ⟨w, rfl⟩ := Int.eq_ofNat_of_zero_le (by omega : 0 ≤ i)
    have hdiv : (w * 32 + j) / 32 = w := by omega
    have hmod : (w * 32 + j) % 32 = j := by omega
    refine .inl ⟨w, j, hj, by omega, ?_, hs⟩
    rw [Used, hdiv, hmod, hclear]
    exact Bool.false_ne_true

/-- What `bmap_get_free` does. -/
theorem getFree_cases (hb : Valid n b) :
    (∃ w j, j < 32 ∧ w < n / 32 ∧ ¬b.Used (w * 32 + j) ∧ b.getFree = b.take w j) ∨
    b.getFree = (-1, b) ∧ ∀ k < n / 32 * 32, b.Used k := by
  obtain ⟨hsize, hlast, hlt⟩ := hb
  obtain ⟨l, hl⟩ := Int.eq_ofNat_of_zero_le hlast
  unfold getFree
  rw [hl, hsize]
  rcases scanRange_cases b l n with ⟨w, j, hj, hw, hclear, hs⟩ | ⟨hs, hhigh⟩
  · have hpos : (0 : ℤ) ≤ w * 32 + j := by omega
    refine .inl ⟨w, j, hj, hw, hclear, ?_⟩
    rw [hs]
    exact if_pos hpos
  · rw [hs]
    rcases scanRange_cases b 0 l with ⟨w, j, hj, hw, hclear, hs'⟩ | ⟨hs', hlow⟩
    · exact .inl ⟨w, j, hj, by omega, hclear, by simpa [hl] using hs'⟩
    · refine .inr ⟨by simpa [hl] using hs', fun k hk => ?_⟩
      by_cases hlo : l / 32 ≤ k / 32
      · exact hhigh k hlo (by omega)
      · exact hlow k (Nat.zero_le _) (by omega)

theorem used_take {w j : ℕ} (hj : j < 32) : (b.take w j).2.Used k ↔ k = w * 32 + j ∨ b.Used k :=
  used_update_or w hj

/-- **When a search is right.** -/
theorem right_getFree_iff (hb : Valid n b) : Right n b .getFree ↔ Meets n b .getFree := by
  rcases getFree_cases hb with ⟨w, j, hj, hw, hclear, hrun⟩ | ⟨hrun, hall⟩
  · have hlt : w * 32 + j < n := by omega
    have hbit : (b.take w j).1 = (w * 32 + j : ℕ) := by simp [take]
    have hne : b.getFree.1 ≠ -1 := by
      rw [hrun, hbit]
      omega
    refine iff_of_true ⟨iff_of_false hne fun hall => hclear (hall _ hlt),
      fun h => absurd h hne, fun _ => ?_⟩
      (.inl ⟨w * 32 + j, by omega, hclear⟩)
    refine ⟨w * 32 + j, by rw [hrun, hbit], hlt, hclear, fun k => ?_⟩
    rw [hrun]
    exact used_take hj
  · have hone : b.getFree.1 = -1 := by rw [hrun]
    constructor
    · exact fun hr => .inr (hr.1.mp hone)
    · rintro (⟨k, hk, hclear⟩ | hfull)
      · exact absurd (hall k hk) hclear
      · exact ⟨iff_of_true hone hfull, fun _ k => by rw [hrun], fun h => absurd hone h⟩

/-- **When giving back a bit is right.** -/
theorem right_free_iff (hb : Valid n b) (hn : 0 < n) (bit : ℤ) :
    Right n b (.free bit) ↔ Meets n b (.free bit) := by
  have hsize := hb.size
  constructor
  · intro hr
    by_contra hneg
    have hneg' : ¬(0 ≤ bit ∧ bit < n) := fun h => hneg h.1
    have hres := congrArg Prod.fst (hr.2 hneg')
    have hlt : ¬bit ≥ b.size := by
      rw [hsize]
      exact fun hge => hneg (show (0 : ℤ) ≤ bit by omega)
    rw [free, if_neg hlt] at hres
    cases hres
  · intro hpos
    obtain ⟨k, rfl⟩ := Int.eq_ofNat_of_zero_le hpos
    by_cases hlt : k < n
    · have hge : ¬(k : ℤ) ≥ b.size := by omega
      have hdiv : (k : ℤ).tdiv 32 = (k / 32 : ℕ) := (Int.ofNat_tdiv k 32).symm
      have hmod : ((k : ℤ).tmod 32 % 32).toNat = k % 32 := by
        rw [Int.tmod_eq_emod_of_nonneg hpos]
        omega
      refine ⟨fun _ => ⟨by simp [free, hge], fun k' => ?_⟩, fun h => absurd ⟨hpos, by omega⟩ h⟩
      have hne : (k' : ℤ) ≠ k ↔ k' ≠ k / 32 * 32 + k % 32 := by omega
      rw [free, if_neg hge, hdiv, hmod, hne]
      exact used_update_and (k / 32) (Nat.mod_lt _ (by decide))
    · have hge : (k : ℤ) ≥ b.size := by omega
      exact ⟨fun h => absurd h.2 (by omega), fun _ => by rw [free, if_pos hge]⟩

/-- A call that meets the condition keeps the last bit in the map. -/
theorem Valid.exec {op : Op} (hb : Valid n b) (hop : Meets n b op) : Valid n (b.exec op).2 := by
  obtain ⟨hsize, hlast⟩ := hb
  cases op with
  | getFree =>
    rcases getFree_cases ⟨hsize, hlast⟩ with ⟨w, j, hj, hw, -, hrun⟩ | ⟨hrun, -⟩
    · show Valid n b.getFree.2
      rw [hrun]
      exact ⟨hsize, show (0 : ℤ) ≤ w * 32 + j ∧ (w * 32 + j : ℤ) < n by omega⟩
    · show Valid n b.getFree.2
      rw [hrun]
      exact ⟨hsize, hlast⟩
  | free bit =>
    show Valid n (b.free bit).2
    unfold free
    split_ifs with hge
    · exact ⟨hsize, hlast⟩
    · exact ⟨hsize, hop, show bit < n by omega⟩

theorem valid_alloc {mem : ℤ → BitVec 32} (hn : 0 < n) (hlt : n < 2 ^ 31) :
    Valid n (alloc n mem) where
  size := by
    show (BitVec.ofNat 32 n).toInt = n
    have hmod : n % 2 ^ 32 = n := Nat.mod_eq_of_lt (by omega)
    have hnat : (BitVec.ofNat 32 n).toNat = n := by rw [BitVec.toNat_ofNat, hmod]
    rw [BitVec.toInt_eq_toNat_of_lt (by omega), hnat]
  last := ⟨Int.le_refl 0, show (0 : ℤ) < n by omega⟩

end

/-- **Runs are right as far as their calls meet the condition.** The map has fewer than `2 ^ 31`
bits, and every call finds a clear bit in a whole word or none at all, or gives back a bit whose
number is not negative. -/
theorem runs_right (n : ℕ) (mem : ℤ → BitVec 32) (ops : List Op) (hn : 0 < n) (hlt : n < 2 ^ 31) :
    Along (Meets n) (alloc n mem) ops ↔ Along (Right n) (alloc n mem) ops := by
  suffices h : ∀ b, Valid n b →
    (Along (Meets n) b ops ↔ Along (Right n) b ops) from h _ (valid_alloc hn hlt)
  induction ops with
  | nil => exact fun b _ => Iff.rfl
  | cons op ops ih =>
    intro b hb
    have hiff : Right n b op ↔ Meets n b op := by
      cases op with
      | getFree => exact right_getFree_iff hb
      | free bit => exact right_free_iff hb hn bit
    unfold Along
    rw [hiff]
    exact and_congr_right fun hop => ih _ (hb.exec hop)

/-- A map of 32 bits: its bits are handed out and a number that is not a bit is refused. -/
theorem runs_right_word : 0 < 32 ∧ 32 < 2 ^ 31 ∧
    Along (Right 32) (alloc 32 fun _ => 0) [.getFree, .free 32] := by
  have hmeets : Along (Meets 32) (alloc 32 fun _ => 0) [.getFree, .free 32] :=
    ⟨.inl ⟨0, by decide, by decide⟩, show (0 : ℤ) ≤ 32 by decide, trivial⟩
  exact ⟨by decide, by decide, (runs_right 32 _ _ (by decide) (by decide)).mp hmeets⟩

/-- A map of one bit has none that is found. -/
theorem not_right_one_bit : ¬∀ (n : ℕ) (mem : ℤ → BitVec 32) (ops : List Op), 0 < n → n < 2 ^ 31 →
    Along (Right n) (alloc n mem) ops := by
  intro hall
  have hrun := (hall 1 (fun _ => 0) [.getFree] (by decide) (by decide)).1.1
  have hnone : (alloc 1 fun _ => 0).getFree.1 = -1 := by decide
  exact absurd (hrun.mp hnone 0 (by decide)) (by decide)

end Bitmap

end Cosiris
