import Mathlib.Data.List.GetD
import Mathlib.Logic.Function.Basic
import Mathlib.Data.Nat.Bitwise

/-!
# Bytes in memory

A stretch of memory is a function from addresses to bytes. Lists of bytes are
read from it and written to it; a number of `n` bytes lies in it least byte
first; and bit `k` is bit `k % 8` of byte `k / 8`. Each way of writing comes with
what it changes and what it leaves.
-/

namespace Cosiris

/-! ### Lists of bytes -/

/-- The `n` bytes from address `a`. -/
def getBytes (m : ℕ → UInt8) (a n : ℕ) : List UInt8 := (List.range n).map fun i => m (a + i)

/-- Memory with `bs` written from address `a`. -/
def putBytes (m : ℕ → UInt8) (a : ℕ) (bs : List UInt8) : ℕ → UInt8 := fun q =>
  if a ≤ q ∧ q < a + bs.length then bs.getD (q - a) 0 else m q

@[simp] theorem length_getBytes (m : ℕ → UInt8) (a n : ℕ) : (getBytes m a n).length = n := by
  simp [getBytes]

theorem getBytes_congr {m m' : ℕ → UInt8} {a n : ℕ} (h : ∀ i, i < n → m (a + i) = m' (a + i)) :
    getBytes m a n = getBytes m' a n := by
  unfold getBytes
  exact List.map_congr_left fun i hi => h i (List.mem_range.mp hi)

theorem getBytes_add (m : ℕ → UInt8) (a n k : ℕ) :
    getBytes m a (n + k) = getBytes m a n ++ getBytes m (a + n) k := by
  unfold getBytes
  rw [List.range_add, List.map_append, List.map_map]
  simp [Function.comp_def, Nat.add_assoc]

theorem putBytes_of_lt {m : ℕ → UInt8} {a q : ℕ} {bs : List UInt8} (h : q < a) :
    putBytes m a bs q = m q := by
  unfold putBytes
  rw [if_neg (by omega)]

theorem putBytes_of_ge {m : ℕ → UInt8} {a q : ℕ} {bs : List UInt8} (h : a + bs.length ≤ q) :
    putBytes m a bs q = m q := by
  unfold putBytes
  rw [if_neg (by omega)]

theorem putBytes_at {m : ℕ → UInt8} {a i : ℕ} {bs : List UInt8} (h : i < bs.length) :
    putBytes m a bs (a + i) = bs.getD i 0 := by
  unfold putBytes
  rw [if_pos (by omega), Nat.add_sub_cancel_left]

/-- What was written is read back. -/
theorem getBytes_putBytes (m : ℕ → UInt8) (a : ℕ) (bs : List UInt8) :
    getBytes (putBytes m a bs) a bs.length = bs := by
  refine List.ext_getElem (by simp) fun i h _ => ?_
  rw [length_getBytes] at h
  simp only [getBytes, List.getElem_map, List.getElem_range]
  rw [putBytes_at h, List.getD_eq_getElem _ _ h]

/-- Writing elsewhere changes nothing. -/
theorem getBytes_putBytes_disjoint {m : ℕ → UInt8} {a b n : ℕ} {bs : List UInt8}
    (h : a + n ≤ b ∨ b + bs.length ≤ a) : getBytes (putBytes m b bs) a n = getBytes m a n := by
  refine getBytes_congr fun i hi => ?_
  rcases h with h | h
  · exact putBytes_of_lt (by omega)
  · exact putBytes_of_ge (by omega)

theorem mem_getBytes {d : ℕ → UInt8} {a n i : ℕ} (hi : i < n) : d (a + i) ∈ getBytes d a n :=
  List.mem_map.mpr ⟨i, List.mem_range.mpr hi, rfl⟩

theorem getBytes_split {d : ℕ → UInt8} {p k : ℕ} {bs : List UInt8}
    (hbs : getBytes d p bs.length = bs) (hk : k ≤ bs.length) :
    getBytes d p k = bs.take k ∧ getBytes d (p + k) (bs.drop k).length = bs.drop k := by
  have hsplit := getBytes_add d p k (bs.length - k)
  rw [Nat.add_sub_cancel' hk, hbs] at hsplit
  rw [List.length_drop]
  have hlen : (getBytes d p k).length = k := length_getBytes ..
  refine ⟨?_, ?_⟩
  · rw [hsplit, List.take_left' hlen]
  · conv_rhs => rw [hsplit, List.drop_left' hlen]

theorem getBytes_append {d : ℕ → UInt8} {p : ℕ} {xs ys : List UInt8}
    (h : getBytes d p (xs ++ ys).length = xs ++ ys) :
    getBytes d p xs.length = xs ∧ getBytes d (p + xs.length) ys.length = ys := by
  obtain ⟨hx, hy⟩ :=
    getBytes_split h (show xs.length ≤ (xs ++ ys).length by rw [List.length_append]; omega)
  rw [List.take_left] at hx
  rw [List.drop_left] at hy
  exact ⟨hx, hy⟩

section

variable {m : ℕ → UInt8} {p : ℕ} {xs ys : List UInt8} {c : UInt8}

theorem putBytes_nil (m : ℕ → UInt8) (p : ℕ) : putBytes m p [] = m := by
  funext q
  have : ¬(p ≤ q ∧ q < p + ([] : List UInt8).length) := by simp
  rw [putBytes, if_neg this]

theorem putBytes_append :
    putBytes (putBytes m p xs) (p + xs.length) ys = putBytes m p (xs ++ ys) := by
  funext q
  rcases Nat.lt_or_ge q p with hlt | hge
  · rw [putBytes_of_lt (by omega), putBytes_of_lt hlt, putBytes_of_lt hlt]
  obtain ⟨j, rfl⟩ := Nat.exists_eq_add_of_le hge
  rcases Nat.lt_or_ge j xs.length with hx | hx
  · rw [putBytes_of_lt (by omega), putBytes_at hx, putBytes_at (by rw [List.length_append]; omega),
      List.getD_append _ _ _ _ hx]
  obtain ⟨k, rfl⟩ := Nat.exists_eq_add_of_le hx
  rcases Nat.lt_or_ge k ys.length with hy | hy
  · rw [← Nat.add_assoc, putBytes_at hy, Nat.add_assoc,
      putBytes_at (by rw [List.length_append]; omega),
      List.getD_append_right _ _ _ _ (by omega), Nat.add_sub_cancel_left]
  · rw [putBytes_of_ge (by omega), putBytes_of_ge (by omega), putBytes_of_ge]
    rw [List.length_append]
    omega

theorem putBytes_singleton : putBytes m p [c] = Function.update m p c := by
  funext q
  by_cases h : q = p
  · simp [h, putBytes]
  · have hout : ¬(p ≤ q ∧ q < p + [c].length) := by
      rw [List.length_singleton]
      omega
    rw [putBytes, if_neg hout, Function.update_of_ne h]

/-- A byte that is written before what follows it. -/
theorem update_putBytes : Function.update (putBytes m (p + 1) xs) p c = putBytes m p (c :: xs) := by
  have h : putBytes (putBytes m p [c]) (p + 1) xs = putBytes m p (c :: xs) :=
    @putBytes_append m p [c] xs
  rw [← h, putBytes_singleton]
  funext q
  by_cases hq : q = p
  · rw [hq, Function.update_self, putBytes_of_lt (by omega), Function.update_self]
  · rw [Function.update_of_ne hq]
    simp [putBytes, Function.update_of_ne hq]

end

/-! ### Numbers, least byte first -/

/-- The number a list of bytes stands for. -/
def leVal : List UInt8 → ℕ
  | [] => 0
  | b :: bs => b.toNat + 256 * leVal bs

/-- The low `n` bytes of a number. -/
def leBytes : ℕ → ℕ → List UInt8
  | 0, _ => []
  | n + 1, v => UInt8.ofNat v :: leBytes n (v / 256)

@[simp] theorem length_leBytes (n v : ℕ) : (leBytes n v).length = n := by
  induction n generalizing v with
  | zero => rfl
  | succ n ih => simp [leBytes, ih]

theorem leVal_lt (bs : List UInt8) : leVal bs < 256 ^ bs.length := by
  induction bs with
  | nil => simp [leVal]
  | cons b bs ih =>
    have := b.toNat_lt
    simp only [leVal, List.length_cons, Nat.pow_succ]
    omega

/-- Coding a number and decoding it keeps its low bytes. -/
theorem leVal_leBytes (n v : ℕ) : leVal (leBytes n v) = v % 256 ^ n := by
  induction n generalizing v with
  | zero => simp [leBytes, leVal, Nat.mod_one]
  | succ n ih =>
    have h : (UInt8.ofNat v).toNat = v % 256 := UInt8.toNat_ofNat'
    rw [leBytes, leVal, ih, h, Nat.pow_succ', Nat.mod_mul]

/-- Decoding bytes and coding them again gives them back. -/
theorem leBytes_leVal (bs : List UInt8) : leBytes bs.length (leVal bs) = bs := by
  induction bs with
  | nil => rfl
  | cons b bs ih =>
    have hb := b.toNat_lt
    have h0 : UInt8.ofNat (b.toNat + 256 * leVal bs) = b := by
      apply UInt8.toNat_inj.mp
      rw [UInt8.toNat_ofNat']
      omega
    have h1 : (b.toNat + 256 * leVal bs) / 256 = leVal bs := by omega
    simp only [List.length_cons, leBytes, leVal, h0, h1, ih]

/-- The number in the `n` bytes from address `a`. -/
def getLe (m : ℕ → UInt8) (a n : ℕ) : ℕ := leVal (getBytes m a n)

/-- Memory with a number written in the `n` bytes from address `a`. -/
def putLe (m : ℕ → UInt8) (a n v : ℕ) : ℕ → UInt8 := putBytes m a (leBytes n v)

theorem getLe_lt (m : ℕ → UInt8) (a n : ℕ) : getLe m a n < 256 ^ n := by
  have := leVal_lt (getBytes m a n)
  rwa [length_getBytes] at this

theorem getLe_congr {m m' : ℕ → UInt8} {a n : ℕ} (h : ∀ i, i < n → m (a + i) = m' (a + i)) :
    getLe m a n = getLe m' a n := by rw [getLe, getLe, getBytes_congr h]

@[simp] theorem getLe_putLe (m : ℕ → UInt8) (a n v : ℕ) :
    getLe (putLe m a n v) a n = v % 256 ^ n := by
  have := getBytes_putBytes m a (leBytes n v)
  rw [length_leBytes] at this
  rw [getLe, putLe, this, leVal_leBytes]

theorem getLe_putLe_disjoint {m : ℕ → UInt8} {a b n k v : ℕ} (h : a + n ≤ b ∨ b + k ≤ a) :
    getLe (putLe m b k v) a n = getLe m a n := by
  rw [getLe, putLe, getBytes_putBytes_disjoint (by rwa [length_leBytes]), getLe]

/-- Writing back the number that is there. -/
theorem putLe_self {m : ℕ → UInt8} {a n v : ℕ} (h : getLe m a n = v) : putLe m a n v = m := by
  have hbytes : leBytes n v = getBytes m a n := by
    have := leBytes_leVal (getBytes m a n)
    rwa [length_getBytes, show leVal (getBytes m a n) = v from h] at this
  funext q
  unfold putLe
  rw [hbytes]
  rcases Nat.lt_or_ge q a with hlt | hge
  · exact putBytes_of_lt hlt
  · rcases Nat.lt_or_ge q (a + n) with hin | hout
    · obtain ⟨i, rfl⟩ := Nat.exists_eq_add_of_le hge
      have hi : i < (getBytes m a n).length := by
        rw [length_getBytes]
        omega
      have hin' : i < n := by omega
      rw [putBytes_at hi]
      simp [getBytes, hin']
    · exact putBytes_of_ge (by rwa [length_getBytes])

theorem putLe_putLe {m : ℕ → UInt8} {a n v w : ℕ} :
    putLe (putLe m a n v) a n w = putLe m a n w := by
  funext q
  by_cases h : a ≤ q ∧ q < a + n
  · simp [putLe, putBytes, h]
  · simp [putLe, putBytes, h]

theorem putLe_comm {m : ℕ → UInt8} {a b n k v w : ℕ} (h : a + n ≤ b ∨ b + k ≤ a) :
    putLe (putLe m a n v) b k w = putLe (putLe m b k w) a n v := by
  funext q
  by_cases ha : a ≤ q ∧ q < a + n
  · have hb : ¬(b ≤ q ∧ q < b + k) := by omega
    simp [putLe, putBytes, ha, hb]
  · simp [putLe, putBytes, ha]

/-- Only the low bytes of a number are written. -/
theorem leBytes_mod (n v : ℕ) : leBytes n (v % 256 ^ n) = leBytes n v := by
  have h := leBytes_leVal (leBytes n v)
  rwa [length_leBytes, leVal_leBytes] at h

theorem putLe_mod {m : ℕ → UInt8} {a n v : ℕ} : putLe m a n (v % 256 ^ n) = putLe m a n v := by
  rw [putLe, leBytes_mod, putLe]

@[simp] theorem getLe_zero (a n : ℕ) : getLe (fun _ => 0) a n = 0 := by
  have h : ∀ k, leVal (List.replicate k 0) = 0 := by
    intro k
    induction k with
    | zero => rfl
    | succ k ih => simp [List.replicate_succ, leVal, ih]
  rw [getLe, getBytes, List.map_const', h]

/-! ### Records -/

/-- The bytes of a record, given as the widths and values of its fields. -/
def encode (fields : List (ℕ × ℕ)) : List UInt8 := fields.flatMap fun f => leBytes f.1 f.2

theorem length_encode (fields : List (ℕ × ℕ)) :
    (encode fields).length = (fields.map Prod.fst).sum := by
  induction fields with
  | nil => rfl
  | cons f fs ih =>
    unfold encode at *
    simp [ih]

/-- A part of what was written. -/
theorem getBytes_putBytes_part (m : ℕ → UInt8) (a : ℕ) (xs ys zs : List UInt8) :
    getBytes (putBytes m a (xs ++ (ys ++ zs))) (a + xs.length) ys.length = ys := by
  refine List.ext_getElem (by simp) fun i h h' => ?_
  rw [length_getBytes] at h
  simp only [getBytes, List.getElem_map, List.getElem_range]
  rw [Nat.add_assoc, putBytes_at (by simp only [List.length_append]; omega),
    List.getD_append_right _ _ _ _ (by omega), Nat.add_sub_cancel_left, List.getD_append _ _ _ _ h,
    List.getD_eq_getElem _ _ h]

/-- Every field of a record is read back. -/
theorem getLe_putBytes_encode (m : ℕ → UInt8) (a : ℕ) (pre post : List (ℕ × ℕ)) (w v : ℕ) :
    getLe (putBytes m a (encode (pre ++ (w, v) :: post))) (a + (pre.map Prod.fst).sum) w =
      v % 256 ^ w := by
  have h : encode (pre ++ (w, v) :: post) = encode pre ++ (leBytes w v ++ encode post) := by
    simp [encode]
  have := getBytes_putBytes_part m a (encode pre) (leBytes w v) (encode post)
  rw [length_encode, length_leBytes] at this
  rw [h, getLe, this, leVal_leBytes]

/-! ### Bits -/

/-- Bit `k` of memory. -/
def bitAt (m : ℕ → UInt8) (k : ℕ) : Bool := (m (k / 8)).toNat.testBit (k % 8)

/-- Memory with bit `k` set. -/
def setBit (m : ℕ → UInt8) (k : ℕ) : ℕ → UInt8 :=
  Function.update m (k / 8) (m (k / 8) ||| UInt8.ofNat (2 ^ (k % 8)))

/-- Memory with bit `k` cleared. -/
def clearBit (m : ℕ → UInt8) (k : ℕ) : ℕ → UInt8 :=
  Function.update m (k / 8) (m (k / 8) &&& ~~~ UInt8.ofNat (2 ^ (k % 8)))

theorem toNat_ofNat_two_pow {j : ℕ} (hj : j < 8) : (UInt8.ofNat (2 ^ j)).toNat = 2 ^ j := by
  rw [UInt8.toNat_ofNat']
  exact Nat.mod_eq_of_lt (Nat.pow_lt_pow_right (by decide) hj)

theorem testBit_or_two_pow (b : UInt8) {i j : ℕ} (hj : j < 8) :
    (b ||| UInt8.ofNat (2 ^ j)).toNat.testBit i = (b.toNat.testBit i || decide (j = i)) := by
  rw [UInt8.toNat_or, Nat.testBit_or, toNat_ofNat_two_pow hj, Nat.testBit_two_pow]

theorem testBit_and_not_two_pow (b : UInt8) {i j : ℕ} (hi : i < 8) (hj : j < 8) :
    (b &&& ~~~ UInt8.ofNat (2 ^ j)).toNat.testBit i = (b.toNat.testBit i && !decide (j = i)) := by
  rw [UInt8.toNat_and, Nat.testBit_and, UInt8.toNat_not, toNat_ofNat_two_pow hj]
  have h : UInt8.size - 1 - 2 ^ j = 2 ^ 8 - (2 ^ j + 1) := by
    rw [Nat.sub_sub, Nat.add_comm 1]
    rfl
  rw [h, Nat.testBit_two_pow_sub_succ (Nat.pow_lt_pow_right (by decide) hj), Nat.testBit_two_pow]
  simp [hi]

/-- A bit tested with a mask. -/
theorem and_two_pow_eq_zero_iff (b : UInt8) {j : ℕ} (hj : j < 8) :
    b &&& UInt8.ofNat (2 ^ j) = 0 ↔ b.toNat.testBit j = false := by
  rw [← UInt8.toNat_inj, UInt8.toNat_and, toNat_ofNat_two_pow hj]
  show b.toNat &&& 2 ^ j = 0 ↔ _
  rw [Nat.and_two_pow]
  cases b.toNat.testBit j <;> simp

theorem bitAt_setBit (m : ℕ → UInt8) (k j : ℕ) :
    bitAt (setBit m k) j = (bitAt m j || decide (j = k)) := by
  unfold bitAt setBit
  by_cases h : j / 8 = k / 8
  · rw [h, Function.update_self, testBit_or_two_pow _ (Nat.mod_lt _ (by decide))]
    congr 2
    exact propext ⟨fun _ => by omega, fun _ => by omega⟩
  · have hne : j ≠ k := fun e => h (by rw [e])
    rw [Function.update_of_ne h]
    simp [hne]

theorem bitAt_clearBit (m : ℕ → UInt8) (k j : ℕ) :
    bitAt (clearBit m k) j = (bitAt m j && !decide (j = k)) := by
  unfold bitAt clearBit
  by_cases h : j / 8 = k / 8
  · rw [h, Function.update_self,
      testBit_and_not_two_pow _ (Nat.mod_lt _ (by decide)) (Nat.mod_lt _ (by decide))]
    congr 3
    exact propext ⟨fun _ => by omega, fun _ => by omega⟩
  · have hne : j ≠ k := fun e => h (by rw [e])
    rw [Function.update_of_ne h]
    simp [hne]

/-- A byte is full iff its eight bits are set. -/
theorem eq_255_iff (b : UInt8) : b.toNat = 255 ↔ ∀ j, j < 8 → b.toNat.testBit j = true := by
  constructor
  · intro h j hj
    have : (255 : ℕ) = 2 ^ 8 - 1 := rfl
    rw [h, this, Nat.testBit_two_pow_sub_one]
    simpa using hj
  · intro h
    refine Nat.eq_of_testBit_eq fun j => ?_
    have h255 : (255 : ℕ) = 2 ^ 8 - 1 := rfl
    rw [h255, Nat.testBit_two_pow_sub_one]
    by_cases hj : j < 8
    · simp [h j hj, hj]
    · have : b.toNat < 2 ^ j :=
        Nat.lt_of_lt_of_le b.toNat_lt (Nat.pow_le_pow_right (by decide) (by omega))
      simp [Nat.testBit_lt_two_pow this, hj]

/-- A 32-bit word is full iff its bits are all set. -/
theorem getLe_full_iff (m : ℕ → UInt8) (w : ℕ) :
    getLe m (4 * w) 4 = 0xFFFFFFFF ↔ ∀ j, j < 32 → bitAt m (32 * w + j) = true := by
  have hval : getLe m (4 * w) 4 = (m (4 * w)).toNat + 256 * ((m (4 * w + 1)).toNat +
      256 * ((m (4 * w + 2)).toNat + 256 * (m (4 * w + 3)).toNat)) := rfl
  have hlt := fun q => (m q).toNat_lt
  have hbytes : getLe m (4 * w) 4 = 0xFFFFFFFF ↔ ∀ i, i < 4 → (m (4 * w + i)).toNat = 255 := by
    have h0 := hlt (4 * w)
    have h1 := hlt (4 * w + 1)
    have h2 := hlt (4 * w + 2)
    have h3 := hlt (4 * w + 3)
    rw [hval]
    constructor
    · intro h i hi
      rcases (by omega : i = 0 ∨ i = 1 ∨ i = 2 ∨ i = 3) with rfl | rfl | rfl | rfl
      · rw [Nat.add_zero]
        omega
      all_goals omega
    · intro h
      have e0 := h 0 (by decide)
      have e1 := h 1 (by decide)
      have e2 := h 2 (by decide)
      have e3 := h 3 (by decide)
      simp only [Nat.add_zero] at e0
      omega
  rw [hbytes]
  constructor
  · intro h j hj
    have h1 : (32 * w + j) / 8 = 4 * w + j / 8 := by omega
    unfold bitAt
    rw [h1]
    exact (eq_255_iff _).mp (h (j / 8) (by omega)) _ (Nat.mod_lt _ (by decide))
  · intro h i hi
    refine (eq_255_iff _).mpr fun j hj => ?_
    have := h (8 * i + j) (by omega)
    unfold bitAt at this
    rwa [show (32 * w + (8 * i + j)) / 8 = 4 * w + i by omega,
      show (32 * w + (8 * i + j)) % 8 = j by omega] at this

end Cosiris
