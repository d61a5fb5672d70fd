import Cosiris.Libc.PrintScan
import Mathlib.Data.Nat.Find

/-!
# The integers that `get_int` takes

A token is a sign, for a signed number in base 10, or the mark `0x`, in base 16, and digits.
`get_int` knows `-` and `x` at every place of a number, does not know `+`, does not count the `x`,
and cuts the number to 64 bits.
-/

namespace Cosiris.Scanf

open Printf (isDigit)

/-! ### Tokens -/

/-- What may stand before the digits. -/
def isFront (base : ℕ) (sign : Bool) (front : List UInt8) : Prop :=
  front = [] ∨ (base = 10 ∧ sign ∧ (front = [43] ∨ front = [45])) ∨
    (base = 16 ∧ (front = [48, 120] ∨ front = [48, 88]))

/-- An integer in a base. -/
structure Token (base : ℕ) (sign : Bool) where
  front : List UInt8
  digits : List UInt8
  front_mem : isFront base sign front
  digits_mem : ∀ c ∈ digits, inBase base c

namespace Token

variable {base : ℕ} {sign : Bool} (t : Token base sign)

/-- The characters. -/
def text : List UInt8 := t.front ++ t.digits

/-- There is a `-`. -/
def minus : Bool := t.front = [45]

/-- The number that the digits are. -/
def magnitude : ℕ := t.digits.foldl (fun n c => n * base + digitValue c) 0

/-- The number. -/
def value : ℤ := if t.minus then -(t.magnitude : ℤ) else t.magnitude

/-- There is a `0x`. -/
def marked : Bool := t.front = [48, 120] ∨ t.front = [48, 88]

/-- A string begins with the token, and the width holds it. -/
def At (width : ℤ) (str : List UInt8) : Prop := t.text <+: str ∧ (0 < width → t.text.length ≤ width)

/-- The longest token that a string begins with and the width holds. -/
def Longest (width : ℤ) (str : List UInt8) : Prop :=
  t.At width str ∧ ∀ t' : Token base sign, t'.At width str → t'.text.length ≤ t.text.length

end Token

/-- `get_int` takes a token: what it returns, and what it leaves. -/
def Takes (width : ℤ) (str : List UInt8) {base : ℕ} {sign : Bool} (t : Token base sign) : Prop :=
  getInt str width base sign = (t.value, str.drop t.text.length)

/-- A number is not followed by what `get_int` takes at every place: by `-` if it is signed and has
none, by `x` in base 16 if it has none. A token with `0x` is not cut by the width, and one with `+`
is not taken at all. -/
def Token.Ends {base : ℕ} {sign : Bool} (t : Token base sign) (width : ℤ)
  (rest : List UInt8) : Prop :=
  (base = 10 → sign → t.front ≠ [43] ∧ (t.minus ∨ rest.head? ≠ some 45)) ∧
    (base = 16 → if t.marked then 0 < width → ∀ c ∈ rest.head?, ¬inBase base c
      else rest.head? ≠ some 120 ∧ rest.head? ≠ some 88)

/-- The number is one of `long long`. -/
def Token.Fits {base : ℕ} {sign : Bool} (t : Token base sign) : Prop :=
  t.magnitude < 2 ^ 63 ∨ t.minus ∧ t.magnitude = 2 ^ 63

/-! ### The loop -/

section

variable {base : ℕ} {sign w neg xskip : Bool} {c : UInt8} {str rest ds : List UInt8} {width n : ℤ}

/-- What is left is not longer than the string. -/
theorem getIntLoop_length :
    (getIntLoop base sign w str width n neg xskip).2.2.length ≤ str.length := by
  induction str generalizing width n neg xskip with
  | nil => exact le_rfl
  | cons c str ih =>
    rw [getIntLoop]
    dsimp only
    split_ifs <;> first | exact ih.trans (Nat.le_succ _) | exact le_rfl

theorem getIntLoop_minus : getIntLoop 10 true w (45 :: str) width n false xskip =
    getIntLoop 10 true w str (if w then width - 1 else width) n true xskip := by
  rw [getIntLoop, if_pos ⟨rfl, by decide, rfl, rfl⟩]

theorem getIntLoop_x (hc : c = 120 ∨ c = 88) : getIntLoop 16 sign w (c :: str) width n neg false =
    getIntLoop 16 sign w str width 0 neg true := by
  rw [getIntLoop, if_neg (fun h => absurd h.2.2.1 (by decide)), if_pos ⟨rfl, by decide, hc⟩]

/-- The loop stops before a character that is none of those it takes. -/
theorem getIntLoop_stop (hbase : IsBase base)
    (hstop : ∀ c ∈ str.head?, ¬(sign = true ∧ ¬neg = true ∧ base = 10 ∧ c = 45) ∧
      ¬(base = 16 ∧ ¬xskip = true ∧ (c = 120 ∨ c = 88)) ∧
        ((w = true ∧ width = 0) ∨ ¬inBase base c)) :
    getIntLoop base sign w str width n neg xskip = (n, neg, str) := by
  cases str with
  | nil => rfl
  | cons c str =>
    obtain ⟨hminus, hx, hend⟩ := hstop c rfl
    rw [getIntLoop, if_neg hminus, if_neg hx]
    by_cases hw : w = true ∧ width = 0
    · rw [if_pos hw]
    · rw [if_neg hw]
      have hno := hend.resolve_left hw
      rw [inBase_iff hbase] at hno
      unfold upper at hno
      dsimp only
      generalize (if c ≥ 97 then c - 32 else c) = d at hno ⊢
      by_cases hdigit : ¬isDigit d = true ∧ (base ≠ 16 ∨ d < 65 ∨ d > 70)
      · rw [if_pos hdigit]
      · rw [if_neg hdigit]
        by_cases htwo : base = 2 ∧ d > 49
        · rw [if_pos htwo]
        · rw [if_neg htwo, if_pos (by_contra fun height => hno ⟨hdigit, htwo, height⟩)]

/-- A number that is cut at every digit is the number cut once. -/
theorem bmod_digit (m : ℤ) (d : ℕ) : Int.bmod (Int.bmod m (2 ^ 64) * base + d) (2 ^ 64) =
    Int.bmod (m * base + d) (2 ^ 64) := by
  rw [← Int.bmod_add_bmod, Int.bmod_mul_bmod, Int.bmod_add_bmod]

/-- The loop over digits that the width holds. -/
theorem getIntLoop_digits (hbase : IsBase base) (hds : ∀ c ∈ ds, inBase base c)
    (hw : w = true → (ds.length : ℤ) ≤ width) (m : ℕ) :
    getIntLoop base sign w (ds ++ rest) width (Int.bmod m (2 ^ 64)) neg xskip =
      getIntLoop base sign w rest (if w then width - ds.length else width)
        (Int.bmod (ds.foldl (fun n c => n * base + digitValue c) m : ℕ) (2 ^ 64)) neg xskip := by
  induction ds generalizing width m with
  | nil => simp
  | cons c ds ih =>
    obtain ⟨hc, hds⟩ := List.forall_mem_cons.mp hds
    rw [List.length_cons, Nat.cast_add_one] at hw ⊢
    have hroom : ¬(w = true ∧ width = 0) := fun h => by
      have hlen := hw h.1
      omega
    have hnext := @bmod_digit base m (digitValue c)
    have hcast : (m : ℤ) * base + digitValue c = ((m * base + digitValue c : ℕ) : ℤ) := by
      push_cast; rfl
    rw [List.cons_append, getIntLoop_inBase hbase hc hroom, hnext, hcast]
    cases w with
    | false => exact ih hds nofun _
    | true =>
      rw [if_pos rfl, ih hds (fun _ => by have hlen := hw rfl; omega), if_pos rfl, if_pos rfl,
        List.foldl_cons,
        Int.sub_sub, Int.add_comm 1]

end

/-! ### Tokens in the loop -/

section

variable {base : ℕ} {sign w : Bool} {str rest : List UInt8} {width : ℤ} {t : Token base sign}

/-- The width that is left behind a token. The `x` is not counted. -/
def Token.left (t : Token base sign) (w : Bool) (width : ℤ) : ℤ :=
  if w then width - (if t.front = [] then 0 else 1) - t.digits.length else width

/-- The loop takes a token that has no `+`. -/
theorem getIntLoop_token (hbase : IsBase base) (hplus : t.front ≠ [43])
    (hw : w = true → (t.text.length : ℤ) ≤ width) :
    getIntLoop base sign w (t.text ++ rest) width 0 false false =
      getIntLoop base sign w rest (t.left w width)
        (Int.bmod t.magnitude (2 ^ 64)) t.minus t.marked := by
  obtain ⟨front, digits, hfront, hdigits⟩ := t
  have hloop (width : ℤ) (hlen : w = true → (digits.length : ℤ) ≤ width) (neg xskip : Bool) :=
    @getIntLoop_digits base sign w neg xskip rest digits width hbase hdigits hlen 0
  have hw' : w = true → (front.length + digits.length : ℤ) ≤ width := fun h => by
    have hlen := hw h
    unfold Token.text at hlen
    rw [List.length_append, Nat.cast_add] at hlen
    exact hlen
  unfold Token.text Token.left
  dsimp only at hplus ⊢
  rcases hfront with rfl | ⟨rfl, rfl, rfl | rfl⟩ | ⟨rfl, hmark⟩
  · rw [if_pos rfl, Int.sub_zero]
    exact hloop width (fun h => by simpa using hw' h) _ _
  · exact absurd rfl hplus
  · show getIntLoop 10 true w (45 :: (digits ++ rest)) width 0 false false = _
    rw [getIntLoop_minus, if_neg (List.cons_ne_nil _ _)]
    cases w with
    | false => exact hloop width nofun _ _
    | true =>
      refine hloop (width - 1) (fun h => ?_) _ _
      have hlen := hw' h
      rw [List.length_singleton] at hlen
      omega
  · obtain ⟨x, hx, rfl⟩ : ∃ x : UInt8, (x = 120 ∨ x = 88) ∧ front = [48, x] := by
      rcases hmark with rfl | rfl
      · exact ⟨120, .inl rfl, rfl⟩
      · exact ⟨88, .inr rfl, rfl⟩
    have hmarked : (decide ([48, x] = [48, 120] ∨ [48, x] = [48, 88])) = true := by
      rcases hx with rfl | rfl <;> decide
    have hroom : ¬(w = true ∧ width = 0) := fun h => by
      have hlen := hw' h.1
      simp at hlen
      omega
    show getIntLoop 16 sign w (48 :: x :: (digits ++ rest)) width 0 false false = _
    rw [getIntLoop_inBase (.inr (.inr (.inr rfl))) (by decide) hroom, getIntLoop_x hx,
      if_neg (List.cons_ne_nil _ _)]
    unfold Token.marked
    dsimp only
    rw [hmarked]
    cases w with
    | false => exact hloop width nofun _ _
    | true =>
      refine hloop (width - 1) (fun h => ?_) _ _
      have hlen := hw' h
      simp at hlen
      omega

theorem getInt_loop (hbase : IsBase base) : getInt str width base sign =
    let r := getIntLoop base sign (decide (width > 0)) str width 0 false false
    (if r.2.1 ∧ r.1 > 0 then -r.1 else r.1, r.2.2) := by
  have hknown : ¬(base ≠ 2 ∧ base ≠ 8 ∧ base ≠ 10 ∧ base ≠ 16) := by
    obtain rfl | rfl | rfl | rfl := hbase <;> decide
  unfold getInt
  rw [if_neg hknown]

/-- The number is returned when it is one of `long long`. -/
theorem value_iff :
    (if t.minus ∧ Int.bmod t.magnitude (2 ^ 64) > 0 then -Int.bmod t.magnitude (2 ^ 64)
    else Int.bmod t.magnitude (2 ^ 64)) = t.value ↔ t.Fits := by
  unfold Token.value Token.Fits
  generalize t.magnitude = m
  rw [Int.bmod_def]
  cases t.minus <;>
    simp only [Bool.false_eq_true, false_and, true_and, if_false, if_true, or_false] <;>
    split_ifs <;> omega

/-- A digit behind the longest token is one that the width does not hold. -/
theorem Token.Longest.full (h : t.Longest width str) {c : UInt8} (hrest : str = t.text ++ rest)
    (hhead : rest.head? = some c)
    (hc : inBase base c) : 0 < width ∧ (t.text.length : ℤ) = width := by
  obtain ⟨rest', rfl⟩ : ∃ rest', rest = c :: rest' := List.head?_eq_some_iff.mp hhead
  have hmem : ∀ d ∈ t.digits ++ [c], inBase base d := fun d hd =>
    (List.mem_append.mp hd).elim (t.digits_mem d) fun hd => List.mem_singleton.mp hd ▸ hc
  have htext : (Token.mk t.front (t.digits ++ [c]) t.front_mem hmem).text = t.text ++ [c] :=
    (List.append_assoc ..).symm
  by_contra hfull
  have hlonger := h.2 ⟨t.front, t.digits ++ [c], t.front_mem, hmem⟩ ⟨?_, fun hw => ?_⟩
  · rw [htext, List.length_append, List.length_singleton] at hlonger
    omega
  · rw [htext, hrest]
    exact ⟨rest', by simp⟩
  · have hle := h.1.2 hw
    rw [htext, List.length_append, List.length_singleton]
    push_cast
    omega

/-- There is a longest token. -/
theorem exists_longest (base : ℕ) (sign : Bool) (width : ℤ) (str : List UInt8) :
    ∃ t : Token base sign, t.Longest width str := by
  classical
  let P (n : ℕ) : Prop := ∃ t : Token base sign, t.At width str ∧ t.text.length = n
  have hzero : P 0 := ⟨⟨[], [], .inl rfl, nofun⟩, ⟨List.nil_prefix, fun hw => hw.le⟩, rfl⟩
  obtain ⟨t, hat, hlen⟩ := Nat.findGreatest_spec (P := P) (Nat.zero_le str.length) hzero
  refine ⟨t, hat, fun t' hat' => ?_⟩
  rw [hlen]
  exact Nat.le_findGreatest hat'.1.length_le ⟨t', hat', rfl⟩

/-! ### What is taken -/

theorem takes_loop (hbase : IsBase base) (hrest : str = t.text ++ rest) (hplus : t.front ≠ [43])
    (hwidth : 0 < width → (t.text.length : ℤ) ≤ width) {n : ℤ} {neg : Bool} {str' : List UInt8}
    (hloop : getIntLoop base sign (decide (width > 0)) rest (t.left (decide (width > 0)) width)
      (Int.bmod t.magnitude (2 ^ 64)) t.minus t.marked = (n, neg, str')) :
    Takes width str t ↔ (if neg ∧ n > 0 then -n else n) = t.value ∧ str' = rest := by
  unfold Takes
  rw [hrest, List.drop_left, getInt_loop hbase,
    getIntLoop_token hbase hplus (fun h => hwidth (of_decide_eq_true h)), hloop, Prod.mk.injEq]

/-- What is left behind a token whose front is cut by nothing. -/
theorem left_eq (hmarked : t.marked = false) (hwidth : 0 < width) :
    t.left (decide (width > 0)) width = width - t.text.length := by
  unfold Token.left Token.text
  rw [if_pos (decide_eq_true hwidth), List.length_append]
  rcases t.front_mem with h | ⟨-, -, h | h⟩ | ⟨-, h⟩
  · rw [h]
    simp
  · rw [h]
    simp
    omega
  · rw [h]
    simp
    omega
  · unfold Token.marked at hmarked
    exact absurd h (of_decide_eq_false hmarked)

theorem left_marked (hmarked : t.marked = true) (hwidth : 0 < width) :
    t.left (decide (width > 0)) width = width - t.text.length + 1 := by
  unfold Token.marked at hmarked
  unfold Token.left Token.text
  rw [if_pos (decide_eq_true hwidth), List.length_append]
  rcases of_decide_eq_true hmarked with h | h
  · rw [h]
    simp
    omega
  · rw [h]
    simp
    omega

theorem base_of_marked (hmarked : t.marked = true) : base = 16 := by
  unfold Token.marked at hmarked
  rcases t.front_mem with h | ⟨-, -, h | h⟩ | ⟨h16, -⟩
  · exact absurd (of_decide_eq_true hmarked) (by rw [h]; simp)
  · exact absurd (of_decide_eq_true hmarked) (by rw [h]; simp)
  · exact absurd (of_decide_eq_true hmarked) (by rw [h]; simp)
  · exact h16

/-- The loop stops behind a token that ends. -/
theorem stops_of_ends (hbase : IsBase base) (h : t.Longest width str) (hrest : str = t.text ++ rest)
    (hends : t.Ends width rest) :
    getIntLoop base sign (decide (width > 0)) rest (t.left (decide (width > 0)) width)
      (Int.bmod t.magnitude (2 ^ 64)) t.minus t.marked =
        (Int.bmod t.magnitude (2 ^ 64), t.minus, rest) := by
  refine getIntLoop_stop hbase fun c hc => ⟨?_, ?_, ?_⟩
  · rintro ⟨hsign, hminus, hten, rfl⟩
    exact ((hends.1 hten hsign).2.resolve_left hminus) hc
  · rintro ⟨hhex, hmarked, hx⟩
    have hno := hends.2 hhex
    rw [if_neg hmarked] at hno
    rcases hx with rfl | rfl
    · exact hno.1 hc
    · exact hno.2 hc
  · by_cases hdigit : inBase base c
    · obtain ⟨hpos, hfull⟩ := h.full hrest hc hdigit
      refine .inl ⟨decide_eq_true hpos, ?_⟩
      cases hmarked : t.marked with
      | false =>
        rw [left_eq hmarked hpos, hfull, Int.sub_self]
      | true =>
        have hno := hends.2 (base_of_marked hmarked)
        rw [if_pos hmarked] at hno
        exact absurd hdigit (hno hpos c hc)
    · exact .inr hdigit

/-- A token with `+` is not taken. -/
theorem not_takes_plus (hbase : IsBase base) (hrest : str = t.text ++ rest)
    (hplus : t.front = [43]) :
    ¬Takes width str t := by
  have hstr : str = 43 :: (t.digits ++ rest) := by
    rw [hrest]
    unfold Token.text
    rw [hplus]
    rfl
  have hstop : getIntLoop base sign (decide (width > 0)) str width 0 false false =
    (0, false, str) := by
    refine getIntLoop_stop hbase fun c hc => ?_
    rw [hstr] at hc
    obtain rfl : 43 = c := Option.some.inj hc
    exact ⟨fun h => absurd h.2.2.2 (by decide), fun h => absurd h.2.2 (by decide),
      .inr (by simp [inBase])⟩
  intro htakes
  unfold Takes at htakes
  rw [getInt_loop hbase, hstop] at htakes
  have hlen := congrArg List.length (Prod.mk.inj htakes).2
  have hpos : 0 < t.text.length := by
    unfold Token.text
    rw [hplus]
    simp
  rw [hrest, List.drop_left, List.length_append] at hlen
  omega

/-- The loop goes on where a token does not end. -/
theorem goes_on (hbase : IsBase base) (h : t.Longest width str) (hrest : str = t.text ++ rest)
    (hplus : t.front ≠ [43]) (hends : ¬t.Ends width rest) :
    (getIntLoop base sign (decide (width > 0)) rest (t.left (decide (width > 0)) width)
      (Int.bmod t.magnitude (2 ^ 64)) t.minus t.marked).2.2.length < rest.length := by
  by_cases hminus : base = 10 ∧ sign = true ∧ t.minus = false ∧ rest.head? = some 45
  · obtain ⟨rfl, rfl, hno, hhead⟩ := hminus
    obtain ⟨rest, rfl⟩ := List.head?_eq_some_iff.mp hhead
    rw [hno, getIntLoop_minus]
    exact Nat.lt_succ_of_le getIntLoop_length
  · have hhex : base = 16 ∧ ¬(if t.marked then 0 < width → ∀ c ∈ rest.head?, ¬inBase base c
        else rest.head? ≠ some 120 ∧ rest.head? ≠ some 88) := by
      by_contra hno
      refine hends ⟨fun h10 hsign => ⟨hplus, ?_⟩, fun h16 => by_contra fun hn => hno ⟨h16, hn⟩⟩
      by_contra hor
      obtain ⟨hm, hhead⟩ := not_or.mp hor
      exact hminus ⟨h10, hsign, Bool.eq_false_iff.mpr hm, not_not.mp hhead⟩
    obtain ⟨rfl, hcond⟩ := hhex
    cases hmarked : t.marked with
    | false =>
      rw [hmarked, if_neg (by decide)] at hcond
      obtain ⟨x, hx, hhead⟩ : ∃ x, (x = 120 ∨ x = 88) ∧ rest.head? = some x := by
        by_cases h120 : rest.head? = some 120
        · exact ⟨120, .inl rfl, h120⟩
        · exact ⟨88, .inr rfl, by_contra fun h88 => hcond ⟨h120, h88⟩⟩
      obtain ⟨rest, rfl⟩ := List.head?_eq_some_iff.mp hhead
      rw [getIntLoop_x hx]
      exact Nat.lt_succ_of_le getIntLoop_length
    | true =>
      rw [hmarked, if_pos rfl] at hcond
      obtain ⟨hpos, hcond⟩ := Classical.not_imp.mp hcond
      obtain ⟨c, hhead, hc⟩ : ∃ c, rest.head? = some c ∧ inBase 16 c = true :=
        by_contra fun hn => hcond fun c hhead hc => hn ⟨c, hhead, hc⟩
      have hfull := (h.full hrest hhead hc).2
      obtain ⟨rest, rfl⟩ := List.head?_eq_some_iff.mp hhead
      have hleft : t.left (decide (width > 0)) width = 1 := by
        rw [left_marked hmarked hpos, hfull]
        omega
      rw [hleft, getIntLoop_inBase hbase hc (by simp)]
      exact Nat.lt_succ_of_le getIntLoop_length

/-- **`get_int` takes the longest token and returns its number exactly when it ends with the token
and the number is one of `long long`.** -/
theorem int_tokens_iff (hbase : IsBase base) (sign : Bool) (width : ℤ) (str : List UInt8) :
    (∃ t : Token base sign, t.Longest width str) ∧
    ∀ t : Token base sign, t.Longest width str →
      (Takes width str t ↔ t.Ends width (str.drop t.text.length) ∧ t.Fits) := by
  refine ⟨exists_longest base sign width str, fun t h => ?_⟩
  obtain ⟨rest, hrest⟩ := h.1.1
  rw [← hrest, List.drop_left]
  rw [← hrest] at h
  by_cases hplus : t.front = [43]
  · have hten : base = 10 ∧ sign = true := by
      rcases t.front_mem with hf | ⟨h10, hsign, -⟩ | ⟨-, hf | hf⟩
      · exact absurd (hplus.symm.trans hf) (by decide)
      · exact ⟨h10, hsign⟩
      · exact absurd (hplus.symm.trans hf) (by decide)
      · exact absurd (hplus.symm.trans hf) (by decide)
    exact iff_of_false (not_takes_plus hbase rfl hplus) fun hends =>
      (hends.1.1 hten.1 hten.2).1 hplus
  · by_cases hends : t.Ends width rest
    · rw [takes_loop hbase rfl hplus h.1.2 (stops_of_ends hbase h rfl hends), value_iff]
      exact and_comm.trans (and_congr_left fun _ => iff_of_true rfl hends)
    · rw [takes_loop hbase rfl hplus h.1.2 rfl]
      refine iff_of_false (fun htakes => ?_) fun hboth => hends hboth.1
      exact (goes_on hbase h rfl hplus hends).ne (congrArg List.length htakes.2)

/-- `1` in base 10. -/
theorem int_tokens_iff_one : (∃ t : Token 10 true, t.Longest 0 [49]) ∧
    Takes 0 [49]
      (Token.mk [] [49] (.inl rfl) (List.forall_mem_singleton.mpr rfl) : Token 10 true) :=
  ⟨(int_tokens_iff (.inr (.inr (.inl rfl))) true 0 [49]).1,
    ((int_tokens_iff (.inr (.inr (.inl rfl))) true 0 [49]).2
      ⟨[], [49], .inl rfl, List.forall_mem_singleton.mpr rfl⟩
      ⟨⟨⟨[], rfl⟩, fun h => absurd h (by decide)⟩, fun t' h => h.1.length_le⟩).mpr
      ⟨⟨fun _ _ => ⟨by decide, .inr (by decide)⟩, fun h => absurd h (by decide)⟩, .inl (by decide)⟩⟩

/-- `+5` is a number, and is not taken. -/
theorem not_int_tokens : ¬∀ base sign width str, IsBase base → 0 ≤ width →
    ∀ t : Token base sign, t.Longest width str → Takes width str t := by
  intro h
  have htakes := h 10 true 0 [43, 53] (.inr (.inr (.inl rfl))) le_rfl
    ⟨[43], [53], .inr (.inl ⟨rfl, rfl, .inl rfl⟩), List.forall_mem_singleton.mpr rfl⟩
    ⟨⟨List.prefix_rfl, fun h => absurd h (by decide)⟩, fun _ h => h.1.length_le⟩
  exact absurd (congrArg Prod.fst htakes) (by decide)

end

end Cosiris.Scanf
