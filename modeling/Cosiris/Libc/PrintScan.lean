import Cosiris.Libc.Conversions
import Cosiris.Libc.Digits

/-!
# Printing an integer and scanning it

What `fmt_int` puts out is blanks, a sign, the mark of the base, zeros, digits and blanks.
`vsscanf` reads all of that back but for the sign `+`, which `valid_sint` lets pass for a signed
number and `get_int` does not know.
-/

namespace Cosiris.Scanf

open Printf (Flag Flags Width Args intText digit nbuf digitsOf altbOf npadOf isNeg noFlags isDigit
  vsnprintf Writes)

/-! ### The shape of a printed number -/

/-- The sign that is put out. -/
def signOf (num : ℤ) (flags : Flags) : List UInt8 :=
  if isNeg num flags then [45] else if flags.plus then [43] else if flags.space then [32] else []

/-- The mark of the base that is put out. -/
def markOf (base : ℕ) (flags : Flags) : List UInt8 :=
  if flags.alternate then
    if base = 8 then [48] else if base = 16 then [48, if flags.small then 120 else 88] else []
  else []

/-- What stands behind the sign: the mark, `z` zeros, the digits and `r` blanks. -/
def magnitude (num : ℤ) (base : ℕ) (flags : Flags) (z r : ℕ) : List UInt8 :=
  markOf base flags ++
    (List.replicate z 48 ++ ((digitsOf num base flags).reverse ++ List.replicate r 32))

theorem intText_shape (num : ℤ) {base : ℕ} (hbase : 2 ≤ base ∧ base ≤ 16) (width : ℤ)
    (flags : Flags) :
    ∃ l z r, intText num base width flags =
      List.replicate l 32 ++ (signOf num flags ++ magnitude num base flags z r) ∧
      l + z + r ≤ npadOf num base width flags := by
  have hrange : ¬(base < 2 ∨ base > 16) := by omega
  have haltb : altbOf num base flags = signOf num flags ++ markOf base flags := rfl
  unfold intText Printf.fmtInt magnitude
  simp only [if_neg hrange, Printf.puts_snoc, haltb, List.nil_append, List.append_assoc]
  split_ifs
  · exact ⟨0, npadOf num base width flags, 0, by simp, by omega⟩
  · exact ⟨npadOf num base width flags, 0, 0, by simp, by omega⟩
  · exact ⟨0, 0, npadOf num base width flags, by simp, by omega⟩
  · exact ⟨0, 0, 0, by simp, by omega⟩

/-! ### Reading digits -/

section

variable {base : ℕ} {sign neg xskip : Bool} {width n : ℤ} {str : List UInt8}

theorem digit_not_space (small : Bool) {k : ℕ} (hk : k < 16) : isSpace (digit small k) = false := by
  have h : ∀ k < 16, ∀ small : Bool, isSpace (digit small k) = false := by decide
  exact h k hk small

/-- What is put out as a digit is a digit, of the same value. -/
theorem inBase_digit (hbase : IsBase base) (small : Bool) {k : ℕ} (hk : k < base) :
    inBase base (digit small k) ∧ digitValue (digit small k) = k := by
  have h : ∀ base ∈ [2, 8, 10, 16], ∀ k < base, ∀ small : Bool,
      inBase base (digit small k) ∧ digitValue (digit small k) = k := by decide
  exact h base (by unfold IsBase at hbase; simpa using hbase) k hk small

theorem getIntLoop_digit (hbase : IsBase base) (small : Bool) {k : ℕ} (hk : k < base) :
    getIntLoop base sign false (digit small k :: str) width n neg xskip =
      getIntLoop base sign false str width (Int.bmod (n * base + k) (2 ^ 64)) neg xskip := by
  obtain ⟨hdigit, hvalue⟩ := inBase_digit hbase small hk
  rw [getIntLoop_inBase hbase hdigit (by simp), hvalue, if_neg Bool.false_ne_true]

/-- The digits of a number are read back. -/
theorem getIntLoop_nbuf (hbase : IsBase base) (small : Bool) (rounds : ℕ) {m : ℕ}
    (hm : m < base ^ rounds)
    (hlong : m < 2 ^ 32) (rest : List UInt8) :
    getIntLoop base sign false ((nbuf small base rounds m).reverse ++ rest) width 0 neg xskip =
      getIntLoop base sign false rest width m neg xskip := by
  have htwo := hbase.range.1
  have hfit (k : ℕ) (hk : k < 2 ^ 32) : Int.bmod k (2 ^ 64) = k :=
    Int.bmod_eq_of_le_mul_two (by omega) (by omega)
  induction rounds generalizing m rest with
  | zero =>
    rw [Nat.lt_one_iff.mp hm]
    rfl
  | succ rounds ih =>
    have hmod : m % base < base := Nat.mod_lt _ (by omega)
    rw [nbuf]
    split
    next hpos =>
      have hdiv : m / base < base ^ rounds :=
        Nat.div_lt_of_lt_mul (by rwa [Nat.pow_succ, Nat.mul_comm] at hm)
      have hsum : ((m / base : ℕ) : ℤ) * base + (m % base : ℕ) = m := by
        exact_mod_cast Nat.div_add_mod' m base
      rw [List.reverse_cons, List.append_assoc,
        ih hdiv (Nat.lt_of_le_of_lt (Nat.div_le_self _ _) hlong), List.singleton_append,
          getIntLoop_digit hbase small hmod, hsum, hfit m hlong]
    next hpos =>
      have hsmall : m % base = m :=
        Nat.mod_eq_of_lt ((Nat.div_eq_zero_iff_lt (by omega)).mp (Nat.eq_zero_of_not_pos hpos))
      have hsum : (0 : ℤ) * base + m = m := by rw [Int.zero_mul, Int.zero_add]
      rw [List.reverse_singleton, List.singleton_append, getIntLoop_digit hbase small hmod, hsmall,
        hsum, hfit m hlong]

theorem getIntLoop_zeros (hbase : IsBase base) (z : ℕ) (rest : List UInt8) :
    getIntLoop base sign false (List.replicate z 48 ++ rest) width 0 neg xskip =
      getIntLoop base sign false rest width 0 neg xskip := by
  have hpos : 0 < base := Nat.lt_of_lt_of_le (by decide) hbase.range.1
  induction z with
  | zero => rfl
  | succ z ih =>
    have hzero : (0 : ℤ) * base + (0 : ℕ) = 0 := by rw [Int.zero_mul]; rfl
    have hdigit :
      getIntLoop base sign false (48 :: (List.replicate z 48 ++ rest)) width 0 neg xskip =
      _ :=
      getIntLoop_digit hbase false hpos
    rw [List.replicate_succ, List.cons_append, hdigit, hzero]
    exact ih

/-- The mark of the base adds nothing to the number. -/
theorem getIntLoop_mark (hbase : IsBase base) (flags : Flags) (rest : List UInt8) :
    ∃ xskip', getIntLoop base sign false (markOf base flags ++ rest) width 0 neg false =
      getIntLoop base sign false rest width 0 neg xskip' := by
  have hzero (rest : List UInt8) : getIntLoop base sign false (48 :: rest) width 0 neg false =
      getIntLoop base sign false rest width 0 neg false := getIntLoop_zeros hbase 1 rest
  have hx (c : UInt8) (hc : c = 120 ∨ c = 88) :
    getIntLoop 16 sign false (c :: rest) width 0 neg false =
      getIntLoop 16 sign false rest width 0 neg true := by
    rw [getIntLoop, if_neg (fun h => absurd h.2.2.1 (by decide)), if_pos ⟨rfl, by decide, hc⟩]
  unfold markOf
  split_ifs with halt h8 h16
  · exact ⟨false, hzero rest⟩
  · subst h16
    exact ⟨true, (hzero _).trans (hx _ (.inl rfl))⟩
  · subst h16
    exact ⟨true, (hzero _).trans (hx _ (.inr rfl))⟩
  · exact ⟨false, rfl⟩
  · exact ⟨false, rfl⟩

theorem getIntLoop_blanks (base : ℕ) (r : ℕ) :
    getIntLoop base sign false (List.replicate r 32) width n neg xskip =
      (n, neg, List.replicate r 32) := by
  cases r with
  | zero => rfl
  | succ r =>
    rw [List.replicate_succ, getIntLoop, if_neg (fun h => absurd h.2.2.2 (by decide)),
      if_neg (fun h => absurd h.2.2 (by decide)), if_neg (fun h => absurd h.1 (by decide))]
    exact if_pos ⟨by decide, .inr (.inl (by decide))⟩

/-- What stands behind the sign is read back. -/
theorem getIntLoop_magnitude (hbase : IsBase base) (num : ℤ) (flags : Flags) (z r : ℕ) :
    getIntLoop base sign false (magnitude num base flags z r) width 0 neg false =
      (((if isNeg num flags then -num else num) % 2 ^ 32).toNat, neg, List.replicate r 32) := by
  have hlong : ((if isNeg num flags then -num else num) % 2 ^ 32).toNat < 2 ^ 32 := by omega
  have hpow : 2 ^ 32 ≤ base ^ 32 :=
    Nat.pow_le_pow_left hbase.range.1 32
  obtain ⟨xskip, hmark⟩ : ∃ xskip,
    getIntLoop base sign false (magnitude num base flags z r) width 0 neg false =
      getIntLoop base sign false _ width 0 neg xskip := getIntLoop_mark hbase flags _
  rw [hmark, getIntLoop_zeros hbase, digitsOf,
    getIntLoop_nbuf hbase flags.small 32 (Nat.lt_of_lt_of_le hlong hpow) hlong, getIntLoop_blanks]

end

/-! ### What is scanned -/

/-- The digits of a base. -/
def IsDigitOf (base : ℕ) (c : UInt8) : Prop := ∃ small k, k < base ∧ c = digit small k

theorem nbuf_digits (small : Bool) {base : ℕ} (hbase : 0 < base) (rounds m : ℕ) :
    ∀ c ∈ nbuf small base rounds m, IsDigitOf base c := by
  induction rounds generalizing m with
  | zero => exact fun c hc => absurd hc List.not_mem_nil
  | succ rounds ih =>
    intro c hc
    rw [nbuf] at hc
    obtain rfl | hc := List.mem_cons.mp hc
    · exact ⟨small, _, Nat.mod_lt _ hbase, rfl⟩
    · split at hc
      · exact ih _ c hc
      · exact absurd hc List.not_mem_nil

theorem magnitude_head {base : ℕ} (hbase : IsBase base) (num : ℤ) (flags : Flags) (z r : ℕ) :
    ∃ c rest, magnitude num base flags z r = c :: rest ∧ IsDigitOf base c := by
  have hpos : 0 < base := Nat.lt_of_lt_of_le (by decide) hbase.range.1
  have hzero : IsDigitOf base 48 := ⟨false, 0, hpos, rfl⟩
  have hdigits : ∃ c rest, (digitsOf num base flags).reverse = c :: rest ∧ IsDigitOf base c := by
    obtain ⟨c, rest, hrev⟩ := List.exists_cons_of_ne_nil
      (mt List.reverse_eq_nil_iff.mp (show digitsOf num base flags ≠ [] from List.cons_ne_nil _ _))
    have hmem : c ∈ digitsOf num base flags := List.mem_reverse.mp (hrev ▸ List.mem_cons_self)
    exact ⟨c, rest, hrev, nbuf_digits _ hpos _ _ c hmem⟩
  unfold magnitude markOf
  split_ifs
  · exact ⟨48, _, rfl, hzero⟩
  · exact ⟨48, _, rfl, hzero⟩
  · exact ⟨48, _, rfl, hzero⟩
  all_goals
    cases z with
    | succ z => exact ⟨48, _, rfl, hzero⟩
    | zero =>
      obtain ⟨c, rest, hrev, hc⟩ := hdigits
      exact ⟨c, _, by rw [hrev]; rfl, hc⟩

/-- A conversion of a signed number. -/
def signed (k : Printf.Conv) : Bool := k = .d || k = .i

/-- What `vsscanf` has in the end, for the format of a bare conversion and a string whose first
character is not blank. -/
def scanned (k : Printf.Conv) (str : List UInt8) : Scan :=
  if !validSint (str.headD 0) k.base (signed k) then ⟨.default, 0, 0, 0, str, 0, []⟩
  else
    let r := getInt str 0 k.base (signed k)
    ⟨.default, 0, 0, 0, r.2, 1, [.number 32 (.ofInt 32 r.1)]⟩

theorem round_int {k : Printf.Conv} (hk : k.isInt) (str : List UInt8) :
    round ⟨.flags, 0, 0, 0, str, 0, []⟩ [k.char] =
      let str := str.dropWhile isSpace
      if !validSint (str.headD 0) k.base (signed k) then .stop ⟨.default, 0, 0, 0, str, 0, []⟩
      else
        let r := getInt str 0 k.base (signed k)
        .next ⟨.default, 0, 0, 0, r.2, 1, [.number 32 (.ofInt 32 r.1)]⟩ [] := by
  cases k with
  | p | s | c | percent => cases hk
  | _ =>
      simp [round, width, length, conv, advance, Scan.store, storeNumber, isDigit, Printf.Conv.char,
        Printf.Conv.base, signed]

theorem vsscanf_int {k : Printf.Conv} (hk : k.isInt) {str : List UInt8} (hstr : str ≠ []) :
    vsscanf str [37, k.char] = some (.stop (scanned k (str.dropWhile isSpace))) := by
  have hgo (fmt : List UInt8) (hfmt : fmt ≠ []) : ¬(fmt = [] ∨ str = []) := not_or.mpr ⟨hfmt, hstr⟩
  have hfirst : round ⟨.default, 0, 0, 0, str, 0, []⟩ [37, k.char] =
    .next ⟨.flags, 0, 0, 0, str, 0, []⟩ [k.char] := rfl
  rw [vsscanf, List.length_cons, List.length_singleton, loop, if_neg (hgo _ (List.cons_ne_nil _ _)),
    hfirst]
  dsimp only
  rw [loop, if_neg (hgo _ (List.cons_ne_nil _ _)), round_int hk, scanned]
  dsimp only
  by_cases hvalid : (!validSint ((str.dropWhile isSpace).headD 0) k.base (signed k)) = true
  · rw [if_pos hvalid, if_pos hvalid]
  · rw [if_neg hvalid, if_neg hvalid]
    exact if_pos (.inl rfl)

theorem isBase_base (k : Printf.Conv) : IsBase k.base := by
  cases k <;> simp [IsBase, Printf.Conv.base]

theorem validSint_digit {base : ℕ} (hbase : IsBase base) {c : UInt8} (hc : IsDigitOf base c)
    (sign : Bool) :
    validSint c base sign = true := by
  obtain ⟨small, k, hk, rfl⟩ := hc
  have h : ∀ sign small : Bool, (∀ k : Fin 2, validSint (digit small k) 2 sign) ∧
    (∀ k : Fin 8, validSint (digit small k) 8 sign) ∧
      (∀ k : Fin 10, validSint (digit small k) 10 sign) ∧
      ∀ k : Fin 16, validSint (digit small k) 16 sign := by
        decide
  obtain ⟨h2, h8, h10, h16⟩ := h sign small
  obtain rfl | rfl | rfl | rfl := hbase
  · exact h2 ⟨k, hk⟩
  · exact h8 ⟨k, hk⟩
  · exact h10 ⟨k, hk⟩
  · exact h16 ⟨k, hk⟩

theorem isSpace_digit {base : ℕ} (hbase : IsBase base) {c : UInt8} (hc : IsDigitOf base c) :
    isSpace c = false := by
  obtain ⟨small, k, hk, rfl⟩ := hc
  exact digit_not_space small (Nat.lt_of_lt_of_le hk hbase.range.2)

/-- Blanks before what is not blank are skipped. -/
theorem dropWhile_blanks (l : ℕ) {c : UInt8} (hc : isSpace c = false) (rest : List UInt8) :
    (List.replicate l 32 ++ c :: rest).dropWhile isSpace = c :: rest := by
  induction l with
  | zero => exact List.dropWhile_cons_of_neg (by rw [hc]; decide)
  | succ l ih => exact (List.dropWhile_cons_of_pos (by decide)).trans ih

theorem getInt_eq {base : ℕ} (hbase : IsBase base) (sign : Bool) (str : List UInt8) :
    getInt str 0 base sign =
      let r := getIntLoop base sign false str 0 0 false false
      (if r.2.1 ∧ r.1 > 0 then -r.1 else r.1, r.2.2) := by
  have hknown : ¬(base ≠ 2 ∧ base ≠ 8 ∧ base ≠ 10 ∧ base ≠ 16) := by
    obtain rfl | rfl | rfl | rfl := hbase <;> decide
  unfold getInt
  rw [if_neg hknown]
  rfl

/-- A printed number without the sign `+` is scanned. -/
theorem scanned_intText {k : Printf.Conv} {num : ℤ} {flags : Flags}
    (hsigned : flags.signed = signed k) (hplus : flags.plus = true → isNeg num flags = true)
    (hpos : isNeg num flags = false → 0 ≤ num) (hrange : -2 ^ 32 < num ∧ num < 2 ^ 32) (width : ℤ) :
    ∃ r, scanned k ((intText num k.base width flags).dropWhile isSpace) =
      ⟨.default, 0, 0, 0, List.replicate r 32, 1, [.number 32 (.ofInt 32 num)]⟩ := by
  have hbase := isBase_base k
  obtain ⟨l, z, r, hshape, -⟩ := intText_shape num hbase.range width flags
  refine ⟨r, ?_⟩
  cases hneg : isNeg num flags with
  | true =>
    have hnum : flags.signed = true ∧ num < 0 := by simpa [isNeg] using hneg
    have hten : signed k = true ∧ k.base = 10 := by
      rw [hsigned] at hnum
      refine ⟨hnum.1, ?_⟩
      cases k <;> first | rfl | exact absurd hnum.1 (by decide)
    have htext : (intText num k.base width flags).dropWhile isSpace =
      45 :: magnitude num k.base flags z r := by
      rw [hshape, signOf, if_pos hneg]
      exact dropWhile_blanks l (by decide) _
    have hloop : getIntLoop 10 true false (45 :: magnitude num 10 flags z r) 0 0 false false =
        getIntLoop 10 true false (magnitude num 10 flags z r) 0 0 true false :=
      if_pos ⟨rfl, by decide, rfl, rfl⟩
    have hvalue : ((-num % 2 ^ 32).toNat : ℤ) = -num := by omega
    rw [htext, scanned, getInt_eq hbase, hten.1, hten.2, hloop,
      getIntLoop_magnitude (.inr (.inr (.inl rfl))), if_pos hneg]
    dsimp only
    rw [hvalue, if_pos (⟨rfl, by omega⟩ : true = true ∧ -num > 0), Int.neg_neg]
    have hvalid : ¬(!validSint 45 10 true) = true := by decide
    exact if_neg hvalid
  | false =>
    have hvalue : ((num % 2 ^ 32).toNat : ℤ) = num := by
      have := hpos hneg
      omega
    obtain ⟨c, rest, hmag, hc⟩ := magnitude_head hbase num flags z r
    have htext : (intText num k.base width flags).dropWhile isSpace =
      magnitude num k.base flags z r := by
      have hsign : ∃ m, signOf num flags = List.replicate m 32 := by
        unfold signOf
        rw [if_neg (by rw [hneg]; decide),
          if_neg (fun h => absurd (hplus h) (by rw [hneg]; decide))]
        split
        · exact ⟨1, rfl⟩
        · exact ⟨0, rfl⟩
      obtain ⟨m, hm⟩ := hsign
      rw [hshape, hm, ← List.append_assoc, List.replicate_append_replicate, hmag]
      exact dropWhile_blanks _ (isSpace_digit hbase hc) rest
    have hvalid : (!validSint ((magnitude num k.base flags z r).headD 0) k.base (signed k)) =
      false := by
      rw [hmag, List.headD_cons, validSint_digit hbase hc]
      rfl
    rw [htext, scanned, hvalid, getInt_eq hbase, getIntLoop_magnitude hbase, hneg]
    dsimp only
    have hsel : (if false = true then -num else num) = num := rfl
    rw [hsel, hvalue, if_neg (by decide), if_neg (fun h => absurd h.1 (by decide))]

/-! ### The round trip -/

/-- A value is printed with a conversion, flags and a width, and scanned with the bare conversion.
-/
def RoundTrip (v : Args) (flags : List Flag) (width : Width) (k : Printf.Conv) : Prop :=
  ∃ w, (∀ buf size, ∃ r,
    vsnprintf buf size (Printf.format [.conversion ⟨flags, width, .none, .none, k⟩]) v = some r ∧
      Writes w buf size r) ∧
    ∃ s, vsscanf w [37, k.char] = some (.stop s) ∧ s.n = 1 ∧
      s.stores = [.number 32 (v.word width.words)] ∧
      ∀ c ∈ s.str, isSpace c

/-- One string is written. -/
theorem writes_unique {fmt : List UInt8} {v : Args} {w w' : List UInt8}
    (h : ∀ buf size, ∃ r, vsnprintf buf size fmt v = some r ∧ Writes w buf size r)
    (h' : ∀ buf size, ∃ r, vsnprintf buf size fmt v = some r ∧ Writes w' buf size r) : w = w' := by
  obtain ⟨r, hr, hw⟩ := h (fun _ => 0) (w.length + 1)
  obtain ⟨r', hr', hw'⟩ := h' (fun _ => 0) (w.length + 1)
  cases hr.symm.trans hr'
  have hlen : w.length = w'.length := by exact_mod_cast hw.length.symm.trans hw'.length
  refine List.ext_getElem hlen fun k hk hk' => ?_
  rw [← hw.chars k _ (List.getElem?_eq_getElem hk) (by omega),
    ← hw'.chars k _ (List.getElem?_eq_getElem hk') (by omega)]

/-- The number that a conversion prints for a word. -/
def numberOf (k : Printf.Conv) (w : BitVec 32) : ℤ := if signed k then w.toInt else w.toNat

theorem render_int {k : Printf.Conv} (hk : k.isInt) (v : Args) (width : ℤ) (flags : Flags)
    (hflags : flags.signed = false) (w : BitVec 32) :
    ∃ flags', flags'.plus = flags.plus ∧ flags'.signed = signed k ∧
      k.render v width flags w = intText (numberOf k w) k.base width flags' := by
  cases k with
  | p | s | c | percent => cases hk
  | d | i => exact ⟨{ flags with signed := true }, rfl, rfl, rfl⟩
  | x => exact ⟨{ flags with small := true }, rfl, hflags, rfl⟩
  | _ => exact ⟨flags, rfl, hflags, rfl⟩

theorem plus_foldl (fs : List Flag) (flags : Flags) :
    (fs.foldl Flag.set flags).plus = true ↔ flags.plus = true ∨ .plus ∈ fs := by
  induction fs generalizing flags with
  | nil => simp
  | cons f fs ih =>
    rw [List.foldl_cons, ih, List.mem_cons]
    cases f <;> simp [Flag.set]

theorem plus_adds (width : Width) (w : BitVec 32) (flags : Flags) :
    (width.adds w flags).plus = flags.plus := by
  cases width with
  | star =>
    unfold Width.adds
    dsimp only
    split <;> rfl
  | _ => rfl

/-- A printed number with the sign `+` is not scanned. -/
theorem not_scanned_plus {k : Printf.Conv} {num : ℤ} {flags : Flags} (hplus : flags.plus = true)
    (hneg : isNeg num flags = false) (width : ℤ) :
    ¬((scanned k ((intText num k.base width flags).dropWhile isSpace)).n = 1 ∧
      ∀ c ∈ (scanned k ((intText num k.base width flags).dropWhile isSpace)).str, isSpace c) := by
  intro ⟨hn, hstr⟩
  have hbase := isBase_base k
  obtain ⟨l, z, r, hshape, -⟩ := intText_shape num hbase.range width flags
  have htext : (intText num k.base width flags).dropWhile isSpace =
    43 :: magnitude num k.base flags z r := by
    rw [hshape, signOf, if_neg (by rw [hneg]; decide), if_pos hplus]
    exact dropWhile_blanks l (by decide) _
  rw [htext, scanned] at hn hstr
  split at hn
  · cases hn
  next hvalid =>
    rw [if_neg hvalid, getInt_eq hbase] at hstr
    have hten : k.base = 10 := by
      have hno : ∀ sign, validSint 43 2 sign = false ∧ validSint 43 8 sign = false ∧
        validSint 43 16 sign = false := by
        decide
      obtain ⟨h2, h8, h16⟩ := hno (signed k)
      rw [List.headD_cons] at hvalid
      obtain h | h | h | h := hbase
      · rw [h, h2] at hvalid
        exact absurd rfl hvalid
      · rw [h, h8] at hvalid
        exact absurd rfl hvalid
      · exact h
      · rw [h, h16] at hvalid
        exact absurd rfl hvalid
    have hloop : getIntLoop 10 (signed k) false (43 :: magnitude num 10 flags z r) 0 0 false false =
        (0, false, 43 :: magnitude num 10 flags z r) := by
      rw [getIntLoop, if_neg (fun h => absurd h.2.2.2 (by decide)),
        if_neg (fun h => absurd h.1 (by decide)),
        if_neg (fun h => absurd h.1 (by decide))]
      exact if_pos ⟨by decide, .inl (by decide)⟩
    rw [hten, hloop] at hstr
    exact absurd (hstr 43 List.mem_cons_self) (by decide)

theorem length_nbuf (small : Bool) (base rounds m : ℕ) :
    (nbuf small base rounds m).length ≤ rounds := by
  induction rounds generalizing m with
  | zero => exact Nat.le_refl _
  | succ rounds ih =>
    rw [nbuf, List.length_cons]
    split
    · exact Nat.succ_le_succ (ih _)
    · exact Nat.succ_le_succ (Nat.zero_le _)

theorem value_lt (width : Width) (w : BitVec 32) : width.value w < 2 ^ 31 := by
  have hbmod (x : ℤ) : Int.bmod x (2 ^ 32) < 2 ^ 31 := by
    have := Int.bmod_lt (x := x) (m := 2 ^ 32) (by decide)
    omega
  cases width with
  | none => exact (by decide : (0 : ℤ) < 2 ^ 31)
  | digits => exact hbmod _
  | star =>
    unfold Width.value
    dsimp only
    split
    · exact hbmod _
    · have := BitVec.toInt_lt (x := w)
      omega

/-- A printed number is not longer than its width, or than its sign, mark and digits. -/
theorem length_intText (num : ℤ) {base : ℕ} (hbase : 2 ≤ base ∧ base ≤ 16) {width : ℤ}
    (hwidth : width < 2 ^ 31) (flags : Flags) :
    (intText num base width flags).length < 2 ^ 31 := by
  obtain ⟨l, z, r, hshape, hpad⟩ := intText_shape num hbase width flags
  have hdigits : (digitsOf num base flags).length ≤ 32 := length_nbuf _ _ _ _
  have haltb : (altbOf num base flags).length =
    (signOf num flags).length + (markOf base flags).length := List.length_append
  have hsign : (signOf num flags).length ≤ 1 := by
    unfold signOf
    split_ifs <;> decide
  have hmark : (markOf base flags).length ≤ 2 := by
    unfold markOf
    split_ifs <;> decide
  unfold npadOf at hpad
  rw [hshape, magnitude]
  simp only [List.length_append, List.length_replicate, List.length_reverse]
  omega

/-- What is printed for a word. -/
theorem exists_printed {k : Printf.Conv} (hk : k.isInt) (v : Args) (flags : List Flag)
    (width : Width) :
    ∃ flags' width', (flags'.plus = true ↔ .plus ∈ flags) ∧ flags'.signed = signed k ∧
      ∀ buf size, ∃ r,
        vsnprintf buf size
          (Printf.format [.conversion ⟨flags, width, .none, .none, k⟩]) v = some r ∧
        Writes (intText (numberOf k (v.word width.words)) k.base width' flags') buf size r := by
  have hunsigned := width.signed_adds (v.word 0) (@Printf.signed_foldl flags noFlags rfl)
  obtain ⟨flags', hplus, hsigned, hrender⟩ :=
    render_int hk v (width.value (v.word 0)) _ hunsigned (v.word width.words)
  have htext : Printf.textOf v 0 [.conversion ⟨flags, width, .none, .none, k⟩] =
      intText (numberOf k (v.word width.words)) k.base (width.value (v.word 0)) flags' := by
    rw [← hrender, Printf.textOf, Printf.textOf, List.append_nil]
    show k.render v _ _ (v.word (0 + (width.words + 0))) = _
    rw [Nat.zero_add, Nat.add_zero]
  have hright :=
    Printf.right_of_good (v := v) fun as i bs (his : [.conversion ⟨flags, width, .none, .none, k⟩] =
      as ++ i :: bs) => by
    have hmem : i ∈ [Printf.Item.conversion ⟨flags, width, .none, .none, k⟩] :=
      his ▸ List.mem_append_right _ List.mem_cons_self
    rw [List.mem_singleton.mp hmem]
    exact ⟨fun h => (by cases h), fun _ h => (by cases h), fun h => (by subst h; cases hk)⟩
  refine ⟨flags', width.value (v.word 0), ?_, hsigned, ?_⟩
  · rw [hplus, plus_adds, plus_foldl]
    simp [noFlags]
  · have hwrites := hright.writes
    rw [htext] at hwrites
    exact hwrites (length_intText _ (isBase_base k).range (value_lt _ _) _)

/-- A number is negative, as `fmt_int` sees it. -/
theorem isNeg_numberOf {k : Printf.Conv} {flags : Flags} (hsigned : flags.signed = signed k)
    (w : BitVec 32) :
    isNeg (numberOf k w) flags = true ↔ signed k = true ∧ w.toInt < 0 := by
  unfold isNeg numberOf
  rw [hsigned]
  cases signed k <;> simp

theorem ofInt_numberOf (k : Printf.Conv) (w : BitVec 32) : BitVec.ofInt 32 (numberOf k w) = w := by
  unfold numberOf
  split
  · exact BitVec.ofInt_toInt
  · rw [BitVec.ofInt_natCast, BitVec.ofNat_toNat, BitVec.setWidth_eq]

theorem intText_ne_nil (num : ℤ) {base : ℕ} (hbase : IsBase base) (width : ℤ) (flags : Flags) :
    intText num base width flags ≠ [] := by
  obtain ⟨l, z, r, hshape, -⟩ := intText_shape num hbase.range width flags
  obtain ⟨c, rest, hmag, -⟩ := magnitude_head hbase num flags z r
  rw [hshape, hmag]
  exact List.append_ne_nil_of_right_ne_nil _
    (List.append_ne_nil_of_right_ne_nil _ (List.cons_ne_nil _ _))

theorem good_of_roundTrip {k : Printf.Conv} (hk : k.isInt) {v : Args} {flags : List Flag}
    {width : Width}
    (h : RoundTrip v flags width k) :
    .plus ∉ flags ∨ (signed k = true ∧ (v.word width.words).toInt < 0) := by
  obtain ⟨flags', width', hplus, hsigned, hwrites⟩ := exists_printed hk v flags width
  have hscan :=
    vsscanf_int hk (intText_ne_nil (numberOf k (v.word width.words)) (isBase_base k) width' flags')
  obtain ⟨w, hw, s, hs, hn, -, hstr⟩ := h
  rw [writes_unique hw hwrites, hscan] at hs
  cases hs
  by_cases hp : flags'.plus = true
  · cases hb : isNeg (numberOf k (v.word width.words)) flags' with
    | true => exact .inr ((isNeg_numberOf hsigned _).mp hb)
    | false => exact absurd ⟨hn, hstr⟩ (not_scanned_plus hp hb _)
  · exact .inl (mt hplus.mpr hp)

theorem roundTrip_of_good {k : Printf.Conv} (hk : k.isInt) {v : Args} {flags : List Flag}
    {width : Width}
    (h : .plus ∉ flags ∨ (signed k = true ∧ (v.word width.words).toInt < 0)) :
    RoundTrip v flags width k := by
  obtain ⟨flags', width', hplus, hsigned, hwrites⟩ := exists_printed hk v flags width
  have hscan :=
    vsscanf_int hk (intText_ne_nil (numberOf k (v.word width.words)) (isBase_base k) width' flags')
  have hneg := isNeg_numberOf hsigned (v.word width.words)
  rw [← hplus, ← hneg] at h
  have hpos : isNeg (numberOf k (v.word width.words)) flags' = false →
    0 ≤ numberOf k (v.word width.words) := by
    intro hb
    have hnot := mt hneg.mpr (by rw [hb]; decide)
    unfold numberOf
    split
    next hs => exact Int.not_lt.mp fun h => hnot ⟨hs, h⟩
    next => exact Int.natCast_nonneg _
  have hrange : -2 ^ 32 < numberOf k (v.word width.words) ∧
    numberOf k (v.word width.words) < 2 ^ 32 := by
    have := (v.word width.words).isLt
    have := BitVec.toInt_lt (x := v.word width.words)
    have := BitVec.le_toInt (v.word width.words)
    unfold numberOf
    split <;> omega
  obtain ⟨r, hr⟩ :=
    scanned_intText hsigned (fun hp => h.resolve_left (not_not_intro hp)) hpos hrange width'
  rw [ofInt_numberOf] at hr
  refine ⟨_, hwrites, _, hscan, by rw [hr], by rw [hr], fun c hc => ?_⟩
  rw [hr] at hc
  rw [List.eq_of_mem_replicate hc]
  decide

/-- When an integer is scanned as it was printed. -/
theorem printScan_iff {k : Printf.Conv} (hk : k.isInt) (v : Args) (flags : List Flag)
    (width : Width) :
    RoundTrip v flags width k ↔
      .plus ∉ flags ∨ (signed k = true ∧ (v.word width.words).toInt < 0) :=
  ⟨good_of_roundTrip hk, roundTrip_of_good hk⟩

/-- A value is scanned as it was printed with `"%-#8x"`. -/
theorem printScan_iff_hex : Printf.Conv.x.isInt ∧
    (RoundTrip ⟨fun _ => 48879, fun _ => []⟩ [.left, .alternate] (.digits 7 []) .x ↔
      .plus ∉ [Flag.left, .alternate] ∨ (signed .x = true ∧ (48879 : BitVec 32).toInt < 0)) :=
  ⟨rfl, printScan_iff rfl ..⟩

/-- A positive number that is printed with its sign is read as 0. -/
theorem not_roundTrip_plus : ¬RoundTrip ⟨fun _ => 5, fun _ => []⟩ [.plus] .none .d := by
  intro h
  obtain hplus | ⟨-, hneg⟩ := good_of_roundTrip rfl h
  · exact hplus List.mem_cons_self
  · exact absurd hneg (by decide)

end Cosiris.Scanf
