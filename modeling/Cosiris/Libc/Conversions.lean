import Mathlib.Data.List.Induction
import Cosiris.Libc.Truncation

/-!
# Formats built from conversions

A format that is built from literal characters and conversions, what the conversions take of
the arguments, and what they put out. `vsnprintf` is wrong for the length `h`, which makes it
take two words, for the precision `*`, which it does not skip, and for a `%c` of the value 0,
at which it stops.
-/

namespace Cosiris.Printf

/-! ### The parts of a conversion -/

/-- A flag character. -/
inductive Flag
  | alternate
  | zeropad
  | left
  | space
  | plus

/-- The character of a flag. -/
def Flag.char : Flag → UInt8
  | .alternate => 35
  | .zeropad => 48
  | .left => 45
  | .space => 32
  | .plus => 43

/-- A flag, together with those before it. -/
def Flag.set (flags : Flags) : Flag → Flags
  | .alternate => { flags with alternate := true }
  | .zeropad => { flags with zeropad := true }
  | .left => { flags with left := true }
  | .space => { flags with space := true }
  | .plus => { flags with plus := true }

/-- A width: the first of its digits is not 0, which would be a flag. -/
inductive Width
  | none
  | digits (first : Fin 9) (rest : List (Fin 10))
  | star

/-- A precision. -/
inductive Precision
  | none
  | digits (ds : List (Fin 10))
  | star

/-- A length. -/
inductive Length
  | none
  | h
  | hh
  | l
  deriving DecidableEq

/-- What a conversion is. -/
inductive Conv
  | d
  | i
  | u
  | o
  | x
  | X
  | b
  | p
  | s
  | c
  | percent
  deriving DecidableEq

/-- The characters of digits. -/
def numeral (ds : List (Fin 10)) : List UInt8 := ds.map fun k : Fin 10 => UInt8.ofNat (48 + k.val)

/-- The number that digits stand for, after the number `n`. -/
def valueOf (n : ℤ) (ds : List (Fin 10)) : ℤ := ds.foldl (fun n k => n * 10 + k.val) n

/-- The characters of a width. -/
def Width.chars : Width → List UInt8
  | .none => []
  | .digits first rest => .ofNat (49 + first) :: numeral rest
  | .star => [42]

/-- The characters of a precision. -/
def Precision.chars : Precision → List UInt8
  | .none => []
  | .digits ds => 46 :: numeral ds
  | .star => [46, 42]

/-- The characters of a length. -/
def Length.chars : Length → List UInt8
  | .none => []
  | .h => [104]
  | .hh => [104, 104]
  | .l => [108]

/-- The character of a conversion. -/
def Conv.char : Conv → UInt8
  | .d => 100
  | .i => 105
  | .u => 117
  | .o => 111
  | .x => 120
  | .X => 88
  | .b => 98
  | .p => 112
  | .s => 115
  | .c => 99
  | .percent => 37

/-- A conversion for an integer. -/
def Conv.isInt : Conv → Bool
  | .d | .i | .u | .o | .x | .X | .b => true
  | _ => false

/-- A conversion. -/
structure Conversion where
  flags : List Flag
  width : Width
  precision : Precision
  length : Length
  conv : Conv

/-- A part of a format. -/
inductive Item
  | char (c : UInt8) (hc : c ≠ 0 ∧ c ≠ 37)
  | conversion (k : Conversion)

/-- The characters of a conversion, after the percent sign and the flags. -/
def Conversion.tail (k : Conversion) : List UInt8 :=
  k.width.chars ++ (k.precision.chars ++ (k.length.chars ++ [k.conv.char]))

/-- The characters of an item. -/
def Item.chars : Item → List UInt8
  | .char c _ => [c]
  | .conversion k => 37 :: (k.flags.map Flag.char ++ k.tail)

/-- The format of items. -/
def format (is : List Item) : List UInt8 := is.flatMap Item.chars

/-! ### What an item takes and puts out -/

/-- A word for a star. -/
def Width.words : Width → ℕ
  | .star => 1
  | _ => 0

/-- A word for a star. -/
def Precision.words : Precision → ℕ
  | .star => 1
  | _ => 0

/-- The word of a conversion. A percent sign has none. -/
def Conv.words (k : Conv) : ℕ := if k = .percent then 0 else 1

/-- The words for the stars of a conversion. -/
def Conversion.stars (k : Conversion) : ℕ := k.width.words + k.precision.words

/-- The words that an item takes. -/
def Item.words : Item → ℕ
  | .char _ _ => 0
  | .conversion k => k.stars + k.conv.words

/-- The words that items take. -/
def wordsOf (is : List Item) : ℕ := (is.map Item.words).sum

/-- The width, of type `int`, where the word for a star is `w`. -/
def Width.value (w : BitVec 32) : Width → ℤ
  | .none => 0
  | .digits first rest => Int.bmod (valueOf (first.val + 1) rest) (2 ^ 32)
  | .star => if w.toInt < 0 then Int.bmod (-w.toInt) (2 ^ 32) else w.toInt

/-- A negative width adds the flag `-`. -/
def Width.adds (w : BitVec 32) (flags : Flags) : Width → Flags
  | .star => if w.toInt < 0 then { flags with left := true } else flags
  | _ => flags

/-- The rendering of the word `w` alone. -/
def Conv.render (v : Args) (width : ℤ) (flags : Flags) (w : BitVec 32) : Conv → List UInt8
  | .d | .i => intText w.toInt 10 width { flags with signed := true }
  | .u => intText w.toNat 10 width flags
  | .o => intText w.toNat 8 width flags
  | .x => intText w.toNat 16 width { flags with small := true }
  | .X => intText w.toNat 16 width flags
  | .b => intText w.toNat 2 width flags
  | .p => intText w.toNat 16 width { flags with alternate := true, small := true }
  | .s => strText (if w = 0 then nullText else v.str w) width flags
  | .c => chrText (.ofNat w.toNat) width flags
  | .percent => [37]

/-- What an item puts out, where its words start with the word `a`. -/
def Item.text (v : Args) (a : ℕ) : Item → List UInt8
  | .char c _ => [c]
  | .conversion k => k.conv.render v (k.width.value (v.word a))
      (k.width.adds (v.word a) (k.flags.foldl Flag.set noFlags)) (v.word (a + k.stars))

/-- The concatenation of what items put out. -/
def textOf (v : Args) : ℕ → List Item → List UInt8
  | _, [] => []
  | a, i :: is => i.text v a ++ textOf v (a + i.words) is

/-! ### Rounds that are not the last one -/

/-- The scanner gets from one state to another in rounds that do not end the loop. -/
inductive Steps (v : Args) : Scan → Scan → List UInt8 → Prop
  | refl (s : Scan) : Steps v s s []
  | next {s e : Scan} {t : List UInt8} (h : ¬Last v s) (hrest : Steps v (roundNext v s) e t) :
      Steps v s e (roundText v s ++ t)

variable {v : Args} {s e : Scan} {t : List UInt8}

theorem Steps.one {c : UInt8} (h : round snoc v s [] = (c, e, t)) (hc : c ≠ 0) : Steps v s e t := by
  have hlast : ¬Last v s := fun hl => hc (by rw [← hl, h])
  have hstep := Steps.next hlast (.refl _)
  rwa [roundNext, roundText, h, List.append_nil] at hstep

theorem Steps.trans {e' : Scan} {t' : List UInt8} (h : Steps v s e t) (h' : Steps v e e' t') :
    Steps v s e' (t ++ t') := by
  induction h with
  | refl => exact h'
  | next hlast _ ih =>
    rw [List.append_assoc]
    exact .next hlast (ih h')

/-- Rounds that put out nothing, before others. -/
theorem Steps.silent {e' : Scan} (h : Steps v s e []) (h' : Steps v e e' t) : Steps v s e' t :=
    h.trans h'

theorem Steps.left_le (h : Steps v s e t) : e.left ≤ s.left := by
  induction h with
  | refl => exact Nat.le_refl _
  | next hlast _ ih =>
      exact Nat.le_trans ih (Nat.le_of_lt (left_roundNext fun hnil => hlast (last_of_nil hnil)))

/-- What has less left to do comes later. -/
theorem Steps.later {e' : Scan} {t' : List UInt8} (h : Steps v s e t) (h' : Steps v s e' t')
    (hle : e'.left ≤ e.left) : ∃ u, t' = t ++ u ∧ Steps v e e' u := by
  induction h generalizing t' with
  | refl => exact ⟨t', rfl, h'⟩
  | next hlast hrest ih =>
    have hless := left_roundNext (v := v) fun hnil => hlast (last_of_nil hnil)
    cases h' with
    | refl => exact absurd (Nat.lt_of_le_of_lt hrest.left_le hless) (by omega)
    | next _ hrest' =>
      obtain ⟨u, rfl, hu⟩ := ih hrest' hle
      exact ⟨u, (List.append_assoc ..).symm, hu⟩

theorem Steps.unique {e' : Scan} {t' : List UInt8} (h : Steps v s e t) (h' : Steps v s e' t')
    (heq : e'.left = e.left) : e' = e ∧ t' = t := by
  obtain ⟨u, rfl, hu⟩ := h.later h' (Nat.le_of_eq heq)
  cases hu with
  | refl => exact ⟨rfl, List.append_nil _⟩
  | next hlast hrest =>
    have hless := left_roundNext (v := v) fun hnil => hlast (last_of_nil hnil)
    exact absurd hrest.left_le (by omega)

/-- The rounds before the last one are a part of the loop. -/
theorem Steps.runs {e' : Scan} {cs : List UInt8} (h : Steps v s e t) (h' : Runs v e e' cs) :
    Runs v s e' (t ++ cs) := by
  induction h with
  | refl => exact h'
  | next hlast _ ih =>
    rw [List.append_assoc]
    exact .next hlast (ih h')

/-! ### The rounds of a conversion -/

/-- A character that the states before `S_LENGTH` pass on. -/
def plain (c : UInt8) : Bool :=
  !isDigit c && c ∉ [0, 32, 35, 39, 42, 43, 45, 46, 73]

section

variable {rest : List UInt8} {flags : Flags} {width : ℤ} {lflags a : ℕ}

theorem steps_flag (f : Flag) :
    Steps v ⟨.flags, f.char :: rest, flags, width, lflags, a⟩
      ⟨.flags, rest, f.set flags, width, lflags, a⟩ [] := by
  refine .one (c := f.char) ?_ (by cases f <;> decide)
  cases f <;> rfl

theorem steps_flags (fs : List Flag) :
    Steps v ⟨.flags, fs.map Flag.char ++ rest, flags, width, lflags, a⟩
      ⟨.flags, rest, fs.foldl Flag.set flags, width, lflags, a⟩ [] := by
  induction fs generalizing flags with
  | nil => exact .refl _
  | cons f fs ih => exact (steps_flag f).silent ih

theorem isDigit_ofNat (k : Fin 10) : isDigit (.ofNat (48 + k.val)) = true := by
  revert k
  decide

theorem toNat_ofNat (k : Fin 10) : (UInt8.ofNat (48 + k.val)).toNat = 48 + k.val := by
  revert k
  decide

/-- `get_atoi` reads digits. -/
theorem getAtoi_numeral {c : UInt8} (hc : isDigit c = false) (ds : List (Fin 10)) (n : ℤ) :
    getAtoi (numeral ds ++ c :: rest) (Int.bmod n (2 ^ 32)) =
      (Int.bmod (valueOf n ds) (2 ^ 32), c :: rest) := by
  induction ds generalizing n with
  | nil => exact if_neg (by rw [hc]; decide)
  | cons k ds ih =>
    have hstep : Int.bmod (Int.bmod n (2 ^ 32) * 10 + (48 + k.val : ℕ) - 48) (2 ^ 32) =
        Int.bmod (n * 10 + k.val) (2 ^ 32) := by
      have hsub : Int.bmod n (2 ^ 32) * 10 + (48 + k.val : ℕ) - 48 =
        Int.bmod n (2 ^ 32) * 10 + k.val := by
        omega
      rw [hsub, ← Int.bmod_add_bmod, Int.bmod_mul_bmod, Int.bmod_add_bmod]
    rw [numeral, List.map_cons, List.cons_append, getAtoi, if_pos (isDigit_ofNat k),
      toNat_ofNat, hstep]
    exact ih _

theorem plain_spec {c : UInt8} (hc : plain c) :
    isDigit c = false ∧ c ∉ [0, 32, 35, 39, 42, 43, 45, 46, 48, 73] := by
  have hdigit : isDigit c = false := by simp_all [plain]
  refine ⟨hdigit, fun hmem => ?_⟩
  have hzero : c ≠ 48 := fun h => by rw [h] at hdigit; cases hdigit
  simp_all [plain]

theorem steps_toWidth {c : UInt8} (hc : c ∉ [0, 32, 35, 39, 43, 45, 48, 73]) :
    Steps v ⟨.flags, c :: rest, flags, width, lflags, a⟩ ⟨.width, c :: rest, flags, 0, lflags, a⟩
      [] := by
  simp only [List.mem_cons, List.not_mem_nil, or_false, not_or] at hc
  obtain ⟨h0, h32, h35, h39, h43, h45, h48, h73⟩ := hc
  refine .one (c := c) ?_ h0
  unfold round
  simp only [List.headD_cons, h35, h48, h45, h32, h43, h39, h73, or_self, if_false]

theorem steps_toPrecision {c : UInt8} (hc : plain c ∨ c = 46) :
    Steps v ⟨.width, c :: rest, flags, width, lflags, a⟩ ⟨.precis, c :: rest, flags,
      width, lflags, a⟩
      [] := by
  have hplain : isDigit c = false ∧ c ≠ 42 ∧ c ≠ 0 := by
    obtain h | rfl := hc
    · have := plain_spec h
      simp_all
    · decide
  refine .one (c := c) ?_ hplain.2.2
  unfold round
  simp only [List.headD_cons, hplain, if_false, Bool.false_eq_true, false_and]

theorem steps_width (w : Width) {c : UInt8} (hc : plain c ∨ c = 46) :
    Steps v ⟨.flags, w.chars ++ c :: rest, flags, width, lflags, a⟩
      ⟨.precis, c :: rest, w.adds (v.word a) flags, w.value (v.word a), lflags,
        a + w.words⟩ [] := by
  have hpass : c ∉ [0, 32, 35, 39, 43, 45, 48, 73] ∧ isDigit c = false := by
    obtain h | rfl := hc
    · have := plain_spec h
      simp_all
    · decide
  cases w with
  | none => exact (steps_toWidth hpass.1).silent (steps_toPrecision hc)
  | star =>
    have hround : round snoc v ⟨.width, 42 :: c :: rest, flags, 0, lflags, a⟩ [] =
        (42, ⟨.width, c :: rest, Width.star.adds (v.word a) flags,
          Width.star.value (v.word a), lflags, a + 1⟩, []) := by
      unfold round Width.adds Width.value
      simp only [List.headD_cons, if_true, List.tail_cons]
      split <;> rfl
    exact (steps_toWidth (c := 42) (by decide)).silent
      ((Steps.one hround (by decide)).silent (steps_toPrecision hc))
  | digits first ds =>
    have hfirst : UInt8.ofNat (49 + first.val) ∉ [0, 32, 35, 39, 43, 45, 48, 73] ∧
        UInt8.ofNat (49 + first.val) ≠ 0 ∧ UInt8.ofNat (49 + first.val) ≠ 42 ∧
        isDigit (.ofNat (49 + first.val)) ∧ UInt8.ofNat (49 + first.val) > 48 := by
      revert first
      decide
    obtain ⟨hmem, hzero, hstar, hdigit, hpos⟩ := hfirst
    have hatoi : getAtoi (.ofNat (49 + first.val) :: (numeral ds ++ c :: rest)) 0 =
        (Int.bmod (valueOf (first.val + 1) ds) (2 ^ 32), c :: rest) := by
      have h := @getAtoi_numeral rest _ hpass.2 (first.succ :: ds) 0
      have hchar : 48 + first.succ.val = 49 + first.val := by rw [Fin.val_succ]; omega
      have hvalue : valueOf 0 (first.succ :: ds) = valueOf (first.val + 1) ds :=
        congrArg (valueOf · ds) (by simp)
      rwa [numeral, List.map_cons, hchar, hvalue] at h
    have hround :
      round snoc v ⟨.width, .ofNat (49 + first.val) :: (numeral ds ++ c :: rest), flags, 0,
        lflags, a⟩ [] =
        (.ofNat (49 + first.val),
          ⟨.width, c :: rest, flags, Int.bmod (valueOf (first.val + 1) ds) (2 ^ 32), lflags, a⟩,
            []) := by
      unfold round
      simp only [List.headD_cons, hstar, hdigit, hpos, if_false, and_self, if_true, hatoi]
    exact (steps_toWidth hmem).silent ((Steps.one hround hzero).silent (steps_toPrecision hc))

/-- A precision that is not a star is skipped. -/
theorem steps_precision {p : Precision} (hp : p ≠ .star) {c : UInt8} (hc : plain c) :
    Steps v ⟨.precis, p.chars ++ c :: rest, flags, width, lflags, a⟩
      ⟨.length, c :: rest, flags, width, 0, a⟩ [] := by
  have hplain := plain_spec hc
  simp only [List.mem_cons, List.not_mem_nil, or_false, not_or] at hplain
  cases p with
  | star => exact absurd rfl hp
  | none =>
    refine .one (c := c) ?_ hplain.2.1
    unfold round
    simp only [Precision.chars, List.nil_append, List.headD_cons, hplain, if_false]
  | digits ds =>
    refine .one (c := 46) ?_ (by decide)
    unfold round
    simp only [Precision.chars, List.cons_append, List.headD_cons, List.tail_cons, if_true]
    cases ds with
    | nil =>
        simp only [numeral, List.map_nil, List.nil_append, List.headD_cons, hplain, if_false,
          Bool.false_eq_true]
    | cons k ds =>
      have hatoi : getAtoi (numeral (k :: ds) ++ c :: rest) 0 = _ :=
        getAtoi_numeral hplain.1 (k :: ds) 0
      have hdigit : isDigit ((numeral (k :: ds) ++ c :: rest).headD 0) := isDigit_ofNat k
      refine (if_pos hdigit).trans ?_
      rw [hatoi]

/-- A precision that is a star takes its word, but the star is left to end the conversion. -/
theorem steps_precisionStar :
    Steps v ⟨.precis, 46 :: 42 :: rest, flags, width, lflags, a⟩
      ⟨.default, rest, flags, width, 0, a + 1⟩ [37, 42] := by
  have hpoint : Steps v ⟨.precis, 46 :: 42 :: rest, flags, width, lflags, a⟩
      ⟨.length, 42 :: rest, flags, width, 0, a + 1⟩ [] := .one (c := 46) rfl (by decide)
  have hlength : Steps v ⟨.length, 42 :: rest, flags, width, 0, a + 1⟩
      ⟨.conv, 42 :: rest, flags, width, 0, a + 1⟩ [] := .one (c := 42) rfl (by decide)
  exact hpoint.silent (hlength.silent (.one (c := 42) rfl (by decide)))

/-- The value of `lflags` for a length. -/
def Length.code : Length → ℕ
  | .none => 0
  | .h => 1
  | .hh => 2
  | .l => 3

theorem Conv.plain_char (k : Conv) : plain k.char := by
  cases k <;> decide

theorem steps_toConv {k : Conv} :
    Steps v ⟨.length, k.char :: rest, flags, width, lflags, a⟩
      ⟨.conv, k.char :: rest, flags, width, lflags, a⟩ [] := by
  refine .one (c := k.char) ?_ (by cases k <;> decide)
  cases k <;> rfl

theorem steps_length (m : Length) (k : Conv) :
    Steps v ⟨.length, m.chars ++ k.char :: rest, flags, width, 0, a⟩
      ⟨.conv, k.char :: rest, flags, width, m.code, a⟩ [] := by
  cases m with
  | none => exact steps_toConv
  | h => exact (Steps.one (c := 104) rfl (by decide)).silent steps_toConv
  | hh =>
    exact (Steps.one (c := 104) rfl (by decide)).silent
      ((Steps.one (c := 104) rfl (by decide)).silent steps_toConv)
  | l => exact (Steps.one (c := 108) rfl (by decide)).silent steps_toConv

/-- Without the length `h`, an integer conversion takes one word. -/
theorem intArg_eq {m : Length} (hm : m ≠ .h) {s : Scan} (hs : s.lflags = m.code) (c : UInt8) :
    intArg v s c =
      (if m = .l ∨ c = 100 ∨ c = 105 then (v.word s.arg).toInt else (v.word s.arg).toNat, 1) := by
  unfold intArg
  rw [hs]
  cases m with
  | h => exact absurd rfl hm
  | l => rfl
  | _ => by_cases hc : c = 100 ∨ c = 105 <;> simp [Length.code, hc]

/-- With the length `h` it takes two: `L_CHAR` has a bit in common with `L_DOUBLE`. -/
theorem intArg_short {s : Scan} (hs : s.lflags = 1) (c : UInt8) : (intArg v s c).2 = 2 := by
  rw [intArg, hs]
  rfl

/-- The number is cut to 32 bits. -/
theorem intText_toInt (w : BitVec 32) (base : ℕ) {flags : Flags} (hflags : flags.signed = false)
    (width : ℤ) :
    intText w.toInt base width flags = intText w.toNat base width flags := by
  have hneg (num : ℤ) : isNeg num flags = false := by rw [isNeg, hflags, Bool.false_and]
  have hcut : w.toInt % 2 ^ 32 = (w.toNat : ℤ) % 2 ^ 32 := by
    rw [BitVec.toInt_eq_toNat_cond]
    split <;> omega
  unfold intText fmtInt npadOf digitsOf altbOf
  simp only [hneg, hcut, Bool.false_eq_true, if_false]

/-- The base of an integer conversion. -/
def Conv.base : Conv → ℕ
  | .x | .X => 16
  | .o => 8
  | .b => 2
  | _ => 10

/-- The flags for a number, from the character of its conversion. -/
def numberFlags (flags : Flags) (c : UInt8) : Flags :=
  { flags with signed := flags.signed || c = 100 || c = 105, small := flags.small || c = 120 }

theorem round_int {k : Conv} (hk : k.isInt) (s : Scan) (hs : s.state = .conv)
    (hfmt : s.fmt = k.char :: rest) :
    round snoc v s [] =
      (k.char, { s with
        state := .default, fmt := rest, flags := numberFlags s.flags k.char,
        arg := s.arg + (intArg v s k.char).2 },
      intText (intArg v s k.char).1 k.base s.width (numberFlags s.flags k.char)) := by
  unfold round convert
  rw [hs, hfmt]
  cases k with
  | p | s | c | percent => cases hk
  | _ => rfl

theorem steps_int {k : Conv} {m : Length} (hk : k.isInt) (hm : m ≠ .h)
    (hflags : flags.signed = false) :
    ∃ flags', Steps v ⟨.conv, k.char :: rest, flags, width, m.code, a⟩
      ⟨.default, rest, flags', width, m.code, a + 1⟩ (k.render v width flags (v.word a)) := by
  have hround := round_int (v := v) hk ⟨.conv, k.char :: rest, flags, width, m.code, a⟩ rfl rfl
  rw [intArg_eq hm rfl] at hround
  have hunsigned (base : ℕ) (flags : Flags) (hs : flags.signed = false) :
      intText (if m = .l then (v.word a).toInt else (v.word a).toNat) base width flags =
        intText (v.word a).toNat base width flags := by
    split
    · exact intText_toInt _ _ hs _
    · rfl
  have hrender :
    intText (if m = .l ∨ k.char = 100 ∨ k.char = 105 then (v.word a).toInt else (v.word a).toNat)
      k.base width (numberFlags flags k.char) = k.render v width flags (v.word a) := by
    obtain ⟨alternate, zeropad, left, space, plus, signed, small⟩ := flags
    cases hflags
    cases k with
    | p | s | c | percent => cases hk
    | d | i => simp [numberFlags, Conv.char, Conv.base, Conv.render]
    | _ => simp [numberFlags, Conv.char, Conv.base, Conv.render, hunsigned]
  rw [← hrender]
  exact ⟨_, .one hround (by cases k <;> decide)⟩

theorem steps_conv {k : Conv} {m : Length} (hm : k.isInt → m ≠ .h) (hflags : flags.signed = false)
    (hnul : k = .c → UInt8.ofNat (v.word a).toNat ≠ 0) :
    ∃ flags', Steps v ⟨.conv, k.char :: rest, flags, width, m.code, a⟩
      ⟨.default, rest, flags', width, m.code, a + k.words⟩ (k.render v width flags (v.word a)) := by
  by_cases hk : k.isInt
  · have hwords : k.words = 1 := by cases k <;> first | rfl | cases hk
    rw [hwords]
    exact steps_int hk (hm hk) hflags
  cases k with
  | p => exact ⟨_, .one (c := 112) rfl (by decide)⟩
  | s => exact ⟨_, .one (c := 115) rfl (by decide)⟩
  | c => exact ⟨_, .one (c := _) rfl (hnul rfl)⟩
  | percent => exact ⟨_, .one (c := 37) rfl (by decide)⟩
  | _ => exact absurd rfl hk


theorem exists_plain (m : Length) (k : Conv) :
    ∃ c r, m.chars ++ k.char :: rest = c :: r ∧ plain c := by
  cases m with
  | none => exact ⟨k.char, rest, rfl, k.plain_char⟩
  | h => exact ⟨104, k.char :: rest, rfl, by decide⟩
  | hh => exact ⟨104, 104 :: k.char :: rest, rfl, by decide⟩
  | l => exact ⟨108, k.char :: rest, rfl, by decide⟩

end

theorem signed_foldl (fs : List Flag) {flags : Flags} (hflags : flags.signed = false) :
    (fs.foldl Flag.set flags).signed = false := by
  induction fs generalizing flags with
  | nil => exact hflags
  | cons f fs ih => exact ih (by cases f <;> exact hflags)

theorem Width.signed_adds (w : Width) (word : BitVec 32) {flags : Flags}
    (hflags : flags.signed = false) :
    (w.adds word flags).signed = false := by
  cases w with
  | star =>
    unfold Width.adds
    dsimp only
    split <;> exact hflags
  | _ => exact hflags

/-- A conversion up to its precision. -/
theorem steps_flagsWidth (k : Conversion) {rest : List UInt8} (hs : s.state = .default)
    (hfmt : s.fmt = Item.chars (.conversion k) ++ rest) :
    Steps v s ⟨.precis, k.precision.chars ++ (k.length.chars ++ k.conv.char :: rest),
      k.width.adds (v.word s.arg) (k.flags.foldl Flag.set noFlags), k.width.value (v.word s.arg),
        s.lflags,
      s.arg + k.width.words⟩ [] := by
  have hlist : s.fmt = 37 :: (k.flags.map Flag.char ++ (k.width.chars ++ (k.precision.chars ++
      (k.length.chars ++ k.conv.char :: rest)))) := by
    rw [hfmt, Item.chars, Conversion.tail]
    simp only [List.cons_append, List.append_assoc, List.nil_append]
  obtain ⟨c, r, hcr, hc⟩ : ∃ c r, k.precision.chars ++ (k.length.chars ++ k.conv.char :: rest) =
    c :: r ∧
      (plain c ∨ c = 46) := by
    cases k.precision with
    | none =>
      obtain ⟨c, r, hcr, hc⟩ := @exists_plain rest k.length k.conv
      exact ⟨c, r, hcr, .inl hc⟩
    | digits ds => exact ⟨46, _, rfl, .inr rfl⟩
    | star => exact ⟨46, _, rfl, .inr rfl⟩
  have hpercent : round snoc v s [] =
    (37, ⟨.flags, k.flags.map Flag.char ++ (k.width.chars ++ c :: r), noFlags,
      s.width, s.lflags, s.arg⟩, []) := by
    unfold round
    rw [hs, hlist, hcr]
    rfl
  rw [hcr]
  exact (Steps.one hpercent (by decide)).silent
    ((steps_flags k.flags).silent (steps_width k.width hc))

/-- A conversion up to its last character. A precision that is a star is not skipped. -/
theorem steps_conversion {k : Conversion} {rest : List UInt8} (hs : s.state = .default)
    (hfmt : s.fmt = Item.chars (.conversion k) ++ rest) (hprec : k.precision ≠ .star) :
    Steps v s ⟨.conv, k.conv.char :: rest,
      k.width.adds (v.word s.arg) (k.flags.foldl Flag.set noFlags), k.width.value (v.word s.arg),
      k.length.code, s.arg + k.stars⟩ [] := by
  have hstars : k.stars = k.width.words := by
    rw [Conversion.stars]
    cases hp : k.precision with
    | star => exact absurd hp hprec
    | _ => rfl
  obtain ⟨c, r, hcr, hc⟩ := @exists_plain rest k.length k.conv
  have hwidth := steps_flagsWidth (v := v) k hs hfmt
  have hlength :=
    @steps_length v rest (k.width.adds (v.word s.arg) (k.flags.foldl Flag.set noFlags))
      (k.width.value (v.word s.arg))
    (s.arg + k.width.words) k.length k.conv
  rw [hcr] at hwidth hlength
  rw [hstars]
  exact hwidth.silent ((steps_precision hprec hc).silent hlength)

/-- The conversions and values that `vsnprintf` gets right, where the words start with the word
`a`: not the precision `*`, not the length `h` of an integer, and not the character 0. -/
def Good (v : Args) (a : ℕ) : Item → Prop
  | .char _ _ => True
  | .conversion k => k.precision ≠ .star ∧ (k.conv.isInt → k.length ≠ .h) ∧
      (k.conv = .c → UInt8.ofNat (v.word (a + k.stars)).toNat ≠ 0)

theorem steps_chars {cs rest : List UInt8} (hcs : ∀ c ∈ cs, c ≠ 0 ∧ c ≠ 37)
    (hs : s.state = .default)
    (hfmt : s.fmt = cs ++ rest) : Steps v s { s with fmt := rest } cs := by
  induction cs generalizing s with
  | nil =>
    rw [List.nil_append] at hfmt
    rw [← hfmt]
    exact .refl s
  | cons c cs ih =>
    obtain ⟨hzero, hpercent⟩ := hcs c List.mem_cons_self
    have hround : round snoc v s [] = (c, { s with fmt := cs ++ rest }, [c]) := by
      unfold round
      rw [hs, hfmt]
      exact if_neg hpercent
    exact (Steps.one hround hzero).trans (ih (s := { s with fmt := cs ++ rest })
      (fun d hd => hcs d (List.mem_cons_of_mem _ hd)) hs rfl)

theorem steps_good {i : Item} {rest : List UInt8} (hs : s.state = .default)
    (hfmt : s.fmt = i.chars ++ rest)
    (hgood : Good v s.arg i) :
    ∃ e, Steps v s e (i.text v s.arg) ∧ e.state = .default ∧ e.fmt = rest ∧
      e.arg = s.arg + i.words := by
  cases i with
  | char c hc => exact ⟨_, steps_chars (List.forall_mem_singleton.mpr hc) hs hfmt, hs, rfl, rfl⟩
  | conversion k =>
    obtain ⟨hprec, hint, hnul⟩ := hgood
    have hflags := k.width.signed_adds (v.word s.arg) (@signed_foldl k.flags noFlags rfl)
    obtain ⟨flags', hconv⟩ :=
      @steps_conv v rest _ (k.width.value (v.word s.arg)) _ _ _ hint hflags hnul
    exact ⟨_, (steps_conversion hs hfmt hprec).silent hconv, rfl, rfl, Nat.add_assoc ..⟩

/-- After a star as precision, the scanner is before the last character of the conversion, in the
state for literal characters. -/
theorem steps_star {k : Conversion} {rest : List UInt8} (hs : s.state = .default)
    (hfmt : s.fmt = Item.chars (.conversion k) ++ rest) (hprec : k.precision = .star) :
    ∃ e t, Steps v s e t ∧ e.state = .default ∧ e.fmt = k.conv.char :: rest ∧
      e.arg = s.arg + k.stars := by
  have hwidth := steps_flagsWidth (v := v) k hs hfmt
  have hstars : k.stars = k.width.words + 1 := by rw [Conversion.stars, hprec]; rfl
  have hlength : ∀ c ∈ k.length.chars, c ≠ 0 ∧ c ≠ 37 := by
    cases k.length <;> simp [Length.chars]
  rw [hprec] at hwidth
  rw [hstars]
  exact ⟨_, _, (hwidth.silent steps_precisionStar).trans (steps_chars hlength rfl rfl),
    rfl, rfl, rfl⟩

theorem precision_of_steps {k : Conversion} {rest : List UInt8} (hs : s.state = .default)
    (hfmt : s.fmt = Item.chars (.conversion k) ++ rest) (h : Steps v s e t)
    (he : e.state = .default) (hrest : e.fmt = rest)
    (harg : e.arg = s.arg + (k.stars + k.conv.words)) : k.precision ≠ .star := by
  intro hp
  obtain ⟨s', t', hsteps, hs', hfmt', harg'⟩ := steps_star (v := v) hs hfmt hp
  by_cases hk : k.conv = .percent
  · -- the percent sign starts another conversion, so that the scanner is in no such state
    obtain ⟨u, -, hlater⟩ := hsteps.later h (by
      rw [Scan.left, Scan.left, he, hs', hfmt', hrest, List.length_cons]
      omega)
    cases hlater with
    | refl =>
      have hlen := congrArg List.length (hfmt'.symm.trans hrest)
      rw [List.length_cons] at hlen
      omega
    | next _ hafter =>
      have hround :
        roundNext v s' = { s' with state := .flags, fmt := rest, flags := noFlags } := by
        unfold roundNext round
        rw [hs', hfmt', hk]
        rfl
      have hle := hafter.left_le
      rw [hround, Scan.left, Scan.left, he, hrest] at hle
      exact absurd hle (by simp only [State.left]; omega)
  · -- the last character is put out, and its word is not taken
    have hchar : k.conv.char ≠ 0 ∧ k.conv.char ≠ 37 := by
      cases hc : k.conv <;> first | exact absurd hc hk | decide
    have hone : k.conv.words = 1 := if_neg hk
    have hall := hsteps.trans
      (@steps_chars _ _ [k.conv.char] _ (List.forall_mem_singleton.mpr hchar) hs' hfmt')
    obtain ⟨rfl, -⟩ := hall.unique h (by rw [Scan.left, Scan.left, he, hrest, hs'])
    rw [hone] at harg
    exact absurd (harg'.symm.trans harg) (by omega)

theorem good_of_steps {i : Item} {rest : List UInt8} (hs : s.state = .default)
    (hfmt : s.fmt = i.chars ++ rest)
    (h : Steps v s e t) (he : e.state = .default) (hrest : e.fmt = rest)
    (harg : e.arg = s.arg + i.words) :
    Good v s.arg i := by
  have hleft : e.left = 7 * rest.length + 6 := by rw [Scan.left, he, hrest]; rfl
  cases i with
  | char c hc => trivial
  | conversion k =>
    have hprec := precision_of_steps hs hfmt h he hrest harg
    have hconv := steps_conversion (v := v) hs hfmt hprec
    refine ⟨hprec, fun hint hlen => ?_, fun hc hnul => ?_⟩
    · -- two words are taken
      rw [hlen] at hconv
      have hround := @round_int v rest _ hint ⟨.conv, k.conv.char :: rest,
        k.width.adds (v.word s.arg) (k.flags.foldl Flag.set noFlags),
        k.width.value (v.word s.arg), 1,
          s.arg + k.stars⟩ rfl rfl
      obtain ⟨rfl, -⟩ :=
        (hconv.silent (.one hround (by cases k.conv <;> decide))).unique h (by rw [hleft]; rfl)
      have hwords : (Item.conversion k).words = k.stars + 1 := by
        show k.stars + k.conv.words = _
        cases hk : k.conv <;> rw [hk] at hint <;> first | rfl | cases hint
      rw [hwords] at harg
      dsimp only at harg
      rw [intArg_short rfl] at harg
      omega
    · -- the round of the character 0 is the last one
      obtain ⟨u, -, hlater⟩ := hconv.later h (by
        rw [hleft]
        simp only [Scan.left, List.length_cons, State.left]
        omega)
      cases hlater with
      | refl => cases he
      | next hlast _ =>
        refine hlast ?_
        unfold Last round
        rw [hc]
        exact hnul

/-! ### Formats -/

/-- `vsnprintf` does what the items say: it gets from each of them to the next one with the words
that they take and what they put out, and the string is their concatenation. -/
structure Right (v : Args) (is : List Item) : Prop where
  passes : ∀ as bs, is = as ++ bs → ∃ e, Steps v (start (format is)) e (textOf v 0 as) ∧
    e.state = .default ∧ e.fmt = format bs ∧ e.arg = wordsOf as
  writes : (textOf v 0 is).length < 2 ^ 31 →
      ∀ buf size, ∃ r, vsnprintf buf size (format is) v = some r ∧
    Writes (textOf v 0 is) buf size r

theorem wordsOf_append (as bs : List Item) : wordsOf (as ++ bs) = wordsOf as + wordsOf bs := by
  rw [wordsOf, List.map_append, List.sum_append]
  rfl

theorem textOf_append (v : Args) (a : ℕ) (as bs : List Item) :
    textOf v a (as ++ bs) = textOf v a as ++ textOf v (a + wordsOf as) bs := by
  induction as generalizing a with
  | nil => rfl
  | cons i as ih =>
    have hwords : wordsOf (i :: as) = i.words + wordsOf as := rfl
    rw [List.cons_append, textOf, textOf, ih, List.append_assoc, hwords, Nat.add_assoc]

theorem passes_of_good {is : List Item} (h : ∀ as i bs, is = as ++ i :: bs → Good v (wordsOf as) i)
    (as bs : List Item)
    (his : is = as ++ bs) : ∃ e, Steps v (start (format is)) e (textOf v 0 as) ∧
      e.state = .default ∧ e.fmt = format bs ∧ e.arg = wordsOf as := by
  induction as using List.reverseRecOn generalizing bs with
  | nil => exact ⟨_, .refl _, rfl, by rw [his]; rfl, rfl⟩
  | append_singleton as i ih =>
    have hsplit : is = as ++ i :: bs := by rw [his, List.append_assoc, List.singleton_append]
    obtain ⟨s, hsteps, hs, hfmt, harg⟩ := ih (i :: bs) hsplit
    have hgood : Good v s.arg i := harg ▸ h as i bs hsplit
    obtain ⟨e, hitem, he, hrest, hwords⟩ := steps_good hs hfmt hgood
    have htext : textOf v 0 (as ++ [i]) = textOf v 0 as ++ i.text v s.arg := by
      rw [textOf_append, harg, Nat.zero_add, textOf, textOf, List.append_nil]
    refine ⟨e, htext ▸ hsteps.trans hitem, he, hrest, ?_⟩
    rw [hwords, harg, wordsOf_append]
    rfl

theorem text_of_passes {is : List Item} {w : List UInt8} (h : Steps v (start (format is)) e w)
    (he : e.state = .default)
    (hfmt : e.fmt = []) : text v (format is) = w ++ [0] := by
  have hround : roundText v e = [0] := by
    unfold roundText round
    rw [he, hfmt]
    rfl
  rw [(h.runs (.last (last_of_nil hfmt))).text_eq, hround]

theorem right_of_good {is : List Item} (h : ∀ as i bs, is = as ++ i :: bs → Good v (wordsOf as) i) :
    Right v is := by
  refine ⟨passes_of_good h, fun hlen buf size => ?_⟩
  obtain ⟨e, hsteps, he, hfmt, -⟩ := passes_of_good h is [] (List.append_nil _).symm
  have htext := text_of_passes hsteps he hfmt
  have hlength : (text v (format is)).length = (textOf v 0 is).length + 1 := by
    rw [htext, List.length_append]; rfl
  have hlast := @lastText_eq v (format is) (by omega)
  have hwrites :=
    @writes_vsnprintf v (format is) (by rw [hlast, htext]; simp) (by rw [hlast]; omega) buf size
  rwa [hlast, htext, List.dropLast_concat] at hwrites

theorem good_of_right {is as bs : List Item} {i : Item} (h : Right v is)
    (his : is = as ++ i :: bs) :
    Good v (wordsOf as) i := by
  obtain ⟨s, hsteps, hs, hfmt, harg⟩ := h.passes as (i :: bs) his
  obtain ⟨e, hsteps', he, hrest, harg'⟩ :=
    h.passes (as ++ [i]) bs (by rw [his, List.append_assoc, List.singleton_append])
  have hlist : s.fmt = i.chars ++ format bs := hfmt
  obtain ⟨u, -, hitem⟩ := hsteps.later hsteps' (by
    rw [Scan.left, Scan.left, hs, he, hlist, hrest, List.length_append]
    omega)
  rw [← harg]
  refine good_of_steps hs hlist hitem he hrest ?_
  rw [harg', harg, wordsOf_append]
  rfl

/-- When `vsnprintf` does what the items say. -/
theorem conversions_right_iff (v : Args) (is : List Item) :
    Right v is ↔ ∀ as i bs, is = as ++ i :: bs → Good v (wordsOf as) i :=
  ⟨fun h _ _ _ his => good_of_right h his, right_of_good⟩

/-- The format `"%hd"` takes two words. -/
theorem not_right_short :
    ¬Right ⟨fun _ => 0, fun _ => []⟩ [.conversion ⟨[], .none, .none, .h, .d⟩] :=
  fun h => (good_of_right h (List.nil_append _).symm).2.1 rfl rfl

end Cosiris.Printf
