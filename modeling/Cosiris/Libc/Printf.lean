import Mathlib.Data.Nat.Notation
import Mathlib.Data.Int.Notation
import Mathlib.Data.List.Basic
import Mathlib.Logic.Function.Basic
import Mathlib.Algebra.Order.Group.Nat
import Mathlib.Algebra.Order.Ring.Int

/-!
# `vsnprintf`

`lib/vsnprintf.c`. A string is the list of its characters before the NUL. The arguments are
words of 32 bits that follow each other, as a caller on the i386 leaves them. All output
goes through `bputc`; the functions that format are given it as `put`, with the state `x`
that it changes.
-/

namespace Cosiris.Printf

/-! ### Output -/

/-- The buffer, and `n`, the number of characters that were put out. -/
structure Out where
  buf : ℕ → UInt8
  n : ℕ

/-- `bputc`. -/
def bputc (max : ℕ) (c : UInt8) (x : Out) : Out :=
  { buf := if x.n < max then Function.update x.buf x.n c else x.buf, n := (x.n + 1) % 2 ^ 32 }

section

variable {α : Type*} (put : UInt8 → α → α)

/-- `put` for the characters of a list, one after the other. -/
def puts (cs : List UInt8) (x : α) : α := cs.foldl (fun x c => put c x) x

@[simp] theorem puts_nil (x : α) : puts put [] x = x := rfl

theorem puts_cons (c : UInt8) (cs : List UInt8) (x : α) :
    puts put (c :: cs) x = puts put cs (put c x) := rfl

theorem puts_append (cs ds : List UInt8) (x : α) :
    puts put (cs ++ ds) x = puts put ds (puts put cs x) :=
  List.foldl_append ..

end

/-! ### Conversions -/

/-- The flags of a conversion. -/
structure Flags where
  alternate : Bool
  zeropad : Bool
  left : Bool
  space : Bool
  plus : Bool
  signed : Bool
  small : Bool

/-- No flag. -/
def noFlags : Flags := ⟨false, false, false, false, false, false, false⟩

/-- The digit for `k`, from `"0123456789ABCDEF"` or `"0123456789abcdef"`. -/
def digit (small : Bool) (k : ℕ) : UInt8 :=
  if k < 10 then .ofNat (48 + k) else if small then .ofNat (87 + k) else .ofNat (55 + k)

/-- The digits of `n`, the last one first, in at most so many rounds. -/
def nbuf (small : Bool) (base : ℕ) : ℕ → ℕ → List UInt8
  | 0, _ => []
  | rounds + 1, n =>
      digit small (n % base) :: if n / base > 0 then nbuf small base rounds (n / base) else []

/-- `fmt_int` shows a negative number. -/
def isNeg (num : ℤ) (flags : Flags) : Bool := flags.signed && decide (num < 0)

/-- `nbuf` of `fmt_int`. The number is cut to 32 bits, so that it has at most 32 digits. -/
def digitsOf (num : ℤ) (base : ℕ) (flags : Flags) : List UInt8 :=
  nbuf flags.small base 32 ((if isNeg num flags then -num else num) % 2 ^ 32).toNat

/-- `altb` of `fmt_int`: the sign and the mark of the base. -/
def altbOf (num : ℤ) (base : ℕ) (flags : Flags) : List UInt8 :=
  (if isNeg num flags then [45] else if flags.plus then [43]
    else if flags.space then [32] else []) ++
    if flags.alternate then
      if base = 8 then [48] else if base = 16 then [48, if flags.small then 120 else 88] else []
    else []

/-- `npad` of `fmt_int`. -/
def npadOf (num : ℤ) (base : ℕ) (width : ℤ) (flags : Flags) : ℕ :=
  (width - (digitsOf num base flags).length - (altbOf num base flags).length).toNat

section

variable {α : Type*} (put : UInt8 → α → α)

/-- `fmt_int`. The flag `-` takes the flag `0` away. -/
def fmtInt (num : ℤ) (base : ℕ) (width : ℤ) (flags : Flags) (x : α) : α :=
  let altb := altbOf num base flags
  let digits := (digitsOf num base flags).reverse
  let npad := npadOf num base width flags
  if base < 2 ∨ base > 16 then x
  else if npad > 0 ∧ ¬flags.left then
    if flags.zeropad then
      let x := puts put altb x
      let x := puts put (List.replicate npad 48) x
      puts put digits x
    else
      let x := puts put (List.replicate npad 32) x
      let x := puts put altb x
      puts put digits x
  else
    let x := puts put altb x
    let x := puts put digits x
    if npad > 0 ∧ flags.left then puts put (List.replicate npad 32) x else x

/-- `fmt_chr`. -/
def fmtChr (c : UInt8) (width : ℤ) (flags : Flags) (x : α) : α :=
  let npad := (if width > 0 then width - 1 else 0).toNat
  let x := if npad > 0 ∧ ¬flags.left then puts put (List.replicate npad 32) x else x
  let x := put c x
  if npad > 0 ∧ flags.left then puts put (List.replicate npad 32) x else x

/-- `fmt_str`. The length is of type `size_t`, so that the difference is taken modulo `2 ^ 32`. -/
def fmtStr (s : List UInt8) (width : ℤ) (flags : Flags) (x : α) : α :=
  let npad := (if width > 0 then Int.bmod (width - s.length) (2 ^ 32) else 0).toNat
  let x := if npad > 0 ∧ ¬flags.left then puts put (List.replicate npad 32) x else x
  let x := puts put s x
  if npad > 0 ∧ flags.left then puts put (List.replicate npad 32) x else x

end

/-! ### The scanner -/

/-- `is_digit`. -/
def isDigit (c : UInt8) : Bool := 48 ≤ c && c ≤ 57

/-- `get_atoi`, with the number so far. A number of type `int` wraps around. -/
def getAtoi : List UInt8 → ℤ → ℤ × List UInt8
  | [], n => (n, [])
  | c :: str, n =>
      if isDigit c then getAtoi str (Int.bmod (n * 10 + c.toNat - 48) (2 ^ 32)) else (n, c :: str)

/-- The words of the arguments, and the strings in memory. The word 0 is no string. -/
structure Args where
  word : ℕ → BitVec 32
  str : BitVec 32 → List UInt8

/-- The states of the scanner. -/
inductive State
  | default
  | flags
  | width
  | precis
  | length
  | conv
  deriving DecidableEq

/-- The scanner: its state, the rest of the format, what it knows of the conversion (`lflags` is
`L_CHAR` to `L_DOUBLE`, or 0), and the number of words that were taken. -/
structure Scan where
  state : State
  fmt : List UInt8
  flags : Flags
  width : ℤ
  lflags : ℕ
  arg : ℕ

/-- The number for an integer conversion, and how many words it takes. -/
def intArg (v : Args) (s : Scan) (c : UInt8) : ℤ × ℕ :=
  if s.lflags = 3 then ((v.word s.arg).toInt, 1)
  else if s.lflags &&& (4 ||| 5) ≠ 0 then ((v.word (s.arg + 1) ++ v.word s.arg).toInt, 2)
  else if c = 100 ∨ c = 105 then ((v.word s.arg).toInt, 1)
  else ((v.word s.arg).toNat, 1)

/-- `"(null)"`. -/
def nullText : List UInt8 := [40, 110, 117, 108, 108, 41]

section

variable {α : Type*} (put : UInt8 → α → α)

/-- A character `c` in the state `S_CONV`; `fmt` is what follows it. The first result is the value
of `c` at the end of the round. -/
def convert (v : Args) (s : Scan) (c : UInt8) (fmt : List UInt8) (x : α) : UInt8 × Scan × α :=
  let s := { s with state := .default, fmt := fmt }
  if c = 100 ∨ c = 105 ∨ c = 111 ∨ c = 98 ∨ c = 117 ∨ c = 120 ∨ c = 88 then
    let (num, words) := intArg v s c
    let flags :=
      { s.flags with signed := s.flags.signed || c = 100 || c = 105,
                     small := s.flags.small || c = 120 }
    let base := if c = 120 ∨ c = 88 then 16 else if c = 111 then 8 else if c = 98 then 2 else 10
    (c, { s with flags := flags, arg := s.arg + words }, fmtInt put num base s.width flags x)
  else if c = 112 then
    let flags := { s.flags with alternate := true, small := true }
    (c, { s with flags := flags, arg := s.arg + 1 },
      fmtInt put (v.word s.arg).toNat 16 s.width flags x)
  else if c = 115 then
    let w := v.word s.arg
    (c, { s with arg := s.arg + 1 },
      fmtStr put (if w = 0 then nullText else v.str w) s.width s.flags x)
  else if c = 99 then
    let c := UInt8.ofNat (v.word s.arg).toNat
    (c, { s with arg := s.arg + 1 }, fmtChr put c s.width s.flags x)
  else if c = 37 then (c, s, put c x)
  else (c, s, put c (put 37 x))

/-- One round of the loop of `vsnprintf`, with the value of `c` at its end. At the end of the format
`c` is the NUL. A state that does not use `c` leaves it to the next one. -/
def round (v : Args) (s : Scan) (x : α) : UInt8 × Scan × α :=
  let c := s.fmt.headD 0
  let fmt := s.fmt.tail
  match s.state with
  | .default =>
    if c = 37 then (c, { s with state := .flags, fmt := fmt, flags := noFlags }, x)
    else (c, { s with fmt := fmt }, put c x)
  | .flags =>
    if c = 35 then (c, { s with fmt := fmt, flags := { s.flags with alternate := true } }, x)
    else if c = 48 then (c, { s with fmt := fmt, flags := { s.flags with zeropad := true } }, x)
    else if c = 45 then (c, { s with fmt := fmt, flags := { s.flags with left := true } }, x)
    else if c = 32 then (c, { s with fmt := fmt, flags := { s.flags with space := true } }, x)
    else if c = 43 then (c, { s with fmt := fmt, flags := { s.flags with plus := true } }, x)
    else if c = 39 ∨ c = 73 then (c, { s with fmt := fmt }, x)
    else (c, { s with state := .width, width := 0 }, x)
  | .width =>
    if c = 42 then
      let w := (v.word s.arg).toInt
      if w < 0 then
        let flags := { s.flags with left := true }
        (c, { s with fmt := fmt, width := Int.bmod (-w) (2 ^ 32), flags := flags,
                     arg := s.arg + 1 }, x)
      else (c, { s with fmt := fmt, width := w, arg := s.arg + 1 }, x)
    else if isDigit c ∧ c > 48 then
      let (w, fmt) := getAtoi s.fmt 0
      (c, { s with fmt := fmt, width := w }, x)
    else (c, { s with state := .precis }, x)
  | .precis =>
    let s := { s with state := .length, lflags := 0 }
    if c = 46 then
      if isDigit (fmt.headD 0) then (c, { s with fmt := (getAtoi fmt 0).2 }, x)
      else if fmt.headD 0 = 42 then (c, { s with fmt := fmt, arg := s.arg + 1 }, x)
      else (c, { s with fmt := fmt }, x)
    else (c, s, x)
  | .length =>
    if c = 104 then (c, { s with fmt := fmt, lflags := if s.lflags = 1 then 2 else 1 }, x)
    else if c = 108 then (c, { s with fmt := fmt, lflags := if s.lflags = 3 then 4 else 3 }, x)
    else if c = 76 then (c, { s with fmt := fmt, lflags := 5 }, x)
    else (c, { s with state := .conv }, x)
  | .conv => convert put v s c fmt x

/-- The loop, for a number of rounds: the scanner and the output where it ends. -/
def loop (v : Args) : ℕ → Scan → α → Option (Scan × α)
  | 0, _, _ => none
  | rounds + 1, s, x =>
    let (c, s, x) := round put v s x
    if c = 0 then some (s, x) else loop v rounds s x

end

/-- The scanner at the start. -/
def start (fmt : List UInt8) : Scan := ⟨.default, fmt, noFlags, 0, 0, 0⟩

/-- What follows the loop. -/
def finish (size : ℕ) (x : Out) : ℤ × (ℕ → UInt8) :=
  let n := (x.n + (2 ^ 32 - 1)) % 2 ^ 32
  let buf :=
    if n < size then Function.update x.buf n 0
    else if size > 0 then Function.update x.buf (size - 1) 0
    else x.buf
  (Int.bmod n (2 ^ 32), buf)

/-- More rounds than the loop takes. -/
def roundsFor (fmt : List UInt8) : ℕ := 7 * fmt.length + 7

/-- `vsnprintf`, for a buffer of `size` bytes. -/
def vsnprintf (buf : ℕ → UInt8) (size : ℕ) (fmt : List UInt8) (v : Args) :
  Option (ℤ × (ℕ → UInt8)) :=
  (loop (bputc size) v (roundsFor fmt) (start fmt) ⟨buf, 0⟩).map fun r => finish size r.2

end Cosiris.Printf
