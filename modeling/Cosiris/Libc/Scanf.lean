import Cosiris.Libc.Printf

/-!
# `vsscanf`

`lib/vsscanf.c`. A string is the list of its characters before the NUL. What is stored through
the pointers among the arguments is kept as a list, in the order of the pointers.
-/

namespace Cosiris.Scanf

open Printf (State isDigit)

/-- `isspace`. -/
def isSpace (c : UInt8) : Bool := c = 32 || c = 12 || c = 10 || c = 13 || c = 9 || c = 11

/-! ### Sets -/

/-- The loop of `build_set`, after the character `prev`. At `]` it ends there. -/
def setLoop (neg : Bool) :
  UInt8 → List UInt8 → (UInt8 → Bool) → Option ((UInt8 → Bool) × List UInt8)
  | _, [], _ => none
  | prev, c :: fmt, set =>
    if c = 45 then
      let next := fmt.headD 0
      if prev = 91 ∨ next = 93 then setLoop neg c fmt (Function.update set c !neg)
      else setLoop neg c fmt fun i => if prev ≤ i ∧ i ≤ next then !neg else set i
    else if c = 93 then some (set, c :: fmt)
    else setLoop neg c fmt (Function.update set c !neg)

/-- `build_set`, from what follows the `[`. -/
def buildSet (fmt : List UInt8) : Option ((UInt8 → Bool) × List UInt8) :=
  if fmt.headD 0 = 94 then
    let fmt := fmt.tail
    if fmt.headD 0 = 93 then setLoop true 93 fmt.tail fun _ => true
    else setLoop true 94 fmt fun _ => true
  else setLoop false 91 fmt fun _ => false

/-! ### Numbers and strings -/

/-- `valid_sint` accepts `c`. -/
def validSint (c : UInt8) (base : ℕ) (sign : Bool) : Bool :=
  (base = 2 && 48 ≤ c && c < 50) || (base = 8 && 48 ≤ c && c < 56) ||
    (base = 10 && (isDigit c || (sign && (c = 45 || c = 43)))) ||
    (base = 16 && (isDigit c || (97 ≤ c && c ≤ 102) || (65 ≤ c && c ≤ 70)))

/-- The loop of `get_int`. The number is of type `long long`; `w` says that there is a width. -/
def getIntLoop (base : ℕ) (sign w : Bool) : List UInt8 → ℤ → ℤ → Bool → Bool → ℤ × Bool × List UInt8
  | [], _, n, neg, _ => (n, neg, [])
  | c :: str, width, n, neg, xskip =>
    if sign ∧ ¬neg ∧ base = 10 ∧ c = 45 then
      getIntLoop base sign w str (if w then width - 1 else width) n true xskip
    else if base = 16 ∧ ¬xskip ∧ (c = 120 ∨ c = 88) then getIntLoop base sign w str width 0 neg true
    else if w ∧ width = 0 then (n, neg, c :: str)
    else
      let width := if w then width - 1 else width
      let d := if c ≥ 97 then c - 32 else c
      if ¬isDigit d ∧ (base ≠ 16 ∨ d < 65 ∨ d > 70) then (n, neg, c :: str)
      else if base = 2 ∧ d > 49 then (n, neg, c :: str)
      else if base = 8 ∧ d > 55 then (n, neg, c :: str)
      else
        let d := if base = 16 ∧ d ≥ 65 then d - 65 + 10 + 48 else d
        getIntLoop base sign w str width (Int.bmod (n * base + d.toNat - 48) (2 ^ 64)) neg xskip

/-- `get_int`. -/
def getInt (str : List UInt8) (width : ℤ) (base : ℕ) (sign : Bool) : ℤ × List UInt8 :=
  if base ≠ 2 ∧ base ≠ 8 ∧ base ≠ 10 ∧ base ≠ 16 then (0, str)
  else
    let (n, neg, str) := getIntLoop base sign (width > 0) str width 0 false false
    (if neg ∧ n > 0 then -n else n, str)

/-- `get_str`: the characters that match, and the rest. -/
def getStr (set : Option (UInt8 → Bool)) (w : Bool) : List UInt8 → ℤ → List UInt8 × List UInt8
  | [], _ => ([], [])
  | c :: str, width =>
    if (w ∧ width = 0) ∨ (set.isNone ∧ isSpace c) then ([], c :: str)
    else if set.any fun f => !f c then ([], c :: str)
    else
      let (cs, rest) := getStr set w str (width - 1)
      (c :: cs, rest)

/-! ### The scanner -/

/-- What is stored through a pointer. A text has its NUL behind it. -/
inductive Stored
  | number (bits : ℕ) (x : BitVec bits)
  | char (c : UInt8)
  | text (cs : List UInt8)

/-- What `vsscanf` knows: `flags` is 0, `F_SKIP` or `F_ALLOC`, `lflags` is `L_CHAR` to `L_DOUBLE`,
or 0. -/
structure Scan where
  state : State
  flags : ℕ
  width : ℤ
  lflags : ℕ
  str : List UInt8
  n : ℕ
  stores : List Stored

/-- A number is cut to the type that the length says. -/
def storeNumber (lflags : ℕ) (num : ℤ) : Stored :=
  if lflags = 5 ∨ lflags = 4 then .number 64 (.ofInt 64 num)
  else if lflags = 3 then .number 32 (.ofInt 32 num)
  else if lflags = 2 then .number 16 (.ofInt 16 num)
  else if lflags = 1 then .number 8 (.ofInt 8 num)
  else .number 32 (.ofInt 32 num)

/-- How a round ends: with the next one, with the end of the loop, or past the end of the format,
where it is no longer known what is read. -/
inductive Step
  | next (s : Scan) (fmt : List UInt8)
  | stop (s : Scan)
  | past

/-- `fmt++`. -/
def advance (s : Scan) : List UInt8 → Step
  | [] => .past
  | _ :: fmt => .next s fmt

/-- A value is stored and counted. -/
def Scan.store (s : Scan) (x : Stored) : Scan := { s with stores := s.stores ++ [x], n := s.n + 1 }

/-- The state `S_CONV`. The NUL at the end of the format is found by `strchr`, like a conversion. -/
def conv (s : Scan) (fmt : List UInt8) : Step :=
  let c := fmt.headD 0
  let skip := s.flags &&& 1 ≠ 0
  let s := { s with state := .default }
  if c = 100 ∨ c = 111 ∨ c = 117 ∨ c = 105 ∨ c = 120 ∨ c = 88 ∨ c = 98 ∨ c = 0 then
    let sign : Bool := c = 100 || c = 105
    let base := if c = 98 then 2 else if c = 111 then 8 else if c = 120 ∨ c = 88 then 16 else 10
    let str := s.str.dropWhile isSpace
    if !validSint (str.headD 0) base sign then .stop { s with str := str }
    else
      let (num, str) := getInt str s.width base sign
      let s := { s with str := str }
      if skip then advance s fmt else advance (s.store (storeNumber s.lflags num)) fmt
  else if c = 99 then
    let s' := { s with str := s.str.tail }
    if skip then advance s' fmt else advance (s'.store (.char (s.str.headD 0))) fmt
  else if c = 115 then
    let (cs, str) := getStr none (decide ((0 : ℤ) < s.width)) s.str s.width
    let s := { s with str := str }
    if skip then advance s fmt else advance (s.store (.text cs)) fmt
  else if c = 91 then
    match buildSet fmt.tail with
    | none => .stop s
    | some (set, fmt) =>
      let (cs, str) := getStr (some set) (decide ((0 : ℤ) < s.width)) s.str s.width
      let s := { s with str := str }
      if skip then advance s fmt else advance { s with stores := s.stores ++ [.text cs] } fmt
  else if c = 37 then
    if s.str.headD 0 ≠ 37 then .stop s else advance { s with str := s.str.tail } fmt
  else .stop s

/-- The state `S_LENGTH`, and what follows it in the round. -/
def length (s : Scan) (fmt : List UInt8) : Step :=
  let c := fmt.headD 0
  if c = 104 then advance { s with lflags := if s.lflags = 1 then 2 else 1 } fmt
  else if c = 108 then advance { s with lflags := if s.lflags = 3 then 4 else 3 } fmt
  else if c = 76 then advance { s with lflags := 5 } fmt
  else conv { s with state := .conv } fmt

/-- The state `S_WIDTH`, and what follows it in the round. -/
def width (s : Scan) (fmt : List UInt8) : Step :=
  if isDigit (fmt.headD 0) ∧ fmt.headD 0 > 48 then
    let (width, fmt) := getInt fmt 0 10 false
    length { s with width := Int.bmod width (2 ^ 32), lflags := 0, state := .length } fmt
  else length { s with lflags := 0, state := .length } fmt

/-- One round of the loop of `vsscanf`, where the format and the string go on. -/
def round (s : Scan) (fmt : List UInt8) : Step :=
  let c := fmt.headD 0
  match s.state with
  | .default =>
    if c = 37 then advance { s with flags := 0, state := .flags } fmt
    else if isSpace c then advance { s with str := s.str.dropWhile isSpace } fmt
    else if c ≠ s.str.headD 0 then .stop { s with str := s.str.tail }
    else advance { s with str := s.str.tail } fmt
  | .flags =>
    if c = 42 then advance { s with flags := 1 } fmt
    else if c = 109 then advance { s with flags := if s.flags &&& 1 = 0 then 2 else s.flags } fmt
    else width { s with width := 0, state := .width } fmt
  | .width => width s fmt
  | .precis => advance s fmt
  | .length => length s fmt
  | .conv => conv s fmt

/-- The loop, for a number of rounds. -/
def loop : ℕ → Scan → List UInt8 → Option Step
  | 0, _, _ => none
  | rounds + 1, s, fmt =>
    if fmt = [] ∨ s.str = [] then some (.stop s)
    else
      match round s fmt with
      | .next s fmt => loop rounds s fmt
      | e => some e

/-- `vsscanf`: where the loop stops. Every round takes a character of the format. -/
def vsscanf (str fmt : List UInt8) : Option Step :=
  loop (fmt.length + 1) ⟨.default, 0, 0, 0, str, 0, []⟩ fmt

end Cosiris.Scanf
