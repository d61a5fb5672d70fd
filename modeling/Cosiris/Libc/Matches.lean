import Cosiris.Libc.Tokens

/-!
# What `vsscanf` counts

A format is built from literal characters, blanks, conversions and `%%`. `vsscanf` over its
characters does what the directives do one after another. It does not count what `%[` stores, and a
`%s` or a `%[` that matches nothing stores the empty text and lets the scan go on.
-/

namespace Cosiris.Scanf

open Printf (isDigit)

/-! ### Formats -/

/-- What stands between `[` and `]`. A `]` may only come right behind a `^` at the start. -/
structure SetText where
  body : List UInt8
  closed : (93 ∉ body ∧ body ≠ [94]) ∨ ∃ rest, body = 94 :: 93 :: rest ∧ 93 ∉ rest

/-- What a conversion is. -/
inductive Kind
  | d
  | i
  | u
  | o
  | x
  | X
  | b
  | c
  | s
  | set (text : SetText)

/-- A set. -/
def Kind.isSet : Kind → Bool
  | .set _ => true
  | _ => false

/-- A text. -/
def Kind.isText : Kind → Bool
  | .s | .set _ => true
  | _ => false

/-- A number. -/
def Kind.isInt : Kind → Bool
  | .c | .s | .set _ => false
  | _ => true

/-- The characters of a kind. -/
def Kind.chars : Kind → List UInt8
  | .d => [100]
  | .i => [105]
  | .u => [117]
  | .o => [111]
  | .x => [120]
  | .X => [88]
  | .b => [98]
  | .c => [99]
  | .s => [115]
  | .set text => 91 :: text.body ++ [93]

/-- A conversion. A width that is absent has no digits. -/
structure Conversion where
  star : Bool
  width : List UInt8
  kind : Kind
  digits : ∀ c ∈ width, isDigit c

/-- A part of a format. -/
inductive Directive
  | literal (c : UInt8) (h : c ≠ 37 ∧ isSpace c = false)
  | blank (c : UInt8) (h : isSpace c = true)
  | percent
  | conversion (v : Conversion)

/-- The characters behind the `%` and the `*`. -/
def Conversion.tail (v : Conversion) : List UInt8 := v.width ++ v.kind.chars

/-- The characters of a part. -/
def Directive.chars : Directive → List UInt8
  | .literal c _ => [c]
  | .blank c _ => [c]
  | .percent => [37, 37]
  | .conversion v => 37 :: (if v.star then [42] else []) ++ v.tail

/-- A format. -/
def formatOf (items : List Directive) : List UInt8 := items.flatMap Directive.chars

/-! ### What a part does -/

/-- The number of a width in a format. -/
def Conversion.limit (v : Conversion) : ℤ :=
  if v.width = [] then 0
  else Int.bmod
    (Int.bmod (v.width.foldl (fun n c => n * 10 + digitValue c) 0 : ℕ) (2 ^ 64)) (2 ^ 32)

/-- The base of a number. -/
def Kind.base : Kind → ℕ
  | .b => 2
  | .o => 8
  | .x | .X => 16
  | _ => 10

/-- A number that has a sign. -/
def Kind.signed : Kind → Bool
  | .d | .i => true
  | _ => false

/-- The characters of a set. -/
def SetText.set (text : SetText) : UInt8 → Bool :=
  ((buildSet (text.body ++ [93])).map Prod.fst).getD fun _ => false

/-- What a text conversion takes of a string. -/
def Kind.getText (limit : ℤ) (str : List UInt8) : Kind → List UInt8 × List UInt8
  | .set text => getStr (some text.set) (decide (0 < limit)) str limit
  | _ => getStr none (decide (0 < limit)) str limit

/-- What is there behind a part of a format: the string, the number that is counted, and what is
stored. -/
structure Result where
  str : List UInt8
  n : ℕ
  stores : List Stored

/-- A value is stored and counted. -/
def Result.store (r : Result) (x : Stored) : Result := ⟨r.str, r.n + 1, r.stores ++ [x]⟩

/-- What is left of a string behind a conversion, if it does not end the scan. -/
def Conversion.rest (v : Conversion) (str : List UInt8) : Option (List UInt8) :=
  if v.width.head? = some 48 then none
  else match v.kind with
    | .c => some str.tail
    | .s | .set _ => some (v.kind.getText v.limit str).2
    | _ =>
      let str := str.dropWhile isSpace
      if validSint (str.headD 0) v.kind.base v.kind.signed then
        some (getInt str v.limit v.kind.base v.kind.signed).2
      else none

/-- What a conversion stores. -/
def Conversion.value (v : Conversion) (str : List UInt8) : Stored :=
  match v.kind with
  | .c => .char (str.headD 0)
  | .s | .set _ => .text (v.kind.getText v.limit str).1
  | _ => storeNumber 0 (getInt (str.dropWhile isSpace) v.limit v.kind.base v.kind.signed).1

/-- What is left of a string behind a part of a format, if it does not end the scan. -/
def Directive.rest (str : List UInt8) : Directive → Option (List UInt8)
  | .literal c _ => if c = str.headD 0 then some str.tail else none
  | .blank _ _ => some (str.dropWhile isSpace)
  | .percent => if str.headD 0 = 37 then some str.tail else none
  | .conversion v => v.rest str

/-- A set whose characters are stored. -/
def Directive.opensSet : Directive → Bool
  | .conversion v => !v.star && v.kind.isSet
  | _ => false

/-- A conversion whose value is stored. -/
def Directive.opens : Directive → Bool
  | .conversion v => !v.star
  | _ => false

/-- The result behind a part of a format that does not end the scan. -/
def Directive.act (r : Result) (str : List UInt8) : Directive → Result
  | .conversion v =>
    if v.star then ⟨str, r.n, r.stores⟩
    else ⟨str, if v.kind.isSet then r.n else r.n + 1, r.stores ++ [v.value r.str]⟩
  | _ => ⟨str, r.n, r.stores⟩

/-- The parts of a format one after another, up to the end of the string. -/
def scanItems : List Directive → Result → Result
  | [], r => r
  | it :: items, r =>
    if r.str = [] then r
    else match it.rest r.str with
      | none => r
      | some str => scanItems items (it.act r str)

/-! ### Sets and widths in a format -/

theorem setLoop_text {body : List UInt8} (h : 93 ∉ body) (neg : Bool) (prev : UInt8)
    (set : UInt8 → Bool) :
    ∃ set', ∀ rest, setLoop neg prev (body ++ 93 :: rest) set = some (set', 93 :: rest) := by
  induction body generalizing prev set with
  | nil => exact ⟨set, fun rest => rfl⟩
  | cons c body ih =>
    obtain ⟨hc, hbody⟩ := not_or.mp (mt List.mem_cons.mpr h)
    have hnext : ∀ rest, (body ++ 93 :: rest).headD 0 = body.headD 93 := fun rest => by
      cases body <;> rfl
    by_cases hdash : c = 45
    · by_cases hends : prev = 91 ∨ body.headD 93 = 93
      · obtain ⟨set', hset⟩ := ih hbody c (Function.update set c !neg)
        refine ⟨set', fun rest => ?_⟩
        rw [List.cons_append, setLoop, if_pos hdash]
        dsimp only
        rw [hnext, if_pos hends, hset]
      · obtain ⟨set', hset⟩ :=
          ih hbody c fun i => if prev ≤ i ∧ i ≤ body.headD 93 then !neg else set i
        refine ⟨set', fun rest => ?_⟩
        rw [List.cons_append, setLoop, if_pos hdash]
        dsimp only
        rw [hnext, if_neg hends, hset]
    · obtain ⟨set', hset⟩ := ih hbody c (Function.update set c !neg)
      refine ⟨set', fun rest => ?_⟩
      rw [List.cons_append, setLoop, if_neg hdash, if_neg (Ne.symm hc), hset]

theorem exists_buildSet (text : SetText) :
    ∃ set, ∀ rest, buildSet (text.body ++ 93 :: rest) = some (set, 93 :: rest) := by
  obtain ⟨body, ⟨hbody, hne⟩ | ⟨body, rfl, hbody⟩⟩ := text
  · dsimp only
    match body, hbody, hne with
    | [], hbody, _ => exact setLoop_text hbody false 91 fun _ => false
    | c :: body, hbody, hne =>
      by_cases hc : c = 94
      · subst hc
        obtain ⟨d, body, rfl⟩ := List.exists_cons_of_ne_nil fun h => hne (congrArg (94 :: ·) h)
        have hd : d ≠ 93 := fun h => hbody (by simp [h])
        obtain ⟨set, hset⟩ :=
          setLoop_text (fun h => hbody (List.mem_cons_of_mem _ h)) true 94 fun _ => true
        refine ⟨set, fun rest => ?_⟩
        rw [← hset rest]
        simp [buildSet, hd]
      · obtain ⟨set, hset⟩ := setLoop_text hbody false 91 fun _ => false
        refine ⟨set, fun rest => ?_⟩
        rw [← hset rest]
        simp [buildSet, hc]
  · obtain ⟨set, hset⟩ := setLoop_text hbody true 93 fun _ => true
    refine ⟨set, fun rest => ?_⟩
    rw [← hset rest]
    simp [buildSet]

/-- The set of a text does not depend on what follows it in the format. -/
theorem buildSet_text (text : SetText) (rest : List UInt8) :
    buildSet (text.body ++ 93 :: rest) = some (text.set, 93 :: rest) := by
  obtain ⟨set, hset⟩ := exists_buildSet text
  unfold SetText.set
  rw [hset, hset]
  rfl

/-- The characters of a kind begin with none of those that a width or a flag begins with. -/
theorem kind_head (k : Kind) (fmt : List UInt8) :
    ∃ c fmt', k.chars ++ fmt = c :: fmt' ∧ c ≠ 42 ∧ c ≠ 109 ∧
    isDigit c = false ∧ c ≠ 104 ∧ c ≠ 108 ∧ c ≠ 76 := by
  cases k <;> exact ⟨_, _, rfl, by decide, by decide, by decide, by decide, by decide, by decide⟩

theorem inBase_ten (c : UInt8) : inBase 10 c = isDigit c := by
  unfold inBase isDigit
  by_cases h : c ≤ 57
  · have hc : c.toNat ≤ 57 := UInt8.le_iff_toNat_le.mp h
    have hlt : c.toNat - 48 < 10 := by omega
    simp [h, hlt]
  · simp [h]

/-- The number of a width is read up to the kind. -/
theorem getInt_width {ds : List UInt8} (hds : ∀ c ∈ ds, isDigit c) (k : Kind) (fmt : List UInt8) :
    getInt (ds ++ (k.chars ++ fmt)) 0 10 false =
      (Int.bmod (ds.foldl (fun n c => n * 10 + digitValue c) 0 : ℕ) (2 ^ 64), k.chars ++ fmt) := by
  have hbase : IsBase 10 := .inr (.inr (.inl rfl))
  have hdigits : ∀ c ∈ ds, inBase 10 c := fun c hc => (inBase_ten c).trans (hds c hc)
  obtain ⟨c, fmt', hfmt, -, -, hc, -⟩ := kind_head k fmt
  have hloop :=
    @getIntLoop_digits 10 false false false false (k.chars ++ fmt) ds 0 hbase hdigits nofun 0
  have hstop : ∀ n, getIntLoop 10 false false (k.chars ++ fmt) 0 n false false =
      (n, false, k.chars ++ fmt) := fun n => by
    refine getIntLoop_stop hbase fun d hd => ?_
    rw [hfmt] at hd
    obtain rfl : c = d := Option.some.inj hd
    refine ⟨fun h => absurd h.1 (by decide), fun h => absurd h.1 (by decide), .inr ?_⟩
    rw [inBase_ten, hc]
    decide
  rw [if_neg (by decide), hstop] at hloop
  generalize Int.bmod (ds.foldl (fun n c => n * 10 + digitValue c) 0 : ℕ) (2 ^ 64) = n at hloop ⊢
  have hrun : getIntLoop 10 false (decide ((0 : ℤ) > 0)) (ds ++ (k.chars ++ fmt)) 0 0 false false =
    (n, false, k.chars ++ fmt) := hloop
  rw [getInt_loop hbase, hrun]
  exact congrArg (·, k.chars ++ fmt) (if_neg fun h => absurd h.1 Bool.false_ne_true)

/-! ### The rounds -/

/-- What a scan has so far. -/
def Scan.result (s : Scan) : Result := ⟨s.str, s.n, s.stores⟩

/-- A round, or the last of several ones, does what a part of the format does. -/
def Lands (e : Step) (fmt : List UInt8) (r : Result) (it : Directive) : Prop :=
  match it.rest r.str with
  | none => ∃ s, e = .stop s ∧ s.n = r.n ∧ s.stores = r.stores
  | some str => ∃ s, e = .next s fmt ∧ s.state = .default ∧ s.result = it.act r str

/-- The flags of a conversion. -/
def Conversion.flags (v : Conversion) : ℕ := if v.star then 1 else 0

section

variable {s : Scan} {v : Conversion} {fmt : List UInt8} {e : Step} {r : Result} {it : Directive}

theorem lands_stop (hrest : it.rest r.str = none) {t : Scan} (he : e = .stop t) (hn : t.n = r.n)
    (hstores : t.stores = r.stores) : Lands e fmt r it := by
  unfold Lands
  rw [hrest]
  exact ⟨t, he, hn, hstores⟩

theorem lands_next {str : List UInt8} (hrest : it.rest r.str = some str) {t : Scan}
    (he : e = .next t fmt)
    (hstate : t.state = .default) (hresult : t.result = it.act r str) : Lands e fmt r it := by
  unfold Lands
  rw [hrest]
  exact ⟨t, he, hstate, hresult⟩

theorem conv_int {k : Kind} (hk : k.isInt = true) (s : Scan) (fmt : List UInt8) :
    conv s (k.chars ++ fmt) =
      let str := s.str.dropWhile isSpace
      let s := { s with state := .default }
      if !validSint (str.headD 0) k.base k.signed then .stop { s with str := str }
      else
        let (num, str) := getInt str s.width k.base k.signed
        let t := { s with str := str }
        if s.flags &&& 1 ≠ 0 then .next t fmt
        else .next (t.store (storeNumber s.lflags num)) fmt := by
  cases k <;> first | rfl | exact absurd hk Bool.false_ne_true

theorem conv_set (s : Scan) (fmt : List UInt8) : conv s (91 :: fmt) =
    match buildSet fmt with
    | none => .stop { s with state := .default }
    | some (set, fmt) =>
      let (cs, str) := getStr (some set) (decide ((0 : ℤ) < s.width)) s.str s.width
      let t := { s with state := .default, str := str }
      if s.flags &&& 1 ≠ 0 then advance t fmt
      else advance { t with stores := s.stores ++ [.text cs] } fmt :=
  rfl

theorem flags_and (v : Conversion) : v.flags &&& 1 ≠ 0 ↔ v.star = true := by
  unfold Conversion.flags
  cases v.star <;> decide

/-- A conversion that goes on, with its value stored unless there is a `*`. -/
theorem lands_conversion {str : List UInt8} (hflags : s.flags = v.flags)
    (hrest : v.rest s.str = some str)
    {t t' : Scan} (ht : t.state = .default ∧ t.result = ⟨str, s.n, s.stores⟩)
    (ht' : t'.state = .default ∧
      t'.result = ⟨str, if v.kind.isSet then s.n else s.n + 1, s.stores ++ [v.value s.str]⟩) :
    Lands (if s.flags &&& 1 ≠ 0 then .next t fmt else .next t' fmt) fmt s.result
      (.conversion v) := by
  have hskip : (s.flags &&& 1 ≠ 0) ↔ v.star = true := hflags ▸ flags_and v
  by_cases hstar : v.star = true
  · rw [if_pos (hskip.mpr hstar)]
    refine lands_next hrest rfl ht.1 ?_
    rw [ht.2, Directive.act, if_pos hstar]
    rfl
  · rw [if_neg (mt hskip.mp hstar)]
    refine lands_next hrest rfl ht'.1 ?_
    rw [ht'.2, Directive.act, if_neg hstar]
    rfl

theorem rest_int (hint : v.kind.isInt = true) (hhead : v.width.head? ≠ some 48) (str : List UInt8) :
    v.rest str =
      if validSint ((str.dropWhile isSpace).headD 0) v.kind.base v.kind.signed then
        some (getInt (str.dropWhile isSpace) v.limit v.kind.base v.kind.signed).2
      else none := by
  obtain ⟨star, width, kind, hdigits⟩ := v
  unfold Conversion.rest
  rw [if_neg hhead]
  cases kind <;> first | rfl | exact absurd hint Bool.false_ne_true

theorem value_int (hint : v.kind.isInt = true) (str : List UInt8) : v.value str =
    storeNumber 0 (getInt (str.dropWhile isSpace) v.limit v.kind.base v.kind.signed).1 := by
  obtain ⟨star, width, kind, hdigits⟩ := v
  cases kind <;> first | rfl | exact absurd hint Bool.false_ne_true

theorem isSet_int {k : Kind} (hint : k.isInt = true) : k.isSet = false := by
  cases k <;> first | rfl | exact absurd hint Bool.false_ne_true

/-- The state `S_CONV` does what the conversion does. -/
theorem conv_lands (hflags : s.flags = v.flags) (hwidth : s.width = v.limit)
    (hlflags : s.lflags = 0) (hhead : v.width.head? ≠ some 48) :
    Lands (conv s (v.kind.chars ++ fmt)) fmt s.result (.conversion v) := by
  by_cases hint : v.kind.isInt = true
  · rw [conv_int hint]
    have hrest := rest_int hint hhead s.str
    dsimp only
    by_cases hvalid : validSint ((s.str.dropWhile isSpace).headD 0) v.kind.base v.kind.signed = true
    · rw [hvalid, Bool.not_true, if_neg Bool.false_ne_true]
      rw [if_pos hvalid] at hrest
      refine lands_conversion hflags hrest ⟨rfl, ?_⟩ ⟨rfl, ?_⟩
      · rw [hwidth]
        rfl
      · rw [hwidth, hlflags, isSet_int hint, value_int hint]
        rfl
    · rw [Bool.not_eq_true] at hvalid
      rw [hvalid, Bool.not_false, if_pos rfl]
      rw [if_neg (by rw [hvalid]; decide)] at hrest
      exact lands_stop hrest rfl rfl rfl
  · obtain ⟨star, width, kind, hdigits⟩ := v
    have hgo (str : List UInt8) : Conversion.rest ⟨star, width, kind, hdigits⟩ str = _ :=
      if_neg hhead
    cases kind with
    | c => exact lands_conversion hflags (hgo s.str) ⟨rfl, rfl⟩ ⟨rfl, rfl⟩
    | s =>
      refine lands_conversion hflags (hgo s.str) ⟨rfl, ?_⟩ ⟨rfl, ?_⟩
      · rw [hwidth]
        rfl
      · rw [hwidth]
        rfl
    | set text =>
      have hconv : conv s ((Kind.set text).chars ++ fmt) =
          let r := getStr (some text.set) (decide ((0 : ℤ) < s.width)) s.str s.width
          let t := { s with state := .default, str := r.2 }
          if s.flags &&& 1 ≠ 0 then .next t fmt
          else .next { t with stores := s.stores ++ [.text r.1] } fmt := by
        rw [show (Kind.set text).chars ++ fmt =
          91 :: (text.body ++ 93 :: fmt) by simp [Kind.chars], conv_set,
          buildSet_text]
        rfl
      rw [hconv]
      refine lands_conversion hflags (hgo s.str) ⟨rfl, ?_⟩ ⟨rfl, ?_⟩
      · rw [hwidth]
        rfl
      · rw [hwidth]
        rfl
    | _ => exact absurd rfl hint

theorem length_conv (s : Scan) (k : Kind) (fmt : List UInt8) :
    length s (k.chars ++ fmt) = conv { s with state := .conv } (k.chars ++ fmt) := by
  obtain ⟨c, fmt', hfmt, -, -, -, hh, hl, hL⟩ := kind_head k fmt
  rw [hfmt]
  unfold length
  dsimp only [List.headD_cons]
  rw [if_neg hh, if_neg hl, if_neg hL]

theorem width_number (h : isDigit (fmt.headD 0) = true ∧ fmt.headD 0 > 48) {n : ℤ}
    {fmt' : List UInt8} (hget : getInt fmt 0 10 false = (n, fmt')) : width s fmt =
      length { s with width := Int.bmod n (2 ^ 32), lflags := 0, state := .length } fmt' := by
  unfold width
  rw [if_pos h, hget]

theorem width_absent (h : ¬(isDigit (fmt.headD 0) = true ∧ fmt.headD 0 > 48)) :
    width s fmt = length { s with lflags := 0, state := .length } fmt := if_neg h

/-- From the width on. A width that begins with 0 ends the scan. -/
theorem width_lands (hflags : s.flags = v.flags) (hwidth : s.width = 0) :
    Lands (width s (v.tail ++ fmt)) fmt s.result (.conversion v) := by
  have htail : v.tail ++ fmt = v.width ++ (v.kind.chars ++ fmt) := List.append_assoc ..
  rw [htail]
  cases hw : v.width with
  | nil =>
    obtain ⟨c, fmt', hfmt, -, -, hc, -⟩ := kind_head v.kind fmt
    have hno :
      ¬(isDigit ((v.kind.chars ++ fmt).headD 0) = true ∧ (v.kind.chars ++ fmt).headD 0 > 48) := by
      rw [hfmt, List.headD_cons, hc]
      exact fun h => absurd h.1 Bool.false_ne_true
    rw [List.nil_append, width_absent hno, length_conv]
    refine conv_lands hflags ?_ rfl (by rw [hw]; exact nofun)
    unfold Conversion.limit
    rw [if_pos hw]
    exact hwidth
  | cons c ds =>
    have hdigits := v.digits
    rw [hw] at hdigits
    have hc := hdigits c List.mem_cons_self
    by_cases hzero : c = 48
    · subst hzero
      rw [width_absent fun h => absurd h.2 (UInt8.lt_irrefl _)]
      refine lands_stop (if_pos ?_) rfl rfl rfl
      rw [hw]
      rfl
    · have hgt : c > 48 :=
        UInt8.lt_of_le_of_ne (by simp [isDigit] at hc; exact hc.1) (Ne.symm hzero)
      have hhead : isDigit ((c :: ds ++ (v.kind.chars ++ fmt)).headD 0) = true ∧
          (c :: ds ++ (v.kind.chars ++ fmt)).headD 0 > 48 := ⟨hc, hgt⟩
      rw [width_number hhead (getInt_width hdigits v.kind fmt), length_conv]
      refine conv_lands hflags ?_ rfl ?_
      · unfold Conversion.limit
        rw [if_neg (by rw [hw]; exact List.cons_ne_nil _ _), hw]
      · rw [hw]
        simpa using hzero

/-- The round that leaves the flags. -/
theorem round_flags (hstate : s.state = .flags) :
    round s (v.tail ++ fmt) = width { s with width := 0, state := .width } (v.tail ++ fmt) := by
  obtain ⟨c, fmt', hfmt, hstar, hm⟩ : ∃ c fmt', v.tail ++ fmt = c :: fmt' ∧ c ≠ 42 ∧ c ≠ 109 := by
    unfold Conversion.tail
    cases hw : v.width with
    | nil =>
      obtain ⟨c, fmt', hfmt, hstar, hm, -⟩ := kind_head v.kind fmt
      exact ⟨c, fmt', hfmt, hstar, hm⟩
    | cons c ds =>
      have hc := v.digits c (by rw [hw]; exact List.mem_cons_self)
      refine ⟨c, _, rfl, ?_, ?_⟩ <;> rintro rfl <;> exact absurd hc (by decide)
  unfold round
  rw [hstate, hfmt]
  dsimp only [List.headD_cons]
  rw [if_neg hstar, if_neg hm]

theorem loop_round (hstr : s.str ≠ []) (hfmt : fmt ≠ []) (k : ℕ) : loop (k + 1) s fmt =
    match round s fmt with
    | .next s fmt => loop k s fmt
    | e => some e := if_neg (not_or.mpr ⟨hfmt, hstr⟩)

theorem round_percent (hstate : s.state = .default) :
    round s (37 :: fmt) = .next { s with flags := 0, state := .flags } fmt := by
  unfold round
  rw [hstate]
  rfl

theorem loop_percent (hstate : s.state = .default) (hstr : s.str ≠ []) (k : ℕ) :
    loop (k + 1) s (37 :: fmt) = loop k { s with flags := 0, state := .flags } fmt := by
  rw [loop_round hstr (List.cons_ne_nil _ _), round_percent hstate]

theorem kind_pos (kind : Kind) : 0 < kind.chars.length := by
  cases kind <;> simp [Kind.chars]

/-- The round behind the flags is the last one of a conversion. -/
theorem loop_tail (hstr : s.str ≠ []) (hstate : s.state = .flags)
    (hflags : s.flags = v.flags) (k : ℕ) :
    ∃ e, Lands e fmt s.result (.conversion v) ∧
      loop (k + 1) s (v.tail ++ fmt) = match e with
      | .next s fmt => loop k s fmt
      | e => some e := by
  have htail : v.tail ++ fmt ≠ [] := by
    apply List.append_ne_nil_of_left_ne_nil
    apply List.append_ne_nil_of_right_ne_nil
    exact List.ne_nil_of_length_pos (kind_pos v.kind)
  refine ⟨round s (v.tail ++ fmt), ?_, loop_round hstr htail k⟩
  rw [round_flags hstate]
  exact width_lands hflags rfl

/-- The rounds of a conversion. -/
theorem loop_conversion (hstate : s.state = .default) (hstr : s.str ≠ []) {k : ℕ}
    (hk : (Directive.conversion v).chars.length + fmt.length < k) :
    ∃ e k', Lands e fmt s.result (.conversion v) ∧ fmt.length < k' ∧
      loop k s ((Directive.conversion v).chars ++ fmt) =
      match e with
      | .next s fmt => loop k' s fmt
      | e => some e := by
  have hchars : (Directive.conversion v).chars = 37 :: (if v.star then [42] else []) ++ v.tail :=
    rfl
  rw [hchars] at hk ⊢
  have hlen : 0 < v.tail.length := by
    have hpos := kind_pos v.kind
    unfold Conversion.tail
    rw [List.length_append]
    omega
  by_cases hstar : v.star = true
  · rw [if_pos hstar] at hk ⊢
    obtain ⟨k, rfl⟩ : ∃ k', k = k' + 1 + 1 + 1 := ⟨k - 3, by simp at hk; omega⟩
    obtain ⟨e, hlands, hloop⟩ := @loop_tail { s with flags := 1, state := .flags } v fmt hstr rfl
      (if_pos hstar).symm k
    refine ⟨e, k, hlands, by simp at hk; omega, ?_⟩
    show loop (k + 1 + 1 + 1) s (37 :: 42 :: (v.tail ++ fmt)) = _
    rw [loop_percent hstate hstr, ← hloop]
    exact @loop_round { s with flags := 0, state := .flags } _ hstr (List.cons_ne_nil _ _) (k + 1)
  · rw [if_neg hstar] at hk ⊢
    obtain ⟨k, rfl⟩ : ∃ k', k = k' + 1 + 1 := ⟨k - 2, by simp at hk; omega⟩
    obtain ⟨e, hlands, hloop⟩ := @loop_tail { s with flags := 0, state := .flags } v fmt hstr rfl
      (if_neg hstar).symm k
    refine ⟨e, k, hlands, by simp at hk; omega, ?_⟩
    show loop (k + 1 + 1) s (37 :: (v.tail ++ fmt)) = _
    rw [loop_percent hstate hstr, ← hloop]

/-- The rounds of a part of a format. -/
theorem loop_item (hstate : s.state = .default) (hstr : s.str ≠ []) (it : Directive) {k : ℕ}
    (hk : (it.chars ++ fmt).length < k) :
    ∃ e k', Lands e fmt s.result it ∧ fmt.length < k' ∧
      loop k s (it.chars ++ fmt) = match e with
      | .next s fmt => loop k' s fmt
      | e => some e := by
  rw [List.length_append] at hk
  cases it with
  | literal c h =>
    obtain ⟨k, rfl⟩ : ∃ k', k = k' + 1 := ⟨k - 1, by omega⟩
    refine ⟨round s (c :: fmt), k, ?_, ?_, loop_round hstr (List.cons_ne_nil _ _) k⟩
    · unfold round
      rw [hstate]
      dsimp only [List.headD_cons]
      rw [if_neg h.1, h.2, if_neg Bool.false_ne_true]
      by_cases hc : c = s.str.headD 0
      · rw [if_neg (not_not.mpr hc)]
        exact lands_next (if_pos hc) rfl rfl rfl
      · rw [if_pos hc]
        exact lands_stop (if_neg hc) rfl rfl rfl
    · simp [Directive.chars] at hk
      omega
  | blank c h =>
    obtain ⟨k, rfl⟩ : ∃ k', k = k' + 1 := ⟨k - 1, by omega⟩
    refine ⟨round s (c :: fmt), k, ?_, ?_, loop_round hstr (List.cons_ne_nil _ _) k⟩
    · have hc : c ≠ 37 := by
        rintro rfl
        exact absurd h (by decide)
      unfold round
      rw [hstate]
      dsimp only [List.headD_cons]
      rw [if_neg hc, if_pos h]
      exact lands_next rfl rfl rfl rfl
    · simp [Directive.chars] at hk
      omega
  | percent =>
    obtain ⟨k, rfl⟩ : ∃ k', k = k' + 1 + 1 := ⟨k - 2, by simp [Directive.chars] at hk; omega⟩
    refine ⟨round { s with flags := 0, state := .flags } (37 :: fmt), k, ?_, ?_, ?_⟩
    · show Lands (if s.str.headD 0 ≠ 37 then .stop _ else .next _ fmt) fmt s.result .percent
      by_cases hc : s.str.headD 0 = 37
      · rw [if_neg (not_not.mpr hc)]
        exact lands_next (if_pos hc) rfl rfl rfl
      · rw [if_pos hc]
        exact lands_stop (if_neg hc) rfl rfl rfl
    · simp [Directive.chars] at hk
      omega
    · show loop (k + 1 + 1) s (37 :: 37 :: fmt) = _
      rw [loop_percent hstate hstr]
      exact @loop_round { s with flags := 0, state := .flags } _ hstr (List.cons_ne_nil _ _) k
  | conversion v => exact loop_conversion hstate hstr hk

/-- The loop does what the parts of the format do one after another. -/
theorem loop_items (items : List Directive) (hstate : s.state = .default) {k : ℕ}
    (hk : (formatOf items).length < k) : ∃ t, loop k s (formatOf items) = some (.stop t) ∧
      t.n = (scanItems items s.result).n ∧ t.stores = (scanItems items s.result).stores := by
  induction items generalizing s k with
  | nil =>
    obtain ⟨k, rfl⟩ := Nat.exists_eq_add_one_of_ne_zero (Nat.ne_zero_of_lt hk)
    exact ⟨s, if_pos (.inl rfl), rfl, rfl⟩
  | cons it items ih =>
    unfold scanItems
    by_cases hstr : s.result.str = []
    · obtain ⟨k, rfl⟩ := Nat.exists_eq_add_one_of_ne_zero (Nat.ne_zero_of_lt hk)
      rw [if_pos hstr]
      exact ⟨s, if_pos (.inr hstr), rfl, rfl⟩
    · rw [if_neg hstr]
      obtain ⟨e, k', hlands, hk', hloop⟩ := @loop_item s (formatOf items) hstate hstr it k hk
      show ∃ t, loop k s (it.chars ++ formatOf items) = _ ∧ _
      rw [hloop]
      unfold Lands at hlands
      cases hrest : it.rest s.result.str with
      | none =>
        rw [hrest] at hlands
        obtain ⟨t, rfl, hn, hstores⟩ := hlands
        exact ⟨t, rfl, hn, hstores⟩
      | some str =>
        rw [hrest] at hlands
        obtain ⟨t, rfl, ht, hresult⟩ := hlands
        dsimp only
        rw [← hresult]
        exact ih ht hk'

end

/-- `vsscanf` does what the parts of the format do one after another. -/
theorem vsscanf_items (str : List UInt8) (items : List Directive) : ∃ s,
    vsscanf str (formatOf items) = some (.stop s) ∧ s.n = (scanItems items ⟨str, 0, []⟩).n ∧
      s.stores = (scanItems items ⟨str, 0, []⟩).stores :=
  loop_items items rfl (Nat.lt_succ_self _)

/-! ### Counting and storing -/

/-- A conversion takes no character. -/
def Directive.takesNone (str : List UInt8) : Directive → Bool
  | .conversion v => v.kind.isText && (v.kind.getText v.limit str).1 = []
  | _ => false

/-- What is left of a string behind a part of a format that matches it. -/
def Directive.matched (str : List UInt8) (it : Directive) : Option (List UInt8) :=
  if str = [] ∨ it.takesNone str then none else it.rest str

/-- The parts of a format match a string one after another, up to what is left. -/
def Matches (items : List Directive) (str str' : List UInt8) : Prop :=
  items.foldlM (fun str it => it.matched str) str = some str'

/-- `vsscanf` returns the number of what it stores, and nothing is stored by the first part of the
format that does not match or behind it: there is stored what the parts before it store. A pointer
is taken from the arguments right before each store and nowhere else, so that what is stored is
the list of what the first pointers point to. -/
def Counts (str : List UInt8) (items : List Directive) : Prop :=
  ∃ s, vsscanf str (formatOf items) = some (.stop s) ∧ s.n = s.stores.length ∧
    ∀ pre it post str', items = pre ++ it :: post → Matches pre str str' → it.matched str' = none →
      ∃ t, vsscanf str (formatOf pre) = some (.stop t) ∧ s.stores = t.stores

/-- No conversion that is stored goes on. -/
def Quiet : List Directive → List UInt8 → Prop
  | [], _ => True
  | it :: items, str => str = [] ∨ match it.rest str with
    | none => True
    | some str' => it.opens = false ∧ Quiet items str'

/-- No set is stored, and nothing is stored by a conversion that takes no character or behind it. -/
def Sound : List Directive → List UInt8 → Prop
  | [], _ => True
  | it :: items, str => str = [] ∨ match it.rest str with
    | none => True
    | some str' => it.opensSet = false ∧
      if it.takesNone str then it.opens = false ∧ Quiet items str' else Sound items str'

section

variable {items : List Directive} {it : Directive} {r : Result} {str str' : List UInt8}

theorem act_eq (hopens : it.opens = false) : it.act r str = ⟨str, r.n, r.stores⟩ := by
  cases it with
  | conversion v =>
    have hstar : v.star = true := by simpa [Directive.opens] using hopens
    exact if_pos hstar
  | _ => rfl

theorem act_store (hopens : it.opens = true) : ∃ x, it.act r str =
    ⟨str, if it.opensSet then r.n else r.n + 1, r.stores ++ [x]⟩ := by
  cases it with
  | conversion v =>
    have hstar : v.star = false := by simpa [Directive.opens] using hopens
    have hset : (Directive.conversion v).opensSet = v.kind.isSet := by
      show (!v.star && v.kind.isSet) = _
      rw [hstar, Bool.not_false, Bool.true_and]
    rw [hset]
    exact ⟨v.value r.str, if_neg (by rw [hstar]; exact Bool.false_ne_true)⟩
  | _ => exact absurd hopens Bool.false_ne_true

theorem opens_of_opensSet (h : it.opensSet = true) : it.opens = true := by
  cases it with
  | conversion v => exact (Bool.and_eq_true_iff.mp h).1
  | _ => exact h

/-- What is not a set and is stored is counted. -/
theorem act_counted (hset : it.opensSet = false) (hr : r.n = r.stores.length) :
    (it.act r str).n = (it.act r str).stores.length := by
  cases hopens : it.opens with
  | false =>
    rw [act_eq hopens]
    exact hr
  | true =>
    obtain ⟨x, hx⟩ := @act_store it r str hopens
    rw [hx, hset, List.length_append]
    exact congrArg (· + 1) hr

theorem act_str : (it.act r str).str = str := by
  cases hopens : it.opens with
  | false => rw [act_eq hopens]
  | true =>
    obtain ⟨x, hx⟩ := @act_store it r str hopens
    rw [hx]

/-- What is stored stays stored. -/
theorem prefix_scanItems : r.stores <+: (scanItems items r).stores := by
  induction items generalizing r with
  | nil => exact List.prefix_rfl
  | cons it items ih =>
    unfold scanItems
    split_ifs
    · exact List.prefix_rfl
    · cases it.rest r.str with
      | none => exact List.prefix_rfl
      | some str =>
        refine List.IsPrefix.trans ?_ ih
        cases hopens : it.opens with
        | false => exact ⟨[], by rw [act_eq hopens, List.append_nil]⟩
        | true =>
          obtain ⟨x, hx⟩ := @act_store it r str hopens
          rw [hx]
          exact List.prefix_append _ _

/-- What is not counted is not counted later. -/
theorem scanItems_lt (h : r.n < r.stores.length) :
    (scanItems items r).n < (scanItems items r).stores.length := by
  induction items generalizing r with
  | nil => exact h
  | cons it items ih =>
    unfold scanItems
    split_ifs
    · exact h
    · cases it.rest r.str with
      | none => exact h
      | some str =>
        refine ih ?_
        cases hopens : it.opens with
        | false =>
          rw [act_eq hopens]
          exact h
        | true =>
          obtain ⟨x, hx⟩ := @act_store it r str hopens
          rw [hx, List.length_append, List.length_singleton]
          dsimp only
          split_ifs <;> omega

/-- Nothing is stored, or counted, exactly where no conversion that is stored goes on. -/
theorem quiet_iff : Quiet items r.str ↔ (scanItems items r).stores = r.stores := by
  induction items generalizing r with
  | nil => exact iff_of_true trivial rfl
  | cons it items ih =>
    unfold Quiet scanItems
    by_cases hstr : r.str = []
    · rw [if_pos hstr]
      exact iff_of_true (.inl hstr) rfl
    · rw [if_neg hstr, or_iff_right hstr]
      cases it.rest r.str with
      | none => exact iff_of_true trivial rfl
      | some str =>
        dsimp only
        cases hopens : it.opens with
        | false =>
          have hnext := @ih (it.act r str)
          rw [act_str] at hnext
          rw [hnext, act_eq hopens]
          exact and_iff_right rfl
        | true =>
          refine iff_of_false (fun h => Bool.false_ne_true h.1.symm) fun h => ?_
          obtain ⟨x, hx⟩ := @act_store it r str hopens
          have hle := (@prefix_scanItems items (it.act r str)).length_le
          rw [h, hx, List.length_append, List.length_singleton] at hle
          omega

theorem scanItems_n (h : Quiet items r.str) : (scanItems items r).n = r.n := by
  induction items generalizing r with
  | nil => rfl
  | cons it items ih =>
    unfold Quiet at h
    unfold scanItems
    by_cases hstr : r.str = []
    · rw [if_pos hstr]
    · rw [if_neg hstr]
      rw [or_iff_right hstr] at h
      cases hrest : it.rest r.str with
      | none => rfl
      | some str =>
        rw [hrest] at h
        have hnext := @ih (it.act r str) (act_str.symm ▸ h.2)
        rw [act_eq h.1] at hnext
        dsimp only
        rw [act_eq h.1, hnext]

theorem scanItems_nil (h : r.str = []) (items : List Directive) : scanItems items r = r := by
  cases items with
  | nil => rfl
  | cons it items => exact if_pos h

/-- From the first part of the format that does not match on there is stored what was stored
before. -/
def StopsStoring (items : List Directive) (r : Result) : Prop :=
  ∀ pre it post str', items = pre ++ it :: post → Matches pre r.str str' → it.matched str' = none →
    (scanItems items r).stores = (scanItems pre r).stores

theorem stopsStoring_of_eq (h : scanItems (it :: items) r = r)
    (hmatched : it.matched r.str = none) :
    StopsStoring (it :: items) r := by
  intro pre it' post str' hitems hpre _
  cases pre with
  | nil => rw [h]; rfl
  | cons d pre =>
    obtain ⟨rfl, -⟩ := List.cons.inj hitems
    unfold Matches at hpre
    rw [List.foldlM_cons, hmatched] at hpre
    exact absurd hpre (Option.some_ne_none _).symm

/-- A part of the format that does not match, and lets the scan go on. -/
theorem stopsStoring_none (hstr : r.str ≠ []) (hrest : it.rest r.str = some str)
    (hmatched : it.matched r.str = none) :
    StopsStoring (it :: items) r ↔ it.opens = false ∧ Quiet items str := by
  have hquiet : Quiet (it :: items) r.str ↔ it.opens = false ∧ Quiet items str := by
    conv_lhs => unfold Quiet
    rw [or_iff_right hstr, hrest]
  rw [← hquiet, quiet_iff]
  refine ⟨fun h => h [] it items r.str rfl rfl hmatched, fun h => ?_⟩
  intro pre it' post str' hitems hpre _
  cases pre with
  | nil => exact h
  | cons d pre =>
    obtain ⟨rfl, -⟩ := List.cons.inj hitems
    unfold Matches at hpre
    rw [List.foldlM_cons, hmatched] at hpre
    exact absurd hpre (Option.some_ne_none _).symm

/-- A part of the format that matches. -/
theorem stopsStoring_some (hstr : r.str ≠ []) (hrest : it.rest r.str = some str)
    (hmatched : it.matched r.str = some str) :
    StopsStoring (it :: items) r ↔ StopsStoring items (it.act r str) := by
  have hscan (items : List Directive) : scanItems (it :: items) r =
    scanItems items (it.act r str) := by
    conv_lhs => unfold scanItems
    rw [if_neg hstr, hrest]
  have hmatches (pre : List Directive) (str' : List UInt8) :
      Matches (it :: pre) r.str str' ↔ Matches pre (it.act r str).str str' := by
    unfold Matches
    rw [List.foldlM_cons, hmatched, act_str]
    rfl
  constructor
  · intro h pre it' post str' hitems hpre hit
    rw [← hscan, ← hscan]
    exact h (it :: pre) it' post str' (by rw [hitems]; rfl) ((hmatches _ _).mpr hpre) hit
  · intro h pre it' post str' hitems hpre hit
    cases pre with
    | nil =>
      obtain ⟨rfl, -⟩ := List.cons.inj hitems
      obtain rfl : r.str = str' := Option.some.inj hpre
      exact absurd (hmatched.symm.trans hit) (Option.some_ne_none _)
    | cons d pre =>
      obtain ⟨rfl, htail⟩ := List.cons.inj hitems
      rw [hscan, hscan]
      exact h pre it' post str' htail ((hmatches _ _).mp hpre) hit

/-- The parts of a format count and stop storing exactly when they are sound. -/
theorem sound_iff (hr : r.n = r.stores.length) : Sound items r.str ↔
    (scanItems items r).n = (scanItems items r).stores.length ∧ StopsStoring items r := by
  induction items generalizing r with
  | nil =>
    refine iff_of_true trivial ⟨hr, fun pre it post str' hitems => ?_⟩
    exact absurd hitems (List.append_ne_nil_of_right_ne_nil _ (List.cons_ne_nil _ _)).symm
  | cons it items ih =>
    unfold Sound
    by_cases hstr : r.str = []
    · have hscan := scanItems_nil hstr (it :: items)
      rw [hscan]
      exact iff_of_true (.inl hstr) ⟨hr, stopsStoring_of_eq hscan (if_pos (.inl hstr))⟩
    · rw [or_iff_right hstr]
      cases hrest : it.rest r.str with
      | none =>
        have hscan : scanItems (it :: items) r = r := by
          unfold scanItems
          rw [if_neg hstr, hrest]
        have hmatched : it.matched r.str = none := by
          unfold Directive.matched
          rw [hrest, ite_self]
        rw [hscan]
        exact iff_of_true trivial ⟨hr, stopsStoring_of_eq hscan hmatched⟩
      | some str =>
        have hscan : scanItems (it :: items) r = scanItems items (it.act r str) := by
          conv_lhs => unfold scanItems
          rw [if_neg hstr, hrest]
        dsimp only
        by_cases hset : it.opensSet = true
        · refine iff_of_false (fun h => Bool.false_ne_true (h.1.symm.trans hset)) fun h => ?_
          obtain ⟨x, hx⟩ := @act_store it r str (opens_of_opensSet hset)
          rw [if_pos hset] at hx
          have hlt := @scanItems_lt items (it.act r str)
            (by rw [hx, List.length_append]; exact Nat.lt_succ_of_le hr.le)
          rw [hscan] at h
          omega
        · rw [Bool.not_eq_true] at hset
          rw [and_iff_right hset]
          by_cases hnone : it.takesNone r.str = true
          · have hmatched : it.matched r.str = none := if_pos (.inr hnone)
            rw [if_pos hnone, stopsStoring_none hstr hrest hmatched]
            refine (and_iff_right_of_imp fun h => ?_).symm
            rw [hscan, act_eq h.1, scanItems_n h.2, (quiet_iff (r := ⟨str, r.n, r.stores⟩)).mp h.2]
            exact hr
          · have hmatched : it.matched r.str = some str :=
              (if_neg (not_or.mpr ⟨hstr, hnone⟩)).trans hrest
            have hnext := ih (@act_counted it r str hset hr)
            rw [act_str] at hnext
            rw [if_neg hnone, hscan, stopsStoring_some hstr hrest hmatched, hnext]

end

/-- **`vsscanf` counts what it stores, and stores nothing from the first part of the format on
that does not match, exactly when no set is stored and nothing is stored from a `%s` or `%[` on
that takes no character.** -/
theorem counts_iff (str : List UInt8) (items : List Directive) :
    Counts str items ↔ Sound items str := by
  have hsound := @sound_iff items ⟨str, 0, []⟩ rfl
  obtain ⟨s, hrun, hn, hstores⟩ := vsscanf_items str items
  refine Iff.trans ?_ hsound.symm
  constructor
  · rintro ⟨s', hrun', hcount, hstop⟩
    obtain rfl : s = s' := Step.stop.inj (Option.some.inj (hrun.symm.trans hrun'))
    refine ⟨by rw [← hn, ← hstores, hcount], fun pre it post str' hitems hpre hit => ?_⟩
    obtain ⟨t, ht, heq⟩ := hstop pre it post str' hitems hpre hit
    obtain ⟨t', ht', -, hstores'⟩ := vsscanf_items str pre
    obtain rfl : t = t' := Step.stop.inj (Option.some.inj (ht.symm.trans ht'))
    rw [← hstores, heq, hstores']
  · rintro ⟨hcount, hstop⟩
    refine ⟨s, hrun, by rw [hn, hcount, hstores], fun pre it post str' hitems hpre hit => ?_⟩
    obtain ⟨t, ht, -, hstores'⟩ := vsscanf_items str pre
    exact ⟨t, ht, by rw [hstores, hstop pre it post str' hitems hpre hit, hstores']⟩

/-- `%[a]` stores the `a` and is not counted. -/
theorem not_counts : ¬∀ str items, Counts str items := by
  intro h
  obtain ⟨s, hrun, hcount, -⟩ :=
    h [97] [.conversion ⟨false, [], .set ⟨[97], .inl ⟨by simp, by simp⟩⟩, by simp⟩]
  obtain ⟨t, ht, hn, hstores⟩ := vsscanf_items [97]
    [.conversion ⟨false, [], .set ⟨[97], .inl ⟨by simp, by simp⟩⟩, by simp⟩]
  obtain rfl : s = t := Step.stop.inj (Option.some.inj (hrun.symm.trans ht))
  rw [hn, hstores] at hcount
  exact absurd hcount (by decide)

end Cosiris.Scanf
