import Mathlib.Data.List.Basic
import Mathlib.Data.List.Range
import Mathlib.Logic.Function.Basic
import Mathlib.Tactic.Tauto

/-!
# The line editor of a terminal

`tty_editor` and `tty_in` of `tty.c`. What they do besides changing the line are events: a byte is
put to the input ring, a character is sent to the device, a reader is woken, a signal is sent. A
`char` that is negative is one from 128 on. The debugger is not configured. -/

namespace Cosiris.Input

open Function

/-- `TTY_LN_BUF_SIZE`. -/
def ttyLnBufSize : ℕ := 512

/-- `CTRL`. -/
def ctrl (key : UInt8) : UInt8 := key - 64

/-- `c_cc`, as far as the editor looks at it. -/
structure ControlChars where
  vintr : UInt8
  vquit : UInt8
  verase : UInt8
  vkill : UInt8
  veof : UInt8
  vstart : UInt8
  vsusp : UInt8
  veol : UInt8
  veol2 : UInt8

/-- `struct termios`, as far as input and its echo look at it. -/
structure Termios where
  icrnl : Bool
  igncr : Bool
  inlcr : Bool
  istrip : Bool
  opost : Bool
  onlcr : Bool
  echo : Bool
  icanon : Bool
  cc : ControlChars

/-- `tty_line_t`. -/
structure Line where
  buf : ℕ → UInt8
  ed : ℕ
  len : ℕ

/-- `tty_t`, as far as input looks at it. -/
structure Tty where
  termios : Termios
  line : Line
  fgPid : ℕ

inductive Signal
  | sigint
  | sigquit
  | sigtstp
  | sigcont

/-- What is done. -/
inductive Event
  /-- `tty->putc`. -/
  | put (c : UInt8)
  /-- `tty_iput`. -/
  | iput (c : UInt8)
  /-- `wakeup(&tty->cin)`. -/
  | wakeup
  | kill (sig : Signal)
  /-- `rb_reset` of both rings. -/
  | reset
  | ps
  | showFgPid
  | dumpCache

/-- `tty_oput`. -/
def ttyOput (t : Termios) (c : UInt8) : List Event :=
  if t.opost ∧ c = 10 ∧ t.onlcr then [.put 13, .put c] else [.put c]

/-- `tty_oputs`. -/
def ttyOputs (t : Termios) (s : List UInt8) : List Event := s.flatMap (ttyOput t)

/-- `tty_echo`. -/
def ttyEcho (t : Termios) (c : UInt8) : List Event :=
  if 32 ≤ c ∧ c < 128 ∨ c = 10 then ttyOput t c else ttyOput t 94 ++ ttyOput t (c + 64)

/-- The control characters that `tty_set_defaults` sets. -/
def ControlChars.setDefaults (cc : ControlChars) : ControlChars :=
  { cc with
    vintr := ctrl 88, vquit := ctrl 92, verase := 8, vkill := ctrl 85, veof := ctrl 68
    vstart := ctrl 81, vsusp := ctrl 90, veol := 10 }

/-- What `tty_set_defaults` sets. -/
def Termios.setDefaults (t : Termios) : Termios where
  icrnl := true
  igncr := false
  inlcr := false
  istrip := false
  opost := true
  onlcr := true
  echo := true
  icanon := true
  cc := t.cc.setDefaults

/-- `memmove`, in a buffer. -/
def memmove (buf : ℕ → UInt8) (dst src n : ℕ) : ℕ → UInt8 :=
  fun i => if dst ≤ i ∧ i < dst + n then buf (src + (i - dst)) else buf i

namespace Line

/-- `ln->ed = ln->len = ln->buf[0] = 0`. -/
def clear (ln : Line) : Line := ⟨update ln.buf 0 0, 0, 0⟩

/-- The character before the cursor is erased. -/
def erase (ln : Line) : Line :=
  ⟨memmove ln.buf (ln.ed - 1) ln.ed (ln.len - ln.ed + 1), ln.ed - 1, ln.len - 1⟩

/-- A character is inserted at the cursor. -/
def insert (ln : Line) (c : UInt8) : Line :=
  let buf := if ln.ed = ln.len then ln.buf else memmove ln.buf (ln.ed + 1) ln.ed (ln.len - ln.ed)
  ⟨update buf ln.ed c, ln.ed + 1, ln.len + 1⟩

/-- The characters from `i` on. -/
def chars (ln : Line) (i : ℕ) : List UInt8 := (List.range (ln.len - i)).map fun k => ln.buf (i + k)

end Line

/-- What is shown when a character was erased. -/
def eraseEcho (t : Termios) (ln : Line) : List Event :=
  if ln.ed = ln.len then ttyOputs t [8, 32, 8]
  else ttyOputs t [27, 91, 49, 68] ++ ttyOputs t [27, 91, 115] ++
    (ln.chars ln.ed).flatMap (ttyEcho t) ++
    ttyOput t 32 ++ ttyOputs t [27, 91, 117]

/-- `tty_editor`. -/
def ttyEditor (tty : Tty) (c : UInt8) : Tty × List Event :=
  let t := tty.termios
  let cc := t.cc
  let ln := tty.line
  let push := (ln.chars 0).map Event.iput
  let echo := if t.echo then ttyEcho t c else []
  let kill (sig : Signal) : List Event := if tty.fgPid ≠ 0 then [.kill sig] else []
  if c = cc.veol ∨ c = cc.veol2 ∨ c = 10 ∨ ttyLnBufSize - 1 ≤ ln.len then
    ({ tty with line := ln.clear }, (if t.echo then ttyOput t c else []) ++ push ++ [.iput c])
  else if c = cc.verase then
    if ln.ed = 0 then (tty, [])
    else ({ tty with line := ln.erase }, if t.echo then eraseEcho t ln.erase else [])
  else if c = cc.vkill then
    ({ tty with line := ln.clear }, if t.echo then ttyOputs t [27, 91, 71, 27, 91, 50, 75] else [])
  else if c = cc.vintr then ({ tty with line := ln.clear }, kill .sigint ++ echo)
  else if c = cc.vquit then ({ tty with line := ln.clear }, kill .sigquit ++ echo)
  else if c = cc.veof then
    ({ tty with line := if ln.len = 0 then ln else ln.clear }, push ++ [.wakeup] ++ echo)
  else if c = cc.vsusp then (tty, kill .sigtstp ++ echo)
  else if c = cc.vstart then (tty, kill .sigcont ++ echo)
  else if c = ctrl 76 then
    let t' := t.setDefaults
    ({ tty with termios := t' },
      [.reset] ++ ttyOputs t' [27, 99] ++ if t.echo then ttyEcho t' c else [])
  else if c = ctrl 80 then (tty, [.ps])
  else if c = ctrl 70 then (tty, [.showFgPid])
  else if c = ctrl 79 then (tty, [.dumpCache])
  else ({ tty with line := ln.insert c }, echo)

/-- What the input flags make of a character. -/
def Termios.translate (t : Termios) (c : UInt8) : Option UInt8 :=
  let strip (c : UInt8) : UInt8 := if t.istrip then c &&& 0x7F else c
  if c = 10 then some (strip (if t.inlcr then 13 else c))
  else if c = 13 then if t.igncr then none else some (strip (if t.icrnl then 10 else c))
  else some (strip c)

/-- `tty_in`. -/
def ttyIn (tty : Tty) (c : UInt8) : Tty × List Event :=
  match tty.termios.translate c with
  | none => (tty, [])
  | some c =>
    if tty.termios.icanon then ttyEditor tty c
    else (tty, (if tty.termios.echo then ttyEcho tty.termios c else []) ++ [.iput c])

/-! ### The reference editor -/

/-- What a character does to the pending line, and what is delivered. A line that is full is
delivered with the character that comes next. -/
def edit (pending : List UInt8) (c : UInt8) : List UInt8 × List UInt8 :=
  if c = 8 then (pending.dropLast, [])
  else if c = 21 then ([], [])
  else if c = 4 then ([], pending)
  else if c = 10 ∨ c = 0 ∨ ttyLnBufSize - 1 ≤ pending.length then ([], pending ++ [c])
  else (pending ++ [c], [])

/-- What the calls for some characters deliver. One that is ignored delivers nothing. -/
def deliveries (pending : List UInt8) : List (Option UInt8) → List (List UInt8)
  | [] => []
  | none :: cs => [] :: deliveries pending cs
  | some c :: cs => (edit pending c).2 :: deliveries (edit pending c).1 cs

/-- No character that edits, or that ends the input, comes behind a line that is full, from a
length on. -/
def roomy (n : ℕ) : List (Option UInt8) → Bool
  | [] => true
  | none :: cs => roomy n cs
  | some c :: cs =>
    if c = 8 ∨ c = 21 ∨ c = 4 then n != ttyLnBufSize - 1 && roomy (if c = 8 then n - 1 else 0) cs
    else if c = 10 ∨ c = 0 ∨ ttyLnBufSize - 1 ≤ n then roomy 0 cs
    else roomy (n + 1) cs

/-! ### The editor makes the lines -/

/-- The default control characters. -/
def ControlChars.default : ControlChars := (⟨0, 0, 0, 0, 0, 0, 0, 0, 0⟩ : ControlChars).setDefaults

/-- The keys for signals, for clearing the screen and for debugging. -/
def special : List UInt8 := [24, 28, 26, 17, 12, 16, 6, 15]

/-- A byte that is put to the input ring. -/
def Event.pushed? : Event → Option UInt8
  | .iput c => some c
  | _ => none

/-- The bytes that are put to the input ring. -/
def pushed (es : List Event) : List UInt8 := es.filterMap Event.pushed?

/-- What each of some calls of `tty_in` puts to the input ring. -/
def calls (tty : Tty) : List UInt8 → List (List UInt8)
  | [] => []
  | c :: cs => pushed (ttyIn tty c).2 :: calls (ttyIn tty c).1 cs

/-- The terminal after some calls of `tty_in`. -/
def after (tty : Tty) (cs : List UInt8) : Tty := cs.foldl (fun tty c => (ttyIn tty c).1) tty

/-- The terminal edits lines. -/
structure Tty.Edits (tty : Tty) : Prop where
  icanon : tty.termios.icanon = true
  cc : tty.termios.cc = .default

/-- The line is the pending one. -/
structure Line.Holds (ln : Line) (pending : List UInt8) : Prop where
  ed : ln.ed = ln.len
  len : ln.len < ttyLnBufSize
  chars : ln.chars 0 = pending

section

variable {tty : Tty} {ln : Line} {t : Termios} {pending : List UInt8} {c : UInt8}

theorem pushed_append (es fs : List Event) : pushed (es ++ fs) = pushed es ++ pushed fs :=
  List.filterMap_append

theorem pushed_ttyOput : pushed (ttyOput t c) = [] := by
  unfold ttyOput
  split_ifs <;> rfl

theorem pushed_ttyOputs (s : List UInt8) : pushed (ttyOputs t s) = [] := by
  induction s with
  | nil => rfl
  | cons c s ih =>
    rw [ttyOputs, List.flatMap_cons, pushed_append, pushed_ttyOput]
    exact ih

theorem pushed_ttyEcho : pushed (ttyEcho t c) = [] := by
  unfold ttyEcho
  split_ifs
  · exact pushed_ttyOput
  · rw [pushed_append, pushed_ttyOput, pushed_ttyOput]
    rfl

theorem pushed_iput (s : List UInt8) : pushed (s.map Event.iput) = s := by
  unfold pushed
  rw [List.filterMap_map]
  exact List.filterMap_some

theorem pushed_eraseEcho : pushed (eraseEcho t ln) = [] := by
  have hflat (s : List UInt8) : pushed (s.flatMap (ttyEcho t)) = [] := by
    induction s with
    | nil => rfl
    | cons c s ih => rw [List.flatMap_cons, pushed_append, pushed_ttyEcho, ih, List.append_nil]
  unfold eraseEcho
  split_ifs
  · exact pushed_ttyOputs _
  · simp only [pushed_append, pushed_ttyOputs, pushed_ttyOput, hflat, List.append_nil]

theorem chars_zero : ln.chars 0 = (List.range ln.len).map ln.buf := by
  unfold Line.chars
  simp only [Nat.zero_add, Nat.sub_zero]

namespace Line.Holds

theorem length_eq (h : ln.Holds pending) : ln.len = pending.length := by
  rw [← h.chars, chars_zero, List.length_map, List.length_range]

theorem clear : ln.clear.Holds [] := ⟨rfl, Nat.succ_pos _, rfl⟩

theorem insert (h : ln.Holds pending) (hlt : ln.len + 1 < ttyLnBufSize) :
    (ln.insert c).Holds (pending ++ [c]) := by
  have hed := h.ed
  unfold Line.insert
  rw [if_pos hed, hed]
  refine ⟨rfl, hlt, ?_⟩
  rw [← h.chars, chars_zero, chars_zero, List.range_succ, List.map_append, List.map_singleton]
  dsimp only
  rw [update_self]
  congr 1
  refine List.map_congr_left fun i hi => ?_
  rw [update_of_ne (Nat.ne_of_lt (List.mem_range.mp hi))]

theorem erase (h : ln.Holds pending) (hne : ln.ed ≠ 0) : ln.erase.Holds pending.dropLast := by
  have hed := h.ed
  have hlen := h.len
  unfold Line.erase
  rw [hed]
  rw [hed] at hne
  refine ⟨rfl, by show ln.len - 1 < ttyLnBufSize; omega, ?_⟩
  obtain ⟨n, hn⟩ := Nat.exists_eq_succ_of_ne_zero hne
  rw [← h.chars, chars_zero, chars_zero, hn, List.range_succ, List.map_append, List.map_singleton,
    List.dropLast_concat]
  refine List.map_congr_left fun i hi => ?_
  have hlt := List.mem_range.mp hi
  show memmove ln.buf (n + 1 - 1) (n + 1) (n + 1 - (n + 1) + 1) i = ln.buf i
  unfold memmove
  rw [if_neg]
  show ¬(n + 1 - 1 ≤ i ∧ _)
  have hlt' : i < n := hlt
  omega

end Line.Holds

/-- The editor with the default control characters, without the special keys. -/
theorem ttyEditor_default (he : tty.Edits) (hc : c ∉ special) : ttyEditor tty c =
    if c = 10 ∨ c = 0 ∨ ttyLnBufSize - 1 ≤ tty.line.len then
      ({ tty with line := tty.line.clear },
        (if tty.termios.echo then ttyOput tty.termios c else []) ++
        (tty.line.chars 0).map Event.iput ++ [.iput c])
    else if c = 8 then
      if tty.line.ed = 0 then (tty, [])
      else ({ tty with line := tty.line.erase },
        if tty.termios.echo then eraseEcho tty.termios tty.line.erase else [])
    else if c = 21 then
      ({ tty with line := tty.line.clear },
        if tty.termios.echo then ttyOputs tty.termios [27, 91, 71, 27, 91, 50, 75] else [])
    else if c = 4 then
      ({ tty with line := if tty.line.len = 0 then tty.line else tty.line.clear },
        (tty.line.chars 0).map Event.iput ++ [.wakeup] ++
          if tty.termios.echo then ttyEcho tty.termios c else [])
    else ({ tty with line := tty.line.insert c },
      if tty.termios.echo then ttyEcho tty.termios c else []) := by
  have hcc : tty.termios.cc = ⟨24, 28, 8, 21, 4, 17, 26, 10, 0⟩ := he.cc
  unfold special at hc
  simp only [List.mem_cons, List.not_mem_nil, not_or, or_false] at hc
  obtain ⟨h24, h28, h26, h17, h12, h16, h6, h15⟩ := hc
  unfold ttyEditor
  dsimp only
  rw [hcc]
  dsimp only
  by_cases hend : c = 10 ∨ c = 0 ∨ ttyLnBufSize - 1 ≤ tty.line.len
  · rw [if_pos hend, if_pos (by tauto)]
  rw [if_neg hend, if_neg (by tauto)]
  by_cases h8 : c = 8
  · rw [if_pos h8, if_pos h8]
  rw [if_neg h8, if_neg h8]
  by_cases h21 : c = 21
  · rw [if_pos h21, if_pos h21]
  rw [if_neg h21, if_neg h21, if_neg h24, if_neg h28]
  by_cases h4 : c = 4
  · rw [if_pos h4, if_pos h4]
  rw [if_neg h4, if_neg h4, if_neg h26, if_neg h17, if_neg (show c ≠ ctrl 76 from h12),
    if_neg (show c ≠ ctrl 80 from h16), if_neg (show c ≠ ctrl 70 from h6),
      if_neg (show c ≠ ctrl 79 from h15)]

/-- A character edits the pending line, unless it comes behind a line that is full and is not to be
delivered with it. -/
theorem ttyEditor_edit (he : tty.Edits) (h : tty.line.Holds pending) (hc : c ∉ special)
    (hroom : ¬((c = 8 ∨ c = 21 ∨ c = 4) ∧ pending.length = ttyLnBufSize - 1)) :
    (ttyEditor tty c).1.termios = tty.termios ∧ (ttyEditor tty c).1.line.Holds (edit pending c).1 ∧
      pushed (ttyEditor tty c).2 = (edit pending c).2 := by
  have hlen := h.length_eq
  have hlt := h.len
  have hecho {b : Prop} [Decidable b] {es : List Event} (hes : pushed es = []) :
    pushed (if b then es else []) = [] := by
    split_ifs
    · exact hes
    · rfl
  have hedits (hkey : c = 8 ∨ c = 21 ∨ c = 4) :
    ¬(c = 10 ∨ c = 0 ∨ ttyLnBufSize - 1 ≤ tty.line.len) := by
    rintro (rfl | rfl | hfull)
    · exact absurd hkey (by decide)
    · exact absurd hkey (by decide)
    · exact hroom ⟨hkey, by omega⟩
  rw [ttyEditor_default he hc]
  unfold edit
  by_cases h8 : c = 8
  · rw [if_neg (hedits (.inl h8)), if_pos h8, if_pos h8]
    by_cases hed : tty.line.ed = 0
    · rw [if_pos hed]
      have hnil : pending = [] := List.eq_nil_of_length_eq_zero (by rw [← hlen, ← h.ed, hed])
      subst hnil
      exact ⟨rfl, h, rfl⟩
    · rw [if_neg hed]
      exact ⟨rfl, h.erase hed, hecho pushed_eraseEcho⟩
  by_cases h21 : c = 21
  · rw [if_neg (hedits (.inr (.inl h21))), if_neg h8, if_neg h8, if_pos h21, if_pos h21]
    exact ⟨rfl, .clear, hecho (pushed_ttyOputs _)⟩
  by_cases h4 : c = 4
  · rw [if_neg (hedits (.inr (.inr h4))), if_neg h8, if_neg h8, if_neg h21, if_neg h21, if_pos h4,
      if_pos h4]
    refine ⟨rfl, ?_, ?_⟩
    · dsimp only
      split_ifs with hzero
      · have hnil : pending = [] := List.eq_nil_of_length_eq_zero (by rw [← hlen, hzero])
        exact hnil ▸ h
      · exact .clear
    · dsimp only
      rw [pushed_append, pushed_append, pushed_iput, h.chars, hecho pushed_ttyEcho, List.append_nil]
      exact List.append_nil _
  rw [if_neg h8, if_neg h8, if_neg h21, if_neg h21, if_neg h4, if_neg h4, hlen]
  by_cases hend : c = 10 ∨ c = 0 ∨ ttyLnBufSize - 1 ≤ pending.length
  · rw [if_pos hend, if_pos hend]
    refine ⟨rfl, .clear, ?_⟩
    dsimp only
    rw [pushed_append, pushed_append, pushed_iput, h.chars, hecho pushed_ttyOput]
    rfl
  · rw [if_neg hend, if_neg hend]
    refine ⟨rfl, h.insert (by omega), hecho pushed_ttyEcho⟩

/-- An editing character behind a line that is full is delivered with it. -/
theorem ttyEditor_full (he : tty.Edits) (h : tty.line.Holds pending) (hc : c = 8 ∨ c = 21 ∨ c = 4)
    (hfull : pending.length = ttyLnBufSize - 1) :
    pushed (ttyEditor tty c).2 ≠ (edit pending c).2 := by
  have hlen := h.length_eq
  have hspecial : c ∉ special := by rcases hc with rfl | rfl | rfl <;> decide
  have hpushed : pushed (ttyEditor tty c).2 = pending ++ [c] := by
    rw [ttyEditor_default he hspecial, if_pos (.inr (.inr (by omega)))]
    dsimp only
    rw [pushed_append, pushed_append, pushed_iput, h.chars]
    split_ifs
    · rw [pushed_ttyOput]
      rfl
    · rfl
  rw [hpushed]
  intro heq
  have hlength := congrArg List.length heq
  rw [List.length_append, List.length_singleton, hfull] at hlength
  unfold edit at hlength
  rcases hc with rfl | rfl | rfl
  · rw [if_pos rfl] at hlength
    exact Nat.succ_ne_zero _ hlength
  · rw [if_neg (by decide), if_pos rfl] at hlength
    exact Nat.succ_ne_zero _ hlength
  · rw [if_neg (by decide), if_neg (by decide), if_pos rfl, hfull] at hlength
    exact absurd hlength (by decide)

/-- The lengths of the pending line. -/
theorem roomy_some {cs : List (Option UInt8)} : roomy pending.length (some c :: cs) = true ↔
    ¬((c = 8 ∨ c = 21 ∨ c = 4) ∧ pending.length = ttyLnBufSize - 1) ∧
      roomy (edit pending c).1.length cs = true := by
  rw [roomy]
  unfold edit
  by_cases h8 : c = 8
  · simp [h8]
  by_cases h21 : c = 21
  · simp [h21]
  by_cases h4 : c = 4
  · simp [h4]
  rw [if_neg (by tauto), if_neg h8, if_neg h21, if_neg h4]
  by_cases hend : c = 10 ∨ c = 0 ∨ ttyLnBufSize - 1 ≤ pending.length
  · rw [if_pos hend, if_pos hend]
    simp [h8, h21, h4]
  · rw [if_neg hend, if_neg hend]
    simp [h8, h21, h4]

theorem ttyIn_none (h : tty.termios.translate c = none) : ttyIn tty c = (tty, []) := by
  unfold ttyIn
  rw [h]

theorem ttyIn_some (he : tty.Edits) {d : UInt8} (h : tty.termios.translate c = some d) :
    ttyIn tty c = ttyEditor tty d := by
  unfold ttyIn
  rw [h]
  exact if_pos he.icanon

/-- The calls deliver what the reference editor does, exactly when there is room. -/
theorem calls_iff {cs : List UInt8} (he : tty.Edits) (h : tty.line.Holds pending)
    (hcs : ∀ c ∈ cs, ∀ d ∈ tty.termios.translate c, d ∉ special) :
    calls tty cs = deliveries pending (cs.map tty.termios.translate) ↔
      roomy pending.length (cs.map tty.termios.translate) = true := by
  induction cs generalizing tty pending with
  | nil => exact iff_of_true rfl rfl
  | cons c cs ih =>
    have hrest : ∀ c ∈ cs, ∀ d ∈ tty.termios.translate c, d ∉ special :=
      fun c hc => hcs c (List.mem_cons_of_mem _ hc)
    have hkey := hcs c List.mem_cons_self
    rw [List.map_cons, calls]
    cases htr : tty.termios.translate c with
    | none =>
      rw [ttyIn_none htr, roomy, deliveries, List.cons_eq_cons]
      exact (and_iff_right rfl).trans (ih he h hrest)
    | some d =>
      have hd := hkey d htr
      rw [ttyIn_some he htr, roomy_some, deliveries, List.cons_eq_cons]
      by_cases hroom : (d = 8 ∨ d = 21 ∨ d = 4) ∧ pending.length = ttyLnBufSize - 1
      · exact iff_of_false (fun heq => ttyEditor_full he h hroom.1 hroom.2 heq.1) fun hroomy =>
          hroomy.1 hroom
      · obtain ⟨htermios, hline, hpushed⟩ := ttyEditor_edit he h hd hroom
        have hnext := @ih (ttyEditor tty d).1 (edit pending d).1
          ⟨by rw [htermios]; exact he.icanon, by rw [htermios]; exact he.cc⟩ hline
            (by rw [htermios]; exact hrest)
        rw [htermios] at hnext
        rw [hnext, and_iff_right hpushed, and_iff_right hroom]

/-- A character leaves a line in the buffer. -/
theorem ttyIn_holds (he : tty.Edits) (h : tty.line.Holds pending)
    (hc : ∀ d ∈ tty.termios.translate c, d ∉ special) :
    (ttyIn tty c).1.termios = tty.termios ∧ ∃ pending', (ttyIn tty c).1.line.Holds pending' := by
  cases htr : tty.termios.translate c with
  | none =>
    rw [ttyIn_none htr]
    exact ⟨rfl, pending, h⟩
  | some d =>
    rw [ttyIn_some he htr]
    by_cases hroom : (d = 8 ∨ d = 21 ∨ d = 4) ∧ pending.length = ttyLnBufSize - 1
    · have hlen := h.length_eq
      rw [ttyEditor_default he (hc d htr), if_pos (.inr (.inr (by omega)))]
      exact ⟨rfl, [], .clear⟩
    · obtain ⟨htermios, hline, -⟩ := ttyEditor_edit he h (hc d htr) hroom
      exact ⟨htermios, _, hline⟩

/-- At all times there is a line in the buffer. -/
theorem after_holds {cs : List UInt8} (he : tty.Edits) (h : tty.line.Holds pending)
    (hcs : ∀ c ∈ cs, ∀ d ∈ tty.termios.translate c, d ∉ special) :
    ∃ pending', (after tty cs).line.Holds pending' := by
  induction cs generalizing tty pending with
  | nil => exact ⟨pending, h⟩
  | cons c cs ih =>
    obtain ⟨htermios, pending', hline⟩ := ttyIn_holds he h (hcs c List.mem_cons_self)
    refine ih ⟨?_, ?_⟩ hline ?_
    · rw [htermios]
      exact he.icanon
    · rw [htermios]
      exact he.cc
    · rw [htermios]
      exact fun c hc => hcs c (List.mem_cons_of_mem _ hc)

/-- No character that edits is in the line. -/
def Clean (l : List UInt8) : Prop := 8 ∉ l ∧ 21 ∉ l

theorem edit_clean (h : Clean pending) : Clean (edit pending c).1 ∧ Clean (edit pending c).2 := by
  have hnil : Clean [] := ⟨List.not_mem_nil, List.not_mem_nil⟩
  unfold edit
  by_cases h8 : c = 8
  · rw [if_pos h8]
    exact ⟨⟨mt (List.dropLast_subset _ ·) h.1, mt (List.dropLast_subset _ ·) h.2⟩, hnil⟩
  by_cases h21 : c = 21
  · rw [if_neg h8, if_pos h21]
    exact ⟨hnil, hnil⟩
  have hconcat : Clean (pending ++ [c]) := by simp [Clean, h.1, h.2, Ne.symm h8, Ne.symm h21]
  rw [if_neg h8, if_neg h21]
  split_ifs
  · exact ⟨hnil, h⟩
  · exact ⟨hnil, hconcat⟩
  · exact ⟨hconcat, hnil⟩

/-- The reference editor does not deliver the characters that edit. -/
theorem deliveries_clean {cs : List (Option UInt8)} (h : Clean pending) :
    ∀ l ∈ deliveries pending cs, Clean l := by
  induction cs generalizing pending with
  | nil => exact nofun
  | cons c cs ih =>
    cases c with
    | none => exact List.forall_mem_cons.mpr ⟨⟨List.not_mem_nil, List.not_mem_nil⟩, ih h⟩
    | some c => exact List.forall_mem_cons.mpr ⟨(edit_clean h).2, ih (edit_clean h).1⟩

/-- What is right of the calls of `tty_in` for some characters, from an empty line on. -/
def Right (tty : Tty) (cs : List UInt8) : Prop :=
  (∀ pre, pre <+: cs → (after tty pre).line.ed ≤ (after tty pre).line.len ∧
    (after tty pre).line.len < ttyLnBufSize) ∧
  calls tty cs = deliveries [] (cs.map tty.termios.translate) ∧ ∀ l ∈ calls tty cs, Clean l

theorem holds_nil (hlen : tty.line.len = 0) (hed : tty.line.ed = 0) : tty.line.Holds [] := by
  refine ⟨hed.trans hlen.symm, by rw [hlen]; exact Nat.succ_pos _, ?_⟩
  rw [chars_zero, hlen]
  rfl

/-- **With the default control characters, and without the special keys, the line stays in its
buffer and `tty_in` puts to the input ring what the reference editor delivers exactly when no
erase, kill or end-of-file character comes behind a line that is full.** -/
theorem editor_iff {cs : List UInt8} (he : tty.Edits) (hlen : tty.line.len = 0)
    (hed : tty.line.ed = 0) (hcs : ∀ c ∈ cs, ∀ d ∈ tty.termios.translate c, d ∉ special) :
    Right tty cs ↔ roomy 0 (cs.map tty.termios.translate) = true := by
  have h := holds_nil hlen hed
  have hcalls := calls_iff he h hcs
  constructor
  · exact fun hright => hcalls.mp hright.2.1
  · intro hroom
    have heq := hcalls.mpr hroom
    refine ⟨fun pre hpre => ?_, heq, ?_⟩
    · obtain ⟨pending, hline⟩ := after_holds he h fun c hc => hcs c (hpre.subset hc)
      exact ⟨Nat.le_of_eq hline.ed, hline.len⟩
    · rw [heq]
      exact deliveries_clean ⟨List.not_mem_nil, List.not_mem_nil⟩

end

/-- A terminal that was opened, with nothing in its line. -/
def opened : Tty :=
  ⟨(⟨false, false, false, false, false, false, false, false, ⟨0, 0, 0, 0, 0, 0, 0, 0, 0⟩⟩ :
    Termios).setDefaults, ⟨fun _ => 0, 0, 0⟩, 1⟩

theorem edits_opened : opened.Edits := ⟨rfl, rfl⟩

theorem translate_opened {c d : UInt8} (h : opened.termios.translate c = some d)
    (hd : d ∉ special) :
    ∀ d ∈ opened.termios.translate c, d ∉ special := by
  rw [h]
  exact fun d' hd' => Option.some.inj hd' ▸ hd

/-- A letter, an erase and a newline. -/
theorem keys_opened : ∀ c ∈ [97, 8, 10], ∀ d ∈ opened.termios.translate c, d ∉ special := by
  intro c hc
  simp only [List.mem_cons, List.not_mem_nil, or_false] at hc
  rcases hc with rfl | rfl | rfl
  · exact translate_opened rfl (by decide)
  · exact translate_opened rfl (by decide)
  · exact translate_opened rfl (by decide)

/-- A letter is typed and erased. -/
theorem editor_iff_erase : (opened.Edits ∧ opened.line.len = 0 ∧ opened.line.ed = 0 ∧
    ∀ c ∈ [97, 8, 10], ∀ d ∈ opened.termios.translate c, d ∉ special) ∧ Right opened [97, 8, 10] :=
  ⟨⟨edits_opened, rfl, rfl, keys_opened⟩,
    (editor_iff edits_opened rfl rfl keys_opened).mpr (by decide +kernel)⟩

/-- A line of 511 characters, and an erase. -/
def fullLine : List UInt8 := List.replicate 511 97 ++ [8]

/-- The erase is put to the input ring. -/
theorem not_editor : ¬∀ (tty : Tty) (cs : List UInt8), tty.Edits → tty.line.len = 0 →
    tty.line.ed = 0 →
    (∀ c ∈ cs, ∀ d ∈ tty.termios.translate c, d ∉ special) → Right tty cs := by
  intro h
  have hcs : ∀ c ∈ fullLine, ∀ d ∈ opened.termios.translate c, d ∉ special := by
    intro c hc
    rcases List.mem_append.mp hc with hletter | herase
    · obtain rfl := List.eq_of_mem_replicate hletter
      exact translate_opened rfl (by decide)
    · obtain rfl := List.mem_singleton.mp herase
      exact translate_opened rfl (by decide)
  have hright := h opened fullLine edits_opened rfl rfl hcs
  have hroom := (calls_iff edits_opened (holds_nil rfl rfl) hcs).mp hright.2.1
  exact absurd hroom (by decide +kernel)

end Cosiris.Input
