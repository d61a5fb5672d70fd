import Cosiris.Lib.Prog
import Mathlib.Algebra.Order.Group.Nat
import Mathlib.Logic.Function.Basic

/-!
# The text terminal

`crt_putc` of `crt.c` and the machine for escape sequences of `ansi.c`. The screen has 25 rows of
80 cells; the column and row of the cursor are numbers of 16 bits.

A run stops where a `KASSERT` fails, and where a cell outside of the screen would be written. What
is sent to the ports of the display controller, and the debug messages, are left out. -/

namespace Cosiris.Terminal

open Function Prog

/-- The ways a call of `crt_putc` stops. -/
inductive Fault where
  /-- A `KASSERT` that fails. -/
  | assert
  /-- A write outside of the screen. -/
  | bounds
  deriving DecidableEq

/-- `ansi_stat_t`. -/
inductive Stat where
  | none
  | inEsc
  | inBra
  | inNum1
  | inNum2
  | inFin
  deriving DecidableEq

/-- `struct ansi_stat`. -/
structure AnsiStat where
  stat : Stat
  n1 : UInt32
  n2 : UInt32
  c1 : UInt8
  c2 : UInt8
  cnt : UInt8
  deriving DecidableEq

/-- The machine after `memset(st, 0, sizeof(*st))`. -/
def AnsiStat.zero : AnsiStat := ⟨.none, 0, 0, 0, 0, 0⟩

/-- `ANSI_MAX_CHARS`. -/
def ansiMaxChars : UInt8 := 10

/-- A character between `'0'` and `'9'`. -/
def isDigit (c : UInt8) : Prop := 48 ≤ c ∧ c ≤ 57

/-- A character that ends a sequence: a letter or `'~'`. -/
def isFinal (c : UInt8) : Prop := (65 ≤ c ∧ c ≤ 90) ∨ (97 ≤ c ∧ c ≤ 122) ∨ c = 126

instance (c : UInt8) : Decidable (isDigit c) := inferInstanceAs (Decidable (48 ≤ c ∧ c ≤ 57))

instance (c : UInt8) : Decidable (isFinal c) :=
  inferInstanceAs (Decidable ((65 ≤ c ∧ c ≤ 90) ∨ (97 ≤ c ∧ c ≤ 122) ∨ c = 126))

/-- `c - '0'`. -/
def digit (c : UInt8) : UInt32 := c.toUInt32 - 48

/-- The part of `ansi_stat_switch` after the machine was reset, if it had to be. -/
def AnsiStat.next (st : AnsiStat) (c : UInt8) : AnsiStat :=
  if st.stat = .none ∧ c = 27 then { st with stat := .inEsc }
  else if st.stat = .inEsc ∧ (c = 91 ∨ c = 79 ∨ c = 99) then
    if c = 79 then { st with stat := .inBra, c2 := 79 }
    else if c = 99 then { st with stat := .inFin, c1 := c }
    else { st with stat := .inBra }
  else if st.stat = .inBra ∧ isDigit c then { st with stat := .inNum1, n1 := digit c }
  else if st.stat = .inBra ∧ c = 63 then { st with stat := .inNum1, c2 := 63 }
  else if st.stat = .inNum1 ∧ isDigit c then { st with n1 := st.n1 * 10 + digit c }
  else if st.stat = .inNum1 ∧ c = 59 then { st with stat := .inNum2, n2 := 0 }
  else if st.stat = .inNum2 ∧ isDigit c then { st with n2 := st.n2 * 10 + digit c }
  else if (st.stat = .inBra ∨ st.stat = .inNum1 ∨ st.stat = .inNum2) ∧
    isFinal c then { st with stat := .inFin, c1 := c }
  else { st with stat := .none, cnt := 0 }

/-- `ansi_stat_switch`. -/
def ansiStatSwitch (st : AnsiStat) (c : UInt8) : AnsiStat :=
  let st := { st with cnt := st.cnt + 1 }
  let st := if st.stat = .inFin ∨ ansiMaxChars < st.cnt then .zero else st
  st.next c

/-! ### The screen -/

/-- `CRT_COLS`. -/
def cols : ℕ := 80

/-- `CRT_ROWS`, and `CRT_MAX_ROWS`. -/
def rows : ℕ := 25

/-- `CRT_DEF_ATTR`. -/
def defAttr : UInt16 := 0x700

/-- `struct crt`. -/
structure Crt where
  buf : ℕ → UInt16
  attr : UInt16
  x : UInt16
  y : UInt16
  astat : AnsiStat

/-- `CRT_POS`. -/
def Crt.pos (s : Crt) : ℕ := cols * s.y.toNat + s.x.toNat

/-- `' ' | crt.attr`. -/
def Crt.blank (s : Crt) : UInt16 := 32 ||| s.attr

/-- Write `v` to the cells from `lo` up to `hi`. -/
def fillCells (lo hi : ℕ) (v : UInt16) : Prog Fault Crt Unit :=
  if lo < hi ∧ rows * cols < hi then halt .bounds
  else modify fun s => { s with buf := fun i => if lo ≤ i ∧ i < hi then v else s.buf i }

/-- `crt_set_cursor_xy`. -/
def setCursorXy (x y : UInt16) : Prog Fault Crt Unit :=
  if rows ≤ y.toNat then halt .assert
  else if cols ≤ x.toNat then halt .assert
  else modify fun s => { s with x := x, y := y }

/-- `crt_reset`. -/
def reset : Prog Fault Crt Unit := do
  modify fun s => { s with x := 0, y := 0, attr := defAttr }
  let s ← read
  fillCells 0 (cols * rows) s.blank

/-- `crt_set_color`. -/
def setColor (color bright : UInt8) : Prog Fault Crt Unit := modify fun s =>
  let bgColor := (s.attr >>> 8) &&& 0xF0
  let color := if bright ≠ 0 then color + 8 else color
  { s with attr := (bgColor ||| (color &&& 0x0F).toUInt16) <<< 8 }

/-- `crt_set_background`. -/
def setBackground (bgColor bright : UInt8) : Prog Fault Crt Unit := modify fun s =>
  let color := (s.attr >>> 8) &&& 0x0F
  let bgColor := if bright ≠ 0 then bgColor + 8 else bgColor
  { s with attr := (((bgColor &&& 0x0F) <<< 4).toUInt16 ||| color) <<< 8 }

/-- `crt_reverse_video`. -/
def reverseVideo : Prog Fault Crt Unit := do
  let s ← read
  let bgColor := s.attr &&& 0x0F
  let textColor := (s.attr >>> 8) &&& 0x0F
  setColor bgColor.toUInt8 0
  setBackground textColor.toUInt8 0

/-- `ansi_to_col`. -/
def ansiToCol : List UInt8 := [0, 4, 2, 6, 1, 5, 3, 7]

/-- `MIN_ONE`: it is the first number that is looked at, whichever is replaced. -/
def AnsiStat.minOne (st : AnsiStat) (n : UInt32) : UInt32 := if st.n1 = 0 then 1 else n

/-- The branch for `m` in `crt_handle_ansi`. -/
def selectGraphic (st : AnsiStat) : Prog Fault Crt Unit :=
  if st.n1 = 0 then modify fun s => { s with attr := defAttr }
  else if 30 ≤ st.n1 ∧ st.n1 ≤ 37 then setColor (ansiToCol.getD (st.n1 - 30).toNat 0) st.n2.toUInt8
  else if 40 ≤ st.n1 ∧ st.n1 ≤ 47 then
    setBackground (ansiToCol.getD (st.n1 - 40).toNat 0) st.n2.toUInt8
  else if st.n1 = 7 then reverseVideo
  else if st.n1 = 39 then setBackground (defAttr &&& 0x0F).toUInt8 0
  else pure ()

/-- The branch for `K` in `crt_handle_ansi`. -/
def eraseInLine (st : AnsiStat) : Prog Fault Crt Unit := do
  let s ← read
  let row := s.y.toNat * cols
  if st.n1 = 1 then fillCells row (row + s.x.toNat) s.blank
  else if st.n1 = 2 then fillCells row (row + cols) s.blank
  else fillCells (row + s.x.toNat) (row + cols) s.blank

/-- `crt_handle_ansi`. -/
def handleAnsi (c : UInt8) : Prog Fault Crt Unit := do
  let s ← read
  let st := s.astat
  let n1 := (st.minOne st.n1).toUInt16
  let n2 := (st.minOne st.n2).toUInt16
  if c = 99 then reset
  else if c = 109 then selectGraphic st
  else if c = 65 then setCursorXy s.x (s.y - n1)
  else if c = 66 then setCursorXy s.x (s.y + n1)
  else if c = 67 then setCursorXy (s.x + n1) s.y
  else if c = 68 then setCursorXy (s.x - n1) s.y
  else if c = 75 then eraseInLine st
  else if st.n1 = 25 ∧ st.c2 = 63 then pure ()
  else if c = 72 then setCursorXy (n2 - 1) (n1 - 1)
  else pure ()

/-- `crt_lf`. -/
def lf : Prog Fault Crt Unit := do
  modify fun s => { s with y := s.y - 1 }
  let s ← read
  if rows * cols < cols * s.y.toNat then halt .bounds
  modify fun s =>
    { s with buf := fun i => if i < cols * s.y.toNat then s.buf (i + cols) else s.buf i }
  fillCells (s.y.toNat * cols) (s.y.toNat * cols + cols) s.blank

/-- The cursor goes down a row, and the screen up if there is none. -/
def nextRow : Prog Fault Crt Unit := do
  modify fun s => { s with y := s.y + 1 }
  let s ← read
  if rows * cols ≤ s.pos then lf

/-- `c | crt.attr`, for a `char`. -/
def Crt.cell (s : Crt) (c : UInt8) : UInt16 :=
  (if c < 128 then c.toUInt16 else c.toUInt16 ||| 0xFF00) ||| s.attr

/-- `crt_putc` of a character that is not part of a sequence, with the cursor not behind the end
of a row. -/
def putText (c : UInt8) : Prog Fault Crt Unit := do
  let s ← read
  if c = 10 then nextRow
  else if c = 13 then modify fun s => { s with x := 0 }
  else if c = 8 then
    if s.x = 0 ∧ 0 < s.y then modify fun s => { s with x := .ofNat cols - 1, y := s.y - 1 }
    else modify fun s => { s with x := s.x - 1 }
  else if c = 9 then modify fun s => { s with x := (s.x + 8) &&& 0xFFF8 }
  else
    fillCells s.pos (s.pos + 1) (s.cell c)
    modify fun s => { s with x := s.x + 1 }

/-- `if (crt.x > crt.cols)` in `crt_putc`. -/
def wrap : Prog Fault Crt Unit := do
  let s ← read
  if cols < s.x.toNat then
    modify fun s => { s with x := s.x % .ofNat cols }
    nextRow

/-- `crt_putc`. -/
def putc (c : UInt8) : Prog Fault Crt Unit := do
  modify fun s => { s with astat := ansiStatSwitch s.astat c }
  let s ← read
  match s.astat.stat with
  | .none =>
    wrap
    putText c
  | .inFin => handleAnsi c
  | _ => pure ()

/-- `crt_init`, when the position of the cursor is `pos`. -/
def init (buf : ℕ → UInt16) (pos : UInt16) : Crt :=
  let pos := if rows - 1 < pos.toNat / cols then 0 else pos
  ⟨buf, defAttr, pos % .ofNat cols, pos / .ofNat cols, .zero⟩

/-! ### What keeps to the screen -/

/-- Where a sequence that ends in `c` moves the cursor to. -/
def Crt.target (s : Crt) (c : UInt8) : Option (UInt16 × UInt16) :=
  let n1 := (s.astat.minOne s.astat.n1).toUInt16
  let n2 := (s.astat.minOne s.astat.n2).toUInt16
  if c = 65 then some (s.x, s.y - n1)
  else if c = 66 then some (s.x, s.y + n1)
  else if c = 67 then some (s.x + n1, s.y)
  else if c = 68 then some (s.x - n1, s.y)
  else if c = 72 ∧ ¬(s.astat.n1 = 25 ∧ s.astat.c2 = 63) then some (n2 - 1, n1 - 1)
  else none

/-- A sequence that ends in `c` moves the cursor to a cell of the screen, and erases only such
cells. -/
def Crt.FinalFits (s : Crt) (c : UInt8) : Prop :=
  (∀ p, s.target c = some p → p.1.toNat < cols ∧ p.2.toNat < rows) ∧
    (c = 75 → s.astat.n1 = 1 → s.pos ≤ rows * cols)

/-- A character that is not part of a sequence moves the cursor only, or there is a cell for it. -/
def Crt.TextFits (s : Crt) (c : UInt8) : Prop :=
  (c = 8 ∨ c = 9 ∨ c = 10 ∨ c = 13) ∨ ¬(s.x.toNat = cols ∧ s.y.toNat = rows - 1)

/-- The character fits where the terminal is. -/
def Crt.Fits (s : Crt) (c : UInt8) : Prop :=
  match (ansiStatSwitch s.astat c).stat with
  | .none => s.TextFits c
  | .inFin => ({ s with astat := ansiStatSwitch s.astat c } : Crt).FinalFits c
  | _ => True

section

variable {s : Crt} {c : UInt8}

theorem wp_fillCells {lo hi : ℕ} {v : UInt16} :
    wp (fillCells lo hi v) (fun _ s' => ¬(lo < hi ∧ rows * cols < hi) ∧ s'.x = s.x ∧ s'.y = s.y)
      (fun _ _ => lo < hi ∧ rows * cols < hi) s := by
  unfold fillCells
  rw [wp_ite]
  split_ifs with h
  · exact h
  · exact ⟨h, rfl, rfl⟩

/-- A row of the screen. -/
theorem wp_fillCells_row {lo hi : ℕ} {v : UInt16} (h : hi ≤ rows * cols) :
    wp (fillCells lo hi v) (fun _ s' => s'.x = s.x ∧ s'.y = s.y) (fun _ _ => False) s :=
  wp_fillCells.mono (fun _ _ h' => h'.2) fun _ _ h' => by omega

theorem toNat_sub_one {y : UInt16} (h : 0 < y.toNat) : (y - 1).toNat = y.toNat - 1 := by
  have hlt := y.toNat_lt
  rw [UInt16.toNat_sub, show (1 : UInt16).toNat = 1 from rfl]
  omega

theorem toNat_add_one {y : UInt16} (h : y.toNat < 2 ^ 16 - 1) : (y + 1).toNat = y.toNat + 1 := by
  rw [UInt16.toNat_add, show (1 : UInt16).toNat = 1 from rfl]
  omega

theorem wp_lf (h₀ : 0 < s.y.toNat) (h : s.y.toNat ≤ rows) :
    wp lf (fun _ s' => s'.x = s.x ∧ s'.y = s.y - 1) (fun _ _ => False) s := by
  have hy := toNat_sub_one h₀
  have hrow : (s.y - 1).toNat < rows := by omega
  unfold rows at hrow
  rw [lf, wp_bind, wp_modify, wp_bind, wp_read]
  dsimp only
  rw [if_neg (by unfold rows cols; omega), wp_bind, wp_modify]
  refine (wp_fillCells_row ?_).mono (fun _ _ h' => h') fun _ _ => id
  unfold rows cols
  omega

theorem wp_nextRow (hy : s.y.toNat < rows) (hx : s.x.toNat ≤ cols) :
    wp nextRow (fun _ s' => s'.x = s.x ∧ s'.y.toNat < rows) (fun _ _ => False) s := by
  have hrow := hy
  have hcol := hx
  unfold rows at hrow
  unfold cols at hcol
  have hadd := toNat_add_one (y := s.y) (by omega)
  rw [nextRow, wp_bind, wp_modify, wp_bind, wp_read, wp_ite]
  unfold Crt.pos
  dsimp only
  split_ifs with hpos
  · refine (wp_lf ?_ ?_).mono (fun _ s' h => ⟨h.1, ?_⟩) fun _ _ => id
    · show 0 < (s.y + 1).toNat
      omega
    · show (s.y + 1).toNat ≤ rows
      omega
    · rw [h.2]
      show (s.y + 1 - 1).toNat < rows
      rw [toNat_sub_one (by omega), hadd]
      omega
  · refine ⟨rfl, ?_⟩
    show (s.y + 1).toNat < rows
    unfold rows cols at *
    omega

theorem wp_wrap (hy : s.y.toNat < rows) :
    wp wrap (fun _ s' => s'.y.toNat < rows ∧ s'.x.toNat ≤ cols ∧
      (s'.x = s.x ∧ s'.y = s.y ∨ s'.x.toNat < cols ∧ cols < s.x.toNat)) (fun _ _ => False) s := by
  rw [wrap, wp_bind, wp_read, wp_ite]
  split_ifs with hx
  · have hmod : (s.x % .ofNat cols).toNat < cols := by
      rw [UInt16.toNat_mod]
      exact Nat.mod_lt _ (by decide)
    rw [wp_bind, wp_modify]
    refine (wp_nextRow (s := { s with x := s.x % .ofNat cols }) hy (Nat.le_of_lt hmod)).mono
      (fun _ s' h => ?_) fun _ _ => id
    have hx' : s'.x.toNat < cols := by rw [h.1]; exact hmod
    exact ⟨h.2, Nat.le_of_lt hx', Or.inr ⟨hx', hx⟩⟩
  · rw [wp_pure]
    exact ⟨hy, by omega, Or.inl ⟨rfl, rfl⟩⟩

theorem wp_putText (hy : s.y.toNat < rows) (hx : s.x.toNat ≤ cols) :
    wp (putText c) (fun _ s' => s.TextFits c ∧ s'.y.toNat < rows) (fun _ _ => ¬s.TextFits c) s := by
  have hrow := hy
  have hcol := hx
  unfold rows at hrow
  unfold cols at hcol
  rw [putText, wp_bind, wp_read]
  simp only [wp_ite, wp_modify, wp_bind]
  unfold Crt.TextFits
  by_cases h10 : c = 10
  · rw [if_pos h10]
    exact (wp_nextRow hy hx).mono (fun _ _ h => ⟨by simp [h10], h.2⟩) fun _ _ h => h.elim
  rw [if_neg h10]
  by_cases h13 : c = 13
  · rw [if_pos h13]
    exact ⟨by simp [h13], hy⟩
  rw [if_neg h13]
  by_cases h8 : c = 8
  · rw [if_pos h8]
    split_ifs with h0
    · have hpos : 0 < s.y.toNat := h0.2
      exact ⟨by simp [h8], by rw [toNat_sub_one hpos]; omega⟩
    · exact ⟨by simp [h8], hy⟩
  rw [if_neg h8]
  by_cases h9 : c = 9
  · rw [if_pos h9]
    exact ⟨by simp [h9], hy⟩
  rw [if_neg h9]
  have hpos : (rows * cols < s.pos + 1) ↔ s.x.toNat = cols ∧ s.y.toNat = rows - 1 := by
    unfold Crt.pos rows cols
    omega
  refine wp_fillCells.mono (fun _ s' h => ?_) fun _ _ h => ?_
  · exact ⟨Or.inr fun hc => h.1 ⟨by omega, hpos.mpr hc⟩, by rw [h.2.2]; exact hy⟩
  · simp only [h8, h9, h10, h13, or_self, false_or, not_not]
    exact hpos.mp h.2

theorem wp_setCursorXy {x y : UInt16} :
    wp (setCursorXy x y) (fun _ s' => (x.toNat < cols ∧ y.toNat < rows) ∧ s'.y.toNat < rows)
      (fun _ _ => ¬(x.toNat < cols ∧ y.toNat < rows)) s := by
  unfold setCursorXy
  rw [wp_ite, wp_ite]
  split_ifs with hy hx
  · rw [wp_halt]
    omega
  · rw [wp_halt]
    omega
  · rw [wp_modify]
    exact ⟨⟨by omega, by omega⟩, by show y.toNat < rows; omega⟩

/-- A sequence that moves the cursor. -/
theorem wp_move {x y : UInt16} (ht : s.target c = some (x, y)) (hc : c ≠ 75) :
    wp (setCursorXy x y) (fun _ s' => s.FinalFits c ∧ s'.y.toNat < rows)
      (fun _ _ => ¬s.FinalFits c) s := by
  have hiff : s.FinalFits c ↔ x.toNat < cols ∧ y.toNat < rows := by
    constructor
    · exact fun h => h.1 _ ht
    · intro h
      refine ⟨fun p hp => ?_, fun h75 => absurd h75 hc⟩
      rw [ht] at hp
      cases hp
      exact h
  rw [hiff]
  exact wp_setCursorXy

/-- Sequences that set the colours leave the cursor where it is. -/
theorem wp_selectGraphic (st : AnsiStat) :
    wp (selectGraphic st) (fun _ s' => s'.x = s.x ∧ s'.y = s.y) (fun _ _ => False) s := by
  unfold selectGraphic setColor setBackground reverseVideo setColor setBackground
  simp only [wp_ite, wp_modify, wp_bind, wp_read, wp_pure]
  split_ifs <;> exact ⟨trivial, trivial⟩

theorem wp_eraseInLine (hy : s.y.toNat < rows) :
    wp (eraseInLine s.astat) (fun _ s' => (s.astat.n1 = 1 → s.pos ≤ rows * cols) ∧
      s'.y.toNat < rows)
      (fun _ _ => ¬(s.astat.n1 = 1 → s.pos ≤ rows * cols)) s := by
  have hrow := hy
  unfold rows at hrow
  have hpos : s.y.toNat * cols + s.x.toNat = s.pos := by
    unfold Crt.pos
    rw [Nat.mul_comm]
  have hend : s.y.toNat * cols + cols ≤ rows * cols := by
    unfold rows cols
    omega
  rw [eraseInLine, wp_bind, wp_read]
  dsimp only
  rw [wp_ite, wp_ite, hpos]
  split_ifs with h1 h2
  · refine wp_fillCells.mono (fun _ s' h => ⟨fun _ => ?_, by rw [h.2.2]; exact hy⟩)
      fun _ _ h hc => ?_
    · by_contra hlt
      exact h.1 ⟨by omega, by omega⟩
    · have := hc h1
      omega
  · exact (wp_fillCells_row hend).mono
      (fun _ _ h => ⟨fun hc => absurd hc h1, by rw [h.2]; exact hy⟩) fun _ _ => False.elim
  · exact (wp_fillCells_row hend).mono
      (fun _ _ h => ⟨fun hc => absurd hc h1, by rw [h.2]; exact hy⟩) fun _ _ => False.elim

/-- A sequence that neither moves the cursor nor erases cells of a row fits. -/
theorem finalFits_of_none (ht : s.target c = none) (hc : c ≠ 75) : s.FinalFits c :=
  ⟨fun p hp => (by rw [ht] at hp; cases hp), fun h => absurd h hc⟩

theorem wp_handleAnsi (hy : s.y.toNat < rows) :
    wp (handleAnsi c) (fun _ s' => s.FinalFits c ∧ s'.y.toNat < rows)
      (fun _ _ => ¬s.FinalFits c) s := by
  have hstay : s.target c = none → c ≠ 75 → ∀ s' : Crt, s'.y = s.y → s.FinalFits c ∧
    s'.y.toNat < rows :=
    fun ht hc s' h => ⟨finalFits_of_none ht hc, by rw [h]; exact hy⟩
  rw [handleAnsi, wp_bind, wp_read]
  dsimp only
  simp only [wp_ite]
  split_ifs with hc hm hA hB hC hD hK h25 hH
  · subst hc
    rw [reset, wp_bind, wp_modify, wp_bind, wp_read]
    refine (wp_fillCells_row (Nat.le_of_eq (Nat.mul_comm ..))).mono
      (fun _ s' h => ⟨finalFits_of_none rfl (by decide), ?_⟩)
      fun _ _ => False.elim
    rw [h.2]
    show (0 : UInt16).toNat < rows
    decide
  · subst hm
    exact (wp_selectGraphic s.astat).mono (fun _ s' h => hstay rfl (by decide) s' h.2) fun _ _ =>
      False.elim
  · subst hA
    exact wp_move rfl (by decide)
  · subst hB
    exact wp_move rfl (by decide)
  · subst hC
    exact wp_move rfl (by decide)
  · subst hD
    exact wp_move rfl (by decide)
  · subst hK
    have hiff : s.FinalFits 75 ↔ (s.astat.n1 = 1 → s.pos ≤ rows * cols) :=
      ⟨fun h => h.2 rfl, fun h => ⟨fun p hp => (by cases hp), fun _ => h⟩⟩
    rw [hiff]
    exact wp_eraseInLine hy
  · refine hstay ?_ hK s rfl
    unfold Crt.target
    simp [hA, hB, hC, hD, h25]
  · subst hH
    refine wp_move ?_ (by decide)
    unfold Crt.target
    simp [h25]
  · refine hstay ?_ hK s rfl
    unfold Crt.target
    simp [hA, hB, hC, hD, hH]

/-- **One character**: it is put on the screen if it fits, and `crt_putc` stops if it does not. -/
theorem wp_putc (hy : s.y.toNat < rows) :
    wp (putc c) (fun _ s' => s.Fits c ∧ s'.y.toNat < rows) (fun _ _ => ¬s.Fits c) s := by
  rw [putc, wp_bind, wp_modify, wp_bind, wp_read]
  dsimp only
  unfold Crt.Fits
  cases hst : (ansiStatSwitch s.astat c).stat with
  | none =>
    dsimp only
    rw [wp_bind]
    refine (wp_wrap (s := { s with astat := ansiStatSwitch s.astat c }) hy).mono
      (fun _ s' hw => ?_) fun _ _ => False.elim
    obtain ⟨hy', hx', hsame⟩ := hw
    have hiff : s'.TextFits c ↔ s.TextFits c := by
      unfold Crt.TextFits
      rcases hsame with ⟨hx, hy⟩ | ⟨hlt, hgt⟩
      · rw [hx, hy]
      · have hgt' : cols < s.x.toNat := hgt
        simp only [Nat.ne_of_lt hlt, Nat.ne_of_gt hgt', false_and]
    rw [← hiff]
    exact wp_putText hy' hx'
  | inFin => exact wp_handleAnsi (s := { s with astat := ansiStatSwitch s.astat c }) hy
  | inEsc => exact ⟨trivial, hy⟩
  | inBra => exact ⟨trivial, hy⟩
  | inNum1 => exact ⟨trivial, hy⟩
  | inNum2 => exact ⟨trivial, hy⟩

/-! ### Sequences of characters -/

/-- The characters, one after the other. -/
def putAll : List UInt8 → Prog Fault Crt Unit
  | [] => pure ()
  | c :: cs => do
    putc c
    putAll cs

/-- Each character fits where it is put. -/
def Fits : Crt → List UInt8 → Prop
  | _, [] => True
  | s, c :: cs => s.Fits c ∧ ∀ s', putc c s = .ok () s' → Fits s' cs

theorem putAll_iff {cs : List UInt8} (hy : s.y.toNat < rows) :
    (∃ s', putAll cs s = .ok () s' ∧ s'.y.toNat < rows) ↔ Fits s cs := by
  induction cs generalizing s with
  | nil => exact ⟨fun _ => trivial, fun _ => ⟨s, rfl, hy⟩⟩
  | cons c cs ih =>
    cases hput : putc c s with
    | ok a s₁ =>
      obtain ⟨hfit, hy₁⟩ := (wp_putc hy).ok hput
      have hrun : putAll (c :: cs) s = putAll cs s₁ := by
        rw [putAll, bind_of_ok hput]
      rw [hrun, ih hy₁]
      refine ⟨fun h => ⟨hfit, fun s' hs' => ?_⟩, fun h => h.2 s₁ hput⟩
      rw [hput] at hs'
      cases hs'
      exact h
    | halt e s₁ =>
      have hnot : ¬s.Fits c := (wp_putc hy).halted hput
      have hrun : putAll (c :: cs) s = .halt e s₁ := by
        rw [putAll, bind_of_halt hput]
      rw [hrun]
      refine ⟨fun h => ?_, fun h => absurd h.1 hnot⟩
      obtain ⟨s', hs', -⟩ := h
      cases hs'

end

theorem init_y_lt (buf : ℕ → UInt16) (pos : UInt16) : (init buf pos).y.toNat < rows := by
  unfold init
  dsimp only
  rw [UInt16.toNat_div]
  split_ifs with h
  · decide
  · show pos.toNat / cols < rows
    unfold rows at *
    omega

/-- **The terminal**: whatever is on the screen and wherever the cursor is when it is set up, a
sequence of characters is put on the screen with no assertion failing, no cell outside of it
written and the cursor in one of its rows, exactly if each character fits where it is put. -/
theorem terminal_in_bounds (buf : ℕ → UInt16) (pos : UInt16) (cs : List UInt8) :
    (∃ s', putAll cs (init buf pos) = .ok () s' ∧ s'.y.toNat < rows) ↔ Fits (init buf pos) cs :=
  putAll_iff (init_y_lt buf pos)

/-- `ESC [ A` on the first row. -/
theorem cursor_up_from_first_row :
    ∃ s, putAll [27, 91, 65] (init (fun _ => 0) 0) = .halt .assert s := ⟨_, rfl⟩

end Cosiris.Terminal
