import Cosiris.Kernel.Terminal
import Mathlib.Algebra.Order.Ring.Int
import Mathlib.Data.List.Basic

/-!
# The rows on the screen

What `crt_putc` of `crt.c` shows, against a page: a text in rows of at most 80 characters, of
which the screen shows the last 25. A row is begun when a character needs it. -/

namespace Cosiris.Terminal

open Prog

/-! ### Pages -/

/-- A text in rows: those above, and the one that it goes on in. -/
structure Page where
  above : List (List UInt8)
  line : List UInt8
  ok : line.length ≤ cols

namespace Page

/-- A cleared screen. -/
def cleared : Page := ⟨[], [], by decide⟩

/-- The text goes on in a new row. -/
def newline (p : Page) : Page := ⟨p.above ++ [p.line], [], Nat.zero_le _⟩

/-- The row for a character. -/
def wrapped (p : Page) : Page := if p.line.length = cols then p.newline else p

theorem wrapped_lt (p : Page) : p.wrapped.line.length < cols := by
  unfold wrapped
  split_ifs with h
  · exact Nat.succ_pos _
  · have hok := p.ok
    omega

/-- A character comes next. -/
def put (p : Page) (c : UInt8) : Page where
  above := p.wrapped.above
  line := p.wrapped.line ++ [c]
  ok := by
    rw [List.length_append]
    exact p.wrapped_lt

/-- A row of the screen. -/
def row (p : Page) (r : ℕ) : List UInt8 :=
  (p.above ++ [p.line]).getD (p.above.length + 1 - rows + r) []

/-- A cell of the screen. -/
def shown (p : Page) (r c : ℕ) : UInt8 := (p.row r).getD c 32

/-- The row of the screen where the text goes on. -/
def rowOn (p : Page) : ℕ := min p.above.length (rows - 1)

end Page

/-- A printable character, or a CR LF pair. -/
inductive Piece
  | char (c : UInt8) (ok : 32 ≤ c ∧ c ≤ 126)
  | newline

/-- The characters of a piece. -/
def Piece.chars : Piece → List UInt8
  | .char c _ => [c]
  | .newline => [13, 10]

/-- A piece comes next. -/
def Page.add (p : Page) : Piece → Page
  | .char c _ => p.put c
  | .newline => p.newline

/-- The screen shows the page. -/
def Crt.Shows (s : Crt) (p : Page) : Prop :=
  ∀ r < rows, ∀ c < cols, s.buf (cols * r + c) = (p.shown r c).toUInt16 ||| s.attr

/-- The cells are blank, with the cursor on the first. -/
structure Crt.Cleared (s : Crt) : Prop where
  x : s.x = 0
  y : s.y = 0
  stat : s.astat.stat = .none
  blank : ∀ i < rows * cols, s.buf i = s.blank

/-- No character comes behind the end of the last row, from a row and a column on. -/
def room (row col : ℕ) : List Piece → Bool
  | [] => true
  | .char _ _ :: ps =>
      if col = cols then row != rows - 1 && room (row + 1) 1 ps else room row (col + 1) ps
  | .newline :: ps => room (min (row + 1) (rows - 1)) 0 ps

section

variable {p : Page} {r c : ℕ}

theorem getD_concat {α : Type} (l : List α) (i : ℕ) (a b : α) :
    (l ++ [a]).getD i b = if i = l.length then a else l.getD i b := by
  rw [List.getD_eq_getElem?_getD, List.getD_eq_getElem?_getD]
  split_ifs with h
  · rw [h, List.getElem?_concat_length, Option.getD_some]
  · by_cases hlt : i < l.length
    · rw [List.getElem?_append_left hlt]
    · rw [List.getElem?_eq_none (by rw [List.length_append, List.length_singleton]; omega),
        List.getElem?_eq_none (Nat.not_lt.mp hlt)]

theorem getD_concat_nil (l : List (List UInt8)) (i : ℕ) : (l ++ [[]]).getD i [] = l.getD i [] := by
  rw [getD_concat]
  split_ifs with h
  · rw [h, List.getD_eq_getElem?_getD, List.getElem?_eq_none (Nat.le_refl _), Option.getD_none]
  · rfl

theorem above_newline : p.newline.above.length = p.above.length + 1 := by
  unfold Page.newline
  rw [List.length_append, List.length_singleton]

/-- With rows left, the rows stay where they are. -/
theorem row_newline (h : p.rowOn < rows - 1) : p.newline.row r = p.row r := by
  have hlen := @above_newline p
  unfold Page.rowOn rows at h
  unfold Page.row rows
  rw [hlen, show p.above.length + 1 + 1 - 25 = p.above.length + 1 - 25 by omega]
  exact getD_concat_nil _ _

/-- On the last row, the rows move up. -/
theorem row_newline_last (h : p.rowOn = rows - 1) : p.newline.row r = p.row (r + 1) := by
  have hlen := @above_newline p
  unfold Page.rowOn rows at h
  unfold Page.row rows
  rw [hlen, show p.above.length + 1 + 1 - 25 + r = p.above.length + 1 - 25 + (r + 1) by omega]
  exact getD_concat_nil _ _

theorem rowOn_newline : p.newline.rowOn = min (p.rowOn + 1) (rows - 1) := by
  unfold Page.rowOn
  rw [above_newline]
  omega

/-- Nothing is below the row that the text goes on in. -/
theorem row_below (h : p.rowOn < r) : p.row r = [] := by
  unfold Page.rowOn rows at h
  unfold Page.row rows
  rw [List.getD_eq_getElem?_getD, List.getElem?_eq_none, Option.getD_none]
  rw [List.length_append, List.length_singleton]
  omega

theorem row_rowOn : p.row p.rowOn = p.line := by
  have hi : p.above.length + 1 - 25 + min p.above.length (25 - 1) = p.above.length := by omega
  unfold Page.row Page.rowOn rows
  rw [hi, List.getD_eq_getElem?_getD, List.getElem?_concat_length, Option.getD_some]

theorem row_put {ch : UInt8} :
    (p.put ch).row r = if r = p.wrapped.rowOn then p.wrapped.line ++ [ch] else p.wrapped.row r := by
  have hi : p.wrapped.above.length + 1 - 25 + r = p.wrapped.above.length ↔ r = p.wrapped.rowOn := by
    unfold Page.rowOn rows
    omega
  unfold Page.row Page.put rows
  dsimp only
  rw [getD_concat, getD_concat]
  by_cases hr : r = p.wrapped.rowOn
  · rw [if_pos (hi.mpr hr), if_pos hr]
  · rw [if_neg (mt hi.mp hr), if_neg hr, if_neg (mt hi.mp hr)]

/-- A character is shown behind the line. -/
theorem shown_put {ch : UInt8} : (p.put ch).shown r c =
    if r = p.wrapped.rowOn ∧ c = p.wrapped.line.length then ch else p.wrapped.shown r c := by
  unfold Page.shown
  rw [row_put]
  by_cases hr : r = p.wrapped.rowOn
  · rw [if_pos hr, getD_concat, hr, row_rowOn]
    split_ifs <;> simp_all
  · rw [if_neg hr, if_neg fun h => hr h.1]

end

/-! ### The terminal shows the page -/

/-- The terminal shows the page, with the cursor where the text goes on. The cursor may still be
behind the row above, when a row was begun. -/
structure Crt.Follows (s : Crt) (p : Page) : Prop where
  stat : s.astat.stat = .none
  shows : s.Shows p
  cursor : s.x.toNat = p.line.length ∧ s.y.toNat = p.rowOn ∨
    s.x.toNat = cols + 1 ∧ p.line.length = 1 ∧ s.y.toNat + 1 = p.above.length ∧
      p.above.length < rows

section

variable {s : Crt} {p : Page} {c : UInt8}

theorem rowOn_lt : p.rowOn < rows := by
  unfold Page.rowOn rows
  omega

/-- What `crt_lf` does to the cells, from behind the last row. -/
theorem wp_lf_cells (hy : s.y.toNat = rows) :
    wp lf (fun _ s' =>
      (s'.x = s.x ∧ s'.y.toNat = rows - 1 ∧ s'.attr = s.attr ∧ s'.astat = s.astat) ∧
      ∀ i < rows * cols, s'.buf i = if i < cols * (rows - 1) then s.buf (i + cols) else s.blank)
      (fun _ _ => False) s := by
  have hy' : (s.y - 1).toNat = rows - 1 := by
    rw [toNat_sub_one (by rw [hy]; decide), hy]
  rw [lf, wp_bind, wp_modify, wp_bind, wp_read]
  dsimp only
  rw [hy', if_neg (by decide), wp_bind, wp_modify]
  unfold fillCells
  rw [wp_ite, if_neg (by decide)]
  refine ⟨⟨rfl, hy', rfl, rfl⟩, fun i hi => ?_⟩
  dsimp only
  rw [hy']
  unfold rows cols at *
  by_cases hlt : i < 80 * (25 - 1)
  · rw [if_neg (by omega), if_pos hlt, if_pos hlt]
  · rw [if_pos (by omega), if_neg hlt]
    rfl

/-- The cursor goes down where there is a row left. -/
theorem wp_nextRow_down {Q : Unit → Crt → Prop} {E : Fault → Crt → Prop} (hx : s.x.toNat < cols)
    (hy : s.y.toNat + 1 < rows) : wp nextRow Q E s = Q () { s with y := s.y + 1 } := by
  have hadd := toNat_add_one (y := s.y) (by unfold rows at hy; omega)
  rw [nextRow, wp_bind, wp_modify, wp_bind, wp_read, wp_ite]
  unfold Crt.pos
  dsimp only
  rw [hadd, if_neg (by unfold rows cols at *; omega), wp_pure]

/-- The page goes on in a new row. -/
theorem wp_nextRow_page (hx : s.x.toNat < cols) (hy : s.y.toNat = p.rowOn) (h : s.Shows p) :
    wp nextRow (fun _ s' => s'.x = s.x ∧ s'.astat = s.astat ∧ s'.Shows p.newline ∧
      s'.y.toNat = p.newline.rowOn) (fun _ _ => False) s := by
  have hrow := @rowOn_lt p
  have hadd := toNat_add_one (y := s.y) (by unfold rows at hrow; omega)
  by_cases hlast : p.rowOn = rows - 1
  · rw [nextRow, wp_bind, wp_modify, wp_bind, wp_read, wp_ite]
    unfold Crt.pos
    dsimp only
    rw [hadd, hy, if_pos (by rw [hlast]; unfold rows cols; omega)]
    refine (@wp_lf_cells { s with y := s.y + 1 } ?_).mono (fun _ s' hlf => ?_) fun _ _ => id
    · show (s.y + 1).toNat = rows
      rw [hadd, hy, hlast]
      rfl
    obtain ⟨⟨hx', hy', hattr, hastat⟩, hbuf⟩ := hlf
    refine ⟨hx', hastat, fun r hr k hk => ?_, ?_⟩
    · rw [hbuf _ (by unfold rows cols at *; omega), hattr]
      unfold Page.shown
      rw [row_newline_last hlast]
      by_cases hlt : cols * r + k < cols * (rows - 1)
      · rw [if_pos hlt]
        have hcell := h (r + 1) (by unfold rows cols at *; omega) k hk
        rw [show cols * r + k + cols = cols * (r + 1) + k by rw [Nat.mul_succ]; omega]
        exact hcell
      · rw [if_neg hlt]
        have hbelow : p.row (r + 1) = [] := row_below (by unfold rows cols at *; omega)
        rw [hbelow]
        rfl
    · rw [hy', rowOn_newline, hlast]
      rfl
  · rw [wp_nextRow_down hx (by omega)]
    refine ⟨rfl, rfl, fun r hr k hk => ?_, ?_⟩
    · unfold Page.shown
      rw [row_newline (by omega)]
      exact h r hr k hk
    · show (s.y + 1).toNat = _
      rw [hadd, hy, rowOn_newline]
      omega

/-- A character that is not part of a sequence. -/
theorem putc_text (hstat : s.astat.stat = .none) (hc : c ≠ 27) : ∃ st : AnsiStat, st.stat = .none ∧
    ∀ Q E, wp (putc c) Q E s =
      wp wrap (fun _ s' => wp (putText c) Q E s') E { s with astat := st } := by
  have hnext (st : AnsiStat) (h : st.stat = .none) : (st.next c).stat = .none := by
    unfold AnsiStat.next
    simp [h, hc]
  have hswitch : (ansiStatSwitch s.astat c).stat = .none := by
    unfold ansiStatSwitch
    refine hnext _ ?_
    dsimp only
    split_ifs
    · rfl
    · exact hstat
  refine ⟨ansiStatSwitch s.astat c, hswitch, fun Q E => ?_⟩
  rw [putc, wp_bind, wp_modify, wp_bind, wp_read]
  dsimp only
  rw [hswitch]
  dsimp only
  rw [wp_bind]

/-- The cursor goes to where the text goes on. -/
theorem wp_wrap_page (h : s.Follows p) :
    wp wrap (fun _ s' => s'.Follows p ∧ s'.x.toNat ≤ cols) (fun _ _ => False) s := by
  rw [wrap, wp_bind, wp_read, wp_ite]
  rcases h.cursor with ⟨hx, hy⟩ | ⟨hx, hline, hy, habove⟩
  · have hok := p.ok
    rw [if_neg (by omega), wp_pure]
    exact ⟨h, by omega⟩
  · have hmod : (s.x % .ofNat cols).toNat = 1 := by
      rw [UInt16.toNat_mod, hx]
      rfl
    have hadd := toNat_add_one (y := s.y) (by unfold rows at habove; omega)
    rw [if_pos (by omega), wp_bind, wp_modify,
      wp_nextRow_down (by rw [hmod]; decide) (by rw [hy]; exact habove)]
    refine ⟨⟨h.stat, h.shows, .inl ⟨hmod.trans hline.symm, ?_⟩⟩, ?_⟩
    · show (s.y + 1).toNat = _
      rw [hadd, hy]
      unfold Page.rowOn
      omega
    · show (s.x % .ofNat cols).toNat ≤ cols
      rw [hmod]
      decide

/-- A cell behind the line is the character that comes next. -/
theorem shows_put {x : UInt16} (h : s.Shows p.wrapped) (hc : c ≤ 126) :
    ({ s with
      buf := fun i => if cols * p.wrapped.rowOn + p.wrapped.line.length ≤ i ∧
        i < cols * p.wrapped.rowOn + p.wrapped.line.length + 1 then s.cell c else s.buf i
      x := x } : Crt).Shows (p.put c) := by
  intro r hr k hk
  have hline := p.wrapped_lt
  rw [shown_put]
  dsimp only
  unfold cols at *
  by_cases hcell : r = p.wrapped.rowOn ∧ k = p.wrapped.line.length
  · have hlt : c < 128 := Nat.lt_of_le_of_lt (UInt8.le_iff_toNat_le.mp hc) (by decide)
    rw [if_pos (by omega), if_pos hcell]
    unfold Crt.cell
    rw [if_pos hlt]
  · rw [if_neg (by omega), if_neg hcell]
    exact h r hr k hk

/-- With rows left, the screen shows the page with a row for a character. -/
theorem shows_wrapped (h : s.Shows p) (hroom : ¬(p.line.length = cols ∧ p.rowOn = rows - 1)) :
    s.Shows p.wrapped := by
  have hrow := @rowOn_lt p
  unfold Page.wrapped
  split_ifs with hfull
  · intro r hr k hk
    unfold Page.shown
    rw [row_newline (by omega)]
    exact h r hr k hk
  · exact h

theorem wp_putText_page (h : s.Follows p) (hx : s.x.toNat ≤ cols) (hc : 32 ≤ c ∧ c ≤ 126) :
    wp (putText c) (fun _ s' => ¬(p.line.length = cols ∧ p.rowOn = rows - 1) ∧ s'.Follows (p.put c))
      (fun _ _ => p.line.length = cols ∧ p.rowOn = rows - 1) s := by
  have hcursor : s.x.toNat = p.line.length ∧ s.y.toNat = p.rowOn :=
    h.cursor.resolve_right fun hlate => by omega
  have hne (d : UInt8) (hd : d < 32) : c ≠ d := by
    rintro rfl
    exact absurd hc.1 (UInt8.not_le.mpr hd)
  obtain ⟨hx', hy'⟩ := hcursor
  rw [putText, wp_bind, wp_read, if_neg (hne 10 (by decide)), if_neg (hne 13 (by decide)),
    if_neg (hne 8 (by decide)), if_neg (hne 9 (by decide)), wp_bind]
  unfold fillCells
  rw [wp_ite]
  by_cases hroom : p.line.length = cols ∧ p.rowOn = rows - 1
  · rw [if_pos (by unfold Crt.pos rows cols at *; omega)]
    exact hroom
  · have hrow := @rowOn_lt p
    rw [if_neg (by unfold Crt.pos rows cols at *; omega), wp_modify, wp_modify]
    have hadd := toNat_add_one (y := s.x) (by unfold cols at hx; omega)
    have hpos : s.pos = cols * p.wrapped.rowOn + p.wrapped.line.length := by
      unfold Crt.pos Page.wrapped
      split_ifs with hfull
      · rw [rowOn_newline, hx', hy', hfull, Nat.min_eq_left (by omega)]
        exact (Nat.mul_succ _ _).symm
      · rw [hx', hy']
    refine ⟨hroom, h.stat, ?_, ?_⟩
    · rw [hpos]
      exact shows_put (shows_wrapped h.shows hroom) hc.2
    · show (s.x + 1).toNat = _ ∧ _ ∨ (s.x + 1).toNat = _ ∧ _
      rw [hadd, hx', show (p.put c).line.length = p.wrapped.line.length + 1 from List.length_append]
      unfold Page.put Page.wrapped
      split_ifs with hfull
      · right
        rw [above_newline]
        unfold Page.rowOn rows at *
        exact ⟨by omega, rfl, by show s.y.toNat + 1 = _; omega, by omega⟩
      · exact .inl ⟨rfl, hy'⟩

/-- A character: it is shown, or lost behind the last row. -/
theorem wp_putc_char (h : s.Follows p) (hc : 32 ≤ c ∧ c ≤ 126) :
    wp (putc c) (fun _ s' => ¬(p.line.length = cols ∧ p.rowOn = rows - 1) ∧ s'.Follows (p.put c))
      (fun _ _ => p.line.length = cols ∧ p.rowOn = rows - 1) s := by
  have hesc : c ≠ 27 := by
    rintro rfl
    exact absurd hc.1 (by decide)
  obtain ⟨st, hst, hwp⟩ := putc_text h.stat hesc
  rw [hwp]
  exact (wp_wrap_page (s := { s with astat := st }) ⟨hst, h.shows, h.cursor⟩).mono
    (fun _ s' hs' => wp_putText_page hs'.1 hs'.2 hc) fun _ _ => False.elim

/-- CR. -/
theorem wp_putc_return (h : s.Follows p) :
    wp (putc 13) (fun _ s' => s'.astat.stat = .none ∧ s'.Shows p ∧
    s'.x.toNat = 0 ∧ s'.y.toNat = p.rowOn) (fun _ _ => False) s := by
  obtain ⟨st, hst, hwp⟩ := putc_text h.stat (c := 13) (by decide)
  rw [hwp]
  refine (wp_wrap_page (s := { s with astat := st }) ⟨hst, h.shows, h.cursor⟩).mono
    (fun _ s' hs' => ?_) fun _ _ => False.elim
  have hcursor := hs'.1.cursor.resolve_right fun hlate => by
    have hle := hs'.2
    omega
  exact ⟨hs'.1.stat, hs'.1.shows, rfl, hcursor.2⟩

/-- LF behind CR. -/
theorem wp_putc_feed (hstat : s.astat.stat = .none) (h : s.Shows p) (hx : s.x.toNat = 0)
    (hy : s.y.toNat = p.rowOn) :
    wp (putc 10) (fun _ s' => s'.Follows p.newline) (fun _ _ => False) s := by
  obtain ⟨st, hst, hwp⟩ := putc_text hstat (c := 10) (by decide)
  rw [hwp, wrap, wp_bind, wp_read, wp_ite, if_neg (by rw [hx]; decide), wp_pure]
  refine (wp_nextRow_page (s := { s with astat := st }) (by rw [hx]; decide) hy h).mono
    (fun _ s' hs' => ?_) fun _ _ => id
  obtain ⟨hx', hstat', hshows, hy'⟩ := hs'
  refine ⟨by rw [hstat']; exact hst, hshows, .inl ⟨?_, hy'⟩⟩
  rw [hx']
  exact hx

/-- There is room for a character when it is not lost, and for those behind it. -/
theorem room_char {ok : 32 ≤ c ∧ c ≤ 126} {ps : List Piece} :
    room p.rowOn p.line.length (.char c ok :: ps) = true ↔
    ¬(p.line.length = cols ∧ p.rowOn = rows - 1) ∧
      room (p.put c).rowOn (p.put c).line.length ps = true := by
  have hlen : (p.put c).line.length = p.wrapped.line.length + 1 := List.length_append
  have hrow : (p.put c).rowOn = p.wrapped.rowOn := rfl
  have hlt := @rowOn_lt p
  rw [hlen, hrow, room, Page.wrapped]
  by_cases hfull : p.line.length = cols
  · rw [if_pos hfull, if_pos hfull, rowOn_newline]
    by_cases hlast : p.rowOn = rows - 1
    · simp [hfull, hlast]
    · rw [Nat.min_eq_left (by omega)]
      simp [hlast, Page.newline]
  · simp [hfull]

/-- The pieces are shown, or a character is lost. -/
theorem putAll_pieces {ps : List Piece} (h : s.Follows p) :
    wp (putAll (ps.flatMap Piece.chars))
      (fun _ s' => room p.rowOn p.line.length ps = true ∧ s'.Follows (ps.foldl Page.add p))
      (fun _ _ => ¬room p.rowOn p.line.length ps = true) s := by
  induction ps generalizing s p with
  | nil => exact ⟨rfl, h⟩
  | cons piece ps ih =>
    cases piece with
    | char c ok =>
      show wp (putc c >>= fun _ => putAll (ps.flatMap Piece.chars)) _ _ s
      rw [wp_bind]
      rw [room_char]
      refine (wp_putc_char h ok).mono (fun _ s' hs' => ?_) fun _ s' hlost hroom => hroom.1 hlost
      exact (ih hs'.2).mono (fun _ _ hall => ⟨⟨hs'.1, hall.1⟩, hall.2⟩) fun _ _ hnot hroom =>
        hnot hroom.2
    | newline =>
      show wp (putc 13 >>= fun _ => putc 10 >>= fun _ => putAll (ps.flatMap Piece.chars)) _ _ s
      rw [wp_bind]
      refine (wp_putc_return h).mono (fun _ s' hs' => ?_) fun _ _ => False.elim
      rw [wp_bind]
      obtain ⟨hstat, hshows, hx, hy⟩ := hs'
      refine (wp_putc_feed hstat hshows hx hy).mono (fun _ s' hs' => ?_) fun _ _ => False.elim
      have hrest := ih hs'
      rw [rowOn_newline] at hrest
      exact hrest

theorem follows_cleared (h : s.Cleared) : s.Follows .cleared := by
  refine ⟨h.stat, fun r hr k hk => ?_, .inl ⟨?_, ?_⟩⟩
  · have hrow : Page.cleared.row r = [] := getD_concat_nil [] _
    unfold Page.shown
    rw [h.blank _ (by unfold rows cols at *; omega), hrow]
    rfl
  · rw [h.x]
    rfl
  · rw [h.y]
    rfl

/-- What is put on a cleared screen is shown while there is room for it. -/
theorem putAll_shows (h : s.Cleared) (ps : List Piece) :
    wp (putAll (ps.flatMap Piece.chars))
      (fun _ s' => room 0 0 ps = true ∧ s'.Shows (ps.foldl Page.add .cleared))
      (fun _ _ => ¬room 0 0 ps = true) s :=
  (@putAll_pieces s .cleared ps (follows_cleared h)).mono (fun _ _ hs => ⟨hs.1, hs.2.shows⟩)
    fun _ _ => id

theorem room_of_putAll (h : s.Cleared) {ps : List Piece} {s' : Crt}
    (hrun : putAll (ps.flatMap Piece.chars) s = .ok () s') : room 0 0 ps = true :=
  ((putAll_shows h ps).ok hrun).1

/-- **From a cleared screen, printable characters and CR LF pairs are put on the screen as the
page shows them exactly when none of them comes behind the end of the last row.** -/
theorem screen_iff (h : s.Cleared) (ps : List Piece) :
    (∃ s', putAll (ps.flatMap Piece.chars) s = .ok () s' ∧ s'.Shows (ps.foldl Page.add .cleared)) ↔
      room 0 0 ps = true := by
  refine ⟨fun ⟨s', hrun, _⟩ => room_of_putAll h hrun, fun hroom => ?_⟩
  have hwp := putAll_shows h ps
  unfold wp at hwp
  cases hrun : putAll (ps.flatMap Piece.chars) s with
  | ok a s' =>
    rw [hrun] at hwp
    exact ⟨s', rfl, hwp.2⟩
  | halt e s' =>
    rw [hrun] at hwp
    exact absurd hroom hwp

end

/-- A cleared screen, in the default colours. -/
def blankScreen : Crt := ⟨fun _ => 0x720, defAttr, 0, 0, .zero⟩

theorem cleared_blankScreen : blankScreen.Cleared := ⟨rfl, rfl, rfl, fun _ _ => rfl⟩

/-- 23 pairs, 81 characters, of which one is wrapped to the last row, and a row below. -/
def wrappedLine : List Piece :=
  List.replicate 23 .newline ++ List.replicate 81 (.char 97 (by decide)) ++ [.newline,
    .char 98 (by decide)]

/-- The text is wrapped, the screen scrolls, and all of it is shown. -/
theorem screen_iff_wrapped : (wrappedLine.foldl Page.add .cleared).above.length = rows ∧
    ∃ s', putAll (wrappedLine.flatMap Piece.chars) blankScreen = .ok () s' ∧
      s'.Shows (wrappedLine.foldl Page.add .cleared) :=
  ⟨by decide +kernel, (screen_iff cleared_blankScreen wrappedLine).mpr (by decide +kernel)⟩

/-- 24 pairs, and 81 characters in the last row. -/
def longLine : List Piece := List.replicate 24 .newline ++ List.replicate 81 (.char 97 (by decide))

/-- The 81st character of the last row is lost. -/
theorem not_screen : ¬∀ (s : Crt) (ps : List Piece), s.Cleared →
    ∃ s', putAll (ps.flatMap Piece.chars) s = .ok () s' ∧
      s'.Shows (ps.foldl Page.add .cleared) := by
  intro h
  obtain ⟨s', hrun, -⟩ := h blankScreen longLine cleared_blankScreen
  exact absurd (room_of_putAll cleared_blankScreen hrun) (by decide +kernel)

end Cosiris.Terminal
