import Mathlib.Data.List.Basic
import Mathlib.Tactic.Basic

/-!
# The tokens of the shell

`get_token` of `bin/cosh.c`. A line is the list of its characters before the NUL. Behind a quote
that is not closed the cursor is moved past the NUL, where it is not known what is read.

What `get_token` leaves in the buffer and at the cursor when it returns -1 is not used by its
callers, and is left out. -/

namespace Cosiris.Shell

/-- Characters. -/
abbrev Text := List UInt8

/-- `MAX_TOKEN_SZ`. -/
def maxTokenSz : ℕ := 512

/-- `is_space`. -/
def isSpace (c : UInt8) : Bool := c = 32 || c = 9 || c = 13 || c = 10

/-- `is_symbol`. -/
def isSymbol (c : UInt8) : Bool := c = 60 || c = 62 || c = 124 || c = 59 || c = 34

/-- How `get_token` ends. -/
inductive Got
  /-- It returns -1. -/
  | none
  /-- It returns 0, with a token, and the cursor is at what follows. -/
  | token (tok ptr : Text)
  /-- The cursor is past the NUL. -/
  | past
  /-- There is a write outside of the token. -/
  | bounds
  deriving DecidableEq

/-- The NUL is written behind the token, and the cursor moves to `p`. -/
def finish (tok p : Text) : Got :=
  if maxTokenSz ≤ tok.length then .bounds
  else if p = [] then .none else .token tok p

/-- The loop of `get_token` behind a quote. -/
def quoted (tok : Text) : Text → Got
  | [] => if tok.length = maxTokenSz then .none else .past
  | c :: p =>
    if c = 34 then if tok.length = maxTokenSz then .none else finish tok p
    else if tok.length = maxTokenSz then .none
    else if maxTokenSz ≤ tok.length then .bounds
    else quoted (tok ++ [c]) p

/-- The loop of `get_token` over a bare word. -/
def bare (tok : Text) : Text → Got
  | [] => finish tok []
  | c :: p =>
    if isSpace c ∨ isSymbol c then finish tok (c :: p)
    else if maxTokenSz ≤ tok.length then .bounds
    else if (tok ++ [c]).length = maxTokenSz then .none
    else bare (tok ++ [c]) p

/-- `get_token`. -/
def getToken (buf : Text) : Got :=
  match buf.dropWhile isSpace with
  | [] => .none
  | c :: p =>
    if isSymbol c then
      if c = 62 then if p.head? = some 62 then finish [62, 62] p.tail else finish [62] p
      else if c = 34 then quoted [] p
      else finish [c] p
    else bare [] (c :: p)

/-! ### Lexemes -/

/-- What a line begins with. A token at its end does not count: a line ends with a newline. -/
inductive Lexeme
  | none
  | token (t rest : Text)
  /-- A quote that is not closed. -/
  | opened

/-- A token, with what follows it. -/
def Lexeme.of (t rest : Text) : Lexeme := if rest = [] then .none else .token t rest

/-- A character of a bare word. -/
def isBare (c : UInt8) : Bool := !isSpace c && !isSymbol c

/-- What a line begins with, behind blanks. -/
def lexeme (s : Text) : Lexeme :=
  match s.dropWhile isSpace with
  | [] => .none
  | c :: s =>
    if c = 34 then
      if 34 ∈ s then .of (s.takeWhile (· ≠ 34)) (s.dropWhile (· ≠ 34)).tail else .opened
    else if c = 62 ∧ s.head? = some 62 then .of [62, 62] s.tail
    else if isSymbol c then .of [c] s
    else .of (c :: s.takeWhile isBare) (s.dropWhile isBare)

/-- What `get_token` makes of a lexeme. -/
def Lexeme.got : Lexeme → Got
  | .none => .none
  | .token t rest => .token t rest
  | .opened => .past

section

variable {tok p : Text}

theorem finish_eq (h : tok.length < maxTokenSz) : finish tok p = (Lexeme.of tok p).got := by
  unfold finish Lexeme.of
  rw [if_neg (Nat.not_le.mpr h)]
  split_ifs <;> rfl

theorem quoted_eq (h : tok.length + p.length < maxTokenSz) : quoted tok p =
    (if 34 ∈ p then Lexeme.of (tok ++ p.takeWhile (· ≠ 34)) (p.dropWhile (· ≠ 34)).tail
      else .opened).got := by
  induction p generalizing tok with
  | nil =>
    have hne : ¬tok.length = maxTokenSz := by
      rw [List.length_nil] at h
      omega
    unfold quoted
    rw [if_neg hne, if_neg List.not_mem_nil]
    rfl
  | cons c p ih =>
    rw [List.length_cons] at h
    have hne : ¬tok.length = maxTokenSz := by omega
    unfold quoted
    by_cases hc : c = 34
    · subst hc
      rw [if_pos rfl, if_neg hne, finish_eq (by omega), if_pos List.mem_cons_self]
      simp
    · rw [if_neg hc, if_neg hne, if_neg (by omega),
        ih (by rw [List.length_append, List.length_singleton]; omega)]
      simp [hc, Ne.symm hc]

theorem bare_eq (h : tok.length + p.length < maxTokenSz) :
    bare tok p = (Lexeme.of (tok ++ p.takeWhile isBare) (p.dropWhile isBare)).got := by
  induction p generalizing tok with
  | nil =>
    unfold bare
    rw [finish_eq h]
    simp
  | cons c p ih =>
    rw [List.length_cons] at h
    unfold bare
    by_cases hc : isSpace c = true ∨ isSymbol c = true
    · have hbare : isBare c = false := by
        unfold isBare
        rcases hc with hc | hc <;> simp [hc]
      rw [if_pos hc, finish_eq (by omega)]
      simp [hbare]
    · have hbare : isBare c = true := by
        obtain ⟨hspace, hsym⟩ := not_or.mp hc
        unfold isBare
        simp [hspace, hsym]
      have hlen : (tok ++ [c]).length = tok.length + 1 := by simp
      rw [if_neg hc, if_neg (by omega), if_neg (by omega), ih (by omega)]
      simp [hbare]

end

/-- No blank comes behind the blanks. -/
theorem space_of_dropWhile {s p : Text} {c : UInt8} (hs : s.dropWhile isSpace = c :: p) :
    isSpace c = false := by
  have hnot := List.head?_dropWhile_not isSpace s
  rw [hs] at hnot
  simpa using hnot

/-- `get_token` of a line that is shorter than the token takes what the line begins with. -/
theorem getToken_eq {s : Text} (h : s.length < maxTokenSz) : getToken s = (lexeme s).got := by
  have hlen := (List.dropWhile_suffix isSpace (l := s)).length_le
  unfold getToken lexeme
  cases hs : s.dropWhile isSpace with
  | nil => rfl
  | cons c p =>
    rw [hs, List.length_cons] at hlen
    dsimp only
    by_cases hquote : c = 34
    · subst hquote
      rw [if_pos (by decide), if_neg (by decide), if_pos rfl, if_pos rfl,
        quoted_eq (by rw [List.length_nil]; omega)]
      rfl
    · rw [if_neg hquote, if_neg hquote]
      by_cases hsym : isSymbol c = true
      · rw [if_pos hsym, if_pos hsym]
        by_cases hgt : c = 62
        · subst hgt
          rw [if_pos rfl]
          by_cases happend : p.head? = some 62
          · rw [if_pos happend, if_pos ⟨rfl, happend⟩, finish_eq (by decide)]
          · rw [if_neg happend, if_neg fun h => happend h.2, finish_eq (by decide)]
        · rw [if_neg hgt, if_neg fun h => hgt h.1, @finish_eq [c] p (show 1 < 512 by decide)]
      · have hspace := space_of_dropWhile hs
        have hbare : isBare c = true := by
          unfold isBare
          simp [hspace, hsym]
        have hgt : c ≠ 62 := by
          rintro rfl
          exact hsym (by decide)
        rw [if_neg hsym, if_neg hsym, if_neg fun h => hgt h.1,
          bare_eq (by rw [List.length_nil, List.length_cons]; omega)]
        simp [hbare]

/-! ### The tokens of a line -/

section

variable {s tok t p ptr rest : Text}

theorem of_token (h : Lexeme.of t p = .token tok rest) : tok = t ∧ rest = p := by
  unfold Lexeme.of at h
  split_ifs at h
  exact ⟨(Lexeme.token.inj h).1.symm, (Lexeme.token.inj h).2.symm⟩

/-- What follows a lexeme is shorter. -/
theorem lexeme_lt (h : lexeme s = .token t rest) : rest.length < s.length := by
  have hlen := (List.dropWhile_suffix isSpace (l := s)).length_le
  unfold lexeme at h
  cases hs : s.dropWhile isSpace with
  | nil =>
    rw [hs] at h
    exact absurd h nofun
  | cons c p =>
    rw [hs] at h
    rw [hs, List.length_cons] at hlen
    dsimp only at h
    have hquote := (List.dropWhile_suffix (fun c => decide (c ≠ 34)) (l := p)).length_le
    have hbare := (List.dropWhile_suffix isBare (l := p)).length_le
    have htail := List.length_tail (l := p)
    have htail' := List.length_tail (l := p.dropWhile (fun c => decide (c ≠ 34)))
    split_ifs at h <;> obtain ⟨-, rfl⟩ := of_token h <;> omega

/-- The tokens of a line, and whether there is a quote behind them that is not closed. -/
def tokens (s : Text) : List Text × Bool :=
  match _h : lexeme s with
  | .none => ([], false)
  | .opened => ([], true)
  | .token t rest => (t :: (tokens rest).1, (tokens rest).2)
termination_by s.length
decreasing_by all_goals exact lexeme_lt _h

theorem tokens_none (h : lexeme s = .none) : tokens s = ([], false) := by
  rw [tokens]
  split <;> simp_all

theorem tokens_opened (h : lexeme s = .opened) : tokens s = ([], true) := by
  rw [tokens]
  split <;> simp_all

theorem tokens_token (h : lexeme s = .token t rest) :
    tokens s = (t :: (tokens rest).1, (tokens rest).2) := by
  rw [tokens]
  split <;> simp_all

theorem finish_token (h : finish tok p = .token t ptr) : ptr = p := by
  unfold finish at h
  split_ifs at h
  exact (Got.token.inj h).2.symm

theorem quoted_lt (h : quoted tok p = .token t ptr) : ptr.length ≤ p.length := by
  induction p generalizing tok with
  | nil =>
    unfold quoted at h
    split_ifs at h
  | cons c p ih =>
    unfold quoted at h
    split_ifs at h
    · rw [finish_token h]
      exact Nat.le_succ _
    · exact Nat.le_trans (ih h) (Nat.le_succ _)

theorem bare_lt (h : bare tok p = .token t ptr) : ptr.length ≤ p.length := by
  induction p generalizing tok with
  | nil => exact Nat.le_of_eq (congrArg List.length (finish_token h))
  | cons c p ih =>
    unfold bare at h
    split_ifs at h
    · exact Nat.le_of_eq (congrArg List.length (finish_token h))
    · exact Nat.le_trans (ih h) (Nat.le_succ _)

/-- `get_token` moves the cursor when it returns 0. -/
theorem getToken_lt (h : getToken s = .token t ptr) : ptr.length < s.length := by
  have hlen := (List.dropWhile_suffix isSpace (l := s)).length_le
  unfold getToken at h
  cases hs : s.dropWhile isSpace with
  | nil =>
    rw [hs] at h
    exact absurd h nofun
  | cons c p =>
    rw [hs] at h
    rw [hs, List.length_cons] at hlen
    dsimp only at h
    have htail := List.length_tail (l := p)
    split_ifs at h with hsym hgt happend hquote
    · rw [finish_token h]
      omega
    · rw [finish_token h]
      omega
    · have hle := quoted_lt h
      omega
    · rw [finish_token h]
      omega
    · have hbare : ¬(isSpace c = true ∨ isSymbol c = true) :=
        not_or.mpr ⟨by rw [space_of_dropWhile hs]; decide, hsym⟩
      unfold bare at h
      rw [if_neg hbare] at h
      split_ifs at h
      have hle := bare_lt h
      omega

end

end Cosiris.Shell
