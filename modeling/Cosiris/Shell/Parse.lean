import Cosiris.Shell.Tokens
import Mathlib.Data.Int.Notation
import Mathlib.Logic.Function.Basic

/-!
# The parser of the shell

`parse` of `bin/cosh.c`. The commands are a list: those before the last one, and the last one, which
`parse` is at. `cmd_new` and `strdup` write through what the allocator gives them and look at
nothing, so an allocation that there is no memory for ends `parse`.
-/

namespace Cosiris.Shell

open Function

/-- `MAX_ARGV`. -/
def maxArgv : ℕ := 16

/-- `struct cmd`, as far as `parse` fills it. -/
structure Cmd where
  argc : ℕ
  argv : ℕ → Option Text
  outfile : Option Text
  infile : Option Text
  append : Bool
  doPipe : Bool

/-- What `calloc` gives. -/
def Cmd.new : Cmd := ⟨0, fun _ => none, none, none, false, false⟩

/-- The variables of `parse`, and the number of allocations so far. -/
structure State where
  ptr : Text
  done : List Cmd
  cmd : Option Cmd
  allocs : ℕ

/-- The commands from `head` on. -/
def State.list (s : State) : List Cmd := s.done ++ s.cmd.toList

/-- A turn of the loop of `parse`: the next state, or what is returned with the list. A read behind
the NUL, a write outside of the token and a write where there is no memory are the other ends. -/
inductive Turn
  | next (s : State)
  | returns (code : ℤ) (list : List Cmd)
  | past
  | bounds
  | null

section

variable (mem : ℕ → Bool)

/-- `get_token` on the cursor. -/
def withToken (s : State) (fail : Turn) (go : Text → State → Turn) : Turn :=
  match getToken s.ptr with
  | .none => fail
  | .token tok ptr => go tok { s with ptr := ptr }
  | .past => .past
  | .bounds => .bounds

/-- `strdup`. `strcpy` writes through what `malloc` gives. -/
def strdup (s : State) (t : Text) (go : Text → State → Turn) : Turn :=
  if mem s.allocs then go t { s with allocs := s.allocs + 1 } else .null

/-- `cmd_new`. -/
def cmdNew (s : State) (go : Cmd → State → Turn) : Turn :=
  if mem s.allocs then go .new { s with allocs := s.allocs + 1 } else .null

/-- The end of a command, and the next one. -/
def separate (s : State) (cmd : Cmd) : Turn :=
  let cmd := { cmd with argv := update cmd.argv cmd.argc none }
  cmdNew mem s fun new s => .next { s with done := s.done ++ [cmd], cmd := some new }

/-- The branch for a symbol. -/
def symbol (s : State) (tok : Text) : Turn :=
  match s.cmd with
  | none => .returns (-1) s.list
  | some cmd =>
    if tok.headD 0 = 62 then
      let cmd := if tok.getD 1 0 = 62 then { cmd with append := true } else cmd
      withToken s (.returns (-1) { s with cmd := some cmd }.list) fun tok s =>
        strdup mem s tok fun file s =>
          .next { s with cmd := some { cmd with outfile := some file } }
    else if tok.headD 0 = 60 then
      withToken s (.returns (-1) s.list) fun tok s =>
        strdup mem s tok fun file s => .next { s with cmd := some { cmd with infile := some file } }
    else if tok.headD 0 = 124 then
      withToken s (.returns (-1) s.list) fun _ _ => separate mem s { cmd with doPipe := true }
    else separate mem s cmd

/-- A word of a command. -/
def word (s : State) (cmd : Cmd) (tok : Text) : Turn :=
  if maxArgv ≤ cmd.argc + 1 then .returns (-1) { s with cmd := some cmd }.list
  else
    strdup mem s tok fun arg s =>
      let argv := update cmd.argv cmd.argc (some arg)
      .next { s with cmd := some { cmd with argv := argv, argc := cmd.argc + 1 } }

/-- A turn of the loop. -/
def turn (s : State) : Turn :=
  withToken s (.returns 0 s.list) fun tok s =>
    if isSymbol (tok.headD 0) then symbol mem s tok
    else match s.cmd with
      | none => cmdNew mem s fun new s => word mem s new tok
      | some cmd => word mem s cmd tok

variable {mem} {s s' : State} {fail : Turn} {go : Text → State → Turn}

theorem withToken_next (h : withToken s fail go = .next s') (hfail : ∀ t, fail ≠ .next t) :
    ∃ tok ptr, ptr.length < s.ptr.length ∧ go tok { s with ptr := ptr } = .next s' := by
  unfold withToken at h
  cases htok : getToken s.ptr with
  | token tok ptr =>
    rw [htok] at h
    exact ⟨tok, ptr, getToken_lt htok, h⟩
  | none =>
    rw [htok] at h
    exact absurd h (hfail s')
  | past | bounds =>
    rw [htok] at h
    exact absurd h nofun

theorem strdup_next {tok : Text} (h : strdup mem s tok go = .next s') :
    go tok { s with allocs := s.allocs + 1 } = .next s' := by
  unfold strdup at h
  split_ifs at h
  exact h

theorem separate_next {cmd : Cmd} (h : separate mem s cmd = .next s') : s'.ptr = s.ptr := by
  unfold separate cmdNew at h
  dsimp only at h
  split_ifs at h
  exact (congrArg State.ptr (Turn.next.inj h)).symm

theorem word_next {cmd : Cmd} {tok : Text} (h : word mem s cmd tok = .next s') :
    s'.ptr = s.ptr := by
  unfold word at h
  split_ifs at h
  exact (congrArg State.ptr (Turn.next.inj (strdup_next h))).symm

theorem symbol_next {tok : Text} (h : symbol mem s tok = .next s') :
    s'.ptr.length ≤ s.ptr.length := by
  unfold symbol at h
  cases hcmd : s.cmd with
  | none =>
    rw [hcmd] at h
    exact absurd h nofun
  | some cmd =>
    rw [hcmd] at h
    dsimp only at h
    by_cases hout : tok.headD 0 = 62
    · rw [if_pos hout] at h
      obtain ⟨tok, ptr, hlt, hgo⟩ := withToken_next h nofun
      rw [← Turn.next.inj (strdup_next hgo)]
      exact Nat.le_of_lt hlt
    · rw [if_neg hout] at h
      split_ifs at h
      · obtain ⟨tok, ptr, hlt, hgo⟩ := withToken_next h nofun
        rw [← Turn.next.inj (strdup_next hgo)]
        exact Nat.le_of_lt hlt
      · obtain ⟨tok, ptr, hlt, hgo⟩ := withToken_next h nofun
        exact Nat.le_of_eq (congrArg List.length (separate_next hgo))
      · exact Nat.le_of_eq (congrArg List.length (separate_next h))

/-- A turn takes a token. -/
theorem turn_next (h : turn mem s = .next s') : s'.ptr.length < s.ptr.length := by
  obtain ⟨tok, ptr, hlt, hgo⟩ := withToken_next h nofun
  dsimp only at hgo
  split_ifs at hgo
  · exact Nat.lt_of_le_of_lt (symbol_next hgo) hlt
  · cases hcmd : s.cmd with
    | none =>
      rw [hcmd] at hgo
      unfold cmdNew at hgo
      split_ifs at hgo
      rw [word_next hgo]
      exact hlt
    | some cmd =>
      rw [hcmd] at hgo
      rw [word_next hgo]
      exact hlt

end

/-- How `parse` ends. -/
inductive Result
  | returns (code : ℤ) (list : List Cmd)
  | past
  | bounds
  | null

/-- The loop of `parse`. -/
def parseLoop (mem : ℕ → Bool) (s : State) : Result :=
  match _h : turn mem s with
  | .next s' => parseLoop mem s'
  | .returns code list => .returns code list
  | .past => .past
  | .bounds => .bounds
  | .null => .null
termination_by s.ptr.length
decreasing_by exact turn_next _h

/-- `parse`, with no command at `*h`. -/
def parse (mem : ℕ → Bool) (buf : Text) : Result := parseLoop mem ⟨buf, [], none, 0⟩

/-! ### Commands -/

/-- A command. -/
structure Command where
  words : List Text
  outfile : Option Text
  infile : Option Text
  append : Bool
  pipe : Bool
  deriving DecidableEq

/-- A command without anything. -/
def Command.fresh : Command := ⟨[], none, none, false, false⟩

/-- What the tokens of a line are: they are rejected, or they are commands. Or another token is
looked for behind a quote that is not closed, or there is no memory for a command, a word or the
name of a file. -/
inductive Verdict
  | rejected
  | opened
  | null
  | commands (cs : List Command)

/-- The verdict where there is no other token. -/
def Verdict.missing (isOpen : Bool) : Verdict := if isOpen then .opened else .rejected

section

variable (mem : ℕ → Bool) (isOpen : Bool)

/-- The commands that tokens make, behind some commands and with the one that they go on with. -/
def assemble (done : List Command) : Option Command → ℕ → List Text → Verdict
  | cur, _, [] => if isOpen then .opened else .commands (done ++ cur.toList)
  | none, k, t :: ts =>
    if isSymbol (t.headD 0) then .rejected
    else if mem k && mem (k + 1) then
      assemble done (some { Command.fresh with words := [t] }) (k + 1 + 1) ts
    else .null
  | some c, k, t :: ts =>
    if isSymbol (t.headD 0) then
      if t.headD 0 = 62 ∨ t.headD 0 = 60 then
        match ts with
        | [] => .missing isOpen
        | file :: ts =>
          if mem k then
            let append := c.append || t.getD 1 0 = 62
            let new :=
              if t.headD 0 = 62 then { c with outfile := some file, append := append }
              else { c with infile := some file }
            assemble done (some new) (k + 1) ts
          else .null
      else if t.headD 0 = 124 ∧ ts = [] then .missing isOpen
      else if mem k then
        let pipe := c.pipe || t.headD 0 = 124
        assemble (done ++ [{ c with pipe := pipe }]) (some .fresh) (k + 1) ts
      else .null
    else if maxArgv ≤ c.words.length + 1 then .rejected
    else if mem k then assemble done (some { c with words := c.words ++ [t] }) (k + 1) ts
    else .null

end

/-! ### The parser makes the commands -/

/-- The record of a command. -/
def Command.cmd (c : Command) : Cmd :=
  ⟨c.words.length, fun i => c.words[i]?, c.outfile, c.infile, c.append, c.pipe⟩

/-- What `parse` returns for a line. -/
def Verdict.Is : Verdict → Result → Prop
  | .rejected, r => ∃ list, r = .returns (-1) list
  | .opened, r => r = .past
  | .null, r => r = .null
  | .commands cs, r => r = .returns 0 (cs.map Command.cmd)

theorem cmd_fresh : Command.fresh.cmd = .new := by
  unfold Command.cmd Command.fresh Cmd.new
  simp

/-- A word behind the words. -/
theorem cmd_word (c : Command) (t : Text) : ({ c with words := c.words ++ [t] } : Command).cmd =
    { c.cmd with argv := update c.cmd.argv c.cmd.argc (some t), argc := c.cmd.argc + 1 } := by
  unfold Command.cmd
  dsimp only
  congr 1
  · simp
  · funext i
    by_cases hi : i = c.words.length
    · subst hi
      simp
    · rw [update_of_ne hi]
      by_cases hlt : i < c.words.length
      · rw [List.getElem?_append_left hlt]
      · rw [List.getElem?_eq_none (by simp; omega), List.getElem?_eq_none (by omega)]

/-- The place behind the words is clear. -/
theorem cmd_close (c : Command) :
    { c.cmd with argv := update c.cmd.argv c.cmd.argc none } = c.cmd := by
  have hnone : c.cmd.argv c.cmd.argc = none := by simp [Command.cmd]
  rw [← hnone, update_eq_self]

section

variable {mem : ℕ → Bool}

theorem separate_eq (s : State) (c : Command) : separate mem s c.cmd =
    if mem s.allocs then
      .next { s with
        done := s.done ++ [c.cmd]
        cmd := some Command.fresh.cmd
        allocs := s.allocs + 1 }
    else .null := by
  unfold separate cmdNew
  dsimp only
  rw [cmd_close, cmd_fresh]

theorem word_eq (s : State) (c : Command) (t : Text) : word mem s c.cmd t =
    if maxArgv ≤ c.words.length + 1 then .returns (-1) { s with cmd := some c.cmd }.list
    else if mem s.allocs then
      .next { s with
        cmd := some ({ c with words := c.words ++ [t] } : Command).cmd
        allocs := s.allocs + 1 }
    else .null := by
  unfold word strdup
  rw [cmd_word]
  rfl

theorem parseLoop_next {s s' : State} (h : turn mem s = .next s') :
    parseLoop mem s = parseLoop mem s' := by
  rw [parseLoop]
  split <;> simp_all

theorem parseLoop_returns {s : State} {code : ℤ} {list : List Cmd}
    (h : turn mem s = .returns code list) :
    parseLoop mem s = .returns code list := by
  rw [parseLoop]
  split <;> simp_all

theorem parseLoop_past {s : State} (h : turn mem s = .past) : parseLoop mem s = .past := by
  rw [parseLoop]
  split <;> simp_all

theorem parseLoop_null {s : State} (h : turn mem s = .null) : parseLoop mem s = .null := by
  rw [parseLoop]
  split <;> simp_all

theorem withToken_eq {s : State} (h : s.ptr.length < maxTokenSz) (fail : Turn)
    (go : Text → State → Turn) :
    withToken s fail go = match lexeme s.ptr with
      | .none => fail
      | .token t rest => go t { s with ptr := rest }
      | .opened => .past := by
  unfold withToken
  rw [getToken_eq h]
  cases lexeme s.ptr <;> rfl

/-- The end of a command. -/
theorem separate_is {s : State} {rest : Text} {done : List Command} {c : Command} {k : ℕ}
    (hturn : turn mem s = separate mem ⟨rest, done.map Command.cmd, some c.cmd, k⟩ c.cmd)
    (ih : ∀ line : Text, line.length ≤ rest.length → ∀ done cur k,
      (assemble mem (tokens line).2 done cur k (tokens line).1).Is
        (parseLoop mem ⟨line, done.map Command.cmd, cur.map Command.cmd, k⟩)) :
    (if mem k then
      assemble mem (tokens rest).2 (done ++ [c]) (some .fresh) (k + 1) (tokens rest).1
    else .null).Is (parseLoop mem s) := by
  rw [separate_eq] at hturn
  dsimp only at hturn
  by_cases hmem : mem k = true
  · rw [if_pos hmem] at hturn
    rw [if_pos hmem, parseLoop_next hturn]
    have hnext := ih rest (Nat.le_refl _) (done ++ [c]) (some .fresh) (k + 1)
    rw [List.map_append] at hnext
    exact hnext
  · rw [if_neg hmem] at hturn
    rw [if_neg hmem]
    exact parseLoop_null hturn

/-- A symbol that a file name belongs to. -/
theorem file_is {s : State} {rest : Text} {done : List Command} {c : Command} {k : ℕ}
    {list : List Cmd} (new : Text → Command) (hrest : rest.length < maxTokenSz)
    (hturn : turn mem s = withToken ⟨rest, done.map Command.cmd, some c.cmd, k⟩ (.returns (-1) list)
      fun tok s => strdup mem s tok fun file s => .next { s with cmd := some (new file).cmd })
    (ih : ∀ line : Text, line.length ≤ rest.length → ∀ done cur k,
      (assemble mem (tokens line).2 done cur k (tokens line).1).Is
        (parseLoop mem ⟨line, done.map Command.cmd, cur.map Command.cmd, k⟩)) :
    (match (tokens rest).1 with
      | [] => Verdict.missing (tokens rest).2
      | file :: ts =>
        if mem k then assemble mem (tokens rest).2 done (some (new file)) (k + 1) ts else .null).Is
      (parseLoop mem s) := by
  rw [withToken_eq hrest] at hturn
  dsimp only at hturn
  cases hlex : lexeme rest with
  | none =>
    rw [hlex] at hturn
    rw [tokens_none hlex]
    exact ⟨_, parseLoop_returns hturn⟩
  | opened =>
    rw [hlex] at hturn
    rw [tokens_opened hlex]
    exact parseLoop_past hturn
  | token file rest' =>
    rw [hlex] at hturn
    rw [tokens_token hlex]
    dsimp only [strdup] at hturn ⊢
    by_cases hmem : mem k = true
    · rw [if_pos hmem] at hturn
      rw [if_pos hmem, parseLoop_next hturn]
      exact ih rest' (Nat.le_of_lt (lexeme_lt hlex)) done (some (new file)) (k + 1)
    · rw [if_neg hmem] at hturn
      rw [if_neg hmem]
      exact parseLoop_null hturn

/-- A pipe. -/
theorem pipe_is {s : State} {rest : Text} {done : List Command} {c : Command} {k : ℕ}
    {list : List Cmd} (hrest : rest.length < maxTokenSz)
    (hturn : turn mem s = withToken ⟨rest, done.map Command.cmd, some c.cmd, k⟩ (.returns (-1) list)
      fun _ _ => separate mem ⟨rest, done.map Command.cmd, some c.cmd, k⟩
        ({ c with pipe := true } : Command).cmd)
    (ih : ∀ line : Text, line.length ≤ rest.length → ∀ done cur k,
      (assemble mem (tokens line).2 done cur k (tokens line).1).Is
        (parseLoop mem ⟨line, done.map Command.cmd, cur.map Command.cmd, k⟩)) :
    (if (tokens rest).1 = [] then Verdict.missing (tokens rest).2
      else if mem k then
        assemble mem (tokens rest).2 (done ++ [{ c with pipe := true }]) (some .fresh) (k + 1)
          (tokens rest).1
      else .null).Is (parseLoop mem s) := by
  rw [withToken_eq hrest] at hturn
  dsimp only at hturn
  cases hlex : lexeme rest with
  | none =>
    rw [hlex] at hturn
    rw [tokens_none hlex, if_pos rfl]
    exact ⟨_, parseLoop_returns hturn⟩
  | opened =>
    rw [hlex] at hturn
    rw [tokens_opened hlex, if_pos rfl]
    exact parseLoop_past hturn
  | token next rest' =>
    rw [hlex] at hturn
    have hne : (tokens rest).1 ≠ [] := by
      rw [tokens_token hlex]
      exact List.cons_ne_nil _ _
    rw [if_neg hne]
    exact separate_is hturn ih

/-- A symbol behind the start of a command. -/
theorem symbol_is {s : State} {t rest : Text} {done : List Command} {c : Command} {k : ℕ}
    (hrest : rest.length < maxTokenSz) (hsym : isSymbol (t.headD 0) = true)
    (hturn : turn mem s = symbol mem ⟨rest, done.map Command.cmd, some c.cmd, k⟩ t)
    (ih : ∀ line : Text, line.length ≤ rest.length → ∀ done cur k,
      (assemble mem (tokens line).2 done cur k (tokens line).1).Is
        (parseLoop mem ⟨line, done.map Command.cmd, cur.map Command.cmd, k⟩)) :
    (assemble mem (tokens rest).2 done (some c) k (t :: (tokens rest).1)).Is (parseLoop mem s) := by
  unfold symbol at hturn
  unfold assemble
  dsimp only at hturn
  rw [if_pos hsym]
  by_cases hout : t.headD 0 = 62
  · rw [if_pos hout] at hturn
    rw [if_pos (.inl hout)]
    simp only [if_pos hout]
    have happend : (if t.getD 1 0 = 62 then { c.cmd with append := true } else c.cmd) =
        ({ c with append := c.append || t.getD 1 0 = 62 } : Command).cmd := by
      by_cases happ : t.getD 1 0 = 62
      · rw [if_pos happ, decide_eq_true happ, Bool.or_true]
        rfl
      · rw [if_neg happ, decide_eq_false happ, Bool.or_false]
    rw [happend] at hturn
    exact file_is (fun file => { c with
      outfile := some file
      append := c.append || t.getD 1 0 = 62 }) hrest hturn ih
  · rw [if_neg hout] at hturn
    by_cases hin : t.headD 0 = 60
    · rw [if_pos hin] at hturn
      rw [if_pos (.inr hin)]
      simp only [if_neg hout]
      exact file_is (fun file => { c with infile := some file }) hrest hturn ih
    · rw [if_neg hin] at hturn
      rw [if_neg (not_or.mpr ⟨hout, hin⟩)]
      by_cases hpipe : t.headD 0 = 124
      · rw [if_pos hpipe] at hturn
        rw [decide_eq_true hpipe, Bool.or_true]
        simp only [hpipe, true_and]
        exact pipe_is hrest hturn ih
      · rw [if_neg hpipe] at hturn
        rw [if_neg fun h => hpipe h.1, decide_eq_false hpipe, Bool.or_false]
        exact separate_is hturn ih

theorem turn_none {line : Text} (hline : line.length < maxTokenSz) (hlex : lexeme line = .none)
    (list : List Cmd) (cur : Option Cmd) (k : ℕ) :
    turn mem ⟨line, list, cur, k⟩ = .returns 0 (list ++ cur.toList) := by
  unfold turn
  rw [withToken_eq hline]
  dsimp only
  rw [hlex]
  rfl

theorem turn_opened {line : Text} (hline : line.length < maxTokenSz) (hlex : lexeme line = .opened)
    (list : List Cmd) (cur : Option Cmd) (k : ℕ) : turn mem ⟨line, list, cur, k⟩ = .past := by
  unfold turn
  rw [withToken_eq hline]
  dsimp only
  rw [hlex]

theorem turn_token {line t rest : Text} (hline : line.length < maxTokenSz)
    (hlex : lexeme line = .token t rest) (list : List Cmd) (cur : Option Cmd) (k : ℕ) :
    turn mem ⟨line, list, cur, k⟩ =
      if isSymbol (t.headD 0) then symbol mem ⟨rest, list, cur, k⟩ t
      else match cur with
        | none => cmdNew mem ⟨rest, list, cur, k⟩ fun new s => word mem s new t
        | some cmd => word mem ⟨rest, list, cur, k⟩ cmd t := by
  unfold turn
  rw [withToken_eq hline]
  dsimp only
  rw [hlex]

/-- The loop makes of a line what its tokens are. -/
theorem parseLoop_is (line : Text) (hline : line.length < maxTokenSz) (done : List Command)
    (cur : Option Command) (k : ℕ) :
    (assemble mem (tokens line).2 done cur k (tokens line).1).Is
      (parseLoop mem ⟨line, done.map Command.cmd, cur.map Command.cmd, k⟩) := by
  induction hn : line.length using Nat.strongRecOn generalizing line done cur k with
  | ind n ih =>
    subst hn
    cases hlex : lexeme line with
    | none =>
      rw [parseLoop_returns (turn_none hline hlex _ _ k), tokens_none hlex]
      unfold assemble
      cases cur <;> simp [Verdict.Is]
    | opened =>
      rw [parseLoop_past (turn_opened hline hlex _ _ k), tokens_opened hlex]
      unfold assemble
      rfl
    | token t rest =>
      have hlt := lexeme_lt hlex
      have hrest : rest.length < maxTokenSz := Nat.lt_trans hlt hline
      have hturn := @turn_token mem _ _ _ hline hlex (done.map Command.cmd) (cur.map Command.cmd) k
      rw [tokens_token hlex]
      by_cases hsym : isSymbol (t.headD 0) = true
      · rw [if_pos hsym] at hturn
        cases cur with
        | none =>
          unfold assemble
          rw [if_pos hsym]
          exact ⟨_, parseLoop_returns hturn⟩
        | some c =>
          refine symbol_is hrest hsym hturn fun line hle done cur k => ?_
          exact ih line.length (by omega) line (by omega) done cur k rfl
      · rw [if_neg hsym] at hturn
        cases cur with
        | none =>
          dsimp only [Option.map_none, cmdNew] at hturn ⊢
          unfold assemble
          rw [if_neg hsym]
          rw [← cmd_fresh, word_eq,
            if_neg (show ¬maxArgv ≤ Command.fresh.words.length + 1 by decide)]
            at hturn
          by_cases hcmd : mem k = true
          · rw [if_pos hcmd] at hturn
            rw [hcmd, Bool.true_and]
            by_cases hword : mem (k + 1) = true
            · rw [if_pos hword] at hturn
              rw [if_pos hword, parseLoop_next hturn]
              exact ih rest.length hlt rest hrest done (some _) (k + 1 + 1) rfl
            · rw [if_neg hword] at hturn
              rw [if_neg hword]
              exact parseLoop_null hturn
          · rw [if_neg hcmd] at hturn
            rw [Bool.eq_false_iff.mpr hcmd, Bool.false_and, if_neg Bool.false_ne_true]
            exact parseLoop_null hturn
        | some c =>
          dsimp only [Option.map_some] at hturn ⊢
          rw [word_eq] at hturn
          unfold assemble
          rw [if_neg hsym]
          by_cases hfull : maxArgv ≤ c.words.length + 1
          · rw [if_pos hfull] at hturn
            rw [if_pos hfull]
            exact ⟨_, parseLoop_returns hturn⟩
          · rw [if_neg hfull] at hturn
            rw [if_neg hfull]
            dsimp only at hturn
            by_cases hmem : mem k = true
            · rw [if_pos hmem] at hturn
              rw [if_pos hmem, parseLoop_next hturn]
              exact ih rest.length hlt rest hrest done (some _) (k + 1) rfl
            · rw [if_neg hmem] at hturn
              rw [if_neg hmem]
              exact parseLoop_null hturn

end

theorem missing_ne {isOpen : Bool} {cs : List Command} : Verdict.missing isOpen ≠ .commands cs := by
  cases isOpen <;> exact nofun

/-- What holds at the start, and is kept by each way to go on, holds of the commands that tokens
make. -/
theorem assemble_induction {I : List Command → Option Command → Prop} {mem : ℕ → Bool}
    {isOpen : Bool} {done : List Command} {cur : Option Command} {k : ℕ} {ts : List Text}
    {cs : List Command} (h : assemble mem isOpen done cur k ts = .commands cs) (hstart : I done cur)
    (hfirst : ∀ done t, isSymbol (t.headD 0) = false → I done none →
      I done (some { Command.fresh with words := [t] }))
    (hword : ∀ done c t, isSymbol (t.headD 0) = false → I done (some c) →
      I done (some { c with words := c.words ++ [t] }))
    (hout : ∀ done c file append, I done (some c) →
      I done (some { c with outfile := file, append := append }))
    (hin : ∀ done c file, I done (some c) → I done (some { c with infile := file }))
    (hnext : ∀ done c pipe, I done (some c) → I (done ++ [{ c with pipe := pipe }]) (some .fresh)) :
    ∃ done' cur', cs = done' ++ cur'.toList ∧ I done' cur' := by
  fun_induction assemble generalizing cs with
  | case1 => exact absurd h nofun
  | case2 done cur => exact ⟨done, cur, (Verdict.commands.inj h).symm, hstart⟩
  | case3 | case5 | case8 | case11 | case12 | case14 => exact absurd h nofun
  | case4 done k t ts hsym _ ih => exact ih h (hfirst _ _ (Bool.eq_false_iff.mpr hsym) hstart)
  | case6 | case9 => exact absurd h missing_ne
  | case7 done c k t =>
    rename_i new ih
    refine ih h ?_
    unfold new
    by_cases hgt : t.headD 0 = 62
    · rw [if_pos hgt]
      exact hout _ _ _ _ hstart
    · rw [if_neg hgt]
      exact hin _ _ _ hstart
  | case10 =>
    rename_i ih
    exact ih h (hnext _ _ _ hstart)
  | case13 done c k t ts hsym _ _ ih => exact ih h (hword _ _ _ (Bool.eq_false_iff.mpr hsym) hstart)

/-- The last of the commands has no pipe behind it. -/
theorem pipe_last {mem : ℕ → Bool} {isOpen : Bool} {k : ℕ} {ts : List Text} {cs : List Command}
    (h : assemble mem isOpen [] none k ts = .commands cs) : ∀ c ∈ cs.getLast?, c.pipe = false := by
  obtain ⟨done, cur, rfl, hnone, hsome⟩ := assemble_induction
    (I := fun done cur => (cur = none → done = []) ∧ ∀ c ∈ cur, c.pipe = false) h
    ⟨fun _ => rfl, nofun⟩
    (fun done t _ _ => ⟨nofun, fun c hc => Option.some.inj hc ▸ rfl⟩)
    (fun done c t _ hI => ⟨nofun, fun c' hc' => Option.some.inj hc' ▸ hI.2 c rfl⟩)
    (fun done c file append hI => ⟨nofun, fun c' hc' => Option.some.inj hc' ▸ hI.2 c rfl⟩)
    (fun done c file hI => ⟨nofun, fun c' hc' => Option.some.inj hc' ▸ hI.2 c rfl⟩)
    (fun done c pipe _ => ⟨nofun, fun c' hc' => Option.some.inj hc' ▸ rfl⟩)
  cases cur with
  | none =>
    rw [hnone rfl]
    exact nofun
  | some c =>
    intro c' hc'
    rw [Option.toList_some, List.getLast?_concat] at hc'
    exact hsome c' hc'

/-! ### What is executed -/

/-- `argv` is what `execvp` takes: there is a word, none of the words is NULL, and a NULL is behind
them. -/
def Cmd.Executable (c : Cmd) : Prop :=
  1 ≤ c.argc ∧ (∀ i < c.argc, c.argv i ≠ none) ∧ c.argv c.argc = none

/-- `parse` stays within the line and the token and writes to no NULL, and what it returns 0 for
can be executed. -/
def Right (mem : ℕ → Bool) (line : Text) : Prop :=
  ∃ code list, parse mem line = .returns code list ∧
    (code = 0 → (∀ c ∈ list, c.Executable) ∧ ∀ c ∈ list.getLast?, c.doPipe = false)

section

variable (mem : ℕ → Bool) (isOpen : Bool)

/-- Whether tokens are fine behind `n` words of a command. They are when the line is rejected: it
begins with a symbol, has too many words in a command, or nothing behind a redirection or a `|`.
They are not when a quote is left open before that, or there is no memory for a command, a word or
the name of a file. Otherwise there is to be a word in each command, and `ok` tells whether it is so
up to here. -/
def fine (ok : Bool) : Option ℕ → ℕ → List Text → Bool
  | n, _, [] => !isOpen && ok && n != some 0
  | none, k, t :: ts =>
      isSymbol (t.headD 0) || (mem k && mem (k + 1)) && fine ok (some 1) (k + 1 + 1) ts
  | some n, k, t :: ts =>
    if isSymbol (t.headD 0) then
      if t.headD 0 = 62 ∨ t.headD 0 = 60 then
        match ts with
        | [] => !isOpen
        | _ :: ts => mem k && fine ok (some n) (k + 1) ts
      else if t.headD 0 = 124 ∧ ts = [] then !isOpen
      else mem k && fine (ok && n != 0) (some 0) (k + 1) ts
    else maxArgv ≤ n + 1 || mem k && fine ok (some (n + 1)) (k + 1) ts

/-- Whether a line is fine. -/
def Fine (line : Text) : Prop := fine mem (tokens line).2 true none 0 (tokens line).1

end

theorem executable_iff (c : Command) : c.cmd.Executable ↔ c.words ≠ [] := by
  unfold Cmd.Executable Command.cmd
  dsimp only
  constructor
  · rintro ⟨hpos, -, -⟩
    exact List.ne_nil_of_length_pos hpos
  · intro hne
    refine ⟨List.length_pos_of_ne_nil hne, fun i hi => ?_, by simp⟩
    rw [List.getElem?_eq_getElem hi]
    exact Option.some_ne_none _

/-- What is right of what a line is. -/
def Verdict.Good : Verdict → Prop
  | .rejected => True
  | .opened | .null => False
  | .commands cs => ∀ c ∈ cs, c.words ≠ []

theorem missing_good {isOpen : Bool} : (Verdict.missing isOpen).Good ↔ (!isOpen) = true := by
  cases isOpen <;> simp [Verdict.missing, Verdict.Good]

theorem fine_some (mem : ℕ → Bool) (isOpen ok : Bool) (n k : ℕ) (t : Text) (ts : List Text) :
    fine mem isOpen ok (some n) k (t :: ts) =
      if isSymbol (t.headD 0) then
        if t.headD 0 = 62 ∨ t.headD 0 = 60 then
          match ts with
          | [] => !isOpen
          | _ :: ts => mem k && fine mem isOpen ok (some n) (k + 1) ts
        else if t.headD 0 = 124 ∧ ts = [] then !isOpen
        else mem k && fine mem isOpen (ok && n != 0) (some 0) (k + 1) ts
      else maxArgv ≤ n + 1 || mem k && fine mem isOpen ok (some (n + 1)) (k + 1) ts := by
  rw [fine.eq_def]

/-- A line is good when its tokens are fine. -/
theorem good_iff {mem : ℕ → Bool} {isOpen ok : Bool} {done : List Command} {cur : Option Command}
    {k : ℕ} {ts : List Text} (hok : ok = true ↔ ∀ c ∈ done, c.words ≠ []) :
    (assemble mem isOpen done cur k ts).Good ↔
      fine mem isOpen ok (cur.map fun c => c.words.length) k ts = true := by
  fun_induction assemble generalizing ok with
  | case1 cur _ hopen => simp_all [Verdict.Good, fine]
  | case2 done cur _ hopen =>
    cases cur with
    | none => simp_all [Verdict.Good, fine]
    | some c =>
      rw [fine, Bool.eq_false_iff.mpr hopen, Bool.not_false, Bool.true_and, Bool.and_eq_true, hok]
      simp [Verdict.Good, or_imp, forall_and]
  | case3 done k t ts hsym => simp_all [Verdict.Good, fine]
  | case4 done k t ts hsym hmem ih =>
    rw [ih hok, Option.map_none, fine, hmem, Bool.eq_false_iff.mpr hsym, Bool.false_or,
      Bool.true_and]
    rfl
  | case5 done k t ts hsym hmem =>
    rw [Option.map_none, fine, Bool.eq_false_iff.mpr hmem, Bool.eq_false_iff.mpr hsym]
    exact iff_of_false id Bool.false_ne_true
  | case6 done c k t hsym hredir =>
    rw [Option.map_some, fine_some, if_pos hsym, if_pos hredir]
    exact missing_good
  | case7 done c k t hsym hredir file ts hmem =>
    rename_i ih
    have hlen : (if t.headD 0 = 62 then
        { c with outfile := some file, append := c.append || t.getD 1 0 = 62 }
      else { c with infile := some file }).words.length = c.words.length := by
      split_ifs <;> rfl
    rw [Option.map_some, fine_some, if_pos hsym, if_pos hredir, ← hlen]
    dsimp only
    rw [hmem, Bool.true_and]
    exact ih hok
  | case8 done c k t hsym hredir file ts hmem =>
    rw [Option.map_some, fine_some, if_pos hsym, if_pos hredir]
    dsimp only
    rw [Bool.eq_false_iff.mpr hmem, Bool.false_and]
    exact iff_of_false id Bool.false_ne_true
  | case9 done c k t ts hsym hredir hpipe =>
    rw [Option.map_some, fine_some, if_pos hsym, if_neg hredir, if_pos hpipe]
    exact missing_good
  | case10 done c k t ts hsym hredir hpipe hmem =>
    rename_i ih
    rw [Option.map_some, fine_some, if_pos hsym, if_neg hredir, if_neg hpipe, hmem, Bool.true_and]
    refine ih ?_
    rw [Bool.and_eq_true, hok]
    simp [or_imp, forall_and]
  | case11 done c k t ts hsym hredir hpipe hmem =>
    rw [Option.map_some, fine_some, if_pos hsym, if_neg hredir, if_neg hpipe,
      Bool.eq_false_iff.mpr hmem, Bool.false_and]
    exact iff_of_false id Bool.false_ne_true
  | case12 done c k t ts hsym hfull =>
    rw [Option.map_some, fine_some, if_neg hsym, decide_eq_true hfull, Bool.true_or]
    exact iff_of_true trivial rfl
  | case13 done c k t ts hsym hfull hmem ih =>
    rw [Option.map_some, fine_some, if_neg hsym, decide_eq_false hfull, Bool.false_or, hmem,
      Bool.true_and]
    have hlen : (c.words ++ [t]).length = c.words.length + 1 := by simp
    rw [← hlen]
    exact ih hok
  | case14 done c k t ts hsym hfull hmem =>
    rw [Option.map_some, fine_some, if_neg hsym, decide_eq_false hfull, Bool.false_or,
      Bool.eq_false_iff.mpr hmem, Bool.false_and]
    exact iff_of_false id Bool.false_ne_true

/-- A line is fine if what its tokens give is good. -/
theorem fine_iff {mem : ℕ → Bool} {line : Text} :
    Fine mem line ↔ (assemble mem (tokens line).2 [] none 0 (tokens line).1).Good :=
  (@good_iff mem (tokens line).2 true [] none 0 (tokens line).1 (by simp)).symm

/-- What `parse` does with a line is right if what the tokens give is good. -/
theorem right_iff_good {mem : ℕ → Bool} {line : Text} (hline : line.length ≤ 511) :
    Right mem line ↔ (assemble mem (tokens line).2 [] none 0 (tokens line).1).Good := by
  have his := @parseLoop_is mem line (Nat.lt_succ_of_le hline) [] none 0
  unfold Right
  cases hv : assemble mem (tokens line).2 [] none 0 (tokens line).1 with
  | rejected =>
    rw [hv] at his
    obtain ⟨list, hlist⟩ := his
    exact iff_of_true ⟨-1, list, hlist, fun h => absurd h (by decide)⟩ trivial
  | opened | null =>
    rw [hv] at his
    refine iff_of_false ?_ id
    rintro ⟨code, list, hlist, -⟩
    exact absurd (hlist.symm.trans his) nofun
  | commands cs =>
    rw [hv] at his
    constructor
    · rintro ⟨code, list, hlist, hgood⟩ c hc
      obtain ⟨rfl, rfl⟩ := Result.returns.inj (hlist.symm.trans his)
      exact (executable_iff c).mp ((hgood rfl).1 c.cmd (List.mem_map_of_mem hc))
    · intro hwords
      refine ⟨0, _, his, fun _ => ⟨fun c hc => ?_, fun c hc => ?_⟩⟩
      · obtain ⟨c', hc', rfl⟩ := List.mem_map.mp hc
        exact (executable_iff c').mpr (hwords c' hc')
      · rw [List.getLast?_map] at hc
        obtain ⟨c', hc', rfl⟩ := Option.map_eq_some_iff.mp hc
        exact pipe_last hv c' hc'

/-- **`parse` stays within a line, and what it returns 0 for can be executed, exactly when the
line is rejected or is commands that each have a word, with memory for all that it takes.** -/
theorem shell_parse_iff {mem : ℕ → Bool} {line : Text} (hline : line.length ≤ 511) :
    Right mem line ↔ Fine mem line :=
  (right_iff_good hline).trans fine_iff.symm

theorem fine_piped : Fine (fun _ => true) [97, 124, 34, 98, 34, 62, 99, 10] := by
  have htokens : tokens [97, 124, 34, 98, 34, 62, 99, 10] =
    ([[97], [124], [98], [62], [99]], false) := by
    rw [tokens_token (show lexeme [97, 124, 34, 98, 34, 62, 99, 10] =
        .token [97] [124, 34, 98, 34, 62, 99, 10] by rfl),
      tokens_token (show lexeme [124, 34, 98, 34, 62, 99, 10] =
        .token [124] [34, 98, 34, 62, 99, 10] by rfl),
      tokens_token (show lexeme [34, 98, 34, 62, 99, 10] = .token [98] [62, 99, 10] by rfl),
      tokens_token (show lexeme [62, 99, 10] = .token [62] [99, 10] by rfl),
      tokens_token (show lexeme [99, 10] = .token [99] [10] by rfl), tokens_none (by rfl)]
  unfold Fine
  rw [htokens]
  decide

/-- The line `a|"b">c`. -/
theorem shell_parse_iff_piped : ([97, 124, 34, 98, 34, 62, 99, 10] : Text).length ≤ 511 ∧
    Right (fun _ => true) [97, 124, 34, 98, 34, 62, 99, 10] :=
  ⟨by decide, (shell_parse_iff (by decide)).mpr fine_piped⟩

theorem not_fine : ¬Fine (fun _ => true) [97, 32, 59, 10] := by
  have htokens : tokens [97, 32, 59, 10] = ([[97], [59]], false) := by
    rw [tokens_token (show lexeme [97, 32, 59, 10] = .token [97] [32, 59, 10] by rfl),
      tokens_token (show lexeme [32, 59, 10] = .token [59] [10] by rfl), tokens_none (by rfl)]
  unfold Fine
  rw [htokens]
  decide

/-- With `a ;` there is a second command, of no words. -/
theorem not_shell_parse : ¬∀ (mem : ℕ → Bool) (line : Text), line.length ≤ 511 → Right mem line :=
  fun h => not_fine (fine_iff.mpr
    ((right_iff_good (by decide)).mp (h (fun _ => true) [97, 32, 59, 10] (by decide))))

end Cosiris.Shell
