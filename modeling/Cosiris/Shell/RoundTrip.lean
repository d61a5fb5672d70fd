import Cosiris.Shell.Parse

/-!
# Lines and commands

A list of commands is written as a line, and `parse` of `bin/cosh.c` reads it back. A token that
was in quotes has lost them when `parse` looks at its first character. -/

namespace Cosiris.Shell

/-! ### Commands as they are written -/

/-- A word, bare or in quotes. -/
structure Word where
  text : Text
  quoted : Bool
  ok : if quoted then 34 ∉ text else text ≠ [] ∧ ∀ c ∈ text, isBare c = true

/-- A part of a command: an argument, or a redirection. -/
inductive Part
  | word (w : Word)
  | input (file : Word)
  | output (append : Bool) (file : Word)

/-- The text of an argument. -/
def Part.word? : Part → Option Text
  | .word w => some w.text
  | _ => none

/-- The file of a `<`. -/
def Part.input? : Part → Option Text
  | .input file => some file.text
  | _ => none

/-- The file of a `>` or a `>>`, and which it is. -/
def Part.output? : Part → Option (Text × Bool)
  | .output append file => some (file.text, append)
  | _ => none

/-- A command: 1 to 15 words, and at most one redirection of each kind behind the first word. -/
structure Written where
  first : Word
  rest : List Part
  args : (rest.filterMap Part.word?).length < 15
  inputs : (rest.filterMap Part.input?).length ≤ 1
  outputs : (rest.filterMap Part.output?).length ≤ 1

/-- All the parts. -/
def Written.parts (w : Written) : List Part := .word w.first :: w.rest

/-- The command that is meant. -/
def Written.command (w : Written) (pipe : Bool) : Command where
  words := w.parts.filterMap Part.word?
  outfile := (w.rest.findSome? Part.output?).map Prod.fst
  infile := w.rest.findSome? Part.input?
  append := (w.rest.findSome? Part.output?).any Prod.snd
  pipe := pipe

/-- Commands with `|` or `;` between them. -/
inductive Script
  | command (w : Written)
  | joint (w : Written) (pipe : Bool) (rest : Script)

/-- The commands that are meant. -/
def Script.commands : Script → List Command
  | .command w => [w.command false]
  | .joint w pipe rest => w.command pipe :: rest.commands

/-! ### Lines -/

inductive Token
  | word (w : Word)
  | input
  | output (append : Bool)
  | joint (pipe : Bool)

/-- How a token is written. -/
def Token.spelling : Token → Text
  | .word w => if w.quoted then 34 :: w.text ++ [34] else w.text
  | .input => [60]
  | .output append => if append then [62, 62] else [62]
  | .joint pipe => [if pipe then 124 else 59]

/-- What `get_token` leaves of a token. -/
def Token.text : Token → Text
  | .word w => w.text
  | t => t.spelling

/-- The tokens of a part. -/
def Part.tokens : Part → List Token
  | .word w => [.word w]
  | .input file => [.input, .word file]
  | .output append file => [.output append, .word file]

/-- The tokens of commands. -/
def Script.tokens : Script → List Token
  | .command w => w.parts.flatMap Part.tokens
  | .joint w pipe rest => w.parts.flatMap Part.tokens ++ .joint pipe :: rest.tokens

/-- A line of tokens with blanks between them, and a newline at the end. -/
inductive Spaced : List Token → Text → Prop
  | newline : Spaced [] [10]
  | blank {ts : List Token} {s : Text} {b : UInt8} (hb : isSpace b = true) (h : Spaced ts s) :
      Spaced ts (b :: s)
  | token {ts : List Token} {s : Text} {b : UInt8} (t : Token) (hb : isSpace b = true)
      (h : Spaced ts (b :: s)) : Spaced (t :: ts) (t.spelling ++ b :: s)

/-! ### The tokens are read back -/

section

variable {b : UInt8} {s : Text}

theorem not_bare_of_space (hb : isSpace b = true) : isBare b = false := by
  unfold isBare
  rw [hb]
  rfl

theorem takeWhile_bare {t : Text} (ht : ∀ c ∈ t, isBare c = true) (hb : isSpace b = true) :
    (t ++ b :: s).takeWhile isBare = t ∧ (t ++ b :: s).dropWhile isBare = b :: s := by
  have hnot := not_bare_of_space hb
  induction t with
  | nil => simp [hnot]
  | cons c t ih =>
    have hc := ht c List.mem_cons_self
    simp [hc, ih fun c hc => ht c (List.mem_cons_of_mem _ hc)]

theorem takeWhile_quote {t : Text} (ht : 34 ∉ t) :
    (t ++ 34 :: s).takeWhile (· ≠ 34) = t ∧ (t ++ 34 :: s).dropWhile (· ≠ 34) = 34 :: s := by
  induction t with
  | nil => simp
  | cons c t ih =>
    rw [List.mem_cons, not_or] at ht
    have hc : c ≠ 34 := Ne.symm ht.1
    have ih := ih ht.2
    simp_all

/-- A blank at the front does not matter. -/
theorem lexeme_blank (hb : isSpace b = true) : lexeme (b :: s) = lexeme s := by
  unfold lexeme
  rw [List.dropWhile_cons_of_pos hb]

theorem tokens_blank (hb : isSpace b = true) : tokens (b :: s) = tokens s := by
  cases hlex : lexeme s with
  | none => rw [tokens_none hlex, tokens_none ((lexeme_blank hb).trans hlex)]
  | opened => rw [tokens_opened hlex, tokens_opened ((lexeme_blank hb).trans hlex)]
  | token t rest => rw [tokens_token hlex, tokens_token ((lexeme_blank hb).trans hlex)]

/-- A word in quotes at the front of a line. -/
theorem lexeme_quoted {t : Text} (ht : 34 ∉ t) :
    lexeme (34 :: t ++ [34] ++ b :: s) = .token t (b :: s) := by
  obtain ⟨htake, hdrop⟩ := @takeWhile_quote (b :: s) t ht
  have happ : 34 :: t ++ [34] ++ b :: s = 34 :: (t ++ 34 :: b :: s) := by simp
  rw [happ]
  unfold lexeme
  rw [List.dropWhile_cons_of_neg (by decide)]
  dsimp only
  rw [if_pos rfl, if_pos (by simp), htake, hdrop]
  rfl

/-- A bare word at the front of a line. -/
theorem lexeme_bare {t : Text} (hnil : t ≠ []) (hbare : ∀ c ∈ t, isBare c = true)
    (hb : isSpace b = true) : lexeme (t ++ b :: s) = .token t (b :: s) := by
  obtain ⟨c, t, rfl⟩ := List.exists_cons_of_ne_nil hnil
  obtain ⟨htake, hdrop⟩ :=
    @takeWhile_bare b s t (fun c hc => hbare c (List.mem_cons_of_mem _ hc)) hb
  have hc := hbare c List.mem_cons_self
  unfold isBare at hc
  rw [Bool.and_eq_true, Bool.not_eq_true', Bool.not_eq_true'] at hc
  have hquote : c ≠ 34 := by
    rintro rfl
    exact absurd hc.2 (by decide)
  have hgt : c ≠ 62 := by
    rintro rfl
    exact absurd hc.2 (by decide)
  unfold lexeme
  rw [List.cons_append, List.dropWhile_cons_of_neg (by rw [hc.1]; exact Bool.false_ne_true)]
  dsimp only
  rw [if_neg hquote, if_neg fun h => hgt h.1, if_neg (by rw [hc.2]; exact Bool.false_ne_true),
    htake, hdrop]
  rfl

/-- A token at the front of a line. -/
theorem lexeme_token (t : Token) (hb : isSpace b = true) :
    lexeme (t.spelling ++ b :: s) = .token t.text (b :: s) := by
  cases t with
  | word w =>
    have hok := w.ok
    unfold Token.spelling Token.text
    dsimp only
    by_cases hquoted : w.quoted = true
    · rw [if_pos hquoted] at hok ⊢
      exact lexeme_quoted hok
    · rw [if_neg hquoted] at hok ⊢
      exact lexeme_bare hok.1 hok.2 hb
  | input => rfl
  | output append =>
    cases append with
    | true => rfl
    | false =>
      have hne : b ≠ 62 := by
        rintro rfl
        exact absurd hb (by decide)
      have happ : ¬((62 : UInt8) = 62 ∧ (b :: s).head? = some 62) :=
        fun h => hne (Option.some.inj h.2)
      unfold lexeme
      exact if_neg happ
  | joint pipe => cases pipe <;> rfl

/-- The tokens of a line are those that were written. -/
theorem tokens_spaced {ts : List Token} {line : Text} (h : Spaced ts line) :
    tokens line = (ts.map Token.text, false) := by
  induction h with
  | newline => exact tokens_none (by rfl)
  | blank hb h ih => rw [tokens_blank hb, ih]
  | token t hb h ih =>
    rw [tokens_token (lexeme_token t hb), ih]
    rfl

end

/-! ### The tokens are assembled -/

/-- The words of the commands, without the files. -/
def Script.words : Script → List Text
  | .command w => w.parts.filterMap Part.word?
  | .joint w _ rest => w.parts.filterMap Part.word? ++ rest.words

/-- No word begins with a symbol. -/
def Script.Plain (s : Script) : Prop := ∀ t ∈ s.words, isSymbol (t.headD 0) = false

/-- How often memory is taken: for each command, and for each part of it. -/
def Script.allocs : Script → ℕ
  | .command w => 1 + w.parts.length
  | .joint w _ rest => 1 + w.parts.length + rest.allocs

section

variable (mem : ℕ → Bool)

/-- There is memory for `n` allocations, behind `k` others. -/
def Grants (k n : ℕ) : Prop := ∀ i < n, mem (k + i) = true

instance (k n : ℕ) : Decidable (Grants mem k n) :=
  Nat.decidableBallLT n fun i _ => mem (k + i) = true

/-- A command with a part more. -/
def Part.put (c : Command) : Part → Command
  | .word w => { c with words := c.words ++ [w.text] }
  | .input file => { c with infile := some file.text }
  | .output append file => { c with outfile := some file.text, append := c.append || append }

/-- A command with some parts more. -/
def putAll (c : Command) : List Part → Command
  | [] => c
  | p :: ps => putAll (p.put c) ps

variable {mem} {k : ℕ} {c : Command}

theorem grants_one : Grants mem k 1 ↔ mem k = true := by simp [Grants]

theorem grants_add (m n : ℕ) : Grants mem k (m + n) ↔ Grants mem k m ∧ Grants mem (k + m) n := by
  unfold Grants
  refine ⟨fun h => ⟨fun i hi => h i (by omega), fun i hi => ?_⟩, fun h i hi => ?_⟩
  · rw [Nat.add_assoc]
    exact h (m + i) (by omega)
  · by_cases hlt : i < m
    · exact h.1 i hlt
    · have hrest := h.2 (i - m) (by omega)
      rwa [Nat.add_assoc, Nat.add_sub_cancel' (Nat.not_lt.mp hlt)] at hrest

theorem grants_succ {n : ℕ} : Grants mem k (n + 1) ↔ mem k = true ∧ Grants mem (k + 1) n := by
  rw [Nat.add_comm, grants_add, grants_one]

theorem assemble_word {isOpen : Bool} {done : List Command} {t : Text} {ts : List Text}
    (hsym : isSymbol (t.headD 0) = false) (hroom : ¬maxArgv ≤ c.words.length + 1) :
    assemble mem isOpen done (some c) k (t :: ts) =
      if mem k then assemble mem isOpen done (some { c with words := c.words ++ [t] }) (k + 1) ts
      else .null := by
  rw [assemble.eq_def]
  dsimp only
  rw [hsym, if_neg Bool.false_ne_true, if_neg hroom]

/-- A command is made for the first word. -/
theorem assemble_first {isOpen : Bool} {done : List Command} {t : Text} {ts : List Text}
    (hsym : isSymbol (t.headD 0) = false) : assemble mem isOpen done none k (t :: ts) =
      if mem k then assemble mem isOpen done (some .fresh) (k + 1) (t :: ts) else .null := by
  rw [assemble_word hsym (by decide), assemble.eq_def]
  dsimp only
  rw [hsym, if_neg Bool.false_ne_true]
  by_cases hmem : mem k = true
  · rw [hmem, Bool.true_and, if_pos rfl]
    rfl
  · rw [if_neg hmem, Bool.eq_false_iff.mpr hmem, Bool.false_and, if_neg Bool.false_ne_true]

theorem assemble_joint {isOpen : Bool} {done : List Command} {pipe : Bool} {ts : List Text}
    (hts : ts ≠ []) :
    assemble mem isOpen done (some c) k ((Token.joint pipe).text :: ts) =
      if mem k then assemble mem isOpen (done ++ [{ c with pipe := c.pipe || pipe }]) (some .fresh)
        (k + 1) ts
      else .null := by
  have hsym : isSymbol ((Token.joint pipe).text.headD 0) = true := by cases pipe <;> rfl
  have hredir : ¬((Token.joint pipe).text.headD 0 = 62 ∨ (Token.joint pipe).text.headD 0 = 60) := by
    cases pipe <;> decide
  have hpipe : decide ((Token.joint pipe).text.headD 0 = 124) = pipe := by cases pipe <;> rfl
  rw [assemble.eq_def]
  dsimp only
  rw [if_pos hsym, if_neg hredir, if_neg fun h => hts h.2, hpipe]

/-- The parts of a command are put to it, or there is no memory for one of them. -/
theorem assemble_parts {ps : List Part} {done : List Command} {ts : List Text}
    (hplain : ∀ t ∈ ps.filterMap Part.word?, isSymbol (t.headD 0) = false)
    (hlen : c.words.length + (ps.filterMap Part.word?).length ≤ 15) :
    assemble mem false done (some c) k ((ps.flatMap Part.tokens).map Token.text ++ ts) =
      if Grants mem k ps.length then
        assemble mem false done (some (putAll c ps)) (k + ps.length) ts
      else .null := by
  induction ps generalizing c k with
  | nil =>
    have hnone : Grants mem k 0 := fun i hi => absurd hi (Nat.not_lt_zero i)
    exact (if_pos hnone).symm
  | cons p ps ih =>
    have hpart : assemble mem false done (some c) k
        (((p :: ps).flatMap Part.tokens).map Token.text ++ ts) =
        if mem k then
          assemble mem false done (some (p.put c)) (k + 1)
            ((ps.flatMap Part.tokens).map Token.text ++ ts)
        else .null := by
      cases p with
      | word w =>
        change c.words.length + ((ps.filterMap Part.word?).length + 1) ≤ 15 at hlen
        exact assemble_word (hplain w.text List.mem_cons_self) (by unfold maxArgv; omega)
      | input file => rfl
      | output append file => cases append <;> rfl
    have hrest : ∀ t ∈ ps.filterMap Part.word?, isSymbol (t.headD 0) = false := fun t ht =>
      hplain t (((List.sublist_cons_self p ps).filterMap _).subset ht)
    have hput : (p.put c).words.length + (ps.filterMap Part.word?).length ≤ 15 := by
      cases p with
      | word w =>
        change c.words.length + ((ps.filterMap Part.word?).length + 1) ≤ 15 at hlen
        show (c.words ++ [w.text]).length + _ ≤ 15
        rw [List.length_append, List.length_singleton]
        omega
      | input | output => exact hlen
    have hlength : k + (ps.length + 1) = k + 1 + ps.length := by omega
    rw [hpart, List.length_cons, hlength]
    unfold putAll
    by_cases hmem : mem k = true
    · simp only [grants_succ, hmem, if_true, true_and]
      exact ih hrest hput
    · rw [if_neg hmem, if_neg fun h => hmem (grants_succ.mp h).1]

/-- A command with what some parts are meant to add. -/
def Command.adding (c : Command) (ps : List Part) : Command where
  words := c.words ++ ps.filterMap Part.word?
  outfile := ((ps.findSome? Part.output?).map Prod.fst).or c.outfile
  infile := (ps.findSome? Part.input?).or c.infile
  append := c.append || (ps.findSome? Part.output?).any Prod.snd
  pipe := c.pipe

theorem findSome_eq_none {α : Type} {f : Part → Option α} {ps : List Part}
    (h : ps.filterMap f = []) :
    ps.findSome? f = none :=
  List.findSome?_eq_none_iff.mpr fun p hp => List.filterMap_eq_nil_iff.mp h p hp

/-- What the first part adds comes first. -/
theorem adding_cons {p : Part} {ps : List Part} (hin : ((p :: ps).filterMap Part.input?).length ≤ 1)
    (hout : ((p :: ps).filterMap Part.output?).length ≤ 1) :
    c.adding (p :: ps) = (p.put c).adding ps := by
  unfold Command.adding Part.put
  cases p with
  | word w => simp [List.findSome?_cons, Part.word?, Part.input?, Part.output?]
  | input file =>
    have hnone : ps.findSome? Part.input? = none :=
      findSome_eq_none (List.length_eq_zero_iff.mp (Nat.le_zero.mp (Nat.le_of_succ_le_succ hin)))
    simp [List.filterMap_cons, List.findSome?_cons, Part.word?, Part.input?, Part.output?, hnone]
  | output append file =>
    have hnone : ps.findSome? Part.output? = none :=
      findSome_eq_none (List.length_eq_zero_iff.mp (Nat.le_zero.mp (Nat.le_of_succ_le_succ hout)))
    simp [List.filterMap_cons, List.findSome?_cons, Part.word?, Part.input?, Part.output?, hnone]

/-- The parts add what they are meant to. -/
theorem putAll_eq {ps : List Part} (hin : (ps.filterMap Part.input?).length ≤ 1)
    (hout : (ps.filterMap Part.output?).length ≤ 1) : putAll c ps = c.adding ps := by
  induction ps generalizing c with
  | nil => simp [putAll, Command.adding]
  | cons p ps ih =>
    have hsub := List.sublist_cons_self p ps
    rw [adding_cons hin hout]
    exact ih (Nat.le_trans (hsub.filterMap _).length_le hin)
      (Nat.le_trans (hsub.filterMap _).length_le hout)

/-- A command is the one that is meant. -/
theorem putAll_parts (w : Written) : putAll .fresh w.parts = w.command false := by
  have hparts : putAll .fresh w.parts = Command.fresh.adding w.parts := putAll_eq w.inputs w.outputs
  rw [hparts]
  unfold Written.command Command.adding Written.parts
  simp [Command.fresh, List.findSome?_cons, Part.input?, Part.output?]

theorem tokens_ne_nil (s : Script) : s.tokens.map Token.text ≠ [] := by
  cases s <;> exact nofun

/-- What is assembled of the tokens of commands, the first of which is to be made. -/
theorem assemble_script {s : Script} (hplain : s.Plain) (done : List Command) :
    (if mem k then
      assemble mem false done (some .fresh) (k + 1) (s.tokens.map Token.text) else .null) =
      if Grants mem k s.allocs then .commands (done ++ s.commands) else .null := by
  have hargs (w : Written) : Command.fresh.words.length + (w.parts.filterMap Part.word?).length ≤
    15 := by
    have hlt := w.args
    show 0 + ((w.rest.filterMap Part.word?).length + 1) ≤ 15
    omega
  induction s generalizing k done with
  | command w =>
    have hparts := @assemble_parts mem (k + 1) .fresh w.parts done [] hplain (hargs w)
    rw [List.append_nil, putAll_parts] at hparts
    unfold Script.allocs Script.tokens
    simp only [grants_add, grants_one, hparts, ite_and]
    rfl
  | joint w pipe rest ih =>
    have hplainw : ∀ t ∈ w.parts.filterMap Part.word?, isSymbol (t.headD 0) = false :=
      fun t ht => hplain t (List.mem_append_left _ ht)
    have hplainr : rest.Plain := fun t ht => hplain t (List.mem_append_right _ ht)
    unfold Script.tokens Script.allocs Script.commands
    rw [List.map_append, List.map_cons, assemble_parts hplainw (hargs w), putAll_parts,
      assemble_joint (tokens_ne_nil rest), ih hplainr]
    have hmeant : { w.command false with pipe := (w.command false).pipe || pipe } =
      w.command pipe := by
      unfold Written.command
      rw [Bool.false_or]
    simp only [grants_add, grants_one, ite_and, ← Nat.add_assoc, hmeant, List.append_assoc,
      List.singleton_append]

/-! ### The commands are the same -/

theorem cmd_injective : Function.Injective Command.cmd := by
  intro c d h
  obtain ⟨hlen, hargv, hout, hin, happ, hpipe⟩ := Cmd.mk.inj h
  have hwords : c.words = d.words := by
    refine List.ext_getElem hlen fun i hc hd => ?_
    have hget := congrFun hargv i
    rw [List.getElem?_eq_getElem hc, List.getElem?_eq_getElem hd] at hget
    exact Option.some.inj hget
  cases c
  cases d
  simp_all

/-- No word of the command begins with a symbol. -/
def Command.Plain (c : Command) : Prop := ∀ t ∈ c.words, isSymbol (t.headD 0) = false

theorem plain_word {t : Text} (h : c.Plain) (hsym : isSymbol (t.headD 0) = false) :
    ({ c with words := c.words ++ [t] } : Command).Plain :=
  List.forall_mem_append.mpr ⟨h, List.forall_mem_singleton.mpr hsym⟩

theorem plain_fresh : Command.fresh.Plain := nofun

/-- No word that is assembled begins with a symbol. -/
theorem plain_of_assemble {isOpen : Bool} {ts : List Text} {cs : List Command}
    (h : assemble mem isOpen [] none k ts = .commands cs) : ∀ c ∈ cs, c.Plain := by
  obtain ⟨done, cur, rfl, hdone, hcur⟩ := assemble_induction
    (I := fun done cur => (∀ c ∈ done, c.Plain) ∧ ∀ c ∈ cur, c.Plain) h ⟨nofun, nofun⟩
    (fun done t hsym hI => ⟨hI.1, fun c hc => Option.some.inj hc ▸ plain_word plain_fresh hsym⟩)
    (fun done c t hsym hI => ⟨hI.1, fun c' hc => Option.some.inj hc ▸ plain_word (hI.2 c rfl) hsym⟩)
    (fun done c file append hI => ⟨hI.1, fun c' hc => Option.some.inj hc ▸ hI.2 c rfl⟩)
    (fun done c file hI => ⟨hI.1, fun c' hc => Option.some.inj hc ▸ hI.2 c rfl⟩)
    (fun done c pipe hI =>
      ⟨List.forall_mem_append.mpr ⟨hI.1, List.forall_mem_singleton.mpr (hI.2 c rfl)⟩, fun c' hc =>
        Option.some.inj hc ▸ plain_fresh⟩)
  intro c hc
  rcases List.mem_append.mp hc with hold | hlast
  · exact hdone c hold
  · exact hcur c (Option.mem_toList.mp hlast)

theorem words_commands {s : Script} {t : Text} (h : t ∈ s.words) :
    ∃ c ∈ s.commands, t ∈ c.words := by
  induction s with
  | command w => exact ⟨_, List.mem_singleton_self _, h⟩
  | joint w pipe rest ih =>
    rcases List.mem_append.mp h with hw | hrest
    · exact ⟨_, List.mem_cons_self, hw⟩
    · obtain ⟨c, hc, ht⟩ := ih hrest
      exact ⟨c, List.mem_cons_of_mem _ hc, ht⟩

/-- What is assembled from the start. -/
theorem assemble_start {s : Script} (hplain : s.Plain) :
    assemble mem false [] none k (s.tokens.map Token.text) =
      if Grants mem k s.allocs then .commands s.commands else .null := by
  have hscript := @assemble_script mem k s hplain []
  have hfirst : ∃ t ts, s.tokens.map Token.text = t :: ts ∧ isSymbol (t.headD 0) = false := by
    cases s with
    | command w => exact ⟨_, _, rfl, hplain _ List.mem_cons_self⟩
    | joint w pipe rest => exact ⟨_, _, rfl, hplain _ (List.mem_append_left _ List.mem_cons_self)⟩
  obtain ⟨t, ts, hts, hsym⟩ := hfirst
  rw [hts] at hscript ⊢
  rw [assemble_first hsym]
  exact hscript

/-- What `parse` does with the line of a script is what its tokens give. -/
theorem parse_spaced {s : Script} {line : Text} (h : Spaced s.tokens line)
    (hline : line.length ≤ 511) :
    (assemble mem false [] none 0 (s.tokens.map Token.text)).Is (parse mem line) := by
  have his := @parseLoop_is mem line (Nat.lt_succ_of_le hline) [] none 0
  rw [tokens_spaced h] at his
  exact his

/-- A script that is read back is given by its tokens, and no word of it begins with a symbol. -/
theorem plain_of_parse {s : Script} {line : Text} (h : Spaced s.tokens line)
    (hline : line.length ≤ 511)
    (hparse : parse mem line = .returns 0 (s.commands.map Command.cmd)) :
    assemble mem false [] none 0 (s.tokens.map Token.text) = .commands s.commands ∧ s.Plain := by
  have his := hparse ▸ @parse_spaced mem s line h hline
  cases hv : assemble mem false [] none 0 (s.tokens.map Token.text) with
  | rejected =>
    rw [hv] at his
    obtain ⟨list, hlist⟩ := his
    exact absurd (Result.returns.inj hlist).1 (by decide)
  | opened | null =>
    rw [hv] at his
    exact absurd his nofun
  | commands cs =>
    rw [hv] at his
    obtain rfl := List.map_injective_iff.mpr cmd_injective (Result.returns.inj his).2
    refine ⟨rfl, fun t ht => ?_⟩
    obtain ⟨c, hc, hword⟩ := words_commands ht
    exact plain_of_assemble hv c hc t hword

/-- **`parse` of a line returns 0 and the commands that were written exactly when no word begins
with a symbol, which one in quotes can, and there is memory for the commands and their words and
files.** -/
theorem round_trip_iff {s : Script} {line : Text} (h : Spaced s.tokens line)
    (hline : line.length ≤ 511) :
    parse mem line = .returns 0 (s.commands.map Command.cmd) ↔ s.Plain ∧ Grants mem 0 s.allocs := by
  constructor
  · intro hparse
    obtain ⟨hv, hplain⟩ := plain_of_parse h hline hparse
    refine ⟨hplain, ?_⟩
    by_contra hno
    rw [assemble_start hplain, if_neg hno] at hv
    exact absurd hv nofun
  · rintro ⟨hplain, hgrants⟩
    have his := @parse_spaced mem s line h hline
    rw [assemble_start hplain, if_pos hgrants] at his
    exact his

end

/-- The word `a`. -/
def letter : Word := ⟨[97], false, ⟨List.cons_ne_nil _ _, List.forall_mem_singleton.mpr rfl⟩⟩

/-- The word `b c`, in quotes. -/
def spacedWord : Word := ⟨[98, 32, 99], true, show 34 ∉ [98, 32, 99] by decide⟩

/-- The commands `a "b c" < a | a >> a`. -/
def pipedLetters : Script :=
  .joint ⟨letter, [.word spacedWord, .input letter], by decide, by decide, by decide⟩ true
    (.command ⟨letter, [.output true letter], by decide, by decide, by decide⟩)

theorem spaced_pipedLetters :
    Spaced pipedLetters.tokens [97, 32, 34, 98, 32, 99, 34, 32, 60, 32, 97, 32, 124, 32, 97, 32, 62,
      62, 32, 97, 10] :=
  .token (.word letter) rfl <| .blank rfl <| .token (.word spacedWord) rfl <| .blank rfl <|
    .token .input rfl <| .blank rfl <| .token (.word letter) rfl <| .blank rfl <|
    .token (.joint true) rfl <| .blank rfl <| .token (.word letter) rfl <| .blank rfl <|
    .token (.output true) rfl <| .blank rfl <| .token (.word letter) rfl .newline

theorem plain_pipedLetters : pipedLetters.Plain := by
  unfold Script.Plain
  decide

theorem round_trip_iff_piped :
    Spaced pipedLetters.tokens [97, 32, 34, 98, 32, 99, 34, 32, 60, 32, 97, 32, 124, 32,
      97, 32, 62, 62, 32, 97, 10] ∧
    parse (fun _ => true) [97, 32, 34, 98, 32, 99, 34, 32, 60, 32, 97, 32, 124, 32, 97,
      32, 62, 62, 32, 97, 10] = .returns 0 (pipedLetters.commands.map Command.cmd) :=
  ⟨spaced_pipedLetters,
    (round_trip_iff spaced_pipedLetters (by decide)).mpr ⟨plain_pipedLetters, by decide⟩⟩

/-- The word `;`, in quotes. -/
def semicolon : Word := ⟨[59], true, show 34 ∉ [59] by decide⟩

/-- The command `a ";"`. -/
def quotedSymbol : Script := .command ⟨letter, [.word semicolon], by decide, by decide, by decide⟩

theorem spaced_quotedSymbol : Spaced quotedSymbol.tokens [97, 32, 34, 59, 34, 10] :=
  .token (.word letter) rfl (.blank rfl (.token (.word semicolon) rfl .newline))

/-- `a ";"` is not read back. -/
theorem not_round_trip : ¬∀ (mem : ℕ → Bool) (s : Script) (line : Text), Spaced s.tokens line →
    line.length ≤ 511 → parse mem line = .returns 0 (s.commands.map Command.cmd) := by
  intro h
  have hreads := h (fun _ => true) quotedSymbol _ spaced_quotedSymbol (by decide)
  have hplain := (plain_of_parse spaced_quotedSymbol (by decide) hreads).2
  have hsymbol : isSymbol 59 = false := hplain [59] (List.mem_cons_of_mem _ List.mem_cons_self)
  exact Bool.false_ne_true hsymbol.symm

end Cosiris.Shell
