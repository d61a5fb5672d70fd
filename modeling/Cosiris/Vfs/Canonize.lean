import Mathlib.Data.List.Basic
import Mathlib.Data.List.Induction

/-!
# Cleaning a path

`clean_path` of `canonize.c` rewrites a path in place with two indices: `i` reads, `j`
writes, and what has been written is never longer than what has been read. A component
`".."` takes the writing index back to the last separator, and steps over the separator
that follows it, so that the component after it is copied as it stands.

The model is compared with the list of components that the path stands for.
-/

namespace Cosiris.Vfs

/-- `'/'`. -/
def slash : UInt8 := 47

/-- `'.'`. -/
def period : UInt8 := 46

/-! ### The program -/

/-- `while (i < len && path[i] == '/') i++`. -/
def skipSlashes (path : List UInt8) (len : ℕ) : ℕ → ℕ → ℕ
  | 0, i => i
  | n + 1, i => if i < len ∧ path.getD i 0 = slash then skipSlashes path len n (i + 1) else i

/-- `while (j > 1 && path[j - 1] != '/') j--`. -/
def backToSlash (path : List UInt8) : ℕ → ℕ
  | 0 => 0
  | j + 1 => if j + 1 > 1 ∧ path.getD j 0 ≠ slash then backToSlash path j else j + 1

/-- What `".."` does to the writing index, where `i` is the index after it. -/
def dropComponent (path : List UInt8) (len i j : ℕ) : ℕ :=
  let j := if j > 1 ∧ path.getD j 0 = slash then j - 1 else j
  let j := backToSlash path j
  if i + 1 = len ∧ j > 1 ∧ path.getD (j - 1) 0 = slash then j - 1 else j

/-- The end of a round: `path[j++] = path[i]`. -/
def copyRound (next : List UInt8 → ℕ → ℕ → Option (List UInt8 × ℕ)) (path : List UInt8) (i j : ℕ) :
    Option (List UInt8 × ℕ) :=
  if j ≤ i then next (path.set j (path.getD i 0)) (i + 1) (j + 1) else none

/-- A round that has read the separators before `i`. -/
def slashRound (len : ℕ) (next : List UInt8 → ℕ → ℕ → Option (List UInt8 × ℕ)) (path : List UInt8)
  (i j : ℕ) :
    Option (List UInt8 × ℕ) :=
  if i < len ∧ path.getD i 0 = period ∧
    (i + 1 = len ∨ path.getD (i + 1) 0 = slash) then next path (i + 1) j
  else if i < len ∧ path.getD i 0 = period ∧ path.getD (i + 1) 0 = period ∧
      (i + 2 = len ∨ path.getD (i + 2) 0 = slash) then
    next path (i + 3) (dropComponent path len (i + 2) j)
  else if j ≤ i then
    if i < len ∨ j = 0 then
      if j + 1 = len then some (path.set j slash, j + 1) else copyRound next (path.set j slash) i
        (j + 1)
    else if j = len then some (path, j) else copyRound next path i j
  else none

/-- The loop of `clean_path`, from the test of its condition; `none` if an assertion fails. Every
round moves `i` on, so that `len + 1` rounds are enough. -/
def cleanLoop (len : ℕ) : ℕ → List UInt8 → ℕ → ℕ → Option (List UInt8 × ℕ)
  | 0, _, _, _ => none
  | n + 1, path, i, j =>
    if i < len ∧ j < len then
      if path.getD i 0 = slash then
        slashRound len (cleanLoop len n) path (skipSlashes path len len i) j
      else copyRound (cleanLoop len n) path i j
    else some (path, j)

/-- The string at the start of a buffer. -/
def cString (buf : List UInt8) : List UInt8 := buf.takeWhile (· ≠ 0)

/-- The end of `clean_path`: the string is cut at `j`, without a separator at its end. -/
def endPath (len : ℕ) (path : List UInt8) (j : ℕ) : Option (List UInt8) :=
  let j := if j = 0 then 1 else j
  let path := path.set j 0
  let j := if j > 1 ∧ path.getD (j - 1) 0 = slash then j - 1 else j
  let path := path.set j 0
  if j ≤ len ∧ 0 < j then some (cString path) else none

/-- `clean_path`: the string it leaves in the buffer. -/
def cleanPath (path : List UInt8) : Option (List UInt8) := do
  let (buf, j) ← cleanLoop path.length (path.length + 1) (path ++ [0]) 0 0
  endPath path.length buf j

/-- `canonize_path`; it panics if the path is relative and the prefix is not. -/
def canonizePath (pre path : List UInt8) : Option (List UInt8) :=
  if path.getD 0 0 = slash then cleanPath path
  else if pre.getD 0 0 = slash then cleanPath (pre ++ slash :: path)
  else none

/-! ### What it is for -/

/-- The components of a path, resolved: empty components and `"."` are dropped and `".."` removes
the component before it. The last component stands first. -/
def resolve (stack : List (List UInt8)) : List (List UInt8) → List (List UInt8)
  | [] => stack
  | c :: cs =>
    if c = [] ∨ c = [period] then resolve stack cs
    else if c = [period, period] then resolve stack.tail cs
    else resolve (c :: stack) cs

/-- The components of a path. -/
def components (path : List UInt8) : List (List UInt8) := path.splitOn slash

/-- The path with the given components. -/
def joined (cs : List (List UInt8)) : List UInt8 := slash :: [slash].intercalate cs

/-- The path that `canonize_path` is to clean. -/
def fullPath (pre path : List UInt8) : List UInt8 :=
  if path.getD 0 0 = slash then path else pre ++ slash :: path

/-- The canonical form of a path. -/
def canonical (path : List UInt8) : List UInt8 := joined (resolve [] (components path)).reverse

/-! ### When it works -/

/-- How far a path has been cleaned, by what has been written: nothing; nothing, with the component
after a `".."` to come; `d` components; `d` components and a separator, with the component after a
`".."` to come; `d` components and a separator. -/
inductive Mode where
  | fresh
  | freshRaw
  | plain (d : ℕ)
  | popped (d : ℕ)
  | slashed (d : ℕ)

/-- No component is copied as it stands, after a `".."`, that is `"."` or `".."` or the first to be
written, and no separator is written, or taken for the end of a component, after a separator. -/
def Mode.Clean : Mode → List (List UInt8) → Prop
  | fresh, [] | freshRaw, [] | plain _, [] | popped _, [] | slashed _, [] => True
  | fresh, c :: cs =>
    if c = [] ∨ c = [period] then fresh.Clean cs
    else if c = [period, period] then freshRaw.Clean cs
    else (plain 1).Clean cs
  | freshRaw, c :: cs => c = [] ∧ fresh.Clean cs
  | plain d, c :: cs =>
    if c = [] ∨ c = [period] then (plain d).Clean cs
    else if c = [period, period] then (popped (d - 1)).Clean cs
    else (plain (d + 1)).Clean cs
  | popped d, c :: cs =>
    if c = [] then (slashed d).Clean cs
    else c ≠ [period] ∧ c ≠ [period, period] ∧ (plain (d + 1)).Clean cs
  | slashed d, c :: cs =>
    if c = [] then (cs = [] → d = 0) ∧ (slashed d).Clean cs
    else if c = [period] then (slashed d).Clean cs
    else c = [period, period] ∧ d = 0 ∧ (popped 0).Clean cs

instance Mode.decidableClean : ∀ (cs : List (List UInt8)) (m : Mode), Decidable (m.Clean cs)
  | [], .fresh | [], .freshRaw | [], .plain _ | [], .popped _ | [], .slashed _ => isTrue trivial
  | c :: cs, .fresh =>
    have := decidableClean cs
    inferInstanceAs (Decidable (if c = [] ∨ c = [period] then fresh.Clean cs
      else if c = [period, period] then freshRaw.Clean cs else (plain 1).Clean cs))
  | c :: cs, .freshRaw =>
    have := decidableClean cs
    inferInstanceAs (Decidable (c = [] ∧ fresh.Clean cs))
  | c :: cs, .plain d =>
    have := decidableClean cs
    inferInstanceAs (Decidable (if c = [] ∨ c = [period] then (plain d).Clean cs
      else if c = [period, period] then (popped (d - 1)).Clean cs else (plain (d + 1)).Clean cs))
  | c :: cs, .popped d =>
    have := decidableClean cs
    inferInstanceAs (Decidable (if c = [] then (slashed d).Clean cs
      else c ≠ [period] ∧ c ≠ [period, period] ∧ (plain (d + 1)).Clean cs))
  | c :: cs, .slashed d =>
    have := decidableClean cs
    inferInstanceAs (Decidable (if c = [] then (cs = [] → d = 0) ∧ (slashed d).Clean cs
      else if c = [period] then (slashed d).Clean cs else c = [period, period] ∧ d = 0 ∧
        (popped 0).Clean cs))

/-! ### The loop -/

/-- The loop stands at `i` and `j`: `out` has been written and `rest` is still to be read. -/
structure At (len : ℕ) (path : List UInt8) (i j : ℕ) (out rest : List UInt8) : Prop where
  length : path.length = len + 1
  written : path.take j = out
  drop : path.drop i = rest ++ [0]
  le : j ≤ i

/-- From `i` and `j` on, the loop ends with `out` written. -/
def Ends (len : ℕ) (path : List UInt8) (i j : ℕ) (out : List UInt8) : Prop :=
  ∀ n, 0 < n → len < n + i → ∃ path', cleanLoop len n path i j = some (path', out.length) ∧
    path'.length = len + 1 ∧ path'.take out.length = out ∧ out.length ≤ len ∧
      (out = [] → path'.getD 0 0 = slash)

section

variable {len i j : ℕ} {path out rest o r : List UInt8} {x : UInt8}

theorem getD_drop (l : List UInt8) (i k : ℕ) : (l.drop i).getD k 0 = l.getD (i + k) 0 := by
  simp [List.getD_eq_getElem?_getD, List.getElem?_drop]

theorem getD_take {l : List UInt8} {j k : ℕ} (h : k < j) : (l.take j).getD k 0 = l.getD k 0 := by
  simp [List.getD_eq_getElem?_getD, h]

namespace At

theorem lt (h : At len path i j out rest) : i + rest.length = len := by
  have := congrArg List.length h.drop
  rw [List.length_drop, List.length_append, h.length, List.length_singleton] at this
  omega

theorem length_out (h : At len path i j out rest) : out.length = j := by
  have := h.lt
  have := h.le
  rw [← h.written, List.length_take, h.length]
  omega

theorem get (h : At len path i j out rest) (k : ℕ) :
    path.getD (i + k) 0 = (rest ++ [0]).getD k 0 := by
  rw [← h.drop, getD_drop]

theorem get_zero (h : At len path i j out rest) : path.getD i 0 = (rest ++ [0]).getD 0 0 := h.get 0

/-- One more character has been read. -/
theorem skip (h : At len path i j out (x :: rest)) : At len path (i + 1) j out rest := by
  refine ⟨h.length, h.written, ?_, Nat.le_succ_of_le h.le⟩
  rw [← List.drop_drop, h.drop]
  rfl

/-- A character has been written where one was read. -/
theorem copy (h : At len path i j out (x :: rest)) (y : UInt8) :
    At len (path.set j y) (i + 1) (j + 1) (out ++ [y]) rest := by
  have hlt := h.lt
  have hle := h.le
  have hj : j < path.length := by
    rw [h.length]
    omega
  refine ⟨by rw [List.length_set, h.length], ?_, ?_, Nat.succ_le_succ hle⟩
  · rw [List.take_add_one, List.take_set_of_le (Nat.le_refl j), h.written,
      List.getElem?_set_self hj]
    rfl
  · rw [List.drop_set_of_lt (Nat.lt_succ_of_le hle)]
    exact h.skip.drop

end At

theorem skipSlashes_succ (path : List UInt8) (len n i : ℕ) : skipSlashes path len (n + 1) i =
    if i < len ∧ path.getD i 0 = slash then skipSlashes path len n (i + 1) else i := rfl

theorem skipSlashes_fuel (n : ℕ) (h : len ≤ n + i) :
    skipSlashes path len (n + 1) i = skipSlashes path len n i := by
  induction n generalizing i with
  | zero =>
    rw [skipSlashes_succ, if_neg (by omega)]
    rfl
  | succ n ih =>
    rw [skipSlashes_succ _ _ (n + 1) i, skipSlashes_succ _ _ n i]
    split_ifs
    · exact ih (by omega)
    · rfl

theorem skipSlashes_slash (hi : i < len) (hs : path.getD i 0 = slash) :
    skipSlashes path len len i = skipSlashes path len len (i + 1) := by
  cases len with
  | zero => omega
  | succ len =>
    rw [skipSlashes_succ, if_pos ⟨hi, hs⟩]
    exact (skipSlashes_fuel len (by omega)).symm

theorem skipSlashes_stop (h : ¬ (i < len ∧ path.getD i 0 = slash)) :
    skipSlashes path len len i = i := by
  cases len with
  | zero => rfl
  | succ len => rw [skipSlashes, if_neg h]

theorem Ends.stop (hl : path.length = len + 1) (hw : path.take j = out) (hj : out.length = j)
    (hi : len ≤ i)
    (hle : j ≤ len) (h0 : out = [] → path.getD 0 0 = slash) : Ends len path i j out := by
  intro n hn _
  obtain ⟨n, rfl⟩ := Nat.exists_eq_succ_of_ne_zero (Nat.ne_of_gt hn)
  refine ⟨path, ?_, hl, by rw [hj, hw], by omega, h0⟩
  rw [cleanLoop, if_neg (by omega), hj]

theorem At.ends_nil (h : At len path i j out []) (h0 : out = [] → path.getD 0 0 = slash) :
    Ends len path i j out := by
  have hlt := h.lt
  have hle := h.le
  simp only [List.length_nil] at hlt
  exact Ends.stop h.length h.written h.length_out (by omega) (by omega) h0

/-- The loop in a round that goes on at `i'` and `j'`. -/
theorem Ends.step {path' : List UInt8} {i' j' : ℕ} (h : Ends len path' i' j' o) (hi : i < len)
    (hlt : i < i')
    (hstep : ∀ n, cleanLoop len (n + 1) path i j = cleanLoop len n path' i' j') :
    Ends len path i j o := by
  intro n hn hfuel
  obtain ⟨n, rfl⟩ := Nat.exists_eq_succ_of_ne_zero (Nat.ne_of_gt hn)
  rw [Nat.succ_eq_add_one, hstep]
  exact h n (by omega) (by omega)

theorem cleanLoop_slash {n : ℕ} (hi : i < len) (hj : j ≤ i) (h : path.getD i 0 = slash) :
    cleanLoop len (n + 1) path i j =
      slashRound len (cleanLoop len n) path (skipSlashes path len len i) j := by
  rw [cleanLoop, if_pos ⟨hi, Nat.lt_of_le_of_lt hj hi⟩, if_pos h]

theorem At.skip_one (h : At len path i j out (slash :: r)) (hr : ∀ r', r ≠ slash :: r') :
    skipSlashes path len len i = i + 1 := by
  have hlt := h.lt
  simp only [List.length_cons] at hlt
  rw [skipSlashes_slash (by omega) h.get_zero, skipSlashes_stop]
  rintro ⟨hi, hs⟩
  cases r with
  | nil => simp at hlt; omega
  | cons y r => exact hr r (congrArg (· :: r) ((h.get 1).symm.trans hs))

/-- Two separators count as one. -/
theorem At.ends_slashes (h : At len path i j out (slash :: slash :: r))
    (he : Ends len path (i + 1) j o) :
    Ends len path i j o := by
  have hlt := h.lt
  have hle := h.le
  simp only [List.length_cons] at hlt
  have h0 : path.getD i 0 = slash := h.get_zero
  have h1 : path.getD (i + 1) 0 = slash := h.get 1
  intro n hn hfuel
  obtain ⟨n, rfl⟩ := Nat.exists_eq_succ_of_ne_zero (Nat.ne_of_gt hn)
  obtain ⟨path', hrun, hp⟩ := he (n + 1) hn (by omega)
  refine ⟨path', ?_, hp⟩
  rw [← hrun, Nat.succ_eq_add_one, cleanLoop_slash (by omega) (by omega) h0,
    cleanLoop_slash (by omega) (by omega) h1,
    skipSlashes_slash (by omega) h0]

/-- The separators at the end of the path: a zero is copied. -/
theorem At.ends_slash (h : At len path i j out [slash]) (hne : out ≠ []) :
    Ends len path i j (out ++ [0]) := by
  have hlt := h.lt
  simp only [List.length_singleton] at hlt
  have hj : j ≠ 0 := by
    rw [← h.length_out]
    exact fun e => hne (List.length_eq_zero_iff.mp e)
  have h1 : path.getD (i + 1) 0 = 0 := h.get 1
  have hle := h.le
  have hcopy := h.copy 0
  have hend : Ends len (path.set j 0) (i + 2) (j + 1) (out ++ [0]) :=
    Ends.stop hcopy.length hcopy.written hcopy.length_out (by omega) (by omega) (by simp)
  refine hend.step (by omega) (by omega) fun n => ?_
  rw [cleanLoop_slash (by omega) hle h.get_zero, h.skip_one (by simp), slashRound,
    if_neg (by omega),
    if_neg (by omega),
    if_pos (by omega), if_neg (by omega), if_neg (by omega), copyRound, if_pos (by omega), h1]

/-- The path has no components. -/
theorem At.ends_root (h : At len path i 0 [] [slash]) :
    Ends len path i 0 [slash] ∨ Ends len path i 0 [slash, 0] := by
  have hlt := h.lt
  simp only [List.length_singleton] at hlt
  have hset := h.copy slash
  have hround : ∀ n, cleanLoop len (n + 1) path i 0 = if 0 + 1 = len then
    some (path.set 0 slash, 0 + 1)
      else copyRound (cleanLoop len n) (path.set 0 slash) (i + 1) 1 := fun n => by
    rw [cleanLoop_slash (by omega) h.le h.get_zero, h.skip_one (by simp), slashRound,
      if_neg (by omega), if_neg (by omega),
      if_pos (by omega), if_pos (.inr rfl)]
  by_cases h1 : 0 + 1 = len
  · refine .inl fun n hn _ =>
      ⟨path.set 0 slash, ?_, hset.length, hset.written, by simp; omega, by simp⟩
    obtain ⟨n, rfl⟩ := Nat.exists_eq_succ_of_ne_zero (Nat.ne_of_gt hn)
    rw [Nat.succ_eq_add_one, hround, if_pos h1]
    rfl
  · have hzero : (path.set 0 slash).getD (i + 1) 0 = 0 := hset.get_zero
    have hl : 1 < (path.set 0 slash).length := by
      rw [hset.length]
      omega
    have hend : Ends len ((path.set 0 slash).set 1 0) (i + 2) 2 [slash, 0] := by
      refine Ends.stop (by rw [List.length_set, hset.length]) ?_ rfl (by omega) (by omega) (by simp)
      rw [List.take_add_one, List.take_set_of_le (Nat.le_refl 1), hset.written,
        List.getElem?_set_self hl]
      rfl
    refine .inr (hend.step (by omega) (by omega) fun n => ?_)
    rw [hround, if_neg h1, copyRound, if_pos (by omega), hzero]

/-- A component `"."`. -/
theorem At.ends_dot (h : At len path i j out (slash :: period :: r))
    (hr : r = [] ∨ ∃ r', r = slash :: r')
    (he : Ends len path (i + 2) j o) : Ends len path i j o := by
  have hlt := h.lt
  have hle := h.le
  simp only [List.length_cons] at hlt
  have h2 : i + 1 + 1 = len ∨ path.getD (i + 1 + 1) 0 = slash := by
    rcases hr with rfl | ⟨r', rfl⟩
    · exact .inl (by simpa using hlt)
    · exact .inr (h.get 2)
  refine he.step (by omega) (by omega) fun n => ?_
  rw [cleanLoop_slash (by omega) hle h.get_zero, h.skip_one (by simp [period, slash]), slashRound,
    if_pos ⟨by omega, h.get 1, h2⟩]

/-- A component `".."`. -/
theorem At.ends_dots (h : At len path i j out (slash :: period :: period :: r))
    (hr : r = [] ∨ ∃ r', r = slash :: r')
    (he : Ends len path (i + 4) (dropComponent path len (i + 3) j) o) : Ends len path i j o := by
  have hlt := h.lt
  have hle := h.le
  simp only [List.length_cons] at hlt
  have h2 : path.getD (i + 1 + 1) 0 = period := h.get 2
  have h3 : i + 1 + 2 = len ∨ path.getD (i + 1 + 2) 0 = slash := by
    rcases hr with rfl | ⟨r', rfl⟩
    · exact .inl (by simpa using hlt)
    · exact .inr (h.get 3)
  refine he.step (by omega) (by omega) fun n => ?_
  rw [cleanLoop_slash (by omega) hle h.get_zero, h.skip_one (by simp [period, slash]), slashRound,
    if_neg ?_,
    if_pos ⟨by omega, h.get 1, h2, h3⟩]
  rw [h2]
  rintro ⟨-, -, hc | hc⟩
  · omega
  · cases hc

/-- The first character of any other component, after a separator. -/
theorem At.ends_push {c : List UInt8} (h : At len path i j out (slash :: (x :: c ++ r)))
    (hx : x ≠ slash)
    (hs : slash ∉ c) (hr : r = [] ∨ ∃ r', r = slash :: r') (h1 : x :: c ≠ [period])
    (h2 : x :: c ≠ [period, period])
    (he : Ends len ((path.set j slash).set (j + 1) x) (i + 2) (j + 2) o) : Ends len path i j o := by
  have hlt := h.lt
  have hle := h.le
  simp only [List.length_cons, List.length_append] at hlt
  have hset := h.copy slash
  have hx0 : (path.set j slash).getD (i + 1) 0 = x := hset.get_zero
  have hx1 : path.getD (i + 1) 0 = x := h.get 1
  have hget : ∀ k, path.getD (i + 1 + k) 0 = (x :: c ++ r ++ [0]).getD k 0 := h.skip.get
  refine he.step (by omega) (by omega) fun n => ?_
  rw [cleanLoop_slash (by omega) hle h.get_zero, h.skip_one (fun r' e => hx (List.cons.inj e).1),
    slashRound, if_neg ?_,
    if_neg ?_, if_pos (by omega), if_pos (.inl (by omega)), if_neg (by omega), copyRound,
      if_pos (by omega), hx0]
  · -- the component is not `".."`
    rintro ⟨-, hp, hp', hend⟩
    rw [hx1] at hp
    rw [hget 1] at hp'
    cases c with
    | nil => rcases hr with rfl | ⟨r', rfl⟩ <;> cases hp'
    | cons y c =>
      have hy : y = period := hp'
      cases c with
      | nil => exact h2 (by rw [hp, hy])
      | cons z c =>
        rcases hend with hend | hend
        · simp only [List.length_cons] at hlt
          omega
        · rw [hget 2] at hend
          exact hs (by rw [← hend]; simp)
  · -- the component is not `"."`
    rintro ⟨-, hp, hend⟩
    rw [hx1] at hp
    cases c with
    | nil => exact h1 (by rw [hp])
    | cons y c =>
      rcases hend with hend | hend
      · simp only [List.length_cons] at hlt
        omega
      · rw [hget 1] at hend
        exact hs (by rw [← hend]; exact List.mem_cons_self)

/-- A character that is not a separator. -/
theorem At.ends_char (h : At len path i j out (x :: r)) (hx : x ≠ slash)
    (he : Ends len (path.set j x) (i + 1) (j + 1) o) : Ends len path i j o := by
  have hlt := h.lt
  have hle := h.le
  simp only [List.length_cons] at hlt
  have h0 : path.getD i 0 = x := h.get_zero
  refine he.step (by omega) (by omega) fun n => ?_
  rw [cleanLoop, if_pos (by omega), if_neg (by rw [h0]; exact hx), copyRound, if_pos hle, h0]

/-- A component is copied as it stands. -/
theorem At.ends_copy {c : List UInt8} (h : At len path i j out (c ++ r)) (hs : slash ∉ c) :
    ∃ path' i' j', At len path' i' j' (out ++ c) r ∧ ∀ o, Ends len path' i' j' o →
      Ends len path i j o := by
  induction c generalizing path i j out with
  | nil => exact ⟨path, i, j, by simpa using h, fun _ he => he⟩
  | cons x c ih =>
    obtain ⟨hx, hs⟩ := And.intro (List.ne_of_not_mem_cons hs) (List.not_mem_of_not_mem_cons hs)
    obtain ⟨path', i', j', h', he⟩ := ih (h.copy x) hs
    exact ⟨path', i', j', by simpa using h', fun o ho => At.ends_char h (Ne.symm hx) (he o ho)⟩

/-! ### One component at a time -/

/-- The components, each after a separator. -/
def flat (cs : List (List UInt8)) : List UInt8 := (cs.map (slash :: ·)).flatten

@[simp] theorem flat_nil : flat [] = [] := rfl

@[simp] theorem flat_cons (c : List UInt8) (cs : List (List UInt8)) :
    flat (c :: cs) = slash :: (c ++ flat cs) := rfl

theorem flat_append (cs ds : List (List UInt8)) : flat (cs ++ ds) = flat cs ++ flat ds := by
  simp [flat]

theorem flat_head (cs : List (List UInt8)) : flat cs = [] ∨ ∃ r, flat cs = slash :: r := by
  cases cs with
  | nil => exact .inl rfl
  | cons c cs => exact .inr ⟨_, rfl⟩

theorem eq_of_flat_length {cs : List (List UInt8)} (h : (flat cs).length = 1) : cs = [[]] := by
  cases cs with
  | nil => cases h
  | cons c cs =>
    simp only [flat_cons, List.length_cons, List.length_append] at h
    have hc : c = [] := List.length_eq_zero_iff.mp (by omega)
    have hcs : flat cs = [] := List.length_eq_zero_iff.mp (by omega)
    rcases cs with - | ⟨d, ds⟩
    · rw [hc]
    · cases hcs

/-- A component that is neither empty nor `"."` nor `".."`. -/
structure Regular (c : List UInt8) : Prop where
  ne_nil : c ≠ []
  ne_dot : c ≠ [period]
  ne_dots : c ≠ [period, period]
  noSlash : slash ∉ c

/-- A component is written after a separator. -/
theorem At.ends_regular {c : List UInt8} {cs : List (List UInt8)}
    (h : At len path i j out (flat (c :: cs)))
    (hc : Regular c) : ∃ path' i' j', At len path' i' j' (out ++ slash :: c) (flat cs) ∧
      ∀ o, Ends len path' i' j' o → Ends len path i j o := by
  obtain ⟨hne, h1, h2, hs⟩ := hc
  cases c with
  | nil => exact absurd rfl hne
  | cons x c =>
    obtain ⟨hx, hs⟩ := And.intro (List.ne_of_not_mem_cons hs) (List.not_mem_of_not_mem_cons hs)
    obtain ⟨path', i', j', h', he⟩ := At.ends_copy (r := flat cs) ((h.copy slash).copy x) hs
    refine ⟨path', i', j',
      ?_, fun o ho => At.ends_push h (Ne.symm hx) hs (flat_head cs) h1 h2 (he o ho)⟩
    simpa only [List.append_assoc, List.cons_append, List.nil_append] using h'

/-! ### Going back -/

/-- The writing index goes back to the last separator. -/
theorem backToSlash_eq {st c : List UInt8}
    (hw : path.take (st.length + 1 + c.length) = st ++ slash :: c)
    (hs : slash ∉ c) : backToSlash path (st.length + 1 + c.length) = st.length + 1 := by
  induction c using List.reverseRecOn with
  | nil =>
    have hlast : path.getD st.length 0 = slash := by
      rw [← getD_take (Nat.lt_succ_self st.length)]
      have : path.take (st.length + 1) = st ++ [slash] := hw
      rw [this]
      simp
    show (if _ then _ else _) = _
    rw [if_neg fun hc => hc.2 hlast]
  | append_singleton c y ih =>
    have hlen : st.length + 1 + (c ++ [y]).length = st.length + 1 + c.length + 1 := by simp; omega
    rw [hlen] at hw ⊢
    have hy : path.getD (st.length + 1 + c.length) 0 = y := by
      rw [← getD_take (Nat.lt_succ_self _), hw]
      simp [List.getD_eq_getElem?_getD, Nat.add_assoc, Nat.add_comm 1]
    have hys : y ≠ slash := by
      rintro rfl
      simp at hs
    show (if _ then _ else _) = _
    rw [if_pos ⟨by omega, by rw [hy]; exact hys⟩]
    refine ih ?_ fun hc => hs (List.mem_append_left _ hc)
    have := congrArg (List.take (st.length + 1 + c.length)) hw
    rw [List.take_take, Nat.min_eq_left (Nat.le_succ _)] at this
    rw [this, ← List.cons_append, ← List.append_assoc]
    exact List.take_left' (by simp; omega)

/-- A component is removed, and the separator before it stays unless the path ends there. -/
theorem dropComponent_eq {st c : List UInt8} {k : ℕ} (hw : path.take j = st ++ slash :: c)
    (hj : (st ++ slash :: c).length = j)
    (hc : c ≠ []) (hs : slash ∉ c) :
    dropComponent path len k j = if k + 1 = len ∧
      1 < st.length + 1 then st.length else st.length + 1 := by
  have hlen : j = st.length + 1 + c.length := by
    rw [← hj]
    simp
    omega
  have hpos : 0 < c.length := List.length_pos_iff.mpr hc
  have hback : backToSlash path (if j > 1 ∧ path.getD j 0 = slash then j - 1 else j) =
    st.length + 1 := by
    split_ifs
    · have hd : j - 1 = st.length + 1 + c.dropLast.length := by
        rw [List.length_dropLast]
        omega
      rw [hd]
      refine backToSlash_eq ?_ fun hm => hs ((List.dropLast_sublist c).subset hm)
      have := congrArg (List.take (j - 1)) hw
      rw [List.take_take, Nat.min_eq_left (Nat.sub_le _ _), hd] at this
      rw [this]
      conv_lhs => rw [← List.dropLast_append_getLast hc, ← List.cons_append, ← List.append_assoc]
      exact List.take_left' (by simp; omega)
    · rw [hlen]
      exact backToSlash_eq (by rw [← hlen]; exact hw) hs
  have hlast : path.getD st.length 0 = slash := by
    rw [← getD_take (j := j) (by omega), hw]
    simp
  show (if k + 1 = len ∧ backToSlash path _ > 1 ∧ path.getD (backToSlash path _ - 1) 0 = slash then
    backToSlash path _ - 1 else backToSlash path _) = _
  rw [hback]
  refine if_congr ?_ rfl rfl
  simp only [Nat.add_sub_cancel, hlast, and_true, gt_iff_lt]

theorem dropComponent_of_le {k : ℕ} (hj : j ≤ 1) : dropComponent path len k j = j := by
  have hback : backToSlash path j = j := by
    obtain rfl | rfl : j = 0 ∨ j = 1 := by omega
    · rfl
    · show (if _ then _ else _) = _
      rw [if_neg fun hc => absurd hc.1 (by decide)]
  unfold dropComponent
  dsimp only
  rw [if_neg (show ¬ (j > 1 ∧ path.getD j 0 = slash) by omega), hback, if_neg (by omega)]

/-! ### The whole path -/

/-- The loop stands after the separator that follows a `".."`, or past the end. -/
def AtRaw (len : ℕ) (path : List UInt8) (i j : ℕ) (out : List UInt8) : List (List UInt8) → Prop
  | [] => path.length = len + 1 ∧ path.take j = out ∧ out.length = j ∧ len ≤ i ∧ j ≤ len
  | c :: cs => At len path i j out (c ++ flat cs)

/-- Where the loop stands, by the mode: the components in `st`, the last one first, have been
written, and those in `cs` are still to be read. -/
def Mode.Stands (len : ℕ) (path : List UInt8) (i j : ℕ) (st cs : List (List UInt8)) : Mode → Prop
  | fresh => st = [] ∧ path.getD 0 0 = slash ∧ At len path i j [] (flat cs)
  | freshRaw => st = [] ∧ path.getD 0 0 = slash ∧ AtRaw len path i j [] cs
  | plain d => st ≠ [] ∧ st.length = d ∧ At len path i j (flat st.reverse) (flat cs)
  | popped d => st.length = d ∧ (AtRaw len path i j (flat st.reverse ++ [slash]) cs ∨
      cs = [[]] ∧ st ≠ [] ∧ AtRaw len path i j (flat st.reverse) cs)
  | slashed d => st.length = d ∧ At len path i j (flat st.reverse ++ [slash]) (flat cs)

/-- What the loop may have written when the path has the components `st`: a separator or a zero
may follow them. -/
def Finished (st : List (List UInt8)) (o : List UInt8) : Prop :=
  if st = [] then o = [] ∨ o = [slash] ∨ o = [slash, 0]
  else o = flat st.reverse ∨ o = flat st.reverse ++ [slash] ∨ o = flat st.reverse ++ [0]

theorem finished_slash (st : List (List UInt8)) : Finished st (flat st.reverse ++ [slash]) := by
  unfold Finished
  split_ifs with h
  · subst h
    exact .inr (.inl rfl)
  · exact .inr (.inl rfl)

/-- After a `".."` that removes nothing. -/
theorem At.raw_of_dots {cs : List (List UInt8)}
    (h : At len path i j out (flat ([period, period] :: cs))) (hj : j ≤ 1) :
    AtRaw len path (i + 4) (dropComponent path len (i + 3) j) out cs := by
  have h3 : At len path (i + 3) j out (flat cs) := h.skip.skip.skip
  rw [dropComponent_of_le hj]
  cases cs with
  | nil =>
    have := h3.lt
    simp only [flat_nil, List.length_nil] at this
    exact ⟨h.length, h.written, h.length_out, by omega, by omega⟩
  | cons c cs => exact h3.skip

/-- After a `".."` that removes the component `c`. -/
theorem At.raw_of_pop {st c : List UInt8} {cs : List (List UInt8)}
    (h : At len path i j (st ++ slash :: c) (flat ([period, period] :: cs))) (hc : Regular c) :
    AtRaw len path (i + 4) (dropComponent path len (i + 3) j) (st ++ [slash]) cs ∨
      cs = [[]] ∧ st ≠ [] ∧ AtRaw len path (i + 4) (dropComponent path len (i + 3) j) st cs := by
  have h3 : At len path (i + 3) j (st ++ slash :: c) (flat cs) := h.skip.skip.skip
  have hlt := h3.lt
  have hle := h.le
  have hlen := h.length_out
  simp only [List.length_append, List.length_cons] at hlen
  have hdrop : dropComponent path len (i + 3) j = _ :=
    dropComponent_eq h.written h.length_out hc.ne_nil hc.noSlash
  have hw : ∀ k, k ≤ j → path.take k = (st ++ slash :: c).take k := fun k hk => by
    rw [← h.written, List.take_take, Nat.min_eq_left hk]
  have hkeep : ∀ k o, k ≤ j → (st ++ slash :: c).take k = o → o.length = k →
    AtRaw len path (i + 4) k o cs := by
    intro k o hk ho hl
    cases cs with
    | nil =>
      simp only [flat_nil, List.length_nil] at hlt
      exact ⟨h.length, by rw [hw k hk, ho], hl, by omega, by omega⟩
    | cons d ds => exact ⟨h.length, by rw [hw k hk, ho], h3.skip.drop, by omega⟩
  have hsep : (st ++ slash :: c).take (st.length + 1) = st ++ [slash] := by
    rw [show st ++ slash :: c = (st ++ [slash]) ++ c by simp]
    exact List.take_left' (by simp)
  rw [hdrop]
  split_ifs with hend
  · refine .inr ⟨?_, ?_, hkeep _ _ (by omega) (List.take_left' rfl) rfl⟩
    · exact eq_of_flat_length (by omega)
    · rintro rfl
      simp at hend
  · exact .inl (hkeep _ _ (by omega) hsep (by simp))

theorem flat_reverse_cons (c : List UInt8) (st : List (List UInt8)) :
    flat (c :: st).reverse = flat st.reverse ++ slash :: c := by
  rw [List.reverse_cons, flat_append]
  simp

theorem flat_ne_nil {cs : List (List UInt8)} (h : cs ≠ []) : flat cs ≠ [] := by
  cases cs with
  | nil => exact absurd rfl h
  | cons c cs => simp

/-- **The loop ends with the components of the path written**, one component at a time. -/
theorem Mode.Stands.ends {cs : List (List UInt8)} (hcs : ∀ c ∈ cs, slash ∉ c) {m : Mode}
    {st : List (List UInt8)}
    (hst : ∀ c ∈ st, Regular c) (hs : m.Stands len path i j st cs) (hc : m.Clean cs) :
    ∃ o, Finished (resolve st cs) o ∧ Ends len path i j o := by
  induction cs generalizing m st path i j with
  | nil =>
    cases m with
    | fresh =>
      obtain ⟨rfl, h0, h⟩ := hs
      exact ⟨[], .inl rfl, h.ends_nil fun _ => h0⟩
    | freshRaw =>
      obtain ⟨rfl, h0, hl, hw, hj, hi, hle⟩ := hs
      exact ⟨[], .inl rfl, Ends.stop hl hw hj hi hle fun _ => h0⟩
    | plain d =>
      obtain ⟨hne, -, h⟩ := hs
      exact ⟨_, by rw [resolve, Finished, if_neg hne]; exact .inl rfl,
        h.ends_nil fun e => absurd e (flat_ne_nil (by simpa using hne))⟩
    | popped d =>
      obtain ⟨-, ⟨hl, hw, hj, hi, hle⟩ | ⟨h, -⟩⟩ := hs
      · exact ⟨_, finished_slash st, Ends.stop hl hw hj hi hle fun e => absurd e (by simp)⟩
      · cases h
    | slashed d =>
      obtain ⟨-, h⟩ := hs
      exact ⟨_, finished_slash st, h.ends_nil fun e => absurd e (by simp)⟩
  | cons c cs ih =>
    have hcs' : ∀ c ∈ cs, slash ∉ c := fun d hd => hcs d (List.mem_cons_of_mem _ hd)
    have hslash : slash ∉ c := hcs c List.mem_cons_self
    have hreg : c ≠ [] → c ≠ [period] → c ≠ [period, period] → Regular c := fun h1 h2 h3 =>
      ⟨h1, h2, h3, hslash⟩
    have hskip : c = [] ∨ c = [period] →
      resolve st (c :: cs) = resolve st cs := fun h => by rw [resolve, if_pos h]
    have hpush : Regular c → resolve st (c :: cs) = resolve (c :: st) cs := fun h => by
      rw [resolve, if_neg fun hc => hc.elim h.ne_nil h.ne_dot, if_neg h.ne_dots]
    have hdots : c = [period, period] → resolve st (c :: cs) = resolve st.tail cs := fun h => by
      rw [h, resolve, if_neg (by simp), if_pos rfl]
    have hst' : Regular c → ∀ d ∈ c :: st, Regular d := fun h d hd =>
      (List.mem_cons.mp hd).elim (fun e => e ▸ h) (hst d)
    cases m with
    | fresh =>
      obtain ⟨rfl, h0, h⟩ := hs
      have hj : j = 0 := h.length_out.symm
      rw [Mode.Clean] at hc
      by_cases h1 : c = []
      · rw [if_pos (.inl h1)] at hc
        rw [hskip (.inl h1)]
        subst h1
        rcases cs with - | ⟨d, ds⟩
        · subst hj
          exact (At.ends_root h).elim (fun he => ⟨_, .inr (.inl rfl), he⟩) fun he =>
            ⟨_, .inr (.inr rfl), he⟩
        · obtain ⟨o, ho, he⟩ := ih hcs' (m := .fresh) hst ⟨rfl, h0, h.skip⟩ hc
          exact ⟨o, ho, At.ends_slashes h he⟩
      · by_cases h2 : c = [period]
        · rw [if_pos (.inr h2)] at hc
          rw [hskip (.inr h2)]
          subst h2
          obtain ⟨o, ho, he⟩ := ih hcs' (m := .fresh) hst ⟨rfl, h0, h.skip.skip⟩ hc
          exact ⟨o, ho, At.ends_dot h (flat_head cs) he⟩
        · rw [if_neg fun hc => hc.elim h1 h2] at hc
          by_cases h3 : c = [period, period]
          · rw [if_pos h3] at hc
            rw [hdots h3]
            subst h3
            obtain ⟨o, ho, he⟩ :=
              ih hcs' (m := .freshRaw) hst ⟨rfl, h0, At.raw_of_dots h (by omega)⟩ hc
            exact ⟨o, ho, At.ends_dots h (flat_head cs) he⟩
          · rw [if_neg h3] at hc
            have hr := hreg h1 h2 h3
            rw [hpush hr]
            obtain ⟨path', i', j', h', he⟩ := At.ends_regular h hr
            obtain ⟨o, ho, he'⟩ :=
              ih hcs' (m := .plain 1) (hst' hr) ⟨by simp, rfl, by simpa using h'⟩ hc
            exact ⟨o, ho, he o he'⟩
    | freshRaw =>
      obtain ⟨rfl, h0, h⟩ := hs
      obtain ⟨rfl, hc⟩ := hc
      rw [hskip (.inl rfl)]
      exact ih hcs' (m := .fresh) hst ⟨rfl, h0, h⟩ hc
    | plain d =>
      obtain ⟨hne, hd, h⟩ := hs
      rw [Mode.Clean] at hc
      by_cases h1 : c = []
      · rw [if_pos (.inl h1)] at hc
        rw [hskip (.inl h1)]
        subst h1
        rcases cs with - | ⟨e, es⟩
        · refine ⟨_, ?_, At.ends_slash h (flat_ne_nil (by simpa using hne))⟩
          rw [resolve, Finished, if_neg hne]
          exact .inr (.inr rfl)
        · obtain ⟨o, ho, he⟩ := ih hcs' (m := .plain d) hst ⟨hne, hd, h.skip⟩ hc
          exact ⟨o, ho, At.ends_slashes h he⟩
      · by_cases h2 : c = [period]
        · rw [if_pos (.inr h2)] at hc
          rw [hskip (.inr h2)]
          subst h2
          obtain ⟨o, ho, he⟩ := ih hcs' (m := .plain d) hst ⟨hne, hd, h.skip.skip⟩ hc
          exact ⟨o, ho, At.ends_dot h (flat_head cs) he⟩
        · rw [if_neg fun hc => hc.elim h1 h2] at hc
          by_cases h3 : c = [period, period]
          · rw [if_pos h3] at hc
            rw [hdots h3]
            subst h3
            rcases st with - | ⟨e, st⟩
            · exact absurd rfl hne
            have hpop :=
              At.raw_of_pop (by rw [← flat_reverse_cons]; exact h) (hst e List.mem_cons_self)
            have hstands : (Mode.popped (d - 1)).Stands len path (i + 4)
              (dropComponent path len (i + 3) j) st cs := by
              refine ⟨by rw [← hd]; rfl, hpop.imp_right fun ⟨h1, h2, h3⟩ => ⟨h1, ?_, h3⟩⟩
              rintro rfl
              exact h2 rfl
            obtain ⟨o, ho, he⟩ := ih hcs' (fun x hx => hst x (List.mem_cons_of_mem _ hx)) hstands hc
            exact ⟨o, ho, At.ends_dots h (flat_head cs) he⟩
          · rw [if_neg h3] at hc
            have hr := hreg h1 h2 h3
            rw [hpush hr]
            obtain ⟨path', i', j', h', he⟩ := At.ends_regular h hr
            rw [← flat_reverse_cons] at h'
            obtain ⟨o, ho, he'⟩ :=
              ih hcs' (m := .plain (d + 1)) (hst' hr) ⟨by simp, by simp [hd], h'⟩ hc
            exact ⟨o, ho, he o he'⟩
    | popped d =>
      obtain ⟨hd, hs⟩ := hs
      rw [Mode.Clean] at hc
      by_cases h1 : c = []
      · rw [if_pos h1] at hc
        rw [hskip (.inl h1)]
        subst h1
        rcases hs with h | ⟨hnil, hne, h⟩
        · exact ih hcs' (m := .slashed d) hst ⟨hd, h⟩ hc
        · obtain rfl : cs = [] := by simpa using hnil
          exact ⟨_, by rw [resolve, Finished, if_neg hne]; exact .inl rfl,
            At.ends_nil h fun e => absurd e (flat_ne_nil (by simpa using hne))⟩
      · rw [if_neg h1] at hc
        obtain ⟨h2, h3, hc⟩ := hc
        have hr := hreg h1 h2 h3
        rw [hpush hr]
        rcases hs with h | ⟨hnil, -⟩
        · obtain ⟨path', i', j', h', he⟩ := At.ends_copy h hslash
          rw [List.append_assoc, List.singleton_append, ← flat_reverse_cons] at h'
          obtain ⟨o, ho, he'⟩ :=
            ih hcs' (m := .plain (d + 1)) (hst' hr) ⟨by simp, by simp [hd], h'⟩ hc
          exact ⟨o, ho, he o he'⟩
        · exact absurd (List.cons.inj hnil).1 h1
    | slashed d =>
      obtain ⟨hd, h⟩ := hs
      rw [Mode.Clean] at hc
      by_cases h1 : c = []
      · rw [if_pos h1] at hc
        rw [hskip (.inl h1)]
        subst h1
        rcases cs with - | ⟨e, es⟩
        · obtain rfl : st = [] := List.length_eq_zero_iff.mp (hd.trans (hc.1 rfl))
          exact ⟨_, .inr (.inr rfl), At.ends_slash h (by simp)⟩
        · obtain ⟨o, ho, he⟩ := ih hcs' (m := .slashed d) hst ⟨hd, h.skip⟩ hc.2
          exact ⟨o, ho, At.ends_slashes h he⟩
      · rw [if_neg h1] at hc
        by_cases h2 : c = [period]
        · rw [if_pos h2] at hc
          rw [hskip (.inr h2)]
          subst h2
          obtain ⟨o, ho, he⟩ := ih hcs' (m := .slashed d) hst ⟨hd, h.skip.skip⟩ hc
          exact ⟨o, ho, At.ends_dot h (flat_head cs) he⟩
        · rw [if_neg h2] at hc
          obtain ⟨h3, h0, hc⟩ := hc
          obtain rfl : st = [] := List.length_eq_zero_iff.mp (hd.trans h0)
          rw [hdots h3]
          subst h3
          have hj : 1 = j := h.length_out
          obtain ⟨o, ho, he⟩ :=
            ih hcs' (m := .popped 0) hst ⟨rfl, .inl (At.raw_of_dots h (by omega))⟩ hc
          exact ⟨o, ho, At.ends_dots h (flat_head cs) he⟩

end

/-! ### Components and paths -/

theorem not_mem_of_mem_components {p c : List UInt8} (h : c ∈ components p) : slash ∉ c := by
  induction p generalizing c with
  | nil =>
    rw [components, List.splitOn_nil, List.mem_singleton] at h
    simp [h]
  | cons x p ih =>
    rw [components, List.splitOn_cons_eq_if_modifyHead] at h
    split_ifs at h with hx
    · rcases List.mem_cons.mp h with rfl | h
      · simp
      · exact ih h
    · cases hs : p.splitOn slash with
      | nil => exact absurd hs (List.splitOn_ne_nil _ _)
      | cons d ds =>
        rw [hs] at h
        rcases List.mem_cons.mp h with rfl | h
        · have hd : slash ∉ d := ih (by rw [components, hs]; exact List.mem_cons_self)
          have hne : x ≠ slash := by simpa using hx
          simp [hd, Ne.symm hne]
        · exact ih (by rw [components, hs]; exact List.mem_cons_of_mem _ h)

theorem joined_eq_flat {cs : List (List UInt8)} (h : cs ≠ []) : joined cs = flat cs := by
  induction cs with
  | nil => exact absurd rfl h
  | cons c cs ih =>
    cases cs with
    | nil => simp [joined, List.intercalate]
    | cons d ds =>
      have := ih (by simp)
      unfold joined at this ⊢
      rw [List.intercalate_cons_cons, flat_cons, ← this]
      simp

theorem flat_components (q : List UInt8) : flat (components q) = slash :: q := by
  have hne : components q ≠ [] := List.splitOn_ne_nil _ _
  rw [← joined_eq_flat hne]
  unfold joined components
  rw [List.intercalate_splitOn]

theorem components_slash (q : List UInt8) : components (slash :: q) = [] :: components q := by
  rw [components, List.splitOn_cons_eq_if_modifyHead, if_pos (by simp)]
  rfl

theorem mem_flat {cs : List (List UInt8)} {c : List UInt8} {x : UInt8} (hc : c ∈ cs) (hx : x ∈ c) :
    x ∈ flat cs := by
  induction cs with
  | nil => cases hc
  | cons d ds ih =>
    rw [flat_cons]
    refine List.mem_cons_of_mem _ (List.mem_append.mpr ?_)
    rcases List.mem_cons.mp hc with rfl | hc
    · exact .inl hx
    · exact .inr (ih hc)

theorem eq_or_mem_of_mem_flat {cs : List (List UInt8)} {x : UInt8} (h : x ∈ flat cs) :
    x = slash ∨ ∃ c ∈ cs, x ∈ c := by
  induction cs with
  | nil => cases h
  | cons d ds ih =>
    rw [flat_cons] at h
    rcases List.mem_cons.mp h with h | h
    · exact .inl h
    · rcases List.mem_append.mp h with h | h
      · exact .inr ⟨d, List.mem_cons_self, h⟩
      · exact (ih h).imp_right fun ⟨c, hc, hx⟩ => ⟨c, List.mem_cons_of_mem _ hc, hx⟩

theorem getD_last_ne {st c : List UInt8} (hs : slash ∉ c) (hc : c ≠ []) :
    (st ++ slash :: c).getD ((st ++ slash :: c).length - 1) 0 ≠ slash := by
  obtain ⟨d, y, rfl⟩ : ∃ d y, c = d ++ [y] :=
    ⟨c.dropLast, c.getLast hc, (List.dropLast_append_getLast hc).symm⟩
  have hy : (st ++ slash :: (d ++ [y])).getD ((st ++ slash :: (d ++ [y])).length - 1) 0 = y := by
    rw [← List.cons_append, ← List.append_assoc]
    simp
  rw [hy]
  rintro rfl
  simp at hs

/-- What remains of the components of a path. -/
theorem mem_resolve {cs st : List (List UInt8)} {c : List UInt8} (h : c ∈ resolve st cs) :
    c ∈ st ∨ c ∈ cs ∧ c ≠ [] ∧ c ≠ [period] ∧ c ≠ [period, period] := by
  induction cs generalizing st with
  | nil => exact .inl h
  | cons d cs ih =>
    rw [resolve] at h
    have hmem : ∀ st', (c ∈ st' → c ∈ st) → c ∈ resolve st' cs →
        c ∈ st ∨ c ∈ d :: cs ∧ c ≠ [] ∧ c ≠ [period] ∧ c ≠ [period, period] := fun st' hst hr =>
      (ih hr).imp hst fun hc => ⟨List.mem_cons_of_mem _ hc.1, hc.2⟩
    split_ifs at h with h1 h2
    · exact hmem st id h
    · exact hmem st.tail List.mem_of_mem_tail h
    · rcases ih h with hc | hc
      · rcases List.mem_cons.mp hc with rfl | hc
        · exact .inr ⟨List.mem_cons_self, fun e => h1 (.inl e), fun e => h1 (.inr e), h2⟩
        · exact .inl hc
      · exact .inr ⟨List.mem_cons_of_mem _ hc.1, hc.2⟩

/-! ### The end of the string -/

theorem cString_eq {l x : List UInt8} (hx : l.take x.length = x) (hz : 0 ∉ x)
    (h0 : l.getD x.length 0 = 0) :
    cString l = x := by
  have hall : ∀ y ∈ x, decide (y ≠ 0) = true := fun y hy => decide_eq_true fun e => hz (e ▸ hy)
  have hsplit : l = x ++ l.drop x.length := by
    conv_lhs => rw [← List.take_append_drop x.length l, hx]
  rw [cString, hsplit, List.takeWhile_append_of_pos hall]
  cases hd : l.drop x.length with
  | nil => simp
  | cons y ys =>
    have hy : y = 0 := by
      rw [← h0, ← Nat.add_zero x.length, ← getD_drop, hd]
      rfl
    simp [hy]

theorem getD_set_self (l : List UInt8) (k : ℕ) : (l.set k 0).getD k 0 = 0 := by
  rw [List.getD_eq_getElem?_getD, List.getElem?_set, if_pos rfl]
  split_ifs <;> rfl

theorem getD_set_of_lt {l : List UInt8} {j k : ℕ} (h : k < j) :
    (l.set j 0).getD k 0 = l.getD k 0 := by
  rw [List.getD_eq_getElem?_getD, List.getElem?_set_ne (by omega), ← List.getD_eq_getElem?_getD]

section

variable {len : ℕ} {path x : List UInt8}

/-- The loop has written the string. -/
theorem endPath_self (ho : path.take x.length = x) (hle : x.length ≤ len) (hz : 0 ∉ x) (hx : x ≠ [])
    (hend : x = [slash] ∨ x.getD (x.length - 1) 0 ≠ slash) :
    endPath len path x.length = some x := by
  have hpos : 0 < x.length := List.length_pos_iff.mpr hx
  have hno : ¬ (x.length > 1 ∧ (path.set x.length 0).getD (x.length - 1) 0 = slash) := by
    rintro ⟨h1, hs⟩
    rw [getD_set_of_lt (by omega), ← getD_take (j := x.length) (by omega), ho] at hs
    rcases hend with rfl | hend
    · simp at h1
    · exact hend hs
  simp only [endPath, if_neg (Nat.ne_of_gt hpos), if_neg hno]
  rw [if_pos ⟨hle, hpos⟩]
  refine congrArg some (cString_eq ?_ hz (getD_set_self _ _))
  rw [List.take_set_of_le (Nat.le_refl _), List.take_set_of_le (Nat.le_refl _), ho]

/-- The loop has written the string and one character more, a separator or a zero. -/
theorem endPath_succ {y : UInt8} (ho : path.take (x.length + 1) = x ++ [y])
    (hle : x.length + 1 ≤ len) (hz : 0 ∉ x)
    (hx : x ≠ []) (hy : y = slash ∨ y = 0) : endPath len path (x.length + 1) = some x := by
  have hpos : 0 < x.length := List.length_pos_iff.mpr hx
  have hlast : (path.set (x.length + 1) 0).getD x.length 0 = y := by
    rw [getD_set_of_lt (Nat.lt_succ_self _), ← getD_take (Nat.lt_succ_self _), ho]
    simp
  have htake : path.take x.length = x := by
    have := congrArg (List.take x.length) ho
    rw [List.take_take, Nat.min_eq_left (Nat.le_succ _)] at this
    rw [this]
    exact List.take_left' rfl
  simp only [endPath, if_neg (Nat.succ_ne_zero _), Nat.add_sub_cancel, hlast]
  rcases hy with rfl | rfl
  · have hc : x.length + 1 > 1 ∧ True := ⟨by omega, trivial⟩
    simp only [if_pos hc]
    rw [if_pos ⟨by omega, hpos⟩]
    refine congrArg some (cString_eq ?_ hz (getD_set_self _ _))
    rw [List.take_set_of_le (Nat.le_refl _), List.take_set_of_le (Nat.le_succ _), htake]
  · have hc : ¬ (x.length + 1 > 1 ∧ 0 = slash) := fun hc => absurd hc.2 (by decide)
    simp only [if_neg hc]
    rw [if_pos ⟨hle, by omega⟩]
    refine congrArg some (cString_eq ?_ hz ?_)
    · rw [List.take_set_of_le (Nat.le_succ _), List.take_set_of_le (Nat.le_succ _), htake]
    · rw [getD_set_of_lt (Nat.lt_succ_self _)]
      exact hlast

/-- The loop has written nothing. -/
theorem endPath_zero (hlen : 0 < len) (h0 : path.take 1 = [slash]) :
    endPath len path 0 = some [slash] := by
  have hno : ¬ (1 > 1 ∧ (path.set 1 0).getD (1 - 1) 0 = slash) := fun hc => absurd hc.1 (by decide)
  simp only [endPath, if_true, if_neg hno]
  rw [if_pos ⟨hlen, Nat.one_pos⟩]
  refine congrArg some (cString_eq ?_ (by decide) (getD_set_self _ _))
  show List.take 1 _ = _
  rw [List.take_set_of_le (Nat.le_refl _), List.take_set_of_le (Nat.le_refl _), h0]

end

/-- **A path is cleaned to its canonical form.** -/
theorem cleanPath_eq {q : List UInt8} (hz : 0 ∉ q) (hc : Mode.fresh.Clean (components q)) :
    cleanPath (slash :: q) = some (joined (resolve [] (components q)).reverse) := by
  have hat : At (slash :: q).length (slash :: q ++ [0]) 0 0 [] (flat (components q)) :=
    ⟨by simp, rfl, by rw [flat_components]; rfl, Nat.le_refl _⟩
  obtain ⟨o, hfin, hends⟩ :=
    Mode.Stands.ends (m := .fresh) (fun c hc => not_mem_of_mem_components hc) (by simp)
    ⟨rfl, rfl, hat⟩ hc
  obtain ⟨path, hrun, hl, htake, hle, h0⟩ := hends ((slash :: q).length + 1) (by simp) (by omega)
  have hmem : ∀ c ∈ resolve [] (components q), c ∈ components q ∧ c ≠ [] := fun c hm =>
    (mem_resolve hm).elim (fun h => by cases h) fun h => ⟨h.1, h.2.1⟩
  have hclean : cleanPath (slash :: q) = endPath (slash :: q).length path o.length := by
    rw [cleanPath, hrun]
    rfl
  rw [hclean]
  generalize resolve [] (components q) = st at hfin hmem
  unfold Finished at hfin
  split_ifs at hfin with hnil
  · subst hnil
    rcases hfin with rfl | rfl | rfl
    · refine endPath_zero (by simp) ?_
      cases path with
      | nil => simp at hl
      | cons y path => exact congrArg (fun y => [y]) (h0 rfl)
    · exact endPath_self htake hle (by decide) (by simp) (.inl rfl)
    · exact endPath_succ (x := [slash]) htake hle (by decide) (by simp) (.inr rfl)
  · have hne : st.reverse ≠ [] := by simpa using hnil
    have hflat : 0 ∉ flat st.reverse := by
      intro h
      rcases eq_or_mem_of_mem_flat h with h | ⟨c, hc, h⟩
      · cases h
      · have := mem_flat (hmem c (List.mem_reverse.mp hc)).1 h
        rw [flat_components] at this
        exact (List.mem_cons.mp this).elim (fun e => by cases e) hz
    rw [joined_eq_flat hne]
    rcases hfin with rfl | rfl | rfl
    · refine endPath_self htake hle hflat (flat_ne_nil hne) (.inr ?_)
      rcases st with - | ⟨c, st⟩
      · exact absurd rfl hnil
      · obtain ⟨hc, hcne⟩ := hmem c List.mem_cons_self
        rw [flat_reverse_cons]
        exact getD_last_ne (not_mem_of_mem_components hc) hcne
    · rw [List.length_append] at htake hle ⊢
      exact endPath_succ htake hle hflat (flat_ne_nil hne) (.inl rfl)
    · rw [List.length_append] at htake hle ⊢
      exact endPath_succ htake hle hflat (flat_ne_nil hne) (.inr rfl)

/-! ### Canonical paths -/

theorem resolve_regular {cs st : List (List UInt8)}
    (h : ∀ c ∈ cs, c ≠ [] ∧ c ≠ [period] ∧ c ≠ [period, period]) :
    resolve st cs = cs.reverse ++ st := by
  induction cs generalizing st with
  | nil => rfl
  | cons c cs ih =>
    obtain ⟨h1, h2, h3⟩ := h c List.mem_cons_self
    rw [resolve, if_neg fun hc => hc.elim h1 h2, if_neg h3,
      ih fun d hd => h d (List.mem_cons_of_mem _ hd)]
    simp

theorem clean_regular {cs : List (List UInt8)}
    (h : ∀ c ∈ cs, c ≠ [] ∧ c ≠ [period] ∧ c ≠ [period, period]) (d : ℕ) :
    (Mode.plain d).Clean cs := by
  induction cs generalizing d with
  | nil => trivial
  | cons c cs ih =>
    obtain ⟨h1, h2, h3⟩ := h c List.mem_cons_self
    rw [Mode.Clean, if_neg fun hc => hc.elim h1 h2, if_neg h3]
    exact ih (fun d hd => h d (List.mem_cons_of_mem _ hd)) _

/-- The components of a path that is in canonical form. -/
theorem components_canonical (p : List UInt8) : components (canonical p) =
    [] :: (if resolve [] (components p) = [] then [[]]
      else (resolve [] (components p)).reverse) := by
  unfold canonical joined
  rw [components_slash]
  congr 1
  split_ifs with h
  · rw [h]
    rfl
  · refine List.splitOn_intercalate slash (fun c hc => ?_) (by simpa using h)
    have := mem_resolve (List.mem_reverse.mp hc)
    exact this.elim (fun h => by cases h) fun h => not_mem_of_mem_components h.1

theorem mem_resolve_components {p c : List UInt8} (h : c ∈ resolve [] (components p)) :
    c ∈ components p ∧ c ≠ [] ∧ c ≠ [period] ∧ c ≠ [period, period] :=
  (mem_resolve h).elim (fun h => by cases h) id

theorem canonical_cases (p : List UInt8) : resolve [] (components p) = [] ∧ canonical p = [slash] ∨
    ∃ c st, resolve [] (components p) = c :: st ∧ canonical p = flat st.reverse ++ slash :: c := by
  unfold canonical
  cases h : resolve [] (components p) with
  | nil => exact .inl ⟨rfl, rfl⟩
  | cons c st =>
    refine .inr ⟨c, st, rfl, ?_⟩
    rw [joined_eq_flat (by simp), flat_reverse_cons]

theorem zero_not_mem_canonical {p : List UInt8} (hz : 0 ∉ p) : 0 ∉ canonical p := by
  rcases canonical_cases p with ⟨-, h⟩ | ⟨c, st, hst, h⟩
  · rw [h]
    decide
  · rw [h, ← flat_reverse_cons, ← hst]
    intro hm
    rcases eq_or_mem_of_mem_flat hm with hm | ⟨c, hc, hm⟩
    · cases hm
    · have := mem_flat (mem_resolve_components (List.mem_reverse.mp hc)).1 hm
      rw [flat_components] at this
      exact (List.mem_cons.mp this).elim (fun e => by cases e) hz

theorem cleanPath_canonical {p : List UInt8} (h0 : p.getD 0 0 = slash) (hz : 0 ∉ p)
    (hc : Mode.fresh.Clean (components p).tail) : cleanPath p = some (canonical p) := by
  cases p with
  | nil => cases h0
  | cons x q =>
    obtain rfl : x = slash := h0
    rw [components_slash] at hc
    rw [cleanPath_eq (List.not_mem_of_not_mem_cons hz) hc]
    unfold canonical
    rw [components_slash]
    rfl

theorem canonical_getD_zero (p : List UInt8) : (canonical p).getD 0 0 = slash := rfl

theorem canonical_canonical (p : List UInt8) : canonical (canonical p) = canonical p ∧
    Mode.fresh.Clean (components (canonical p)).tail := by
  have hreg : ∀ c ∈ (resolve [] (components p)).reverse, c ≠ [] ∧ c ≠ [period] ∧
    c ≠ [period, period] := fun c hc => (mem_resolve_components (List.mem_reverse.mp hc)).2
  have hcomp := components_canonical p
  split_ifs at hcomp with h
  · rw [hcomp]
    refine ⟨?_, trivial⟩
    show joined (resolve [] (components (canonical p))).reverse =
      joined (resolve [] (components p)).reverse
    rw [hcomp, h]
    rfl
  · have hres : resolve [] (components (canonical p)) = resolve [] (components p) := by
      rw [hcomp, resolve, if_pos (.inl rfl), resolve_regular hreg, List.reverse_reverse,
        List.append_nil]
    refine ⟨?_, ?_⟩
    · show joined (resolve [] (components (canonical p))).reverse =
        joined (resolve [] (components p)).reverse
      rw [hres]
    · rw [hcomp, List.tail_cons]
      cases hr : (resolve [] (components p)).reverse with
      | nil => trivial
      | cons c cs =>
        rw [hr] at hreg
        obtain ⟨h1, h2, h3⟩ := hreg c List.mem_cons_self
        rw [Mode.Clean, if_neg fun hc => hc.elim h1 h2, if_neg h3]
        exact clean_regular (fun d hd => hreg d (List.mem_cons_of_mem _ hd)) 1

theorem canonizePath_eq {pre path : List UInt8} (hpre : pre.getD 0 0 = slash) :
    canonizePath pre path = cleanPath (fullPath pre path) := by
  unfold canonizePath fullPath
  by_cases h : path.getD 0 0 = slash
  · rw [if_pos h, if_pos h]
  · rw [if_neg h, if_pos hpre, if_neg h]

/-- **`canonize_path` returns the canonical form of a path**, and leaves a canonical path alone. -/
theorem canonize_path_canonical (pre path : List UInt8) (hpre : pre.getD 0 0 = slash) (hz : 0 ∉ pre)
    (hz' : 0 ∉ path)
    (hc : Mode.fresh.Clean (components (fullPath pre path)).tail) :
    ∃ p, canonizePath pre path = some p ∧ p = canonical (fullPath pre path) ∧ p.getD 0 0 = slash ∧
      (p = [slash] ∨ p.getD (p.length - 1) 0 ≠ slash ∧
        ∀ c ∈ (components p).tail, c ≠ [] ∧ c ≠ [period] ∧ c ≠ [period, period]) ∧
      ∀ pre', canonizePath pre' p = some p := by
  have h0 : (fullPath pre path).getD 0 0 = slash := by
    unfold fullPath
    split_ifs with h
    · exact h
    · cases pre with
      | nil => cases hpre
      | cons x pre => exact hpre
  have hz0 : 0 ∉ fullPath pre path := by
    unfold fullPath
    split_ifs
    · exact hz'
    · simp only [List.mem_append, List.mem_cons, not_or]
      exact ⟨hz, by decide, hz'⟩
  generalize hq : fullPath pre path = q at *
  refine ⟨canonical q, ?_, rfl, canonical_getD_zero q, ?_, fun pre' => ?_⟩
  · rw [canonizePath_eq hpre, hq]
    exact cleanPath_canonical h0 hz0 hc
  · rcases canonical_cases q with ⟨-, h⟩ | ⟨c, st, hst, h⟩
    · exact .inl h
    · refine .inr ⟨?_, ?_⟩
      · obtain ⟨hm, hne, -⟩ :=
          mem_resolve_components (p := q) (c := c) (by rw [hst]; exact List.mem_cons_self)
        rw [h]
        exact getD_last_ne (not_mem_of_mem_components hm) hne
      · rw [components_canonical, if_neg (by rw [hst]; simp), List.tail_cons]
        exact fun c hc => (mem_resolve_components (List.mem_reverse.mp hc)).2
  · obtain ⟨hcan, hclean⟩ := canonical_canonical q
    have := cleanPath_canonical (canonical_getD_zero q) (zero_not_mem_canonical hz0) hclean
    rw [canonizePath, if_pos (canonical_getD_zero q), this, hcan]

/-- `canonize_path("/usr", "./bin/../lib")` is `"/usr/lib"`. -/
theorem canonize_path_canonical_usr_lib :
    canonizePath [47, 117, 115, 114] [46, 47, 98, 105, 110, 47, 46, 46, 47, 108, 105, 98] =
    some [47, 117, 115, 114, 47, 108, 105, 98] := by
  obtain ⟨p, hp, rfl, -⟩ :=
    canonize_path_canonical [47, 117, 115, 114] [46, 47, 98, 105, 110, 47, 46, 46, 47, 108, 105, 98]
    rfl (by decide) (by decide) (by decide +kernel)
  rw [hp]
  decide +kernel

/-- `canonize_path("/", "../a")` is `"a"`. -/
theorem canonize_path_relative : canonizePath [47] [46, 46, 47, 97] = some [97] ∧
    canonical (fullPath [47] [46, 46, 47, 97]) = [47, 97] := by
  decide +kernel

end Cosiris.Vfs
