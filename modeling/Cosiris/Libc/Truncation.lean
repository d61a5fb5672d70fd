import Cosiris.Libc.Printf

/-!
# The text of a format

What `vsnprintf` puts out is a text that does not depend on the buffer. The buffer gets
what fits of it. The loop counts the NUL that ends a format, and takes one off again; where
the format ends inside a conversion there was no NUL, so that the last character is lost.
-/

namespace Cosiris.Printf

/-- A list with a character behind it. -/
def snoc (c : UInt8) (cs : List UInt8) : List UInt8 := cs ++ [c]

/-- The text of `fmt_int`. -/
def intText (num : ℤ) (base : ℕ) (width : ℤ) (flags : Flags) : List UInt8 :=
  fmtInt snoc num base width flags []

/-- The text of `fmt_chr`. -/
def chrText (c : UInt8) (width : ℤ) (flags : Flags) : List UInt8 := fmtChr snoc c width flags []

/-- The text of `fmt_str`. -/
def strText (s : List UInt8) (width : ℤ) (flags : Flags) : List UInt8 :=
  fmtStr snoc s width flags []

/-- The text of one round. -/
def roundText (v : Args) (s : Scan) : List UInt8 := (round snoc v s []).2.2

/-- The scanner after a round. -/
def roundNext (v : Args) (s : Scan) : Scan := (round snoc v s []).2.1

/-- The loop ends after a round. -/
def Last (v : Args) (s : Scan) : Prop := (round snoc v s []).1 = 0

instance (v : Args) (s : Scan) : Decidable (Last v s) := inferInstanceAs (Decidable (_ = _))

/-! ### All output is a text that is put out -/

section

variable {α : Type*} (put : UInt8 → α → α)

@[simp] theorem puts_snoc (cs ds : List UInt8) : puts snoc cs ds = ds ++ cs := by
  induction cs generalizing ds with
  | nil => simp
  | cons c cs ih =>
    show puts snoc cs (ds ++ [c]) = ds ++ c :: cs
    rw [ih, List.append_assoc, List.singleton_append]

theorem fmtInt_eq (num : ℤ) (base : ℕ) (width : ℤ) (flags : Flags) (x : α) :
    fmtInt put num base width flags x = puts put (intText num base width flags) x := by
  unfold intText fmtInt
  dsimp only
  split_ifs <;> simp [puts_append]

theorem fmtChr_eq (c : UInt8) (width : ℤ) (flags : Flags) (x : α) :
    fmtChr put c width flags x = puts put (chrText c width flags) x := by
  unfold chrText fmtChr
  generalize (if width > 0 then width - 1 else 0).toNat = npad
  dsimp only
  split_ifs <;> simp [puts_append, puts_cons, snoc]

theorem fmtStr_eq (s : List UInt8) (width : ℤ) (flags : Flags) (x : α) :
    fmtStr put s width flags x = puts put (strText s width flags) x := by
  unfold strText fmtStr
  generalize (if width > 0 then Int.bmod (width - s.length) (2 ^ 32) else 0).toNat = npad
  dsimp only
  split_ifs <;> simp [puts_append]

theorem convert_eq (v : Args) (s : Scan) (c : UInt8) (fmt : List UInt8) (x : α) :
    convert put v s c fmt x = ((convert snoc v s c fmt []).1, (convert snoc v s c fmt []).2.1,
      puts put (convert snoc v s c fmt []).2.2 x) := by
  unfold convert
  dsimp only
  split_ifs <;> simp only [fmtInt_eq, fmtChr_eq, fmtStr_eq, puts_snoc, List.nil_append] <;> rfl

/-- A round puts out its text. -/
theorem round_eq (v : Args) (s : Scan) (x : α) :
    round put v s x = ((round snoc v s []).1, roundNext v s, puts put (roundText v s) x) := by
  unfold roundText roundNext round
  cases s.state with
  | conv => exact convert_eq put v s _ _ x
  | _ =>
    dsimp only
    split_ifs <;> rfl

end

/-! ### The loop ends -/

/-- How far a state is from `S_CONV`. -/
def State.left : State → ℕ
  | .default => 6
  | .flags => 5
  | .width => 4
  | .precis => 3
  | .length => 2
  | .conv => 1

/-- What is left to do: characters, and states that only pass one on. -/
def Scan.left (s : Scan) : ℕ := 7 * s.fmt.length + s.state.left

theorem getAtoi_length (str : List UInt8) (n : ℤ) : (getAtoi str n).2.length ≤ str.length := by
  induction str generalizing n with
  | nil => exact Nat.le_refl _
  | cons c str ih =>
    unfold getAtoi
    split
    · exact Nat.le_succ_of_le (ih _)
    · exact Nat.le_refl _

theorem convert_next {α : Type*} (put : UInt8 → α → α) (v : Args) (s : Scan) (c : UInt8)
    (fmt : List UInt8)
    (x : α) : (convert put v s c fmt x).2.1.state = .default ∧
    (convert put v s c fmt x).2.1.fmt = fmt := by
  unfold convert
  dsimp only
  split_ifs <;> exact ⟨rfl, rfl⟩

/-- The NUL ends the loop in every state. -/
theorem last_of_nil {v : Args} {s : Scan} (h : s.fmt = []) : Last v s := by
  unfold Last round
  rw [h]
  cases s.state <;> rfl

/-- A round that does not meet the end of the format leaves less to do. -/
theorem left_roundNext {v : Args} {s : Scan} (h : s.fmt ≠ []) : (roundNext v s).left < s.left := by
  obtain ⟨c, rest, hfmt⟩ := List.exists_cons_of_ne_nil h
  unfold roundNext round
  rw [hfmt, List.headD_cons, List.tail_cons]
  unfold Scan.left
  rw [hfmt, List.length_cons]
  cases hs : s.state with
  | conv =>
    obtain ⟨hstate, hrest⟩ := convert_next snoc v s c rest []
    dsimp only
    rw [hstate, hrest]
    simp only [State.left]
    omega
  | width =>
    have hatoi : isDigit c → (getAtoi (c :: rest) 0).2.length ≤ rest.length := fun hd => by
      rw [getAtoi, if_pos hd]
      exact getAtoi_length rest _
    dsimp only
    split_ifs with h1 h2 h3
    · dsimp only; omega
    · dsimp only; omega
    · have := hatoi h3.1
      dsimp only
      omega
    · simp only [List.length_cons, State.left]; omega
  | precis =>
    have hatoi := getAtoi_length rest 0
    dsimp only
    split_ifs <;> simp only [List.length_cons, State.left] <;> omega
  | _ =>
    dsimp only
    split_ifs <;> simp only [List.length_cons, State.left] <;> omega

/-- The loop, from a scanner, ends with a scanner and puts out a text. -/
inductive Runs (v : Args) : Scan → Scan → List UInt8 → Prop
  | last {s : Scan} (h : Last v s) : Runs v s (roundNext v s) (roundText v s)
  | next {s e : Scan} {cs : List UInt8} (h : ¬Last v s) (hrest : Runs v (roundNext v s) e cs) :
      Runs v s e (roundText v s ++ cs)

variable {v : Args} {s e : Scan} {cs : List UInt8}

theorem exists_runs (v : Args) (s : Scan) : ∃ e cs, Runs v s e cs := by
  induction hn : s.left using Nat.strongRecOn generalizing s with
  | ind n ih =>
    by_cases hlast : Last v s
    · exact ⟨_, _, .last hlast⟩
    · have hless := left_roundNext (v := v) fun hnil => hlast (last_of_nil hnil)
      obtain ⟨e, cs, hrest⟩ := ih _ (hn ▸ hless) _ rfl
      exact ⟨e, _, .next hlast hrest⟩

/-- The loop puts out its text, whatever it is put out to. -/
theorem Runs.loop_eq {α : Type*} {put : UInt8 → α → α} (h : Runs v s e cs) {rounds : ℕ}
    (hr : s.left < rounds)
    (x : α) : loop put v rounds s x = some (e, puts put cs x) := by
  induction h generalizing rounds x with
  | last hlast =>
    obtain ⟨rounds, rfl⟩ := Nat.exists_eq_add_of_lt (Nat.zero_lt_of_lt hr)
    rw [loop, round_eq]
    exact if_pos hlast
  | next hlast _ ih =>
    obtain ⟨rounds, rfl⟩ := Nat.exists_eq_add_of_lt (Nat.zero_lt_of_lt hr)
    have hless := left_roundNext (v := v) fun hnil => hlast (last_of_nil hnil)
    rw [loop, round_eq, puts_append]
    exact (if_neg hlast).trans (ih (by omega) _)

/-- The text that a format puts out. -/
def text (v : Args) (fmt : List UInt8) : List UInt8 :=
  ((loop snoc v (roundsFor fmt) (start fmt) []).map Prod.snd).getD []

theorem left_start (fmt : List UInt8) : (start fmt).left < roundsFor fmt := by
  simp only [Scan.left, start, State.left, roundsFor]
  omega

theorem Runs.text_eq {fmt : List UInt8} (h : Runs v (start fmt) e cs) : text v fmt = cs := by
  rw [text, h.loop_eq (left_start fmt)]
  simp

theorem vsnprintf_eq (buf : ℕ → UInt8) (size : ℕ) (fmt : List UInt8) (v : Args) :
    vsnprintf buf size fmt v = some (finish size (puts (bputc size) (text v fmt) ⟨buf, 0⟩)) := by
  obtain ⟨e, cs, hruns⟩ := exists_runs v (start fmt)
  rw [vsnprintf, hruns.loop_eq (left_start fmt), hruns.text_eq]
  rfl

/-! ### What the buffer gets -/

theorem puts_n (size : ℕ) (cs : List UInt8) {x : Out} (hx : x.n < 2 ^ 32) :
    (puts (bputc size) cs x).n = (x.n + cs.length) % 2 ^ 32 := by
  induction cs generalizing x with
  | nil => exact (Nat.mod_eq_of_lt hx).symm
  | cons c cs ih =>
    have hcount : (bputc size c x).n = (x.n + 1) % 2 ^ 32 := rfl
    rw [puts_cons, ih (by omega), hcount, List.length_cons]
    omega

/-- Nothing is written at or past the size. -/
theorem puts_outside {size i : ℕ} (hi : size ≤ i) (cs : List UInt8) (x : Out) :
    (puts (bputc size) cs x).buf i = x.buf i := by
  induction cs generalizing x with
  | nil => rfl
  | cons c cs ih =>
    rw [puts_cons, ih, bputc]
    dsimp only
    split
    · exact Function.update_of_ne (by omega) ..
    · rfl

/-- While the count does not wrap around, the characters before it stay. -/
theorem puts_before {size i : ℕ} (cs : List UInt8) {x : Out} (hi : i < x.n)
    (hn : x.n + cs.length < 2 ^ 32) :
    (puts (bputc size) cs x).buf i = x.buf i := by
  induction cs generalizing x with
  | nil => rfl
  | cons c cs ih =>
    rw [List.length_cons] at hn
    have hcount : (bputc size c x).n = x.n + 1 := Nat.mod_eq_of_lt (by omega)
    rw [puts_cons, ih (by omega) (by omega), bputc]
    dsimp only
    split
    · exact Function.update_of_ne (by omega) ..
    · rfl

/-- A text that does not make the count wrap around is in the buffer, as far as it fits. -/
theorem puts_get {size k : ℕ} {c : UInt8} (cs : List UInt8) {x : Out}
    (hn : x.n + cs.length < 2 ^ 32) (hk : cs[k]? = some c)
    (hfit : x.n + k < size) : (puts (bputc size) cs x).buf (x.n + k) = c := by
  induction cs generalizing x k with
  | nil => cases hk
  | cons d cs ih =>
    rw [List.length_cons] at hn
    have hcount : (bputc size d x).n = x.n + 1 := Nat.mod_eq_of_lt (by omega)
    rw [puts_cons]
    cases k with
    | zero =>
      cases hk
      rw [puts_before cs (by omega) (by omega), bputc]
      dsimp only
      rw [if_pos (show x.n < size from hfit)]
      exact Function.update_self ..
    | succ k =>
      have h := ih (x := bputc size d x) (by omega) hk (by omega)
      rw [hcount] at h
      rwa [show x.n + (k + 1) = x.n + 1 + k by omega]

/-- What is put out after the count, of type `size_t`, was last 0: all of the text where it is
shorter than `2 ^ 32`. -/
def lastText (v : Args) (fmt : List UInt8) : List UInt8 :=
  (text v fmt).drop (2 ^ 32 * ((text v fmt).length / 2 ^ 32))

theorem length_lastText (v : Args) (fmt : List UInt8) :
    (lastText v fmt).length = (text v fmt).length % 2 ^ 32 := by
  rw [lastText, List.length_drop]
  omega

/-- Where the text does not make the count wrap around, all of it counts. -/
theorem lastText_eq {v : Args} {fmt : List UInt8} (h : (text v fmt).length < 2 ^ 32) :
    lastText v fmt = text v fmt := by
  rw [lastText, Nat.div_eq_of_lt h]
  rfl

/-- What `vsnprintf` does is right for the string `w`. -/
structure Writes (w : List UInt8) (buf : ℕ → UInt8) (size : ℕ) (r : ℤ × (ℕ → UInt8)) : Prop where
  length : r.1 = w.length
  chars : ∀ k c, w[k]? = some c → k + 1 < size → r.2 k = c
  nul : 0 < size → r.2 (min w.length (size - 1)) = 0
  outside : ∀ i ≥ size, r.2 i = buf i

/-- The loop leaves the count and the buffer as the last text alone would. -/
theorem puts_text (v : Args) (fmt : List UInt8) (buf : ℕ → UInt8) (size : ℕ) :
    ∃ x, puts (bputc size) (text v fmt) ⟨buf, 0⟩ = x ∧ x.n = (lastText v fmt).length ∧
      (∀ k c, (lastText v fmt)[k]? = some c → k < size → x.buf k = c) ∧
        ∀ i ≥ size, x.buf i = buf i := by
  have hcount (cs : List UInt8) : (puts (bputc size) cs ⟨buf, 0⟩).n = cs.length % 2 ^ 32 := by
    rw [puts_n size cs (show 0 < 2 ^ 32 by decide)]
    exact congrArg (· % 2 ^ 32) (Nat.zero_add _)
  refine ⟨_, rfl, ?_, fun k c hk hfit => ?_, fun i hi => puts_outside hi ..⟩
  · rw [hcount, length_lastText]
  · -- the count is 0 again before the last text
    obtain ⟨as, has, hzero⟩ : ∃ as, text v fmt = as ++ lastText v fmt ∧ as.length % 2 ^ 32 = 0 :=
      ⟨_, (List.take_append_drop _ _).symm, by rw [List.length_take]; omega⟩
    have hn : (puts (bputc size) as ⟨buf, 0⟩).n = 0 := (hcount as).trans hzero
    have hshort : (lastText v fmt).length < 2 ^ 32 :=
      length_lastText v fmt ▸ Nat.mod_lt _ (by decide)
    have hget := @puts_get size _ _ (lastText v fmt) (puts (bputc size) as ⟨buf, 0⟩)
      (by omega) hk (by omega)
    rw [hn, Nat.zero_add] at hget
    rw [has, puts_append, hget]

/-- The NUL stands behind the string, or in the last place. -/
theorem finish_buf {size : ℕ} (x : Out) {n : ℕ} (hn : (x.n + (2 ^ 32 - 1)) % 2 ^ 32 = n) :
    (finish size x).2 = if 0 < size then Function.update x.buf (min n (size - 1)) 0 else x.buf := by
  unfold finish
  rw [hn]
  dsimp only
  split_ifs with hfit hsize
  · rw [Nat.min_eq_left (by omega)]
  · omega
  · rw [Nat.min_eq_right (by omega)]
  · rfl

/-- The value that is returned is of type `int`. -/
theorem finish_ret {size : ℕ} (x : Out) {n : ℕ} (hn : (x.n + (2 ^ 32 - 1)) % 2 ^ 32 = n) :
    (finish size x).1 = if n < 2 ^ 31 then (n : ℤ) else n - 2 ^ 32 := by
  have hlt : n < 2 ^ 32 := hn ▸ Nat.mod_lt _ (by decide)
  have hbmod : (finish size x).1 = Int.bmod n (2 ^ 32) := by
    unfold finish
    rw [hn]
  have hcast : ((2 ^ 32 : ℕ) : ℤ) = 2 ^ 32 := rfl
  rw [hbmod, Int.bmod_def, hcast, Int.emod_eq_of_lt (by omega) (by omega)]
  split
  · rw [if_pos (by omega)]
  · rw [if_neg (by omega)]

theorem writes_vsnprintf {v : Args} {fmt : List UInt8} (hpos : lastText v fmt ≠ [])
    (hlen : (lastText v fmt).length ≤ 2 ^ 31) (buf : ℕ → UInt8) (size : ℕ) :
    ∃ r, vsnprintf buf size fmt v = some r ∧ Writes (lastText v fmt).dropLast buf size r := by
  obtain ⟨x, hx, hn, hget, hout⟩ := puts_text v fmt buf size
  have hlast := List.length_pos_iff.mpr hpos
  have hcount : (x.n + (2 ^ 32 - 1)) % 2 ^ 32 = (lastText v fmt).length - 1 := by omega
  have hbuf := @finish_buf size x _ hcount
  have hret := @finish_ret size x _ hcount
  rw [if_pos (by omega)] at hret
  have hrun : vsnprintf buf size fmt v = some (finish size x) := by rw [vsnprintf_eq, hx]
  refine ⟨_, hrun, ?_, fun k c hk hfit => ?_, fun hsize => ?_, fun i hi => ?_⟩
  · rw [hret, List.length_dropLast]
  · rw [List.getElem?_dropLast] at hk
    split at hk
    · rw [hbuf, if_pos (by omega), Function.update_of_ne (by omega)]
      exact hget k c hk (by omega)
    · cases hk
  · rw [hbuf, if_pos hsize, List.length_dropLast]
    exact Function.update_self ..
  · rw [hbuf]
    split
    · rw [Function.update_of_ne (by omega)]
      exact hout i hi
    · exact hout i hi

/-! ### The law -/

/-- The scanner goes through the format, also past a character that ends the loop. -/
inductive Scanned (v : Args) (fmt : List UInt8) : Scan → List UInt8 → Prop
  | start : Scanned v fmt (start fmt) []
  | next {s : Scan} {t : List UInt8} (h : Scanned v fmt s t) (hfmt : s.fmt ≠ []) :
      Scanned v fmt (roundNext v s) (t ++ roundText v s)

/-- The format ends inside a conversion. -/
def Incomplete (v : Args) (fmt : List UInt8) : Prop :=
  ∃ s t, Scanned v fmt s t ∧ s.fmt = [] ∧ s.state ≠ .default

/-- A character `c` of the format stands for itself, at the place `k` of the text. -/
def LiteralAt (v : Args) (fmt : List UInt8) (k : ℕ) (c : UInt8) : Prop :=
  ∃ s t rest, Scanned v fmt s t ∧ t.length = k ∧ s.state = .default ∧ s.fmt = c :: rest ∧ c ≠ 37

/-- The law: there is one string for all buffers, and it has the literal characters before an
incomplete conversion in their places. -/
def Law (v : Args) (fmt : List UInt8) : Prop :=
  ∃ w : List UInt8,
    (∀ buf, ∀ size < 2 ^ 32, ∃ r, vsnprintf buf size fmt v = some r ∧ Writes w buf size r) ∧
      (Incomplete v fmt → ∀ k c, LiteralAt v fmt k c → w[k]? = some c)

/-- What the law needs. Something is put out, and at most `2 ^ 31` characters since the count was
last 0. Where the format ends inside a conversion, no literal character is put out last, or not at
all; if the count wrapped around, what is in the place of a literal character happens to be equal
to it. -/
structure Counts (v : Args) (fmt : List UInt8) : Prop where
  pos : lastText v fmt ≠ []
  length : (lastText v fmt).length ≤ 2 ^ 31
  literal : Incomplete v fmt → ∀ k c, LiteralAt v fmt k c → k + 1 < (lastText v fmt).length ∧
    ((text v fmt).length < 2 ^ 32 ∨ (lastText v fmt)[k]? = some c)

theorem Scanned.text {v : Args} {fmt : List UInt8} {s : Scan} {t : List UInt8}
    (h : Scanned v fmt s t) :
    (∃ e cs, Runs v s e cs ∧ text v fmt = t ++ cs) ∨ (text v fmt).length ≤ t.length := by
  induction h with
  | start =>
    obtain ⟨e, cs, hruns⟩ := exists_runs v (Printf.start fmt)
    exact .inl ⟨e, cs, hruns, hruns.text_eq⟩
  | next _ _ ih =>
    obtain ⟨e, cs, hruns, htext⟩ | hless := ih
    · cases hruns with
      | last => exact .inr (Nat.le_of_eq (congrArg List.length htext))
      | next _ hrest => exact .inl ⟨e, _, hrest, by rw [htext, List.append_assoc]⟩
    · exact .inr (by rw [List.length_append]; omega)

/-- A literal character that is put out is in its place in the text. -/
theorem LiteralAt.getElem? {v : Args} {fmt : List UInt8} {k : ℕ} {c : UInt8}
    (h : LiteralAt v fmt k c) (hk : k < (text v fmt).length) : (text v fmt)[k]? = some c := by
  obtain ⟨s, t, rest, hscan, rfl, hstate, hfmt, hc⟩ := h
  have hround : roundText v s = [c] := by
    unfold roundText round
    rw [hstate, hfmt]
    dsimp only [List.headD_cons]
    rw [if_neg hc]
    rfl
  obtain ⟨e, cs, hruns, htext⟩ | hless := hscan.text
  · rw [htext, List.getElem?_append_right (Nat.le_refl _), Nat.sub_self]
    cases hruns with
    | last => rw [hround]; rfl
    | next => rw [hround]; rfl
  · omega

theorem law_of_counts {v : Args} {fmt : List UInt8} (h : Counts v fmt) : Law v fmt := by
  refine ⟨_, fun buf size _ => writes_vsnprintf h.pos h.length buf size, fun hinc k c hlit => ?_⟩
  obtain ⟨hk, hplace⟩ := h.literal hinc k c hlit
  rw [List.getElem?_dropLast, if_pos (by omega)]
  obtain hshort | hget := hplace
  · rw [lastText_eq hshort] at hk ⊢
    exact hlit.getElem? (by omega)
  · exact hget

theorem counts_of_law {v : Args} {fmt : List UInt8} (h : Law v fmt) : Counts v fmt := by
  obtain ⟨w, hwrites, hlit⟩ := h
  have hshort : (lastText v fmt).length < 2 ^ 32 := length_lastText v fmt ▸ Nat.mod_lt _ (by decide)
  -- the value that is returned is the length of a string
  have hret : ((lastText v fmt).length + (2 ^ 32 - 1)) % 2 ^ 32 < 2 ^ 31 ∧
      ((lastText v fmt).length + (2 ^ 32 - 1)) % 2 ^ 32 = w.length := by
    obtain ⟨x, hx, hn, -, -⟩ := puts_text v fmt (fun _ => 0) 0
    obtain ⟨r, hr, hw⟩ := hwrites (fun _ => 0) 0 (by decide)
    rw [vsnprintf_eq, hx] at hr
    have hlen := hw.length
    rw [← Option.some.inj hr,
      finish_ret x (congrArg (fun n => (n + (2 ^ 32 - 1)) % 2 ^ 32) hn)] at hlen
    split at hlen <;> omega
  have hpos : lastText v fmt ≠ [] := by
    rw [← List.length_pos_iff]
    omega
  have hlength : (lastText v fmt).length ≤ 2 ^ 31 := by omega
  refine ⟨hpos, hlength, fun hinc k c hat => ?_⟩
  have hk := hlit hinc k c hat
  have hlt : k < w.length := (List.getElem?_eq_some_iff.mp hk).1
  have hin : k + 1 < (lastText v fmt).length := by omega
  refine ⟨hin, .inr ?_⟩
  -- both strings are in the buffer that has room for them
  obtain ⟨r, hr, hw⟩ := hwrites (fun _ => 0) (w.length + 1) (by omega)
  obtain ⟨r', hr', hw'⟩ := writes_vsnprintf hpos hlength (fun _ => 0) (w.length + 1)
  cases hr.symm.trans hr'
  have hget := List.getElem?_eq_getElem (show k < (lastText v fmt).length by omega)
  have hdrop : (lastText v fmt).dropLast[k]? = some (lastText v fmt)[k] := by
    rw [List.getElem?_dropLast, if_pos (by omega), hget]
  rw [hget, ← hw'.chars k _ hdrop (by omega), hw.chars k c hk (by omega)]

/-- When `vsnprintf` obeys the law. -/
theorem law_iff (v : Args) (fmt : List UInt8) : Law v fmt ↔ Counts v fmt :=
  ⟨counts_of_law, law_of_counts⟩

/-- The format `"a%"` loses its letter. -/
theorem not_law_percent : ¬Law ⟨fun _ => 0, fun _ => []⟩ [97, 37] := by
  intro ⟨w, hwrites, hlit⟩
  obtain ⟨r, hr, hw⟩ := hwrites (fun _ => 0) 0 (by decide)
  have hret :
    (vsnprintf (fun _ => 0) 0 [97, 37] ⟨fun _ => 0, fun _ => []⟩).map Prod.fst = some 0 := by
    decide
  rw [hr] at hret
  have hlen : (w.length : ℤ) = 0 := hw.length.symm.trans (Option.some.inj hret)
  have hstart := @Scanned.start ⟨fun _ => 0, fun _ => []⟩ [97, 37]
  have hinc : Incomplete ⟨fun _ => 0, fun _ => []⟩ [97, 37] :=
    ⟨_, _, (hstart.next (by decide)).next (by decide), rfl, by decide⟩
  have hat : LiteralAt ⟨fun _ => 0, fun _ => []⟩ [97, 37] 0 97 :=
    ⟨_, _, [37], hstart, rfl, rfl, rfl, by decide⟩
  have hget := hlit hinc 0 97 hat
  rw [List.length_eq_zero_iff.mp (by omega : w.length = 0)] at hget
  cases hget

end Cosiris.Printf
