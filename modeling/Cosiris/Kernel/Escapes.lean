import Cosiris.Kernel.Terminal

/-!
# Escape sequences and what came before them

A sequence is an escape, `[`, perhaps `?`, perhaps a number, perhaps `;` and a number, and a final
character. The record of the machine is cleared behind a sequence that was finished, but not
behind one that was given up: its numbers and its second character stay there for the next one.
-/

namespace Cosiris.Terminal

/-! ### Sequences -/

/-- The number of a list of digits. -/
def valueOf (ds : List UInt8) : ℕ := ds.foldl (fun n c => n * 10 + (c.toNat - 48)) 0

/-- An escape sequence. A number that is absent has no digits. -/
structure EscSeq where
  mark : Bool
  num1 : List UInt8
  num2 : Option (List UInt8)
  final : UInt8
  digits1 : ∀ c ∈ num1, isDigit c
  digits2 : ∀ ds ∈ num2, ds ≠ [] ∧ ∀ c ∈ ds, isDigit c
  isFinal : isFinal final
  length_le : 3 + mark.toNat + num1.length + (num2.elim 0 fun ds => ds.length + 1) ≤ 10

namespace EscSeq

variable (s : EscSeq)

/-- What follows `[` before the final character. -/
def params : List UInt8 :=
  (if s.mark then [63] else []) ++ s.num1 ++ s.num2.elim [] fun ds => 59 :: ds

/-- The characters. -/
def chars : List UInt8 := 27 :: 91 :: s.params ++ [s.final]

/-- The second number. -/
def value2 : ℕ := s.num2.elim 0 valueOf

/-- The second character. -/
def char2 : UInt8 := if s.mark then 63 else 0

end EscSeq

/-- The machine after some characters. -/
def feed (st : AnsiStat) (cs : List UInt8) : AnsiStat := cs.foldl ansiStatSwitch st

/-- Characters since the machine was cleared, behind which it is not within a sequence. -/
structure History where
  bytes : List UInt8
  ready : (feed .zero bytes).stat = .none ∨ (feed .zero bytes).stat = .inFin

/-- The record behind a history. -/
def History.record (h : History) : AnsiStat := feed .zero h.bytes

/-- The machine finds a sequence with its numbers and characters. -/
def Finds (st : AnsiStat) (s : EscSeq) : Prop :=
  (feed st s.chars).stat = .inFin ∧ (feed st s.chars).n1.toNat = valueOf s.num1 ∧
    (feed st s.chars).n2.toNat = s.value2 ∧ (feed st s.chars).c1 = s.final ∧
      (feed st s.chars).c2 = s.char2

/-- No `;` comes right behind the `[`. -/
def EscSeq.Ordered (s : EscSeq) : Prop := s.num2.isSome → s.mark ∨ s.num1 ≠ []

/-- What a sequence does not set is clear in the record. Behind `?` the digits of the first number
are put to what the record has. -/
structure Clear (st : AnsiStat) (s : EscSeq) : Prop where
  n1 : if s.mark then st.n1 * 10 ^ s.num1.length = 0 else s.num1 ≠ [] ∨ st.n1 = 0
  n2 : s.num2.isSome ∨ st.n2 = 0
  c2 : s.mark ∨ st.c2 = 0

/-! ### Steps of the machine -/

section

variable {st : AnsiStat} {c : UInt8} {cs ds : List UInt8} {k : ℕ}

theorem feed_append (cs ds : List UInt8) : feed st (cs ++ ds) = feed (feed st cs) ds :=
    List.foldl_append ..

theorem feed_cons (c : UInt8) (cs : List UInt8) :
    feed st (c :: cs) = feed (ansiStatSwitch st c) cs :=
    rfl

/-- The number of characters is 0 where the machine is not within a sequence. -/
theorem cnt_next (h : (st.next c).stat = .none) : (st.next c).cnt = 0 := by
  revert h
  unfold AnsiStat.next
  split_ifs with h1 h2 h3 h4 h5 h6 h7 h8 h9 h10 <;> simp_all

theorem cnt_feed (h : (feed .zero cs).stat = .none) : (feed .zero cs).cnt = 0 := by
  rcases List.eq_nil_or_concat cs with rfl | ⟨cs, c, rfl⟩
  · rfl
  · rw [List.concat_eq_append, feed_append] at h ⊢
    exact cnt_next h

variable {stat : Stat} {n1 n2 : UInt32} {c1 c2 : UInt8}

/-- A step within a sequence that has not too many characters. -/
theorem step_eq (hstat : stat ≠ .inFin) (hk : k < 10) :
    ansiStatSwitch ⟨stat, n1, n2, c1, c2, .ofNat k⟩ c =
    AnsiStat.next ⟨stat, n1, n2, c1, c2, .ofNat (k + 1)⟩ c := by
  have hcnt : UInt8.ofNat k + 1 = .ofNat (k + 1) := by rw [UInt8.ofNat_add]; rfl
  have hle : ¬ansiMaxChars < UInt8.ofNat (k + 1) := by
    rw [UInt8.lt_iff_toNat_lt, UInt8.toNat_ofNat']
    show ¬10 < (k + 1) % 2 ^ 8
    omega
  unfold ansiStatSwitch
  dsimp only
  rw [hcnt, if_neg fun h => h.elim hstat hle]

/-- The number that the digits make of another one. -/
def addDigits (n : UInt32) (ds : List UInt8) : UInt32 := ds.foldl (fun n c => n * 10 + digit c) n

/-- Digits go on with the number that the machine is at. `f` gives the record from the number and
the count of characters. -/
theorem feed_digits {f : UInt32 → ℕ → AnsiStat} {n : UInt32} (hds : ∀ c ∈ ds, isDigit c)
    (hk : k + ds.length ≤ 10)
    (hf : ∀ n k c, k < 10 → isDigit c → ansiStatSwitch (f n k) c = f (n * 10 + digit c) (k + 1)) :
    feed (f n k) ds = f (addDigits n ds) (k + ds.length) := by
  induction ds generalizing n k with
  | nil => rfl
  | cons c ds ih =>
    obtain ⟨hc, hds⟩ := List.forall_mem_cons.mp hds
    rw [List.length_cons] at hk ⊢
    rw [feed_cons, hf n k c (by omega) hc, ih hds (by omega), Nat.add_right_comm, Nat.add_assoc]
    rfl

theorem feed_num1 (hds : ∀ c ∈ ds, isDigit c) (hk : k + ds.length ≤ 10) :
    feed ⟨.inNum1, n1, n2, c1, c2, .ofNat k⟩ ds =
      ⟨.inNum1, addDigits n1 ds, n2, c1, c2, .ofNat (k + ds.length)⟩ := by
  refine @feed_digits ds k (fun n k => ⟨.inNum1, n, n2, c1, c2, .ofNat k⟩) n1 hds hk
    fun n k c hk hc => ?_
  rw [step_eq Stat.noConfusion hk]
  simp [AnsiStat.next, hc]

theorem feed_num2 (hds : ∀ c ∈ ds, isDigit c) (hk : k + ds.length ≤ 10) :
    feed ⟨.inNum2, n1, n2, c1, c2, .ofNat k⟩ ds =
      ⟨.inNum2, n1, addDigits n2 ds, c1, c2, .ofNat (k + ds.length)⟩ := by
  refine @feed_digits ds k (fun n k => ⟨.inNum2, n1, n, c1, c2, .ofNat k⟩) n2 hds hk
    fun n k c hk hc => ?_
  rw [step_eq Stat.noConfusion hk]
  simp [AnsiStat.next, hc]

/-- A machine that is not within a sequence stays so without an escape. -/
theorem feed_none (hcs : ∀ c ∈ cs, c ≠ 27) (hstat : st.stat = .none) :
    (feed st cs).stat = .none := by
  induction cs generalizing st with
  | nil => exact hstat
  | cons c cs ih =>
    obtain ⟨hc, hcs⟩ := List.forall_mem_cons.mp hcs
    refine ih hcs ?_
    unfold ansiStatSwitch
    dsimp only
    split <;> simp [AnsiStat.next, AnsiStat.zero, hstat, hc]

theorem step_bra (hk : k < 10) : ansiStatSwitch ⟨.inEsc, n1, n2, c1, c2, .ofNat k⟩ 91 =
    ⟨.inBra, n1, n2, c1, c2, .ofNat (k + 1)⟩ := by
  rw [step_eq Stat.noConfusion hk]
  rfl

/-- Behind the `[`, from a machine that is not within a sequence. -/
theorem feed_none_start (hstat : st.stat = .none) (hcnt : st.cnt = 0) :
    feed st [27, 91] = ⟨.inBra, st.n1, st.n2, st.c1, st.c2, .ofNat 2⟩ := by
  obtain ⟨stat, n1, n2, c1, c2, cnt⟩ := st
  obtain rfl : stat = .none := hstat
  obtain rfl : cnt = .ofNat 0 := hcnt
  have hstep : ansiStatSwitch ⟨.none, n1, n2, c1, c2, .ofNat 0⟩ 27 =
    ⟨.inEsc, n1, n2, c1, c2, .ofNat 1⟩ := by
    rw [step_eq Stat.noConfusion (by decide)]
    rfl
  rw [feed_cons, feed_cons, hstep, step_bra (by decide)]
  rfl

/-- Behind the `[`, from a machine that is behind a sequence. -/
theorem feed_fin_start (hstat : st.stat = .inFin) :
    feed st [27, 91] = ⟨.inBra, 0, 0, 0, 0, .ofNat 1⟩ := by
  have hstep : ansiStatSwitch st 27 = ⟨.inEsc, 0, 0, 0, 0, .ofNat 0⟩ := by
    unfold ansiStatSwitch
    dsimp only
    rw [if_pos (.inl hstat)]
    rfl
  rw [feed_cons, feed_cons, hstep, step_bra (by decide)]
  rfl

/-- What the machine makes of a mark and a first number. -/
theorem feed_first (mark : Bool) (hds : ∀ c ∈ ds, isDigit c)
    (hk : k + mark.toNat + ds.length ≤ 10) :
    feed ⟨.inBra, n1, n2, c1, c2, .ofNat k⟩ ((if mark then [63] else []) ++ ds) =
      ⟨if mark ∨ ds ≠ [] then .inNum1 else .inBra,
        addDigits (if mark ∨ ds = [] then n1 else 0) ds, n2, c1, if mark then 63 else c2,
        .ofNat (k + mark.toNat + ds.length)⟩ := by
  cases mark with
  | true =>
    have hstep : ansiStatSwitch ⟨.inBra, n1, n2, c1, c2, .ofNat k⟩ 63 =
        ⟨.inNum1, n1, n2, c1, 63, .ofNat (k + 1)⟩ := by
      rw [step_eq Stat.noConfusion (by simp at hk; omega)]
      rfl
    show feed _ (63 :: ds) = _
    rw [feed_cons, hstep, feed_num1 hds (by simpa using hk)]
    simp
  | false =>
    rw [Bool.toNat_false, Nat.add_zero] at hk ⊢
    cases ds with
    | nil => rfl
    | cons c ds =>
      obtain ⟨hc, hds⟩ := List.forall_mem_cons.mp hds
      rw [List.length_cons] at hk ⊢
      have hstep : ansiStatSwitch ⟨.inBra, n1, n2, c1, c2, .ofNat k⟩ c =
          ⟨.inNum1, digit c, n2, c1, c2, .ofNat (k + 1)⟩ := by
        rw [step_eq Stat.noConfusion (by omega)]
        simp [AnsiStat.next, hc]
      show feed _ (c :: ds) = _
      rw [feed_cons, hstep, feed_num1 hds (by omega), Nat.add_assoc k 1, Nat.add_comm 1]
      simp [addDigits]

theorem isDigit.ne_esc (hc : isDigit c) : c ≠ 27 := by
  rintro rfl
  exact absurd hc (by decide)

theorem isFinal.ne_esc (hc : Terminal.isFinal c) : c ≠ 27 := by
  rintro rfl
  exact absurd hc (by decide)

/-- What ends a sequence is no part of its numbers. -/
theorem isFinal.not_param (hc : Terminal.isFinal c) : ¬isDigit c ∧ c ≠ 63 ∧ c ≠ 59 := by
  unfold Terminal.isFinal at hc
  unfold isDigit
  simp only [UInt8.le_iff_toNat_le, ← UInt8.toNat_inj, ne_eq, UInt8.reduceToNat] at hc ⊢
  omega

theorem step_final (hc : Terminal.isFinal c)
    (hstat : stat = .inBra ∨ stat = .inNum1 ∨ stat = .inNum2)
    (hk : k < 10) : ansiStatSwitch ⟨stat, n1, n2, c1, c2, .ofNat k⟩ c =
      ⟨.inFin, n1, n2, c, c2, .ofNat (k + 1)⟩ := by
  obtain ⟨hdigit, hmark, hsemi⟩ := hc.not_param
  rw [step_eq (by rcases hstat with rfl | rfl | rfl <;> decide) hk]
  rcases hstat with rfl | rfl | rfl <;> simp [AnsiStat.next, hc, hdigit, hmark, hsemi]

/-- Behind the mark and the first number, of a sequence without a second one. -/
theorem feed_second_none (hc : Terminal.isFinal c) (hstat : stat = .inBra ∨ stat = .inNum1)
    (hk : k < 10) :
    feed ⟨stat, n1, n2, c1, c2, .ofNat k⟩ [c] = ⟨.inFin, n1, n2, c, c2, .ofNat (k + 1)⟩ :=
  step_final hc (hstat.imp_right .inl) hk

/-- Behind the mark and the first number, of a sequence with a second one. -/
theorem feed_second_some (hds : ∀ c ∈ ds, isDigit c) (hc : Terminal.isFinal c)
    (hk : k + 1 + ds.length < 10) :
    feed ⟨.inNum1, n1, n2, c1, c2, .ofNat k⟩ (59 :: ds ++ [c]) =
      ⟨.inFin, n1, addDigits 0 ds, c, c2, .ofNat (k + 1 + ds.length + 1)⟩ := by
  have hstep : ansiStatSwitch ⟨.inNum1, n1, n2, c1, c2, .ofNat k⟩ 59 =
      ⟨.inNum2, n1, 0, c1, c2, .ofNat (k + 1)⟩ := by
    rw [step_eq Stat.noConfusion (by omega)]
    rfl
  rw [List.cons_append, feed_cons, hstep, feed_append, feed_num2 hds hk.le]
  exact step_final hc (.inr (.inr rfl)) hk

/-- A `;` right behind the `[` ends the sequence. -/
theorem feed_second_stop (hds : ∀ c ∈ ds, isDigit c) (hc : Terminal.isFinal c) (hk : k < 10) :
    (feed ⟨.inBra, n1, n2, c1, c2, .ofNat k⟩ (59 :: ds ++ [c])).stat = .none := by
  rw [List.cons_append, feed_cons]
  refine feed_none (fun d hd => ?_) ?_
  · rcases List.mem_append.mp hd with hd | hd
    · exact (hds d hd).ne_esc
    · exact List.mem_singleton.mp hd ▸ hc.ne_esc
  · rw [step_eq Stat.noConfusion hk]
    rfl

end

/-! ### Whole sequences -/

section

variable (s : EscSeq) {st : AnsiStat} {n1 n2 : UInt32} {c1 c2 : UInt8} {k : ℕ}

/-- What the machine makes of a sequence behind its `[`. -/
theorem feed_params (hk : k ≤ 2) (hs : s.Ordered) :
    ∃ j, feed ⟨.inBra, n1, n2, c1, c2, .ofNat k⟩ (s.params ++ [s.final]) =
      ⟨.inFin, addDigits (if s.mark ∨ s.num1 = [] then n1 else 0) s.num1,
        s.num2.elim n2 (addDigits 0), s.final, if s.mark then 63 else c2, j⟩ := by
  have hlen := s.length_le
  unfold EscSeq.params
  rw [List.append_assoc, feed_append]
  cases hnum2 : s.num2 with
  | none =>
    rw [hnum2, Option.elim_none] at hlen
    rw [feed_first _ s.digits1 (by omega)]
    refine ⟨_, feed_second_none s.isFinal ?_ (by omega)⟩
    split_ifs
    · exact .inr rfl
    · exact .inl rfl
  | some ds =>
    rw [hnum2, Option.elim_some] at hlen
    rw [feed_first _ s.digits1 (by omega), if_pos (hs (by rw [hnum2]; rfl))]
    exact ⟨_, feed_second_some (s.digits2 ds hnum2).2 s.isFinal (by omega)⟩

/-- Behind the `[` of a sequence that is not ordered the machine gives up. -/
theorem feed_params_stop (hk : k ≤ 2) (hs : ¬s.Ordered) :
    (feed ⟨.inBra, n1, n2, c1, c2, .ofNat k⟩ (s.params ++ [s.final])).stat = .none := by
  obtain ⟨hnum2, hfirst⟩ := Classical.not_imp.mp hs
  obtain ⟨ds, hds⟩ := Option.isSome_iff_exists.mp hnum2
  obtain ⟨hmark, hnum1⟩ := not_or.mp hfirst
  unfold EscSeq.params
  rw [not_not.mp hnum1, hds, if_neg hmark]
  exact feed_second_stop (s.digits2 ds hds).2 s.isFinal (by omega)

end

/-! ### Numbers -/

section

variable {n : UInt32} {ds : List UInt8}

theorem addDigits_eq (n : UInt32) (ds : List UInt8) :
    addDigits n ds = n * 10 ^ ds.length + addDigits 0 ds := by
  induction ds generalizing n with
  | nil => simp [addDigits]
  | cons c ds ih =>
    have hcons : ∀ m, addDigits m (c :: ds) = addDigits (m * 10 + digit c) ds := fun _ => rfl
    rw [hcons n, hcons 0, ih (n * 10 + digit c), ih (0 * 10 + digit c), List.length_cons,
      UInt32.pow_succ]
    grind

theorem isDigit.toNat_digit {c : UInt8} (hc : isDigit c) : (digit c).toNat = c.toNat - 48 := by
  unfold digit
  rw [UInt32.toNat_sub_of_le]
  · rfl
  · exact UInt32.le_iff_toNat_le.mpr (UInt8.le_iff_toNat_le.mp hc.1)

/-- Digits are read without overflow. -/
theorem toNat_addDigits (hds : ∀ c ∈ ds, isDigit c) (hn : (n.toNat + 1) * 10 ^ ds.length ≤ 2 ^ 32) :
    (addDigits n ds).toNat = ds.foldl (fun n c => n * 10 + (c.toNat - 48)) n.toNat := by
  induction ds generalizing n with
  | nil => rfl
  | cons c ds ih =>
    obtain ⟨hc, hds⟩ := List.forall_mem_cons.mp hds
    have hpos : 0 < 10 ^ ds.length := Nat.pow_pos (by decide)
    have h48 : c.toNat ≤ 57 := UInt8.le_iff_toNat_le.mp hc.2
    rw [List.length_cons, Nat.pow_succ'] at hn
    have hlt : (n.toNat + 1) * 10 ≤ 2 ^ 32 :=
      (Nat.le_mul_of_pos_right _ hpos).trans (by rwa [Nat.mul_assoc])
    have hnext : (n * 10 + digit c).toNat = n.toNat * 10 + (c.toNat - 48) := by
      rw [UInt32.toNat_add, UInt32.toNat_mul, hc.toNat_digit]
      show (n.toNat * 10 % 2 ^ 32 + (c.toNat - 48)) % 2 ^ 32 = _
      omega
    show (addDigits (n * 10 + digit c) ds).toNat = ds.foldl _ (n.toNat * 10 + (c.toNat - 48))
    rw [ih hds, hnext]
    rw [hnext]
    calc (n.toNat * 10 + (c.toNat - 48) + 1) * 10 ^ ds.length
        ≤ (n.toNat + 1) * 10 * 10 ^ ds.length := Nat.mul_le_mul_right _ (by omega)
      _ ≤ 2 ^ 32 := by rwa [Nat.mul_assoc]

/-- A number of a sequence is right when what was there before it counts for nothing. -/
theorem addDigits_right_iff (hds : ∀ c ∈ ds, isDigit c) (hlen : ds.length ≤ 7) :
    (addDigits n ds).toNat = valueOf ds ↔ n * 10 ^ ds.length = 0 := by
  have hzero : (addDigits 0 ds).toNat = valueOf ds := by
    refine toNat_addDigits hds ?_
    calc (0 + 1) * 10 ^ ds.length ≤ 10 ^ 7 := by
          rw [Nat.zero_add, Nat.one_mul]
          exact Nat.pow_le_pow_right (by decide) hlen
      _ ≤ 2 ^ 32 := by decide
  rw [← hzero, UInt32.toNat_inj, addDigits_eq n, UInt32.add_eq_right]

end

/-! ### The sequences that are found -/

section

variable {s : EscSeq} {st : AnsiStat} {n1 n2 : UInt32} {c1 c2 : UInt8} {k : ℕ}

theorem first_right_iff :
    (addDigits (if s.mark ∨ s.num1 = [] then n1 else 0) s.num1).toNat = valueOf s.num1 ↔
    if s.mark then n1 * 10 ^ s.num1.length = 0 else s.num1 ≠ [] ∨ n1 = 0 := by
  have hlen := s.length_le
  rw [addDigits_right_iff s.digits1 (by omega)]
  by_cases hmark : s.mark
  · rw [if_pos (.inl hmark), if_pos hmark]
  · by_cases hnum1 : s.num1 = []
    · simp [hmark, hnum1]
    · simp [hmark, hnum1]

theorem second_right_iff :
    (s.num2.elim n2 (addDigits 0)).toNat = s.value2 ↔ s.num2.isSome ∨ n2 = 0 := by
  have hlen := s.length_le
  unfold EscSeq.value2
  cases hnum2 : s.num2 with
  | none => simp [← UInt32.toNat_inj]
  | some ds =>
    rw [hnum2, Option.elim_some] at hlen
    simp [addDigits_right_iff (s.digits2 ds hnum2).2 (show ds.length ≤ 7 by omega)]

theorem mark_right_iff : (if s.mark then 63 else c2) = s.char2 ↔ s.mark ∨ c2 = 0 := by
  unfold EscSeq.char2
  split_ifs with hmark <;> simp [hmark]

/-- Behind its `[` a sequence is found when it is ordered and what it does not set is clear. -/
theorem finds_iff (hk : k ≤ 2) (hst : feed st [27, 91] = ⟨.inBra, n1, n2, c1, c2, .ofNat k⟩) :
    Finds st s ↔ s.Ordered ∧ Clear ⟨.none, n1, n2, c1, c2, 0⟩ s := by
  have hchars :
    feed st s.chars = feed ⟨.inBra, n1, n2, c1, c2, .ofNat k⟩ (s.params ++ [s.final]) := by
    rw [← hst, ← feed_append]
    rfl
  unfold Finds
  rw [hchars]
  by_cases hs : s.Ordered
  · obtain ⟨j, hj⟩ := @feed_params s n1 n2 c1 c2 k hk hs
    rw [hj]
    refine ⟨fun ⟨_, h1, h2, _, h3⟩ =>
      ⟨hs, first_right_iff.mp h1, second_right_iff.mp h2, mark_right_iff.mp h3⟩, ?_⟩
    rintro ⟨-, h1, h2, h3⟩
    exact ⟨rfl, first_right_iff.mpr h1, second_right_iff.mpr h2, rfl, mark_right_iff.mpr h3⟩
  · rw [feed_params_stop s hk hs]
    exact ⟨fun h => absurd h.1 (by decide), fun h => absurd h.1 hs⟩

theorem clear_zero : Clear .zero s := by
  refine ⟨?_, .inr rfl, .inr rfl⟩
  split_ifs
  · exact UInt32.zero_mul
  · exact .inr rfl

/-- **A sequence is found behind every history exactly when no `;` comes right behind its `[`, and
either another sequence was finished right before it or what it does not set is clear.** -/
theorem finds_record_iff (h : History) (s : EscSeq) :
    Finds h.record s ↔ s.Ordered ∧ (h.record.stat = .inFin ∨ Clear h.record s) := by
  by_cases hfin : h.record.stat = .inFin
  · rw [finds_iff (by decide) (feed_fin_start hfin)]
    exact and_congr_right fun _ => ⟨fun _ => .inl hfin, fun _ => clear_zero⟩
  · have hnone : h.record.stat = .none := h.ready.resolve_right hfin
    rw [finds_iff le_rfl (feed_none_start hnone (cnt_feed hnone))]
    refine and_congr_right fun _ => ⟨fun hc => .inr ⟨hc.n1, hc.n2, hc.c2⟩, ?_⟩
    rintro (h | hc)
    · exact absurd h hfin
    · exact ⟨hc.n1, hc.n2, hc.c2⟩

/-- `ESC [ H` behind `ESC [ 5` and a blank, which is given up, has the 5 for its first number. -/
theorem not_finds_record :
    ¬∀ (h : History) (s : EscSeq), Finds h.record s := by
  intro h
  have hfinds := h ⟨[27, 91, 53, 32], .inl (by decide)⟩
    ⟨false, [], none, 72, by simp, by simp, by decide, by decide⟩
  exact absurd hfinds.2.1 (by decide)

end

end Cosiris.Terminal
