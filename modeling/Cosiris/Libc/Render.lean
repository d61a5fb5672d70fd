import Cosiris.Lib.Prog
import Cosiris.Libc.PrintScan
import Mathlib.Data.Nat.Digits.Defs

/-!
# The arrays of `fmt_int`

`fmt_int` keeps the digits in `nbuf`, the sign and the mark of the base in `altb`, and puts them out
from there. It stays within both, and what it puts out is what `vsnprintf` was modelled with:
blanks, the sign and the mark, zeros, the digits and blanks, as wide as is demanded.

The arrays are not initialized. An access beyond one halts.
-/

namespace Cosiris.Render

open Prog Printf Scanf

/-! ### The code -/

inductive Halt where
  /-- An access beyond `nbuf` or `altb`. -/
  | overrun

/-- `nbuf` and `altb` of `fmt_int`, and its output. -/
structure Locals where
  nbuf : ℕ → UInt8
  altb : ℕ → UInt8
  out : Out

abbrev FmtM := Prog Halt Locals

/-- `nbuf[i]`, of 64. -/
def getNbuf (i : ℕ) : FmtM UInt8 := do
  let s ← read
  if i < 64 then pure (s.nbuf i) else halt .overrun

/-- `nbuf[i] = c`. -/
def setNbuf (i : ℕ) (c : UInt8) : FmtM Unit :=
  if i < 64 then modify fun s => { s with nbuf := Function.update s.nbuf i c } else halt .overrun

/-- `altb[j]`, of 8. -/
def getAltb (j : ℕ) : FmtM UInt8 := do
  let s ← read
  if j < 8 then pure (s.altb j) else halt .overrun

/-- `altb[j] = c`. -/
def setAltb (j : ℕ) (c : UInt8) : FmtM Unit :=
  if j < 8 then modify fun s => { s with altb := Function.update s.altb j c } else halt .overrun

/-- `bputc`. -/
def bputc (max : ℕ) (c : UInt8) : FmtM Unit :=
  modify fun s => { s with out := Printf.bputc max c s.out }

/-- The `do` loop, from `i` on, which returns `i`. There is no round beyond the end of `nbuf`. -/
def fillNbuf (small : Bool) (base : ℕ) : ℕ → ℕ → ℕ → FmtM ℕ
  | 0, _, _ => halt .overrun
  | rounds + 1, i, n => do
    setNbuf i (digit small (n % base))
    if n / base > 0 then fillNbuf small base rounds (i + 1) (n / base) else pure (i + 1)

/-- The mark of the base and the NUL, which return `j`. -/
def fillMark (base : ℕ) (flags : Flags) (j : ℕ) : FmtM ℕ := do
  let mut j := j
  if flags.alternate then
    if base = 8 ∨ base = 16 then
      setAltb j 48
      j := j + 1
      if base = 16 then
        setAltb j (if flags.small then 120 else 88)
        j := j + 1
  setAltb j 0
  pure j

/-- The sign, the mark and the NUL. -/
def fillAltb (sign : UInt8) (base : ℕ) (flags : Flags) : FmtM ℕ := do
  let mut j := 0
  if sign ≠ 0 then
    setAltb j sign
    j := j + 1
  fillMark base flags j

/-- `for (j = 0; altb[j]; j++) bputc(..)`, from `j` on. There is no round beyond the end of
`altb`. -/
def putAltb (max : ℕ) : ℕ → ℕ → FmtM Unit
  | 0, _ => halt .overrun
  | rounds + 1, j => do
    let c ← getAltb j
    if c ≠ 0 then
      bputc max c
      putAltb max rounds (j + 1)

/-- `while (npad-- > 0) bputc(..)`, which leaves -1 in `npad`. -/
def putPads (max : ℕ) (c : UInt8) : ℕ → FmtM ℤ
  | 0 => pure (-1)
  | npad + 1 => do
    bputc max c
    putPads max c npad

/-- `while (i-- > 0) bputc(..)`. -/
def putNbuf (max : ℕ) : ℕ → FmtM Unit
  | 0 => pure ()
  | i + 1 => do
    let c ← getNbuf i
    bputc max c
    putNbuf max i

/-- The second half of `fmt_int`, which puts out what is in the arrays. -/
def putInt (max i : ℕ) (npad : ℤ) (flags : Flags) : FmtM Unit := do
  let mut npad := npad
  if npad > 0 ∧ ¬flags.left then
    if flags.zeropad then
      putAltb max 9 0
      setAltb 0 0
    npad ← putPads max (if flags.zeropad then 48 else 32) npad.toNat
  putAltb max 9 0
  putNbuf max i
  if npad > 0 ∧ flags.left then
    let _ ← putPads max 32 npad.toNat

/-- `fmt_int`. -/
def fmtInt (max : ℕ) (num : ℤ) (base : ℕ) (width : ℤ) (flags : Flags) : FmtM Unit := do
  if base < 2 ∨ base > 16 then return
  let flags := if flags.left then { flags with zeropad := false } else flags
  let n := ((if isNeg num flags then -num else num) % 2 ^ 32).toNat
  let sign :=
    if isNeg num flags then 45 else if flags.plus then 43 else if flags.space then 32 else 0
  let i ← fillNbuf flags.small base 65 0 n
  let j ← fillAltb sign base flags
  putInt max i (if width > i + j then width - i - j else 0) flags

/-! ### The loops -/

/-- The first `i` elements of an array. -/
def taken (buf : ℕ → UInt8) (i : ℕ) : List UInt8 := (List.range i).map buf

/-- A string of an array, from `j` on. -/
def StringAt (buf : ℕ → UInt8) : ℕ → List UInt8 → Prop
  | j, [] => buf j = 0
  | j, c :: cs => buf j = c ∧ c ≠ 0 ∧ StringAt buf (j + 1) cs

section

variable {s : Locals} {small : Bool} {base max rounds i j n : ℕ} {c : UInt8} {cs : List UInt8}

theorem taken_succ (buf : ℕ → UInt8) (i : ℕ) : taken buf (i + 1) = taken buf i ++ [buf i] := by
  rw [taken, List.range_succ, List.map_append]
  rfl

theorem length_taken (buf : ℕ → UInt8) (i : ℕ) : (taken buf i).length = i := by
  rw [taken, List.length_map, List.length_range]

theorem taken_update_self (buf : ℕ → UInt8) (i : ℕ) (c : UInt8) :
    taken (Function.update buf i c) i = taken buf i := by
  apply List.map_congr_left
  intro k hk
  exact Function.update_of_ne (Nat.ne_of_lt (List.mem_range.mp hk)) ..

theorem taken_update (buf : ℕ → UInt8) (i : ℕ) (c : UInt8) :
    taken (Function.update buf i c) (i + 1) = taken buf i ++ [c] := by
  rw [taken_succ, Function.update_self, taken_update_self]

theorem setNbuf_eq (hi : i < 64) (c : UInt8) (s : Locals) :
    setNbuf i c s = .ok () { s with nbuf := Function.update s.nbuf i c } := by
  rw [setNbuf, if_pos hi]
  rfl

theorem getNbuf_eq (hi : i < 64) (s : Locals) : getNbuf i s = .ok (s.nbuf i) s := by
  rw [getNbuf, read_bind, if_pos hi]
  rfl

theorem getAltb_eq (hj : j < 8) (s : Locals) : getAltb j s = .ok (s.altb j) s := by
  rw [getAltb, read_bind, if_pos hj]
  rfl

theorem setAltb_eq (hj : j < 8) (c : UInt8) (s : Locals) :
    setAltb j c s = .ok () { s with altb := Function.update s.altb j c } := by
  rw [setAltb, if_pos hj]
  rfl

/-- The digits are behind what there was, the last one first. -/
theorem fillNbuf_spec {k : ℕ} (hk : k < rounds) (hroom : i + k < 64) (hn : n < base ^ (k + 1))
    (s : Locals) : ∃ i' buf, fillNbuf small base rounds i n s = .ok i' { s with nbuf := buf } ∧
      i' ≤ 64 ∧ taken buf i' = taken s.nbuf i ++ nbuf small base (k + 1) n := by
  induction rounds generalizing i n k s with
  | zero => exact absurd hk (Nat.not_lt_zero k)
  | succ rounds ih =>
    have hset := setNbuf_eq (show i < 64 by omega) (digit small (n % base)) s
    rw [fillNbuf, bind_of_ok hset, nbuf]
    by_cases hmore : n / base > 0
    · rw [if_pos hmore, if_pos hmore]
      have hn' : n / base < base ^ k := Nat.div_lt_of_lt_mul (by rwa [← Nat.pow_succ'])
      obtain _ | k := k
      · rw [Nat.pow_zero] at hn'
        omega
      · obtain ⟨i', buf, hfill, hi', htaken⟩ := ih (i := i + 1) (k := k) (by omega) (by omega) hn' _
        refine ⟨i', buf, hfill, hi', ?_⟩
        rw [htaken, taken_update, List.append_assoc]
        rfl
    · rw [if_neg hmore, if_neg hmore]
      exact ⟨i + 1, _, rfl, by omega, taken_update ..⟩

theorem putNbuf_eq (hi : i ≤ 64) (s : Locals) : putNbuf max i s =
    .ok () { s with out := puts (Printf.bputc max) (taken s.nbuf i).reverse s.out } := by
  induction i generalizing s with
  | zero => rfl
  | succ i ih =>
    rw [putNbuf, bind_of_ok (getNbuf_eq hi s), taken_succ, List.reverse_append]
    exact ih (Nat.le_of_succ_le hi) _

theorem putAltb_eq (hcs : StringAt s.altb j cs) (hj : j + cs.length < 8)
    (hrounds : cs.length < rounds) :
    putAltb max rounds j s = .ok () { s with out := puts (Printf.bputc max) cs s.out } := by
  induction cs generalizing rounds j s with
  | nil =>
    obtain _ | rounds := rounds
    · exact absurd hrounds (Nat.not_lt_zero _)
    have hnul : ¬s.altb j ≠ 0 := not_not.mpr hcs
    rw [putAltb, bind_of_ok (getAltb_eq (show j < 8 from hj) s), if_neg hnul]
    rfl
  | cons c cs ih =>
    obtain _ | rounds := rounds
    · exact absurd hrounds (Nat.not_lt_zero _)
    obtain ⟨rfl, hc, hcs⟩ := hcs
    rw [List.length_cons] at hj hrounds
    rw [putAltb, bind_of_ok (getAltb_eq (by omega) s), if_pos hc]
    exact ih (s := { s with out := Printf.bputc max (s.altb j) s.out }) hcs (by omega) (by omega)

theorem putPads_eq (c : UInt8) (n : ℕ) (s : Locals) : putPads max c n s =
    .ok (-1) { s with out := puts (Printf.bputc max) (List.replicate n c) s.out } := by
  induction n generalizing s with
  | zero => rfl
  | succ n ih => exact ih _

/-! ### The string of `altb` -/

theorem setAltb_bind {β : Type} (hj : j < 8) (c : UInt8) (f : Unit → FmtM β) (s : Locals) :
    (setAltb j c >>= f) s = f () { s with altb := Function.update s.altb j c } :=
  bind_of_ok (setAltb_eq hj c s)

/-- The mark is behind what there was, with a NUL. -/
theorem fillMark_spec (base : ℕ) (flags : Flags) (hj : j < 6) (s : Locals) :
    ∃ j' buf, fillMark base flags j s = .ok j' { s with altb := buf } ∧
      taken buf j' = taken s.altb j ++ markOf base flags ∧ buf j' = 0 := by
  have hend (j : ℕ) (hj : j < 8) (s : Locals) : (setAltb j 0 >>= fun _ => pure j : FmtM ℕ) s =
      .ok j { s with altb := Function.update s.altb j 0 } := setAltb_bind hj 0 _ s
  unfold fillMark markOf
  by_cases halt : flags.alternate
  · rw [if_pos halt, if_pos halt]
    by_cases h16 : base = 16
    · have h8 : base ≠ 8 := by omega
      rw [if_pos (Or.inr h16), setAltb_bind (by omega), if_pos h16, if_neg h8, if_pos h16,
        setAltb_bind (by omega)]
      refine ⟨j + 1 + 1, _, hend _ (by omega) _, ?_, Function.update_self ..⟩
      rw [taken_update_self, taken_update, taken_update, List.append_assoc]
      rfl
    · by_cases h8 : base = 8
      · rw [if_pos (Or.inl h8), setAltb_bind (by omega), if_neg h16, if_pos h8]
        refine ⟨j + 1, _, hend _ (by omega) _, ?_, Function.update_self ..⟩
        rw [taken_update_self, taken_update]
      · rw [if_neg (not_or.mpr ⟨h8, h16⟩), if_neg h8, if_neg h16, List.append_nil]
        exact ⟨j, _, hend j (by omega) s, taken_update_self .., Function.update_self ..⟩
  · rw [if_neg halt, if_neg halt, List.append_nil]
    exact ⟨j, _, hend j (by omega) s, taken_update_self .., Function.update_self ..⟩

theorem stringAt_range {buf : ℕ → UInt8} {n : ℕ} (hnul : buf (j + n) = 0)
    (h0 : 0 ∉ (List.range n).map fun k => buf (j + k)) :
    StringAt buf j ((List.range n).map fun k => buf (j + k)) := by
  induction n generalizing j with
  | zero => exact hnul
  | succ n ih =>
    have hshift (k : ℕ) : buf (j + (k + 1)) = buf (j + 1 + k) := congrArg buf (by omega)
    have htail : (List.range (n + 1)).map (fun k => buf (j + k)) =
        buf j :: (List.range n).map fun k => buf (j + 1 + k) := by
      rw [List.range_succ_eq_map, List.map_cons, List.map_map]
      exact congrArg (buf j :: ·) (List.map_congr_left fun k _ => hshift k)
    rw [htail] at h0 ⊢
    rw [List.mem_cons, not_or] at h0
    exact ⟨rfl, Ne.symm h0.1, ih ((hshift n).symm.trans hnul) h0.2⟩

/-- The elements before a NUL are a string. -/
theorem stringAt_taken {buf : ℕ → UInt8} (hnul : buf j = 0) (h0 : 0 ∉ taken buf j) :
    StringAt buf 0 (taken buf j) := by
  have htaken : taken buf j = (List.range j).map fun k => buf (0 + k) := by
    simp only [Nat.zero_add]
    rfl
  rw [htaken] at h0 ⊢
  exact stringAt_range (by rwa [Nat.zero_add]) h0

theorem zero_notMem_markOf (base : ℕ) (flags : Flags) : 0 ∉ markOf base flags := by
  unfold markOf
  split_ifs <;> decide

theorem fillAltb_spec (sign : UInt8) (base : ℕ) (flags : Flags) (s : Locals) :
    ∃ buf, fillAltb sign base flags s =
        .ok ((if sign ≠ 0 then [sign] else []) ++ markOf base flags).length { s with altb := buf } ∧
      StringAt buf 0 ((if sign ≠ 0 then [sign] else []) ++ markOf base flags) := by
  have hmark := zero_notMem_markOf base flags
  unfold fillAltb
  by_cases hsign : sign ≠ 0
  · rw [if_pos hsign, if_pos hsign, setAltb_bind (by omega)]
    obtain ⟨j, buf, hfill, htaken, hnul⟩ :=
      fillMark_spec base flags (by omega : 1 < 6) { s with altb := Function.update s.altb 0 sign }
    have hcs : taken buf j = [sign] ++ markOf base flags := htaken
    rw [← hcs, length_taken]
    refine ⟨buf, hfill, stringAt_taken hnul ?_⟩
    rw [hcs, List.singleton_append, List.mem_cons, not_or]
    exact ⟨Ne.symm hsign, hmark⟩
  · rw [if_neg hsign, if_neg hsign]
    obtain ⟨j, buf, hfill, htaken, hnul⟩ := fillMark_spec base flags (by omega : 0 < 6) s
    have hcs : taken buf j = [] ++ markOf base flags := htaken
    rw [← hcs, length_taken]
    refine ⟨buf, hfill, stringAt_taken hnul ?_⟩
    rwa [hcs]

/-! ### The text -/

/-- The text of `fmt_int`: its padding stands before all, between the sign and the digits, or
behind all. -/
def padded (flags : Flags) (npad : ℕ) (altb digits : List UInt8) : List UInt8 :=
  if flags.left then altb ++ digits ++ List.replicate npad 32
  else if flags.zeropad then altb ++ List.replicate npad 48 ++ digits
  else List.replicate npad 32 ++ altb ++ digits

theorem putInt_spec {npad : ℤ} {flags : Flags} (hi : i ≤ 64) (haltb : StringAt s.altb 0 cs)
    (hcs : cs.length < 8) :
    wp (putInt max i npad flags)
      (fun _ s' => s'.out =
        puts (Printf.bputc max) (padded flags npad.toNat cs (taken s.nbuf i).reverse) s.out)
      (fun _ _ => False) s := by
  have hlength : 0 + cs.length < 8 := by omega
  have hrounds : cs.length < 9 := by omega
  unfold putInt padded
  by_cases hpad : npad > 0 ∧ ¬flags.left
  · have hend : ¬((-1 : ℤ) > 0 ∧ flags.left = true) := by omega
    rw [if_pos hpad, if_neg hpad.2]
    by_cases hzero : flags.zeropad
    · rw [if_pos hzero, if_pos hzero, if_pos hzero]
      apply wp_bind_of_ok
      · exact putAltb_eq haltb hlength hrounds
      apply wp_bind_of_ok
      · exact setAltb_eq (by omega) 0 _
      apply wp_bind_of_ok
      · exact putPads_eq ..
      apply wp_bind_of_ok
      · have hnul : StringAt (Function.update s.altb 0 0) 0 [] := Function.update_self ..
        exact putAltb_eq hnul (by decide) (by decide)
      apply wp_bind_of_ok
      · exact putNbuf_eq hi _
      rw [if_neg hend]
      show puts _ _ _ = _
      rw [puts_append, puts_append]
      rfl
    · rw [if_neg hzero, if_neg hzero, if_neg hzero]
      apply wp_bind_of_ok
      · exact putPads_eq ..
      apply wp_bind_of_ok
      · exact putAltb_eq haltb hlength hrounds
      apply wp_bind_of_ok
      · exact putNbuf_eq hi _
      rw [if_neg hend]
      show puts _ _ _ = _
      rw [puts_append, puts_append]
  · rw [if_neg hpad]
    apply wp_bind_of_ok
    · exact putAltb_eq haltb hlength hrounds
    apply wp_bind_of_ok
    · exact putNbuf_eq hi _
    by_cases hleft : npad > 0 ∧ flags.left
    · rw [if_pos hleft, if_pos hleft.2]
      apply wp_bind_of_ok
      · exact putPads_eq ..
      show puts _ _ _ = _
      rw [puts_append, puts_append]
    · have hzero : npad.toNat = 0 := by
        rw [Int.toNat_eq_zero]
        by_contra hpos
        cases hflag : flags.left
        · exact hpad ⟨by omega, by rw [hflag]; decide⟩
        · exact hleft ⟨by omega, hflag⟩
      rw [if_neg hleft, hzero]
      show puts _ _ _ = _
      simp [puts_append]

/-- Without the flag `0` where there is `-`, the text is the same. -/
theorem without_zeropad (num : ℤ) (base : ℕ) (flags : Flags) {f : Flags}
    (hf : f = if flags.left then { flags with zeropad := false } else flags) :
    isNeg num f = isNeg num flags ∧ f.plus = flags.plus ∧ f.space = flags.space ∧
      f.small = flags.small ∧ markOf base f = markOf base flags ∧ padded f = padded flags := by
  subst hf
  split
  next hleft =>
    refine ⟨rfl, rfl, rfl, rfl, rfl, ?_⟩
    funext npad altb digits
    rw [padded, padded, if_pos hleft, if_pos hleft]
  next => exact ⟨rfl, rfl, rfl, rfl, rfl, rfl⟩

theorem sign_eq (num : ℤ) (flags : Flags) :
    (if (if isNeg num flags then 45 else if flags.plus then 43 else if flags.space then 32 else 0 :
      UInt8) ≠ 0 then
        [if isNeg num flags then 45 else if flags.plus then 43 else if flags.space then 32 else 0]
      else []) = signOf num flags := by
  unfold signOf
  split_ifs <;> first | rfl | contradiction

theorem length_altbOf (num : ℤ) (base : ℕ) (flags : Flags) :
    (altbOf num base flags).length ≤ 3 := by
  unfold altbOf
  split_ifs <;> decide

/-- **Rendering**: `fmt_int` stays within its arrays, and puts out the padded number. -/
theorem fmtInt_spec (num : ℤ) (hbase : 2 ≤ base ∧ base ≤ 16) (width : ℤ) (flags : Flags) :
    wp (fmtInt max num base width flags)
      (fun _ s' => s'.out = puts (Printf.bputc max) (padded flags (npadOf num base width flags)
        (altbOf num base flags) (digitsOf num base flags).reverse) s.out)
      (fun _ _ => False) s := by
  unfold fmtInt
  rw [if_neg (by omega)]
  obtain ⟨f, hf⟩ : ∃ f, f = if flags.left then { flags with zeropad := false } else flags :=
    ⟨_, rfl⟩
  obtain ⟨hneg, hplus, hspace, hsmall, hmark, hpadded⟩ := without_zeropad num base flags hf
  simp only [← hf]
  rw [hneg, hplus, hspace, hsmall]
  have hn : ((if isNeg num flags then -num else num) % 2 ^ 32).toNat < base ^ (31 + 1) := by
    have hlt (x : ℤ) : (x % 2 ^ 32).toNat < 2 ^ 32 := by omega
    exact (hlt _).trans_le (Nat.pow_le_pow_left hbase.1 32)
  obtain ⟨i, buf, hfill, hi, hdigits⟩ :=
    fillNbuf_spec (by decide : 31 < 65) (by decide : 0 + 31 < 64) hn s
  have htaken : taken buf i = digitsOf num base flags := hdigits
  have hlength : (digitsOf num base flags).length = i := by rw [← htaken, length_taken]
  apply wp_bind_of_ok
  · exact hfill
  obtain ⟨altb, hfill', haltb⟩ := fillAltb_spec
    (if isNeg num flags then 45 else if flags.plus then 43 else if flags.space then 32
      else 0) base f
    { s with nbuf := buf }
  have haltbOf : signOf num flags ++ markOf base flags = altbOf num base flags := rfl
  rw [hmark, sign_eq, haltbOf] at hfill' haltb
  apply wp_bind_of_ok
  · exact hfill'
  have hnpad : (if width > i + (altbOf num base flags).length then
      width - i - (altbOf num base flags).length else 0).toNat = npadOf num base width flags := by
    rw [npadOf, hlength]
    split_ifs <;> omega
  rw [← hpadded, ← hnpad, ← htaken]
  exact putInt_spec hi haltb ((length_altbOf num base flags).trans_lt (by decide))

theorem intText_padded (num : ℤ) (hbase : 2 ≤ base ∧ base ≤ 16) (width : ℤ) (flags : Flags) :
    intText num base width flags = padded flags (npadOf num base width flags)
      (altbOf num base flags) (digitsOf num base flags).reverse := by
  have hrange : ¬(base < 2 ∨ base > 16) := by omega
  unfold intText Printf.fmtInt padded
  generalize npadOf num base width flags = npad
  simp only [if_neg hrange, puts_snoc, List.nil_append]
  obtain rfl | hpad := Nat.eq_zero_or_pos npad
  · simp
  · cases flags.left <;> simp [hpad]

/-- The model of `vsnprintf` has what `fmt_int` puts out. -/
theorem fmtInt_printf (num : ℤ) (base : ℕ) (width : ℤ) (flags : Flags) :
    wp (fmtInt max num base width flags)
      (fun _ s' => s'.out = Printf.fmtInt (Printf.bputc max) num base width flags s.out)
      (fun _ _ => False) s := by
  by_cases hbase : base < 2 ∨ base > 16
  · rw [fmtInt, if_pos hbase, Printf.fmtInt, if_pos hbase]
    rfl
  · have hrange : 2 ≤ base ∧ base ≤ 16 := by omega
    rw [Printf.fmtInt_eq, intText_padded num hrange]
    exact fmtInt_spec num hrange width flags

end

/-! ### The digits -/

/-- The canonical numeral of a number. -/
def numeral (small : Bool) (base m : ℕ) : List UInt8 :=
  if m = 0 then [digit small 0] else ((Nat.digits base m).map (digit small)).reverse

/-- The number whose digits are put out: the absolute value of a signed one, the lower 32 bits of an
unsigned one. -/
def absolute (num : ℤ) (flags : Flags) : ℕ :=
  if flags.signed then num.natAbs else (num % 2 ^ 32).toNat

theorem nbuf_eq (small : Bool) {base k m : ℕ} (hbase : 2 ≤ base) (hm : m < base ^ (k + 1)) :
    nbuf small base (k + 1) m =
      if m = 0 then [digit small 0] else (Nat.digits base m).map (digit small) := by
  induction k generalizing m with
  | zero =>
    rw [Nat.pow_one] at hm
    have hdiv : ¬m / base > 0 := by rw [Nat.div_eq_of_lt hm]; exact Nat.lt_irrefl 0
    rw [nbuf, if_neg hdiv, Nat.mod_eq_of_lt hm]
    split
    next h0 => rw [h0]
    next h0 => rw [Nat.digits_of_lt base m h0 hm, List.map_singleton]
  | succ k ih =>
    have hm' : m / base < base ^ (k + 1) := Nat.div_lt_of_lt_mul (by rwa [← Nat.pow_succ'])
    rw [nbuf]
    obtain rfl | hpos := Nat.eq_zero_or_pos m
    · simp
    · rw [if_neg (Nat.ne_of_gt hpos), Nat.digits_def' hbase hpos, List.map_cons]
      congr 1
      split
      next hmore => rw [ih hm', if_neg (Nat.ne_of_gt hmore)]
      next hmore =>
        rw [Nat.eq_zero_of_not_pos hmore, Nat.digits_zero]
        rfl

theorem reverse_digitsOf {num : ℤ} {base : ℕ} {flags : Flags} (hbase : 2 ≤ base)
    (hnum : flags.signed = true → -2 ^ 31 ≤ num ∧ num < 2 ^ 31) :
    (digitsOf num base flags).reverse = numeral flags.small base (absolute num flags) := by
  have habs : ((if isNeg num flags then -num else num) % 2 ^ 32).toNat = absolute num flags := by
    unfold isNeg absolute
    cases hsigned : flags.signed with
    | false => rfl
    | true =>
      have hrange := hnum hsigned
      simp only [Bool.true_and, decide_eq_true_eq, if_true]
      split_ifs <;> omega
  have hlt : absolute num flags < base ^ (31 + 1) := by
    rw [← habs]
    have hlt (x : ℤ) : (x % 2 ^ 32).toNat < 2 ^ 32 := by omega
    exact (hlt _).trans_le (Nat.pow_le_pow_left hbase 32)
  rw [digitsOf, habs, nbuf_eq flags.small hbase hlt, numeral]
  split
  · rfl
  · rfl

/-! ### The buffer -/

/-- The characters `cs` have been put out, and nothing else has changed. -/
structure Puts (x : Out) (cs : List UInt8) (y : Out) : Prop where
  count : y.n = x.n + cs.length
  text : ∀ k c, cs[k]? = some c → y.buf (x.n + k) = c
  before : ∀ i < x.n, y.buf i = x.buf i
  behind : ∀ i, x.n + cs.length ≤ i → y.buf i = x.buf i

/-- What is behind the characters that are put out stays. -/
theorem puts_behind {size i : ℕ} (cs : List UInt8) {x : Out} (hi : x.n + cs.length ≤ i)
    (hn : x.n + cs.length < 2 ^ 32) : (puts (Printf.bputc size) cs x).buf i = x.buf i := by
  induction cs generalizing x with
  | nil => rfl
  | cons c cs ih =>
    rw [List.length_cons] at hi hn
    have hcount : (Printf.bputc size c x).n = x.n + 1 := Nat.mod_eq_of_lt (by omega)
    rw [puts_cons, ih (by omega) (by omega), Printf.bputc]
    dsimp only
    split
    · exact Function.update_of_ne (by omega) ..
    · rfl

/-- All of a text is put out where there is room for it. -/
theorem puts_room {size : ℕ} {cs : List UInt8} {x : Out} (hsize : size < 2 ^ 32)
    (hroom : x.n + cs.length ≤ size) : Puts x cs (puts (Printf.bputc size) cs x) where
  count := by
    rw [puts_n size cs (by omega)]
    exact Nat.mod_eq_of_lt (by omega)
  text k c hk := by
    obtain ⟨hlt, -⟩ := List.getElem?_eq_some_iff.mp hk
    exact puts_get cs (by omega) hk (by omega)
  before i hi := puts_before cs hi (by omega)
  behind i hi := puts_behind cs hi (by omega)

/-- The length of a number without padding. -/
def natural (num : ℤ) (base : ℕ) (flags : Flags) : ℕ :=
  (signOf num flags).length + (markOf base flags).length +
    (numeral flags.small base (absolute num flags)).length

theorem length_padded (flags : Flags) (npad : ℕ) (altb digits : List UInt8) :
    (padded flags npad altb digits).length = npad + (altb.length + digits.length) := by
  unfold padded
  split_ifs <;> simp only [List.length_append, List.length_replicate] <;> omega

/-- The padding is on one side. -/
theorem padded_sides (flags : Flags) (npad : ℕ) (altb digits : List UInt8) :
    ∃ l z r, padded flags npad altb digits = List.replicate l 32 ++ altb ++ List.replicate z 48 ++
        digits ++ List.replicate r 32 ∧
      (flags.left = true → l = 0 ∧ z = 0) ∧
      (flags.left = false → flags.zeropad = true → l = 0 ∧ r = 0) ∧
      (flags.left = false → flags.zeropad = false → z = 0 ∧ r = 0) := by
  unfold padded
  cases flags.left with
  | true => exact ⟨0, 0, npad, by simp, by simp⟩
  | false =>
    cases flags.zeropad with
    | true => exact ⟨0, npad, 0, by simp, by simp⟩
    | false => exact ⟨npad, 0, 0, by simp, by simp⟩

/-- A number is put out as blanks, its sign and mark, zeros, its numeral and blanks, as wide as is
demanded, with the padding on the side that the flags demand. -/
theorem fmtInt_renders {size base : ℕ} {num : ℤ} {flags : Flags} (hsize : size < 2 ^ 32)
    (hbase : 2 ≤ base ∧ base ≤ 16) (hnum : flags.signed = true → -2 ^ 31 ≤ num ∧ num < 2 ^ 31)
    (width : ℤ) (s : Locals) (hroom : s.out.n + max width.toNat (natural num base flags) ≤ size) :
    ∃ s' text l z r, fmtInt size num base width flags s = .ok () s' ∧ Puts s.out text s'.out ∧
      text = List.replicate l 32 ++ (signOf num flags ++ markOf base flags) ++
        List.replicate z 48 ++ numeral flags.small base (absolute num flags) ++
        List.replicate r 32 ∧
      text.length = max width.toNat (natural num base flags) ∧
      (flags.left = true → l = 0 ∧ z = 0) ∧
      (flags.left = false → flags.zeropad = true → l = 0 ∧ r = 0) ∧
      (flags.left = false → flags.zeropad = false → z = 0 ∧ r = 0) := by
  obtain ⟨⟨⟩, s', hrun, hout⟩ := (@fmtInt_spec s base size num hbase width flags).returns
  have hdigits := reverse_digitsOf hbase.1 hnum
  have haltb : altbOf num base flags = signOf num flags ++ markOf base flags := rfl
  obtain ⟨l, z, r, hsides, hwhere⟩ := padded_sides flags (npadOf num base width flags)
    (signOf num flags ++ markOf base flags) (numeral flags.small base (absolute num flags))
  rw [hdigits, haltb] at hout
  have hlength : (padded flags (npadOf num base width flags) (signOf num flags ++ markOf base flags)
      (numeral flags.small base (absolute num flags))).length =
      max width.toNat (natural num base flags) := by
    have hlen : (digitsOf num base flags).length =
        (numeral flags.small base (absolute num flags)).length := by
      rw [← hdigits, List.length_reverse]
    rw [length_padded, npadOf, hlen, haltb, natural, List.length_append]
    omega
  refine ⟨s', _, l, z, r, hrun, ?_, hsides, hlength, hwhere⟩
  rw [hout]
  exact puts_room hsize (hlength ▸ hroom)

/-- `%04i` of -5. -/
theorem fmtInt_renders_zeropad : ∃ s' text, fmtInt 8 (-5) 10 4
      { noFlags with zeropad := true, signed := true } ⟨fun _ => 0, fun _ => 0, ⟨fun _ => 0, 0⟩⟩ =
    .ok () s' ∧ Puts ⟨fun _ => 0, 0⟩ text s'.out ∧ text.length = 4 := by
  have hnatural : natural (-5) 10 { noFlags with zeropad := true, signed := true } = 2 := by
    simp [natural, signOf, markOf, numeral, absolute, noFlags, isNeg]
  obtain ⟨s', text, l, z, r, hrun, hputs, -, hlength, -⟩ :=
    @fmtInt_renders 8 10 (-5) { noFlags with zeropad := true, signed := true } (by decide)
      (by decide) (by decide) 4 ⟨fun _ => 0, fun _ => 0, ⟨fun _ => 0, 0⟩⟩ (by rw [hnatural]; decide)
  rw [hnatural] at hlength
  exact ⟨s', text, hrun, hputs, hlength⟩

end Cosiris.Render
