import Mathlib.Algebra.BigOperators.Intervals
import Mathlib.Algebra.Order.BigOperators.Group.Finset
import Mathlib.Algebra.Order.Group.Nat

/-!
# The clock

`rtc.c`: the date and time in the registers of the clock become the number of seconds since 1970.
The minute takes its ones from the month, the two hours that the local time is ahead are taken from
the hour alone, and the leap day of a year counts from its January on.
-/

namespace Cosiris.Clock

/-! ### The handler -/

/-- `UTC_DIFF`, as it is added to the hour. -/
def utcDiff : UInt8 := 254

/-- `mon_days`. -/
def monDays : List UInt8 := [31, 28, 31, 30, 31, 30, 31, 31, 30, 31, 30, 31]

/-- The loop of `set_system_time` over the months before `m`. -/
def sumDays (m : ℕ) : UInt32 :=
  (List.range m).foldl (fun days j => days + (monDays.getD j 0).toUInt32) 0

/-- `set_system_time`, of a month from 1 to 12. -/
def setSystemTime (y : UInt16) (m d h i s : UInt8) : UInt32 :=
  let y := y - 1970
  let leaps := (y.toUInt32 + 2) / 4
  let m := m - 1
  let days := sumDays m.toNat
  let days := days + (d.toUInt32 - 1)
  let days := days + y.toUInt32 * 365 + leaps
  let h := h + utcDiff
  days * 86400 + h.toUInt32 * 3600 + i.toUInt32 * 60 + s.toUInt32

/-- `rtc_handler`, with what `rtc_get_reg` reads. -/
def rtcHandler (rtcGetReg : UInt8 → UInt8) : UInt32 :=
  let b := rtcGetReg 0x0B
  let s := rtcGetReg 0x00
  let i := rtcGetReg 0x02
  let h := rtcGetReg 0x04
  let d := rtcGetReg 0x07
  let m := rtcGetReg 0x08
  let y := rtcGetReg 0x09
  let c := rtcGetReg 0x32
  let c := if c = 0 then 20 else c
  if b &&& 0x04 = 0 then
    let s := (s &&& 0x0F) + s / 16 * 10
    let i := (m &&& 0x0F) + i / 16 * 10
    let h := ((h &&& 0x0F) + (h &&& 0x70) / 16 * 10) ||| (h &&& 0x80)
    let d := (d &&& 0x0F) + d / 16 * 10
    let m := (m &&& 0x0F) + m / 16 * 10
    let y := (y &&& 0x0F) + y / 16 * 10
    let c := (c &&& 0x0F) + c / 16 * 10
    setSystemTime (c.toUInt16 * 100 + y.toUInt16) m d h i s
  else setSystemTime (c.toUInt16 * 100 + y.toUInt16) m d h i s

/-! ### Civil time -/

/-- A leap year. -/
def Leap (y : ℕ) : Prop := 4 ∣ y ∧ (100 ∣ y → 400 ∣ y)

instance (y : ℕ) : Decidable (Leap y) := inferInstanceAs (Decidable (4 ∣ y ∧ (100 ∣ y → 400 ∣ y)))

/-- The days of a month. -/
def daysIn (y m : ℕ) : ℕ :=
  if m = 2 then if Leap y then 29 else 28
  else if m = 4 ∨ m = 6 ∨ m = 9 ∨ m = 11 then 30 else 31

/-- The days of a year. -/
def daysInYear (y : ℕ) : ℕ := if Leap y then 366 else 365

/-- A date and a time of day, from 1970-01-01 02:00:00 to 2099-12-31 23:59:59. -/
structure Civil where
  year : ℕ
  month : ℕ
  day : ℕ
  hour : ℕ
  minute : ℕ
  second : ℕ
  year_mem : 1970 ≤ year ∧ year ≤ 2099
  month_mem : 1 ≤ month ∧ month ≤ 12
  day_mem : 1 ≤ day ∧ day ≤ daysIn year month
  hour_lt : hour < 24
  minute_lt : minute < 60
  second_lt : second < 60
  start : year = 1970 → month = 1 → day = 1 → 2 ≤ hour

/-- The days from 1970-01-01 on. -/
def dayNumber (y m d : ℕ) : ℕ :=
  ∑ k ∈ Finset.Ico 1970 y, daysInYear k + ∑ k ∈ Finset.Ico 1 m, daysIn y k + (d - 1)

namespace Civil

variable (t : Civil)

/-- The seconds of the day. -/
def seconds : ℕ := t.hour * 3600 + t.minute * 60 + t.second

/-- The Unix time of a local time that is two hours ahead. -/
def unixTime : ℕ := dayNumber t.year t.month t.day * 86400 + t.seconds - 2 * 3600

/-- One time is before another one. -/
def Before (a b : Civil) : Prop :=
  a.year < b.year ∨ a.year = b.year ∧ (a.month < b.month ∨ a.month = b.month ∧
    (a.day < b.day ∨ a.day = b.day ∧ a.seconds < b.seconds))

end Civil

/-- A number below 100 in two digits. -/
def bcd (n : ℕ) : UInt8 := .ofNat (n / 10 * 16 + n % 10)

/-- The registers hold a time in BCD, in the form of 24 hours. -/
structure Holds (reg : UInt8 → UInt8) (t : Civil) : Prop where
  binary : reg 0x0B &&& 0x04 = 0
  hours24 : reg 0x0B &&& 0x02 ≠ 0
  second : reg 0x00 = bcd t.second
  minute : reg 0x02 = bcd t.minute
  hour : reg 0x04 = bcd t.hour
  day : reg 0x07 = bcd t.day
  month : reg 0x08 = bcd t.month
  year : reg 0x09 = bcd (t.year % 100)
  century : reg 0x32 = bcd (t.year / 100)

/-- Registers that hold a time. -/
def Civil.registers (t : Civil) (reg : UInt8) : UInt8 :=
  if reg = 0x0B then 0x02
  else if reg = 0x00 then bcd t.second
  else if reg = 0x02 then bcd t.minute
  else if reg = 0x04 then bcd t.hour
  else if reg = 0x07 then bcd t.day
  else if reg = 0x08 then bcd t.month
  else if reg = 0x09 then bcd (t.year % 100)
  else if reg = 0x32 then bcd (t.year / 100)
  else 0

theorem holds_registers (t : Civil) : Holds t.registers t := by
  have hform : t.registers 0x0B = 0x02 := rfl
  refine ⟨?_, ?_, rfl, rfl, rfl, rfl, rfl, rfl, rfl⟩ <;> rw [hform] <;> decide

/-- The times that the handler gets right. -/
structure Civil.Fine (t : Civil) : Prop where
  ones : t.minute % 10 = t.month % 10
  shift : 2 ≤ t.hour
  leapDay : ¬(Leap t.year ∧ t.month ≤ 2)

/-! ### Days -/

section

variable {y m d h i c : ℕ}

theorem daysInYear_eq (h : 1970 ≤ y ∧ y ≤ 2099) : daysInYear y = if 4 ∣ y then 366 else 365 := by
  have hleap : Leap y ↔ 4 ∣ y := by
    refine ⟨And.left, fun h4 => ⟨h4, fun h100 => ?_⟩⟩
    obtain rfl : y = 2000 := by omega
    decide
  unfold daysInYear
  simp only [hleap]

/-- The days of the years before one of them. -/
theorem sum_daysInYear (hlo : 1970 ≤ y) (hhi : y ≤ 2100) :
    ∑ k ∈ Finset.Ico 1970 y, daysInYear k = (y - 1970) * 365 + (y - 1969) / 4 := by
  induction y, hlo using Nat.le_induction with
  | base => rfl
  | succ y hlo ih =>
    rw [Finset.sum_Ico_succ_top hlo, ih (by omega), daysInYear_eq (by omega)]
    split_ifs <;> omega

theorem sumDays_succ :
    ∀ m < 12, (sumDays (m + 1)).toNat = (sumDays m).toNat + (monDays.getD m 0).toNat := by
  decide

/-- The days of a month are those of the table, and the leap day. -/
theorem daysIn_eq (h1 : 1 ≤ m) (h12 : m ≤ 12) :
    daysIn y m = (monDays.getD (m - 1) 0).toNat + if m = 2 ∧ Leap y then 1 else 0 := by
  unfold daysIn
  by_cases hleap : Leap y
  · simp only [hleap, and_true, if_true]
    revert m
    decide
  · simp only [hleap, and_false, if_false]
    revert m
    decide

/-- The days of the months before one of them are those of the table, and the leap day. -/
theorem sum_daysIn (h1 : 1 ≤ m) (h12 : m ≤ 13) : ∑ k ∈ Finset.Ico 1 m, daysIn y k =
    (sumDays (m - 1)).toNat + if 2 < m ∧ Leap y then 1 else 0 := by
  induction m, h1 using Nat.le_induction with
  | base => simp; rfl
  | succ m h1 ih =>
    have hsucc := sumDays_succ (m - 1) (by omega)
    rw [Nat.sub_add_cancel h1] at hsucc
    rw [Finset.sum_Ico_succ_top h1, ih (by omega), daysIn_eq h1 (by omega),
      Nat.add_sub_cancel, hsucc]
    by_cases hleap : Leap y
    · simp only [hleap, and_true]
      split_ifs <;> omega
    · simp [hleap]

/-- The number of a date is what `set_system_time` counts, without the leap day of a year before its
March. -/
theorem dayNumber_eq (t : Civil) :
    (sumDays (t.month - 1)).toNat + (t.day - 1) + (t.year - 1970) * 365 +
      (t.year - 1968) / 4 =
    dayNumber t.year t.month t.day + if Leap t.year ∧ t.month ≤ 2 then 1 else 0 := by
  obtain ⟨hlo, hhi⟩ := t.year_mem
  obtain ⟨h1, h12⟩ := t.month_mem
  unfold dayNumber
  rw [sum_daysInYear hlo (by omega), sum_daysIn h1 (by omega)]
  by_cases hleap : Leap t.year
  · have h4 : 4 ∣ t.year := hleap.1
    simp only [hleap, and_true, true_and]
    split_ifs <;> omega
  · have h4 : ¬4 ∣ t.year := fun h => by
      have hyear := daysInYear_eq t.year_mem
      unfold daysInYear at hyear
      rw [if_neg hleap, if_pos h] at hyear
      exact absurd hyear (by decide)
    simp only [hleap, and_false, false_and, if_false]
    omega

/-! ### Registers -/

theorem bcd_binary : ∀ n < 100, (bcd n &&& 0x0F) + bcd n / 16 * 10 = .ofNat n := by decide

theorem bcd_hour :
    ∀ n < 24, ((bcd n &&& 0x0F) + (bcd n &&& 0x70) / 16 * 10) ||| (bcd n &&& 0x80) = .ofNat n := by
  decide

theorem bcd_mixed : ∀ m < 13, ∀ i < 60,
    (bcd m &&& 0x0F) + bcd i / 16 * 10 = .ofNat (i / 10 * 10 + m % 10) := by
  decide +kernel

theorem toUInt32_utc : ∀ n < 24, (UInt8.ofNat n + utcDiff).toUInt32 = .ofNat ((n + 254) % 256) := by
  decide

/-- The seconds that `set_system_time` counts. -/
def counted (t : Civil) (i : ℕ) : ℕ :=
  ((sumDays (t.month - 1)).toNat + (t.day - 1) + (t.year - 1970) * 365 +
    (t.year - 1968) / 4) * 86400 +
    (t.hour + 254) % 256 * 3600 + i * 60 + t.second

theorem setSystemTime_eq (t : Civil) (hi : i < 256) : setSystemTime (.ofNat t.year) (.ofNat t.month)
    (.ofNat t.day) (.ofNat t.hour) (.ofNat i) (.ofNat t.second) = .ofNat (counted t i) := by
  obtain ⟨hlo, hhi⟩ := t.year_mem
  obtain ⟨h1, h12⟩ := t.month_mem
  obtain ⟨hd, hdays⟩ := t.day_mem
  have hd31 : daysIn t.year t.month ≤ 31 := by
    unfold daysIn
    split_ifs <;> decide
  have hsec := t.second_lt
  have hy : (UInt16.ofNat t.year - 1970).toUInt32 = .ofNat (t.year - 1970) := by
    rw [← UInt16.toUInt32_ofNat' (show t.year - 1970 < 2 ^ 16 by omega), UInt16.ofNat_sub hlo]
    rfl
  have hleaps : (UInt32.ofNat (t.year - 1970) + 2) / 4 = .ofNat ((t.year - 1968) / 4) := by
    rw [UInt32.ofNat_div (by omega) (by decide), show t.year - 1968 = t.year - 1970 + 2 by omega,
      UInt32.ofNat_add]
    rfl
  have hm : (UInt8.ofNat t.month - 1).toNat = t.month - 1 := by
    have hsub := UInt8.ofNat_sub h1
    rw [show (1 : UInt8) = .ofNat 1 from rfl, ← hsub, UInt8.toNat_ofNat']
    omega
  have hday : (UInt8.ofNat t.day).toUInt32 - 1 = .ofNat (t.day - 1) := by
    rw [UInt8.toUInt32_ofNat' (by show t.day < 256; omega), UInt32.ofNat_sub hd]
    rfl
  unfold setSystemTime counted
  dsimp only
  rw [hy, hleaps, hm, hday, toUInt32_utc _ t.hour_lt,
    UInt8.toUInt32_ofNat' (show i < 2 ^ 8 from hi),
    UInt8.toUInt32_ofNat' (by show t.second < 256; omega)]
  simp only [UInt32.ofNat_add, UInt32.ofNat_mul, UInt32.ofNat_toNat]
  rfl

/-- What the handler makes of the registers. The minute has its ones from the month. -/
theorem handler_eq {reg : UInt8 → UInt8} {t : Civil} (h : Holds reg t) :
    rtcHandler reg = .ofNat (counted t (t.minute / 10 * 10 + t.month % 10)) := by
  obtain ⟨hlo, hhi⟩ := t.year_mem
  obtain ⟨h1, h12⟩ := t.month_mem
  obtain ⟨hd, hdays⟩ := t.day_mem
  have hmin := t.minute_lt
  have hsec := t.second_lt
  have hd31 : daysIn t.year t.month ≤ 31 := by
    unfold daysIn
    split_ifs <;> decide
  have hc : bcd (t.year / 100) ≠ 0 := by
    have hcent : t.year / 100 = 19 ∨ t.year / 100 = 20 := by omega
    rcases hcent with hcent | hcent <;> rw [hcent] <;> decide
  have hyear : (UInt8.ofNat (t.year / 100)).toUInt16 * 100 + (UInt8.ofNat (t.year % 100)).toUInt16 =
      .ofNat t.year := by
    rw [UInt8.toUInt16_ofNat' (by show t.year / 100 < 256; omega),
      UInt8.toUInt16_ofNat' (by show t.year % 100 < 256; omega)]
    conv_rhs => rw [← Nat.div_add_mod' t.year 100, UInt16.ofNat_add, UInt16.ofNat_mul]
    rfl
  unfold rtcHandler
  dsimp only
  rw [if_pos h.binary, h.second, h.minute, h.hour, h.day, h.month, h.year, h.century, if_neg hc,
    bcd_binary _ (by omega), bcd_mixed _ (by omega) _ hmin, bcd_hour _ t.hour_lt,
      bcd_binary t.day (by omega),
    bcd_binary t.month (by omega), bcd_binary _ (by omega), bcd_binary _ (by omega), hyear,
    setSystemTime_eq t (by omega)]

theorem sumDays_le : ∀ m < 12, (sumDays m).toNat ≤ 334 := by decide

/-- What is counted fits in 32 bits. -/
theorem counted_lt (t : Civil) (hi : i < 256) : counted t i < 2 ^ 32 := by
  have hsum := sumDays_le (t.month - 1) (by have := t.month_mem; omega)
  have hd31 : daysIn t.year t.month ≤ 31 := by
    unfold daysIn
    split_ifs <;> decide
  have hyear := t.year_mem
  have hday := t.day_mem
  have hsec := t.second_lt
  unfold counted
  omega

/-- The first day begins at 02:00:00. -/
theorem start_le (t : Civil) : 2 * 3600 ≤ dayNumber t.year t.month t.day * 86400 + t.seconds := by
  obtain ⟨hlo, hhi⟩ := t.year_mem
  obtain ⟨h1, h12⟩ := t.month_mem
  obtain ⟨hd, hdays⟩ := t.day_mem
  by_cases hday : dayNumber t.year t.month t.day = 0
  · have hzero : ∀ m < 12, (sumDays m).toNat = 0 → m = 0 := by decide
    unfold dayNumber at hday
    rw [sum_daysInYear hlo (by omega), sum_daysIn h1 (by omega)] at hday
    have hmonth := hzero (t.month - 1) (by omega) (by omega)
    have hhour := t.start (by omega) (by omega) (by omega)
    unfold Civil.seconds
    omega
  · omega

theorem handler_toNat_iff {reg : UInt8 → UInt8} {t : Civil} (h : Holds reg t) :
    (rtcHandler reg).toNat = t.unixTime ↔ t.Fine := by
  have hmin := t.minute_lt
  have hhour := t.hour_lt
  have hlt := counted_lt t (show t.minute / 10 * 10 + t.month % 10 < 256 by omega)
  have hstart := start_le t
  rw [handler_eq h, UInt32.toNat_ofNat', Nat.mod_eq_of_lt hlt]
  unfold counted Civil.unixTime
  rw [dayNumber_eq t]
  unfold Civil.seconds at hstart ⊢
  constructor
  · intro heq
    split_ifs at heq with hleap
    · omega
    · exact ⟨by omega, by omega, hleap⟩
  · rintro ⟨hones, hshift, hleap⟩
    rw [if_neg hleap]
    omega

/-! ### The order of the times -/

theorem sum_step {f : ℕ → ℕ} {a : ℕ} (ha : a ≤ m) (hm : m < d) :
    ∑ k ∈ Finset.Ico a m, f k + f m ≤ ∑ k ∈ Finset.Ico a d, f k := by
  rw [← Finset.sum_Ico_succ_top ha]
  exact Finset.sum_le_sum_of_subset (Finset.Ico_subset_Ico_right hm)

theorem sum_months : ∑ k ∈ Finset.Ico 1 13, daysIn y k = daysInYear y := by
  rw [sum_daysIn (by decide) le_rfl]
  unfold daysInYear
  split_ifs with h1 h2 h3
  · rfl
  · exact absurd h1.2 h2
  · exact absurd ⟨by decide, h3⟩ h1
  · rfl

/-- The number of days grows with the date. -/
theorem dayNumber_lt {a b : Civil} (h : a.year < b.year ∨ a.year = b.year ∧ (a.month < b.month ∨
    a.month = b.month ∧ a.day < b.day)) :
    dayNumber a.year a.month a.day < dayNumber b.year b.month b.day := by
  have hlo := a.year_mem.1
  have hmonth := a.month_mem
  have hday := a.day_mem
  have hday' := b.day_mem
  unfold dayNumber
  rcases h with hy | ⟨hy, hm | ⟨hm, hd⟩⟩
  · have hyears := sum_step (f := daysInYear) hlo hy
    have hmonths := sum_step (f := daysIn a.year) hmonth.1 (Nat.lt_succ_of_le hmonth.2)
    rw [sum_months] at hmonths
    omega
  · have hmonths := sum_step (f := daysIn a.year) hmonth.1 hm
    rw [← hy]
    omega
  · rw [← hy, ← hm]
    omega

theorem seconds_lt (t : Civil) : t.seconds < 86400 := by
  have hhour := t.hour_lt
  have hmin := t.minute_lt
  have hsec := t.second_lt
  unfold Civil.seconds
  omega

/-- The Unix time grows with the civil time. -/
theorem unixTime_lt {a b : Civil} (h : a.Before b) : a.unixTime < b.unixTime := by
  have hstart := start_le a
  have hsec := seconds_lt a
  unfold Civil.unixTime
  rcases h with hy | ⟨hy, hm | ⟨hm, hd | ⟨hd, hs⟩⟩⟩
  · have hlt := dayNumber_lt (a := a) (b := b) (.inl hy)
    omega
  · have hlt := dayNumber_lt (a := a) (b := b) (.inr ⟨hy, .inl hm⟩)
    omega
  · have hlt := dayNumber_lt (a := a) (b := b) (.inr ⟨hy, .inr ⟨hm, hd⟩⟩)
    omega
  · rw [hy, hm, hd] at hstart ⊢
    omega

end

/-! ### The clock -/

/-- **The handler sets the Unix time exactly of the times whose minute and month have the same ones,
from 02:00:00 on, that are not before March in a leap year. Of such times the later one has the
greater Unix time.** -/
theorem clock_iff {reg : UInt8 → UInt8} {t : Civil} (h : Holds reg t) :
    ((rtcHandler reg).toNat = t.unixTime ↔ t.Fine) ∧
    ∀ reg' t', Holds reg' t' → t.Fine → t'.Fine → t.Before t' →
      rtcHandler reg < rtcHandler reg' := by
  refine ⟨handler_toNat_iff h, fun reg' t' h' hfine hfine' hbefore => ?_⟩
  rw [UInt32.lt_iff_toNat_lt, (handler_toNat_iff h).mpr hfine, (handler_toNat_iff h').mpr hfine']
  exact unixTime_lt hbefore

/-- 2000-03-15 12:03:00 is right, and before 2000-03-15 12:03:01. -/
theorem clock_iff_march :
    (rtcHandler (Civil.registers
      ⟨2000, 3, 15, 12, 3, 0, by decide, by decide, by decide, by decide, by decide,
      by decide, by decide⟩)).toNat = 953114580 ∧
    rtcHandler (Civil.registers
      ⟨2000, 3, 15, 12, 3, 0, by decide, by decide, by decide, by decide, by decide,
      by decide, by decide⟩) <
    rtcHandler (Civil.registers
      ⟨2000, 3, 15, 12, 3, 1, by decide, by decide, by decide, by decide, by decide,
      by decide, by decide⟩) :=
  ⟨((clock_iff (holds_registers _)).1.mpr ⟨by decide, by decide, by decide⟩).trans
    (by decide +kernel),
    (clock_iff (holds_registers _)).2 _ _ (holds_registers _) ⟨by decide, by decide, by decide⟩
      ⟨by decide, by decide, by decide⟩ (.inr ⟨rfl, .inr ⟨rfl, .inr ⟨rfl, by decide⟩⟩⟩)⟩

/-- 2000-03-15 12:00:00 becomes 12:03:00. -/
theorem not_clock : ¬∀ reg t, Holds reg t → (rtcHandler reg).toNat = t.unixTime := by
  intro h
  have hfine :=
    (handler_toNat_iff (holds_registers _)).mp (h _ ⟨2000, 3, 15, 12, 0, 0, by decide, by decide,
    by decide, by decide, by decide, by decide, by decide⟩ (holds_registers _))
  exact absurd hfine.ones (by decide)

end Cosiris.Clock
