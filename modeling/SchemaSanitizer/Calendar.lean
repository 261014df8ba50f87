/-
SchemaSanitizer/Calendar.lean

Civil dates and day numbers: `ymd_to_days` (`planning/temporal/calendar.cc`),
`days_from_civil_epoch` (`core/temporal/date.cpp`) and `civil_from_days`
(`jsonl_value_writer_temporal.cc`).

Years start in March, so the leap day is the last day of a year.  With
`yoe = 100 c + 4 q + r` for the year of the era and `doy` for the day of the year,
the day of the era is

    doe = 36524 c + 1461 q + 365 r + doy

and the way back reads `c`, `q` and `r` off `doe` (`yearOfEra_dayOfEra`).  The
divisions of the source truncate; those of possibly negative numbers are adjusted
first, which makes them floor divisions (`tdiv_adjusted`).
-/
import SchemaSanitizer.Bytes

namespace SchemaSanitizer

/-- `is_leap_year`. -/
def isLeapYear (year : Int) : Bool :=
  decide (year.tmod 4 = 0) && (decide (year.tmod 100 ≠ 0) || decide (year.tmod 400 = 0))

/-- `days_in_month`. -/
def daysInMonth (year month : Int) : Int :=
  if month ∈ [1, 3, 5, 7, 8, 10, 12] then 31
  else if month ∈ [4, 6, 9, 11] then 30
  else if month = 2 then if isLeapYear year then 29 else 28
  else 0

/-- `days_from_civil_epoch`. -/
def daysFromCivilEpoch (y : Int) (m d : Nat) : Int :=
  let y := if m ≤ 2 then y - 1 else y
  let era := (if 0 ≤ y then y else y - 399).tdiv 400
  let yoe := (y - era * 400).toNat
  let doy := (153 * (if 2 < m then m - 3 else m + 9) + 2) / 5 + d - 1
  let doe := yoe * 365 + yoe / 4 - yoe / 100 + doy
  era * 146097 + doe - 719468

/-- `ymd_to_days`. -/
def ymdToDays (year month day : Int) : Option Int :=
  let maxDay := daysInMonth year month
  if maxDay = 0 ∨ day < 1 ∨ maxDay < day then none
  else
    let days := daysFromCivilEpoch year month.toNat day.toNat
    if days < -2 ^ 31 ∨ 2 ^ 31 - 1 < days then none else some days

/-- `civil_from_days`. -/
def civilFromDays (z : Int) : Int × Nat × Nat :=
  let z := z + 719468
  let era := (if 0 ≤ z then z else z - 146096).tdiv 146097
  let doe := (z - era * 146097).toNat
  let yoe := (doe - doe / 1460 + doe / 36524 - doe / 146096) / 365
  let y := yoe + era * 400
  let doy := doe - (365 * yoe + yoe / 4 - yoe / 100)
  let mp := (5 * doy + 2) / 153
  let d := doy - (153 * mp + 2) / 5 + 1
  let m := if mp < 10 then mp + 3 else mp - 9
  (if m ≤ 2 then y + 1 else y, m, d)

/-- The calendar date after a date. -/
def nextDate (year month day : Int) : Int × Int × Int :=
  if day < daysInMonth year month then (year, month, day + 1)
  else if month < 12 then (year, month + 1, 1)
  else (year + 1, 1, 1)

theorem tdiv_adjusted {n k : Int} (hk : 0 ≤ k) (hn : n = k + 1) (a : Int) :
    (if 0 ≤ a then a else a - k).tdiv n = a / n := by
  have hpos : 0 < n := by omega
  split
  · rename_i ha
    exact Int.tdiv_eq_ediv_of_nonneg ha
  · have hback : (k - a) / n = -(a / n) := by
      rw [Int.ediv_eq_iff_of_pos hpos]
      have := Int.mul_ediv_add_emod a n
      have := Int.emod_nonneg a hpos.ne'
      have := Int.emod_lt_of_pos a hpos
      constructor <;> nlinarith
    rw [← neg_sub, Int.neg_tdiv, Int.tdiv_eq_ediv_of_nonneg (by omega), hback, neg_neg]

theorem yearOfEra_dayOfEra {c q r doy doe : Nat} (hc : c < 4) (hq : q < 25) (hr : r < 4)
    (hd : doy ≤ 365) (hleap : doy = 365 → r = 3 ∧ (q = 24 → c = 3))
    (hdoe : doe = 36524 * c + 1461 * q + 365 * r + doy) :
    (doe - doe / 1460 + doe / 36524 - doe / 146096) / 365 = 100 * c + 4 * q + r := by
  have hcentury : doe / 36524 = c + doe / 146096 := by
    by_cases hlast : doe = 146096
    · have : c = 3 := by omega
      omega
    · have hlt : 1461 * q + 365 * r + doy < 36524 := by omega
      have : doe / 146096 = 0 := by omega
      omega
  have hspan : doe / 1460 = 25 * c + q + (24 * c + q + 365 * r + doy) / 1460 := by omega
  have hone : (24 * c + q + 365 * r + doy) / 1460 ≤ 1 := by omega
  omega

/-! ### Years that start in March -/

variable {y : Int} {d m : Nat}

/-- The year that a date belongs to. -/
def marchYear (y : Int) (m : Nat) : Int := if m ≤ 2 then y - 1 else y

/-- The number of a month, March being 0. -/
def marchMonth (m : Nat) : Nat := if 2 < m then m - 3 else m + 9

/-- The day of the year. -/
def dayOfYear (m d : Nat) : Nat := (153 * marchMonth m + 2) / 5 + d - 1

/-- The dates that `ymd_to_days` does not refuse outright. -/
structure ValidDate (y : Int) (m d : Nat) : Prop where
  month : daysInMonth y m ≠ 0
  pos : 1 ≤ d
  le : d ≤ daysInMonth y m

theorem isLeapYear_iff (y : Int) : isLeapYear y ↔ y % 4 = 0 ∧ (y % 100 ≠ 0 ∨ y % 400 = 0) := by
  simp only [isLeapYear, Bool.and_eq_true, Bool.or_eq_true, decide_eq_true_eq, ne_eq,
    ← Int.dvd_iff_tmod_eq_zero, Int.dvd_iff_emod_eq_zero]

theorem ValidDate.month_mem (h : ValidDate y m d) : m ∈ Finset.Icc 1 12 := by
  have := h.month
  unfold daysInMonth at this
  grind

theorem daysInMonth_eq (y : Int) (hm : m ∈ Finset.Icc 1 12) (hfeb : m ≠ 2) :
    daysInMonth y m = ((153 * (marchMonth m + 1) + 2) / 5 - (153 * marchMonth m + 2) / 5 :
      Nat) := by
  fin_cases hm <;> first | rfl | exact absurd rfl hfeb

theorem marchMonth_spec (hm : m ∈ Finset.Icc 1 12) (hfeb : m ≠ 2) :
    marchMonth m < 11 ∧ marchMonth (m % 12 + 1) = marchMonth m + 1 ∧
      (if marchMonth m < 10 then marchMonth m + 3 else marchMonth m - 9) = m := by
  fin_cases hm <;> first | decide | exact absurd rfl hfeb

theorem daysInMonth_two (y : Int) : daysInMonth y (2 : Nat) = if isLeapYear y then 29 else 28 := rfl

/-- The month and the day are read off the day of the year, which is 365 on leap days only. -/
theorem ValidDate.readBack (h : ValidDate y m d) :
    (5 * dayOfYear m d + 2) / 153 = marchMonth m ∧
      dayOfYear m d - (153 * marchMonth m + 2) / 5 + 1 = d ∧
      (if marchMonth m < 10 then marchMonth m + 3 else marchMonth m - 9) = m ∧
      dayOfYear m d ≤ 365 ∧ (dayOfYear m d = 365 → m = 2 ∧ isLeapYear y) := by
  have hm := h.month_mem
  have hpos := h.pos
  have hle := h.le
  unfold dayOfYear
  by_cases hfeb : m = 2
  · subst hfeb
    rw [daysInMonth_two] at hle
    simp only [marchMonth]
    cases hleap : isLeapYear y <;> simp [hleap] at hle ⊢ <;> omega
  · rw [daysInMonth_eq y hm hfeb] at hle
    obtain ⟨hlt, -, hmonth⟩ := marchMonth_spec hm hfeb
    generalize marchMonth m = mp at hle hlt hmonth
    refine ⟨?_, ?_, hmonth, ?_, ?_⟩ <;> omega

/-- The era arithmetic folded away: years counted from March, leap days, day of the year. -/
theorem daysFromCivilEpoch_eq (y : Int) (m d : Nat) :
    daysFromCivilEpoch y m d = 365 * marchYear y m + marchYear y m / 4 - marchYear y m / 100 +
      marchYear y m / 400 + dayOfYear m d - 719468 := by
  simp only [daysFromCivilEpoch, marchYear, dayOfYear, marchMonth]
  rw [tdiv_adjusted (n := 400) (k := 399) (by decide) rfl]
  generalize (if m ≤ 2 then y - 1 else y) = year
  generalize (153 * (if 2 < m then m - 3 else m + 9) + 2) / 5 + d - 1 = day
  obtain ⟨yoe, hyoe⟩ : ∃ yoe : Nat, year = 400 * (year / 400) + yoe ∧ yoe < 400 :=
    ⟨(year - 400 * (year / 400)).toNat, by omega⟩
  generalize year / 400 = era at hyoe
  have h4 : year / 4 = 100 * era + (yoe / 4 : Nat) := by omega
  have h100 : year / 100 = 4 * era + (yoe / 100 : Nat) := by omega
  have hrest : (year - era * 400).toNat = yoe := by omega
  rw [hrest, h4, h100, hyoe.1]
  omega

/-! ### There and back -/

/-- From century, leap cycle, year and day of year the date is read back. -/
theorem civilFromDays_digits {c q r doy : Nat} (e : Int) (hc : c < 4) (hq : q < 25) (hr : r < 4)
    (hd : doy ≤ 365) (hleap : doy = 365 → r = 3 ∧ (q = 24 → c = 3)) :
    civilFromDays (e * 146097 + (36524 * c + 1461 * q + 365 * r + doy : Nat) - 719468) =
      let mp := (5 * doy + 2) / 153
      let m := if mp < 10 then mp + 3 else mp - 9
      let y := (100 * c + 4 * q + r : Nat) + e * 400
      (if m ≤ 2 then y + 1 else y, m, doy - (153 * mp + 2) / 5 + 1) := by
  have hyear := yearOfEra_dayOfEra hc hq hr hd hleap rfl
  have hday : 36524 * c + 1461 * q + 365 * r + doy = 365 * (100 * c + 4 * q + r) +
      (25 * c + q) - c + doy := by omega
  have h4 : (100 * c + 4 * q + r) / 4 = 25 * c + q := by omega
  have h100 : (100 * c + 4 * q + r) / 100 = c := by omega
  generalize hdoe : 36524 * c + 1461 * q + 365 * r + doy = doe at hyear hday
  have hlt : doe < 146097 := by omega
  have hera : (e * 146097 + doe - 719468 + 719468) / 146097 = e := by omega
  have hback : (e * 146097 + doe - 719468 + 719468 - e * 146097).toNat = doe := by omega
  have hdoy : doe - (365 * (100 * c + 4 * q + r) + (25 * c + q) - c) = doy := by omega
  simp only [civilFromDays]
  rw [tdiv_adjusted (n := 146097) (k := 146096) (by decide) rfl, hera, hback, hyear, h4, h100, hdoy]

/-- `civil_from_days` undoes `days_from_civil_epoch`. -/
theorem ValidDate.civilFromDays (h : ValidDate y m d) :
    civilFromDays (daysFromCivilEpoch y m d) = (y, m, d) := by
  obtain ⟨hmp, hday, hmonth, hdoy, hlast⟩ := h.readBack
  obtain ⟨e, c, q, r, hyear, hc, hq, hr⟩ : ∃ (e : Int) (c q r : Nat),
      marchYear y m = (100 * c + 4 * q + r : Nat) + e * 400 ∧ c < 4 ∧ q < 25 ∧ r < 4 := by
    generalize marchYear y m = year
    refine ⟨year / 400, (year % 400).toNat / 100, (year % 400).toNat % 100 / 4,
      (year % 400).toNat % 4, ?_, ?_, ?_, ?_⟩ <;> omega
  have hdigits : daysFromCivilEpoch y m d =
      e * 146097 + (36524 * c + 1461 * q + 365 * r + dayOfYear m d : Nat) - 719468 := by
    rw [daysFromCivilEpoch_eq, hyear]
    omega
  have hleap : dayOfYear m d = 365 → r = 3 ∧ (q = 24 → c = 3) := by
    intro h365
    obtain ⟨rfl, hl⟩ := hlast h365
    have := (isLeapYear_iff y).mp hl
    simp only [marchYear] at hyear
    omega
  rw [hdigits, civilFromDays_digits e hc hq hr hdoy hleap]
  simp only [hmp, hday, hmonth, ← hyear, marchYear]
  split <;> simp

/-- The day number of the next date: the first of March follows a day whose number depends
on the leap years, every other date stays in its year. -/
theorem ValidDate.next (h : ValidDate y m d) :
    daysFromCivilEpoch (nextDate y m d).1 (nextDate y m d).2.1.toNat (nextDate y m d).2.2.toNat =
      daysFromCivilEpoch y m d + 1 := by
  have hm := h.month_mem
  have hpos := h.pos
  have hle := h.le
  simp only [daysFromCivilEpoch_eq, nextDate]
  split
  · have hday : dayOfYear m ((d : Int) + 1).toNat = dayOfYear m d + 1 := by
      unfold dayOfYear
      omega
    simp only [Int.toNat_natCast, hday]
    omega
  · rename_i hmax
    by_cases hfeb : m = 2
    · subst hfeb
      have hleap := isLeapYear_iff y
      rw [daysInMonth_two] at hmax hle
      simp only [dayOfYear, marchMonth, marchYear]
      cases hl : isLeapYear y <;> simp [hl] at hmax hle hleap ⊢ <;> omega
    · rw [daysInMonth_eq y hm hfeb] at hmax hle
      obtain ⟨-, hnext, -⟩ := marchMonth_spec hm hfeb
      have hday : dayOfYear (m % 12 + 1) 1 = dayOfYear m d + 1 := by
        unfold dayOfYear
        rw [hnext]
        omega
      rw [Finset.mem_Icc] at hm
      split
      · rename_i h12
        have hyear : marchYear y (m + 1) = marchYear y m := by
          unfold marchYear
          grind
        rw [Nat.mod_eq_of_lt (by omega)] at hday
        simp only [Int.toNat_natCast_add_one, Int.toNat_one, hday, hyear]
        omega
      · obtain rfl : m = 12 := by omega
        have hday : dayOfYear 1 1 = dayOfYear 12 d + 1 := hday
        simp only [Int.toNat_one, hday, marchYear]
        omega

end SchemaSanitizer
