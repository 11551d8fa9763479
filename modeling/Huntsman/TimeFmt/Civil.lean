import Huntsman.Lib.Calendar
import Huntsman.Lib.Refusal

/-!
# Days and dates

`daysFromCivil` numbers the dates from 1970-01-01 on and back, and `civilFromDays` gives the date of
a number.  Both count years from March, so that the leap day is the last of a year, in eras of 400
years.  They are written with the operations checked: one whose result is no `i64` is a fault.

No operation is (`daysFromCivil_eq`, `civilFromDays_eq`).  A number of days comes apart into eras,
centuries, fours of years and years in one way (`IsSplit`), and with that the two are inverse and
follow the calendar: `civil_calendar`.
-/

set_option autoImplicit false

namespace Huntsman.TimeFmt

open Calendar

/-- What stops the process: a result that has no room in its type, an index out of bounds. -/
inductive Fault where
  | overflow
  | outOfBounds
deriving DecidableEq

def IsI64 (n : ℤ) : Prop := -2 ^ 63 ≤ n ∧ n < 2 ^ 63

def IsI32 (n : ℤ) : Prop := -2 ^ 31 ≤ n ∧ n < 2 ^ 31

instance : DecidablePred IsI64 := fun _ ↦ inferInstanceAs (Decidable (_ ∧ _))

instance : DecidablePred IsI32 := fun _ ↦ inferInstanceAs (Decidable (_ ∧ _))

/-- The result of an operation on `i64`s. -/
def i64 (n : ℤ) : Except Fault ℤ := if IsI64 n then .ok n else .error .overflow

theorem i64_bind {α : Type} {n : ℤ} {f : ℤ → Except Fault α} (h : -2 ^ 63 ≤ n ∧ n < 2 ^ 63) :
    (i64 n >>= f) = f n := by
  have hn : IsI64 n := h
  rw [i64, if_pos hn]
  rfl

/-! ## The source's functions -/

def daysFromCivil (year : ℤ) (month day : ℕ) : Except Fault ℤ := do
  let year ← i64 (year - if month ≤ 2 then 1 else 0)
  let shifted ← (if 0 ≤ year then pure year else i64 (year - 399))
  let era := shifted.tdiv 400
  let yoe ← i64 (year - (← i64 (era * 400)))
  let months ← i64 (month + if month > 2 then -3 else 9)
  let doy ← i64 ((← i64 ((← i64 ((← i64 (153 * months)) + 2)).tdiv 5 + day)) - 1)
  let doe ← i64 ((← i64 ((← i64 ((← i64 (yoe * 365)) + yoe.tdiv 4)) - yoe.tdiv 100)) + doy)
  i64 ((← i64 ((← i64 (era * 146097)) + doe)) - 719468)

def civilFromDays (days : ℤ) : Except Fault (ℤ × ℕ × ℕ) := do
  let era := days / 146097
  let shifted ← i64 (days % 146097 + 719468)
  let era ← i64 (era + shifted.tdiv 146097)
  let doe := shifted.tmod 146097
  let yoe := (← i64 ((← i64 ((← i64 (doe - doe.tdiv 1460)) + doe.tdiv 36524)) -
    doe.tdiv 146096)).tdiv 365
  let year ← i64 (yoe + (← i64 (era * 400)))
  let doy ← i64 (doe - (← i64 ((← i64 ((← i64 (365 * yoe)) + yoe.tdiv 4)) - yoe.tdiv 100)))
  let mp := (← i64 ((← i64 (5 * doy)) + 2)).tdiv 153
  let day ← i64 ((← i64 (doy - (← i64 ((← i64 (153 * mp)) + 2)).tdiv 5)) + 1)
  let month ← i64 (mp + if mp < 10 then 3 else -9)
  let year ← if month ≤ 2 then i64 (year + 1) else pure year
  return (year, month.toNat, day.toNat)

def isLeapYear (year : ℤ) : Bool :=
  (year.tmod 4 == 0 && year.tmod 100 != 0) || year.tmod 400 == 0

def monthDays (year : ℤ) (month : ℕ) : Option ℕ :=
  if month = 2 then if isLeapYear year then some 29 else some 28
  else if month = 4 ∨ month = 6 ∨ month = 9 ∨ month = 11 then some 30
  else if month = 1 ∨ month = 3 ∨ month = 5 ∨ month = 7 ∨ month = 8 ∨ month = 10 ∨ month = 12 then
    some 31
  else none

def daysInMonth (year : ℤ) (month : ℕ) : ℕ := (monthDays year month).getD 31

theorem isLeapYear_iff (year : ℤ) : isLeapYear year = true ↔ IsLeap year := by
  have hmod (n : ℤ) : year.tmod n = 0 ↔ year % n = 0 := by
    rw [← Int.dvd_iff_tmod_eq_zero, ← Int.dvd_iff_emod_eq_zero]
  simp only [isLeapYear, IsLeap, Bool.or_eq_true, Bool.and_eq_true, beq_iff_eq, bne_iff_ne, hmod,
    ne_eq]

/-- Each of the twelve months has its days, and no other has any. -/
theorem monthDays_eq (year : ℤ) (month : ℕ) :
    monthDays year month =
      if 1 ≤ month ∧ month ≤ 12 then some (monthLength year month) else none := by
  by_cases hmonth : 1 ≤ month ∧ month ≤ 12
  · rw [if_pos hmonth, monthDays, monthLength]
    obtain ⟨hpos, hle⟩ := hmonth
    simp only [isLeapYear_iff]
    interval_cases month <;> simp
    split_ifs <;> rfl
  · rw [if_neg hmonth, monthDays, if_neg (by omega), if_neg (by omega), if_neg (by omega)]

variable {month day : ℕ} {c q r doy days era : ℤ} {d : Date}

/-- Whether a date is there is what the source asks of its month and day. -/
theorem isDate_iff {year : ℤ} : IsDate year month day ↔
    (1 ≤ month ∧ month ≤ 12) ∧ 1 ≤ day ∧ day ≤ daysInMonth year month := by
  constructor
  · rintro ⟨hpos, hle, hday, hday'⟩
    rw [daysInMonth, monthDays_eq, if_pos ⟨hpos, hle⟩]
    exact ⟨⟨hpos, hle⟩, hday, hday'⟩
  · rintro ⟨⟨hpos, hle⟩, hday, hday'⟩
    rw [daysInMonth, monthDays_eq, if_pos ⟨hpos, hle⟩] at hday'
    exact ⟨hpos, hle, hday, hday'⟩

/-! ## A number of days and its parts -/

/-- The number of days up to the first of March of year 0, from 1970-01-01 back. -/
def epoch : ℤ := 719468

/-- The days from the first of March to the first of the month that comes `mp` months after it. -/
def monthStart (mp : ℤ) : ℤ := (153 * mp + 2) / 5

/-- A number of days as eras, centuries, fours of years and years, counted from March, and a day of
such a year.  Only the last year of four has a leap day, and that of a century only the last one of an
era. -/
structure IsSplit (days era c q r doy : ℤ) : Prop where
  days_eq : days + epoch = 146097 * era + (36524 * c + 1461 * q + 365 * r + doy)
  century : 0 ≤ c ∧ c ≤ 3
  four : 0 ≤ q ∧ q ≤ 24
  one : 0 ≤ r ∧ r ≤ 3
  day : 0 ≤ doy ∧ doy ≤ 365
  leap : doy = 365 → r = 3 ∧ (q ≠ 24 ∨ c = 3)

/-- Every number of days has its parts. -/
theorem exists_split (days : ℤ) : ∃ era c q r doy, IsSplit days era c q r doy := by
  let era := (days + epoch) / 146097
  let doe := (days + epoch) % 146097
  let c := min (doe / 36524) 3
  let q := (doe - 36524 * c) / 1461
  let r := min ((doe - 36524 * c - 1461 * q) / 365) 3
  let doy := doe - 36524 * c - 1461 * q - 365 * r
  refine ⟨era, c, q, r, doy, ?_, ?_, ?_, ?_, ?_, ?_⟩ <;> omega

/-- The year that `civilFromDays` counts in an era. -/
theorem yoe_eq {doe : ℤ} (hc : 0 ≤ c ∧ c ≤ 3) (hq : 0 ≤ q ∧ q ≤ 24) (hr : 0 ≤ r ∧ r ≤ 3)
    (hdoy : 0 ≤ doy ∧ doy ≤ 365) (hleap : doy = 365 → r = 3 ∧ (q ≠ 24 ∨ c = 3))
    (hdoe : doe = 36524 * c + 1461 * q + 365 * r + doy) :
    (doe - doe / 1460 + doe / 36524 - doe / 146096) / 365 = 100 * c + 4 * q + r := by
  have hfours : doe / 1460 =
      25 * c + q + if 24 * c + q + 365 * r + doy < 1460 then 0 else 1 := by
    split <;> omega
  by_cases hlast : doe = 146096
  · subst hlast
    omega
  · have hcenturies : doe / 36524 = c := by omega
    have heras : doe / 146096 = 0 := by omega
    rw [hfours, hcenturies, heras]
    split <;> omega

/-- The date that a number of days with these parts is. -/
def dateOf (era c q r doy : ℤ) : ℤ × ℕ × ℕ :=
  let mp := (5 * doy + 2) / 153
  (400 * era + 100 * c + 4 * q + r + if mp < 10 then 0 else 1,
    (mp + if mp < 10 then 3 else -9).toNat, (doy - monthStart mp + 1).toNat)

theorem civilFromDays_split (hdays : IsI64 days)
    (h : IsSplit days era c q r doy) : civilFromDays days = .ok (dateOf era c q r doy) := by
  obtain ⟨hsum, hc, hq, hr, hdoy, hleap⟩ := h
  obtain ⟨hlow, hhigh⟩ := hdays
  rw [epoch] at hsum
  -- the era and the day in it
  obtain ⟨doe, hdoe⟩ : ∃ doe, doe = 36524 * c + 1461 * q + 365 * r + doy := ⟨_, rfl⟩
  rw [← hdoe] at hsum
  have hdoe' : 0 ≤ doe ∧ doe ≤ 146096 := by omega
  have hera : days / 146097 + (days % 146097 + 719468).tdiv 146097 = era := by
    rw [Int.tdiv_eq_ediv_of_nonneg (by omega)]
    omega
  have hrest : (days % 146097 + 719468).tmod 146097 = doe := by
    rw [Int.tmod_eq_emod_of_nonneg (by omega)]
    omega
  -- the year in the era
  obtain ⟨yoe, hyoe⟩ : ∃ yoe, yoe = 100 * c + 4 * q + r := ⟨_, rfl⟩
  have hyear : (doe - doe.tdiv 1460 + doe.tdiv 36524 - doe.tdiv 146096).tdiv 365 = yoe := by
    rw [Int.tdiv_eq_ediv_of_nonneg hdoe'.1, Int.tdiv_eq_ediv_of_nonneg hdoe'.1,
      Int.tdiv_eq_ediv_of_nonneg hdoe'.1, Int.tdiv_eq_ediv_of_nonneg (by omega), hyoe]
    exact yoe_eq hc hq hr hdoy hleap hdoe
  have hdiv : 0 ≤ doe.tdiv 1460 ∧ doe.tdiv 1460 ≤ doe ∧ 0 ≤ doe.tdiv 36524 ∧
      doe.tdiv 36524 ≤ doe ∧ 0 ≤ doe.tdiv 146096 ∧ doe.tdiv 146096 ≤ doe := by
    rw [Int.tdiv_eq_ediv_of_nonneg hdoe'.1, Int.tdiv_eq_ediv_of_nonneg hdoe'.1,
      Int.tdiv_eq_ediv_of_nonneg hdoe'.1]
    omega
  -- the day in the year
  have hyoe' : yoe.tdiv 4 = 25 * c + q ∧ yoe.tdiv 100 = c := by
    rw [Int.tdiv_eq_ediv_of_nonneg (by omega), Int.tdiv_eq_ediv_of_nonneg (by omega)]
    omega
  have hday : doe - (365 * yoe + (25 * c + q) - c) = doy := by omega
  obtain ⟨mp, hmp⟩ : ∃ mp, mp = (5 * doy + 2) / 153 := ⟨_, rfl⟩
  have hmonth : (5 * doy + 2).tdiv 153 = mp := by
    rw [Int.tdiv_eq_ediv_of_nonneg (by omega), hmp]
  have hstart : (153 * mp + 2).tdiv 5 = monthStart mp := by
    rw [Int.tdiv_eq_ediv_of_nonneg (by omega), monthStart]
  have hmonths : 0 ≤ mp ∧ mp ≤ 11 ∧ 0 ≤ monthStart mp ∧ monthStart mp ≤ 337 := by
    rw [monthStart]
    omega
  rw [civilFromDays]
  dsimp only
  rw [i64_bind (by omega), hera, i64_bind (by omega), hrest, i64_bind (by omega),
    i64_bind (by omega), i64_bind (by omega), hyear, i64_bind (by omega), i64_bind (by omega),
    i64_bind (by omega), hyoe'.1, i64_bind (by omega), hyoe'.2, i64_bind (by omega), hday,
    i64_bind (by omega), i64_bind (by omega), i64_bind (by omega), hmonth, i64_bind (by omega),
    i64_bind (by omega), hstart, i64_bind (by omega), i64_bind (by omega), i64_bind (by omega)]
  rw [dateOf]
  rw [← hmp]
  by_cases hmarch : mp < 10
  · rw [if_pos hmarch, if_pos hmarch, if_neg (by omega)]
    exact congrArg (fun year ↦ Except.ok (year, _, _)) (by omega)
  · rw [if_neg hmarch, if_neg hmarch, if_pos (by omega), i64_bind (by omega)]
    exact congrArg (fun year ↦ Except.ok (year, _, _)) (by omega)

/-- What is asked of a date whose month and day are counted from March. -/
theorem isDate_dateOf (h : IsSplit days era c q r doy) :
    IsDate (dateOf era c q r doy).1 (dateOf era c q r doy).2.1 (dateOf era c q r doy).2.2 := by
  obtain ⟨-, hc, hq, hr, hdoy, hleap⟩ := h
  rw [dateOf]
  obtain ⟨mp, hmp⟩ : ∃ mp, mp = (5 * doy + 2) / 153 := ⟨_, rfl⟩
  dsimp only
  rw [← hmp, monthStart]
  refine ⟨?_, ?_, ?_, ?_⟩
  · split_ifs <;> omega
  · split_ifs <;> omega
  · omega
  · simp only [monthLength, IsLeap]
    split_ifs <;> omega

/-! ## The days of a date -/

/-- The year of a date when years are counted from March. -/
def marchYear (year : ℤ) (month : ℕ) : ℤ := year - if month ≤ 2 then 1 else 0

/-- The day in a year that is counted from March. -/
def marchDay (month day : ℕ) : ℤ := monthStart (month + if month > 2 then -3 else 9) + day - 1

/-- What `daysFromCivil` comes to. -/
def daysOf (year : ℤ) (month day : ℕ) : ℤ :=
  let y := marchYear year month
  y / 400 * 146097 + (y % 400 * 365 + y % 400 / 4 - y % 400 / 100 + marchDay month day) - epoch

/-- **No operation of `daysFromCivil` overflows**, whether there is such a date or not. -/
theorem daysFromCivil_eq {year : ℤ} (hyear : IsI32 year) (hmonth : month < 2 ^ 32)
    (hday : day < 2 ^ 32) : daysFromCivil year month day = .ok (daysOf year month day) := by
  obtain ⟨hlow, hhigh⟩ := hyear
  rw [daysOf, daysFromCivil, marchYear, marchDay, epoch]
  obtain ⟨y, hy⟩ : ∃ y, y = year - if month ≤ 2 then 1 else 0 := ⟨_, rfl⟩
  obtain ⟨months, hmonths⟩ : ∃ months : ℤ, months = month + if month > 2 then -3 else 9 := ⟨_, rfl⟩
  have hmonths' : 0 ≤ months ∧ months ≤ 2 ^ 32 := by
    split at hmonths <;> omega
  have hy' : -2 ^ 31 - 1 ≤ y ∧ y < 2 ^ 31 := by
    split at hy <;> omega
  -- the division towards zero is made one towards the smaller
  have hera {f : ℤ → Except Fault ℤ} : ((if 0 ≤ y then pure y else i64 (y - 399)) >>= f) =
      f (if 0 ≤ y then y else y - 399) := by
    split
    · rfl
    · exact i64_bind (by omega)
  have hdiv : (if 0 ≤ y then y else y - 399).tdiv 400 = y / 400 := by
    split
    · exact Int.tdiv_eq_ediv_of_nonneg (by assumption)
    · have hneg : (y - 399).tdiv 400 = -((399 - y).tdiv 400) := by
        rw [← Int.neg_tdiv, Int.neg_sub]
      rw [hneg, Int.tdiv_eq_ediv_of_nonneg (by omega)]
      omega
  have hyoe : y - y / 400 * 400 = y % 400 := by omega
  have hyoe' : (y % 400).tdiv 4 = y % 400 / 4 ∧ (y % 400).tdiv 100 = y % 400 / 100 :=
    ⟨Int.tdiv_eq_ediv_of_nonneg (by omega), Int.tdiv_eq_ediv_of_nonneg (by omega)⟩
  have hstart : (153 * months + 2).tdiv 5 = monthStart months := by
    rw [Int.tdiv_eq_ediv_of_nonneg (by omega), monthStart]
  have hstart' : 0 ≤ monthStart months ∧ monthStart months ≤ 2 ^ 38 := by
    rw [monthStart]
    omega
  rw [← hy, ← hmonths]
  dsimp only
  rw [i64_bind (by omega), hera, hdiv, i64_bind (by omega), hyoe, i64_bind (by omega),
    i64_bind (by omega), i64_bind (by omega), i64_bind (by omega), hstart, i64_bind (by omega),
    i64_bind (by omega), i64_bind (by omega), hyoe'.1, i64_bind (by omega), hyoe'.2,
    i64_bind (by omega), i64_bind (by omega), i64_bind (by omega), i64_bind (by omega)]
  exact if_pos ⟨by omega, by omega⟩

/-- The days of a date are few, whether there is such a date or not. -/
theorem daysOf_bound {year : ℤ} (hyear : IsI32 year) (hmonth : month ≤ 12)
    (hday : day < 100) : -10 ^ 12 ≤ daysOf year month day ∧ daysOf year month day ≤ 10 ^ 12 := by
  obtain ⟨hlow, hhigh⟩ := hyear
  rw [daysOf, marchYear, marchDay, monthStart, epoch]
  constructor <;> split_ifs <;> omega

/-- The days of a year that is counted from March; the last is the leap day. -/
theorem marchDay_of_isDate {year : ℤ} (h : IsDate year month day) :
    (0 ≤ marchDay month day ∧ marchDay month day ≤ 365) ∧
      (marchDay month day = 365 → month = 2 ∧ IsLeap year) := by
  obtain ⟨hpos, hle, hday, hday'⟩ := h
  rw [monthLength] at hday'
  rw [marchDay, monthStart]
  by_cases hleap : IsLeap year
  · simp only [hleap, if_true] at hday' ⊢
    interval_cases month <;> simp at hday' ⊢ <;> omega
  · simp only [hleap, if_false] at hday' ⊢
    interval_cases month <;> simp at hday' ⊢ <;> omega

/-- A date's number of days comes apart into its parts. -/
theorem isSplit_daysOf {year : ℤ} (h : IsDate year month day) :
    IsSplit (daysOf year month day) (marchYear year month / 400)
      (marchYear year month % 400 / 100) (marchYear year month % 100 / 4)
      (marchYear year month % 4) (marchDay month day) := by
  obtain ⟨hday, hlast⟩ := marchDay_of_isDate h
  refine ⟨?_, by omega, by omega, by omega, hday, fun hleap ↦ ?_⟩
  · rw [daysOf]
    omega
  · obtain ⟨rfl, hyear⟩ := hlast hleap
    rw [IsLeap] at hyear
    rw [marchYear, if_pos (by decide)]
    omega

theorem dateOf_daysOf {year : ℤ} (h : IsDate year month day) :
    dateOf (marchYear year month / 400) (marchYear year month % 400 / 100)
      (marchYear year month % 100 / 4) (marchYear year month % 4) (marchDay month day) =
      (year, month, day) := by
  obtain ⟨hpos, hle, hday, hday'⟩ := h
  have hmp : (5 * marchDay month day + 2) / 153 = month + if month > 2 then -3 else 9 := by
    have hlength : monthLength year 2 ≤ 29 := by
      rw [monthLength, if_pos rfl]
      split <;> omega
    rw [marchDay, monthStart]
    by_cases hfebruary : month = 2
    · subst hfebruary
      simp
      omega
    · rw [monthLength, if_neg hfebruary] at hday'
      interval_cases month <;> simp at hfebruary hday' ⊢ <;> omega
  rw [dateOf, hmp, marchDay, marchYear]
  by_cases hmarch : month > 2
  · have hlate : ¬ month ≤ 2 := Nat.not_le_of_lt hmarch
    have hsmall : (month : ℤ) + -3 < 10 := by omega
    rw [if_neg hlate, if_pos hmarch, if_pos hsmall, if_pos hsmall]
    rw [Prod.mk.injEq, Prod.mk.injEq]
    omega
  · have hearly : month ≤ 2 := Nat.le_of_not_lt hmarch
    have hlarge : ¬ (month : ℤ) + 9 < 10 := by omega
    rw [if_pos hearly, if_neg hmarch, if_neg hlarge, if_neg hlarge]
    rw [Prod.mk.injEq, Prod.mk.injEq]
    omega

/-- The days of whole years, by eras or all at once. -/
theorem days_of_years (y : ℤ) : y / 400 * 146097 + (y % 400 * 365 + y % 400 / 4 - y % 400 / 100) =
    365 * y + y / 4 - y / 100 + y / 400 := by
  omega

theorem days_before_leap (year : ℤ) : 365 * year + year / 4 - year / 100 + year / 400 =
    daysBeforeYear year + 365 + if IsLeap year then 1 else 0 := by
  rw [daysBeforeYear]
  by_cases hleap : IsLeap year
  · rw [if_pos hleap]
    rw [IsLeap] at hleap
    omega
  · rw [if_neg hleap]
    rw [IsLeap] at hleap
    omega

/-- The number of a date. -/
theorem daysOf_eq_number (d : Date) : daysOf d.year d.month d.day = d.number := by
  obtain ⟨year, month, day, hpos, hle, hday, hday'⟩ := d
  rw [Date.number, daysBeforeMonth_eq year hpos hle, daysOf]
  simp only [marchYear, marchDay, monthStart, epoch]
  have hyears := days_of_years (year - if month ≤ 2 then 1 else 0)
  have hfirst : daysBeforeYear 1970 = 719162 := rfl
  by_cases hmarch : month > 2
  · have hleap := days_before_leap year
    rw [if_neg (by omega), Int.sub_zero] at hyears ⊢
    interval_cases month <;> simp at hleap ⊢ <;> omega
  · have hyear : daysBeforeYear year = 365 * (year - 1) + (year - 1) / 4 - (year - 1) / 100 +
        (year - 1) / 400 := rfl
    rw [if_pos (by omega)] at hyears ⊢
    interval_cases month <;> simp <;> omega

/-- The number of the date that a number of days is. -/
theorem daysOf_dateOf (h : IsSplit days era c q r doy) :
    daysOf (dateOf era c q r doy).1 (dateOf era c q r doy).2.1 (dateOf era c q r doy).2.2 =
      days := by
  obtain ⟨hsum, hc, hq, hr, hdoy, -⟩ := h
  obtain ⟨mp, hmp⟩ : ∃ mp, mp = (5 * doy + 2) / 153 := ⟨_, rfl⟩
  have hday : 0 ≤ doy - monthStart mp + 1 := by
    rw [monthStart]
    omega
  rw [dateOf, ← hmp, daysOf, marchYear, marchDay]
  by_cases hmarch : mp < 10
  · have hmonth : ((mp + 3).toNat : ℤ) = mp + 3 := Int.toNat_of_nonneg (by omega)
    have hlate : ¬ (mp + 3).toNat ≤ 2 := by omega
    rw [if_pos hmarch, if_pos hmarch, if_neg hlate, if_pos (Nat.lt_of_not_le hlate), hmonth,
      Int.toNat_of_nonneg hday, Int.add_neg_cancel_right]
    omega
  · have hmonth : ((mp + -9).toNat : ℤ) = mp + -9 := Int.toNat_of_nonneg (by omega)
    have hearly : (mp + -9).toNat ≤ 2 := by omega
    rw [if_neg hmarch, if_neg hmarch, if_pos hearly, if_neg (Nat.not_lt_of_le hearly), hmonth,
      Int.toNat_of_nonneg hday, Int.neg_add_cancel_right]
    omega

/-! ## Inverse to each other -/

theorem civilFromDays_number (h : IsI64 d.number) :
    civilFromDays d.number = .ok (d.year, d.month, d.day) := by
  have hsplit := isSplit_daysOf d.isDate
  rw [daysOf_eq_number] at hsplit
  rw [civilFromDays_split h hsplit, dateOf_daysOf d.isDate]

/-- Different dates have different numbers. -/
theorem eq_of_number {e : Date} (h : IsI64 d.number) (heq : d.number = e.number) : d = e := by
  have hd := civilFromDays_number h
  rw [heq, civilFromDays_number (heq ▸ h), Except.ok.injEq, Prod.mk.injEq, Prod.mk.injEq] at hd
  exact (Date.ext hd.1 hd.2.1 hd.2.2).symm

/-- The numbers of the dates whose years are `i32`s are small. -/
theorem number_bound (h : IsI32 d.year) : -10 ^ 12 ≤ d.number ∧ d.number ≤ 10 ^ 12 := by
  have hday := d.isDate.day_le.trans (monthLength_le _ _)
  rw [← daysOf_eq_number]
  exact daysOf_bound h d.isDate.month_le (hday.trans_lt (by decide))

theorem year_nonneg (h : 0 ≤ d.number) : 0 ≤ d.year := by
  obtain ⟨hsum, hc, hq, hr, hdoy, -⟩ := isSplit_daysOf d.isDate
  rw [daysOf_eq_number, epoch] at hsum
  rw [marchYear] at hsum hc hq hr
  split at hsum <;> omega

theorem year_le (h : d.number < 2 ^ 37) : d.year < 2 ^ 31 := by
  obtain ⟨hsum, hc, hq, hr, hdoy, -⟩ := isSplit_daysOf d.isDate
  rw [daysOf_eq_number, epoch] at hsum
  rw [marchYear] at hsum hc hq hr
  split at hsum <;> omega

/-- Every number of days is that of a date. -/
theorem exists_date (days : ℤ) : ∃ d : Date, d.number = days := by
  obtain ⟨era, c, q, r, doy, hsplit⟩ := exists_split days
  exact ⟨⟨_, _, _, isDate_dateOf hsplit⟩, (daysOf_eq_number _).symm.trans (daysOf_dateOf hsplit)⟩

/-- The date of a number of days, and the day after it. -/
theorem civilFromDays_next (h : IsI64 days) : ∃ d : Date,
    d.number = days ∧ civilFromDays days = .ok (d.year, d.month, d.day) ∧
      (IsI64 (days + 1) →
        civilFromDays (days + 1) = .ok (d.next.year, d.next.month, d.next.day)) := by
  obtain ⟨d, rfl⟩ := exists_date days
  refine ⟨d, rfl, civilFromDays_number h, fun hnext ↦ ?_⟩
  rw [← d.number_next] at hnext ⊢
  exact civilFromDays_number hnext

theorem daysFromCivil_number (h : IsI32 d.year) :
    daysFromCivil d.year d.month d.day = .ok d.number ∧ IsI64 d.number := by
  have hmonth : d.month < 2 ^ 32 := d.isDate.month_le.trans_lt (by decide)
  have hlength := monthLength_le d.year d.month
  have hday : d.day < 2 ^ 32 := (d.isDate.day_le.trans hlength).trans_lt (by decide)
  have hrange := (marchDay_of_isDate d.isDate).1
  obtain ⟨hlow, hhigh⟩ := h
  rw [← daysOf_eq_number]
  refine ⟨daysFromCivil_eq ⟨hlow, hhigh⟩ hmonth hday, ?_⟩
  rw [daysOf, marchYear, epoch]
  constructor <;> split <;> omega

/-- **The numbers of days and the dates are the same.**  A date that the source's calendar has is got
back from its number; every number is that of a date, and the next number that of the next date; and
no operation overflows. -/
theorem civil_calendar :
    (∀ year month day length, IsI32 year → monthDays year month = some length → 1 ≤ day →
      day ≤ length → ∃ days, daysFromCivil year month day = .ok days ∧ IsI64 days ∧
        civilFromDays days = .ok (year, month, day)) ∧
    (∀ days, IsI64 days → ∃ d : Date, d.number = days ∧
      civilFromDays days = .ok (d.year, d.month, d.day) ∧
        (IsI64 (days + 1) →
          civilFromDays (days + 1) = .ok (d.next.year, d.next.month, d.next.day))) ∧
    (∀ year month day, IsI32 year → month < 2 ^ 32 → day < 2 ^ 32 →
      ∃ days, daysFromCivil year month day = .ok days) := by
  refine ⟨fun year month day length hyear hlength hday hday' ↦ ?_, fun days ↦ civilFromDays_next,
    fun year month day hyear hmonth hday ↦ ?_⟩
  · rw [monthDays_eq] at hlength
    split at hlength
    · rename_i hmonth
      cases hlength
      let d : Date := ⟨year, month, day, hmonth.1, hmonth.2, hday, hday'⟩
      obtain ⟨hdays, hrange⟩ := daysFromCivil_number (d := d) hyear
      exact ⟨d.number, hdays, hrange, civilFromDays_number hrange⟩
    · cases hlength
  · exact ⟨_, daysFromCivil_eq hyear hmonth hday⟩

end Huntsman.TimeFmt
