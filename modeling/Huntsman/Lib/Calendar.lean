import Mathlib.Algebra.BigOperators.Group.List.Basic
import Mathlib.Tactic.IntervalCases

/-!
# The Gregorian calendar

A `Date` is a day that exists: its month is one of the twelve and has that day in that year.  The
calendar goes from each date to the next (`Date.next`), and the dates are numbered in that order
from 1970-01-01 on and back (`Date.number`, `number_next`).
-/

set_option autoImplicit false

namespace Calendar

def IsLeap (year : ℤ) : Prop := year % 4 = 0 ∧ year % 100 ≠ 0 ∨ year % 400 = 0

instance : DecidablePred IsLeap := fun _ ↦ inferInstanceAs (Decidable (_ ∨ _))

/-- The number of days of a month. -/
def monthLength (year : ℤ) (month : ℕ) : ℕ :=
  if month = 2 then if IsLeap year then 29 else 28
  else if month = 4 ∨ month = 6 ∨ month = 9 ∨ month = 11 then 30
  else 31

theorem monthLength_le (year : ℤ) (month : ℕ) : monthLength year month ≤ 31 := by
  rw [monthLength]
  split_ifs <;> omega

theorem le_monthLength (year : ℤ) (month : ℕ) : 28 ≤ monthLength year month := by
  rw [monthLength]
  split_ifs <;> omega

/-- A month and a day that there are in a year. -/
structure IsDate (year : ℤ) (month day : ℕ) : Prop where
  one_le_month : 1 ≤ month
  month_le : month ≤ 12
  one_le_day : 1 ≤ day
  day_le : day ≤ monthLength year month

instance (year : ℤ) (month day : ℕ) : Decidable (IsDate year month day) :=
  decidable_of_iff (1 ≤ month ∧ month ≤ 12 ∧ 1 ≤ day ∧ day ≤ monthLength year month)
    ⟨fun ⟨a, b, c, d⟩ ↦ ⟨a, b, c, d⟩, fun ⟨a, b, c, d⟩ ↦ ⟨a, b, c, d⟩⟩

/-- A day of the calendar. -/
@[ext] structure Date where
  year : ℤ
  month : ℕ
  day : ℕ
  isDate : IsDate year month day
deriving DecidableEq

namespace Date

/-- The first day of a year. -/
def first (year : ℤ) : Date :=
  ⟨year, 1, 1, by decide, by decide, by decide, (by decide : 1 ≤ 28).trans (le_monthLength year 1)⟩

/-- The day after a date. -/
def next (d : Date) : Date :=
  if h : d.day < monthLength d.year d.month then
    ⟨d.year, d.month, d.day + 1, d.isDate.one_le_month, d.isDate.month_le, Nat.succ_pos _, h⟩
  else if h' : d.month < 12 then
    ⟨d.year, d.month + 1, 1, Nat.succ_pos _, h', le_refl 1,
      (by decide : 1 ≤ 28).trans (le_monthLength d.year (d.month + 1))⟩
  else first (d.year + 1)

end Date

/-! ## Numbering the dates -/

/-- The days from the first of year 1 to the first of this year. -/
def daysBeforeYear (year : ℤ) : ℤ :=
  365 * (year - 1) + (year - 1) / 4 - (year - 1) / 100 + (year - 1) / 400

/-- The days from the first of a year to the first of this month. -/
def daysBeforeMonth (year : ℤ) (month : ℕ) : ℕ :=
  ((List.range (month - 1)).map fun i ↦ monthLength year (i + 1)).sum

/-- The number of days from 1970-01-01 to a date. -/
def Date.number (d : Date) : ℤ :=
  daysBeforeYear d.year - daysBeforeYear 1970 + daysBeforeMonth d.year d.month + (d.day - 1)

theorem daysBeforeMonth_succ (year : ℤ) {month : ℕ} (h : 1 ≤ month) :
    daysBeforeMonth year (month + 1) = daysBeforeMonth year month + monthLength year month := by
  obtain ⟨k, rfl⟩ := Nat.exists_eq_add_of_le' h
  rw [daysBeforeMonth, daysBeforeMonth, Nat.add_sub_cancel, Nat.add_sub_cancel, List.range_succ,
    List.map_append, List.sum_append, List.map_singleton, List.sum_singleton]

/-- The days before each month, with a leap day after the second. -/
theorem daysBeforeMonth_eq (year : ℤ) {month : ℕ} (h : 1 ≤ month) (h' : month ≤ 12) :
    daysBeforeMonth year month =
      [0, 31, 59, 90, 120, 151, 181, 212, 243, 273, 304, 334].getD (month - 1) 0 +
        if 2 < month ∧ IsLeap year then 1 else 0 := by
  by_cases hleap : IsLeap year <;> interval_cases month <;>
    simp [daysBeforeMonth, List.range_succ, monthLength, hleap]

/-- A year has as many days as its months. -/
theorem daysBeforeYear_succ (year : ℤ) :
    daysBeforeYear (year + 1) =
      daysBeforeYear year + daysBeforeMonth year 12 + monthLength year 12 := by
  rw [daysBeforeMonth_eq year (by decide) (by decide), daysBeforeYear, daysBeforeYear, monthLength]
  by_cases hleap : IsLeap year
  · have hyear : year % 4 = 0 ∧ year % 100 ≠ 0 ∨ year % 400 = 0 := hleap
    simp only [hleap, and_true]
    norm_num
    omega
  · have hyear : ¬ (year % 4 = 0 ∧ year % 100 ≠ 0 ∨ year % 400 = 0) := hleap
    simp only [hleap, and_false]
    norm_num
    omega

/-- **The numbers go up by one from each date to the next.** -/
theorem Date.number_next (d : Date) : d.next.number = d.number + 1 := by
  obtain ⟨year, month, day, hmonth, hmonth', hday, hday'⟩ := d
  rw [next]
  dsimp only
  split_ifs with hsame hlast
  · simp only [number]
    omega
  · have hsucc := daysBeforeMonth_succ year hmonth
    simp only [number]
    omega
  · obtain rfl : month = 12 := by omega
    have hsucc := daysBeforeYear_succ year
    have hfirst : daysBeforeMonth (year + 1) 1 = 0 := rfl
    simp only [number, first]
    omega

end Calendar
