import Mathlib.Order.Monotone.Basic
import Mathlib.Tactic.IntervalCases

namespace UBoot.Lib.Calendar

/-- The leap years of the Gregorian calendar. -/
def IsLeap (y : ℕ) : Prop := y % 4 = 0 ∧ (y % 100 ≠ 0 ∨ y % 400 = 0)

instance : DecidablePred IsLeap := fun y ↦
  inferInstanceAs (Decidable (y % 4 = 0 ∧ (y % 100 ≠ 0 ∨ y % 400 = 0)))

def yearLength (y : ℕ) : ℕ := if IsLeap y then 366 else 365

/-- Months are numbered from 1. -/
def monthLength (y : ℕ) : ℕ → ℕ
  | 2 => if IsLeap y then 29 else 28
  | 4 | 6 | 9 | 11 => 30
  | 1 | 3 | 5 | 7 | 8 | 10 | 12 => 31
  | _ => 0

/-- The days from the first one of year 0 to the first one of a year. -/
def daysBeforeYear : ℕ → ℕ
  | 0 => 0
  | y + 1 => daysBeforeYear y + yearLength y

def daysBeforeMonth (y : ℕ) : ℕ → ℕ
  | 0 => 0
  | m + 1 => daysBeforeMonth y m + monthLength y m

structure Date where
  year : ℕ
  month : ℕ
  day : ℕ
  month_pos : 1 ≤ month
  month_le : month ≤ 12
  day_pos : 1 ≤ day
  day_le : day ≤ monthLength year month

/-- The days from the first one of year 0 to a date. -/
def Date.dayNumber (d : Date) : ℕ := daysBeforeYear d.year + daysBeforeMonth d.year d.month + (d.day - 1)

/-- The day of the week, from Sunday on; year 0 begins with a Saturday. -/
def Date.weekday (d : Date) : ℕ := (d.dayNumber + 6) % 7

theorem daysBeforeMonth_thirteen (y : ℕ) : daysBeforeMonth y 13 = yearLength y := by
  by_cases h : IsLeap y <;> simp [daysBeforeMonth, monthLength, yearLength, h]

theorem daysBeforeYear_eq (y : ℕ) :
    daysBeforeYear y + (y + 99) / 100 = 365 * y + (y + 3) / 4 + (y + 399) / 400 := by
  induction y with
  | zero => rfl
  | succ y ih =>
    rw [daysBeforeYear, yearLength]
    by_cases h : IsLeap y
    · rw [if_pos h]
      rw [IsLeap] at h
      omega
    · rw [if_neg h]
      rw [IsLeap] at h
      omega

theorem daysBeforeYear_succ (y : ℕ) :
    daysBeforeYear (y + 1) + y / 100 = 365 * y + y / 4 + y / 400 + 366 := by
  have hclosed := daysBeforeYear_eq (y + 1)
  omega

theorem daysBeforeYear_strictMono : StrictMono daysBeforeYear :=
  strictMono_nat_of_lt_succ fun y ↦ by
    rw [daysBeforeYear, yearLength]
    split_ifs <;> omega

theorem daysBeforeMonth_mono (y : ℕ) : Monotone (daysBeforeMonth y) :=
  monotone_nat_of_le_succ fun m ↦ by
    rw [daysBeforeMonth]
    exact Nat.le_add_right _ _

namespace Date

variable (d d' : Date)

theorem dayNumber_lt_next_month :
    d.dayNumber < daysBeforeYear d.year + daysBeforeMonth d.year (d.month + 1) := by
  have hpos := d.day_pos
  have hle := d.day_le
  rw [dayNumber, daysBeforeMonth]
  omega

theorem dayNumber_lt_next_year : d.dayNumber < daysBeforeYear (d.year + 1) := by
  have hmonth : daysBeforeMonth d.year (d.month + 1) ≤ yearLength d.year := by
    rw [← daysBeforeMonth_thirteen]
    exact daysBeforeMonth_mono d.year (Nat.succ_le_succ d.month_le)
  have hlt := d.dayNumber_lt_next_month
  rw [daysBeforeYear]
  omega

theorem daysBeforeMonth_le : daysBeforeYear d.year + daysBeforeMonth d.year d.month ≤ d.dayNumber :=
  Nat.le_add_right _ _

variable {d d'}

theorem dayNumber_lt_of_year_lt (h : d.year < d'.year) : d.dayNumber < d'.dayNumber :=
  calc
    d.dayNumber < daysBeforeYear (d.year + 1) := d.dayNumber_lt_next_year
    _ ≤ daysBeforeYear d'.year := daysBeforeYear_strictMono.monotone h
    _ ≤ d'.dayNumber := (Nat.le_add_right _ _).trans d'.daysBeforeMonth_le

theorem dayNumber_lt_of_month_lt (hy : d.year = d'.year) (h : d.month < d'.month) :
    d.dayNumber < d'.dayNumber := by
  have hmonth : daysBeforeMonth d'.year (d.month + 1) ≤ daysBeforeMonth d'.year d'.month :=
    daysBeforeMonth_mono d'.year h
  have hlt := d.dayNumber_lt_next_month
  have hle := d'.daysBeforeMonth_le
  rw [hy] at hlt
  omega

/-- Dates are numbered in their order. -/
theorem lex_of_dayNumber_le (h : d.dayNumber ≤ d'.dayNumber) :
    d.year < d'.year ∨ d.year = d'.year ∧
      (d.month < d'.month ∨ d.month = d'.month ∧ d.day ≤ d'.day) := by
  rcases Nat.lt_trichotomy d.year d'.year with hy | hy | hy
  · exact .inl hy
  · refine .inr ⟨hy, ?_⟩
    rcases Nat.lt_trichotomy d.month d'.month with hm | hm | hm
    · exact .inl hm
    · refine .inr ⟨hm, ?_⟩
      have hpos := d'.day_pos
      rw [dayNumber, dayNumber, hy, hm] at h
      omega
    · have hlt := dayNumber_lt_of_month_lt hy.symm hm
      omega
  · have hlt := dayNumber_lt_of_year_lt hy
    omega

end Date

end UBoot.Lib.Calendar
