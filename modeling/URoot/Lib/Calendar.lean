import URoot.Lib.Codec
import Mathlib.Tactic.IntervalCases

set_option autoImplicit false

namespace GoLib.Calendar

-- The proleptic Gregorian calendar from year 1 on.
def isLeap (year : Nat) : Bool := year % 4 = 0 ∧ (year % 100 ≠ 0 ∨ year % 400 = 0)

def yearLength (year : Nat) : Nat := if isLeap year then 366 else 365

def monthLength (year month : Nat) : Nat :=
  if month = 2 then if isLeap year then 29 else 28
  else if month = 4 ∨ month = 6 ∨ month = 9 ∨ month = 11 then 30
  else 31

def daysBeforeMonth (year : Nat) : Nat → Nat
  | 0 => 0
  | 1 => 0
  | month + 2 => daysBeforeMonth year (month + 1) + monthLength year (month + 1)

def daysBeforeYear (year : Nat) : Nat := 365 * (year - 1) + (year - 1) / 4 - (year - 1) / 100 + (year - 1) / 400

structure Date where
  year : Nat
  month : Nat
  day : Nat
  years : 1 ≤ year
  months : 1 ≤ month ∧ month ≤ 12
  days : 1 ≤ day ∧ day ≤ monthLength year month

-- time.Weekday of the day with a number; Sunday is 0.
def weekdayOf (number : Nat) : Nat := (number + 1) % 7

def newYearWeekday (year : Nat) : Nat := weekdayOf (daysBeforeYear year)

namespace Date

variable (d : Date)

def yearDay : Nat := daysBeforeMonth d.year d.month + d.day

def number : Nat := daysBeforeYear d.year + (d.yearDay - 1)

def weekday : Nat := weekdayOf d.number

-- The Thursday of the date's week, counted from 1 January of the date's year. A week begins on Monday.
def thursday : Int := (d.yearDay : Int) - 1 + 3 - (d.number % 7 : Nat)

-- time.ISOWeek: a week belongs to the year of its Thursday.
def isoWeek : Nat × Nat :=
  if d.thursday < 0 then (d.year - 1, ((d.thursday + yearLength (d.year - 1)) / 7 + 1).toNat)
  else if d.thursday < yearLength d.year then (d.year, (d.thursday / 7 + 1).toNat)
  else (d.year + 1, ((d.thursday - yearLength d.year) / 7 + 1).toNat)

end Date

theorem year_length_cases (year : Nat) : yearLength year = 365 ∨ yearLength year = 366 := by
  rw [yearLength]
  split
  · exact Or.inr rfl
  · exact Or.inl rfl

theorem months_fit (year month : Nat) (months : 1 ≤ month ∧ month ≤ 12) :
    daysBeforeMonth year month + monthLength year month ≤ yearLength year := by
  obtain ⟨least, most⟩ := months
  cases leap : isLeap year with
  | true => interval_cases month <;> simp [daysBeforeMonth, monthLength, yearLength, leap]
  | false => interval_cases month <;> simp [daysBeforeMonth, monthLength, yearLength, leap]

theorem year_day_bounds (d : Date) : 1 ≤ d.yearDay ∧ d.yearDay ≤ yearLength d.year := by
  have fit := months_fit d.year d.month d.months
  have days := d.days
  rw [Date.yearDay]
  omega

end GoLib.Calendar
