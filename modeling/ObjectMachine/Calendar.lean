import ObjectMachine.Text.Decimal

/-! The calendar: lengths of months, and the date and time of a number of seconds counted
from the start of 1970. -/

namespace ObjectMachine.Calendar

def isLeap (year : Nat) : Bool := year % 4 == 0 && (year % 100 != 0 || year % 400 == 0)

/-- The days of a month, counted from 1 for January. -/
def daysIn (year month : Nat) : Nat :=
  if month = 2 then (if isLeap year then 29 else 28)
  else if month = 4 ∨ month = 6 ∨ month = 9 ∨ month = 11 then 30
  else 31

def isDate (year month day : Nat) : Bool :=
  1 ≤ month && month ≤ 12 && 1 ≤ day && day ≤ daysIn year month

def daysInYear (year : Nat) : Nat := if isLeap year then 366 else 365

/-- The year that has the given day counted from the start of `year`, and the day in it.
A year has at least 365 days, so as many tries as days divided by 365 are enough. -/
def yearOf : (tries : Nat) → (year day : Nat) → Nat × Nat
  | 0, year, day => (year, day)
  | tries + 1, year, day =>
    if day < daysInYear year then (year, day)
    else yearOf tries (year + 1) (day - daysInYear year)

/-- The month and its day of a day of the year. -/
def monthOf (year : Nat) : (months : List Nat) → (day : Nat) → Nat × Nat
  | [], day => (12, day + 1)
  | month :: rest, day =>
    if day < daysIn year month then (month, day + 1)
    else monthOf year rest (day - daysIn year month)

/-- A number with leading zeros up to `width` digits. -/
def padded (width n : Nat) : Text :=
  let digits := Text.ofNat n
  List.replicate (width - digits.length) (Text.byte '0') ++ digits

/-- The date and the time of day to the minute, as `1970-01-01 00:00`. -/
def write (seconds : Nat) : Text :=
  let days := seconds / 86400
  let (year, day) := yearOf (days / 365 + 1) 1970 days
  let (month, day) := monthOf year [1, 2, 3, 4, 5, 6, 7, 8, 9, 10, 11, 12] day
  padded 4 year ++ "-" ++ padded 2 month ++ "-" ++ padded 2 day ++ " "
    ++ padded 2 (seconds / 3600 % 24) ++ ":" ++ padded 2 (seconds / 60 % 60)

end ObjectMachine.Calendar
