import Mathlib.Data.Int.Init

/-! # The civil calendar

`DaysFromCivil`, `CivilFromDays`, `WeekdayFromDays` and `DaysInMonth`, which `ical.cpp` and
`tz.cpp` share word by word, over whole numbers.
-/

namespace QuackMail.Calendar

def leapYear (y : Int) : Bool :=
  (y.tmod 4 = 0 && y.tmod 100 ≠ 0) || y.tmod 400 = 0

/-- `kDays`. -/
def kDays : List Int := [31, 28, 31, 30, 31, 30, 31, 31, 30, 31, 30, 31]

/-- `DaysInMonth` of a month from 1 to 12. -/
def daysInMonth (y m : Int) : Int :=
  if m = 2 ∧ leapYear y = true then 29 else kDays.getD (m - 1).toNat 0

/-- `DaysFromCivil`: the days since 1970-01-01. -/
def daysFromCivil (y m d : Int) : Int :=
  let y := if m ≤ 2 then y - 1 else y
  let era := (if 0 ≤ y then y else y - 399).tdiv 400
  let yoe := y - era * 400
  let doy := (153 * (m + (if m > 2 then -3 else 9)) + 2).tdiv 5 + d - 1
  let doe := yoe * 365 + yoe.tdiv 4 - yoe.tdiv 100 + doy
  era * 146097 + doe - 719468

/-- `CivilFromDays`: the year, the month and the day. -/
def civilFromDays (z : Int) : Int × Int × Int :=
  let z := z + 719468
  let era := (if 0 ≤ z then z else z - 146096).tdiv 146097
  let doe := z - era * 146097
  let yoe := (doe - doe.tdiv 1460 + doe.tdiv 36524 - doe.tdiv 146096).tdiv 365
  let yy := yoe + era * 400
  let doy := doe - (365 * yoe + yoe.tdiv 4 - yoe.tdiv 100)
  let mp := (5 * doy + 2).tdiv 153
  let d := doy - (153 * mp + 2).tdiv 5 + 1
  let m := mp + (if mp < 10 then 3 else -9)
  (if m ≤ 2 then yy + 1 else yy, m, d)

/-- `WeekdayFromDays`: 0 is Sunday. -/
def weekdayFromDays (days : Int) : Int :=
  let wd := (days + 4).tmod 7
  if wd < 0 then wd + 7 else wd

end QuackMail.Calendar
