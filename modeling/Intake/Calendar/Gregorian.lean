import Intake.Calendar

/-!
# Gregorian dates

A library of points in time for programs that run, in the Gregorian calendar extended to all years. A
point in time is its number of seconds. Days are counted from January 1st, 1970; a year is estimated from
the mean length of a year and put right by at most one.
-/

namespace Intake.Gregorian

def secondsPerDay : Int := 86400

/-- The days of 400 years, after which the calendar repeats. -/
def daysPerCycle : Int := 146097

def isLeap (year : Int) : Bool :=
  year % 4 == 0 && (year % 100 != 0 || year % 400 == 0)

/-- The leap days before a year, counted from the year 1. -/
def leapDaysBefore (year : Int) : Int :=
  (year - 1) / 4 - (year - 1) / 100 + (year - 1) / 400

/-- The days from January 1st, 1970 to January 1st of a year. -/
def yearStart (year : Int) : Int :=
  365 * (year - 1970) + leapDaysBefore year - leapDaysBefore 1970

/-- The year a day lies in. -/
def yearOfDay (day : Int) : Int :=
  let estimate := 1970 + day * 400 / daysPerCycle
  if day < yearStart estimate then estimate - 1
  else if yearStart (estimate + 1) ≤ day then estimate + 1
  else estimate

/-- How many days of its year lie in front of a day. -/
def ordinalOfDay (day : Int) : Nat := (day - yearStart (yearOfDay day)).toNat

/-- The lengths of the months from January to December. -/
def monthLengths (leap : Bool) : List Nat :=
  [31, if leap then 29 else 28, 31, 30, 31, 30, 31, 31, 30, 31, 30, 31]

/-- The month and the day of the month, where `day` counts from the start of month number `month`
and `lengths` are those of this month and the following. -/
def monthAndDay (month day : Nat) : List Nat → Nat × Nat
  | [] => (month, day + 1)
  | length :: lengths =>
    if day < length then (month, day + 1) else monthAndDay (month + 1) (day - length) lengths

/-- The month and the day of the month of a day. -/
def monthOfDay (day : Int) : Nat × Nat :=
  monthAndDay 1 (ordinalOfDay day) (monthLengths (isLeap (yearOfDay day)))

/-- The day that a number of seconds lies in. -/
def dayOf (seconds : Int) : Int := seconds / secondsPerDay

/-- The seconds since midnight. -/
def clockOf (seconds : Int) : Nat := (seconds % secondsPerDay).toNat

instance dateTimes : DateTimes where
  Instant := Int
  Weekday := Nat
  ofTimestamp? seconds nanoseconds := if nanoseconds < 1000000000 then some seconds else none
  fallback := (0 : Int)
  year seconds := yearOfDay (dayOf seconds)
  month seconds := (monthOfDay (dayOf seconds)).1
  day seconds := (monthOfDay (dayOf seconds)).2
  weekday seconds := ((dayOf seconds + 4) % 7).toNat
  ordinal seconds := ordinalOfDay (dayOf seconds)
  hour seconds := clockOf seconds / 3600
  minute seconds := clockOf seconds / 60 % 60
  second seconds := clockOf seconds % 60
  daysFromSunday weekday := weekday

end Intake.Gregorian
