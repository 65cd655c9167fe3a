/-!
# The calendar

The date and time of day of a number of seconds since 1970. The breaking down is left to a library of
points in time, which is a class here: what it offers, with nothing said about what it answers. A calendar
copies what the library shows of a point in time.
-/

namespace Intake

/-- A library of points in time. -/
class DateTimes where
  Instant : Type
  Weekday : Type
  /-- The point in time that comes so many seconds and nanoseconds after the start of 1970, unless it is
  out of range. -/
  ofTimestamp? (seconds : Int) (nanoseconds : Nat) : Option Instant
  /-- The point in time that stands in for those out of range. -/
  fallback : Instant
  year : Instant → Int
  /-- Counted from one. -/
  month : Instant → Nat
  /-- The day of the month, counted from one. -/
  day : Instant → Nat
  weekday : Instant → Weekday
  /-- The day of the year, counted from zero. -/
  ordinal : Instant → Nat
  hour : Instant → Nat
  minute : Instant → Nat
  second : Instant → Nat
  /-- The number of a day of the week, where Sunday has zero. -/
  daysFromSunday : Weekday → Nat

/-- A point in time broken down. Months and days count from one, weekdays from Sunday and the days
of the year from January 1st, both from zero. -/
structure Calendar where
  year : Int
  month : Nat
  day : Nat
  weekday : Nat
  yearday : Nat
  hour : Nat
  minute : Nat
  second : Nat
deriving DecidableEq

def Calendar.ofTimestamp [DateTimes] (timestamp : Int) : Calendar :=
  let instant := (DateTimes.ofTimestamp? timestamp 0).getD DateTimes.fallback
  { year := DateTimes.year instant
    month := DateTimes.month instant
    day := DateTimes.day instant
    weekday := DateTimes.daysFromSunday (DateTimes.weekday instant)
    yearday := DateTimes.ordinal instant
    hour := DateTimes.hour instant
    minute := DateTimes.minute instant
    second := DateTimes.second instant }

end Intake
