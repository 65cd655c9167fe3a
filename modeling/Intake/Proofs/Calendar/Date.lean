import Mathlib.Algebra.BigOperators.Intervals
import Mathlib.Algebra.Order.BigOperators.Group.Finset
import Mathlib.Order.Interval.Finset.Nat
import Intake.Calendar
import Intake.Text.Decimal

/-!
# Dates and the time of day

A date is counted the long way, as the days of the years since 1970 and of the months since January. One
day or one second later is a relation, with a case for each field that can go on. Both relations are
counted, and of dates and times that exist nothing but the count is needed to know them.

What a library of points in time is trusted with is said in these terms, of two points in time that are one
second apart.
-/

namespace Intake

structure Date where
  year : Int
  month : Nat
  day : Nat
deriving DecidableEq

/-- A time of day. -/
structure Clock where
  hour : Nat
  minute : Nat
  second : Nat
deriving DecidableEq

namespace Date

/-- Every fourth year has a leap day, but of the full centuries only every fourth. -/
def IsLeapYear (year : Int) : Prop := 4 ∣ year ∧ (100 ∣ year → 400 ∣ year)

instance (year : Int) : Decidable (IsLeapYear year) :=
  inferInstanceAs (Decidable (4 ∣ year ∧ (100 ∣ year → 400 ∣ year)))

def yearLength (year : Int) : Int := if IsLeapYear year then 366 else 365

def monthLength (year : Int) : Nat → Nat
  | 2 => if IsLeapYear year then 29 else 28
  | 4 | 6 | 9 | 11 => 30
  | _ => 31

/-- The days from January 1st, 1970 to January 1st of a year. For earlier years they are counted back. -/
def daysToYear (year : Int) : Int :=
  ∑ n ∈ Finset.range (year - 1970).toNat, yearLength (1970 + n) -
    ∑ n ∈ Finset.range (1970 - year).toNat, yearLength (1969 - n)

/-- The days from January 1st to the first of a month. -/
def daysToMonth (year : Int) (month : Nat) : Nat := ∑ m ∈ Finset.Ico 1 month, monthLength year m

/-- The date exists. -/
structure Valid (d : Date) : Prop where
  month : 1 ≤ d.month ∧ d.month ≤ 12
  day : 1 ≤ d.day ∧ d.day ≤ monthLength d.year d.month

/-- The days from January 1st of the year to the date. -/
def daysIntoYear (d : Date) : Int := daysToMonth d.year d.month + d.day - 1

/-- The days from January 1st, 1970 to the date. -/
def days (d : Date) : Int := daysToYear d.year + d.daysIntoYear

/-- The second date is that of the next day. -/
inductive Next : Date → Date → Prop
  | day {year : Int} {month day : Nat} (hfirst : 1 ≤ day) (hlast : day < monthLength year month) :
      Next ⟨year, month, day⟩ ⟨year, month, day + 1⟩
  | month {year : Int} {month : Nat} (hfirst : 1 ≤ month) (hlast : month < 12) :
      Next ⟨year, month, monthLength year month⟩ ⟨year, month + 1, 1⟩
  | year {year : Int} : Next ⟨year, 12, 31⟩ ⟨year + 1, 1, 1⟩

/-! ### Years and months -/

theorem daysToYear_succ (year : Int) : daysToYear (year + 1) = daysToYear year + yearLength year := by
  unfold daysToYear
  rcases Int.lt_or_le year 1970 with hyear | hyear
  · obtain ⟨n, rfl⟩ : ∃ n : Nat, year = 1969 - n := ⟨(1969 - year).toNat, by omega⟩
    have hbefore : (1970 - (1969 - n : Int)).toNat = n + 1 := by omega
    have hafter : (1970 - (1969 - n + 1 : Int)).toNat = n := by omega
    have hnone : (1969 - n + 1 - 1970 : Int).toNat = 0 ∧ (1969 - n - 1970 : Int).toNat = 0 := by omega
    rw [hbefore, hafter, hnone.1, hnone.2, Finset.sum_range_succ]
    omega
  · obtain ⟨n, rfl⟩ : ∃ n : Nat, year = 1970 + n := ⟨(year - 1970).toNat, by omega⟩
    have hbefore : (1970 + n - 1970 : Int).toNat = n := by omega
    have hafter : (1970 + n + 1 - 1970 : Int).toNat = n + 1 := by omega
    have hnone : (1970 - (1970 + n + 1) : Int).toNat = 0 ∧ (1970 - (1970 + n) : Int).toNat = 0 := by omega
    rw [hbefore, hafter, hnone.1, hnone.2, Finset.sum_range_succ]
    omega

theorem daysToYear_mono {earlier later : Int} (h : earlier ≤ later) :
    daysToYear earlier ≤ daysToYear later := by
  induction later, h using Int.leInduction with
  | base => exact Int.le_refl _
  | succ later _ ih =>
      have hpos : 0 ≤ yearLength later := by
        unfold yearLength
        split <;> omega
      rw [daysToYear_succ]
      omega

theorem daysToMonth_one (year : Int) : daysToMonth year 1 = 0 := rfl

theorem daysToMonth_succ (year : Int) {month : Nat} (h : 1 ≤ month) :
    daysToMonth year (month + 1) = daysToMonth year month + monthLength year month :=
  Finset.sum_Ico_succ_top h _

theorem daysToMonth_mono (year : Int) {earlier later : Nat} (h : earlier ≤ later) :
    daysToMonth year earlier ≤ daysToMonth year later :=
  Finset.sum_le_sum_of_subset (Finset.Ico_subset_Ico_right h)

theorem yearLength_eq (year : Int) : yearLength year = daysToMonth year 13 := by
  unfold yearLength daysToMonth
  by_cases h : IsLeapYear year <;> simp [Finset.sum_Ico_succ_top, monthLength, h]

theorem one_le_monthLength (year : Int) (month : Nat) : 1 ≤ monthLength year month := by
  unfold monthLength
  split
  · split <;> decide
  all_goals decide

/-! ### One day later -/

section Next

variable {c d : Date}

theorem Next.valid_iff (h : c.Next d) : c.Valid ↔ d.Valid := by
  constructor
  · intro hc
    cases h with
    | day hfirst hlast => exact ⟨hc.month, Nat.le_add_left 1 _, hlast⟩
    | month hfirst hlast =>
        exact ⟨⟨Nat.le_add_left 1 _, hlast⟩, Nat.le_refl 1, one_le_monthLength _ _⟩
    | year => exact ⟨⟨Nat.le_refl 1, Nat.le_add_left 1 11⟩, Nat.le_refl 1, one_le_monthLength _ _⟩
  · intro hd
    cases h with
    | day hfirst hlast => exact ⟨hd.month, hfirst, Nat.le_of_lt hlast⟩
    | month hfirst hlast =>
        exact ⟨⟨hfirst, Nat.le_of_lt hlast⟩, one_le_monthLength _ _, Nat.le_refl _⟩
    | year => exact ⟨⟨Nat.le_add_left 1 11, Nat.le_refl 12⟩, Nat.le_add_left 1 30, Nat.le_refl 31⟩

/-- Within a year the days since January 1st go on, and the last of them is the last of the year. -/
theorem Next.daysIntoYear_eq (h : c.Next d) :
    d.year = c.year ∧ d.daysIntoYear = c.daysIntoYear + 1 ∨
      d.year = c.year + 1 ∧ c.daysIntoYear + 1 = yearLength c.year ∧ d.daysIntoYear = 0 := by
  cases h with
  | day hfirst hlast =>
      left
      simp only [daysIntoYear, true_and]
      omega
  | @month year month hfirst hlast =>
      left
      have hsucc := daysToMonth_succ year hfirst
      simp only [daysIntoYear, true_and]
      omega
  | @year year =>
      right
      have hlength : daysToMonth year 13 = daysToMonth year 12 + 31 :=
        daysToMonth_succ year (by decide)
      simp only [daysIntoYear, yearLength_eq, daysToMonth_one, hlength, true_and]
      omega

theorem Next.days_eq (h : c.Next d) : d.days = c.days + 1 := by
  unfold days
  rcases h.daysIntoYear_eq with ⟨hyear, hdays⟩ | ⟨hyear, hlast, hfirst⟩
  · rw [hyear, hdays]
    omega
  · rw [hyear, hfirst, daysToYear_succ]
    omega

theorem Valid.exists_next (h : c.Valid) : ∃ d, c.Next d := by
  obtain ⟨year, month, day⟩ := c
  obtain ⟨⟨hmonth, hlast⟩, hday, hwithin⟩ := h
  dsimp only at hmonth hlast hday hwithin
  rcases Nat.lt_or_eq_of_le hwithin with hbefore | rfl
  · exact ⟨_, .day hday hbefore⟩
  rcases Nat.lt_or_eq_of_le hlast with hbefore | rfl
  · exact ⟨_, .month hmonth hbefore⟩
  · exact ⟨_, .year⟩

end Next

/-! ### Dates in order -/

section Order

variable {c d : Date}

theorem Valid.daysIntoYear_lt (h : c.Valid) :
    0 ≤ c.daysIntoYear ∧ c.daysIntoYear < yearLength c.year := by
  have hsucc := daysToMonth_succ c.year h.month.1
  have hmono : daysToMonth c.year (c.month + 1) ≤ daysToMonth c.year 13 :=
    daysToMonth_mono c.year (Nat.succ_le_succ h.month.2)
  have hday := h.day
  rw [yearLength_eq]
  unfold daysIntoYear
  omega

theorem Valid.days_lt_of_year (hc : c.Valid) (hd : d.Valid) (h : c.year < d.year) : c.days < d.days := by
  have hend := hc.daysIntoYear_lt.2
  have hstart := hd.daysIntoYear_lt.1
  have hmono := daysToYear_mono (Int.add_one_le_of_lt h)
  rw [daysToYear_succ] at hmono
  unfold days
  omega

theorem Valid.days_lt_of_month (hc : c.Valid) (hd : d.Valid) (hyear : c.year = d.year)
    (h : c.month < d.month) : c.days < d.days := by
  have hend := hc.day.2
  have hstart := hd.day.1
  have hsucc := daysToMonth_succ c.year hc.month.1
  have hmono : daysToMonth c.year (c.month + 1) ≤ daysToMonth c.year d.month :=
    daysToMonth_mono c.year h
  unfold days daysIntoYear
  rw [← hyear]
  omega

/-- A date that exists is known by its days. -/
theorem Valid.eq_of_days_eq (hc : c.Valid) (hd : d.Valid) (h : c.days = d.days) : c = d := by
  have hyear : c.year = d.year := by
    rcases lt_trichotomy c.year d.year with hlt | heq | hgt
    · exact absurd h (hc.days_lt_of_year hd hlt).ne
    · exact heq
    · exact absurd h (hd.days_lt_of_year hc hgt).ne'
  have hmonth : c.month = d.month := by
    rcases lt_trichotomy c.month d.month with hlt | heq | hgt
    · exact absurd h (hc.days_lt_of_month hd hyear hlt).ne
    · exact heq
    · exact absurd h (hd.days_lt_of_month hc hyear.symm hgt).ne'
  obtain ⟨year, month, day⟩ := c
  obtain ⟨year', month', day'⟩ := d
  cases hyear
  cases hmonth
  simp only [days, daysIntoYear] at h
  have hday : day = day' := by omega
  rw [hday]

theorem Valid.next_of_days_eq (hc : c.Valid) (hd : d.Valid) (h : d.days = c.days + 1) : c.Next d := by
  obtain ⟨next, hnext⟩ := hc.exists_next
  have hsame : next = d := (hnext.valid_iff.1 hc).eq_of_days_eq hd (hnext.days_eq.trans h.symm)
  exact hsame ▸ hnext

end Order

end Date

namespace Clock

structure Valid (c : Clock) : Prop where
  hour : c.hour < 24
  minute : c.minute < 60
  second : c.second < 60

/-- The seconds since midnight. -/
def seconds (c : Clock) : Nat := (c.hour * 60 + c.minute) * 60 + c.second

def midnight : Clock := ⟨0, 0, 0⟩

def lastSecond : Clock := ⟨23, 59, 59⟩

/-- The second time is one second later on the same day. -/
inductive Next : Clock → Clock → Prop
  | second {hour minute second : Nat} (h : second < 59) :
      Next ⟨hour, minute, second⟩ ⟨hour, minute, second + 1⟩
  | minute {hour minute : Nat} (h : minute < 59) : Next ⟨hour, minute, 59⟩ ⟨hour, minute + 1, 0⟩
  | hour {hour : Nat} (h : hour < 23) : Next ⟨hour, 59, 59⟩ ⟨hour + 1, 0, 0⟩

theorem valid_midnight : midnight.Valid := by constructor <;> decide

theorem valid_lastSecond : lastSecond.Valid := by constructor <;> decide

variable {c d : Clock}

theorem Next.valid_iff (h : c.Next d) : c.Valid ↔ d.Valid := by
  constructor
  · intro hc
    obtain ⟨hhour, hminute, hsecond⟩ := hc
    cases h <;> constructor <;> dsimp only at * <;> omega
  · intro hd
    obtain ⟨hhour, hminute, hsecond⟩ := hd
    cases h <;> constructor <;> dsimp only at * <;> omega

theorem Next.seconds_eq (h : c.Next d) : d.seconds = c.seconds + 1 := by
  cases h <;> simp only [seconds] <;> omega

theorem Next.ne_midnight (h : c.Next d) : d ≠ midnight := by
  intro hd
  have hseconds := h.seconds_eq
  rw [hd] at hseconds
  exact absurd hseconds (Nat.succ_ne_zero _).symm

theorem Valid.eq_of_seconds_eq (hc : c.Valid) (hd : d.Valid) (h : c.seconds = d.seconds) : c = d := by
  obtain ⟨hour, minute, second⟩ := c
  obtain ⟨hour', minute', second'⟩ := d
  obtain ⟨-, hminute, hsecond⟩ := hc
  obtain ⟨-, hminute', hsecond'⟩ := hd
  simp only [seconds] at *
  have hsame : hour = hour' ∧ minute = minute' ∧ second = second' := by omega
  obtain ⟨rfl, rfl, rfl⟩ := hsame
  rfl

theorem Valid.seconds_lt (h : c.Valid) : c.seconds < 86400 := by
  obtain ⟨hhour, hminute, hsecond⟩ := h
  unfold seconds
  omega

theorem Valid.exists_next (h : c.Valid) : c = lastSecond ∨ ∃ d, c.Next d := by
  obtain ⟨hour, minute, second⟩ := c
  obtain ⟨hhour, hminute, hsecond⟩ := h
  dsimp only at hhour hminute hsecond
  by_cases hs : second < 59
  · exact .inr ⟨_, .second hs⟩
  obtain rfl : second = 59 := by omega
  by_cases hm : minute < 59
  · exact .inr ⟨_, .minute hm⟩
  obtain rfl : minute = 59 := by omega
  by_cases hh : hour < 23
  · exact .inr ⟨_, .hour hh⟩
  obtain rfl : hour = 23 := by omega
  exact .inl rfl

theorem Valid.next_of_seconds_eq (hc : c.Valid) (hd : d.Valid) (h : d.seconds = c.seconds + 1) :
    c.Next d := by
  rcases hc.exists_next with rfl | ⟨next, hnext⟩
  · have hlt := hd.seconds_lt
    rw [h] at hlt
    exact absurd hlt (by decide)
  · have hsame : next = d := (hnext.valid_iff.1 hc).eq_of_seconds_eq hd (hnext.seconds_eq.trans h.symm)
    exact hsame ▸ hnext

end Clock

/-- A number of seconds that fits 32 bits with a sign. -/
def IsTimestamp (timestamp : Int) : Prop :=
  -(Decimal.signedBound : Int) ≤ timestamp ∧ timestamp < Decimal.signedBound

instance (timestamp : Int) : Decidable (IsTimestamp timestamp) :=
  inferInstanceAs (Decidable (_ ∧ _))

theorem IsTimestamp.of_between {earlier timestamp later : Int} (hfirst : IsTimestamp earlier)
    (hlast : IsTimestamp later) (hle : earlier ≤ timestamp) (hge : timestamp ≤ later) :
    IsTimestamp timestamp :=
  ⟨hfirst.1.trans hle, hge.trans_lt hlast.2⟩

namespace DateTimes

variable [DateTimes]

def date (i : Instant) : Date := ⟨year i, month i, day i⟩

def clock (i : Instant) : Clock := ⟨hour i, minute i, second i⟩

/-- The second point in time comes one second after the first. -/
def Consecutive (i j : Instant) : Prop :=
  ∃ timestamp, ofTimestamp? timestamp 0 = some i ∧ ofTimestamp? (timestamp + 1) 0 = some j

/-- The library counts seconds in universal time without leap seconds, and days in the Gregorian calendar,
extended to the years before it. -/
structure IsGregorian : Prop where
  /-- No number of seconds that fits 32 bits is out of range. -/
  inRange : ∀ timestamp, IsTimestamp timestamp → ∃ i, ofTimestamp? timestamp 0 = some i
  /-- Seconds are counted from the start of Thursday, January 1st, 1970 in universal time. -/
  epoch : ∀ i, ofTimestamp? 0 0 = some i → date i = ⟨1970, 1, 1⟩ ∧ clock i = .midnight ∧
    daysFromSunday (weekday i) = 4 ∧ ordinal i = 0
  /-- Each minute has sixty seconds, and each day ends with the same one. -/
  noLeapSecond : ∀ i j, Consecutive i j →
    (clock i).Next (clock j) ∨ clock i = .lastSecond ∧ clock j = .midnight
  /-- A day lasts until midnight. -/
  sameDay : ∀ i j, Consecutive i j → clock j ≠ .midnight →
    date j = date i ∧ weekday j = weekday i ∧ ordinal j = ordinal i
  /-- At midnight begins the next day of the calendar. -/
  nextDate : ∀ i j, Consecutive i j → clock j = .midnight → (date i).Next (date j)
  /-- It is the next day of the week, and Sunday comes after Saturday. -/
  nextWeekday : ∀ i j, Consecutive i j → clock j = .midnight → daysFromSunday (weekday i) < 7 ∧
    daysFromSunday (weekday j) = (daysFromSunday (weekday i) + 1) % 7
  /-- It is the next day of its year, or the first one after all days of the year before. -/
  nextOrdinal : ∀ i j, Consecutive i j → clock j = .midnight →
    (year j = year i → ordinal j = ordinal i + 1) ∧
    (year j ≠ year i → ordinal i + 1 = Date.yearLength (year i) ∧ ordinal j = 0)

end DateTimes

end Intake
