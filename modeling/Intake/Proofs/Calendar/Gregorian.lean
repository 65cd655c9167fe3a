import Intake.Calendar.Gregorian
import Intake.Proofs.Calendar.Date

/-!
# The Gregorian library

The closed forms of the library agree with dates counted the long way: the date it finds for a day exists
and is as many days away from the start of 1970, and the time of day has the seconds since midnight. So one
second later is what the laws of a library ask for, because a date and a time of day are known by their
count.
-/

namespace Intake.Gregorian

open Date (IsLeapYear yearLength monthLength daysToYear daysToMonth)

/-! ### Years -/

variable {year : Int}

theorem isLeap_iff : isLeap year ↔ IsLeapYear year := by
  simp only [isLeap, IsLeapYear, Bool.and_eq_true, Bool.or_eq_true, beq_iff_eq, bne_iff_ne]
  omega

theorem yearStart_succ (year : Int) : yearStart (year + 1) = yearStart year + yearLength year := by
  unfold yearStart leapDaysBefore yearLength
  split
  next h =>
    unfold IsLeapYear at h
    omega
  next h =>
    unfold IsLeapYear at h
    omega

/-- The estimate of the leap days counts them. -/
theorem yearStart_eq (year : Int) : yearStart year = daysToYear year := by
  induction year using Int.inductionOn' (b := 1970) with
  | zero => simp [yearStart, daysToYear]
  | succ year _ ih => rw [yearStart_succ, Date.daysToYear_succ, ih]
  | pred year _ ih =>
      have hstart := yearStart_succ (year - 1)
      have hdays := Date.daysToYear_succ (year - 1)
      rw [Int.sub_add_cancel] at hstart hdays
      omega

theorem yearOfDay_spec (day : Int) :
    yearStart (yearOfDay day) ≤ day ∧ day < yearStart (yearOfDay day + 1) := by
  unfold yearOfDay
  dsimp only
  split
  next hbefore =>
    rw [Int.sub_add_cancel]
    refine ⟨?_, hbefore⟩
    unfold yearStart leapDaysBefore daysPerCycle
    omega
  next hbefore =>
  split
  next hafter =>
    refine ⟨hafter, ?_⟩
    unfold yearStart leapDaysBefore daysPerCycle
    omega
  next hafter => exact ⟨Int.not_lt.1 hbefore, Int.not_le.1 hafter⟩

theorem ordinalOfDay_spec (day : Int) :
    daysToYear (yearOfDay day) + ordinalOfDay day = day ∧
      ordinalOfDay day < yearLength (yearOfDay day) := by
  have hspec := yearOfDay_spec day
  rw [yearStart_succ, yearStart_eq] at hspec
  unfold ordinalOfDay
  rw [yearStart_eq]
  omega

/-! ### Months -/

theorem monthLengths_eq (year : Int) :
    monthLengths (isLeap year) = (List.range' 1 12).map (monthLength year) := by
  have hleap : (if isLeap year then 29 else 28) = if IsLeapYear year then 29 else 28 :=
    if_congr isLeap_iff rfl rfl
  simp [monthLengths, List.range', monthLength, hleap]

/-- Going through the months from `month` on finds the one that the day lies in. -/
theorem monthAndDay_spec (year : Int) {n month day : Nat} (hmonth : 1 ≤ month)
    (h : daysToMonth year month + day < daysToMonth year (month + n)) :
    let found := monthAndDay month day ((List.range' month n).map (monthLength year))
    (month ≤ found.1 ∧ found.1 < month + n) ∧ (1 ≤ found.2 ∧ found.2 ≤ monthLength year found.1) ∧
      daysToMonth year found.1 + found.2 = daysToMonth year month + day + 1 := by
  induction n generalizing month day with
  | zero => exact absurd h (Nat.not_lt_of_le (Nat.le_add_right _ _))
  | succ n ih =>
      have hsucc : daysToMonth year (month + 1) = daysToMonth year month + monthLength year month :=
        Date.daysToMonth_succ year hmonth
      rw [List.range'_succ, List.map_cons, monthAndDay]
      split
      next hday =>
        dsimp only
        omega
      next hday =>
        have hrest : daysToMonth year (month + 1) + (day - monthLength year month) <
            daysToMonth year (month + 1 + n) := by
          rw [Nat.add_assoc, Nat.add_comm 1]
          omega
        have hfound := ih (Nat.le_add_right_of_le hmonth) hrest
        dsimp only at hfound ⊢
        omega

/-! ### The date of a day -/

def dateOf (day : Int) : Date := ⟨yearOfDay day, (monthOfDay day).1, (monthOfDay day).2⟩

theorem dateOf_spec (day : Int) : (dateOf day).Valid ∧ (dateOf day).daysIntoYear = ordinalOfDay day := by
  have hwithin : daysToMonth (yearOfDay day) 1 + ordinalOfDay day < daysToMonth (yearOfDay day) 13 := by
    have hlast := (ordinalOfDay_spec day).2
    rw [Date.yearLength_eq] at hlast
    rw [Date.daysToMonth_one]
    omega
  have hfound := monthAndDay_spec (n := 12) (yearOfDay day) (Nat.le_refl 1) hwithin
  rw [← monthLengths_eq, Date.daysToMonth_one] at hfound
  obtain ⟨hmonth, hday, hsum⟩ := hfound
  refine ⟨⟨⟨hmonth.1, Nat.le_of_lt_succ hmonth.2⟩, hday⟩, ?_⟩
  show (daysToMonth (yearOfDay day) (monthOfDay day).1 : Int) + (monthOfDay day).2 - 1 = _
  unfold monthOfDay
  omega

theorem days_dateOf (day : Int) : (dateOf day).days = day := by
  unfold Date.days
  rw [(dateOf_spec day).2]
  exact (ordinalOfDay_spec day).1

theorem dateOf_succ (day : Int) : (dateOf day).Next (dateOf (day + 1)) := by
  apply (dateOf_spec day).1.next_of_days_eq (dateOf_spec _).1
  rw [days_dateOf, days_dateOf]

theorem ordinalOfDay_succ (day : Int) :
    (yearOfDay (day + 1) = yearOfDay day → ordinalOfDay (day + 1) = ordinalOfDay day + 1) ∧
      (yearOfDay (day + 1) ≠ yearOfDay day →
        ordinalOfDay day + 1 = yearLength (yearOfDay day) ∧ ordinalOfDay (day + 1) = 0) := by
  have hnext := (dateOf_succ day).daysIntoYear_eq
  rw [(dateOf_spec day).2, (dateOf_spec (day + 1)).2] at hnext
  simp only [dateOf] at hnext
  omega

/-! ### The time of day -/

def timeOf (seconds : Int) : Clock :=
  ⟨clockOf seconds / 3600, clockOf seconds / 60 % 60, clockOf seconds % 60⟩

theorem timeOf_spec (seconds : Int) :
    (timeOf seconds).Valid ∧ (timeOf seconds).seconds = clockOf seconds := by
  have hclock : clockOf seconds < 86400 := by
    unfold clockOf secondsPerDay
    omega
  refine ⟨⟨?_, ?_, ?_⟩, ?_⟩ <;> simp only [timeOf, Clock.seconds] <;> omega

theorem clockOf_succ (seconds : Int) :
    clockOf (seconds + 1) = clockOf seconds + 1 ∧ dayOf (seconds + 1) = dayOf seconds ∨
      clockOf seconds = 86399 ∧ clockOf (seconds + 1) = 0 ∧ dayOf (seconds + 1) = dayOf seconds + 1 := by
  unfold clockOf dayOf secondsPerDay
  omega

theorem timeOf_succ (seconds : Int) : (timeOf seconds).Next (timeOf (seconds + 1)) ∨
    timeOf seconds = .lastSecond ∧ timeOf (seconds + 1) = .midnight := by
  rcases clockOf_succ seconds with ⟨hclock, -⟩ | ⟨hlast, hfirst, -⟩
  · left
    apply (timeOf_spec seconds).1.next_of_seconds_eq (timeOf_spec _).1
    rw [(timeOf_spec seconds).2, (timeOf_spec _).2, hclock]
  · right
    simp [timeOf, hlast, hfirst, Clock.lastSecond, Clock.midnight]

theorem timeOf_eq_midnight {seconds : Int} : timeOf seconds = .midnight ↔ clockOf seconds = 0 := by
  constructor
  · intro h
    rw [← (timeOf_spec seconds).2, h]
    rfl
  · intro h
    simp [timeOf, h, Clock.midnight]

theorem dayOf_succ (seconds : Int) :
    dayOf (seconds + 1) = if timeOf (seconds + 1) = .midnight then dayOf seconds + 1 else dayOf seconds := by
  simp only [timeOf_eq_midnight]
  rcases clockOf_succ seconds with ⟨hclock, hday⟩ | ⟨-, hfirst, hday⟩
  · rw [if_neg (by omega), hday]
  · rw [if_pos hfirst, hday]

/-! ### The laws -/

section Laws

variable {i j : Int} (hij : DateTimes.Consecutive i j)
include hij

theorem eq_succ_of_consecutive : j = i + 1 := by
  obtain ⟨timestamp, hi, hj⟩ := hij
  cases hi
  cases hj
  rfl

theorem dayOf_of_midnight (hj : timeOf j = .midnight) : dayOf j = dayOf i + 1 := by
  rw [eq_succ_of_consecutive hij] at hj ⊢
  rw [dayOf_succ, if_pos hj]

theorem dayOf_of_ne_midnight (hj : timeOf j ≠ .midnight) : dayOf j = dayOf i := by
  rw [eq_succ_of_consecutive hij] at hj ⊢
  rw [dayOf_succ, if_neg hj]

end Laws

theorem isGregorian : DateTimes.IsGregorian where
  inRange timestamp _ := ⟨timestamp, rfl⟩
  epoch i hi := by
    cases hi
    exact ⟨by decide, by decide, by decide, by decide⟩
  noLeapSecond i j hij := by
    rw [eq_succ_of_consecutive hij]
    exact timeOf_succ i
  sameDay i j hij hj := by
    show dateOf (dayOf j) = dateOf (dayOf i) ∧ ((dayOf j + 4) % 7).toNat = ((dayOf i + 4) % 7).toNat ∧
      ordinalOfDay (dayOf j) = ordinalOfDay (dayOf i)
    rw [dayOf_of_ne_midnight hij hj]
    exact ⟨rfl, rfl, rfl⟩
  nextDate i j hij hj := by
    show (dateOf (dayOf i)).Next (dateOf (dayOf j))
    rw [dayOf_of_midnight hij hj]
    exact dateOf_succ _
  nextWeekday i j hij hj := by
    show ((dayOf i + 4) % 7).toNat < 7 ∧ ((dayOf j + 4) % 7).toNat = (((dayOf i + 4) % 7).toNat + 1) % 7
    rw [dayOf_of_midnight hij hj]
    omega
  nextOrdinal i j hij hj := by
    have hsucc := ordinalOfDay_succ (dayOf i)
    rw [← dayOf_of_midnight hij hj] at hsucc
    exact hsucc

end Intake.Gregorian
