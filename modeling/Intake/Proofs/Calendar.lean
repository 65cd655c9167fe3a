import Intake.Account
import Intake.Proofs.Calendar.Gregorian

/-!
# Points in time and dates

With a Gregorian library, breaking down a point in time gives a date and a time of day that exist and that
are as many seconds away from the start of 1970. This holds at the start of 1970, and from one second to the
next, forwards and backwards, the calendar ticks: it shows the next second of the same day, or midnight of
the next day. Dates are ordered as the points in time are, and the year of a date is known to be right
before its month and day are looked at.
-/

namespace Intake

namespace Calendar

variable {c d : Calendar}

def date (c : Calendar) : Date := ⟨c.year, c.month, c.day⟩

def clock (c : Calendar) : Clock := ⟨c.hour, c.minute, c.second⟩

/-- The date and the time of day exist. -/
structure Valid (c : Calendar) : Prop where
  date : c.date.Valid
  clock : c.clock.Valid

/-- The seconds from the start of January 1st, 1970. -/
def seconds (c : Calendar) : Int := c.date.days * 86400 + c.clock.seconds

/-- What a point in time is compared by, the year first. -/
def fields (c : Calendar) : List Int := [c.year, c.month, c.day, c.hour, c.minute, c.second]

/-! ### In order -/

/-- Of two points in time that exist the one with the smaller fields is the earlier one. -/
theorem seconds_lt_of_fields_lt (hc : c.Valid) (hd : d.Valid) (h : c.fields < d.fields) :
    c.seconds < d.seconds := by
  have htime := hc.clock.seconds_lt
  have htime' := hd.clock.seconds_lt
  simp only [fields, List.cons_lt_cons_iff, Int.ofNat_lt, Int.ofNat_inj, List.lt_irrefl, and_false,
    or_false] at h
  unfold seconds
  rcases h with hyear | ⟨hyear, h⟩
  · have hdays := hc.date.days_lt_of_year hd.date hyear
    omega
  rcases h with hmonth | ⟨hmonth, h⟩
  · have hdays := hc.date.days_lt_of_month hd.date hyear hmonth
    omega
  have hdays : d.date.days - d.day = c.date.days - c.day := by
    simp only [Date.days, Date.daysIntoYear, date, ← hyear, ← hmonth]
    omega
  rcases h with hday | ⟨hday, h⟩
  · omega
  obtain ⟨-, hminute, hsecond⟩ := hc.clock
  obtain ⟨-, hminute', hsecond'⟩ := hd.clock
  simp only [clock, Clock.seconds] at *
  omega

theorem seconds_eq_of_fields_eq (h : c.fields = d.fields) : c.seconds = d.seconds := by
  simp only [fields, List.cons.injEq, Int.ofNat_inj, and_true] at h
  obtain ⟨hyear, hmonth, hday, hhour, hminute, hsecond⟩ := h
  simp only [seconds, date, clock, hyear, hmonth, hday, hhour, hminute, hsecond]

theorem fields_eq_of_seconds_eq (hc : c.Valid) (hd : d.Valid) (h : c.seconds = d.seconds) :
    c.fields = d.fields := by
  rcases lt_trichotomy c.fields d.fields with hlt | heq | hgt
  · exact absurd h (seconds_lt_of_fields_lt hc hd hlt).ne
  · exact heq
  · exact absurd h (seconds_lt_of_fields_lt hd hc hgt).ne'

/-! ### One second later -/

/-- The second calendar shows what comes one second after the first. -/
inductive Tick (c d : Calendar) : Prop
  | second (hclock : c.clock.Next d.clock) (hdate : d.date = c.date) (hweekday : d.weekday = c.weekday)
      (hyearday : d.yearday = c.yearday)
  | midnight (hlast : c.clock = .lastSecond) (hfirst : d.clock = .midnight) (hdate : c.date.Next d.date)
      (hweekday : c.weekday < 7 ∧ d.weekday = (c.weekday + 1) % 7)
      (hsame : d.year = c.year → d.yearday = c.yearday + 1)
      (hnew : d.year ≠ c.year → c.yearday + 1 = Date.yearLength c.year ∧ d.yearday = 0)

theorem Tick.valid_iff (h : c.Tick d) : c.Valid ↔ d.Valid := by
  cases h with
  | second hclock hdate hweekday hyearday =>
      constructor
      · rintro ⟨hd, hc⟩
        exact ⟨hdate ▸ hd, hclock.valid_iff.1 hc⟩
      · rintro ⟨hd, hc⟩
        exact ⟨hdate ▸ hd, hclock.valid_iff.2 hc⟩
  | midnight hlast hfirst hdate hweekday hsame hnew =>
      constructor
      · rintro ⟨hd, -⟩
        exact ⟨hdate.valid_iff.1 hd, hfirst ▸ Clock.valid_midnight⟩
      · rintro ⟨hd, -⟩
        exact ⟨hdate.valid_iff.2 hd, hlast ▸ Clock.valid_lastSecond⟩

theorem Tick.seconds_eq (h : c.Tick d) : d.seconds = c.seconds + 1 := by
  unfold seconds
  cases h with
  | second hclock hdate hweekday hyearday =>
      rw [hdate, hclock.seconds_eq]
      omega
  | midnight hlast hfirst hdate hweekday hsame hnew =>
      have hday : Clock.lastSecond.seconds = 86399 ∧ Clock.midnight.seconds = 0 := ⟨rfl, rfl⟩
      rw [hlast, hfirst, hdate.days_eq, hday.1, hday.2]
      omega

/-- The weekday follows the days, from a Thursday on. -/
def WeekdayFits (c : Calendar) : Prop := c.weekday = (c.date.days + 4) % 7

theorem Tick.weekdayFits_iff (h : c.Tick d) : c.WeekdayFits ↔ d.WeekdayFits := by
  unfold WeekdayFits
  cases h with
  | second hclock hdate hweekday hyearday => rw [hdate, hweekday]
  | midnight hlast hfirst hdate hweekday hsame hnew =>
      rw [hdate.days_eq]
      omega

def YeardayFits (c : Calendar) : Prop := c.yearday = c.date.daysIntoYear

theorem Tick.yeardayFits_iff (h : c.Tick d) : c.YeardayFits ↔ d.YeardayFits := by
  unfold YeardayFits
  cases h with
  | second hclock hdate hweekday hyearday => rw [hdate, hyearday]
  | midnight hlast hfirst hdate hweekday hsame hnew =>
      rcases hdate.daysIntoYear_eq with ⟨hyear, hdays⟩ | ⟨hyear, hend, hstart⟩
      · have hnext := hsame hyear
        omega
      · have hlater : d.year = c.year + 1 := hyear
        obtain ⟨hlast, hfirst⟩ := hnew (by omega)
        change c.date.daysIntoYear + 1 = Date.yearLength c.year at hend
        omega

/-- The calendar shows the point in time. -/
structure Shows (c : Calendar) (timestamp : Int) : Prop where
  valid : c.Valid
  seconds : c.seconds = timestamp
  weekday : c.WeekdayFits
  yearday : c.YeardayFits

theorem Tick.shows_iff (h : c.Tick d) (timestamp : Int) : c.Shows timestamp ↔ d.Shows (timestamp + 1) := by
  have hseconds := h.seconds_eq
  constructor
  · intro hc
    refine ⟨h.valid_iff.1 hc.valid, ?_, h.weekdayFits_iff.1 hc.weekday, h.yeardayFits_iff.1 hc.yearday⟩
    rw [hseconds, hc.seconds]
  · intro hd
    refine ⟨h.valid_iff.2 hd.valid, ?_, h.weekdayFits_iff.2 hd.weekday, h.yeardayFits_iff.2 hd.yearday⟩
    have hnext := hd.seconds
    omega

theorem shows_epoch (hdate : c.date = ⟨1970, 1, 1⟩) (hclock : c.clock = .midnight)
    (hweekday : c.weekday = 4) (hyearday : c.yearday = 0) : c.Shows 0 := by
  refine ⟨⟨?_, ?_⟩, ?_, ?_, ?_⟩
  · rw [hdate]
    exact ⟨by decide, by decide⟩
  · exact hclock ▸ Clock.valid_midnight
  · unfold seconds
    rw [hdate, hclock]
    rfl
  · unfold WeekdayFits
    rw [hdate, hweekday]
    rfl
  · unfold YeardayFits
    rw [hdate, hyearday]
    rfl

/-! ### Breaking down -/

variable [DateTimes]

theorem ofTimestamp_eq {timestamp : Int} {i : DateTimes.Instant}
    (h : DateTimes.ofTimestamp? timestamp 0 = some i) :
    ofTimestamp timestamp =
      { year := DateTimes.year i
        month := DateTimes.month i
        day := DateTimes.day i
        weekday := DateTimes.daysFromSunday (DateTimes.weekday i)
        yearday := DateTimes.ordinal i
        hour := DateTimes.hour i
        minute := DateTimes.minute i
        second := DateTimes.second i } := by
  unfold ofTimestamp
  rw [h]
  rfl

variable (h : DateTimes.IsGregorian)
include h

theorem shows_ofTimestamp_zero : (ofTimestamp 0).Shows 0 := by
  obtain ⟨i, hi⟩ := h.inRange 0 (by decide)
  obtain ⟨hdate, hclock, hweekday, hyearday⟩ := h.epoch i hi
  rw [ofTimestamp_eq hi]
  exact shows_epoch hdate hclock hweekday hyearday

theorem tick_ofTimestamp {timestamp : Int} (hnow : IsTimestamp timestamp)
    (hnext : IsTimestamp (timestamp + 1)) : (ofTimestamp timestamp).Tick (ofTimestamp (timestamp + 1)) := by
  obtain ⟨i, hi⟩ := h.inRange timestamp hnow
  obtain ⟨j, hj⟩ := h.inRange (timestamp + 1) hnext
  have hij : DateTimes.Consecutive i j := ⟨timestamp, hi, hj⟩
  rw [ofTimestamp_eq hi, ofTimestamp_eq hj]
  rcases h.noLeapSecond i j hij with hclock | ⟨hlast, hfirst⟩
  · obtain ⟨hdate, hweekday, hyearday⟩ := h.sameDay i j hij hclock.ne_midnight
    exact .second hclock hdate (congrArg DateTimes.daysFromSunday hweekday) hyearday
  · obtain ⟨hsame, hnew⟩ := h.nextOrdinal i j hij hfirst
    exact .midnight hlast hfirst (h.nextDate i j hij hfirst) (h.nextWeekday i j hij hfirst) hsame hnew

theorem shows_succ_iff {timestamp : Int} (hnow : IsTimestamp timestamp)
    (hnext : IsTimestamp (timestamp + 1)) :
    (ofTimestamp timestamp).Shows timestamp ↔ (ofTimestamp (timestamp + 1)).Shows (timestamp + 1) :=
  (tick_ofTimestamp h hnow hnext).shows_iff timestamp

theorem shows_ofTimestamp {timestamp : Int} (hin : IsTimestamp timestamp) :
    (ofTimestamp timestamp).Shows timestamp := by
  have hzero : IsTimestamp 0 := by decide
  induction timestamp using Int.inductionOn' (b := 0) with
  | zero => exact shows_ofTimestamp_zero h
  | succ timestamp hle ih =>
      have hnow : IsTimestamp timestamp := hzero.of_between hin hle (Int.le_add_one le_rfl)
      exact (shows_succ_iff h hnow hin).1 (ih hnow)
  | pred timestamp hle ih =>
      have hnow : IsTimestamp timestamp := hin.of_between hzero (Int.sub_le_self _ (by decide)) hle
      have hstep := shows_succ_iff h hin (by rwa [Int.sub_add_cancel])
      rw [Int.sub_add_cancel] at hstep
      exact hstep.2 (ih hnow)

variable {earlier later : Int} (hearlier : IsTimestamp earlier) (hlater : IsTimestamp later)
include hearlier hlater

theorem fields_lt_of_lt (hlt : earlier < later) :
    (ofTimestamp earlier).fields < (ofTimestamp later).fields := by
  have hshows := shows_ofTimestamp h hearlier
  have hshows' := shows_ofTimestamp h hlater
  have hseconds := hshows.seconds
  have hseconds' := hshows'.seconds
  rcases lt_trichotomy (ofTimestamp earlier).fields (ofTimestamp later).fields with hlt | heq | hgt
  · exact hlt
  · have hsame := seconds_eq_of_fields_eq heq
    omega
  · have hless := seconds_lt_of_fields_lt hshows'.valid hshows.valid hgt
    omega

theorem year_le_of_le (hle : earlier ≤ later) :
    (ofTimestamp earlier).year ≤ (ofTimestamp later).year := by
  rcases hle.eq_or_lt with rfl | hlt
  · exact Int.le_refl _
  · have hfields := fields_lt_of_lt h hearlier hlater hlt
    simp only [fields, List.cons_lt_cons_iff] at hfields
    rcases hfields with hyear | ⟨hyear, -⟩
    · exact hyear.le
    · exact hyear.le

end Calendar

/-- The absent point in time comes after all others, so the earlier one is known if the later one is. -/
theorem Account.yearOf?_mono [DateTimes] (h : DateTimes.IsGregorian) {earlier later : Int}
    (hearlier : IsTimestamp earlier) (hlater : IsTimestamp later) (hle : earlier ≤ later)
    (hknown : later ≠ absentTimestamp) : ∃ year ∈ yearOf? earlier, ∃ year' ∈ yearOf? later, year ≤ year' := by
  have hknown' : earlier ≠ absentTimestamp := by
    intro habsent
    have hlast := hlater.2
    unfold absentTimestamp at *
    omega
  exact ⟨_, if_neg hknown', _, if_neg hknown, Calendar.year_le_of_le h hearlier hlater hle⟩

/-- **Dates are exact.** With a Gregorian library, a point in time is broken down into a date and a time of
day that exist, and of all that exist they alone give it back when days and seconds are counted. The day of
the year is the number of days since January 1st, and the weekday goes on by one each day from a Thursday.
Later points in time have larger fields, so the years of birth and of joining do not fall as the point in
time grows. -/
theorem Calendar.seconds_ofTimestamp [DateTimes] (h : DateTimes.IsGregorian) :
    (∀ timestamp : Int, IsTimestamp timestamp →
      let c := Calendar.ofTimestamp timestamp
      c.Valid ∧ c.seconds = timestamp ∧
        (∀ d : Calendar, d.Valid → (d.seconds = timestamp ↔ d.fields = c.fields)) ∧
        c.weekday = ((timestamp.fdiv 86400 + 4).fmod 7 : Int) ∧ c.yearday = c.date.daysIntoYear) ∧
      (∀ earlier later : Int, IsTimestamp earlier → IsTimestamp later → earlier < later →
        (Calendar.ofTimestamp earlier).fields < (Calendar.ofTimestamp later).fields) ∧
      (∀ a b : Account, IsTimestamp a.birth → IsTimestamp b.birth → a.birth ≤ b.birth →
        b.birth ≠ absentTimestamp → ∃ year ∈ a.birthYear?, ∃ year' ∈ b.birthYear?, year ≤ year') ∧
      (∀ a b : Account, IsTimestamp a.joined → IsTimestamp b.joined → a.joined ≤ b.joined →
        b.joined ≠ absentTimestamp → ∃ year ∈ a.joinedYear?, ∃ year' ∈ b.joinedYear?, year ≤ year') := by
  refine ⟨fun timestamp hin => ?_, fun _ _ => fields_lt_of_lt h, fun a b => Account.yearOf?_mono h,
    fun a b => Account.yearOf?_mono h⟩
  intro c
  have hshows : c.Shows timestamp := shows_ofTimestamp h hin
  refine ⟨hshows.valid, hshows.seconds, fun d hd => ⟨fun hsame => ?_, fun hsame => ?_⟩, ?_, hshows.yearday⟩
  · exact fields_eq_of_seconds_eq hd hshows.valid (hsame.trans hshows.seconds.symm)
  · exact (seconds_eq_of_fields_eq hsame).trans hshows.seconds
  · have hdays : timestamp.fdiv 86400 = c.date.days := by
      have hseconds := hshows.seconds
      have hclock := hshows.valid.clock.seconds_lt
      rw [Int.fdiv_eq_ediv_of_nonneg _ (by decide)]
      unfold seconds at hseconds
      omega
    rw [hdays, Int.fmod_eq_emod_of_nonneg _ (by decide)]
    exact hshows.weekday

/-- The leap day of the year 2000 with the library for programs that run, and two accounts that are born and
join on either side of 1970. -/
theorem Calendar.seconds_ofTimestamp_gregorian :
    let c := Calendar.ofTimestamp 951827696
    let a : Account := { birth := -1, joined := 951827695, arena := .withCapacity 0 }
    let b : Account := { birth := 951827696, joined := 951827696, arena := .withCapacity 0 }
    c = ⟨2000, 2, 29, 2, 59, 12, 34, 56⟩ ∧ c.seconds = 951827696 ∧
      (Calendar.ofTimestamp (-1)).fields < c.fields ∧
      (∃ year ∈ a.birthYear?, ∃ year' ∈ b.birthYear?, year ≤ year') ∧
      ∃ year ∈ a.joinedYear?, ∃ year' ∈ b.joinedYear?, year ≤ year' := by
  intro c a b
  obtain ⟨hexact, hfields, hbirth, hjoined⟩ := Calendar.seconds_ofTimestamp Gregorian.isGregorian
  have hbefore : IsTimestamp (-1) := by decide
  have hafter : IsTimestamp 951827696 := by decide
  refine ⟨by decide, (hexact _ hafter).2.1, hfields _ _ hbefore hafter (by decide), ?_, ?_⟩
  · exact hbirth a b hbefore hafter (by decide) (by decide)
  · exact hjoined a b (by decide) hafter (by decide) (by decide)

/-- The last second before 1970 was on a Wednesday. -/
example : Calendar.ofTimestamp (-1) = ⟨1969, 12, 31, 3, 364, 23, 59, 59⟩ := by decide

end Intake
