import Mathlib.Data.List.Lex
import Mathlib.Order.Monotone.Basic
import Mathlib.Tactic.IntervalCases
import Steppable.Calendar

/-!
# Counting days and naming them

A day has a number and a date, and two closed formulas lead from one to the other. A constant that
is off by one, or a division on the wrong side of zero, would show only at the end of a century, on
a leap day or before 1970.

**Days one by one** (`nextDate`). What the formulas are compared with is the calendar as it is
counted: the day after the last of a month is the first of the next month. The number of that day is
the next number (`dayNumber_nextDay`, `dayNumber_nextMonth`, `dayNumber_nextYear`), so every number
belongs to a date (`exists_date`), and the date of the next number is the next date
(`dateOfDay_succ`).

**Eras.** The way back from the number to the date is exact because the year of an era of 400 years
can be read off its day (`yearOfEra_eq`), and the month off the day of a year that begins in March
(`shifted_eq`).

**Theorem (`moments_exact`).** Milliseconds and moments determine each other, in the order of the
parts from the year down.
-/

namespace Steppable.Calendar

variable {year month day n y : Int}

/-- The date exists. -/
structure IsDate (year month day : Int) : Prop where
  month_pos : 1 ≤ month
  month_le : month ≤ 12
  day_pos : 1 ≤ day
  day_le : day ≤ daysInMonth year month

theorem isLeapYear_iff : isLeapYear y = true ↔ (y % 4 = 0 ∧ y % 100 ≠ 0) ∨ y % 400 = 0 := by
  simp [isLeapYear]

theorem daysInMonth_pos (year month : Int) : 1 ≤ daysInMonth year month := by
  unfold daysInMonth
  split <;> split <;> decide

/-! ## Years that begin in March -/

/-- The year of a date when years begin in March. -/
def marchYear (year month : Int) : Int :=
  if month ≤ 2 then year - 1 else year

/-- The days of such a year before a date. -/
def marchDay (month day : Int) : Int :=
  (153 * ((month + 9) % 12) + 2) / 5 + day - 1

/-- The day `n` of the year `y`, counted from the first day of the era, where `y` is counted as well.
-/
def eraDay (y n : Int) : Int :=
  y * 365 + y / 4 - y / 100 + n

/-- There is a day `n` in the year `y`, which begins in March: the leap day is its last one. -/
structure InYear (y n : Int) : Prop where
  nonneg : 0 ≤ n
  le : n ≤ 365
  leap : n = 365 → isLeapYear (y + 1) = true

theorem inYear_marchDay (h : IsDate year month day) :
    InYear (marchYear year month) (marchDay month day) := by
  obtain ⟨h₁, h₂, h₃, h₄⟩ := h
  unfold daysInMonth at h₄
  unfold marchYear marchDay
  interval_cases month <;> refine ⟨?_, ?_, ?_⟩ <;> simp at h₄ ⊢ <;> grind

theorem InYear.emod (h : InYear y n) : InYear (y % 400) n := by
  refine ⟨h.nonneg, h.le, fun hn => ?_⟩
  have hleap := h.leap hn
  rw [isLeapYear_iff] at hleap ⊢
  omega

/-- Shifted months have 31, 30, 31, 30, 31 days in turn, so that the month of a day is a division. -/
theorem shifted_eq (h : IsDate year month day) :
    (5 * marchDay month day + 2) / 153 = (month + 9) % 12 := by
  obtain ⟨h₁, h₂, h₃, h₄⟩ := h
  have hlen : day ≤ 31 ∧ (month = 2 → day ≤ 29) ∧ (month ∈ [4, 6, 9, 11] → day ≤ 30) := by
    unfold daysInMonth at h₄
    grind
  clear h₄
  unfold marchDay
  interval_cases month <;> simp at hlen <;> omega

theorem eraDay_bounds (h₀ : 0 ≤ y) (h₁ : y < 400) (h : InYear y n) :
    0 ≤ eraDay y n ∧ eraDay y n < 146097 := by
  obtain ⟨h₂, h₃, h₄⟩ := h
  rw [isLeapYear_iff] at h₄
  unfold eraDay
  omega

/-- The year of a day of an era. -/
theorem yearOfEra_eq (h₀ : 0 ≤ y) (h₁ : y < 400) (h : InYear y n) :
    (eraDay y n - eraDay y n / 1460 + eraDay y n / 36524 - eraDay y n / 146096) / 365 = y := by
  obtain ⟨h₂, h₃, h₄⟩ := h
  rw [isLeapYear_iff] at h₄
  -- Centuries, spans of four years and years: `y = 100 c + 4 q + t`.
  obtain ⟨c, q, t, hc, hq, ht, rfl⟩ : ∃ c q t : Int,
      (0 ≤ c ∧ c ≤ 3) ∧ (0 ≤ q ∧ q ≤ 24) ∧ (0 ≤ t ∧ t ≤ 3) ∧ y = 100 * c + 4 * q + t :=
    ⟨y / 100, y % 100 / 4, y % 4, by omega, by omega, by omega, by omega⟩
  have hlast : n = 365 → t = 3 ∧ (q = 24 → c = 3) := by omega
  have hsum : eraDay (100 * c + 4 * q + t) n = 36524 * c + 1461 * q + 365 * t + n := by
    unfold eraDay
    omega
  rw [hsum]
  clear h₀ h₁ h₄ hsum
  generalize hd : 36524 * c + 1461 * q + 365 * t + n = d
  have hcentury : 1461 * q + 365 * t + n < 36524 ∨ (1461 * q + 365 * t + n = 36524 ∧ c = 3) := by
    omega
  have hc' : d / 36524 - d / 146096 = c := by
    rcases hcentury with hlt | ⟨heq, rfl⟩
    · have h₁ : d / 36524 = c := by omega
      have h₂ : d / 146096 = 0 := by omega
      omega
    · omega
  -- One leap day too many is taken off at the end of a span of four years.
  obtain ⟨e, he, hn⟩ : ∃ e, d / 1460 = 25 * c + q + e ∧ 0 ≤ n - e ∧ n - e ≤ 364 :=
    ⟨d / 1460 - 25 * c - q, by omega, by omega, by omega⟩
  -- from here on the three quotients are numbers like any other
  generalize d / 36524 = centuries, d / 146096 = eras, d / 1460 = spans at hc' he ⊢
  clear hcentury hlast
  omega

/-! ## Dates and days -/

theorem dayNumber_eq (year month day : Int) : dayNumber year month day =
    marchYear year month / 400 * 146097 +
      eraDay (marchYear year month % 400) (marchDay month day) - 719468 := by
  have h : marchYear year month - marchYear year month / 400 * 400 = marchYear year month % 400 := by
    omega
  simp only [dayNumber, eraDay, marchDay, ← h]
  rfl

theorem dateOfDay_dayNumber (h : IsDate year month day) :
    dateOfDay (dayNumber year month day) = (year, month, day) := by
  have hn := inYear_marchDay h
  have hs := shifted_eq h
  have h₁ := h.month_pos
  have h₂ := h.month_le
  have hz := dayNumber_eq year month day
  have hy : marchYear year month = if month ≤ 2 then year - 1 else year := rfl
  have hd : marchDay month day = (153 * ((month + 9) % 12) + 2) / 5 + day - 1 := rfl
  generalize marchYear year month = y at *
  generalize marchDay month day = n at *
  have hy₀ := Int.emod_nonneg y (show (400 : Int) ≠ 0 by decide)
  have hy₁ := Int.emod_lt_of_pos y (show (0 : Int) < 400 by decide)
  obtain ⟨hb₀, hb₁⟩ := eraDay_bounds hy₀ hy₁ hn.emod
  have hera : (dayNumber year month day + 719468) / 146097 = y / 400 := by omega
  have hday : dayNumber year month day + 719468 - y / 400 * 146097 = eraDay (y % 400) n := by omega
  have hrest : eraDay (y % 400) n - (365 * (y % 400) + y % 400 / 4 - y % 400 / 100) = n := by
    unfold eraDay
    omega
  have hyear : y % 400 + y / 400 * 400 = y := by omega
  have hmonth : (if (month + 9) % 12 < 10 then (month + 9) % 12 + 3 else (month + 9) % 12 - 9) =
      month := by
    split <;> omega
  have hback : n - (153 * ((month + 9) % 12) + 2) / 5 + 1 = day := by omega
  have hcal : (if month ≤ 2 then y + 1 else y) = year := by
    rw [hy]
    split <;> omega
  simp only [dateOfDay, hera, hday, yearOfEra_eq hy₀ hy₁ hn.emod, hrest, hs, hyear, hmonth, hback,
    hcal]

/-! ## One day after the other -/

/-- The number of a day without eras. -/
theorem dayNumber_linear (year month day : Int) : dayNumber year month day =
    365 * marchYear year month + marchYear year month / 4 - marchYear year month / 100 +
      marchYear year month / 400 + marchDay month day - 719468 := by
  rw [dayNumber_eq, eraDay]
  omega

theorem dayNumber_nextDay : dayNumber year month (day + 1) = dayNumber year month day + 1 := by
  simp only [dayNumber_linear, marchDay]
  omega

theorem dayNumber_nextMonth (h₁ : 1 ≤ month) (h₂ : month < 12) :
    dayNumber year (month + 1) 1 = dayNumber year month (daysInMonth year month) + 1 := by
  have hleap := isLeapYear_iff (y := year)
  simp only [dayNumber_linear, marchDay, marchYear, daysInMonth]
  interval_cases month <;> simp <;> grind

theorem dayNumber_nextYear : dayNumber (year + 1) 1 1 = dayNumber year 12 31 + 1 := by
  simp [dayNumber_linear, marchDay, marchYear]
  omega

/-- The date after a date. -/
def nextDate : Int × Int × Int → Int × Int × Int
  | (year, month, day) =>
    if day < daysInMonth year month then (year, month, day + 1)
    else if month < 12 then (year, month + 1, 1)
    else (year + 1, 1, 1)

/-- The date after a date exists and has the next number. -/
theorem nextDate_spec (h : IsDate year month day) :
    ∃ year' month' day', nextDate (year, month, day) = (year', month', day') ∧
      IsDate year' month' day' ∧ dayNumber year' month' day' = dayNumber year month day + 1 := by
  obtain ⟨h₁, h₂, h₃, h₄⟩ := h
  by_cases hd : day < daysInMonth year month
  · exact ⟨year, month, day + 1, if_pos hd, ⟨h₁, h₂, by omega, by omega⟩, dayNumber_nextDay⟩
  · obtain rfl : day = daysInMonth year month := by omega
    by_cases hm : month < 12
    · exact ⟨year, month + 1, 1, by simp [nextDate, hm],
        ⟨by omega, by omega, by decide, daysInMonth_pos ..⟩, dayNumber_nextMonth h₁ hm⟩
    · obtain rfl : month = 12 := by omega
      exact ⟨year + 1, 1, 1, by simp [nextDate],
        ⟨by decide, by decide, by decide, daysInMonth_pos ..⟩, dayNumber_nextYear⟩

/-- Before every date there is one with the number before. -/
theorem exists_previous (h : IsDate year month day) : ∃ year' month' day',
    IsDate year' month' day' ∧ dayNumber year' month' day' + 1 = dayNumber year month day := by
  obtain ⟨h₁, h₂, h₃, h₄⟩ := h
  by_cases hd : day = 1
  · subst hd
    by_cases hm : month = 1
    · subst hm
      refine ⟨year - 1, 12, 31, ⟨by decide, by decide, by decide, by simp [daysInMonth]⟩, ?_⟩
      rw [← dayNumber_nextYear, Int.sub_add_cancel]
    · have hpos := daysInMonth_pos year (month - 1)
      refine ⟨year, month - 1, _, ⟨by omega, by omega, hpos, Int.le_refl _⟩, ?_⟩
      rw [← dayNumber_nextMonth (by omega) (by omega), Int.sub_add_cancel]
  · refine ⟨year, month, day - 1, ⟨h₁, h₂, by omega, by omega⟩, ?_⟩
    rw [← dayNumber_nextDay, Int.sub_add_cancel]

/-- Every number belongs to a date: from the first day of 1970 one can count up and down. -/
theorem exists_date (z : Int) :
    ∃ year month day, IsDate year month day ∧ dayNumber year month day = z := by
  induction z using Int.induction_on with
  | zero => exact ⟨1970, 1, 1, ⟨by decide, by decide, by decide, by decide⟩, by decide⟩
  | succ z ih =>
    obtain ⟨year, month, day, h, hz⟩ := ih
    obtain ⟨year', month', day', -, h', hz'⟩ := nextDate_spec h
    exact ⟨year', month', day', h', by omega⟩
  | pred z ih =>
    obtain ⟨year, month, day, h, hz⟩ := ih
    obtain ⟨year', month', day', h', hz'⟩ := exists_previous h
    exact ⟨year', month', day', h', by omega⟩

/-- The date of every number exists and has this number. -/
theorem dateOfDay_spec (z : Int) : ∃ year month day, dateOfDay z = (year, month, day) ∧
    IsDate year month day ∧ dayNumber year month day = z := by
  obtain ⟨year, month, day, h, rfl⟩ := exists_date z
  exact ⟨year, month, day, dateOfDay_dayNumber h, h, rfl⟩

/-- **The formulas count days one by one.** -/
theorem dateOfDay_succ (z : Int) : dateOfDay (z + 1) = nextDate (dateOfDay z) := by
  obtain ⟨year, month, day, hz, h, rfl⟩ := dateOfDay_spec z
  obtain ⟨year', month', day', hnext, h', hz'⟩ := nextDate_spec h
  rw [hz, hnext, ← hz', dateOfDay_dayNumber h']

/-! ## Moments -/

namespace Moment

variable {p q : Moment} {ms : Int}

/-- The moment exists: its date does, and its time of day. -/
structure IsMoment (p : Moment) : Prop where
  date : IsDate p.year p.month p.day
  hour : 0 ≤ p.hour ∧ p.hour ≤ 23
  minute : 0 ≤ p.minute ∧ p.minute ≤ 59
  second : 0 ≤ p.second ∧ p.second ≤ 59
  millis : 0 ≤ p.millis ∧ p.millis ≤ 999

theorem isValid_iff : p.isValid = true ↔ (1 ≤ p.year ∧ p.year ≤ 9999) ∧ p.IsMoment := by
  constructor
  · intro h
    simp only [isValid, Bool.and_eq_true, decide_eq_true_eq] at h
    refine ⟨by omega, ⟨?_, ?_, ?_, ?_⟩, ?_, ?_, ?_, ?_⟩ <;> omega
  · rintro ⟨hy, ⟨h₁, h₂, h₃, h₄⟩, h₅, h₆, h₇, h₈⟩
    simp only [isValid, Bool.and_eq_true, decide_eq_true_eq]
    omega

theorem timeOfDay_bounds (h : p.IsMoment) : 0 ≤ p.timeOfDay ∧ p.timeOfDay < millisPerDay := by
  obtain ⟨-, h₁, h₂, h₃, h₄⟩ := h
  unfold timeOfDay millisPerDay
  omega

/-- The moment of every number of milliseconds exists and has this number. -/
theorem ofMillis_spec (ms : Int) : (ofMillis ms).IsMoment ∧ (ofMillis ms).toMillis = ms := by
  obtain ⟨year, month, day, hz, hdate, hday⟩ := dateOfDay_spec (ms / millisPerDay)
  have hmoment : ofMillis ms =
      { year, month, day
        hour := ms % millisPerDay / 3600000
        minute := ms % millisPerDay / 60000 % 60
        second := ms % millisPerDay / 1000 % 60
        millis := ms % millisPerDay % 1000 } := by
    rw [ofMillis, hz]
  rw [hmoment]
  constructor
  · refine ⟨hdate, ?_, ?_, ?_, ?_⟩ <;> dsimp only [millisPerDay] <;> omega
  · simp only [toMillis, timeOfDay, hday, millisPerDay]
    omega

theorem ofMillis_toMillis (h : p.IsMoment) : ofMillis p.toMillis = p := by
  obtain ⟨ht₀, ht₁⟩ := timeOfDay_bounds h
  have hday : p.toMillis / millisPerDay = dayNumber p.year p.month p.day := by
    unfold toMillis millisPerDay at *
    omega
  have hrest : p.toMillis % millisPerDay = p.timeOfDay := by
    unfold toMillis millisPerDay at *
    omega
  obtain ⟨hdate, h₁, h₂, h₃, h₄⟩ := h
  have hhour : p.timeOfDay / 3600000 = p.hour := by unfold timeOfDay; omega
  have hminute : p.timeOfDay / 60000 % 60 = p.minute := by unfold timeOfDay; omega
  have hsecond : p.timeOfDay / 1000 % 60 = p.second := by unfold timeOfDay; omega
  have hmillis : p.timeOfDay % 1000 = p.millis := by unfold timeOfDay; omega
  rw [ofMillis, hday, hrest, dateOfDay_dayNumber hdate, hhour, hminute, hsecond, hmillis]

/-- The moments that exist are those of the numbers. -/
theorem isMoment_iff : p.IsMoment ↔ ∃ ms, ofMillis ms = p :=
  ⟨fun h => ⟨_, ofMillis_toMillis h⟩, fun ⟨ms, h⟩ => h ▸ (ofMillis_spec ms).1⟩

/-! ## The order of moments -/

theorem lt_nextDate (year month day : Int) (rest rest' : List Int) :
    year :: month :: day :: rest < (nextDate (year, month, day)).1 ::
      (nextDate (year, month, day)).2.1 :: (nextDate (year, month, day)).2.2 :: rest' := by
  by_cases hd : day < daysInMonth year month
  · simp [nextDate, hd, List.cons_lt_cons_iff]
  · by_cases hm : month < 12 <;> simp [nextDate, hd, hm, List.cons_lt_cons_iff]

theorem parts_lt_succ (ms : Int) : (ofMillis ms).parts < (ofMillis (ms + 1)).parts := by
  by_cases h : ms % millisPerDay + 1 < millisPerDay
  · have hday : (ms + 1) / millisPerDay = ms / millisPerDay := by
      unfold millisPerDay at *
      omega
    have hrest : (ms + 1) % millisPerDay = ms % millisPerDay + 1 := by
      unfold millisPerDay at *
      omega
    simp only [parts, ofMillis, hday, hrest, List.cons_lt_cons_iff, lt_irrefl, false_or, true_and]
    omega
  · have hday : (ms + 1) / millisPerDay = ms / millisPerDay + 1 := by
      unfold millisPerDay at *
      omega
    simp only [parts, ofMillis, hday, dateOfDay_succ]
    exact lt_nextDate ..

/-- Later moments come later in the order of their parts. -/
theorem parts_lt_iff (a b : Int) : (ofMillis a).parts < (ofMillis b).parts ↔ a < b :=
  (strictMono_int_of_lt_succ parts_lt_succ).lt_iff_lt

theorem toMillis?_isSome_iff : p.toMillis?.isSome ↔ p.isValid = true := by
  unfold toMillis?
  split <;> simp [*]

theorem ofMillis_toMillis? (h : p.toMillis? = some ms) : ofMillis ms = p := by
  have hv := toMillis?_isSome_iff.1 (Option.isSome_of_eq_some h)
  obtain rfl : p.toMillis = ms := by simpa [toMillis?, hv] using h
  exact ofMillis_toMillis (isValid_iff.1 hv).2

end Moment

theorem weekday_lt (ms : Int) : weekday ms < dayNames.length := by
  unfold weekday
  have : dayNames.length = 7 := rfl
  omega

open Moment in
/-- **Milliseconds and moments determine each other.** -/
theorem moments_exact :
    (∀ ms, (ofMillis ms).IsMoment ∧
      dayNumber (ofMillis ms).year (ofMillis ms).month (ofMillis ms).day * 86400000 +
        (ofMillis ms).timeOfDay = ms ∧
      weekday ms < dayNames.length ∧ ((ofMillis ms).month - 1).toNat < monthNames.length) ∧
    (∀ (p : Moment) ms, p.toMillis? = some ms → ofMillis ms = p) ∧
    (∀ p : Moment, p.toMillis?.isSome ↔
      (1 ≤ p.year ∧ p.year ≤ 9999) ∧ ∃ ms, ofMillis ms = p) ∧
    ∀ (p q : Moment) (a b : Int), p.toMillis? = some a → q.toMillis? = some b →
      (p.parts < q.parts ↔ a < b) := by
  refine ⟨fun ms => ?_, fun p ms h => ofMillis_toMillis? h, fun p => ?_, fun p q a b ha hb => ?_⟩
  · obtain ⟨hm, hms⟩ := ofMillis_spec ms
    have hlen : monthNames.length = 12 := rfl
    have := hm.date.month_le
    exact ⟨hm, hms, weekday_lt ms, by omega⟩
  · rw [toMillis?_isSome_iff, isValid_iff, isMoment_iff]
  · rw [← ofMillis_toMillis? ha, ← ofMillis_toMillis? hb]
    exact parts_lt_iff a b

/-- The last moment of a leap day and the first one after it. -/
theorem moments_exact_leap_day :
    let p : Moment := ⟨2012, 2, 29, 23, 59, 59, 999⟩
    let q : Moment := ⟨2012, 3, 1, 0, 0, 0, 0⟩
    p.toMillis? = some 1330559999999 ∧ q.toMillis? = some 1330560000000 ∧
      Moment.ofMillis 1330559999999 = p ∧
      (p.parts < q.parts ↔ (1330559999999 : Int) < 1330560000000) := by
  intro p q
  have hp : p.toMillis? = some 1330559999999 := by decide
  have hq : q.toMillis? = some 1330560000000 := by decide
  exact ⟨hp, hq, moments_exact.2.1 p _ hp, moments_exact.2.2.2 p q _ _ hp hq⟩

end Steppable.Calendar
