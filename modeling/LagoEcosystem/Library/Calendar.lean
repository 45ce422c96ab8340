import Mathlib.Data.Int.Notation
import Mathlib.Order.Basic
import Mathlib.Tactic.Set

/-!
# Civil time

`timegm` and `gmtime` of the C library, over any calendar that numbers the days and names
them by year, month and day consistently. The time of day is what every such calendar
shares: days of 86400 seconds, without leap seconds. Months count from zero and years
from 1900, as in `struct tm`.
-/

namespace LagoEcosystem.CivilTime

/-- `struct tm`, without the fields that `timegm` ignores. -/
structure Tm where
  sec : ℤ
  min : ℤ
  hour : ℤ
  mday : ℤ
  mon : ℤ
  year : ℤ
  deriving DecidableEq

/-- The number of days from the epoch to the first of a month, and the year, month and day
of a day. -/
structure Calendar where
  firstOf : ℤ → ℤ → ℤ
  yearOf : ℤ → ℤ
  monOf : ℤ → ℤ
  mdayOf : ℤ → ℤ
  firstOf_add (day : ℤ) : firstOf (yearOf day) (monOf day) + (mdayOf day - 1) = day

namespace Calendar

variable (cal : Calendar)

/-- `timegm`, which accepts fields outside their ranges. -/
def timegm (tm : Tm) : ℤ :=
  (cal.firstOf tm.year tm.mon + (tm.mday - 1)) * 86400 + tm.hour * 3600 + tm.min * 60 + tm.sec

/-- `gmtime`. -/
def gmtime (t : ℤ) : Tm where
  sec := t % 60
  min := t / 60 % 60
  hour := t / 3600 % 24
  mday := cal.mdayOf (t / 86400)
  mon := cal.monOf (t / 86400)
  year := cal.yearOf (t / 86400)

/-- The day that a date names, also when its day of the month is out of range. -/
def dayOf (tm : Tm) : ℤ := cal.firstOf tm.year tm.mon + (tm.mday - 1)

theorem timegm_eq (tm : Tm) :
    cal.timegm tm = cal.dayOf tm * 86400 + tm.hour * 3600 + tm.min * 60 + tm.sec := rfl

@[simp] theorem dayOf_gmtime (t : ℤ) : cal.dayOf (cal.gmtime t) = t / 86400 :=
  cal.firstOf_add (t / 86400)

@[simp] theorem timegm_gmtime (t : ℤ) : cal.timegm (cal.gmtime t) = t := by
  simp only [timegm, gmtime, cal.firstOf_add]
  omega

/-- Hours, minutes and seconds are carried over into the date. -/
theorem gmtime_timegm_timeOfDay (tm : Tm) :
    (cal.gmtime (cal.timegm tm)).hour = (tm.hour * 3600 + tm.min * 60 + tm.sec) / 3600 % 24 ∧
      (cal.gmtime (cal.timegm tm)).min = (tm.hour * 3600 + tm.min * 60 + tm.sec) / 60 % 60 ∧
      (cal.gmtime (cal.timegm tm)).sec = (tm.hour * 3600 + tm.min * 60 + tm.sec) % 60 := by
  simp only [gmtime, timegm]
  refine ⟨?_, ?_, ?_⟩ <;> omega

end Calendar

/-! ## The Gregorian calendar -/

/-- A day in years that begin in March. Such a year has a place in a cycle of 400 years. -/
structure MarchDay where
  cycle : ℤ
  century : ℤ
  quad : ℤ
  year : ℤ
  day : ℤ

/-- The epoch, counted from the first day of year zero. -/
def epochDay : ℤ := 719468

def marchDay (day : ℤ) : MarchDay :=
  let dayOfCycle := (day + epochDay) % 146097
  let century := min (dayOfCycle / 36524) 3
  let dayOfCentury := dayOfCycle - century * 36524
  let quad := dayOfCentury / 1461
  let dayOfQuad := dayOfCentury - quad * 1461
  let year := min (dayOfQuad / 365) 3
  ⟨(day + epochDay) / 146097, century, quad, year, dayOfQuad - year * 365⟩

/-- March is month zero. -/
def MarchDay.month (d : MarchDay) : ℤ := (5 * d.day + 2) / 153

theorem marchDay_sum (day : ℤ) :
    day + epochDay = (marchDay day).cycle * 146097 + (marchDay day).century * 36524 +
      (marchDay day).quad * 1461 + (marchDay day).year * 365 + (marchDay day).day := by
  simp only [marchDay]
  omega

theorem marchDay_bounds (day : ℤ) :
    (0 ≤ (marchDay day).century ∧ (marchDay day).century ≤ 3) ∧
      (0 ≤ (marchDay day).quad ∧ (marchDay day).quad ≤ 24) ∧
      (0 ≤ (marchDay day).year ∧ (marchDay day).year ≤ 3) ∧
      (0 ≤ (marchDay day).month ∧ (marchDay day).month ≤ 11) := by
  simp only [marchDay, MarchDay.month]
  omega

/-- The Gregorian calendar. -/
def gregorian : Calendar where
  firstOf year mon :=
    let march := (mon + 10) % 12
    let y := year + 1900 + mon / 12 - (if 10 ≤ march then 1 else 0)
    y / 400 * 146097 + (y % 400 * 365 + y % 400 / 4 - y % 400 / 100) +
      (153 * march + 2) / 5 - epochDay
  yearOf day :=
    let d := marchDay day
    d.cycle * 400 + d.century * 100 + d.quad * 4 + d.year + (if 10 ≤ d.month then 1 else 0) - 1900
  monOf day := ((marchDay day).month + 2) % 12
  mdayOf day := (marchDay day).day - (153 * (marchDay day).month + 2) / 5 + 1
  firstOf_add day := by
    have hsum := marchDay_sum day
    obtain ⟨hcentury, hquad, hyear, hmonth⟩ := marchDay_bounds day
    set d := marchDay day
    set m := d.month
    have hmarch : ((m + 2) % 12 + 10) % 12 = m := by omega
    have hcarry : (m + 2) % 12 / 12 = 0 := by omega
    have hy : d.cycle * 400 + d.century * 100 + d.quad * 4 + d.year + (if 10 ≤ m then 1 else 0) -
        1900 + 1900 + 0 - (if 10 ≤ m then 1 else 0) =
        d.cycle * 400 + (d.century * 100 + d.quad * 4 + d.year) := by omega
    simp only [hmarch, hcarry]
    rw [hy]
    omega

/-- A leap day. -/
example : gregorian.gmtime 951782400 = ⟨0, 0, 0, 29, 1, 100⟩ := by decide +kernel

end LagoEcosystem.CivilTime
