import Mathlib.Tactic.IntervalCases
import Vlibc.Foundations.Gregorian

/-!
# Calendar time

The conversions of `time_r.c` and `time_conv.c`. `timegm` counts the days of the years and of the
months up to a date (`timegm_seconds`), and `convert_tm` takes years and months off a number of days
(`convertTm_seconds`). Before 1970 the loop of `timegm` over the years does not run.
-/

namespace Vlibc.Time

open Gregorian

/-- `struct tm`. -/
structure Tm where
  sec : ℤ
  min : ℤ
  hour : ℤ
  mday : ℤ
  mon : ℤ
  year : ℤ
  wday : ℤ
  yday : ℤ
  isdst : ℤ
  deriving DecidableEq

/-- A value that is converted to `int`. -/
def toInt (x : ℤ) : ℤ := x.bmod (2 ^ 32)

/-- `is_leap`. -/
def isLeap (year : ℤ) : Bool :=
  if year.tmod 4 ≠ 0 then false
  else if year.tmod 100 ≠ 0 then true
  else year.tmod 400 = 0

/-- The table of the lengths of months. -/
def daysPerMonth (leap : Bool) : List ℤ :=
  if leap then [31, 29, 31, 30, 31, 30, 31, 31, 30, 31, 30, 31]
  else [31, 28, 31, 30, 31, 30, 31, 31, 30, 31, 30, 31]

/-- The days of a year, in the loops over the years. -/
def ydays (year : ℤ) : ℤ := if isLeap year then 366 else 365

/-- `ml[m]`. -/
def monthDays (year m : ℤ) : ℤ := (daysPerMonth (isLeap year)).getD m.toNat 0

/-- `convert_tm`. -/
def convertTm (t : ℤ) : Tm :=
  let t := if t < 0 then 0 else t
  let sec := t.tmod 60
  let t := t.tdiv 60
  let min := t.tmod 60
  let t := t.tdiv 60
  let hour := t.tmod 24
  let t := t.tdiv 24
  let days := toInt t
  let wday := (toInt (days + 4)).tmod 7
  let (year, yday) := takeOff ydays (days.toNat + 1) 1970 days
  let (mon, days) := takeOff (monthDays year) 12 0 yday
  { sec, min, hour, mday := days + 1, mon, year := year - 1900, wday, yday, isdst := 0 }

/-- `gmtime_r`. -/
def gmtimeR (t : ℤ) : Tm := convertTm t

/-- `localtime_r`; `tzoff` is `__vlibc_tzoff`, which `tzset` sets. -/
def localtimeR (tzoff t : ℤ) : Tm := convertTm (t + tzoff)

/-- The days that `mktime` and `timegm` count. -/
def days (tm : Tm) : ℤ :=
  let year := tm.year + 1900
  let days := (List.range (year - 1970).toNat).foldl (fun days (y : ℕ) => days + ydays (1970 + y)) 0
  let days := (List.range tm.mon.toNat).foldl (fun days (m : ℕ) => days + monthDays year (0 + m)) days
  days + (tm.mday - 1)

/-- What `mktime` and `timegm` leave in the structure. -/
def completed (tm : Tm) : Tm :=
  { tm with yday := toInt (days tm), wday := toInt ((days tm + 4).tmod 7), isdst := 0 }

/-- `timegm`: what it returns, and the structure. -/
def timegm (tm : Tm) : ℤ × Tm :=
  (days tm * 86400 + tm.hour * 3600 + tm.min * 60 + tm.sec, completed tm)

/-- `mktime`, with the offset that `tzset` has found. -/
def mktime (tzoff : ℤ) (tm : Tm) : ℤ × Tm :=
  (days tm * 86400 + tm.hour * 3600 + tm.min * 60 + tm.sec - tzoff, completed tm)

theorem toInt_eq {x : ℤ} (h : -2 ^ 31 ≤ x) (h' : x < 2 ^ 31) : toInt x = x := by
  rw [toInt, Int.bmod_eq_of_le_mul_two] <;> omega

theorem isLeap_iff (y : ℤ) : isLeap y = true ↔ Leap y := by
  simp only [isLeap, Leap, Int.tmod_eq_emod]
  split_ifs <;> simp <;> omega

theorem ydays_eq : ydays = yearLength := by
  funext y
  simp only [ydays, yearLength, isLeap_iff]

theorem monthDays_eq {m : ℕ} (h : m < 12) (y : ℤ) : monthDays y (0 + m) = monthLength y m := by
  by_cases hl : Leap y
  · have hleap := (isLeap_iff y).2 hl
    interval_cases m <;> simp [monthDays, daysPerMonth, monthLength, hleap, hl]
  · have hleap := Bool.eq_false_of_not_eq_true (mt (isLeap_iff y).1 hl)
    interval_cases m <;> simp [monthDays, daysPerMonth, monthLength, hleap, hl]

theorem covered_monthDays {m : ℕ} (h : m ≤ 12) (y : ℤ) :
    covered (monthDays y) 0 m = covered (monthLength y) 0 m := by
  induction m with
  | zero => rfl
  | succ m ih =>
    rw [covered_succ, covered_succ, ih (Nat.le_of_succ_le h), monthDays_eq h, zero_add]

/-- The fields of a date and a time, other than those that follow from the date. -/
structure Shows (tm : Tm) (d : DateTime) : Prop where
  sec : tm.sec = d.second
  min : tm.min = d.minute
  hour : tm.hour = d.hour
  mday : tm.mday = d.day
  mon : tm.mon = d.month
  year : tm.year = d.year - 1900

/-- The number of days before 1970. -/
def epoch : ℤ := yearStart 1970

variable {tm : Tm} {d : DateTime}

theorem days_eq_covered (h : Shows tm d) :
    days tm = covered yearLength 1970 (d.year - 1970).toNat + d.dayOfYear := by
  have hyear : tm.year + 1900 = d.year := by
    rw [h.year]
    ring
  have hmon : tm.mon.toNat = d.month := by
    rw [h.mon]
    rfl
  simp only [days, foldl_range_eq_covered, hyear, hmon, h.mday, Date.dayOfYear]
  rw [zero_add, ydays_eq, covered_monthDays d.month_lt.le, add_assoc]

/-- **The days that are counted**: those from 1970 to the year, if it is later, and those of the
year. -/
theorem days_eq (h : Shows tm d) :
    days tm = max 0 (yearStart d.year - epoch) + d.dayOfYear := by
  rw [days_eq_covered h, covered_yearLength]
  congr 1
  obtain hearly | hlate := le_total d.year 1970
  · have hstart : yearStart d.year ≤ epoch := yearStart_le hearly
    rw [Int.toNat_of_nonpos (by omega), max_eq_left (by omega)]
    simp
  · have hstart : epoch ≤ yearStart d.year := yearStart_le hlate
    rw [max_eq_right (by omega), epoch, Int.toNat_of_nonneg (by omega), add_sub_cancel]

theorem timegm_eq (h : Shows tm d) : (timegm tm).1 = days tm * 86400 + d.secondOfDay := by
  rw [timegm, DateTime.secondOfDay, h.hour, h.min, h.sec]
  ring

/-- **`timegm`** counts the seconds of a date from 1970 on. -/
theorem timegm_seconds (h : Shows tm d) (hyear : 1970 ≤ d.year) :
    (timegm tm).1 = d.seconds - epoch * 86400 := by
  have hstart : epoch ≤ yearStart d.year := yearStart_le hyear
  rw [timegm_eq h, days_eq h, max_eq_right (by omega), DateTime.seconds, Date.dayNumber]
  ring

/-! ## From seconds to the date -/

theorem tmod_tdiv {q r b : ℤ} (hq : 0 ≤ q) (hr : 0 ≤ r) (hlt : r < b) :
    (q * b + r).tmod b = r ∧ (q * b + r).tdiv b = q := by
  have hb : 0 < b := hr.trans_lt hlt
  have hpos : 0 ≤ q * b + r := Int.add_nonneg (Int.mul_nonneg hq hb.le) hr
  rw [Int.tmod_eq_emod_of_nonneg hpos, Int.tdiv_eq_ediv_of_nonneg hpos, add_comm,
    Int.add_mul_emod_self_right, Int.emod_eq_of_lt hr hlt, Int.add_mul_ediv_right r q hb.ne',
    Int.ediv_eq_zero_of_lt hr hlt, zero_add]
  exact ⟨rfl, rfl⟩

theorem takeOff_ydays (d : Date) (hyear : 1970 ≤ d.year) :
    takeOff ydays ((d.dayNumber - epoch).toNat + 1) 1970 (d.dayNumber - epoch) =
      (d.year, d.dayOfYear) := by
  obtain ⟨k, hk⟩ : ∃ k : ℕ, d.year = 1970 + k := ⟨(d.year - 1970).toNat, by omega⟩
  have hpos (y : ℤ) : (1 : ℤ) ≤ yearLength y := by
    have := yearLength_pos y
    omega
  have hcovered : d.dayNumber - epoch = covered yearLength 1970 k + d.dayOfYear := by
    rw [covered_yearLength, ← hk, Date.dayNumber, epoch]
    ring
  have hle := le_covered fun j (_ : j < k) => hpos (1970 + j)
  have hday := d.dayOfYear_nonneg
  have hlt := d.dayOfYear_lt
  rw [hk] at hlt ⊢
  rw [ydays_eq]
  exact takeOff_eq (fun j _ => (hpos _).trans' zero_le_one) hcovered hday hlt (by omega)

theorem takeOff_monthDays (d : Date) :
    takeOff (monthDays d.year) 12 0 d.dayOfYear = ((d.month : ℤ), d.day - 1) := by
  have hm := d.month_lt
  have hday_pos := d.day_pos
  have hday_le := d.day_le
  have hlen : ∀ j < d.month, 0 ≤ monthDays d.year (0 + j) := fun j hj => by
    have := monthLength_pos d.year j
    rw [monthDays_eq (hj.trans hm)]
    omega
  have hcovered : d.dayOfYear = covered (monthDays d.year) 0 d.month + (d.day - 1) := by
    rw [covered_monthDays hm.le, Date.dayOfYear]
  have h := takeOff_eq hlen hcovered (by omega) (by rw [monthDays_eq hm]; omega) hm
  rwa [zero_add] at h

/-- **`convert_tm`** finds the date, and completes the fields. -/
theorem convertTm_seconds (d : DateTime) (hyear : 1970 ≤ d.year)
    (hlast : d.dayNumber - epoch < 2 ^ 31 - 5) :
    Shows (convertTm (d.seconds - epoch * 86400)) d ∧
      (convertTm (d.seconds - epoch * 86400)).yday = d.dayOfYear ∧
      (convertTm (d.seconds - epoch * 86400)).wday = d.dayOfWeek := by
  have hstart : epoch ≤ yearStart d.year := yearStart_le hyear
  have hday := d.dayOfYear_nonneg
  have hfirst : 0 ≤ d.dayNumber - epoch := by
    rw [Date.dayNumber]
    omega
  obtain ⟨hhour, hhour'⟩ := d.hour_bounds
  obtain ⟨hmin, hmin'⟩ := d.minute_bounds
  obtain ⟨hsec, hsec'⟩ := d.second_bounds
  have hsplit : d.seconds - epoch * 86400 =
      (((d.dayNumber - epoch) * 24 + d.hour) * 60 + d.minute) * 60 + d.second := by
    rw [DateTime.seconds, DateTime.secondOfDay]
    ring
  have hnonneg : ¬ (((d.dayNumber - epoch) * 24 + d.hour) * 60 + d.minute) * 60 + d.second < 0 := by
    omega
  obtain ⟨h1, h2⟩ := tmod_tdiv
    (show 0 ≤ ((d.dayNumber - epoch) * 24 + d.hour) * 60 + d.minute by omega) hsec hsec'
  obtain ⟨h3, h4⟩ := tmod_tdiv (show 0 ≤ (d.dayNumber - epoch) * 24 + d.hour by omega) hmin hmin'
  obtain ⟨h5, h6⟩ := tmod_tdiv hfirst hhour hhour'
  have hwday : (d.dayNumber - epoch + 4).tmod 7 = d.dayOfWeek := by
    rw [Int.tmod_eq_emod_of_nonneg (by omega), Date.dayOfWeek, show epoch = 719162 by decide]
    omega
  simp only [hsplit, convertTm, if_neg hnonneg, h1, h2, h3, h4, h5, h6,
    toInt_eq (x := d.dayNumber - epoch) (by omega) (by omega),
    toInt_eq (x := d.dayNumber - epoch + 4) (by omega) (by omega),
    takeOff_ydays d.toDate hyear, takeOff_monthDays, hwday]
  exact ⟨⟨rfl, rfl, rfl, sub_add_cancel _ _, rfl, rfl⟩, trivial, trivial⟩

end Vlibc.Time
