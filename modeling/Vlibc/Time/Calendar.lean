import Mathlib.RingTheory.Coprime.Lemmas
import Vlibc.Time.Conv

/-!
# Times and dates

From 1970 on, and as long as the days are counted in an `int`, `gmtime_r` and `timegm` are inverse
to each other and keep the order (`calendar_bijective`). `timegm` and `mktime` leave the number of
days since 1970 in `tm_yday`, which is the day of the year in 1970 only (`completes_iff`). Before
1970 `timegm` does not count the years (`timegm_order_iff`).
-/

namespace Vlibc.Time

open Gregorian List

/-- The times for which the number of days, and that number plus 4, is an `int`. -/
def InRange (t : ℤ) : Prop := 0 ≤ t ∧ t < 86400 * (2 ^ 31 - 5)

/-- The fields from the year to the second; they are compared in this order. -/
def Tm.fields (tm : Tm) : List ℤ := [tm.year, tm.mon, tm.mday, tm.hour, tm.min, tm.sec]

variable {tm tm' : Tm} {d d' : DateTime} {t : ℤ}

theorem Shows.fields_lt_iff (h : Shows tm d) (h' : Shows tm' d') :
    tm.fields < tm'.fields ↔ d.fields < d'.fields := by
  simp only [Tm.fields, DateTime.fields, Date.fields, cons_append, nil_append,
    cons_lt_cons_iff, not_lt_nil, and_false, or_false, h.year, h.mon, h.mday, h.hour, h.min,
    h.sec, h'.year, h'.mon, h'.mday, h'.hour, h'.min, h'.sec, sub_lt_sub_iff_right, sub_left_inj]

theorem days_lt_of_inRange (h : InRange (d.seconds - epoch * 86400)) :
    d.dayNumber - epoch < 2 ^ 31 - 5 := by
  obtain ⟨-, hlt⟩ := h
  have := d.secondOfDay_bounds
  rw [DateTime.seconds] at hlt
  omega

/-- In range, `gmtime_r` shows the date of the given second. -/
theorem gmtimeR_inRange (h : InRange t) : ∃ d : DateTime, 1970 ≤ d.year ∧
    d.seconds - epoch * 86400 = t ∧ Shows (gmtimeR t) d ∧ (gmtimeR t).yday = d.dayOfYear ∧
      (gmtimeR t).wday = d.dayOfWeek := by
  obtain ⟨d, hyear, hd⟩ := DateTime.exists_dateTime
    (show yearStart 1970 * 86400 ≤ t + epoch * 86400 by rw [epoch]; exact le_add_of_nonneg_left h.1)
  obtain rfl : d.seconds - epoch * 86400 = t := by omega
  exact ⟨d, hyear, rfl, convertTm_seconds d hyear (days_lt_of_inRange h)⟩

/-- **Times and dates correspond to each other.** In the range, `gmtime_r` gives a date and a time of
day, with the day of the year and of the week, and `timegm` gives the time back; `gmtime_r` gives back
every date and time of day; a later time has later fields; and with any offset from `tzset`, `mktime`
gives back the time that `localtime_r` was given. -/
theorem calendar_bijective :
    (∀ t, InRange t → ∃ d : DateTime, Shows (gmtimeR t) d ∧ (gmtimeR t).yday = d.dayOfYear ∧
      (gmtimeR t).wday = d.dayOfWeek ∧ (timegm (gmtimeR t)).1 = t) ∧
    (∀ tm (d : DateTime), Shows tm d → 1970 ≤ d.year → InRange (d.seconds - epoch * 86400) →
      Shows (gmtimeR (timegm tm).1) d) ∧
    (∀ t t', InRange t → InRange t' → t < t' → (gmtimeR t).fields < (gmtimeR t').fields) ∧
    (∀ tzoff t, InRange (t + tzoff) → (mktime tzoff (localtimeR tzoff t)).1 = t) := by
  refine ⟨fun t ht => ?_, fun tm d h hyear hr => ?_, fun t t' ht ht' hlt => ?_, fun tzoff t ht => ?_⟩
  · obtain ⟨d, hyear, rfl, hshows, hyday, hwday⟩ := gmtimeR_inRange ht
    exact ⟨d, hshows, hyday, hwday, timegm_seconds hshows hyear⟩
  · rw [timegm_seconds h hyear]
    exact (convertTm_seconds d hyear (days_lt_of_inRange hr)).1
  · obtain ⟨d, -, rfl, hshows, -⟩ := gmtimeR_inRange ht
    obtain ⟨d', -, rfl, hshows', -⟩ := gmtimeR_inRange ht'
    rw [hshows.fields_lt_iff hshows', ← DateTime.seconds_lt_iff]
    omega
  · obtain ⟨d, hyear, hd, hshows, -⟩ := gmtimeR_inRange ht
    have hback : (timegm (localtimeR tzoff t)).1 = t + tzoff :=
      (timegm_seconds hshows hyear).trans hd
    exact sub_eq_of_eq_add hback

theorem calendar_bijective_epoch :
    InRange 0 ∧ (mktime 3600 (localtimeR 3600 0)).1 = 0 ∧
      (gmtimeR 0).fields < (gmtimeR 1).fields := by
  have hzero : InRange 0 := ⟨le_rfl, by decide⟩
  have hone : InRange 1 := ⟨zero_le_one, by decide⟩
  obtain ⟨-, -, hlt, hlocal⟩ := calendar_bijective
  exact ⟨hzero, hlocal 3600 0 ⟨by decide, by decide⟩, hlt 0 1 hzero hone zero_lt_one⟩

/-! ## The other fields -/

/-- Behind the call, `tm_yday` and `tm_wday` are what `gmtime_r` makes of the time that it returned,
and `tm_yday` is the day of the year. -/
structure Completes (f : Tm → ℤ × Tm) (tm : Tm) (d : DateTime) : Prop where
  yday : (f tm).2.yday = (gmtimeR (f tm).1).yday
  wday : (f tm).2.wday = (gmtimeR (f tm).1).wday
  dayOfYear : (f tm).2.yday = d.dayOfYear

theorem wday_gmtimeR {n : ℤ} (hn : 0 ≤ n) (d : DateTime) :
    (gmtimeR (n * 86400 + d.secondOfDay)).wday = (toInt (toInt n + 4)).tmod 7 := by
  obtain ⟨hhour, hhour'⟩ := d.hour_bounds
  obtain ⟨hmin, hmin'⟩ := d.minute_bounds
  obtain ⟨hsec, hsec'⟩ := d.second_bounds
  have hsplit : n * 86400 + d.secondOfDay =
      ((n * 24 + d.hour) * 60 + d.minute) * 60 + d.second := by
    rw [DateTime.secondOfDay]
    ring
  have hdays := (tmod_tdiv hn hhour hhour').2
  have hhours := (tmod_tdiv (show 0 ≤ n * 24 + d.hour by omega) hmin hmin').2
  have hminutes :=
    (tmod_tdiv (show 0 ≤ (n * 24 + d.hour) * 60 + d.minute by omega) hsec hsec').2
  simp only [gmtimeR, convertTm, hsplit, hminutes, hhours, hdays,
    if_neg (show ¬ ((n * 24 + d.hour) * 60 + d.minute) * 60 + d.second < 0 by omega)]

/-- No year that an `int` can hold begins a multiple of `7 * 2 ^ 32` days after 1970, but 1970. -/
theorem year_eq_of_dvd {y : ℤ} (hy : 1970 ≤ y) (hint : y < 2 ^ 31)
    (h : (7 : ℤ) * 2 ^ 32 ∣ yearStart y - epoch) : y = 1970 := by
  obtain ⟨m, hm⟩ := h
  have hepoch : epoch = 719162 := by decide
  have hlast : yearStart (2 ^ 31) = 784352295939 := by decide
  have hle : epoch ≤ yearStart y := yearStart_le hy
  have hle' := yearStart_le (show y ≤ 2 ^ 31 by omega)
  have h0 : 0 ≤ m := by omega
  have h27 : m < 27 := by omega
  rw [hepoch, yearStart] at hm
  interval_cases m <;> omega

theorem dvd_of_toInt_add {n r : ℤ} (h : toInt (n + r) = r) : (2 : ℤ) ^ 32 ∣ n := by
  rw [toInt] at h
  have hmod := Int.bmod_emod (x := n + r) (m := 2 ^ 32)
  rw [h] at hmod
  omega

theorem dvd_of_week {n r : ℤ} (h : (n + r + 4) % 7 = (r + 4) % 7) : (7 : ℤ) ∣ n := by
  omega

theorem mktime_zero : mktime 0 = timegm := by
  funext tm
  rw [mktime, timegm, sub_zero]

theorem days_of_le (h : Shows tm d) (hyear : 1970 ≤ d.year) :
    days tm = yearStart d.year - epoch + d.dayOfYear := by
  have hstart : epoch ≤ yearStart d.year := yearStart_le hyear
  rw [days_eq h, max_eq_right (by omega)]

/-- Where `timegm` fills in the right day of the week and of the year, the year is 1970. -/
theorem year_of_completes (h : Shows tm d) (hyear : 1970 ≤ d.year) (hint : d.year < 2 ^ 31)
    (hcomp : Completes timegm tm d) : d.year = 1970 := by
  have hdays := days_of_le h hyear
  have hstart : epoch ≤ yearStart d.year := yearStart_le hyear
  have hday := d.dayOfYear_nonneg
  have hdayLt := d.dayOfYear_lt
  have hlength := yearLength_pos d.year
  have hyday : toInt (yearStart d.year - epoch + d.dayOfYear) = d.dayOfYear := hdays ▸ hcomp.dayOfYear
  have hwday : toInt ((days tm + 4).tmod 7) = (toInt (toInt (days tm) + 4)).tmod 7 := by
    rw [← wday_gmtimeR (by omega) d, ← timegm_eq h]
    exact hcomp.wday
  rw [hdays, hyday, toInt_eq (x := d.dayOfYear + 4) (by omega) (by omega),
    Int.tmod_eq_emod_of_nonneg (by omega), Int.tmod_eq_emod_of_nonneg (by omega),
    toInt_eq (by omega) (by omega)] at hwday
  apply year_eq_of_dvd hyear hint
  apply IsCoprime.mul_dvd (Int.isCoprime_iff_gcd_eq_one.2 (by decide))
  · exact dvd_of_week hwday
  · exact dvd_of_toInt_add hyday

/-- In 1970 they are the right ones. -/
theorem completes_of_year (h : Shows tm d) (hyear : d.year = 1970) : Completes timegm tm d := by
  have hday := d.dayOfYear_nonneg
  have hdayLt := d.dayOfYear_lt
  have hlength := yearLength_pos d.year
  have hdays : days tm = d.dayOfYear := by
    rw [days_of_le h hyear.ge, hyear, epoch, sub_self, zero_add]
  have hnumber : d.dayNumber - epoch = d.dayOfYear := by
    rw [Date.dayNumber, hyear, epoch]
    ring
  obtain ⟨-, hyday, hwday⟩ := convertTm_seconds d hyear.ge (by omega)
  rw [← timegm_seconds h hyear.ge] at hyday hwday
  have hyday' : (timegm tm).2.yday = d.dayOfYear := by
    change toInt (days tm) = _
    rw [hdays, toInt_eq (by omega) (by omega)]
  have hwday' : (timegm tm).2.wday = d.dayOfWeek := by
    change toInt ((days tm + 4).tmod 7) = _
    rw [hdays, Int.tmod_eq_emod_of_nonneg (by omega), toInt_eq (by omega) (by omega),
      Date.dayOfWeek, ← hnumber, show epoch = 719162 by decide]
    omega
  exact ⟨hyday'.trans hyday.symm, hwday'.trans hwday.symm, hyday'⟩

/-- **`timegm` and `mktime` complete the structure** for the dates of 1970, and for no later one. -/
theorem completes_iff (tm : Tm) (d : DateTime) (h : Shows tm d) (hyear : 1970 ≤ d.year)
    (hint : d.year < 2 ^ 31) :
    Completes timegm tm d ∧ Completes (mktime 0) tm d ↔ d.year = 1970 := by
  rw [mktime_zero, and_self]
  constructor
  · exact year_of_completes h hyear hint
  · exact completes_of_year h

/-- Noon on the last day of 1970. -/
def newYearsEve : DateTime where
  year := 1970
  month := 11
  day := 31
  month_lt := by decide
  day_pos := by decide
  day_le := by decide
  hour := 12
  minute := 0
  second := 0
  hour_bounds := by decide
  minute_bounds := by decide
  second_bounds := by decide

theorem completes_iff_newYearsEve :
    Completes timegm ⟨0, 0, 12, 31, 11, 70, 0, 0, 0⟩ newYearsEve :=
  ((completes_iff ⟨0, 0, 12, 31, 11, 70, 0, 0, 0⟩ newYearsEve ⟨rfl, rfl, rfl, rfl, rfl, rfl⟩
    (by decide) (by decide)).2 rfl).1

/-- On the first of January 1971 `timegm` leaves 365 in `tm_yday`, and `gmtime_r` finds 0. -/
theorem yday_counts_from_1970 :
    (timegm ⟨0, 0, 0, 1, 0, 71, 0, 0, 0⟩).2.yday = 365 ∧
    (gmtimeR (timegm ⟨0, 0, 0, 1, 0, 71, 0, 0, 0⟩).1).yday = 0 := by
  decide

/-! ## The order -/

/-- The seconds since the beginning of the year. -/
def sinceNewYear (d : DateTime) : ℤ := d.dayOfYear * 86400 + d.secondOfDay

/-- The seconds from 1970 to the beginning of a later year. -/
def untilNewYear (y : ℤ) : ℤ := max 0 (yearStart y - epoch) * 86400

/-- The value of `timegm` splits at the start of the year. -/
theorem timegm_eq_add (h : Shows tm d) :
    (timegm tm).1 = untilNewYear d.year + sinceNewYear d := by
  rw [timegm_eq h, days_eq h, untilNewYear, sinceNewYear]
  ring

theorem untilNewYear_succ {y : ℤ} (h : 1970 ≤ y) :
    untilNewYear (y + 1) = untilNewYear y + yearLength y * 86400 := by
  have hstart : epoch ≤ yearStart y := yearStart_le h
  have hlength := yearLength_pos y
  rw [untilNewYear, untilNewYear, yearStart_succ, max_eq_right (by omega), max_eq_right (by omega)]
  ring

/-- From 1970 on a later date has a larger time. -/
theorem timegm_lt (h : Shows tm d) (h' : Shows tm' d') (hyear : 1970 ≤ d.year)
    (hlt : tm.fields < tm'.fields) : (timegm tm).1 < (timegm tm').1 := by
  rw [h.fields_lt_iff h'] at hlt
  have hyear' : 1970 ≤ d'.year := by
    simp only [DateTime.fields, Date.fields, cons_append, cons_lt_cons_iff] at hlt
    omega
  have hseconds := DateTime.seconds_lt hlt
  rw [timegm_seconds h hyear, timegm_seconds h' hyear']
  omega

/-- From 1970 on, the same time on the next day is 86400 seconds later. -/
theorem timegm_nextDay (h : Shows tm d) (h' : Shows tm' d') (hyear : 1970 ≤ d.year)
    (hnext : d.toDate.NextDay d'.toDate) (htime : d.secondOfDay = d'.secondOfDay) :
    (timegm tm').1 = (timegm tm).1 + 86400 := by
  rw [timegm_eq_add h, timegm_eq_add h']
  obtain ⟨hsame, hday⟩ | ⟨hsucc, hlast, hfirst⟩ := hnext.cases
  · rw [hsame, sinceNewYear, sinceNewYear, hday, htime]
    ring
  · rw [hsucc, untilNewYear_succ hyear, sinceNewYear, sinceNewYear, hfirst, htime, ← hlast]
    ring

theorem timegm_nonneg (h : Shows tm d) : 0 ≤ (timegm tm).1 := by
  have hday := d.dayOfYear_nonneg
  have hsecond := d.secondOfDay_bounds
  rw [timegm_eq_add h, untilNewYear, sinceNewYear]
  have hstart : 0 ≤ max 0 (yearStart d.year - epoch) := le_max_left _ _
  omega

/-- The first second of 1970. -/
def epochDate : DateTime where
  year := 1970
  month := 0
  day := 1
  month_lt := by decide
  day_pos := by decide
  day_le := by decide
  hour := 0
  minute := 0
  second := 0
  hour_bounds := by decide
  minute_bounds := by decide
  second_bounds := by decide

/-- **`timegm` follows the calendar** from a date on exactly if the date is not before 1970: all later
dates have larger times, and the next day is 86400 seconds later. -/
theorem timegm_order_iff (tm : Tm) (d : DateTime) (h : Shows tm d) :
    (∀ (tm' : Tm) (d' : DateTime), Shows tm' d' → d'.year ≤ 9999 →
      (tm.fields < tm'.fields → (timegm tm).1 < (timegm tm').1) ∧
      (d.toDate.NextDay d'.toDate → d.secondOfDay = d'.secondOfDay →
        (timegm tm').1 = (timegm tm).1 + 86400)) ↔ 1970 ≤ d.year := by
  constructor
  · intro hall
    by_contra hearly
    -- the time of 1970-01-01 is 0, and no time is negative
    have hepoch : Shows ⟨0, 0, 0, 1, 0, 70, 0, 0, 0⟩ epochDate := ⟨rfl, rfl, rfl, rfl, rfl, rfl⟩
    have hfields : tm.fields < Tm.fields ⟨0, 0, 0, 1, 0, 70, 0, 0, 0⟩ := by
      rw [h.fields_lt_iff hepoch]
      exact cons_lt_cons_iff.2 (.inl (not_le.1 hearly))
    have hlt := (hall _ epochDate hepoch (by decide)).1 hfields
    have hzero : (timegm ⟨0, 0, 0, 1, 0, 70, 0, 0, 0⟩).1 = 0 := by decide
    have hnonneg := timegm_nonneg h
    omega
  · intro hyear tm' d' h' _
    exact ⟨timegm_lt h h' hyear, timegm_nextDay h h' hyear⟩

/-- Noon on the first day of 1971. -/
def newYear : DateTime where
  year := 1971
  month := 0
  day := 1
  month_lt := by decide
  day_pos := by decide
  day_le := by decide
  hour := 12
  minute := 0
  second := 0
  hour_bounds := by decide
  minute_bounds := by decide
  second_bounds := by decide

theorem timegm_order_iff_newYear :
    (timegm ⟨0, 0, 12, 1, 0, 71, 0, 0, 0⟩).1 = (timegm ⟨0, 0, 12, 31, 11, 70, 0, 0, 0⟩).1 + 86400 :=
  ((timegm_order_iff ⟨0, 0, 12, 31, 11, 70, 0, 0, 0⟩ newYearsEve ⟨rfl, rfl, rfl, rfl, rfl, rfl⟩).2
    (by decide) ⟨0, 0, 12, 1, 0, 71, 0, 0, 0⟩ newYear ⟨rfl, rfl, rfl, rfl, rfl, rfl⟩ (by decide)).2
      (.inr (.inr ⟨rfl, rfl, rfl, rfl, rfl⟩)) rfl

/-- The last day of 1969 is later than the first day of 1970. -/
theorem timegm_goes_back :
    (timegm ⟨0, 0, 0, 31, 11, 69, 0, 0, 0⟩).1 = 31449600 ∧
    (timegm ⟨0, 0, 0, 1, 0, 70, 0, 0, 0⟩).1 = 0 := by
  decide

end Vlibc.Time
