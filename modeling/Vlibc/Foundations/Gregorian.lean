import Mathlib.Data.List.Lex
import Vlibc.Foundations.Intervals

/-!
# The Gregorian calendar

A date of the proleptic Gregorian calendar has the number of its day, counted from the first day of
the year 1; the days are numbered in the order of the dates (`dayNumber_lt`) and without gaps
(`exists_date`). With the time of day, seconds are counted.
-/

namespace Vlibc.Gregorian

open List

variable {y y' n : ℤ}

/-- Leap years. -/
def Leap (y : ℤ) : Prop := y % 4 = 0 ∧ (y % 100 ≠ 0 ∨ y % 400 = 0)

instance : DecidablePred Leap := fun _ => inferInstanceAs (Decidable (_ ∧ _))

/-- The days of a year. -/
def yearLength (y : ℤ) : ℤ := if Leap y then 366 else 365

/-- The lengths of the months, which are counted from 0. -/
def monthLength (y m : ℤ) : ℤ :=
  if m = 1 then if Leap y then 29 else 28
  else if m = 3 ∨ m = 5 ∨ m = 8 ∨ m = 10 then 30 else 31

/-- The number of the day with which a year begins: the years before it have 365 days, and some of
them one more. -/
def yearStart (y : ℤ) : ℤ := 365 * (y - 1) + (y - 1) / 4 - (y - 1) / 100 + (y - 1) / 400

theorem yearStart_succ (y : ℤ) : yearStart (y + 1) = yearStart y + yearLength y := by
  rw [yearStart, yearStart, yearLength]
  split_ifs with h <;> rw [Leap] at h <;> omega

theorem yearLength_pos (y : ℤ) : 365 ≤ yearLength y ∧ yearLength y ≤ 366 := by
  rw [yearLength]
  split_ifs <;> omega

theorem monthLength_pos (y m : ℤ) : 28 ≤ monthLength y m ∧ monthLength y m ≤ 31 := by
  rw [monthLength]
  split_ifs <;> omega

theorem covered_monthLength (y : ℤ) : covered (monthLength y) 0 12 = yearLength y := by
  by_cases h : Leap y <;> simp [covered, monthLength, yearLength, h]

theorem covered_yearLength (y : ℤ) (k : ℕ) :
    covered yearLength y k = yearStart (y + k) - yearStart y :=
  covered_eq yearStart_succ y k

theorem yearStart_add_le (h : y < y') : yearStart y + yearLength y ≤ yearStart y' := by
  obtain ⟨k, rfl⟩ : ∃ k : ℕ, y' = y + 1 + k := ⟨(y' - (y + 1)).toNat, by omega⟩
  have hle := covered_nonneg fun j (_ : j < k) =>
    (by decide : (0 : ℤ) ≤ 365).trans (yearLength_pos (y + 1 + j)).1
  rw [covered_yearLength] at hle
  have := yearStart_succ y
  omega

theorem yearStart_le (h : y ≤ y') : yearStart y ≤ yearStart y' := by
  obtain hlt | rfl := h.lt_or_eq
  · have := yearStart_add_le hlt
    have := (yearLength_pos y).1
    omega
  · exact le_rfl

/-! ## Dates -/

/-- A date; its month is counted from 0. -/
@[ext]
structure Date where
  year : ℤ
  month : ℕ
  day : ℤ
  month_lt : month < 12
  day_pos : 1 ≤ day
  day_le : day ≤ monthLength year month

namespace Date

variable (d d' : Date)

/-- The day within the year, from 0 on. -/
def dayOfYear : ℤ := covered (monthLength d.year) 0 d.month + (d.day - 1)

/-- The number of days before a date. -/
def dayNumber : ℤ := yearStart d.year + d.dayOfYear

/-- The day of the week; Sunday is 0. The first day of the year 1 was a Monday. -/
def dayOfWeek : ℤ := (d.dayNumber + 1) % 7

theorem covered_month_le {m k : ℕ} (h : m < k) (y : ℤ) :
    covered (monthLength y) 0 m + monthLength y m ≤ covered (monthLength y) 0 k := by
  induction k with
  | zero => exact absurd h (Nat.not_lt_zero m)
  | succ k ih =>
    rw [covered_succ, zero_add]
    obtain h | rfl := Nat.lt_succ_iff_lt_or_eq.1 h
    · have := (monthLength_pos y k).1
      have := ih h
      omega
    · exact le_rfl

theorem dayOfYear_nonneg : 0 ≤ d.dayOfYear := by
  have hbefore := covered_nonneg fun j (_ : j < d.month) =>
    (by decide : (0 : ℤ) ≤ 28).trans (monthLength_pos d.year (0 + j)).1
  have := d.day_pos
  rw [dayOfYear]
  omega

theorem dayOfYear_lt : d.dayOfYear < yearLength d.year := by
  have hmonth := covered_month_le d.month_lt d.year
  have := d.day_le
  rw [covered_monthLength] at hmonth
  rw [dayOfYear]
  omega

/-- Year, month and day; they are compared in this order. -/
def fields : List ℤ := [d.year, d.month, d.day]

theorem dayNumber_lt (h : d.fields < d'.fields) : d.dayNumber < d'.dayNumber := by
  simp only [fields, cons_lt_cons_iff, not_lt_nil, and_false, or_false] at h
  obtain hyear | ⟨hyear, hmonth | ⟨hmonth, hday⟩⟩ := h
  · have := yearStart_add_le hyear
    have := d.dayOfYear_lt
    have := d'.dayOfYear_nonneg
    rw [dayNumber, dayNumber]
    omega
  · have hle := covered_month_le (Int.ofNat_lt.1 hmonth) d.year
    have := d.day_le
    have := d'.day_pos
    rw [dayNumber, dayNumber, dayOfYear, dayOfYear, ← hyear]
    omega
  · rw [dayNumber, dayNumber, dayOfYear, dayOfYear, ← hyear, Int.ofNat_inj.1 hmonth]
    omega

/-- **Every day has a date.** -/
theorem exists_date (h : yearStart y ≤ n) : ∃ d : Date, y ≤ d.year ∧ d.dayNumber = n := by
  have hend : n - yearStart y < covered yearLength y ((n - yearStart y).toNat + 1) := by
    have := le_covered fun j (_ : j < (n - yearStart y).toNat + 1) =>
      (by decide : (1 : ℤ) ≤ 365).trans (yearLength_pos (y + j)).1
    omega
  obtain ⟨k, -, r, hr, hlt, hn⟩ := exists_covered (by omega) hend
  rw [← covered_monthLength] at hlt
  obtain ⟨m, hm, s, hs, hslt, rfl⟩ := exists_covered hr hlt
  rw [zero_add] at hslt
  refine ⟨⟨y + k, m, s + 1, hm, by omega, by omega⟩, by simp, ?_⟩
  rw [covered_yearLength] at hn
  simp only [dayNumber, dayOfYear]
  omega

/-- `d'` is the day after `d`. -/
def NextDay : Prop :=
  (d'.year = d.year ∧ d'.month = d.month ∧ d'.day = d.day + 1) ∨
  (d'.year = d.year ∧ d'.month = d.month + 1 ∧ d.day = monthLength d.year d.month ∧ d'.day = 1) ∨
  (d'.year = d.year + 1 ∧ d.month = 11 ∧ d.day = 31 ∧ d'.month = 0 ∧ d'.day = 1)

variable {d d'}

theorem NextDay.cases (h : NextDay d d') :
    (d'.year = d.year ∧ d'.dayOfYear = d.dayOfYear + 1) ∨
    (d'.year = d.year + 1 ∧ d.dayOfYear + 1 = yearLength d.year ∧ d'.dayOfYear = 0) := by
  obtain ⟨hy, hm, hd⟩ | ⟨hy, hm, hd, hd'⟩ | ⟨hy, hm, hd, hm', hd'⟩ := h
  · refine .inl ⟨hy, ?_⟩
    rw [dayOfYear, dayOfYear, hy, hm, hd]
    ring
  · refine .inl ⟨hy, ?_⟩
    rw [dayOfYear, dayOfYear, hy, hm, hd', hd, covered_succ, zero_add]
    ring
  · refine .inr ⟨hy, ?_, ?_⟩
    · have hlast : monthLength d.year ((11 : ℕ) : ℤ) = 31 := rfl
      rw [dayOfYear, hm, hd, ← covered_monthLength, covered_succ _ _ 11, zero_add, hlast]
      ring
    · rw [dayOfYear, hm', hd']
      rfl

end Date

/-- A date and a time of day. -/
structure DateTime extends Date where
  hour : ℤ
  minute : ℤ
  second : ℤ
  hour_bounds : 0 ≤ hour ∧ hour < 24
  minute_bounds : 0 ≤ minute ∧ minute < 60
  second_bounds : 0 ≤ second ∧ second < 60

namespace DateTime

variable (d d' : DateTime)

/-- The seconds of the day before a time. -/
def secondOfDay : ℤ := d.hour * 3600 + d.minute * 60 + d.second

/-- The seconds since the beginning of the year 1. -/
def seconds : ℤ := d.dayNumber * 86400 + d.secondOfDay

/-- Date, hour, minute and second; they are compared in this order. -/
def fields : List ℤ := d.toDate.fields ++ [d.hour, d.minute, d.second]

theorem secondOfDay_bounds : 0 ≤ d.secondOfDay ∧ d.secondOfDay < 86400 := by
  have := d.hour_bounds
  have := d.minute_bounds
  have := d.second_bounds
  rw [secondOfDay]
  omega

variable {d d'}

theorem fields_lt_iff : d.fields < d'.fields ↔ d.toDate.fields < d'.toDate.fields ∨
    d.toDate.fields = d'.toDate.fields ∧
      [d.hour, d.minute, d.second] < [d'.hour, d'.minute, d'.second] := by
  simp only [fields, Date.fields, cons_append, nil_append, cons_lt_cons_iff, not_lt_nil, and_false,
    or_false, cons.injEq, and_true, and_or_left, or_assoc, and_assoc]

theorem seconds_lt (h : d.fields < d'.fields) : d.seconds < d'.seconds := by
  have hs := d.secondOfDay_bounds
  have hs' := d'.secondOfDay_bounds
  obtain hdate | ⟨hdate, htime⟩ := fields_lt_iff.1 h
  · have := Date.dayNumber_lt _ _ hdate
    rw [seconds, seconds]
    omega
  · simp only [Date.fields, cons.injEq, Nat.cast_inj, and_true] at hdate
    obtain ⟨hyear, hmonth, hday⟩ := hdate
    have hnumber : d.dayNumber = d'.dayNumber := by
      rw [Date.dayNumber, Date.dayNumber, Date.dayOfYear, Date.dayOfYear, hyear, hmonth, hday]
    have := d.minute_bounds
    have := d'.minute_bounds
    have := d.second_bounds
    have := d'.second_bounds
    simp only [cons_lt_cons_iff, not_lt_nil, and_false, or_false] at htime
    rw [seconds, seconds, hnumber, secondOfDay, secondOfDay]
    omega

theorem seconds_lt_iff : d.seconds < d'.seconds ↔ d.fields < d'.fields := by
  refine ⟨fun h => ?_, seconds_lt⟩
  obtain hlt | heq | hgt := lt_trichotomy d.fields d'.fields
  · exact hlt
  · simp only [fields, Date.fields, cons_append, nil_append, cons.injEq,
      Nat.cast_inj, and_true] at heq
    obtain ⟨hyear, hmonth, hday, hhour, hminute, hsecond⟩ := heq
    refine absurd h (not_lt.2 (le_of_eq ?_))
    rw [seconds, seconds, Date.dayNumber, Date.dayNumber, Date.dayOfYear, Date.dayOfYear,
      secondOfDay, secondOfDay, hyear, hmonth, hday, hhour, hminute, hsecond]
  · exact absurd h (not_lt.2 (seconds_lt hgt).le)

/-- **Every second has a date and a time.** -/
theorem exists_dateTime (h : yearStart y * 86400 ≤ n) :
    ∃ d : DateTime, y ≤ d.year ∧ d.seconds = n := by
  obtain ⟨d, hd, hn⟩ := Date.exists_date (show yearStart y ≤ n / 86400 by omega)
  refine ⟨⟨d, n % 86400 / 3600, n % 3600 / 60, n % 60, by omega, by omega, by omega⟩, hd, ?_⟩
  simp only [seconds, secondOfDay, hn]
  omega

end DateTime

end Vlibc.Gregorian
