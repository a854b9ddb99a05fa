import AccessWindows.Calendar.Date
import Mathlib.Data.List.Basic

/-!
# Calendar dates — from days and back

The years divide the days among themselves: each has 365 or 366 of them and begins where the one
before it ends (`yearStart_succ`).  The estimate that `yearOf` starts from is at most one year off,
so that the year it yields is the one in which the day lies (`mem_yearOf`).

Within its year a day is placed by running through the months.  What the run leaves is the number of
days in the months passed and of those in the month reached (`exists_placeInMonths`), and a later
day of the year is placed later (`placeInMonths_before`).  Hence the date of a day exists in the
calendar (`isValid_ofDays`), counts as many days as the day it was made from (`toDays_ofDays`), and
lies before the date of every later day (`before_ofDays_iff`).
-/

namespace AccessWindows.Calendar

/-! ### Years -/

theorem yearStart_succ (year : Int) :
    yearStart (year + 1) = yearStart year + if isLeap year then 366 else 365 := by
  simp only [yearStart, isLeap, Bool.and_eq_true, Bool.or_eq_true, decide_eq_true_eq]
  split <;> omega

theorem yearStart_lt {a b : Int} (h : a < b) : yearStart a < yearStart b := by
  simp only [yearStart]
  omega

/-- A day lies in its year: not before its first day, and before that of the next year. -/
theorem mem_yearOf (day : Int) :
    yearStart (yearOf day) ≤ day ∧ day < yearStart (yearOf day + 1) := by
  rw [yearOf]
  -- 400 years have 146097 days, so that the estimate is too late by one year, too early by one, or
  -- right; in the first two cases its own comparison leaves room for no more
  split
  next h =>
      simp only [yearStart] at h ⊢
      omega
  next hlow =>
      split
      next h =>
          simp only [yearStart] at h ⊢
          omega
      next hhigh => exact ⟨by omega, by omega⟩

/-- Years of days follow the order of the days. -/
theorem yearOf_mono {m n : Int} (h : m ≤ n) : yearOf m ≤ yearOf n := by
  by_contra hlt
  -- a later year of the earlier day would begin only where the year of the later day has ended
  have hle : yearStart (yearOf n + 1) ≤ yearStart (yearOf m) := by
    rcases Int.lt_or_eq_of_le (Int.add_one_le_of_lt (Int.not_le.mp hlt)) with hlt | heq
    · exact Int.le_of_lt (yearStart_lt hlt)
    · exact Int.le_of_eq (congrArg yearStart heq)
  have hm := (mem_yearOf m).1
  have hn := (mem_yearOf n).2
  omega

/-- How far a day is into its year. -/
def dayOfYear (n : Int) : Nat := (n - yearStart (yearOf n)).toNat

theorem yearStart_add_dayOfYear (n : Int) : yearStart (yearOf n) + dayOfYear n = n := by
  have h := (mem_yearOf n).1
  rw [dayOfYear]
  omega

/-! ### Months -/

theorem foldr_monthLengths (leap : Bool) :
    (monthLengths leap).foldr (· + ·) 0 = if leap then 366 else 365 := by
  cases leap <;> rfl

/-- The months have room for every day of the year. -/
theorem dayOfYear_lt (n : Int) :
    dayOfYear n < (monthLengths (isLeap (yearOf n))).foldr (· + ·) 0 := by
  have h := (mem_yearOf n).2
  have hadd := yearStart_add_dayOfYear n
  rw [yearStart_succ] at h
  rw [foldr_monthLengths]
  split
  next hleap => rw [if_pos hleap] at h; omega
  next hleap => rw [if_neg hleap] at h; omega

/-- The run through the months stops in one of them, behind the days of those it passed. -/
theorem exists_placeInMonths {lengths : List Nat} {day : Nat}
    (h : day < lengths.foldr (· + ·) 0) (month : Nat) :
    ∃ i length d, placeInMonths month day lengths = (month + i, d + 1) ∧
      lengths[i]? = some length ∧ d < length ∧ (lengths.take i).foldr (· + ·) d = day := by
  induction lengths generalizing month day with
  | nil => exact absurd h (Nat.not_lt_zero day)
  | cons length lengths ih =>
      rw [placeInMonths]
      split
      next hin => exact ⟨0, length, day, rfl, rfl, hin, rfl⟩
      next hout =>
          rw [List.foldr_cons] at h
          obtain ⟨i, length', d, hplace, hget, hd, hsum⟩ :=
            ih (by omega : day - length < lengths.foldr (· + ·) 0) (month + 1)
          refine ⟨i + 1, length', d, ?_, hget, hd, ?_⟩
          · rw [hplace, Nat.add_assoc, Nat.add_comm 1 i]
          · rw [List.take_succ_cons, List.foldr_cons, hsum]
            omega

theorem le_placeInMonths (month day : Nat) (lengths : List Nat) :
    month ≤ (placeInMonths month day lengths).1 := by
  induction lengths generalizing month day with
  | nil => exact Nat.le_refl month
  | cons length lengths ih =>
      rw [placeInMonths]
      split
      · exact Nat.le_refl month
      · exact Nat.le_of_succ_le (ih (month + 1) (day - length))

/-- Of two days of a year, the later is placed in a later month, or later in the same. -/
theorem placeInMonths_before {day day' : Nat} (h : day < day') (month : Nat)
    (lengths : List Nat) :
    (placeInMonths month day lengths).1 < (placeInMonths month day' lengths).1 ∨
      (placeInMonths month day lengths).1 = (placeInMonths month day' lengths).1 ∧
        (placeInMonths month day lengths).2 < (placeInMonths month day' lengths).2 := by
  induction lengths generalizing month day day' with
  | nil => exact Or.inr ⟨rfl, Nat.succ_lt_succ h⟩
  | cons length lengths ih =>
      rw [placeInMonths, placeInMonths]
      by_cases hin : day < length
      · rw [if_pos hin]
        split
        · exact Or.inr ⟨rfl, Nat.succ_lt_succ h⟩
        · exact Or.inl (le_placeInMonths (month + 1) (day' - length) lengths)
      · rw [if_neg hin, if_neg (by omega)]
        exact ih (by omega) (month + 1)

namespace Date

/-! ### Dates of days -/

/-- The date of a day names its year, a month that has such a day, and the days before it. -/
theorem exists_ofDays (n : Int) : ∃ i length d, ofDays n = ⟨yearOf n, i + 1, d + 1⟩ ∧
    (monthLengths (isLeap (yearOf n)))[i]? = some length ∧ d < length ∧
      ((monthLengths (isLeap (yearOf n))).take i).foldr (· + ·) d = dayOfYear n := by
  obtain ⟨i, length, d, hplace, hget, hd, hsum⟩ := exists_placeInMonths (dayOfYear_lt n) 1
  refine ⟨i, length, d, ?_, hget, hd, hsum⟩
  rw [ofDays]
  dsimp only
  rw [← dayOfYear, hplace, Nat.add_comm 1 i]

theorem year_ofDays (n : Int) : (ofDays n).year = yearOf n := rfl

/-- **The date of a day** is one of the calendar. -/
theorem isValid_ofDays (n : Int) : (ofDays n).isValid = true := by
  obtain ⟨i, length, d, hdate, hget, hd, -⟩ := exists_ofDays n
  simp only [hdate, isValid, Nat.add_sub_cancel, hget, Option.any_some, Bool.and_eq_true,
    decide_eq_true_eq]
  omega

/-- **Back again**: the date of a day counts as many days. -/
theorem toDays_ofDays (n : Int) : (ofDays n).toDays = n := by
  obtain ⟨i, length, d, hdate, -, -, hsum⟩ := exists_ofDays n
  rw [hdate, toDays, daysBefore, Nat.add_sub_cancel, Nat.add_sub_cancel, hsum]
  exact yearStart_add_dayOfYear n

/-- Two digits are enough for the month and for the day. -/
theorem lt_hundred_ofDays (n : Int) : (ofDays n).month < 100 ∧ (ofDays n).day < 100 := by
  obtain ⟨i, length, d, hdate, hget, hd, -⟩ := exists_ofDays n
  have hmonth : ∀ leap, (monthLengths leap).length = 12 := by decide
  have hday : ∀ leap, ∀ length ∈ monthLengths leap, length ≤ 31 := by decide
  have hi := (List.getElem?_eq_some_iff.mp hget).1
  have hlength := hday _ length (List.mem_of_getElem? hget)
  rw [hmonth] at hi
  rw [hdate]
  exact ⟨by dsimp only; omega, by dsimp only; omega⟩

/-! ### The order of dates -/

/-- The first date is earlier: by its year, or by its month, or by its day. -/
def Before (a b : Date) : Prop :=
  a.year < b.year ∨ a.year = b.year ∧
    (a.month < b.month ∨ a.month = b.month ∧ a.day < b.day)

theorem before_ofDays {m n : Int} (h : m < n) : (ofDays m).Before (ofDays n) := by
  rcases Int.lt_or_eq_of_le (yearOf_mono (Int.le_of_lt h)) with hyear | hyear
  · exact Or.inl hyear
  · -- in one year both days run through the same months
    have hm := yearStart_add_dayOfYear m
    have hn := yearStart_add_dayOfYear n
    rw [hyear] at hm
    have hday : dayOfYear m < dayOfYear n := by omega
    have hplace := placeInMonths_before hday 1 (monthLengths (isLeap (yearOf n)))
    rw [dayOfYear, hyear] at hplace
    refine Or.inr ⟨hyear, ?_⟩
    rw [ofDays, ofDays]
    dsimp only
    rw [hyear]
    exact hplace

/-- **Dates are in the order of the days.** -/
theorem before_ofDays_iff {m n : Int} : (ofDays m).Before (ofDays n) ↔ m < n := by
  refine ⟨fun h => ?_, before_ofDays⟩
  by_contra hnot
  rcases Int.lt_or_eq_of_le (Int.not_lt.mp hnot) with hlt | rfl
  · have h' := before_ofDays hlt
    simp only [Before] at h h'
    omega
  · simp only [Before] at h
    omega

end Date

end AccessWindows.Calendar
