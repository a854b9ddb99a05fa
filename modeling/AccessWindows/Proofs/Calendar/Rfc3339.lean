import AccessWindows.Calendar.Rfc3339
import AccessWindows.Proofs.Calendar.Date
import AccessWindows.Proofs.FixedWidth
import Mathlib.Data.String.Basic

/-!
# RFC 3339 date-times — written in order

The date-time of an instant is a row of seven numerals, each of its own width: year, month, day,
hour, minute, second and nanoseconds (`toList_render`).  All of them have room, since the
representable instants lie in the years 1677 to 2262 (`year_bounds`).

So texts are in the order of their instants (`render_lt_render_iff`): a row of numerals is ordered
like the numbers in it, and each of these, from the year on, decides before those behind it.
-/

namespace AccessWindows.Calendar

open Decimal

/-! ### The parts of an instant -/

/-- The day of an instant. -/
def dayOf (t : Timestamp) : Int := t.nanos / 1000000000 / 86400

/-- The second of its day. -/
def secondOf (t : Timestamp) : Nat := (t.nanos / 1000000000 % 86400).toNat

/-- The nanosecond of its second. -/
def fractionOf (t : Timestamp) : Nat := (t.nanos % 1000000000).toNat

theorem secondOf_lt (t : Timestamp) : secondOf t < 86400 := by
  rw [secondOf]
  omega

theorem fractionOf_lt (t : Timestamp) : fractionOf t < 1000000000 := by
  rw [fractionOf]
  omega

/-- The parts of an instant make it up. -/
theorem nanos_eq (t : Timestamp) :
    t.nanos = (86400 * dayOf t + secondOf t) * 1000000000 + fractionOf t := by
  rw [dayOf, secondOf, fractionOf]
  omega

theorem year_bounds (t : Timestamp) :
    1677 ≤ (Date.ofDays (dayOf t)).year ∧ (Date.ofDays (dayOf t)).year ≤ 2262 := by
  have hmin := t.min_le
  have hmax := t.le_max
  have h := mem_yearOf (dayOf t)
  rw [Date.year_ofDays]
  simp only [yearStart, dayOf] at h ⊢
  omega

/-- An instant is before another by its day, or by its second, or by its nanosecond. -/
theorem lt_iff_parts {t u : Timestamp} : t < u ↔
    dayOf t < dayOf u ∨ dayOf t = dayOf u ∧
      (secondOf t < secondOf u ∨ secondOf t = secondOf u ∧ fractionOf t < fractionOf u) := by
  have ht := nanos_eq t
  have hu := nanos_eq u
  have hst := secondOf_lt t
  have hsu := secondOf_lt u
  have hft := fractionOf_lt t
  have hfu := fractionOf_lt u
  rw [Timestamp.lt_def]
  omega

/-! ### The row of numerals -/

/-- The widths of the numerals and the signs behind them. -/
def layout : List (Nat × Char) :=
  [(4, '-'), (2, '-'), (2, 'T'), (2, ':'), (2, ':'), (2, '.'), (9, 'Z')]

/-- The numbers that are written for an instant. -/
def numbers (t : Timestamp) : List Nat :=
  [(Date.ofDays (dayOf t)).year.toNat, (Date.ofDays (dayOf t)).month, (Date.ofDays (dayOf t)).day,
    secondOf t / 3600, secondOf t / 60 % 60, secondOf t % 60, fractionOf t]

theorem toList_render (t : Timestamp) : (render t).toList = spelled layout (numbers t) := by
  have hnil : spelled [] [] = [] := rfl
  simp only [layout, numbers, spelled_cons, hnil]
  simp only [render, String.toList_ofList, List.append_assoc, List.cons_append]
  rfl

theorem fits_numbers (t : Timestamp) : Fits layout (numbers t) := by
  have hyear := year_bounds t
  obtain ⟨hmonth, hday⟩ := Date.lt_hundred_ofDays (dayOf t)
  have hsecond := secondOf_lt t
  have hfraction := fractionOf_lt t
  refine .cons ⟨by decide, ?_⟩ <| .cons ⟨by decide, hmonth⟩ <| .cons ⟨by decide, hday⟩ <|
    .cons ⟨by decide, ?_⟩ <| .cons ⟨by decide, ?_⟩ <| .cons ⟨by decide, ?_⟩ <|
    .cons ⟨by decide, hfraction⟩ .nil
  all_goals dsimp only; omega

/-- The first instant there is. -/
example : render .min = "1677-09-21T00:12:43.145224192Z" := by decide +kernel

/-! ### Order -/

/-- Year, month and day decide as the day does, before anything behind them. -/
theorem date_lt_or_iff (t u : Timestamp) (P : Prop) :
    ((Date.ofDays (dayOf t)).year.toNat < (Date.ofDays (dayOf u)).year.toNat ∨
      (Date.ofDays (dayOf t)).year.toNat = (Date.ofDays (dayOf u)).year.toNat ∧
        ((Date.ofDays (dayOf t)).month < (Date.ofDays (dayOf u)).month ∨
          (Date.ofDays (dayOf t)).month = (Date.ofDays (dayOf u)).month ∧
            ((Date.ofDays (dayOf t)).day < (Date.ofDays (dayOf u)).day ∨
              (Date.ofDays (dayOf t)).day = (Date.ofDays (dayOf u)).day ∧ P))) ↔
      dayOf t < dayOf u ∨ dayOf t = dayOf u ∧ P := by
  have hyear := year_bounds t
  have hyear' := year_bounds u
  have hlt := Date.before_ofDays_iff (m := dayOf t) (n := dayOf u)
  have hgt := Date.before_ofDays_iff (m := dayOf u) (n := dayOf t)
  rw [Date.Before] at hlt hgt
  -- dates of which neither is before the other are those of one day
  by_cases hP : P
  · simp only [hP, and_true]
    omega
  · simp only [hP, and_false, or_false]
    omega

/-- Hour, minute and second decide as the second of the day does. -/
theorem time_lt_or_iff (a b : Nat) (P : Prop) :
    (a / 3600 < b / 3600 ∨ a / 3600 = b / 3600 ∧
      (a / 60 % 60 < b / 60 % 60 ∨ a / 60 % 60 = b / 60 % 60 ∧
        (a % 60 < b % 60 ∨ a % 60 = b % 60 ∧ P))) ↔ a < b ∨ a = b ∧ P := by
  by_cases hP : P
  · simp only [hP, and_true]
    omega
  · simp only [hP, and_false, or_false]
    omega

theorem numbers_lt_numbers_iff {t u : Timestamp} : numbers t < numbers u ↔ t < u := by
  have hnil : ¬ ([] : List Nat) < [] := List.lt_irrefl []
  simp only [numbers, List.cons_lt_cons_iff, hnil, and_false, or_false]
  rw [date_lt_or_iff, time_lt_or_iff, lt_iff_parts]

/-- **Date-times are in the order of their instants.** -/
theorem render_lt_render_iff {t u : Timestamp} : render t < render u ↔ t < u := by
  rw [String.lt_iff_toList_lt, toList_render, toList_render,
    spelled_lt_spelled_iff (fits_numbers t) (fits_numbers u), numbers_lt_numbers_iff]

end AccessWindows.Calendar
