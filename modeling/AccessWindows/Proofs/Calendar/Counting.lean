import AccessWindows.Proofs.Calendar.Date
import Mathlib.Tactic.IntervalCases

/-!
# Calendar dates — counted day by day

The day after a date is the next of its month, or the first of the next month, or the first of the
next year (`Date.next`).  From this alone every date of the calendar has its number: the first of
January 1970 has zero, and each day one more than the day before it (`Date.Numbered`).

The closed form for the number of a date counts in the same way (`toDays_next`), and zero is the
number of no other date (`eq_epoch`).  So it is that number, for every date of every year
(`numbered_iff`).
-/

namespace AccessWindows.Calendar

/-- The number of days in a month. -/
def daysIn (year : Int) (month : Nat) : Nat :=
  if month = 2 then if isLeap year then 29 else 28
  else if month = 4 ∨ month = 6 ∨ month = 9 ∨ month = 11 then 30
  else 31

theorem one_le_daysIn (year : Int) (month : Nat) : 1 ≤ daysIn year month := by
  rw [daysIn]
  split_ifs <;> omega

theorem daysIn_le (year : Int) (month : Nat) : daysIn year month ≤ 31 := by
  rw [daysIn]
  split_ifs <;> omega

theorem getElem?_monthLengths (year : Int) {month : Nat} (hpos : 1 ≤ month) (hle : month ≤ 12) :
    (monthLengths (isLeap year))[month - 1]? = some (daysIn year month) := by
  rw [daysIn]
  interval_cases month <;> cases isLeap year <;> rfl

namespace Date

variable {d : Date} {n : Int}

/-! ### The calendar -/

/-- The calendar has such a date. -/
structure InCalendar (d : Date) : Prop where
  month_pos : 1 ≤ d.month
  month_le : d.month ≤ 12
  day_pos : 1 ≤ d.day
  day_le : d.day ≤ daysIn d.year d.month

theorem isValid_iff : d.isValid = true ↔ d.InCalendar := by
  have hlength : (monthLengths (isLeap d.year)).length = 12 := by cases isLeap d.year <;> rfl
  simp only [isValid, Bool.and_eq_true, decide_eq_true_eq, Option.any_eq_true]
  constructor
  · rintro ⟨⟨hmonth, hday⟩, length, hget, hle⟩
    have hmonth' := (List.getElem?_eq_some_iff.mp hget).1
    rw [getElem?_monthLengths d.year hmonth (by omega), Option.some.injEq] at hget
    exact ⟨hmonth, by omega, hday, hget ▸ hle⟩
  · rintro ⟨hmonth, hmonth', hday, hle⟩
    exact ⟨⟨hmonth, hday⟩, _, getElem?_monthLengths d.year hmonth hmonth', hle⟩

/-- The date of the next day. -/
def next (d : Date) : Date :=
  if d.day < daysIn d.year d.month then { d with day := d.day + 1 }
  else if d.month < 12 then ⟨d.year, d.month + 1, 1⟩
  else ⟨d.year + 1, 1, 1⟩

theorem InCalendar.next (h : d.InCalendar) : d.next.InCalendar := by
  obtain ⟨hmonth, hmonth', hday, hle⟩ := h
  rw [Date.next]
  split_ifs with hin hlast
  · exact ⟨hmonth, hmonth', Nat.succ_pos _, hin⟩
  · exact ⟨Nat.succ_pos _, hlast, Nat.le_refl 1, one_le_daysIn _ _⟩
  · exact ⟨Nat.le_refl 1, Nat.le_add_left 1 11, Nat.le_refl 1, one_le_daysIn _ _⟩

/-- Every date is the next of one. -/
theorem InCalendar.exists_previous (h : d.InCalendar) : ∃ p : Date, p.InCalendar ∧ p.next = d := by
  obtain ⟨year, month, day⟩ := d
  obtain ⟨hmonth, hmonth', hday, hle⟩ := h
  dsimp only at hmonth hmonth' hday hle
  by_cases hfirst : day = 1
  · by_cases hjanuary : month = 1
    · have hdays : daysIn (year - 1) 12 = 31 := rfl
      refine ⟨⟨year - 1, 12, 31⟩, ⟨?_, ?_, ?_, ?_⟩, ?_⟩
      · exact Nat.le_add_left 1 11
      · exact Nat.le_refl 12
      · exact Nat.le_add_left 1 30
      · exact Nat.le_of_eq hdays.symm
      · rw [Date.next, if_neg (Nat.not_lt.mpr (Nat.le_of_eq hdays)), if_neg (Nat.lt_irrefl 12),
          Int.sub_add_cancel, hfirst, hjanuary]
    · refine ⟨⟨year, month - 1, daysIn year (month - 1)⟩, ⟨?_, ?_, ?_, ?_⟩, ?_⟩
      · exact Nat.le_sub_one_of_lt (Nat.lt_of_le_of_ne hmonth (Ne.symm hjanuary))
      · exact Nat.le_trans (Nat.sub_le month 1) hmonth'
      · exact one_le_daysIn year (month - 1)
      · exact Nat.le_refl _
      · have hlast : month - 1 < 12 := by omega
        rw [Date.next, if_neg (Nat.lt_irrefl _), if_pos hlast, Nat.sub_add_cancel hmonth, hfirst]
  · refine ⟨⟨year, month, day - 1⟩, ⟨hmonth, hmonth', ?_, ?_⟩, ?_⟩
    · exact Nat.le_sub_one_of_lt (Nat.lt_of_le_of_ne hday (Ne.symm hfirst))
    · exact Nat.le_trans (Nat.sub_le day 1) hle
    · have hin : day - 1 < daysIn year month := by omega
      rw [Date.next, if_pos hin, Nat.sub_add_cancel hday]

/-! ### The closed form -/

/-- The days of a year before a month. -/
def monthStart (year : Int) (month : Nat) : Nat :=
  ((monthLengths (isLeap year)).take (month - 1)).foldr (· + ·) 0

theorem monthStart_succ (year : Int) {month : Nat} (hpos : 1 ≤ month) (hle : month ≤ 12) :
    monthStart year (month + 1) = monthStart year month + daysIn year month := by
  rw [monthStart, monthStart, daysIn]
  interval_cases month <;> cases isLeap year <;> rfl

/-- The months make up the year. -/
theorem monthStart_le (year : Int) {month : Nat} (hpos : 1 ≤ month) (hle : month ≤ 12) :
    monthStart year month + daysIn year month ≤ if isLeap year then 366 else 365 := by
  rw [monthStart, daysIn]
  interval_cases month <;> cases isLeap year <;> decide

theorem monthStart_december (year : Int) :
    monthStart year 12 + 31 = if isLeap year then 366 else 365 := by
  rw [monthStart]
  cases isLeap year <;> rfl

theorem toDays_eq (d : Date) :
    d.toDays = yearStart d.year + (monthStart d.year d.month + (d.day - 1) : Nat) := by
  have hfoldr : ∀ (lengths : List Nat) (n : Nat),
      lengths.foldr (· + ·) n = lengths.foldr (· + ·) 0 + n := by
    intro lengths n
    induction lengths with
    | nil => exact (Nat.zero_add n).symm
    | cons length lengths ih => rw [List.foldr_cons, List.foldr_cons, ih, Nat.add_assoc]
  rw [toDays, daysBefore, hfoldr, monthStart]

/-- **One day later**, the number is one more. -/
theorem toDays_next (h : d.InCalendar) : d.next.toDays = d.toDays + 1 := by
  obtain ⟨hmonth, hmonth', hday, hle⟩ := h
  rw [toDays_eq, toDays_eq, next]
  split_ifs with hin hlast
  · dsimp only
    omega
  · have hsucc := monthStart_succ d.year hmonth hmonth'
    dsimp only
    omega
  · have hdecember : d.month = 12 := by omega
    have hyear := yearStart_succ d.year
    have htotal := monthStart_december d.year
    have hfirst : monthStart (d.year + 1) 1 = 0 := rfl
    have hdays : daysIn d.year d.month = 31 := by rw [hdecember]; rfl
    rw [hdecember]
    dsimp only
    split at htotal
    next hleap => rw [if_pos hleap] at hyear; omega
    next hleap => rw [if_neg hleap] at hyear; omega

/-- A date lies before the next year. -/
theorem toDays_lt (h : d.InCalendar) : d.toDays < yearStart (d.year + 1) := by
  have hle := monthStart_le d.year h.month_pos h.month_le
  have hpos := h.day_pos
  have hday := h.day_le
  rw [toDays_eq, yearStart_succ]
  split at hle
  next hleap => rw [if_pos hleap]; omega
  next hleap => rw [if_neg hleap]; omega

theorem eq_epoch (h : d.InCalendar) (hzero : d.toDays = 0) : d = ⟨1970, 1, 1⟩ := by
  have hlater : ∀ month ≤ 12, 2 ≤ month → 0 < monthStart 1970 month := by decide
  have hlt := toDays_lt h
  rw [hzero] at hlt
  rw [toDays_eq] at hzero
  obtain ⟨year, month, day⟩ := d
  obtain ⟨hmonth, hmonth', hday, -⟩ := h
  dsimp only at hmonth hmonth' hday hzero hlt
  have hyear : year = 1970 := by
    simp only [yearStart] at hzero hlt
    omega
  subst hyear
  have hstart : yearStart 1970 = 0 := rfl
  have hjanuary : month = 1 := by
    by_contra hne
    have := hlater month hmonth' (by omega)
    omega
  subst hjanuary
  have hfirst : day = 1 := by omega
  rw [hfirst]

/-! ### Counting -/

/-- The number of a date, counted day by day from the first of January 1970, in both directions. -/
inductive Numbered : Date → Int → Prop
  | epoch : Numbered ⟨1970, 1, 1⟩ 0
  | after {d : Date} {n : Int} : Numbered d n → Numbered d.next (n + 1)
  | before {d : Date} {n : Int} : d.InCalendar → Numbered d.next n → Numbered d (n - 1)

theorem Numbered.eq_toDays (h : Numbered d n) : d.InCalendar ∧ n = d.toDays := by
  induction h with
  | epoch => exact ⟨⟨by decide, by decide, by decide, by decide⟩, rfl⟩
  | after _ ih => exact ⟨ih.1.next, by rw [toDays_next ih.1, ih.2]⟩
  | before h _ ih => exact ⟨h, by rw [ih.2, toDays_next h]; omega⟩

theorem numbered_toDays (h : d.InCalendar) : Numbered d d.toDays := by
  -- by the distance from the epoch, to the day before it on one side and after it on the other
  have hforth : ∀ k : Nat, ∀ d : Date, d.InCalendar → d.toDays = k → Numbered d k := by
    intro k
    induction k with
    | zero => intro d h hk; rw [eq_epoch h hk]; exact .epoch
    | succ k ih =>
        intro d h hk
        obtain ⟨p, hp, rfl⟩ := h.exists_previous
        rw [toDays_next hp] at hk
        exact (ih p hp (by omega)).after
  have hback : ∀ k : Nat, ∀ d : Date, d.InCalendar → d.toDays = -k → Numbered d (-k) := by
    intro k
    induction k with
    | zero => intro d h hk; rw [eq_epoch h hk]; exact .epoch
    | succ k ih =>
        intro d h hk
        have hnext := ih d.next h.next (by rw [toDays_next h]; omega)
        have hsub : -((k + 1 : Nat) : Int) = -k - 1 := by omega
        rw [hsub]
        exact hnext.before h
  rcases Int.eq_nat_or_neg d.toDays with ⟨k, hk | hk⟩
  · rw [hk]
    exact hforth k d h hk
  · rw [hk]
    exact hback k d h hk

/-- **Numbers of dates** are what the closed form gives. -/
theorem numbered_iff : Numbered d n ↔ d.InCalendar ∧ n = d.toDays := by
  refine ⟨Numbered.eq_toDays, ?_⟩
  rintro ⟨h, rfl⟩
  exact numbered_toDays h

end Date

end AccessWindows.Calendar
