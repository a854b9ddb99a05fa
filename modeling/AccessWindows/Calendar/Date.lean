/-!
# Calendar dates

The Gregorian calendar, extended to all years in both directions.  A date is counted in days from
the first of January 1970.

`yearStart` gives the first day of a year in closed form.  `yearOf` inverts it by an estimate that
is at most one year off.  Within a year, a day is placed by running through the months.
-/

namespace AccessWindows.Calendar

/-- A year with a 29th of February. -/
def isLeap (year : Int) : Bool := year % 4 = 0 && (year % 100 ≠ 0 || year % 400 = 0)

/-- The first day of a year, in days since the start of 1970. -/
def yearStart (year : Int) : Int :=
  let y := year - 1
  365 * y + y / 4 - y / 100 + y / 400 - 719162

/-- The year in which a day lies. -/
def yearOf (day : Int) : Int :=
  let estimate := 400 * (day + 719162) / 146097 + 1
  if day < yearStart estimate then estimate - 1
  else if yearStart (estimate + 1) ≤ day then estimate + 1
  else estimate

/-- The lengths of the months. -/
def monthLengths (leap : Bool) : List Nat :=
  [31, if leap then 29 else 28, 31, 30, 31, 30, 31, 31, 30, 31, 30, 31]

/-- A day of a calendar year. -/
structure Date where
  year : Int
  month : Nat
  day : Nat
  deriving DecidableEq

/-- The month, counted from the given one, and the day of the month of a day of the year, which
is counted from zero. -/
def placeInMonths (month : Nat) (day : Nat) : List Nat → Nat × Nat
  | [] => (month, day + 1)
  | length :: rest =>
    if day < length then (month, day + 1) else placeInMonths (month + 1) (day - length) rest

namespace Date

/-- The date of a day. -/
def ofDays (n : Int) : Date :=
  let year := yearOf n
  let (month, day) := placeInMonths 1 (n - yearStart year).toNat (monthLengths (isLeap year))
  { year, month, day }

/-- There is such a month, and such a day in it. -/
def isValid (d : Date) : Bool :=
  1 ≤ d.month && 1 ≤ d.day &&
    ((monthLengths (isLeap d.year))[d.month - 1]?).any fun length => d.day ≤ length

/-- Days of its year before the date. -/
def daysBefore (d : Date) : Nat :=
  ((monthLengths (isLeap d.year)).take (d.month - 1)).foldr (· + ·) (d.day - 1)

/-- Days since the start of 1970. -/
def toDays (d : Date) : Int := yearStart d.year + d.daysBefore

end Date

end AccessWindows.Calendar
