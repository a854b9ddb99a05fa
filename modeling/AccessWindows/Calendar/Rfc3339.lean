import AccessWindows.Calendar.Date
import AccessWindows.Text.Blank
import AccessWindows.Timestamp

/-!
# RFC 3339 date-times

An instant is written as a date and a time of day in UTC with nine digits of fraction and a final
`Z`.  All texts have the same form, so their order is that of the instants.

Reading accepts more: either case of the letters, a space between date and time, a fraction of any
length, of which nine digits count, the second 60, which is the first of the next minute, and any
offset of hours and minutes, before which a minus sign proper may stand.  `nanos?` gives the exact
distance from the start of 1970, which need not fit in sixty-four bits.
-/

namespace AccessWindows.Calendar

/-- The text of an instant. -/
def render (t : Timestamp) : String :=
  let seconds := t.nanos / 1000000000
  let fraction := (t.nanos % 1000000000).toNat
  let date := Date.ofDays (seconds / 86400)
  let second := (seconds % 86400).toNat
  let time := Decimal.padded 2 (second / 3600) ++ ':' :: Decimal.padded 2 (second / 60 % 60) ++
    ':' :: Decimal.padded 2 (second % 60)
  String.ofList (Decimal.padded 4 date.year.toNat ++ '-' :: Decimal.padded 2 date.month ++
    '-' :: Decimal.padded 2 date.day ++ 'T' :: time ++ '.' :: Decimal.padded 9 fraction ++ ['Z'])

/-- The number in the next `count` characters, all of which must be digits, and the rest. -/
def digits? (count : Nat) (cs : List Char) : Option (Nat × List Char) :=
  if count ≤ cs.length then (Decimal.natural? (cs.take count)).map fun n => (n, cs.drop count)
  else none

/-- The rest behind a character that must come next. -/
def behind? (c : Char) : List Char → Option (List Char)
  | d :: rest => if c = d then some rest else none
  | [] => none

/-- The fraction of a second in nanoseconds, if there is one, and the rest. -/
def fraction? : List Char → Option (Nat × List Char)
  | '.' :: cs =>
    match cs.takeWhile fun c => (Decimal.digitValue? c).isSome with
    | [] => none
    | ds => (Decimal.natural? ((ds ++ List.replicate 9 '0').take 9)).map fun n =>
      (n, cs.drop ds.length)
  | cs => some (0, cs)

/-- The hours and minutes of an offset, in seconds, if they end the text. -/
def hoursMinutes? (cs : List Char) : Option Int := do
  let (hours, cs) ← digits? 2 cs
  let cs ← behind? ':' cs
  let (minutes, cs) ← digits? 2 cs
  if hours < 24 ∧ minutes < 60 ∧ cs = [] then some (3600 * hours + 60 * minutes) else none

/-- The offset from UTC that ends a text, in seconds. -/
def offset? : List Char → Option Int
  | ['Z'] => some 0
  | ['z'] => some 0
  | '+' :: cs => hoursMinutes? cs
  | '-' :: cs => (hoursMinutes? cs).map fun s => -s
  | '\u2212' :: cs => (hoursMinutes? cs).map fun s => -s
  | _ => none

/-- The date at the start of a text, and the rest. -/
def date? (cs : List Char) : Option (Date × List Char) := do
  let (year, cs) ← digits? 4 cs
  let (month, cs) ← digits? 2 (← behind? '-' cs)
  let (day, cs) ← digits? 2 (← behind? '-' cs)
  let date : Date := { year, month, day }
  if date.isValid then some (date, cs) else none

/-- The sign between date and time of day. -/
def separator? : List Char → Option (List Char)
  | 'T' :: cs => some cs
  | 't' :: cs => some cs
  | ' ' :: cs => some cs
  | _ => none

/-- The time of day at the start of a text, in nanoseconds, and the rest. -/
def time? (cs : List Char) : Option (Nat × List Char) := do
  let (hour, cs) ← digits? 2 cs
  let (minute, cs) ← digits? 2 (← behind? ':' cs)
  let (second, cs) ← digits? 2 (← behind? ':' cs)
  let (fraction, cs) ← fraction? cs
  if hour < 24 ∧ minute < 60 ∧ second ≤ 60 then
    some ((3600 * hour + 60 * minute + second) * 1000000000 + fraction, cs)
  else none

/-- The nanoseconds from the start of 1970 to the instant that a date-time denotes. -/
def nanos? (cs : List Char) : Option Int := do
  let (date, cs) ← date? cs
  let cs ← separator? cs
  let (time, cs) ← time? cs
  let offset ← offset? cs
  return (86400 * date.toDays - offset) * 1000000000 + time

end AccessWindows.Calendar
