import AccessWindows.Calendar.Rfc3339
import AccessWindows.Interval

/-!
# Instants on the command line

An instant may be given as a count of nanoseconds or as an RFC 3339 date-time.  A text that is
neither is told apart from a date-time that no timestamp reaches.
-/

namespace AccessWindows

/-- Why a text denotes no timestamp. -/
inductive InstantError where
  | unreadable (raw : String)
  | outOfRange (raw : String)
  deriving DecidableEq

/-- What is wrong with the text of an instant. -/
def InstantError.message : InstantError → String
  | .unreadable raw => "'" ++ raw ++ "' is neither nanoseconds nor RFC 3339"
  | .outOfRange raw => "'" ++ raw ++ "' is outside the representable range"

namespace Timestamp

/-- Reads nanoseconds or a date-time, white space around it aside. -/
def ofText (raw : String) : Except InstantError Timestamp :=
  let cs := Blank.trim raw.toList
  match (Decimal.signed? cs).bind ofNanos? with
  | some t => .ok t
  | none =>
    match Calendar.nanos? cs with
    | none => .error (.unreadable raw)
    | some n =>
      match ofNanos? n with
      | some t => .ok t
      | none => .error (.outOfRange raw)

end Timestamp

/-- The two ends as date-times. -/
def Interval.describe (i : Interval) : String :=
  Calendar.render i.first ++ " .. " ++ Calendar.render i.last

end AccessWindows
