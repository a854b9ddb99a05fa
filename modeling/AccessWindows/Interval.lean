import AccessWindows.Timestamp

/-!
# Intervals

A closed interval of instants, both ends included, so that none is empty.  Two intervals *touch*
when they share an instant or when one begins at the instant right after the other's last: there
is then no instant between them, and `hull` covers exactly what the two cover together.

The last instant has no successor, so an interval that reaches it abuts nothing behind it.
-/

namespace AccessWindows

/-- The instants from `first` to `last`, both included. -/
structure Interval where
  first : Timestamp
  last : Timestamp
  ordered : first ≤ last
  deriving DecidableEq

namespace Interval

/-- The interval between two instants, if they are in order. -/
def between? (first last : Timestamp) : Option Interval :=
  if h : first ≤ last then some ⟨first, last, h⟩ else none

/-- An instant lies within both ends. -/
def contains (i : Interval) (t : Timestamp) : Bool := i.first ≤ t && t ≤ i.last

/-- Some instant lies in both. -/
def overlaps (a b : Interval) : Bool := a.first ≤ b.last && b.first ≤ a.last

/-- The second begins at the instant after the last of the first. -/
def meets (a b : Interval) : Bool := a.last.next? == some b.first

/-- No instant lies between the two: they share one, or one begins right behind the other. -/
def touches (a b : Interval) : Bool := a.overlaps b || a.meets b || b.meets a

/-- The shortest interval that holds both. -/
def hull (a b : Interval) : Interval where
  first := a.first.earlier b.first
  last := a.last.later b.last
  ordered := by
    have ha : a.first.nanos ≤ a.last.nanos := a.ordered
    have hb : b.first.nanos ≤ b.last.nanos := b.ordered
    unfold Timestamp.earlier Timestamp.later
    simp only [Timestamp.le_def, Timestamp.lt_def]
    split <;> split <;> omega

/-- Nanoseconds from the first instant to the last. -/
def duration (i : Interval) : Nat := (i.last.nanos - i.first.nanos).toNat

/-- The two ends in brackets, in nanoseconds. -/
def text (i : Interval) : String := "[" ++ i.first.text ++ ", " ++ i.last.text ++ "]"

end Interval

end AccessWindows
