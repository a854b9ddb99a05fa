import AccessWindows.Bisect
import AccessWindows.Interval

/-!
# Range sets

A range set is a set of instants written as intervals that ascend, never overlap and never abut:
between two neighbours at least one instant is left out.  `ofList` brings any list of intervals
into that form.  It takes them one after the other and lets each absorb the accepted ones it
touches, so that what has been accepted never touches itself, and sorts once at the end.

Membership is by bisection: the only range that can hold an instant is the first one that does not
end before it.
-/

namespace AccessWindows

/-- Separates the accepted intervals that touch the growing candidate from those that do not. -/
def Interval.absorb (candidate : Interval) : List Interval → Interval × List Interval
  | [] => (candidate, [])
  | i :: rest =>
    if i.touches candidate then (candidate.hull i).absorb rest
    else
      let (grown, kept) := candidate.absorb rest
      (grown, i :: kept)

/-- One more interval among those accepted, of which it absorbs the ones it touches. -/
def Interval.accept (accepted : List Interval) (i : Interval) : List Interval :=
  let (grown, kept) := i.absorb accepted
  kept ++ [grown]

/-- Intervals that cover the same instants, no two of them touching, by ascending first instant. -/
def coalesce (intervals : List Interval) : List Interval :=
  (intervals.foldl Interval.accept []).mergeSort fun a b => a.first ≤ b.first

/-- A set of instants, as the array of its ranges. -/
structure RangeSet where
  ranges : Array Interval
  deriving DecidableEq

namespace RangeSet

/-- The set without an instant. -/
def empty : RangeSet := ⟨#[]⟩

/-- The instants that lie in one of the intervals. -/
def ofList (intervals : List Interval) : RangeSet := ⟨(coalesce intervals).toArray⟩

/-- The ranges, in ascending order. -/
def toList (s : RangeSet) : List Interval := s.ranges.toList

def isEmpty (s : RangeSet) : Bool := s.ranges.isEmpty

/-- The number of ranges. -/
def size (s : RangeSet) : Nat := s.ranges.size

/-- The instants of either set.  Nothing is done when the second has none. -/
def union (s other : RangeSet) : RangeSet :=
  if other.isEmpty then s else ofList (s.toList ++ other.toList)

/-- The instant lies in the first range that does not end before it. -/
def contains (s : RangeSet) (t : Timestamp) : Bool :=
  s.ranges[bisect (fun r => r.last < t) s.ranges]?.any fun r => r.contains t

/-- Nanoseconds from first to last instant, over all ranges. -/
def duration (s : RangeSet) : Nat := (s.toList.map Interval.duration).foldr (· + ·) 0

/-- The ranges, a space between two; an empty set is called so. -/
def text (s : RangeSet) : String :=
  if s.isEmpty then "(empty)" else " ".intercalate (s.toList.map Interval.text)

end RangeSet

end AccessWindows
