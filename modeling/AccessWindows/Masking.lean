import AccessWindows.RangeSet
import AccessWindows.Record

/-!
# Masking

Which records may be seen: those at instants of a range set.  `keepSorted` cuts one slice of the
records for each range, whose ends are found by bisection; it relies on records that ascend in
time, and `keep` sorts them first.  Records of one instant keep their order.
-/

namespace AccessWindows

/-- The records by ascending time. -/
def sortByTime (records : List Record) : List Record :=
  records.mergeSort fun a b => a.time ≤ b.time

namespace RangeSet

/-- The records from the first instant of a range to the last, of records that ascend in time. -/
def slice (records : Array Record) (range : Interval) : List Record :=
  let start := bisect (fun r => r.time < range.first) records
  let stop := bisect (fun r => r.time ≤ range.last) records
  (records.extract start stop).toList

/-- Those records at instants of the set, of records that ascend in time. -/
def keepSorted (s : RangeSet) (records : List Record) : List Record :=
  s.toList.flatMap (slice records.toArray)

/-- The records at instants of the set, by ascending time. -/
def keep (s : RangeSet) (records : List Record) : List Record :=
  s.keepSorted (sortByTime records)

/-- Tags have no time: they may be seen by whoever may see anything. -/
def keepsTags (s : RangeSet) : Bool := !s.isEmpty

end RangeSet

end AccessWindows
