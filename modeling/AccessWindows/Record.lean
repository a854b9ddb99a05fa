import AccessWindows.Document.Binary64
import AccessWindows.Identity
import AccessWindows.TextMap
import AccessWindows.Timestamp

/-!
# Records

What storage returns and masking decides about: a value of a stream at an instant, and a group of
tags that describe a stream.
-/

namespace AccessWindows

/-- A value that a stream had at an instant. -/
structure Record where
  stream : StreamId
  time : Timestamp
  value : Binary64
  deriving DecidableEq

/-- The tags of a stream. -/
structure MetadataGroup where
  stream : StreamId
  tags : TextMap
  deriving DecidableEq

end AccessWindows
