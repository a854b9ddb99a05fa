import AccessWindows.Failure
import AccessWindows.Identity
import AccessWindows.Resource

/-!
# Stream indexes in memory

Which resource a stream belongs to is what was said about it last; being unreachable goes before
being known.
-/

namespace AccessWindows

/-- The resources of streams. -/
structure StreamIndex where
  /-- What was said about streams, the latest first. -/
  entries : List (StreamId × Resource) := []
  unreachable : List StreamId := []

namespace StreamIndex

/-- Says which resource a stream belongs to. -/
def insert (x : StreamIndex) (stream : StreamId) (resource : Resource) : StreamIndex :=
  { x with entries := (stream, resource) :: x.entries }

/-- Makes all questions for a stream fail. -/
def cutOff (x : StreamIndex) (stream : StreamId) : StreamIndex :=
  { x with unreachable := stream :: x.unreachable }

/-- The result of a question for a stream. -/
def answer (x : StreamIndex) (stream : StreamId) : Except Failure Resource :=
  if stream ∈ x.unreachable then
    .error (.storage ("Metadata store unavailable for stream " ++ stream.text))
  else
    match x.entries.lookup stream with
    | some resource => .ok resource
    | none => .error (.notFound ("Unknown stream " ++ stream.text))

end StreamIndex

end AccessWindows
