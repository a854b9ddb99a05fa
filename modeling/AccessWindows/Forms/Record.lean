import AccessWindows.Forms.Basic
import AccessWindows.Record

/-!
# Written forms of records

Records of streams and groups of tags.  A value may be written as a whole number, and is then the
binary64 number nearest to it.
-/

namespace AccessWindows

open Document

/-- A number, whole or not. -/
def Binary64.ofValue? : Value → Option Binary64
  | .int n => some (Binary64.ofInt n)
  | .real x => some x
  | _ => none

def Record.toValue (r : Record) : Value :=
  .record [("stream", r.stream.toValue), ("time", r.time.toValue), ("value", .real r.value)]

def Record.ofValue? (d : Dialect) (v : Value) : Option Record := do
  let fs ← v.fields? d ["stream", "time", "value"] .ignored
  return {
    stream := ← fs.required "stream" StreamId.ofValue?
    time := ← fs.required "time" Timestamp.ofValue?
    value := ← fs.required "value" Binary64.ofValue? }

def MetadataGroup.toValue (g : MetadataGroup) : Value :=
  .record [("stream", g.stream.toValue), ("tags", .ofTextMap g.tags)]

def MetadataGroup.ofValue? (d : Dialect) (v : Value) : Option MetadataGroup := do
  let fs ← v.fields? d ["stream", "tags"] .ignored
  return {
    stream := ← fs.required "stream" StreamId.ofValue?
    tags := ← fs.optional "tags" TextMap.empty Value.textMap? }

end AccessWindows
