import AccessWindows.CommandLine.Session
import AccessWindows.Document.Json.Reader
import AccessWindows.Document.Json.Writer
import AccessWindows.Forms.Outcome
import AccessWindows.Forms.Record

/-!
# Written forms of questions and answers

Records and groups are read from JSON and written in the same form, by the names of their streams.
Ranges are written as JSON with ascending keys, or as lines of text.
-/

namespace AccessWindows

open Document

/-- A report as a document. -/
def Report.toValue (r : Report) : Value :=
  .record [("candidates", .int r.candidates), ("resolved", .int r.resolved),
    ("rejected", .record (r.rejected.map fun (cause, n) => (cause.label, .int n)))]

namespace CommandLine

namespace NamedRecord

def toValue (r : NamedRecord) : Value :=
  .record [("stream", .text r.stream), ("time", r.time.toValue), ("value", .real r.value)]

def ofValue? (v : Value) : Option NamedRecord := do
  let fs ← v.fields? .json ["stream", "time", "value"] .ignored
  return {
    stream := ← fs.required "stream" Value.text?
    time := ← fs.required "time" Timestamp.ofValue?
    value := ← fs.required "value" Binary64.ofValue? }

end NamedRecord

namespace NamedGroup

def toValue (g : NamedGroup) : Value :=
  .record [("stream", .text g.stream), ("tags", .ofTextMap g.tags)]

def ofValue? (v : Value) : Option NamedGroup := do
  let fs ← v.fields? .json ["stream", "tags"] .ignored
  return {
    stream := ← fs.required "stream" Value.text?
    tags := ← fs.optional "tags" TextMap.empty Value.textMap? }

end NamedGroup

/-- Reads a list of documents of one kind from a JSON file. -/
def inputs {α : Type} (read : Value → Option α) (path : String) (content : FileText) :
    Except Error (List α) :=
  match content with
  | .error _ => .error (.inputUnreadable path)
  | .ok text =>
    match (Json.read? text).bind (Value.items? read) with
    | some inputs => .ok inputs
    | none => .error (.inputMalformed path)

/-- A range with its ends in both notations. -/
def rangeValue (i : Interval) : Value :=
  .record [("start", i.first.toValue), ("end", i.last.toValue),
    ("start_rfc3339", .text (Calendar.render i.first)),
    ("end_rfc3339", .text (Calendar.render i.last))]

/-- The answer to a request for ranges, as a document. -/
def rangesValue (q : Request) (ranges : RangeSet) (report : Report) : Value :=
  Json.sortKeys (.record [("resource", q.resource.toValue),
    ("principal", q.principal.toValue), ("permission", q.permission.toValue),
    ("ranges", .list (ranges.toList.map rangeValue)), ("report", report.toValue)])

/-- The lines for the ranges of a set. -/
def rangeLines (ranges : RangeSet) : List String :=
  if ranges.isEmpty then ["  none"]
  else ranges.toList.map fun i => "  " ++ i.text ++ "  " ++ i.describe

/-- The lines for a report. -/
def reportLines (report : Report) : List String :=
  ("Chains: " ++ Decimal.text report.candidates ++ " discovered, " ++
    Decimal.text report.resolved ++ " resolved, " ++ Decimal.text report.rejectedTotal ++
    " rejected") ::
  report.rejected.map fun (cause, n) => "  " ++ cause.label ++ ": " ++ Decimal.text n

/-- The lines for the answer to a request for ranges. -/
def rangesLines (q : Request) (ranges : RangeSet) (report : Report) : List String :=
  ("Valid ranges for " ++ q.principal.name ++ " on " ++ q.resource.text ++ " (" ++
    q.permission.name ++ "):") ::
  (rangeLines ranges ++ reportLines report)

/-- The line for a verdict. -/
def verdictLine (q : Request) (t : Timestamp) (granted : Bool) : String :=
  (if granted then "GRANTED " else "DENIED ") ++ q.principal.name ++ " " ++ q.permission.name ++
    " on " ++ q.resource.text ++ " at " ++ Calendar.render t

/-- Lines as a text. -/
def unlines (lines : List String) : String := String.join (lines.map (· ++ "\n"))

end CommandLine

end AccessWindows
