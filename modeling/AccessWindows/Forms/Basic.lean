import AccessWindows.Document.Fields
import AccessWindows.Identity
import AccessWindows.Interval
import AccessWindows.Permission
import AccessWindows.Resource
import AccessWindows.Timestamp

/-!
# Written forms of simple values

How timestamps, identities, resources, permissions and failures stand in documents.  Each type has
`toValue`, the one form that is written, and `ofValue?`, which reads that form and whatever else is
accepted for it.
-/

namespace AccessWindows

open Document

/-- An instant is its count of nanoseconds. -/
def Timestamp.toValue (t : Timestamp) : Value := .int t.nanos

def Timestamp.ofValue? (v : Value) : Option Timestamp := do Timestamp.ofNanos? (← v.int?)

/-- A principal is its name. -/
def Principal.toValue (p : Principal) : Value := .text p.name

def Principal.ofValue? (v : Value) : Option Principal := do return ⟨← v.text?⟩

/-- A stream is the text of its identifier. -/
def StreamId.toValue (id : StreamId) : Value := .text id.text

def StreamId.ofValue? (v : Value) : Option StreamId := do StreamId.ofText? (← v.text?)

/-- A hash is its digits. -/
def CredentialHash.toValue (h : CredentialHash) : Value := .text h.hex

def CredentialHash.ofValue? (v : Value) : Option CredentialHash := do
  (CredentialHash.ofText (← v.text?)).toOption

/-- A resource is its path. -/
def Resource.toValue (r : Resource) : Value := .text r.text

def Resource.ofValue? (v : Value) : Option Resource := do (Resource.ofText (← v.text?)).toOption

/-- A pattern is its path. -/
def ResourcePattern.toValue (p : ResourcePattern) : Value := .text p.text

def ResourcePattern.ofValue? (v : Value) : Option ResourcePattern := do
  (ResourcePattern.ofText (← v.text?)).toOption

/-- A permission is its name. -/
def Permission.toValue (p : Permission) : Value := .text p.name

def Permission.ofValue? (d : Dialect) (v : Value) : Option Permission := do
  Permission.all[← v.option? d (Permission.all.map Permission.name)]?

/-- A set of permissions is the list of those in it. -/
def PermissionSet.toValue (s : PermissionSet) : Value :=
  .list (s.toList.map Permission.toValue)

def PermissionSet.ofValue? (d : Dialect) (v : Value) : Option PermissionSet :=
  PermissionSet.ofList <$> v.items? (Permission.ofValue? d)

/-- An interval is the record of its two ends. -/
def Interval.toValue (i : Interval) : Value :=
  .record [("start", i.first.toValue), ("end", i.last.toValue)]

namespace Failure

/-- The name of the kind of failure. -/
def kind : Failure → String
  | .invalid _ => "Invalid"
  | .notFound _ => "NotFound"
  | .network _ => "Network"
  | .timeout _ _ => "Timeout"
  | .serialization _ => "Serialization"
  | .storage _ => "Storage"
  | .internal _ => "Internal"

/-- A failure is a table with its kind as the only key. -/
def toValue (f : Failure) : Value :=
  let body : Value := match f with
    | .timeout operation ms =>
      .record [("operation", .text operation), ("timeout_ms", .int ms.toNat)]
    | .invalid m | .notFound m | .network m | .serialization m | .storage m | .internal m =>
      .record [("message", .text m)]
  .record [(f.kind, body)]

/-- The failure of a kind whose message is `m`. -/
def ofKind? (kind : String) (m : String) : Option Failure :=
  match kind with
  | "Invalid" => some (.invalid m)
  | "NotFound" => some (.notFound m)
  | "Network" => some (.network m)
  | "Serialization" => some (.serialization m)
  | "Storage" => some (.storage m)
  | "Internal" => some (.internal m)
  | _ => none

/-- The failure that a document of JSON stands for.  Its body must be a table.  One who reads the
text without making a document of it first might take the list of the fields as well; that is left
out here. -/
def ofValue? (v : Value) : Option Failure := do
  let .table [(.name kind, .table body)] := v | none
  if kind = "Timeout" then
    let fs ← Value.fields? .json ["operation", "timeout_ms"] .ignored (.table body)
    return .timeout (← fs.required "operation" Value.text?) (← fs.required "timeout_ms" Value.word?)
  else
    let fs ← Value.fields? .json ["message"] .ignored (.table body)
    ofKind? kind (← fs.required "message" Value.text?)

end Failure

end AccessWindows
