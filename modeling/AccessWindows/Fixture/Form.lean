import AccessWindows.Document.Toml.Reader
import AccessWindows.Fixture.Basic
import AccessWindows.Forms.Outcome

/-!
# Written forms of fixtures

A fixture is a record of three lists, each of which may be left out.  No key may be given that is
not the name of a field.
-/

namespace AccessWindows

open Document

namespace CredentialEntry

def fieldNames : List String := "id" :: Credential.fieldNames ++ ["state", "unreachable"]

def toValue (e : CredentialEntry) : Value :=
  .record (("id", .text e.id) :: e.credential.fields ++
    [("state", e.state.toValue), ("unreachable", .bool e.unreachable)])

def ofValue? (d : Dialect) (v : Value) : Option CredentialEntry := do
  let fs ← v.fields? d fieldNames .refused
  return {
    id := ← fs.required "id" Value.text?
    credential := ← Credential.ofFields? d fs
    state := ← fs.optional "state" .valid (Validity.ofValue? d)
    unreachable := ← fs.optional "unreachable" false Value.bool? }

end CredentialEntry

namespace ChainEntry

def toValue (e : ChainEntry) : Value :=
  .record [("principal", e.principal.toValue), ("resource", e.resource.toValue),
    ("hops", .list (e.hops.map Value.text)), ("inline", .bool e.inFull)]

def ofValue? (d : Dialect) (v : Value) : Option ChainEntry := do
  let fs ← v.fields? d ["principal", "resource", "hops", "inline"] .refused
  return {
    principal := ← fs.required "principal" Principal.ofValue?
    resource := ← fs.required "resource" ResourcePattern.ofValue?
    hops := ← fs.required "hops" (Value.items? Value.text?)
    inFull := ← fs.optional "inline" false Value.bool? }

end ChainEntry

namespace StreamEntry

def toValue (e : StreamEntry) : Value :=
  .record [("name", .text e.name), ("resource", e.resource.toValue),
    ("unreachable", .bool e.unreachable)]

def ofValue? (d : Dialect) (v : Value) : Option StreamEntry := do
  let fs ← v.fields? d ["name", "resource", "unreachable"] .refused
  return {
    name := ← fs.required "name" Value.text?
    resource := ← fs.required "resource" Resource.ofValue?
    unreachable := ← fs.optional "unreachable" false Value.bool? }

end StreamEntry

namespace Fixture

def toValue (f : Fixture) : Value :=
  .record [("credentials", .list (f.credentials.map CredentialEntry.toValue)),
    ("chains", .list (f.chains.map ChainEntry.toValue)),
    ("streams", .list (f.streams.map StreamEntry.toValue))]

def ofValue? (d : Dialect) (v : Value) : Option Fixture := do
  let fs ← v.fields? d ["credentials", "chains", "streams"] .refused
  return {
    credentials := ← fs.optional "credentials" [] (Value.items? (CredentialEntry.ofValue? d))
    chains := ← fs.optional "chains" [] (Value.items? (ChainEntry.ofValue? d))
    streams := ← fs.optional "streams" [] (Value.items? (StreamEntry.ofValue? d)) }

/-- Reads a fixture from the text of a TOML document. -/
def ofToml (text : String) : Except FixtureError Fixture :=
  match (Toml.read? text).bind (ofValue? .toml) with
  | some f => .ok f
  | none => .error .malformed

/-- Reads a fixture from a file. -/
def ofFile (path : String) (content : FileText) : Except FixtureError Fixture :=
  match content with
  | .error fault => .error (.unreadable path fault)
  | .ok text => ofToml text

end Fixture

end AccessWindows
