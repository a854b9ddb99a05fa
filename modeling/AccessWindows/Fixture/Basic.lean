import AccessWindows.Files
import AccessWindows.World

/-!
# Fixtures

A fixture declares credentials, chains and streams, from which `build` makes a world.  Chains refer
to credentials by the identifiers that the fixture gives them, so these must be distinct and every
hop must be one of them.  All else is as declared: credentials are stored, chains are routed and
streams are indexed in the order of their declaration.
-/

namespace AccessWindows

/-- A credential and how the registry treats it. -/
structure CredentialEntry where
  /-- What chains call the credential. -/
  id : String
  credential : Credential
  state : Validity := .valid
  /-- Questions for the credential fail. -/
  unreachable : Bool := false
  deriving DecidableEq

/-- A chain that discovery reports. -/
structure ChainEntry where
  principal : Principal
  /-- The resources for which the chain is reported. -/
  resource : ResourcePattern
  /-- The identifiers of its credentials, in order. -/
  hops : List String
  /-- The chain holds the credentials themselves, not their hashes. -/
  inFull : Bool := false
  deriving DecidableEq

/-- A stream and the resource that it belongs to. -/
structure StreamEntry where
  name : String
  resource : Resource
  /-- Questions for the stream fail. -/
  unreachable : Bool := false
  deriving DecidableEq

/-- The description of a world. -/
structure Fixture where
  credentials : List CredentialEntry := []
  chains : List ChainEntry := []
  streams : List StreamEntry := []
  deriving DecidableEq

/-- Why there is no world. -/
inductive FixtureError where
  | unreadable (path : String) (fault : FileFault)
  | malformed
  | repeatedId (id : String)
  | unknownHop (id : String)
  deriving DecidableEq

/-- The failure that stands for such an error.  For a document that describes no world, the message
ends before the cause, which is in the words of whoever reads the notation. -/
def FixtureError.toFailure : FixtureError → Failure
  | .unreadable path fault => .storage ("Failed to read " ++ path ++ ": " ++ fault.message)
  | .malformed => .serialization "Invalid fixture"
  | .repeatedId id => .invalid ("Duplicate credential id '" ++ id ++ "'")
  | .unknownHop id => .invalid ("Chain references unknown credential '" ++ id ++ "'")

/-- Stores the credential of an entry. -/
def Registry.declare (r : Registry) (e : CredentialEntry) : Registry :=
  let r := r.register e.credential e.state
  if e.unreachable then r.cutOff e.credential.hash else r

/-- Indexes the stream of an entry. -/
def StreamIndex.declare (x : StreamIndex) (e : StreamEntry) : StreamIndex :=
  let x := x.insert (.ofName e.name) e.resource
  if e.unreachable then x.cutOff (.ofName e.name) else x

namespace Fixture

/-- The first of the texts that is one of those before it. -/
def firstRepeated? (seen : List String) : List String → Option String
  | [] => none
  | s :: rest => if s ∈ seen then some s else firstRepeated? (s :: seen) rest

/-- The credential with an identifier. -/
def find? (f : Fixture) (id : String) : Option Credential :=
  (f.credentials.find? fun e => e.id == id).map CredentialEntry.credential

/-- The slot that a hop stands for. -/
def slot (f : Fixture) (inFull : Bool) (id : String) : Except FixtureError Slot :=
  match f.find? id with
  | none => .error (.unknownHop id)
  | some c => .ok (if inFull then .resolved c else .unresolved c.hash)

/-- The route that a chain is reported by. -/
def route (f : Fixture) (e : ChainEntry) : Except FixtureError Route := do
  let slots ← e.hops.mapM (f.slot e.inFull)
  return ⟨e.principal, e.resource, ⟨slots⟩⟩

/-- The world that the fixture describes. -/
def build (f : Fixture) : Except FixtureError World := do
  if let some id := firstRepeated? [] (f.credentials.map CredentialEntry.id) then
    throw (.repeatedId id)
  let routes ← f.chains.mapM f.route
  return {
    routes := { routes }
    registry := f.credentials.foldl Registry.declare {}
    streams := f.streams.foldl StreamIndex.declare {} }

/-- The identifier of a declared stream. -/
def streamId? (f : Fixture) (name : String) : Option StreamId :=
  if f.streams.any fun e => e.name == name then some (.ofName name) else none

/-- The name of the first declared stream with that identifier. -/
def streamName? (f : Fixture) (id : StreamId) : Option String :=
  (f.streams.find? fun e => StreamId.ofName e.name == id).map StreamEntry.name

end Fixture

end AccessWindows
