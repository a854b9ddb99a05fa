import AccessWindows.CommandLine.Configuration
import AccessWindows.Engine
import AccessWindows.Fixture.Form

/-!
# Sessions

A session is an engine over the world of a fixture, with the fixture itself, which knows the names
of streams.  All commands are questions to a session; names become identifiers on the way in and
names again on the way out.
-/

namespace AccessWindows.CommandLine

/-- An engine and the fixture that its world was built from. -/
structure Session where
  fixture : Fixture
  engine : Engine Id

/-- A record of a stream that is known by its name. -/
structure NamedRecord where
  stream : String
  time : Timestamp
  value : Binary64
  deriving DecidableEq

/-- Tags of a stream that is known by its name. -/
structure NamedGroup where
  stream : String
  tags : TextMap
  deriving DecidableEq

namespace Session

/-- The file of the fixture: the one on the command line, or else the configured one. -/
def fixturePath (c : Configuration) (chosen : Option String) : Except Error String :=
  match chosen.or c.fixture with
  | some path => .ok path
  | none => .error .noFixture

/-- A session over the fixture in a file. -/
def start (c : Configuration) (path : String) (content : FileText) : Except Error Session := do
  let fixture ← (Fixture.ofFile path content).mapError fun _ => .fixtureUnusable path
  let world ← fixture.build.mapError .noWorld
  let engine ← (Engine.create world.collaborators c.access).mapError .access
  return ⟨fixture, engine⟩

/-- The ranges of a request, and how they came about. -/
def ranges (s : Session) (q : Request) : Except Error (RangeSet × Report) :=
  (s.engine.explain q : Except _ _).mapError .access

/-- The instant that a text denotes, and whether the request is granted then. -/
def check (s : Session) (q : Request) (instant : String) : Except Error (Timestamp × Bool) := do
  let t ← (Timestamp.ofText instant).mapError .instant
  let ranges ← (s.engine.validRanges q : Except _ _).mapError .access
  return (t, ranges.contains t)

/-- The stream of a name, which must be declared. -/
def streamId (s : Session) (name : String) : Except Error StreamId :=
  match s.fixture.streamId? name with
  | some id => .ok id
  | none => .error (.undeclaredStream name)

/-- The name of a stream, or else its identifier. -/
def streamName (s : Session) (id : StreamId) : String := (s.fixture.streamName? id).getD id.text

/-- A record by the identifier of its stream. -/
def identified (s : Session) (r : NamedRecord) : Except Error Record := do
  return ⟨← s.streamId r.stream, r.time, r.value⟩

/-- A group by the identifier of its stream. -/
def identifiedGroup (s : Session) (g : NamedGroup) : Except Error MetadataGroup := do
  return ⟨← s.streamId g.stream, g.tags⟩

/-- The records that a principal may see. -/
def mask (s : Session) (principal : Principal) (records : List NamedRecord) :
    Except Error (List NamedRecord) := do
  let records ← records.mapM s.identified
  let kept ← (s.engine.maskRecords principal records : Except _ _).mapError .access
  return kept.map fun r => ⟨s.streamName r.stream, r.time, r.value⟩

/-- The groups of tags that a principal may see. -/
def maskGroups (s : Session) (principal : Principal) (groups : List NamedGroup) :
    Except Error (List NamedGroup) := do
  let groups ← groups.mapM s.identifiedGroup
  let kept ← (s.engine.maskGroups principal groups : Except _ _).mapError .access
  return kept.map fun g => ⟨s.streamName g.stream, g.tags⟩

end Session

end AccessWindows.CommandLine
