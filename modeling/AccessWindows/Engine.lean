import AccessWindows.Masking
import AccessWindows.Resolution.Resolver
import AccessWindows.Window

/-!
# Engine

When a principal held a permission on a resource, and which of some records it may therefore see.
Nothing is kept between two questions.

Masking asks once for each stream that occurs, all together, and then once for each resource that
one of them belongs to, all together; both in ascending order.  The question that is the first to
fail decides.
-/

namespace AccessWindows

/-- Collaborators, and settings that have been checked. -/
structure Engine (m : Type → Type) where
  collaborators : Collaborators m
  settings : Settings
  checked : settings.check = .ok settings

theorem Settings.eq_of_check {s t : Settings} (h : s.check = .ok t) : t = s := by
  unfold Settings.check at h
  split at h
  · cases h
  · split at h
    · cases h
    · split at h
      · cases h
      · cases h; rfl

namespace Engine

variable {m : Type → Type}

/-- An engine over some collaborators, if the settings can be used. -/
def create (c : Collaborators m) (s : Settings) : Except AccessError (Engine m) :=
  match h : s.check with
  | .error cause => .error (.configuration cause)
  | .ok t => .ok ⟨c, t, by rw [Settings.eq_of_check h]; exact Settings.eq_of_check h ▸ h⟩

variable [Monad m]

/-- The instants at which the request is granted, and how that came about. -/
def explain (e : Engine m) (q : Request) : m (Except AccessError (RangeSet × Report)) := do
  let outcome ← q.resolve e.collaborators e.settings
  return outcome.map fun r => (.ofChains r.chains, r.report)

/-- The instants at which the request is granted. -/
def validRanges (e : Engine m) (q : Request) : m (Except AccessError RangeSet) := do
  let outcome ← e.explain q
  return outcome.map Prod.fst

/-- The instants that these candidates of a request grant. -/
def granted (e : Engine m) (q : Request) (chains : List CandidateChain) : m RangeSet := do
  let resolution ← q.resolveAll e.collaborators e.settings chains
  return .ofChains resolution.chains

/-- The resource in an answer for a stream. -/
def resourceIn (s : Settings) (stream : StreamId) (reply : Reply Resource) :
    Except AccessError Resource :=
  (reply.outcome "stream resource lookup" s.lookupTimeout).mapError (.resourceLookupFailed stream)

/-- Asks for the resource that a stream belongs to. -/
def findResource (e : Engine m) (stream : StreamId) : m (Ended StreamId AccessError Resource) := do
  let reply ← e.collaborators.resource stream
  return ⟨reply.endsAfter e.settings.lookupTimeout.toNat, stream,
    resourceIn e.settings stream reply⟩

/-- The streams, each once, in ascending order. -/
def distinctStreams (streams : List StreamId) : List StreamId :=
  streams.eraseDups.mergeSort fun a b => a ≤ b

/-- The resources, each once, in ascending order. -/
def distinctResources (resources : List Resource) : List Resource :=
  resources.eraseDups.mergeSort fun a b => a ≤ b

/-- The resources of the streams. -/
def findResources (e : Engine m) (streams : List StreamId) :
    m (Except AccessError (List (StreamId × Resource))) :=
  askAll e.findResource (fun _ resource => return resource) streams

/-- The instants at which a principal could read each of the resources. -/
def resourceRanges (e : Engine m) (principal : Principal) (resources : List Resource) :
    m (Except AccessError (List (Resource × RangeSet))) :=
  askAll
    (fun resource => Request.discover ⟨resource, .read, principal⟩ e.collaborators e.settings)
    (fun resource chains => e.granted ⟨resource, .read, principal⟩ chains) resources

/-- Gives each stream the ranges of its resource. -/
def joinRanges (resources : List (StreamId × Resource)) (ranges : List (Resource × RangeSet)) :
    List (StreamId × RangeSet) :=
  resources.filterMap fun (stream, resource) => (ranges.lookup resource).map (stream, ·)

/-- The instants at which a principal could read each of the streams. -/
def readRanges (e : Engine m) (principal : Principal) (streams : List StreamId) :
    m (Except AccessError (List (StreamId × RangeSet))) := do
  match ← e.findResources (distinctStreams streams) with
  | .error cause => return .error cause
  | .ok resources =>
    let ranges ← e.resourceRanges principal (distinctResources (resources.map Prod.snd))
    return ranges.map (joinRanges resources)

/-- The records of a stream that may be seen, by ascending time. -/
def keepStream (ranges : List (StreamId × RangeSet)) (records : List Record)
    (stream : StreamId) : List Record :=
  match ranges.lookup stream with
  | some s => s.keep (records.filter fun r => r.stream == stream)
  | none => []

/-- The records that the principal could read when they were recorded, by ascending time. -/
def maskRecords (e : Engine m) (principal : Principal) (records : List Record) :
    m (Except AccessError (List Record)) := do
  let streams := records.map Record.stream
  let ranges ← e.readRanges principal streams
  return ranges.map fun ranges =>
    sortByTime ((distinctStreams streams).flatMap (keepStream ranges records))

/-- The groups of tags of streams that the principal could ever read, in their order. -/
def maskGroups (e : Engine m) (principal : Principal) (groups : List MetadataGroup) :
    m (Except AccessError (List MetadataGroup)) := do
  let ranges ← e.readRanges principal (groups.map MetadataGroup.stream)
  return ranges.map fun ranges =>
    groups.filter fun g => (ranges.lookup g.stream).any RangeSet.keepsTags

end Engine

end AccessWindows
