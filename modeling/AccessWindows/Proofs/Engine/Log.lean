import AccessWindows.Proofs.Engine.MaskRecords
import AccessWindows.Proofs.Resolution.Log

/-!
# Logs of an engine — how masking goes

Masking puts the questions for all streams together, and if these all have a resource, the questions
for all resources together; the candidates of a resource are resolved when they have come
(`RangesCourse`).

If this succeeds, every stream has ranges, which are the valid ranges for reading its resource, and
what they are resolved from is in the log (`RangesCourse.given`).
-/

namespace AccessWindows

variable {σ α β : Type}

namespace Engine

/-! ### The programs of an engine -/

/-- The same engine, every question being written down with its answer. -/
def logged (e : Engine (StateM σ)) : Engine (StateM (σ × List Exchange)) where
  collaborators := e.collaborators.logged
  settings := e.settings
  checked := e.checked

variable (e : Engine (StateM σ)) {principal : Principal} {streams : List StreamId}

/-- How asking for the valid ranges of a request goes. -/
def ValidRangesCourse (s : Settings) (q : Request) (ranges : Except AccessError RangeSet)
    (log : List Exchange) : Prop :=
  ∃ outcome, q.Course s outcome log ∧ ranges = outcome.map fun r => .ofChains r.chains

theorem logs_validRanges (q : Request) :
    Logs (e.validRanges q) (e.logged.validRanges q) (ValidRangesCourse e.settings q) := by
  have hexplain : Logs (e.explain q) (e.logged.explain q) fun outcome log =>
      ∃ r, q.Course e.settings r log ∧
        outcome = r.map fun r => (.ofChains r.chains, r.report) := by
    exact (q.logs_resolve e.settings e.collaborators).bind_pure fun r _ hr => ⟨r, hr, rfl⟩
  refine hexplain.bind_pure fun outcome log ⟨r, hr, ho⟩ => ⟨r, hr, ?_⟩
  subst ho
  cases r <;> rfl

/-! ### Streams and their resources -/

/-- The resource of the stream was asked for, and this is the answer. -/
def Found (s : Settings) (log : List Exchange) (stream : StreamId) (resource : Resource) : Prop :=
  ∃ reply, .resource stream reply ∈ log ∧
    reply.within? s.lookupTimeout.toNat = some (.ok resource)

/-- How asking for the resources of streams goes. -/
def ResourcesCourse (s : Settings) (streams : List StreamId) :
    Except AccessError (List (StreamId × Resource)) → List Exchange → Prop :=
  Inquired (AskedFor .resource s.lookupTimeout.toNat (resourceIn s))
    (fun _ resource out log => out = resource ∧ log = []) streams

theorem logs_findResources (streams : List StreamId) :
    Logs (e.findResources streams) (e.logged.findResources streams)
      (ResourcesCourse e.settings streams) :=
  logs_askAll
    (fun stream => (logs_logging (e.collaborators.resource stream) (.resource stream)).bind_pure
      fun reply _ hlog => ⟨_, hlog, reply, rfl, rfl⟩)
    (fun _ _ => .pure ⟨rfl, rfl⟩) streams

/-- Each resource that was given to a stream was found. -/
theorem ResourcesCourse.found_of_mem {s : Settings} {resources : List (StreamId × Resource)}
    {log : List Exchange} (h : ResourcesCourse s streams (.ok resources) log)
    {entry : StreamId × Resource} (he : entry ∈ resources) :
    entry.1 ∈ streams ∧ Found s log entry.1 entry.2 := by
  obtain ⟨hstream, _, answer, ⟨_, hx, reply, rfl, rfl⟩, hanswer, -, -, rfl, -⟩ :=
    h.asked_of_mem (fun _ _ _ hasks => hasks.key_eq) entry he
  exact ⟨hstream, reply, hx, resourceIn_eq_ok_iff.mp hanswer⟩

/-! ### Resources and their ranges -/

/-- How the instants that candidates grant for reading a resource are found. -/
def GrantedCourse (s : Settings) (principal : Principal) (resource : Resource)
    (chains : List CandidateChain) (ranges : RangeSet) (log : List Exchange) : Prop :=
  ∃ r, (⟨resource, .read, principal⟩ : Request).Resolves s chains r log ∧
    ranges = .ofChains r.chains

/-- How asking for the instants at which resources could be read goes. -/
def ReadingCourse (s : Settings) (principal : Principal) (resources : List Resource) :
    Except AccessError (List (Resource × RangeSet)) → List Exchange → Prop :=
  Inquired
    (AskedFor (fun resource => .chains resource.toPattern .read principal)
      s.discoveryTimeout.toNat fun resource => Request.candidates ⟨resource, .read, principal⟩ s)
    (GrantedCourse s principal) resources

theorem logs_resourceRanges (principal : Principal) (resources : List Resource) :
    Logs (e.resourceRanges principal resources) (e.logged.resourceRanges principal resources)
      (ReadingCourse e.settings principal resources) := by
  refine logs_askAll (fun resource => ?_) (fun resource chains => ?_) resources
  · exact (Request.logs_discover ⟨resource, .read, principal⟩ e.settings e.collaborators).imp
      fun _ _ ⟨reply, hlog, hended⟩ => ⟨_, hlog, reply, rfl, hended⟩
  · exact (Request.logs_resolveAll ⟨resource, .read, principal⟩ e.settings e.collaborators
      chains).bind_pure fun r _ hresolves => ⟨r, hresolves, rfl⟩

/-- The ranges under a resource are the valid ranges for reading it, by what is in the log. -/
theorem ReadingCourse.validRanges_of_mem {s : Settings} {places : List Resource}
    {answers : List (Resource × RangeSet)} {log : List Exchange}
    (h : ReadingCourse s principal places (.ok answers) log) {entry : Resource × RangeSet}
    (he : entry ∈ answers) :
    ∃ part ⊆ log, ValidRangesCourse s ⟨entry.1, .read, principal⟩ (.ok entry.2) part := by
  obtain ⟨-, _, chains, ⟨_, hx, reply, rfl, rfl⟩, hchains, part, hpart, r, hresolves, hranges⟩ :=
    h.asked_of_mem (fun _ _ _ hasks => hasks.key_eq) entry he
  refine ⟨.chains entry.1.toPattern .read principal reply :: part,
    List.cons_subset.mpr ⟨hx, hpart⟩, .ok r, .resolved hchains hresolves, ?_⟩
  rw [hranges]
  rfl

/-! ### The ranges of streams -/

/-- How asking for the ranges of streams goes: all resources are asked for before any chains are. -/
inductive RangesCourse (s : Settings) (principal : Principal) (streams : List StreamId) :
    Except AccessError (List (StreamId × RangeSet)) → List Exchange → Prop
  | lost {cause : AccessError} {log : List Exchange}
      (h : ResourcesCourse s (distinctStreams streams) (.error cause) log) :
      RangesCourse s principal streams (.error cause) log
  | found {resources : List (StreamId × Resource)} {log log' : List Exchange}
      {ranges : Except AccessError (List (Resource × RangeSet))}
      (h : ResourcesCourse s (distinctStreams streams) (.ok resources) log)
      (hranges : ReadingCourse s principal (distinctResources (resources.map Prod.snd)) ranges
        log') :
      RangesCourse s principal streams (ranges.map (joinRanges resources)) (log ++ log')

theorem logs_readRanges (principal : Principal) (streams : List StreamId) :
    Logs (e.readRanges principal streams) (e.logged.readRanges principal streams)
      (RangesCourse e.settings principal streams) := by
  refine (e.logs_findResources (distinctStreams streams)).bind fun resources log hresources => ?_
  cases resources with
  | error cause =>
      refine .pure ?_
      rw [List.append_nil]
      exact .lost hresources
  | ok resources =>
      exact (e.logs_resourceRanges principal (distinctResources (resources.map Prod.snd))).bind_pure
        fun _ _ hranges => .found hresources hranges

/-- By the log, each of the streams is given the valid ranges for reading its resource. -/
def Given (s : Settings) (principal : Principal) (streams : List StreamId) (log : List Exchange)
    (ranges : StreamId → RangeSet) : Prop :=
  ∀ stream ∈ streams, ∃ resource, Found s log stream resource ∧
    ∃ part ⊆ log, ValidRangesCourse s ⟨resource, .read, principal⟩ (.ok (ranges stream)) part

/-- A stream that was asked for stands in the table that is joined, with the valid ranges for
reading its resource. -/
theorem exists_joined {s : Settings} {resources : List (StreamId × Resource)}
    {answers : List (Resource × RangeSet)} {log log' : List Exchange}
    (h : ResourcesCourse s (distinctStreams streams) (.ok resources) log)
    (hanswers : ReadingCourse s principal (distinctResources (resources.map Prod.snd))
      (.ok answers) log') {stream : StreamId} (hs : stream ∈ streams) :
    ∃ set, (joinRanges resources answers).lookup stream = some set ∧
      ∃ resource, Found s (log ++ log') stream resource ∧
        ∃ part ⊆ log ++ log', ValidRangesCourse s ⟨resource, .read, principal⟩ (.ok set) part := by
  have hall : ∀ entry ∈ resources, ∃ set, answers.lookup entry.2 = some set := by
    intro entry he
    obtain ⟨set, hset, -⟩ := hanswers.lookup_of_ok (fun _ _ _ hasks => hasks.key_eq)
      (mem_distinctResources.mpr (List.mem_map_of_mem he))
    exact ⟨set, hset⟩
  obtain ⟨resource, hresource, -⟩ :=
    h.lookup_of_ok (fun _ _ _ hasks => hasks.key_eq) (mem_distinctStreams.mpr hs)
  have hmem := mem_of_lookup hresource
  obtain ⟨set, hset⟩ := hall _ hmem
  obtain ⟨-, reply, hx, hr⟩ := h.found_of_mem hmem
  obtain ⟨part, hpart, hcourse⟩ := hanswers.validRanges_of_mem (mem_of_lookup hset)
  refine ⟨set, ?_, resource, ⟨reply, List.mem_append_left _ hx, hr⟩, part,
    List.subset_append_of_subset_right _ hpart, hcourse⟩
  rw [lookup_joinRanges hall, hresource]
  exact hset

/-- **No stream goes missing**: where asking for ranges succeeds, each stream has its own. -/
theorem RangesCourse.given {s : Settings} {table : List (StreamId × RangeSet)}
    {log : List Exchange} (h : RangesCourse s principal streams (.ok table) log) :
    Given s principal streams log (rangesIn table) ∧
      ∀ stream ∈ streams, table.lookup stream = some (rangesIn table stream) := by
  generalize hresult : (Except.ok table : Except AccessError _) = result at h
  cases h with
  | lost h => cases hresult
  | @found resources log log' answers h hanswers =>
      cases answers with
      | error cause => cases hresult
      | ok answers =>
          cases hresult
          refine ⟨fun stream hs => ?_, fun stream hs => ?_⟩
          · obtain ⟨set, hset, hgiven⟩ := exists_joined h hanswers hs
            rw [rangesIn_of_lookup hset]
            exact hgiven
          · obtain ⟨set, hset, -⟩ := exists_joined h hanswers hs
            rw [rangesIn_of_lookup hset, hset]

/-! ### Masking -/

theorem logs_maskRecords (principal : Principal) (records : List Record) :
    Logs (e.maskRecords principal records) (e.logged.maskRecords principal records)
      fun out log => ∃ ranges,
        RangesCourse e.settings principal (records.map Record.stream) ranges log ∧
        out = ranges.map fun ranges =>
          sortByTime ((distinctStreams (records.map Record.stream)).flatMap
            (keepStream ranges records)) :=
  (e.logs_readRanges principal (records.map Record.stream)).bind_pure fun ranges _ h =>
    ⟨ranges, h, rfl⟩

theorem logs_maskGroups (principal : Principal) (groups : List MetadataGroup) :
    Logs (e.maskGroups principal groups) (e.logged.maskGroups principal groups)
      fun out log => ∃ ranges,
        RangesCourse e.settings principal (groups.map MetadataGroup.stream) ranges log ∧
        out = ranges.map fun ranges =>
          groups.filter fun g => (ranges.lookup g.stream).any RangeSet.keepsTags :=
  (e.logs_readRanges principal (groups.map MetadataGroup.stream)).bind_pure fun ranges _ h =>
    ⟨ranges, h, rfl⟩

section kept

variable {s : Settings} {log : List Exchange} {table : List (StreamId × RangeSet)}

theorem ValidRangesCourse.canonical {q : Request} {ranges : RangeSet}
    (h : ValidRangesCourse s q (.ok ranges) log) : ranges.Canonical := by
  obtain ⟨outcome, -, ho⟩ := h
  obtain ⟨r, -, rfl⟩ := map_eq_ok_iff.mp ho.symm
  exact RangeSet.canonical_ofChains r.chains

/-- **Records** are kept if their instants lie in the ranges that their stream is given. -/
theorem RangesCourse.kept_records {records : List Record}
    (h : RangesCourse s principal (records.map Record.stream) (.ok table) log) :
    ∃ ranges, Given s principal (records.map Record.stream) log ranges ∧
      sortByTime ((distinctStreams (records.map Record.stream)).flatMap
        (keepStream table records)) =
          (records.filter fun r => (ranges r.stream).contains r.time).mergeSort Record.before := by
  obtain ⟨hgiven, hlookup⟩ := h.given
  refine ⟨rangesIn table, hgiven, sortByTime_keepStream fun stream hs => ?_⟩
  obtain ⟨_, -, _, -, hcourse⟩ := hgiven stream hs
  exact ⟨_, hlookup stream hs, hcourse.canonical⟩

end kept

end Engine

end AccessWindows
