import AccessWindows.Proofs.Engine.Isolation
import AccessWindows.Proofs.Engine.Log
import AccessWindows.Proofs.Resolution.Questions
import Mathlib.Algebra.GroupWithZero.Nat
import Mathlib.Data.List.Dedup

/-!
# Questions of an engine — each of them once

However often a stream occurs among the records that are masked, and however many streams belong to
one resource, the index is asked once for each stream and discovery once for each resource.  If
nothing that is asked fails, the log of a run is known (`Settled.asks_readRanges`): it consists of
the questions for the distinct streams, of the discoveries for the distinct resources, and of the
look-ups for the candidates of these.

In a world these look-ups are one for each slot that the routes of the principal to the resource
leave open, whence the counts after a run of masking (`mask_asks_once`).
-/

namespace AccessWindows

variable {α β : Type}

/-- Each key once, in whatever order. -/
theorem perm_dedup_of_mem_iff [DecidableEq α] {xs ys : List α} {le : α → α → Bool}
    (h : ∀ a, a ∈ xs ↔ a ∈ ys) : (xs.eraseDups.mergeSort le).Perm ys.dedup := by
  refine (List.mergeSort_perm _ _).trans ?_
  rw [List.perm_ext_iff_of_nodup (Engine.nodup_eraseDups xs) (List.nodup_dedup ys)]
  intro a
  rw [List.mem_eraseDups, List.mem_dedup, h]

namespace Engine

/-! ### The programs of an engine -/

/-- The same engine, every question being counted. -/
def counted (e : Engine Id) : Engine (StateM Questions) where
  collaborators := e.collaborators.counted
  settings := e.settings
  checked := e.checked

variable {e : Engine Id} {principal : Principal} {streams : List StreamId}

theorem asks_findResource (e : Engine Id) (stream : StreamId) :
    Asks (e.findResource stream) (e.counted.logged.findResource stream)
      [.resource stream (e.collaborators.resource stream).run] :=
  (e.collaborators.asks_resource stream).bind_pure

/-- The candidates of a request are asked for slot by slot. -/
theorem asks_granted (e : Engine Id) (q : Request) {chains : List CandidateChain}
    (hc : ∀ chain ∈ chains, chain.Confirmed e.settings e.collaborators) :
    Asks (e.granted q chains) (e.counted.logged.granted q chains)
      (e.collaborators.lookUps (chains.flatMap CandidateChain.openHashes)) :=
  (Request.asks_resolveAll hc).bind_pure

/-- Nothing that is asked for the ranges of the streams fails: each stream belongs to its place,
there are candidates for reading that place, and what these leave open is confirmed. -/
structure Settled (e : Engine Id) (principal : Principal) (streams : List StreamId)
    (place : StreamId → Resource) (chains : Resource → List CandidateChain) : Prop where
  index : ∀ stream ∈ streams, (e.resourceOf stream).run = .ok (place stream)
  discovery : ∀ stream ∈ streams,
    e.Discovers ⟨place stream, .read, principal⟩ (chains (place stream))
  registry : ∀ stream ∈ streams, ∀ chain ∈ chains (place stream),
    chain.Confirmed e.settings e.collaborators

/-- What is asked for the ranges of streams: for each of the streams, then for each of the
resources, and then for their candidates, in some order of the resources. -/
def readLog (e : Engine Id) (principal : Principal) (streams : List StreamId)
    (resources order : List Resource) (chains : Resource → List CandidateChain) : List Exchange :=
  streams.map (fun stream => .resource stream (e.collaborators.resource stream).run) ++
    (resources.map (fun resource => e.collaborators.discovery ⟨resource, .read, principal⟩) ++
      order.flatMap fun resource =>
        e.collaborators.lookUps ((chains resource).flatMap CandidateChain.openHashes))

namespace Settled

variable {place : StreamId → Resource} {chains : Resource → List CandidateChain}

/-- The index gives the streams their places. -/
theorem exists_resources (h : e.Settled principal streams place chains) :
    ∃ resources, (e.findResources (distinctStreams streams)).run = .ok resources ∧
      ∀ resource, resource ∈ resources.map Prod.snd ↔
        ∃ stream ∈ streams, place stream = resource := by
  obtain ⟨resources, hresources⟩ := exists_findResources_iff.mpr fun stream hs =>
    ⟨place stream, h.index stream (mem_distinctStreams.mp hs)⟩
  refine ⟨resources, hresources, fun resource => ⟨fun hr => ?_, ?_⟩⟩
  · obtain ⟨entry, he, rfl⟩ := List.mem_map.mp hr
    obtain ⟨hs, hplace⟩ := of_mem_findResources hresources entry he
    have hs := mem_distinctStreams.mp hs
    exact ⟨entry.1, hs, Except.ok.inj ((h.index entry.1 hs).symm.trans hplace)⟩
  · rintro ⟨stream, hs, rfl⟩
    obtain ⟨resource, hr, hlookup⟩ :=
      lookup_findResources hresources (mem_distinctStreams.mpr hs)
    cases hr.symm.trans (h.index stream hs)
    exact List.mem_map_of_mem (mem_of_lookup hlookup)

theorem exists_readRanges (h : e.Settled principal streams place chains) :
    ∃ ranges, (e.readRanges principal streams).run = .ok ranges :=
  exists_readRanges_iff.mpr fun stream hs =>
    ⟨_, rangesOf_eq_ok_iff.mpr
      ⟨place stream, h.index stream hs, run_validRanges_of_discovers (h.discovery stream hs)⟩⟩

/-- All distinct streams are asked about. -/
theorem asks_findResources (h : e.Settled principal streams place chains) :
    Asks (e.findResources (distinctStreams streams))
      (e.counted.logged.findResources (distinctStreams streams))
      ((distinctStreams streams).map fun stream =>
        .resource stream (e.collaborators.resource stream).run) := by
  obtain ⟨order, -, hasks⟩ := asks_askAll (fun _ => []) (fun _ => rfl)
    (fun stream _ => e.asks_findResource stream)
    fun stream hs => ⟨_, h.index stream (mem_distinctStreams.mp hs), .pure _⟩
  have hnone : order.flatMap (fun _ => ([] : List Exchange)) = [] :=
    List.flatMap_eq_nil_iff.mpr fun _ _ => rfl
  rwa [hnone, List.append_nil] at hasks

/-- All distinct places are asked about, and then, in some order of these, what their candidates
leave open. -/
theorem asks_resourceRanges (h : e.Settled principal streams place chains) (places : List Resource)
    (hplaces : ∀ resource ∈ places, ∃ stream ∈ streams, place stream = resource) :
    ∃ order : List Resource, order.Perm places ∧
      Asks (e.resourceRanges principal places) (e.counted.logged.resourceRanges principal places)
        (places.map (fun resource => e.collaborators.discovery ⟨resource, .read, principal⟩) ++
          order.flatMap fun resource =>
            e.collaborators.lookUps ((chains resource).flatMap CandidateChain.openHashes)) := by
  refine asks_askAll _ (fun _ => rfl)
    (fun resource _ => Request.asks_discover ⟨resource, .read, principal⟩ e.settings
      e.collaborators) fun resource hr => ?_
  obtain ⟨stream, hs, rfl⟩ := hplaces resource hr
  exact ⟨chains (place stream), Request.candidates_eq_ok_iff.mpr (h.discovery stream hs),
    e.asks_granted _ (h.registry stream hs)⟩

/-- **The log is known**, but for an order of the places: all distinct streams are asked about, then
all distinct places, and then what the candidates for these leave open. -/
theorem asks_readRanges (h : e.Settled principal streams place chains) :
    ∃ places order : List Resource, places.Perm (streams.map place).dedup ∧ order.Perm places ∧
      Asks (e.readRanges principal streams) (e.counted.logged.readRanges principal streams)
        (e.readLog principal (distinctStreams streams) places order chains) := by
  obtain ⟨resources, hresources, hmem⟩ := h.exists_resources
  obtain ⟨order, horder, hasks⟩ :=
    h.asks_resourceRanges (distinctResources (resources.map Prod.snd)) fun resource hr =>
      (hmem resource).mp (mem_distinctResources.mp hr)
  refine ⟨_, order, perm_dedup_of_mem_iff fun resource => ?_, horder, ?_⟩
  · rw [hmem, List.mem_map]
  · refine h.asks_findResources.bind ?_
    simp only [hresources]
    exact hasks.bind_pure

end Settled

/-! ### What stands in the log -/

section readLog

variable (e : Engine Id) (principal : Principal) (streams : List StreamId)
  (resources order : List Resource) (chains : Resource → List CandidateChain)

theorem streams_readLog :
    (e.readLog principal streams resources order chains).filterMap Exchange.stream? = streams := by
  simp [readLog, List.filterMap_append, List.filterMap_map, List.filterMap_flatMap,
    Collaborators.filterMap_lookUps, Exchange.stream?, Collaborators.discovery, Function.comp_def]

theorem discoveries_readLog :
    (e.readLog principal streams resources order chains).filterMap Exchange.discovery? =
      resources.map fun resource => (resource.toPattern, .read, principal) := by
  simp [readLog, List.filterMap_append, List.filterMap_map, List.filterMap_flatMap,
    Collaborators.filterMap_lookUps, Exchange.discovery?, Collaborators.discovery,
    Function.comp_def]

theorem hashes_readLog :
    (e.readLog principal streams resources order chains).filterMap Exchange.hash? =
      order.flatMap fun resource => (chains resource).flatMap CandidateChain.openHashes := by
  simp [readLog, List.filterMap_append, List.filterMap_map, List.filterMap_flatMap,
    Collaborators.filterMap_lookUps, Exchange.hash?, Collaborators.discovery, Function.comp_def]

end readLog

end Engine

/-! ### Worlds -/

namespace World

variable {w : World} {principal : Principal} {streams : List StreamId}
  {place : StreamId → Resource}

/-- The hashes that the routes of the principal to the resource leave open, one for each slot. -/
def openHashes (w : World) (principal : Principal) (resource : Resource) : List CredentialHash :=
  (w.routes.leading principal resource).flatMap fun route => route.chain.openHashes

/-- Nothing that masking asks a world for some streams fails or is refused: each stream belongs to
its place, discovery answers in time, and each hash that is left open is confirmed. -/
structure Answers (w : World) (s : Settings) (principal : Principal) (streams : List StreamId)
    (place : StreamId → Resource) : Prop where
  index : ∀ stream ∈ streams, w.streams.answer stream = .ok (place stream)
  discovery : streams ≠ [] →
    w.routes.failure = none ∧ waited w.routes.delay ≤ waited s.discoveryTimeout.toNat
  registry : ∀ stream ∈ streams, ∀ hash ∈ w.openHashes principal (place stream),
    ∃ credential, s.Confirms hash ⟨w.registry.delay, w.registry.answer hash⟩ credential

theorem Answers.settled {e : Engine Id} (h : w.Answers e.settings principal streams place) :
    (e.asking w.collaborators).Settled principal streams place
      fun resource => (w.routes.leading principal resource).map Route.chain where
  index stream hs := by
    have hanswer : (⟨0, w.streams.answer stream⟩ : Reply Resource).within?
        e.settings.lookupTimeout.toNat = some (.ok (place stream)) := by
      rw [h.index stream hs]
      exact if_pos (Nat.zero_le _)
    exact Engine.resourceIn_eq_ok_iff.mpr hanswer
  discovery stream hs := by
    obtain ⟨hfailure, htime⟩ := h.discovery (List.ne_nil_of_mem hs)
    have hanswer : w.routes.answer (place stream).toPattern principal =
        .ok ((w.routes.leading principal (place stream)).map Route.chain) := by
      rw [RoutingTable.answer, hfailure, RoutingTable.found_toPattern]
    exact (if_pos htime).trans (congrArg some hanswer)
  registry stream hs chain hchain hash hh := by
    obtain ⟨route, hroute, rfl⟩ := List.mem_map.mp hchain
    exact h.registry stream hs hash (List.mem_flatMap.mpr ⟨route, hroute, hh⟩)

/-- By its log, a run asks about each of the streams once, and for each of the resources that these
belong to once for the routes there and once for each slot that these leave open. -/
structure AskedOnce (w : World) (principal : Principal) (streams : List StreamId)
    (place : StreamId → Resource) (log : List Exchange) : Prop where
  index : (log.filterMap Exchange.stream?).Perm streams.dedup
  discovery : (log.filterMap Exchange.discovery?).Perm
    ((streams.map place).dedup.map fun resource => (resource.toPattern, .read, principal))
  registry : (log.filterMap Exchange.hash?).Perm
    ((streams.map place).dedup.flatMap (w.openHashes principal))

theorem askedOnce_readLog (e : Engine Id) (w : World) (principal : Principal)
    (streams : List StreamId) (place : StreamId → Resource) {resources order : List Resource}
    (hresources : resources.Perm (streams.map place).dedup) (horder : order.Perm resources) :
    w.AskedOnce principal streams place
      (e.readLog principal (Engine.distinctStreams streams) resources order
        fun resource => (w.routes.leading principal resource).map Route.chain) := by
  refine ⟨?_, ?_, ?_⟩
  · rw [Engine.streams_readLog]
    exact perm_dedup_of_mem_iff fun _ => .rfl
  · rw [Engine.discoveries_readLog]
    exact hresources.map _
  · rw [Engine.hashes_readLog]
    simp only [List.flatMap_map]
    exact (horder.trans hresources).flatMap_right _

/-- The program has a result, and from any counts it asks each question once, so that the counts
grow by the numbers of distinct streams, of distinct resources, and of the slots that are left open
on the way to one of these. -/
def AsksOnce {α : Type} (w : World) (principal : Principal) (streams : List StreamId)
    (place : StreamId → Resource) (x : StateM Questions (Except AccessError α))
    (y : StateM (Questions × List Exchange) (Except AccessError α)) : Prop :=
  ∀ asked, ∃ out log, IsLog x y asked log ∧ w.AskedOnce principal streams place log ∧
    x.run asked = (.ok out,
      { chains := asked.chains + (streams.map place).dedup.length
        credentials := asked.credentials +
          ((streams.map place).dedup.map fun r => (w.openHashes principal r).length).sum
        resources := asked.resources + streams.dedup.length })

theorem AskedOnce.after {log : List Exchange} (h : w.AskedOnce principal streams place log)
    (asked : Questions) : asked.after log =
      { chains := asked.chains + (streams.map place).dedup.length
        credentials := asked.credentials +
          ((streams.map place).dedup.map fun r => (w.openHashes principal r).length).sum
        resources := asked.resources + streams.dedup.length } := by
  rw [Questions.after_eq, h.discovery.length_eq, h.registry.length_eq, h.index.length_eq,
    List.length_map, List.length_flatMap]

/-- What is made of the ranges of streams is made with the questions for these. -/
theorem Answers.asksOnce {α : Type} {e : Engine Id} {f : List (StreamId × RangeSet) → α}
    {x : StateM Questions (Except AccessError α)}
    {y : StateM (Questions × List Exchange) (Except AccessError α)}
    {post : Except AccessError α → List Exchange → Prop}
    (h : w.Answers e.settings principal streams place) (hlogs : Logs x y post)
    (hy : y = do
      let ranges ← (e.asking w.collaborators).counted.logged.readRanges principal streams
      return ranges.map f) :
    w.AsksOnce principal streams place x y := by
  obtain ⟨ranges, hranges⟩ := h.settled.exists_readRanges
  obtain ⟨places, order, hplaces, horder, hasks⟩ := h.settled.asks_readRanges
  have honce := askedOnce_readLog (e.asking w.collaborators) w principal streams place hplaces
    horder
  intro asked
  subst hy
  obtain ⟨hlog, hrun⟩ := hasks.bind_pure.run_eq hlogs asked
  rw [Id.run_bind, Id.run_pure, hranges, honce.after] at hrun
  exact ⟨f ranges, _, hlog, honce, hrun⟩

end World

namespace Engine

/-- **Each question once.**  If nothing that is asked fails or is refused, masking records asks the
index once about each distinct stream of theirs, discovery once for each distinct resource of these
streams, and the registry once for each slot that the candidates for these resources leave open,
however streams and resources are repeated among the records.  The counts grow by these numbers.
Masking groups of tags does the same. -/
theorem mask_asks_once (e : Engine Id) (w : World) (principal : Principal)
    (place : StreamId → Resource) :
    let counting := (e.asking w.collaborators).counted
    (∀ records : List Record,
        w.Answers e.settings principal (records.map Record.stream) place →
          w.AsksOnce principal (records.map Record.stream) place
            (counting.maskRecords principal records)
            (counting.logged.maskRecords principal records)) ∧
      ∀ groups : List MetadataGroup,
        w.Answers e.settings principal (groups.map MetadataGroup.stream) place →
          w.AsksOnce principal (groups.map MetadataGroup.stream) place
            (counting.maskGroups principal groups)
            (counting.logged.maskGroups principal groups) := by
  intro counting
  refine ⟨?_, ?_⟩
  · intro records h
    exact h.asksOnce (counting.logs_maskRecords principal records) rfl
  · intro groups h
    exact h.asksOnce (counting.logs_maskGroups principal groups) rfl

/-! ### Streams that share resources -/

namespace Sample

/-- Alice is led to the plant by two hops that are both known by the same hash. -/
def plantRoute : Route :=
  ⟨⟨"alice"⟩, plant.toPattern, ⟨[.unresolved held.hash, .unresolved held.hash]⟩⟩

/-- Two streams are of the campus and one is of the plant. -/
def shared : World where
  routes := { routes := [route, plantRoute] }
  registry := quiet.registry
  streams := (quiet.streams.insert ⟨2⟩ campus).insert ⟨3⟩ plant

/-- The resource of each of the three streams. -/
def placeOf (stream : StreamId) : Resource := if stream = ⟨3⟩ then plant else campus

/-- Records of the three streams, one after the other and again. -/
def interleaved : List Record :=
  [⟨⟨3⟩, .ofSeconds 120, ⟨7⟩⟩, ⟨⟨1⟩, .ofSeconds 130, ⟨8⟩⟩, ⟨⟨2⟩, .ofSeconds 140, ⟨9⟩⟩,
    ⟨⟨1⟩, .ofSeconds 150, ⟨8⟩⟩, ⟨⟨3⟩, .ofSeconds 160, ⟨7⟩⟩]

theorem openHashes_campus : shared.openHashes ⟨"alice"⟩ campus = [held.hash] := by
  have hleading : shared.routes.leading ⟨"alice"⟩ campus = [route] :=
    (List.filter_cons_of_pos (by decide)).trans
      (congrArg (route :: ·) (List.filter_cons_of_neg (by decide)))
  rw [World.openHashes, hleading]
  rfl

theorem openHashes_plant : shared.openHashes ⟨"alice"⟩ plant = [held.hash, held.hash] := by
  have hleading : shared.routes.leading ⟨"alice"⟩ plant = [plantRoute] :=
    (List.filter_cons_of_neg (by decide)).trans (List.filter_cons_of_pos (by decide))
  rw [World.openHashes, hleading]
  rfl

theorem answers_shared :
    shared.Answers engine.settings ⟨"alice"⟩ (interleaved.map Record.stream) placeOf where
  index := by decide
  discovery _ := ⟨rfl, by decide⟩
  registry stream _ hash hh := by
    have hhash : hash = held.hash := by
      unfold placeOf at hh
      split at hh
      · rw [openHashes_plant] at hh
        simpa using hh
      · rw [openHashes_campus] at hh
        simpa using hh
    rw [hhash]
    have hverdict : engine.settings.verdict held.hash ⟨0, .ok ⟨held.encode, .valid⟩⟩ = .ok held :=
      verdict_held rfl (by decide)
    rw [← answer_quiet] at hverdict
    exact ⟨held, Settings.verdict_eq_ok_iff.mp hverdict⟩

end Sample

open Sample

/-- The five records put three questions to the index, two to discovery and three to the
registry. -/
theorem interleaved_asks_once :
    shared.Answers engine.settings ⟨"alice"⟩ (interleaved.map Record.stream) placeOf ∧
      ∃ out, ((engine.asking shared.collaborators).counted.maskRecords ⟨"alice"⟩
        interleaved).run {} = (.ok out, { chains := 2, credentials := 3, resources := 3 }) := by
  obtain ⟨hrecords, -⟩ := mask_asks_once engine shared ⟨"alice"⟩ placeOf
  obtain ⟨out, log, -, -, hrun⟩ := hrecords interleaved answers_shared {}
  have hresources : ((interleaved.map Record.stream).map placeOf).dedup = [campus, plant] := by
    decide
  have hstreams : (interleaved.map Record.stream).dedup.length = 3 := by decide
  rw [hresources, hstreams] at hrun
  simp only [List.map_cons, List.map_nil, openHashes_campus, openHashes_plant] at hrun
  exact ⟨answers_shared, out, hrun⟩

end Engine

end AccessWindows
