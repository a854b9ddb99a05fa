import AccessWindows.Proofs.Engine.ReadRanges
import AccessWindows.Proofs.World

/-!
# Isolation — an answer depends only on what is asked for it

For a request an engine asks which chains there are, and then for the hashes that these chains leave
open.  Collaborators that agree on these answers give the request the same outcome
(`explain_congr`), and masking the same outcome if they also agree on which resources its streams
belong to (`readRanges_congr`).

In a world the chains of a request are those of the routes of its principal whose pattern fits its
resource, in their order (`found_toPattern`).  So one principal's answers do not depend on the
routes of others, on routes to other resources, or on credentials that its own routes do not refer
to (`explain_and_mask_isolated`).
-/

namespace AccessWindows

/-! ### What is asked for a request -/

/-- The collaborators agree on what is asked for a request: on its candidates, and on each hash that
one of these leaves open. -/
structure Collaborators.Agree (c c' : Collaborators Id) (q : Request) : Prop where
  chains : c.chains q.resource.toPattern q.permission q.principal =
    c'.chains q.resource.toPattern q.permission q.principal
  credential : ∀ {chains}, (c.chains q.resource.toPattern q.permission q.principal).run.result =
    .ok chains → ∀ chain ∈ chains, ∀ hash, .unresolved hash ∈ chain.slots →
      c.credential hash = c'.credential hash

/-- The collaborators agree on what is asked for the ranges of streams: on the resource of each, and
on what is asked for reading that resource. -/
structure Collaborators.AgreeOn (c c' : Collaborators Id) (principal : Principal)
    (streams : List StreamId) : Prop where
  resource : ∀ stream ∈ streams, c.resource stream = c'.resource stream
  read : ∀ stream ∈ streams, ∀ {resource}, (c.resource stream).run.result = .ok resource →
    c.Agree c' ⟨resource, .read, principal⟩

/-- Look-ups depend on what the registry says of the hashes that are pending, and on nothing else.
-/
theorem Settings.lookUp_congr {m : Type → Type} [Monad m] {s : Settings} {c c' : Collaborators m}
    {pending : List (Nat × CredentialHash)}
    (h : ∀ p ∈ pending, c.credential p.2 = c'.credential p.2) :
    s.lookUp c pending = s.lookUp c' pending :=
  startAll_congr fun p hp => by simp only [h p hp]

namespace Request

variable {q : Request} {s : Settings}

/-- A chain depends on what the registry says of the hashes in its open slots. -/
theorem resolveChain_congr {m : Type → Type} [Monad m] {c c' : Collaborators m}
    {chain : CandidateChain}
    (h : ∀ hash, .unresolved hash ∈ chain.slots → c.credential hash = c'.credential hash) :
    q.resolveChain c s chain = q.resolveChain c' s chain := by
  have hp : s.lookUp c chain.pending = s.lookUp c' chain.pending :=
    Settings.lookUp_congr fun p hp =>
      h p.2 (List.mem_of_getElem? (CandidateChain.mem_pending_iff.mp hp))
  rw [resolveChain, resolveChain, hp]

/-- Candidates depend on what discovery says to this one question. -/
theorem discover_congr {c c' : Collaborators Id} (h : c.Agree c' q) :
    q.discover c s = q.discover c' s := by
  rw [discover, discover, h.chains]

/-- The candidates that are discovered come to the same. -/
theorem resolveAll_congr {c c' : Collaborators Id} (h : c.Agree c' q)
    {chains : List CandidateChain} (hc : (q.discover c s).run.result = .ok chains) :
    (q.resolveAll c s chains).run = (q.resolveAll c' s chains).run := by
  have hresult := Reply.result_of_within? (candidates_eq_ok_iff.mp hc)
  have hmap : chains.map (fun chain => (q.resolveChain c s chain).run) =
      chains.map fun chain => (q.resolveChain c' s chain).run :=
    List.map_congr_left fun chain hm => by rw [resolveChain_congr (h.credential hresult chain hm)]
  rw [run_resolveAll, run_resolveAll, hmap]

/-- **Resolution** depends only on the candidates and the hashes that they leave open. -/
theorem resolve_congr {c c' : Collaborators Id} (h : c.Agree c' q) :
    (q.resolve c s).run = (q.resolve c' s).run := by
  rw [run_resolve, run_resolve, ← discover_congr h]
  cases hc : (q.discover c s).run.result with
  | error cause => rfl
  | ok chains => exact congrArg Except.ok (resolveAll_congr h hc)

end Request

namespace Engine

variable {e : Engine Id} {q : Request} {principal : Principal} {streams : List StreamId}

/-- The engine with the same settings, asking other collaborators. -/
def asking (e : Engine Id) (c : Collaborators Id) : Engine Id := { e with collaborators := c }

/-- Ranges and report depend on the answers to the questions of the request. -/
theorem explain_congr {c c' : Collaborators Id} (h : c.Agree c' q) :
    ((e.asking c).explain q).run = ((e.asking c').explain q).run := by
  simp only [explain, Id.run_bind, Id.run_pure]
  exact congrArg _ (Request.resolve_congr h)

/-- What is granted by candidates that are discovered. -/
theorem granted_congr {c c' : Collaborators Id} (h : c.Agree c' q) {chains : List CandidateChain}
    (hc : (q.discover c e.settings).run.result = .ok chains) :
    (e.asking c).granted q chains = (e.asking c').granted q chains := by
  simp only [granted]
  exact congrArg (fun x : Id _ => x >>= _) (Request.resolveAll_congr h hc)

/-- Resources depend on what the index says of these streams. -/
theorem findResources_congr {c c' : Collaborators Id}
    (h : ∀ stream ∈ streams, c.resource stream = c'.resource stream) :
    (e.asking c).findResources streams = (e.asking c').findResources streams :=
  askAll_congr (fun stream hs => by simp only [findResource, asking, h stream hs]) (fun _ => rfl)
    fun _ _ _ _ => rfl

/-- The ranges of resources depend on the answers to the requests for reading them. -/
theorem resourceRanges_congr {c c' : Collaborators Id} {places : List Resource}
    (h : ∀ resource ∈ places, c.Agree c' ⟨resource, .read, principal⟩) :
    (e.asking c).resourceRanges principal places =
      (e.asking c').resourceRanges principal places :=
  askAll_congr (fun resource hr => Request.discover_congr (h resource hr)) (fun _ => rfl)
    fun resource hr _ hc => granted_congr (h resource hr) hc

/-- **The ranges of streams** depend only on what is asked for the streams and for their
resources. -/
theorem readRanges_congr {c c' : Collaborators Id} (h : c.AgreeOn c' principal streams) :
    ((e.asking c).readRanges principal streams).run =
      ((e.asking c').readRanges principal streams).run := by
  have hfind : (e.asking c).findResources (distinctStreams streams) =
      (e.asking c').findResources (distinctStreams streams) :=
    findResources_congr fun stream hs => h.resource stream (mem_distinctStreams.mp hs)
  simp only [readRanges, Id.run_bind, ← hfind]
  cases hr : ((e.asking c).findResources (distinctStreams streams)).run with
  | error cause => rfl
  | ok resources =>
      have hread : (e.asking c).resourceRanges principal
            (distinctResources (resources.map Prod.snd)) =
          (e.asking c').resourceRanges principal
            (distinctResources (resources.map Prod.snd)) := by
        refine resourceRanges_congr fun resource hm => ?_
        obtain ⟨entry, hentry, rfl⟩ := List.mem_map.mp (mem_distinctResources.mp hm)
        obtain ⟨hstream, hplace⟩ := of_mem_findResources hr entry hentry
        have hin := resourceIn_eq_ok_iff.mp hplace
        exact h.read entry.1 (mem_distinctStreams.mp hstream) (Reply.result_of_within? hin)
      simp only [Id.run_bind, hread]

end Engine

/-! ### What a world answers -/

namespace World

/-- For what a principal may do with a resource the worlds are one: discovery fails alike and
answers take the same time; the same routes lead the principal there, in the same order; and for
each hash that one of these leaves open the registries have the same answer. -/
structure Agree (w w' : World) (principal : Principal) (resource : Resource) : Prop where
  failure : w.routes.failure = w'.routes.failure
  discoveryDelay : w.routes.delay = w'.routes.delay
  registryDelay : w.registry.delay = w'.registry.delay
  routes : w.routes.leading principal resource = w'.routes.leading principal resource
  registry : ∀ route ∈ w.routes.leading principal resource, ∀ hash,
    .unresolved hash ∈ route.chain.slots → w.registry.answer hash = w'.registry.answer hash

/-- For what a principal may read of some streams the worlds are one: the indexes have the same
answer for each of them, and the worlds are one for its resource. -/
structure AgreeOn (w w' : World) (principal : Principal) (streams : List StreamId) : Prop where
  index : ∀ stream ∈ streams, w.streams.answer stream = w'.streams.answer stream
  resource : ∀ stream ∈ streams, ∀ resource, w.streams.answer stream = .ok resource →
    w.Agree w' principal resource

variable {w w' : World} {principal : Principal}

/-- Worlds that agree on a request have collaborators that do. -/
theorem Agree.collaborators {q : Request} (h : w.Agree w' q.principal q.resource) :
    w.collaborators.Agree w'.collaborators q where
  chains := by
    simp only [World.collaborators, RoutingTable.answer, RoutingTable.found_toPattern, h.failure,
      h.discoveryDelay, h.routes]
  credential {chains} hc chain hm hash hh := by
    -- discovery does not fail, so the candidates are the chains of routes
    simp only [World.collaborators, Id.run, RoutingTable.answer] at hc
    split at hc
    · cases hc
    · obtain rfl := Except.ok.inj hc
      rw [RoutingTable.found_toPattern] at hm
      obtain ⟨route, hroute, rfl⟩ := List.mem_map.mp hm
      simp only [World.collaborators, h.registryDelay, h.registry route hroute hash hh]

/-- Worlds that agree on streams have collaborators that do. -/
theorem AgreeOn.collaborators {streams : List StreamId} (h : w.AgreeOn w' principal streams) :
    w.collaborators.AgreeOn w'.collaborators principal streams where
  resource stream hs := by simp only [World.collaborators, h.index stream hs]
  read stream hs resource hr := Agree.collaborators (h.resource stream hs resource hr)

end World

namespace Engine

/-- **Tenants are isolated.**  Let two worlds be one for what a principal may do with a resource,
whatever they hold besides: routes of others, routes to other resources, other credentials.  Then an
engine explains the principal's access to the resource alike in both, by the same ranges and with
the same report, or fails alike.  If they are one for what the principal may read of some streams,
it also lets the principal see the same of their records, and the same of their tags. -/
theorem explain_and_mask_isolated (e : Engine Id) (w w' : World) (principal : Principal) :
    (∀ resource permission, w.Agree w' principal resource →
      ((e.asking w.collaborators).explain ⟨resource, permission, principal⟩).run =
        ((e.asking w'.collaborators).explain ⟨resource, permission, principal⟩).run) ∧
    (∀ records : List Record, w.AgreeOn w' principal (records.map Record.stream) →
      ((e.asking w.collaborators).maskRecords principal records).run =
        ((e.asking w'.collaborators).maskRecords principal records).run) ∧
    ∀ groups : List MetadataGroup, w.AgreeOn w' principal (groups.map MetadataGroup.stream) →
      ((e.asking w.collaborators).maskGroups principal groups).run =
        ((e.asking w'.collaborators).maskGroups principal groups).run := by
  refine ⟨fun resource permission h => ?_, fun records h => ?_, fun groups h => ?_⟩
  · exact explain_congr (World.Agree.collaborators (q := ⟨resource, permission, principal⟩) h)
  · simp only [maskRecords, Id.run_bind, readRanges_congr h.collaborators]
  · simp only [maskGroups, Id.run_bind, readRanges_congr h.collaborators]

end Engine

/-! ### A world that others have come to -/

namespace Engine

namespace Sample

/-- Leads Alice to the campus. -/
def route : Route := ⟨⟨"alice"⟩, campus.toPattern, twoHops⟩

/-- Alice is led to the campus by two hops, the second of which the registry has. -/
def quiet : World where
  routes := { routes := [route] }
  registry := ({} : Registry).register held .valid
  streams := ({} : StreamIndex).insert ⟨1⟩ campus

def plant : Resource := ⟨["plant"], by decide, by decide⟩

/-- Mallory is led anywhere by a chain that would give Alice more, and Alice to the plant by the
same chain; another hash is known, but out of reach. -/
def busy : World where
  routes :=
    { routes :=
        [⟨⟨"mallory"⟩, ⟨[.rest], by decide, by decide, by decide⟩, oneHop⟩, route,
          ⟨⟨"alice"⟩, plant.toPattern, oneHop⟩] }
  registry := (quiet.registry.insert held.hash.shifted ⟨[], .revoked⟩).cutOff held.hash.shifted
  streams := quiet.streams.insert ⟨2⟩ plant

/-- At the first instant Alice has access, at the second the chain for others would give it. -/
def inAndOut : List Record := [⟨⟨1⟩, .ofSeconds 250, ⟨7⟩⟩, ⟨⟨1⟩, .ofSeconds 450, ⟨8⟩⟩]

theorem leading_quiet : quiet.routes.leading ⟨"alice"⟩ campus = [route] :=
  List.filter_cons_of_pos (by decide)

theorem leading_busy : busy.routes.leading ⟨"alice"⟩ campus = [route] :=
  (List.filter_cons_of_neg (by decide)).trans
    ((List.filter_cons_of_pos (by decide)).trans
      (congrArg (route :: ·) (List.filter_cons_of_neg (by decide))))

theorem answer_quiet : quiet.registry.answer held.hash = .ok ⟨held.encode, .valid⟩ :=
  Registry.answer_register held .valid

theorem answer_busy : busy.registry.answer held.hash = quiet.registry.answer held.hash :=
  (Registry.answer_cutOff_of_ne held.hash.ne_shifted).trans
    (Registry.answer_insert_of_ne held.hash.ne_shifted)

/-- What the busy world has beside the quiet one does not concern the request. -/
theorem agree_quiet_busy : quiet.Agree busy ⟨"alice"⟩ campus where
  failure := rfl
  discoveryDelay := rfl
  -- by way of the number, or the registries themselves would be compared
  registryDelay := Eq.trans (b := 0) rfl rfl
  routes := leading_quiet.trans leading_busy.symm
  registry r hr hash hh := by
    rw [leading_quiet] at hr
    obtain rfl := List.mem_singleton.mp hr
    rcases List.mem_pair.mp hh with hh | hh
    · cases hh
    · rw [Slot.unresolved.inj hh, answer_busy]

/-- Alice's chain holds up in the quiet world. -/
theorem quiet_accepts :
    (question.resolveChain quiet.collaborators engine.settings twoHops).run = .ok bothHops := by
  have hheld : engine.settings.answer quiet.collaborators held.hash = .ok held := by
    have hverdict : engine.settings.verdict held.hash ⟨0, .ok ⟨held.encode, .valid⟩⟩ = .ok held :=
      verdict_held rfl (by decide)
    rw [← answer_quiet] at hverdict
    exact hverdict
  rw [Request.resolveChain_eq_ok_iff]
  refine ⟨.cons (.held _) (.cons (.lookedUp hheld) .nil), ?_, ?_, ?_⟩
  · exact List.isChain_pair.mpr rfl
  · exact ⟨_, rfl, rfl⟩
  · decide

theorem quiet_explains : ((engine.asking quiet.collaborators).explain question).run =
    .ok (⟨#[⟨.ofSeconds 100, .ofSeconds 300, by decide⟩]⟩, ⟨1, 1, []⟩) := by
  have hd : (engine.asking quiet.collaborators).Discovers question [twoHops] := by
    have hfound : quiet.routes.found campus.toPattern ⟨"alice"⟩ = [twoHops] := by
      rw [RoutingTable.found_toPattern, leading_quiet]
      rfl
    exact congrArg (fun chains => some (Except.ok chains)) hfound
  rw [run_explain_of_discovers hd]
  simp only [outcomes, asking, List.map_cons, List.map_nil, quiet_accepts]
  decide +kernel

end Sample

open Sample

/-- The ranges and the report are those of the quiet world, and the same records may be seen. -/
theorem explain_and_mask_of_quiet_and_busy :
    quiet.Agree busy ⟨"alice"⟩ campus ∧
      quiet.AgreeOn busy ⟨"alice"⟩ (inAndOut.map Record.stream) ∧
      ((engine.asking busy.collaborators).explain question).run =
        .ok (⟨#[⟨.ofSeconds 100, .ofSeconds 300, by decide⟩]⟩, ⟨1, 1, []⟩) ∧
      ((engine.asking quiet.collaborators).maskRecords ⟨"alice"⟩ inAndOut).run =
        ((engine.asking busy.collaborators).maskRecords ⟨"alice"⟩ inAndOut).run := by
  have h := agree_quiet_busy
  have hon : quiet.AgreeOn busy ⟨"alice"⟩ (inAndOut.map Record.stream) := by
    have hstream : ∀ stream ∈ inAndOut.map Record.stream, stream = ⟨1⟩ := by decide
    refine ⟨fun stream hs => ?_, fun stream hs resource hr => ?_⟩
    · rw [hstream stream hs]
      decide
    · rw [hstream stream hs] at hr
      cases hr
      exact h
  obtain ⟨hexplain, hmask, -⟩ := explain_and_mask_isolated engine quiet busy ⟨"alice"⟩
  exact ⟨h, hon, (hexplain campus .read h).symm.trans quiet_explains, hmask inAndOut hon⟩

end Engine

end AccessWindows
