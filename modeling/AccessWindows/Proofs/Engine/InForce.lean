import AccessWindows.Proofs.Engine.Log
import AccessWindows.Proofs.Masking
import Mathlib

/-!
# In force — access needs a hop, not the whole chain

The window of a chain is what its hops cover together.  So an instant at which access is given is
one at which a hop of an accepted chain was in force, and a record that is kept was recorded at such
an instant (`access_within_hops`).  It need not be one at which the chain was in force as a whole: a
chain of two hops gives access while the second does not exist yet (`access_before_second_hop`).

A chain counts as accepted by what the log of the run shows: discovery yielded it, each of its
credentials is held by its slot or was confirmed by the registry, and they reach the principal.
-/

namespace AccessWindows

variable {σ : Type}

/-- The credential was in force at the instant. -/
def Credential.InForce (c : Credential) (t : Timestamp) : Prop := c.createdAt ≤ t ∧ t ≤ c.expiresAt

namespace Request

/-- By the log, discovery yielded the chain, and its slots hold, or the registry confirmed,
credentials that reach the principal. -/
structure Accepted (q : Request) (s : Settings) (log : List Exchange) (chain : CandidateChain)
    (credentials : List Credential) : Prop where
  discovered : ∃ reply chains,
    .chains q.resource.toPattern q.permission q.principal reply ∈ log ∧
      reply.within? s.discoveryTimeout.toNat = some (.ok chains) ∧ chain ∈ chains
  shown : List.Forall₂ (Slot.Shown s log) chain.slots credentials
  reaches : q.Reaches credentials

/-- By the log, a hop of an accepted chain was in force at the instant; if the chain has no other
hop, it was in force as a whole. -/
def Supported (q : Request) (s : Settings) (log : List Exchange) (t : Timestamp) : Prop :=
  ∃ chain credentials, q.Accepted s log chain credentials ∧
    (∃ credential ∈ credentials, credential.InForce t) ∧
    (credentials.length = 1 → ∀ credential ∈ credentials, credential.InForce t)

variable {q : Request} {s : Settings} {log log' : List Exchange}

theorem Accepted.mono {chain : CandidateChain} {credentials : List Credential}
    (h : q.Accepted s log chain credentials) (hlog : log ⊆ log') :
    q.Accepted s log' chain credentials where
  discovered := by
    obtain ⟨reply, chains, hx, hin⟩ := h.discovered
    exact ⟨reply, chains, hlog hx, hin⟩
  shown := h.shown.imp fun _ _ hs => hs.mono hlog
  reaches := h.reaches

theorem Supported.mono {t : Timestamp} (h : q.Supported s log t) (hlog : log ⊆ log') :
    q.Supported s log' t := by
  obtain ⟨chain, credentials, ha, ht⟩ := h
  exact ⟨chain, credentials, ha.mono hlog, ht⟩

/-- The chains of a resolution are accepted by its log. -/
theorem Course.accepted {r : Resolution} (h : q.Course s (.ok r) log) {c : ResolvedChain}
    (hc : c ∈ r.chains) : ∃ chain, q.Accepted s log chain c.credentials := by
  cases h with
  | @resolved reply chains r lookups hcandidates resolves =>
      obtain ⟨outcomes, judged, rfl⟩ := resolves.exists_judged
      obtain ⟨chain, hm, hj⟩ := exists_mem_left judged (mem_chains_ofOutcomes.mp hc)
      obtain ⟨hshown, hreaches⟩ := hj.shown
      exact ⟨chain, ⟨reply, chains, List.mem_cons_self, candidates_eq_ok_iff.mp hcandidates, hm⟩,
        hshown.imp fun _ _ hs => hs.mono (List.subset_cons_self _ _), hreaches⟩

/-- **The instants of chains are supported** by the log of their resolution. -/
theorem Course.supported {r : Resolution} (h : q.Course s (.ok r) log) {t : Timestamp}
    (ht : (RangeSet.ofChains r.chains).contains t = true) : q.Supported s log t := by
  obtain ⟨c, hc, credential, hcredential, hforce⟩ := RangeSet.contains_ofChains.mp ht
  obtain ⟨chain, haccepted⟩ := h.accepted hc
  refine ⟨chain, c.credentials, haccepted, ⟨credential, hcredential, hforce⟩, fun hone => ?_⟩
  obtain ⟨only, hs⟩ := List.length_eq_one_iff.mp hone
  rw [hs] at hcredential ⊢
  rw [← List.mem_singleton.mp hcredential]
  exact fun other hother => List.mem_singleton.mp hother ▸ hforce

end Request

namespace Engine

variable {s : Settings} {q : Request} {principal : Principal} {streams : List StreamId}
  {log : List Exchange}

theorem ValidRangesCourse.supported {ranges : RangeSet}
    (h : ValidRangesCourse s q (.ok ranges) log) :
    ∀ t, ranges.contains t = true → q.Supported s log t := by
  obtain ⟨outcome, hcourse, ho⟩ := h
  obtain ⟨r, rfl, rfl⟩ := map_eq_ok_iff.mp ho.symm
  exact fun t ht => hcourse.supported ht

/-- The ranges of a stream hold instants that are supported for reading its resource. -/
theorem Given.supported {ranges : StreamId → RangeSet} (h : Given s principal streams log ranges)
    {stream : StreamId} (hs : stream ∈ streams) :
    ∃ resource, Found s log stream resource ∧ ∀ t, (ranges stream).contains t = true →
      (⟨resource, .read, principal⟩ : Request).Supported s log t := by
  obtain ⟨resource, hfound, part, hpart, hcourse⟩ := h stream hs
  exact ⟨resource, hfound, fun t ht => (hcourse.supported t ht).mono hpart⟩

/-- **Access lies within the windows of hops.**  Whatever the collaborators do, each instant of the
valid ranges of a request is one at which, by the log of the run, a hop of an accepted chain was in
force.  So no record is kept unless a hop of an accepted chain for reading the resource of its
stream was in force when it was recorded. -/
theorem access_within_hops {σ : Type} (e : Engine (StateM σ)) (state : σ) :
    (∀ q ranges, ((e.validRanges q).run state).1 = .ok ranges →
      ∃ log, IsLog (e.validRanges q) (e.logged.validRanges q) state log ∧
        ∀ t, ranges.contains t = true → q.Supported e.settings log t) ∧
    ∀ principal records out, ((e.maskRecords principal records).run state).1 = .ok out →
      ∃ log,
        IsLog (e.maskRecords principal records) (e.logged.maskRecords principal records) state log ∧
        ∀ r ∈ out, r ∈ records ∧ ∃ resource, Found e.settings log r.stream resource ∧
          (⟨resource, .read, principal⟩ : Request).Supported e.settings log r.time := by
  refine ⟨fun q ranges h => ?_, fun principal records out h => ?_⟩
  · obtain ⟨log, hlog, hcourse⟩ := (e.logs_validRanges q).exists_log state
    rw [h] at hcourse
    exact ⟨log, hlog, hcourse.supported⟩
  · obtain ⟨log, hlog, table, hcourse, hout⟩ :=
      (e.logs_maskRecords principal records).exists_log state
    refine ⟨log, hlog, fun r hr => ?_⟩
    rw [h] at hout
    obtain ⟨table, rfl, rfl⟩ := map_eq_ok_iff.mp hout.symm
    obtain ⟨ranges, hgiven, hkept⟩ := hcourse.kept_records
    rw [hkept, List.mem_mergeSort, List.mem_filter] at hr
    obtain ⟨hrecord, ht⟩ := hr
    obtain ⟨resource, hfound, hsupported⟩ := hgiven.supported (List.mem_map_of_mem hrecord)
    exact ⟨hrecord, resource, hfound, hsupported _ ht⟩

/-! ### A hop that does not exist yet -/

namespace Sample

/-- The second hop is created when the first has expired. -/
def relayed : CandidateChain := .held [grant "root" "bob" 100 200, grant "bob" "alice" 300 400]

/-- Everybody is led by these two hops, and all streams are of the campus. -/
def relay : Engine (StateM Unit) where
  collaborators :=
    { chains := fun _ _ _ => return ⟨0, .ok [relayed]⟩
      credential := fun _ => return ⟨0, .error (.network "no route")⟩
      resource := fun _ => return ⟨0, .ok campus⟩ }
  settings := {}
  checked := Settings.check_usual

/-- Discovery is all that is asked for the request. -/
def relayLog : List Exchange :=
  [.chains campus.toPattern .read ⟨"alice"⟩ ⟨0, .ok [relayed]⟩]

/-- Recorded between the creation of the first hop and its expiry. -/
def early : Record := ⟨⟨1⟩, .ofSeconds 150, ⟨7⟩⟩

end Sample

open Sample

/-- **A chain need not be in force as a whole**: access is given while its second hop does not exist
yet, and a record of that time is kept. -/
theorem access_before_second_hop :
    ∃ ranges, ((relay.validRanges question).run ()).1 = .ok ranges ∧
      IsLog (relay.validRanges question) (relay.logged.validRanges question) () relayLog ∧
      ranges.contains early.time = true ∧
      (¬ ∃ chain credentials, question.Accepted relay.settings relayLog chain credentials ∧
        ∀ credential ∈ credentials, credential.InForce early.time) ∧
      ((relay.maskRecords ⟨"alice"⟩ [early]).run ()).1 = .ok [early] := by
  have hranges : ((relay.validRanges question).run ()).1 =
      .ok ⟨#[⟨.ofSeconds 100, .ofSeconds 200, by decide⟩,
        ⟨.ofSeconds 300, .ofSeconds 400, by decide⟩]⟩ := by cbv
  have hlog : IsLog (relay.validRanges question) (relay.logged.validRanges question) ()
      relayLog := by cbv
  have hmask : ((relay.maskRecords ⟨"alice"⟩ [early]).run ()).1 = .ok [early] := by cbv
  refine ⟨_, hranges, hlog, by decide +kernel, ?_, hmask⟩
  rintro ⟨chain, credentials, ⟨⟨reply, chains, hx, hin, hchain⟩, hshown, -⟩, hforce⟩
  cases List.mem_singleton.mp hx
  cases Reply.result_of_within? hin
  cases List.mem_singleton.mp hchain
  obtain ⟨_, _, rfl, hsecond, rfl⟩ := List.forall₂_cons_left_iff.mp hshown
  obtain ⟨_, _, rfl, -, rfl⟩ := List.forall₂_cons_left_iff.mp hsecond
  -- the second hop was created later
  have hcreated := (hforce _ (List.mem_cons_of_mem _ List.mem_cons_self)).1
  exact absurd hcreated (by decide)

end Engine

end AccessWindows
