import AccessWindows.Engine
import AccessWindows.Proofs.Resolution.Lookup
import AccessWindows.Proofs.Steps
import AccessWindows.Proofs.Window

/-!
# Valid ranges — when a request is granted

A candidate chain *holds up* when each of its slots has a credential, held by the slot or confirmed
by the registry, and these credentials reach the principal.  Over fixed answers a request has valid
ranges whenever discovery yields its candidates in time, and they hold exactly the instants at which
a credential of some candidate that holds up was in force (`validRanges_contains_iff`).
-/

namespace AccessWindows

/-- A slot holds the credential, or the registry confirms it under the slot's hash. -/
def Slot.Yields (s : Settings) (c : Collaborators Id) : Slot → Credential → Prop
  | .resolved held, credential => held = credential
  | .unresolved hash, credential => s.Confirms hash (c.credential hash).run credential

namespace Request

variable {q : Request} {s : Settings} {c : Collaborators Id}

/-- The chain has a hop, its slots yield these credentials hop by hop, and these reach the
principal. -/
structure HoldsUp (q : Request) (s : Settings) (c : Collaborators Id) (chain : CandidateChain)
    (credentials : List Credential) : Prop where
  nonempty : chain.slots ≠ []
  yields : List.Forall₂ (Slot.Yields s c) chain.slots credentials
  reaches : q.Reaches credentials

theorem brings_answer : Slot.Brings (s.answer c) = Slot.Yields s c := by
  funext slot credential
  apply propext
  cases slot with
  | resolved held =>
      refine ⟨fun h => ?_, fun h => ?_⟩
      · cases h; rfl
      · cases h; exact .held _
  | unresolved hash =>
      refine ⟨fun h => ?_, fun h => .lookedUp (Settings.verdict_eq_ok_iff.mpr h)⟩
      cases h with
      | lookedUp h => exact Settings.verdict_eq_ok_iff.mp h

/-- The chains that hold up are those that resolution accepts. -/
theorem holdsUp_iff {chain : CandidateChain} {credentials : List Credential} :
    q.HoldsUp s c chain credentials ↔
      ∃ r, (q.resolveChain c s chain).run = .ok r ∧ r.credentials = credentials := by
  simp only [resolveChain_eq_ok_iff, brings_answer]
  constructor
  · rintro ⟨hne, hy, hr⟩
    have hcs : credentials ≠ [] := fun h => hne (List.forall₂_nil_right_iff.mp (h ▸ hy))
    exact ⟨⟨credentials, hcs⟩, ⟨hy, hr⟩, rfl⟩
  · rintro ⟨r, ⟨hy, hr⟩, rfl⟩
    exact ⟨fun h => r.nonempty (List.forall₂_nil_left_iff.mp (h ▸ hy)), hy, hr⟩

theorem candidates_eq_ok_iff {reply : Reply (List CandidateChain)} {chains : List CandidateChain} :
    q.candidates s reply = .ok chains ↔
      reply.within? s.discoveryTimeout.toNat = some (.ok chains) := by
  rw [candidates, mapError_eq_ok_iff, Reply.outcome_eq_ok_iff]

/-- The chains of a resolution are the outcomes that are no rejections. -/
theorem mem_chains_ofOutcomes {outcomes : List (Except Rejection ResolvedChain)}
    {r : ResolvedChain} : r ∈ (Resolution.ofOutcomes outcomes).chains ↔ .ok r ∈ outcomes := by
  rw [Resolution.ofOutcomes, List.mem_filterMap]
  constructor
  · rintro ⟨outcome, ho, hr⟩
    cases outcome with
    | error _ => cases hr
    | ok _ => cases hr; exact ho
  · intro hr
    exact ⟨_, hr, rfl⟩

theorem run_resolve (q : Request) (c : Collaborators Id) (s : Settings) :
    (q.resolve c s).run =
      (q.discover c s).run.result.map fun chains => (q.resolveAll c s chains).run := by
  rw [resolve, Id.run_bind]
  cases (q.discover c s).run.result with
  | error _ => rfl
  | ok _ => rfl

/-- Resolution collects what becomes of each of the candidates. -/
theorem run_resolveAll (q : Request) (c : Collaborators Id) (s : Settings)
    (chains : List CandidateChain) :
    (q.resolveAll c s chains).run =
      .ofOutcomes (chains.map fun chain => (q.resolveChain c s chain).run) := by
  simp only [resolveAll, Id.run_bind, Id.run_pure, List.idRun_mapM]

/-- With candidates in time, resolution collects what becomes of each of them. -/
theorem resolve_of_candidates {chains : List CandidateChain}
    (h : (c.chains q.resource.toPattern q.permission q.principal).run.within?
      s.discoveryTimeout.toNat = some (.ok chains)) :
    (q.resolve c s).run =
      .ok (.ofOutcomes (chains.map fun chain => (q.resolveChain c s chain).run)) := by
  have hc : (q.discover c s).run.result = .ok chains := candidates_eq_ok_iff.mpr h
  rw [run_resolve, hc, ← run_resolveAll]
  rfl

end Request

namespace Engine

theorem run_validRanges (e : Engine Id) (q : Request) :
    (e.validRanges q).run =
      (q.resolve e.collaborators e.settings).run.map fun r => .ofChains r.chains := by
  rw [validRanges, explain]
  simp only [Id.run_bind, Id.run_pure]
  cases (q.resolve e.collaborators e.settings).run with
  | error _ => rfl
  | ok _ => rfl

/-- Valid ranges are what the candidates that are discovered grant. -/
theorem validRanges_eq_ok_iff {e : Engine Id} {q : Request} {ranges : RangeSet} :
    (e.validRanges q).run = .ok ranges ↔
      ∃ chains, (q.discover e.collaborators e.settings).run.result = .ok chains ∧
        (e.granted q chains).run = ranges := by
  rw [run_validRanges, Request.run_resolve]
  simp only [map_eq_ok_iff]
  constructor
  · rintro ⟨_, ⟨chains, hc, rfl⟩, rfl⟩
    exact ⟨chains, hc, rfl⟩
  · rintro ⟨chains, hc, rfl⟩
    exact ⟨_, ⟨chains, hc, rfl⟩, rfl⟩

/-- Discovery yields these candidates for the request, in time. -/
def Discovers (e : Engine Id) (q : Request) (chains : List CandidateChain) : Prop :=
  (e.collaborators.chains q.resource.toPattern q.permission q.principal).run.within?
    e.settings.discoveryTimeout.toNat = some (.ok chains)

/-- What becomes of the candidates of a request. -/
def outcomes (e : Engine Id) (q : Request) (chains : List CandidateChain) :
    List (Except Rejection ResolvedChain) :=
  chains.map fun chain => (q.resolveChain e.collaborators e.settings chain).run

theorem run_explain_of_discovers {e : Engine Id} {q : Request} {chains : List CandidateChain}
    (h : e.Discovers q chains) :
    (e.explain q).run =
      .ok (.ofChains (Resolution.ofOutcomes (e.outcomes q chains)).chains,
        (Resolution.ofOutcomes (e.outcomes q chains)).report) := by
  rw [explain, Id.run_bind, Id.run_pure, Request.resolve_of_candidates h]
  rfl

theorem run_validRanges_of_discovers {e : Engine Id} {q : Request} {chains : List CandidateChain}
    (h : e.Discovers q chains) :
    (e.validRanges q).run =
      .ok (.ofChains (Resolution.ofOutcomes (e.outcomes q chains)).chains) := by
  rw [validRanges, Id.run_bind, Id.run_pure, run_explain_of_discovers h]
  rfl

theorem canonical_of_validRanges {e : Engine Id} {q : Request} {s : RangeSet}
    (h : (e.validRanges q).run = .ok s) : s.Canonical := by
  rw [run_validRanges, map_eq_ok_iff] at h
  obtain ⟨r, -, rfl⟩ := h
  exact RangeSet.canonical_ofChains r.chains

/-- **What valid ranges mean.**  If discovery yields the candidates in time, a request has valid
ranges, and an instant lies in them exactly when some candidate holds up with credentials of which
one was in force then. -/
theorem validRanges_contains_iff (e : Engine Id) (q : Request) {chains : List CandidateChain}
    (h : (e.collaborators.chains q.resource.toPattern q.permission q.principal).run.within?
      e.settings.discoveryTimeout.toNat = some (.ok chains)) :
    ∃ ranges, (e.validRanges q).run = .ok ranges ∧
      ∀ t, ranges.contains t = true ↔
        ∃ chain ∈ chains, ∃ credentials,
          q.HoldsUp e.settings e.collaborators chain credentials ∧
            ∃ credential ∈ credentials, credential.createdAt ≤ t ∧ t ≤ credential.expiresAt := by
  refine ⟨_, by rw [run_validRanges, Request.resolve_of_candidates h]; rfl, fun t => ?_⟩
  rw [RangeSet.contains_ofChains]
  simp only [Request.holdsUp_iff, Request.mem_chains_ofOutcomes, List.mem_map]
  constructor
  · rintro ⟨r, ⟨chain, hc, hr⟩, hcs⟩
    exact ⟨chain, hc, r.credentials, ⟨r, hr, rfl⟩, hcs⟩
  · rintro ⟨chain, hc, _, ⟨r, hr, rfl⟩, hcs⟩
    exact ⟨r, ⟨chain, hc, hr⟩, hcs⟩

/-! ### An engine over two candidates -/

namespace Sample

/-- Two hops, of which the second expires before it is created; and a hop known by its hash. -/
def chains : List CandidateChain :=
  [.held [grant "root" "bob" 100 200, grant "bob" "alice" 300 250],
    ⟨[.unresolved ⟨.replicate 32 0⟩]⟩]

/-- Everybody gets the two candidates, all streams are of the campus, and what a hash stands for
has been revoked. -/
def engine : Engine Id where
  collaborators :=
    { chains := fun _ _ _ => ⟨0, .ok chains⟩
      credential := fun _ => ⟨0, .ok ⟨[], .revoked⟩⟩
      resource := fun _ => ⟨0, .ok campus⟩ }
  settings := {}
  checked := Settings.check_usual

end Sample

/-- The first candidate holds up, and only its first hop has a window. -/
theorem validRanges_of_two_candidates :
    ((Sample.engine.collaborators.chains Sample.campus.toPattern .read ⟨"alice"⟩).run.within?
        Sample.engine.settings.discoveryTimeout.toNat = some (.ok Sample.chains)) ∧
      ∃ ranges, (Sample.engine.validRanges Sample.question).run = .ok ranges ∧
        ∀ t, ranges.contains t = true ↔
          Timestamp.ofSeconds 100 ≤ t ∧ t ≤ Timestamp.ofSeconds 200 := by
  have hc : (Sample.engine.collaborators.chains Sample.campus.toPattern .read ⟨"alice"⟩).run.within?
      Sample.engine.settings.discoveryTimeout.toNat = some (.ok Sample.chains) := rfl
  obtain ⟨ranges, hr, hcon⟩ := validRanges_contains_iff Sample.engine Sample.question hc
  refine ⟨hc, ranges, hr, fun t => (hcon t).trans ⟨?_, fun ht => ?_⟩⟩
  · rintro ⟨chain, hm, credentials, ⟨-, hy, -⟩, credential, hcm, hct⟩
    rcases List.mem_pair.mp hm with rfl | rfl
    · obtain ⟨_, _, rfl, hy₁, rfl⟩ := List.forall₂_cons_left_iff.mp hy
      obtain ⟨_, _, rfl, hy₂, rfl⟩ := List.forall₂_cons_left_iff.mp hy₁
      cases hy₂
      rcases List.mem_pair.mp hcm with rfl | rfl
      · exact hct
      · exact absurd (Int.le_trans hct.1 hct.2) (by decide)
    · obtain ⟨_, _, ⟨entry, he, hs, -⟩, -, -⟩ := List.forall₂_cons_left_iff.mp hy
      cases he
      simp at hs
  · refine ⟨_, List.mem_cons_self, _, ⟨?_, .cons rfl (.cons rfl .nil), ?_, ?_, ?_⟩,
      _, List.mem_cons_self, ht⟩
    · exact List.cons_ne_nil _ _
    · exact List.isChain_pair.mpr rfl
    · exact ⟨_, rfl, rfl⟩
    · decide

end Engine

end AccessWindows
