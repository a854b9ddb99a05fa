import AccessWindows.Proofs.RangeSet.Union
import AccessWindows.Window

/-!
# Windows — the instants of chains

The windows of several chains, united one after the other, come to what a single pass over the
windows of all their credentials yields (`ofChains_eq_ofList`): at every point of the run over the
chains, the set gathered so far is the normal form of the windows seen so far.  Hence an instant is
in the result exactly when some credential was in force then (`contains_ofChains`), and only which
credentials there are counts: neither their order, nor how often each occurs, nor how they are
grouped into chains (`ofChains_one_pass`).
-/

namespace AccessWindows

/-- The window of a credential covers the instants from its creation to its expiry, if any. -/
theorem Credential.window?_contains_iff {c : Credential} {t : Timestamp} :
    (∃ i, c.window? = some i ∧ i.contains t = true) ↔ c.createdAt ≤ t ∧ t ≤ c.expiresAt :=
  Interval.between?_contains_iff

namespace RangeSet

/-! ### One pass -/

/-- The run over the chains: each adds the windows of its credentials to those gathered before. -/
theorem foldl_union_window (chains : List ResolvedChain) (gathered : List Interval) :
    chains.foldl (fun s c => s.union c.window) (ofList gathered) =
      ofList (gathered ++
        (chains.flatMap ResolvedChain.credentials).filterMap Credential.window?) := by
  induction chains generalizing gathered with
  | nil => rw [List.flatMap_nil, List.filterMap_nil, List.append_nil, List.foldl_nil]
  | cons c chains ih =>
      have hstep : (ofList gathered).union c.window =
          ofList (gathered ++ c.credentials.filterMap Credential.window?) := union_ofList _ _
      rw [List.foldl_cons, hstep, ih, List.flatMap_cons, List.filterMap_append, List.append_assoc]

/-- **Two levels are one**: uniting the windows of chains is one pass over those of credentials. -/
theorem ofChains_eq_ofList (chains : List ResolvedChain) :
    ofChains chains =
      ofList ((chains.flatMap ResolvedChain.credentials).filterMap Credential.window?) := by
  rw [ofChains, ← ofList_nil]
  exact foldl_union_window chains []

theorem canonical_ofChains (chains : List ResolvedChain) : (ofChains chains).Canonical := by
  rw [ofChains_eq_ofList]
  exact canonical_ofList _

/-- **The instants of chains**: one of their credentials was in force then. -/
theorem contains_ofChains {chains : List ResolvedChain} {t : Timestamp} :
    (ofChains chains).contains t = true ↔
      ∃ c ∈ chains, ∃ credential ∈ c.credentials,
        credential.createdAt ≤ t ∧ t ≤ credential.expiresAt := by
  simp only [ofChains_eq_ofList, contains_ofList, Covers, List.mem_filterMap, List.mem_flatMap,
    ← Credential.window?_contains_iff]
  constructor
  · rintro ⟨i, ⟨credential, ⟨c, hc, hcredential⟩, hi⟩, ht⟩
    exact ⟨c, hc, credential, hcredential, i, hi, ht⟩
  · rintro ⟨c, hc, credential, hcredential, i, hi, ht⟩
    exact ⟨i, ⟨credential, ⟨c, hc, hcredential⟩, hi⟩, ht⟩

/-! ### Rearranged chains -/

section rearranged

variable {chains chains' : List ResolvedChain}

/-- Chains with the same credentials have the same ranges. -/
theorem ofChains_congr_credentials
    (h : ∀ c, c ∈ chains.flatMap ResolvedChain.credentials ↔
      c ∈ chains'.flatMap ResolvedChain.credentials) : ofChains chains = ofChains chains' := by
  rw [ofChains_eq_ofList, ofChains_eq_ofList, ofList_eq_ofList_iff]
  intro t
  refine Covers.congr_mem fun i => ?_
  simp only [List.mem_filterMap, h]

/-- The ranges of chains depend neither on their order nor on how often each occurs. -/
theorem ofChains_congr (h : ∀ c, c ∈ chains ↔ c ∈ chains') : ofChains chains = ofChains chains' :=
  ofChains_congr_credentials fun c => by simp only [List.mem_flatMap, h]

end rearranged

/-- **Chains taken apart.**  The ranges of chains are what one pass yields over the spans from
creation to expiry of all their credentials, those that expire before they are created left out.
So chains made of the same credentials have the same ranges, in whatever order and however often
these occur, and however they are grouped. -/
theorem ofChains_one_pass (chains : List ResolvedChain) :
    ofChains chains = ofList ((chains.flatMap ResolvedChain.credentials).filterMap fun c =>
        Interval.between? c.createdAt c.expiresAt) ∧
      ∀ chains' : List ResolvedChain,
        (∀ c, c ∈ chains'.flatMap ResolvedChain.credentials ↔
          c ∈ chains.flatMap ResolvedChain.credentials) → ofChains chains' = ofChains chains :=
  ⟨ofChains_eq_ofList chains, fun _ h => ofChains_congr_credentials h⟩

namespace Sample

/-- A credential for reading in a garden, in force between two seconds. -/
def lease (created expires : Int) : Credential where
  issuer := ⟨"root"⟩
  receiver := ⟨"alice"⟩
  resource := Resource.toPattern ⟨["garden"], by decide, by decide⟩
  permissions := .ofList [.read]
  createdAt := .ofSeconds created
  expiresAt := .ofSeconds expires

/-- A chain whose only window is inverted, and one of two hops whose windows overlap. -/
def chains : List ResolvedChain :=
  [⟨[lease 300 250], by simp⟩, ⟨[lease 100 200, lease 150 400], by simp⟩]

/-- The same credentials, grouped in another way, one of them twice. -/
def regrouped : List ResolvedChain :=
  [⟨[lease 150 400, lease 300 250], by simp⟩, ⟨[lease 150 400], by simp⟩,
    ⟨[lease 100 200], by simp⟩]

end Sample

/-- Taken apart and put together again, the three credentials have one range. -/
theorem ofChains_of_regrouped :
    (∀ c, c ∈ Sample.regrouped.flatMap ResolvedChain.credentials ↔
        c ∈ Sample.chains.flatMap ResolvedChain.credentials) ∧
      ofChains Sample.regrouped = ofChains Sample.chains ∧
      (ofChains Sample.regrouped).toList.map (fun r => (r.first, r.last)) =
        [(.ofSeconds 100, .ofSeconds 400)] := by
  have h : ∀ c, c ∈ Sample.regrouped.flatMap ResolvedChain.credentials ↔
      c ∈ Sample.chains.flatMap ResolvedChain.credentials := fun c => by
    simp only [Sample.regrouped, Sample.chains, List.flatMap_cons, List.flatMap_nil,
      List.append_nil, List.mem_append, List.mem_cons, List.not_mem_nil, or_false]
    tauto
  have heq := (ofChains_one_pass Sample.chains).2 Sample.regrouped h
  refine ⟨h, heq, ?_⟩
  rw [heq]
  decide +kernel

end RangeSet

end AccessWindows
