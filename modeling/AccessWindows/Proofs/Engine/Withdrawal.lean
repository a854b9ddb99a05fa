import AccessWindows.Proofs.Engine.ValidRanges
import Mathlib.Data.List.Perm.Subperm

/-!
# Withdrawal — taking authority away never gives access

Two engines answer the same request.  If the second confirms no credential but those that the first
confirms, every chain that it accepts is accepted by the first as well, and with the same
credentials (`resolveChain_of_confirms`); over fewer candidates its valid ranges then hold no
instant that those of the first do not (`contains_of_confirms`).

That is so when authority has been withdrawn (`Narrows`): candidates are gone, the registry fails
where it answered, or expired credentials no longer count.  Conversely nothing is lost when
authority has been added (`Widens`).  `validRanges_monotone` says both.
-/

namespace AccessWindows

/-! ### What a registry confirms -/

/-- No entry comes in time, or one that is revoked or invalid. -/
def Settings.Fails (s : Settings) (reply : Reply RegistryEntry) : Prop :=
  ∀ entry, reply.within? s.lookupTimeout.toNat = some (.ok entry) →
    entry.state = .revoked ∨ entry.state = .invalid

theorem Settings.Fails.not_confirms {s : Settings} {reply : Reply RegistryEntry}
    (h : s.Fails reply) (hash : CredentialHash) (credential : Credential) :
    ¬ s.Confirms hash reply credential := by
  rintro ⟨entry, he, hs, -⟩
  rcases h entry he with hr | hi
  · simp [hr] at hs
  · simp [hi] at hs

/-- A slot that brings a credential brings it also where more is confirmed. -/
theorem Slot.Brings.mono {verdict verdict' : CredentialHash → Except Rejection Credential}
    (hv : ∀ hash credential, verdict' hash = .ok credential → verdict hash = .ok credential)
    {slot : Slot} {credential : Credential} (h : slot.Brings verdict' credential) :
    slot.Brings verdict credential := by
  cases h with
  | held => exact .held credential
  | lookedUp h => exact .lookedUp (hv _ _ h)

namespace Engine

/-- What the registry says about a hash by the deadline. -/
def entry? (e : Engine Id) (hash : CredentialHash) : Option (Except Failure RegistryEntry) :=
  (e.collaborators.credential hash).run.within? e.settings.lookupTimeout.toNat

/-- The registry confirms the credential under the hash. -/
def Confirms (e : Engine Id) (hash : CredentialHash) (credential : Credential) : Prop :=
  e.settings.Confirms hash (e.collaborators.credential hash).run credential

variable {e e' : Engine Id}

/-- The same entry confirms the same credential where no fewer verdicts count. -/
theorem Confirms.of_entry?_eq {hash : CredentialHash} {credential : Credential}
    (h : e'.Confirms hash credential) (he : e'.entry? hash = e.entry? hash)
    (hx : e'.settings.acceptExpired = true → e.settings.acceptExpired = true) :
    e.Confirms hash credential := by
  obtain ⟨entry, hin, hs, hd⟩ := h
  exact ⟨entry, he.symm.trans hin, hs.imp_right (And.imp_right hx), hd⟩

/-- The second engine has less to go by: for each hash its registry answers as the first one's does
or fails, and it takes expired credentials only if the first one does. -/
structure Narrows (e e' : Engine Id) : Prop where
  registry : ∀ hash, e'.entry? hash = e.entry? hash ∨
    e'.settings.Fails (e'.collaborators.credential hash).run
  expired : e'.settings.acceptExpired = true → e.settings.acceptExpired = true

/-- The second engine has more to go by: for each hash its registry answers as the first one's
does, unless that one confirms nothing, and it takes expired credentials if the first one does. -/
structure Widens (e e' : Engine Id) : Prop where
  registry : ∀ hash, e'.entry? hash = e.entry? hash ∨ ∀ credential, ¬ e.Confirms hash credential
  expired : e.settings.acceptExpired = true → e'.settings.acceptExpired = true

theorem Narrows.confirms (h : e.Narrows e') {hash : CredentialHash} {credential : Credential}
    (hc : e'.Confirms hash credential) : e.Confirms hash credential := by
  rcases h.registry hash with heq | hfail
  · exact hc.of_entry?_eq heq h.expired
  · exact absurd hc (hfail.not_confirms hash credential)

theorem Widens.confirms (h : e.Widens e') {hash : CredentialHash} {credential : Credential}
    (hc : e.Confirms hash credential) : e'.Confirms hash credential := by
  rcases h.registry hash with heq | hnone
  · exact hc.of_entry?_eq heq.symm h.expired
  · exact absurd hc (hnone credential)

/-! ### What is accepted -/

variable {q : Request} {chains chains' : List CandidateChain}

/-- A chain is accepted also where more is confirmed, and it is the same chain. -/
theorem resolveChain_of_confirms
    (hc : ∀ hash credential, e'.Confirms hash credential → e.Confirms hash credential)
    {chain : CandidateChain} {r : ResolvedChain}
    (h : (q.resolveChain e'.collaborators e'.settings chain).run = .ok r) :
    (q.resolveChain e.collaborators e.settings chain).run = .ok r := by
  rw [Request.resolveChain_eq_ok_iff] at h ⊢
  have hv : ∀ hash credential, e'.settings.answer e'.collaborators hash = .ok credential →
      e.settings.answer e.collaborators hash = .ok credential := fun hash credential ha =>
    Settings.verdict_eq_ok_iff.mpr (hc hash credential (Settings.verdict_eq_ok_iff.mp ha))
  exact ⟨h.1.imp fun _ _ hb => hb.mono hv, h.2⟩

/-- With more candidates, and more that is confirmed, no instant is lost. -/
theorem contains_of_confirms (hsub : chains' ⊆ chains)
    (hc : ∀ hash credential, e'.Confirms hash credential → e.Confirms hash credential)
    {t : Timestamp}
    (h : (RangeSet.ofChains (Resolution.ofOutcomes (e'.outcomes q chains')).chains).contains t =
      true) :
    (RangeSet.ofChains (Resolution.ofOutcomes (e.outcomes q chains)).chains).contains t = true := by
  rw [RangeSet.contains_ofChains] at h ⊢
  obtain ⟨r, hr, ht⟩ := h
  rw [Request.mem_chains_ofOutcomes] at hr
  obtain ⟨chain, hchain, ho⟩ := List.mem_map.mp hr
  have hmem : Except.ok r ∈ e.outcomes q chains :=
    List.mem_map.mpr ⟨chain, hsub hchain, resolveChain_of_confirms hc ho⟩
  exact ⟨r, Request.mem_chains_ofOutcomes.mpr hmem, ht⟩

/-- **Withdrawing authority can only shrink access**, and adding authority can only extend it.  Two
engines answer the same request, and each discovers its candidates in time.  If the second has no
candidates but some of the first one's, and less to go by, every instant in its valid ranges is in
those of the first.  If it has all the candidates of the first, and more to go by, its valid ranges
have lost no instant. -/
theorem validRanges_monotone (h : e.Discovers q chains) (h' : e'.Discovers q chains') :
    ∃ ranges ranges', (e.validRanges q).run = .ok ranges ∧ (e'.validRanges q).run = .ok ranges' ∧
      (chains'.Subperm chains → e.Narrows e' →
        ∀ t, ranges'.contains t = true → ranges.contains t = true) ∧
      (chains.Subperm chains' → e.Widens e' →
        ∀ t, ranges.contains t = true → ranges'.contains t = true) := by
  refine ⟨_, _, run_validRanges_of_discovers h, run_validRanges_of_discovers h', ?_, ?_⟩
  · intro hsub hn t ht
    exact contains_of_confirms hsub.subset (fun _ _ => hn.confirms) ht
  · intro hsub hw t ht
    exact contains_of_confirms hsub.subset (fun _ _ => hw.confirms) ht

/-! ### A chain and a credential withdrawn -/

namespace Sample

/-- Takes expired credentials, and the registry has one. -/
def lenient : Engine Id :=
  ⟨collaborators [oneHop, twoHops, oneHop] ⟨0, .ok ⟨held.encode, .expired⟩⟩, {},
    Settings.check_usual⟩

/-- Takes no expired credentials, and the registry is out of reach. -/
def strict : Engine Id :=
  ⟨collaborators [twoHops, oneHop] ⟨0, .error (.network "no route")⟩,
    { acceptExpired := false }, rfl⟩

theorem strict_fails (hash : CredentialHash) :
    strict.settings.Fails (strict.collaborators.credential hash).run := by
  intro entry he
  cases he

theorem lenient_accepts :
    (question.resolveChain lenient.collaborators lenient.settings twoHops).run = .ok bothHops := by
  rw [Request.resolveChain_eq_ok_iff]
  refine ⟨.cons (.held _) (.cons (.lookedUp (verdict_held rfl (by decide))) .nil), ?_, ?_, ?_⟩
  · exact List.isChain_pair.mpr rfl
  · exact ⟨_, rfl, rfl⟩
  · decide

theorem lenient_grants {ranges : RangeSet} (h : (lenient.validRanges question).run = .ok ranges) :
    ranges.contains (.ofSeconds 250) = true := by
  have hd : lenient.Discovers question [oneHop, twoHops, oneHop] := rfl
  rw [run_validRanges_of_discovers hd] at h
  cases h
  have hmem : Except.ok bothHops ∈ lenient.outcomes question [oneHop, twoHops, oneHop] :=
    List.mem_map.mpr ⟨twoHops, List.mem_cons_of_mem _ List.mem_cons_self, lenient_accepts⟩
  exact RangeSet.contains_ofChains.mpr ⟨bothHops, Request.mem_chains_ofOutcomes.mpr hmem,
    _, List.mem_cons_self, by decide, by decide⟩

theorem strict_grants :
    (strict.validRanges question).run =
      .ok ⟨#[⟨.ofSeconds 400, .ofSeconds 500, by decide⟩]⟩ := by
  decide +kernel

end Sample

open Sample

/-- A chain, a credential and the leniency towards expired ones are withdrawn, or else given: no
instant is in the valid ranges only without them, and some are in them only with them. -/
theorem validRanges_of_lenient_and_strict :
    lenient.Discovers question [oneHop, twoHops, oneHop] ∧
      strict.Discovers question [twoHops, oneHop] ∧
      [twoHops, oneHop].Subperm [oneHop, twoHops, oneHop] ∧
      lenient.Narrows strict ∧ strict.Widens lenient ∧
      ∃ ranges ranges', (lenient.validRanges question).run = .ok ranges ∧
        (strict.validRanges question).run = .ok ranges' ∧
        (∀ t, ranges'.contains t = true → ranges.contains t = true) ∧
        ranges.contains (.ofSeconds 450) = true ∧
        ranges.contains (.ofSeconds 250) = true ∧ ranges'.contains (.ofSeconds 250) = false := by
  have hd : lenient.Discovers question [oneHop, twoHops, oneHop] := rfl
  have hd' : strict.Discovers question [twoHops, oneHop] := rfl
  have hsub : [twoHops, oneHop].Subperm [oneHop, twoHops, oneHop] :=
    (List.sublist_cons_self oneHop [twoHops, oneHop]).subperm
  have hn : lenient.Narrows strict := ⟨fun hash => Or.inr (strict_fails hash), fun h => by cases h⟩
  have hw : strict.Widens lenient :=
    ⟨fun hash => Or.inr ((strict_fails hash).not_confirms hash), fun h => by cases h⟩
  obtain ⟨ranges, ranges', hr, hr', hshrink, -⟩ := validRanges_monotone hd hd'
  obtain ⟨_, _, hs', hs, -, hgrow⟩ := validRanges_monotone hd' hd
  cases hr'.symm.trans strict_grants
  cases hs'.symm.trans strict_grants
  cases hs.symm.trans hr
  exact ⟨hd, hd', hsub, hn, hw, ranges, _, hr, hr', hshrink hsub hn,
    hgrow hsub hw _ (by decide +kernel), lenient_grants hr, by decide +kernel⟩

end Engine

end AccessWindows
