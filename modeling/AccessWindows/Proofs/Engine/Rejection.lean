import AccessWindows.Proofs.Engine.ValidRanges
import AccessWindows.Proofs.Resolution.Schedule

/-!
# Rejections — for which cause a chain is dropped

The answer of a registry to the question for a slot's hash brings a credential or is refused, for
one of seven causes (`Settings.Refuses`, `verdict_eq_error_iff`).  What becomes of a chain is
decided by these, by the links between its hops and by what they pass on, in this order
(`Request.Decided`): without a hop it is empty; if a slot is refused, the cause is that of one such
slot; otherwise its slots bring credentials, and what is wrong with these is the cause.  The order
in which look-ups end chooses between several slots that are refused, and makes no other difference
(`decided_of_answers`).

A report counts each cause as often as a candidate was dropped for it (`Report.Tells`), also when
candidates are resolved side by side (`Pool.Settled.of_run`).
-/

namespace AccessWindows

/-! ### Slots that are refused -/

/-- Bytes hold no credential for a hash if they are not those of the hash, or hold none at all. -/
theorem decodeAccess_eq_error_iff {hash : CredentialHash} {bytes : List UInt8}
    {cause : Rejection} :
    decodeAccess hash bytes = .error cause ↔
      contentHash bytes ≠ hash ∧ cause = .hashMismatch ∨
        contentHash bytes = hash ∧
          (∀ c, Payload.decode? bytes ≠ some (.access Payload.currentVersion c)) ∧
            cause = .undecodable := by
  by_cases hh : contentHash bytes = hash
  · by_cases hd : ∃ c, Payload.decode? bytes = some (.access Payload.currentVersion c)
    · obtain ⟨c, hc⟩ := hd
      simp [decodeAccess_eq_ok_iff.mpr ⟨hh, hc⟩, hh, hc]
    · rw [decodeAccess, if_neg (not_not.mpr hh)]
      have hd := not_exists.mp hd
      split
      next version credential hp =>
          rw [if_neg fun hv : version = Payload.currentVersion => hd credential (hv ▸ hp)]
          simpa [hh, hd] using eq_comm
      next => simpa [hh, hd] using eq_comm
  · rw [decodeAccess, if_pos hh]
    simpa [hh] using eq_comm

namespace Settings

variable {s : Settings} {hash : CredentialHash} {reply : Reply RegistryEntry} {cause : Rejection}

/-- Which verdicts are refused depends on the settings for expired credentials alone. -/
theorem refusal?_eq_some_iff {v : Validity} :
    s.refusal? v = some cause ↔
      v = .revoked ∧ cause = .revoked ∨ v = .invalid ∧ cause = .invalid ∨
        v = .expired ∧ s.acceptExpired = false ∧ cause = .expired := by
  cases v with
  | valid => simp [refusal?]
  | expired => cases h : s.acceptExpired <;> simp [refusal?, h, eq_comm (a := cause)]
  | revoked => simp [refusal?, eq_comm (a := cause)]
  | invalid => simp [refusal?, eq_comm (a := cause)]

/-- Why the answer of a registry to the question for a hash brings no credential: it comes too late
or is a failure; its entry does not stand; or the payload of an entry that stands is not the one
that was asked for, or is the one and encodes no credential in the current version. -/
inductive Refuses (s : Settings) (hash : CredentialHash) (reply : Reply RegistryEntry) :
    Rejection → Prop where
  | late (h : reply.within? s.lookupTimeout.toNat = none) : Refuses s hash reply .lookupTimedOut
  | failed {failure : Failure} (h : reply.within? s.lookupTimeout.toNat = some (.error failure)) :
      Refuses s hash reply .lookupFailed
  | revoked {entry : RegistryEntry} (h : reply.within? s.lookupTimeout.toNat = some (.ok entry))
      (hs : entry.state = .revoked) : Refuses s hash reply .revoked
  | invalid {entry : RegistryEntry} (h : reply.within? s.lookupTimeout.toNat = some (.ok entry))
      (hs : entry.state = .invalid) : Refuses s hash reply .invalid
  | expired {entry : RegistryEntry} (h : reply.within? s.lookupTimeout.toNat = some (.ok entry))
      (hs : entry.state = .expired) (ha : s.acceptExpired = false) : Refuses s hash reply .expired
  | mismatch {entry : RegistryEntry} (h : reply.within? s.lookupTimeout.toNat = some (.ok entry))
      (hs : entry.state = .valid ∨ entry.state = .expired ∧ s.acceptExpired = true)
      (hh : contentHash entry.payload ≠ hash) : Refuses s hash reply .hashMismatch
  | undecodable {entry : RegistryEntry}
      (h : reply.within? s.lookupTimeout.toNat = some (.ok entry))
      (hs : entry.state = .valid ∨ entry.state = .expired ∧ s.acceptExpired = true)
      (hh : contentHash entry.payload = hash)
      (hd : ∀ c, Payload.decode? entry.payload ≠ some (.access Payload.currentVersion c)) :
      Refuses s hash reply .undecodable

/-- **The cause of a slot** is the first thing that is wrong with the answer. -/
theorem verdict_eq_error_iff :
    s.verdict hash reply = .error cause ↔ s.Refuses hash reply cause := by
  constructor
  · intro h
    rw [verdict] at h
    split at h
    next hr => cases h; exact .late hr
    next hr => cases h; exact .failed hr
    next entry hr =>
        split at h
        next cause' hv =>
            cases h
            rcases refusal?_eq_some_iff.mp hv with ⟨hs, rfl⟩ | ⟨hs, rfl⟩ | ⟨hs, ha, rfl⟩
            · exact .revoked hr hs
            · exact .invalid hr hs
            · exact .expired hr hs ha
        next hv =>
            have hs := refusal?_eq_none_iff.mp hv
            rcases decodeAccess_eq_error_iff.mp h with ⟨hh, rfl⟩ | ⟨hh, hd, rfl⟩
            · exact .mismatch hr hs hh
            · exact .undecodable hr hs hh hd
  · intro h
    rw [verdict]
    cases h with
    | late h => rw [h]
    | failed h => rw [h]
    | revoked h hs => simp [h, hs, refusal?]
    | invalid h hs => simp [h, hs, refusal?]
    | expired h hs ha => simp [h, hs, ha, refusal?]
    | mismatch h hs hh =>
        simp only [h, refusal?_eq_none_iff.mpr hs]
        exact decodeAccess_eq_error_iff.mpr (.inl ⟨hh, rfl⟩)
    | undecodable h hs hh hd =>
        simp only [h, refusal?_eq_none_iff.mpr hs]
        exact decodeAccess_eq_error_iff.mpr (.inr ⟨hh, hd, rfl⟩)

end Settings

/-- Some slot holds a hash, and the answer to the question for it is refused for that cause. -/
def Refused (s : Settings) (c : Collaborators Id) (slots : List Slot) (cause : Rejection) : Prop :=
  ∃ hash, .unresolved hash ∈ slots ∧ s.Refuses hash (c.credential hash).run cause

variable {s : Settings} {c : Collaborators Id}

/-- A look-up of a chain fails if and only if one of its open slots is refused. -/
theorem failing_iff {slots : List Slot} :
    Failing (s.answer c) slots ↔ ∃ cause, Refused s c slots cause := by
  simp only [Failing, Refused, Settings.answer, Settings.verdict_eq_error_iff]
  exact exists_comm

/-! ### What is decided about a chain -/

namespace Request

variable {q : Request} {chain : CandidateChain} {outcome : Except Rejection ResolvedChain}

/-- Some hop is received by another than the issuer of the next, or the last by another than the
principal. -/
def Unlinked (q : Request) (credentials : List Credential) : Prop :=
  (∃ before a b after, credentials = before ++ a :: b :: after ∧ a.receiver ≠ b.issuer) ∨
    ∃ last, credentials.getLast? = some last ∧ last.receiver ≠ q.principal

/-- Some hop does not pass on the permission, or not on the resource. -/
def Uncovered (q : Request) (credentials : List Credential) : Prop :=
  ∃ c ∈ credentials,
    ¬ (c.permissions.grants q.permission = true ∧ c.resource.fits q.resource = true)

/-- The check of links finds a chain that is not linked. -/
theorem isLinked_iff {r : ResolvedChain} :
    q.isLinked r = true ↔ ¬ q.Unlinked r.credentials := by
  rw [isLinked, Bool.and_eq_true, ResolvedChain.firstBrokenLink?_isNone, ResolvedChain.endsAt_iff,
    Unlinked, not_or, List.isChain_iff_forall_rel_of_append_cons_cons]
  obtain ⟨last, hlast⟩ := Option.isSome_iff_exists.mp (List.getLast?_isSome.mpr r.nonempty)
  refine and_congr ?_ ?_
  · push Not
    exact ⟨fun h before a b after he => h he, fun h a b before after he => h before a b after he⟩
  · simp [hlast]

/-- The check of grants finds a credential that does not cover the request. -/
theorem isCovered_iff {r : ResolvedChain} :
    q.isCovered r = true ↔ ¬ q.Uncovered r.credentials := by
  simp only [isCovered, Uncovered, List.all_eq_true, Credential.grants, Bool.and_eq_true]
  push Not
  rfl

/-- What becomes of a candidate.  It is empty exactly when it has no hop.  If a slot is refused, so
is the candidate, for the cause of such a slot.  Otherwise each slot brings a credential, the one
that it holds or the one that its hash was confirmed for; the linkage is broken exactly when these
are unlinked, the scope does not match exactly when they are linked and one does not cover the
request, and exactly when nothing is wrong the candidate holds up, with these credentials. -/
structure Decided (q : Request) (s : Settings) (c : Collaborators Id) (chain : CandidateChain)
    (outcome : Except Rejection ResolvedChain) : Prop where
  empty_iff : outcome = .error .empty ↔ chain.slots = []
  refused : (∃ cause, Refused s c chain.slots cause) →
    ∃ cause, Refused s c chain.slots cause ∧ outcome = .error cause
  filled : chain.slots ≠ [] → (¬ ∃ cause, Refused s c chain.slots cause) →
    ∃ credentials, List.Forall₂ (Slot.Yields s c) chain.slots credentials ∧
      (outcome = .error .brokenLinkage ↔ q.Unlinked credentials) ∧
      (outcome = .error .scopeMismatch ↔ ¬ q.Unlinked credentials ∧ q.Uncovered credentials) ∧
      ∀ r, outcome = .ok r ↔
        r.credentials = credentials ∧ ¬ q.Unlinked credentials ∧ ¬ q.Uncovered credentials
  never_incomplete : outcome ≠ .error .incomplete

/-- A chain without slots is empty, whatever the registry says. -/
theorem decided_of_empty (h : chain.slots = []) : q.Decided s c chain (.error .empty) where
  empty_iff := ⟨fun _ => h, fun _ => rfl⟩
  refused := by
    rintro ⟨_, _, hm, -⟩
    rw [h] at hm
    cases hm
  filled hne := absurd h hne
  never_incomplete := by simp

/-- A refused slot decides the chain before links and grants are looked at. -/
theorem decided_of_refused {cause : Rejection} (h : Refused s c chain.slots cause) :
    q.Decided s c chain (.error cause) where
  empty_iff := by
    obtain ⟨hash, hm, hr⟩ := h
    refine ⟨fun he => ?_, fun hs => absurd (hs ▸ hm) List.not_mem_nil⟩
    cases Except.error.inj he
    cases hr
  refused _ := ⟨cause, h, rfl⟩
  filled _ hno := absurd ⟨cause, h⟩ hno
  never_incomplete := by
    obtain ⟨hash, -, hr⟩ := h
    intro he
    cases Except.error.inj he
    cases hr

/-- The outcome of a review, by what is wrong with the credentials. -/
theorem review_cases (q : Request) (r : ResolvedChain) :
    (q.Unlinked r.credentials ∧ q.review r = .error .brokenLinkage) ∨
      (¬ q.Unlinked r.credentials ∧ q.Uncovered r.credentials ∧
        q.review r = .error .scopeMismatch) ∨
      (¬ q.Unlinked r.credentials ∧ ¬ q.Uncovered r.credentials ∧ q.review r = .ok r) := by
  by_cases hl : q.isLinked r = true
  · by_cases hc : q.isCovered r = true
    · exact .inr (.inr ⟨isLinked_iff.mp hl, isCovered_iff.mp hc, by simp [review, hl, hc]⟩)
    · have hu : q.Uncovered r.credentials := not_not.mp (mt isCovered_iff.mpr hc)
      exact .inr (.inl ⟨isLinked_iff.mp hl, hu, by simp [review, hl, hc]⟩)
  · have hu : q.Unlinked r.credentials := not_not.mp (mt isLinked_iff.mpr hl)
    exact .inl ⟨hu, by simp [review, hl]⟩

/-- Where every slot yields a credential, the review of these decides. -/
theorem decided_of_yields {r : ResolvedChain}
    (h : List.Forall₂ (Slot.Yields s c) chain.slots r.credentials) :
    q.Decided s c chain (q.review r) := by
  have hne : chain.slots ≠ [] := fun hs => r.nonempty (List.forall₂_nil_left_iff.mp (hs ▸ h))
  have hno : ¬ ∃ cause, Refused s c chain.slots cause := fun hr =>
    not_failing_of_brings (brings_answer.symm ▸ h) (failing_iff.mpr hr)
  have hok : ∀ r' : ResolvedChain, r = r' ↔ r'.credentials = r.credentials := fun r' =>
    ⟨fun hr => hr ▸ rfl, fun hr => by cases r; cases r'; cases hr; rfl⟩
  have hcases := q.review_cases r
  refine ⟨?_, fun hr => absurd hr hno, fun _ _ => ⟨r.credentials, h, ?_, ?_, fun r' => ?_⟩, ?_⟩
  · rcases hcases with ⟨-, hr⟩ | ⟨-, -, hr⟩ | ⟨-, -, hr⟩ <;> simp [hr, hne]
  · rcases hcases with ⟨hu, hr⟩ | ⟨hu, -, hr⟩ | ⟨hu, -, hr⟩ <;> simp [hr, hu]
  · rcases hcases with ⟨hu, hr⟩ | ⟨hu, hv, hr⟩ | ⟨hu, hv, hr⟩
    · simp [hr, hu]
    · simp [hr, hu, hv]
    · simp [hr, hu, hv]
  · rcases hcases with ⟨hu, hr⟩ | ⟨hu, hv, hr⟩ | ⟨hu, hv, hr⟩
    · simp [hr, hu]
    · simp [hr, hu, hv]
    · simp [hr, hu, hv, hok]
  · rcases hcases with ⟨-, hr⟩ | ⟨-, -, hr⟩ | ⟨-, -, hr⟩ <;> simp [hr]

/-- **Exactness**, in whatever order the look-ups end. -/
theorem decided_of_answers {as : List Arrival} (ha : Answers (s.answer c) chain.pending as) :
    q.Decided s c chain (q.judge chain as) := by
  rcases brings_or_failing (s.answer c) chain.slots with ⟨credentials, hb⟩ | hf
  · by_cases hne : credentials = []
    · subst hne
      have hs : chain.slots = [] := List.forall₂_nil_right_iff.mp hb
      rw [judge_of_empty hs]
      exact decided_of_empty hs
    · rw [judge_of_brings ha hb hne]
      exact decided_of_yields (r := ⟨credentials, hne⟩) (brings_answer ▸ hb)
  · obtain ⟨hash, cause, hm, hv, hj⟩ := judge_of_failing (q := q) ha hf
    rw [hj]
    exact decided_of_refused ⟨hash, hm, Settings.verdict_eq_error_iff.mp hv⟩

/-- A chain that is resolved by itself is decided. -/
theorem decided_resolveChain (q : Request) (s : Settings) (c : Collaborators Id)
    (chain : CandidateChain) : q.Decided s c chain (q.resolveChain c s chain).run :=
  decided_of_answers (s.answers_inTime c chain.pending)

end Request

/-! ### Chains on a schedule -/

namespace Task

variable {q : Request} {verdict : CredentialHash → Except Rejection Credential} {t t' : Task}

theorem Step.chain_eq (h : Step verdict t t') : t'.chain = t.chain ∧ t'.index = t.index := by
  cases h with
  | lookUp => exact ⟨rfl, rfl⟩

/-- What holds of a candidate at every point of its resolution. -/
theorem sound_of_run {chain : CandidateChain} {index : Nat}
    (h : Relation.ReflTransGen (Step verdict) (start chain index) t) :
    t.Sound verdict ∧ t.chain = chain := by
  induction h with
  | refl => exact ⟨sound_start chain index, rfl⟩
  | tail _ hstep ih => exact ⟨ih.1.step hstep, hstep.chain_eq.1.trans ih.2⟩

/-- What a task ends with decides its chain, whatever order its look-ups ended in. -/
theorem Sound.decided_of_ends (ht : t.Sound (s.answer c)) {outcome : Except Rejection ResolvedChain}
    (h : t.Ends q outcome) : q.Decided s c t.chain outcome := by
  obtain ⟨hr, order, ho, rfl⟩ := h
  exact Request.decided_of_answers ((ht.answers hr).of_mem_iff fun _ => ho.mem_iff)

end Task

namespace Pool

variable {q : Request} {cap : Nat} {chains : List CandidateChain} {p p' : Pool}

/-- Whatever waits, is being resolved or is finished belongs to the candidate at its place, and what
is finished has been decided for that candidate. -/
structure Settled (q : Request) (s : Settings) (c : Collaborators Id)
    (chains : List CandidateChain) (p : Pool) : Prop where
  waiting : ∀ w ∈ p.waiting, chains[w.2]? = some w.1
  running : ∀ t ∈ p.running, t.Sound (s.answer c) ∧ chains[t.index]? = some t.chain
  finished : ∀ o ∈ p.finished, ∃ chain, chains[o.2]? = some chain ∧ q.Decided s c chain o.1

/-- At the start nothing has ended, so that nothing is to be shown of outcomes. -/
theorem settled_start (q : Request) (s : Settings) (c : Collaborators Id)
    (chains : List CandidateChain) : (start chains).Settled q s c chains where
  waiting w hw := List.mem_zipIdx_iff_getElem?.mp hw
  running _ ht := by cases ht
  finished _ ho := by cases ho

/-- **A step** keeps a pool settled. -/
theorem Settled.step (hp : p.Settled q s c chains) (h : Step q (s.answer c) cap p p') :
    p'.Settled q s c chains := by
  obtain ⟨hw, hr, hf⟩ := hp
  cases h with
  | start =>
      obtain ⟨hnext, hw⟩ := List.forall_mem_cons.mp hw
      refine ⟨hw, List.forall_mem_append.mpr ⟨hr, List.forall_mem_singleton.mpr ?_⟩, hf⟩
      exact ⟨Task.sound_start _ _, hnext⟩
  | lookUp ht =>
      rw [List.forall_mem_append, List.forall_mem_cons] at hr
      obtain ⟨hbefore, ⟨hsound, hplace⟩, hafter⟩ := hr
      refine ⟨hw, List.forall_mem_append.mpr ⟨hbefore, List.forall_mem_cons.mpr ⟨?_, hafter⟩⟩, hf⟩
      obtain ⟨hchain, hindex⟩ := ht.chain_eq
      exact ⟨hsound.step ht, by rw [hindex, hchain, hplace]⟩
  | finish ht =>
      rw [List.forall_mem_append, List.forall_mem_cons] at hr
      obtain ⟨hbefore, ⟨hsound, hplace⟩, hafter⟩ := hr
      refine ⟨hw, List.forall_mem_append.mpr ⟨hbefore, hafter⟩,
        List.forall_mem_append.mpr ⟨hf, List.forall_mem_singleton.mpr ?_⟩⟩
      exact ⟨_, hplace, hsound.decided_of_ends ht⟩

/-- What holds of a pool at every point of every schedule. -/
theorem Settled.of_run (h : Run q (s.answer c) cap (start chains) p) :
    p.Settled q s c chains := by
  induction h with
  | refl => exact settled_start q s c chains
  | tail _ hstep ih => exact ih.step hstep

/-- The outcomes of a schedule that has come to its end are, up to their order, one for each
candidate, and each has been decided for its candidate. -/
theorem Settled.exists_outcomes (hp : p.Settled q s c chains)
    (hplaces : (p.finished.map Prod.snd).Perm (List.range chains.length)) :
    ∃ outcomes, List.Forall₂ (q.Decided s c) chains outcomes ∧
      (p.finished.map Prod.fst).Perm outcomes := by
  -- by their places, the outcomes come in the order of the candidates
  let sorted := p.finished.mergeSort fun a b => a.2 ≤ b.2
  have hperm : sorted.Perm p.finished := List.mergeSort_perm _ _
  have hle : IsOrdering fun a b : Except Rejection ResolvedChain × Nat => decide (a.2 ≤ b.2) :=
    .of_total (fun _ _ _ => Nat.le_trans) fun a b => Nat.le_total a.2 b.2
  have hsorted : sorted.Pairwise fun a b => a.2 ≤ b.2 := hle.pairwise_mergeSort _
  have hrange : sorted.map Prod.snd = List.range chains.length :=
    List.Perm.eq_of_pairwise (fun _ _ _ _ => Nat.le_antisymm) (List.pairwise_map.mpr hsorted)
      List.pairwise_le_range ((hperm.map _).trans hplaces)
  have hlength : sorted.length = chains.length := by
    simpa only [List.length_map, List.length_range] using congrArg List.length hrange
  refine ⟨sorted.map Prod.fst, List.forall₂_iff_get.mpr ⟨by rw [List.length_map, hlength], ?_⟩,
    (hperm.map _).symm⟩
  intro i hi hi'
  have hi'' : i < sorted.length := hlength ▸ hi
  have hplace : sorted[i].2 = i := by
    have hget : (sorted.map Prod.snd)[i]? = (List.range chains.length)[i]? := by rw [hrange]
    rw [List.getElem?_map, List.getElem?_eq_getElem hi'', List.getElem?_range hi] at hget
    exact Option.some.inj hget
  obtain ⟨chain, hchain, hdecided⟩ := hp.finished _ (hperm.mem_iff.mp (List.getElem_mem hi''))
  rw [hplace, List.getElem?_eq_getElem hi] at hchain
  cases hchain
  simpa only [List.get_eq_getElem, List.getElem_map] using hdecided

end Pool

/-! ### Reports -/

/-- A report tells how many candidates there are and how many of them hold up; the causes that it
lists are those that candidates were dropped for, each with the number of these; and with those that
hold up they are all candidates. -/
structure Report.Tells (outcomes : List (Except Rejection ResolvedChain)) (r : Report) : Prop where
  candidates : r.candidates = outcomes.length
  resolved : r.resolved = outcomes.countP Except.isOk
  rejected_iff : ∀ cause n, (cause, n) ∈ r.rejected ↔ 0 < n ∧ n = outcomes.count (.error cause)
  each_once : (r.rejected.map Prod.fst).Nodup
  total : r.resolved + r.rejectedTotal = outcomes.length

namespace Resolution

/-- A tally has each cause with the number of times that it occurs. -/
theorem mem_tally_iff {causes : List Rejection} {cause : Rejection} {n : Nat} :
    (cause, n) ∈ tally causes ↔ 0 < n ∧ n = causes.count cause := by
  simp only [tally_eq, List.mem_map, List.mem_filter, Rejection.mem_all, true_and,
    List.contains_iff_mem, Prod.mk.injEq]
  constructor
  · rintro ⟨_, hm, rfl, rfl⟩
    exact ⟨List.count_pos_iff.mpr hm, rfl⟩
  · rintro ⟨hpos, rfl⟩
    exact ⟨cause, List.count_pos_iff.mp hpos, rfl, rfl⟩

/-- No cause is in a tally twice. -/
theorem nodup_tally (causes : List Rejection) : ((tally causes).map Prod.fst).Nodup := by
  rw [tally_eq, List.map_map]
  exact (List.map_id _).symm ▸ Rejection.nodup_all.filter _

/-- Causes occur as often as the outcomes that they spoil. -/
theorem count_cause? (outcomes : List (Except Rejection ResolvedChain)) (cause : Rejection) :
    (outcomes.filterMap cause?).count cause = outcomes.count (.error cause) := by
  rw [List.count_filterMap, List.count]
  refine List.countP_congr fun outcome _ => ?_
  cases outcome <;> simp [cause?]

/-- The report of some outcomes counts what they are. -/
theorem tells_ofOutcomes (outcomes : List (Except Rejection ResolvedChain)) :
    (ofOutcomes outcomes).report.Tells outcomes where
  candidates := rfl
  resolved := by
    refine List.length_filterMap_eq_countP.trans (List.countP_congr fun outcome _ => ?_)
    cases outcome <;> rfl
  rejected_iff cause n := by
    rw [← count_cause?]
    exact mem_tally_iff
  each_once := nodup_tally _
  total := resolved_add_rejectedTotal outcomes

end Resolution

/-- The order of the outcomes makes no difference to what a report tells. -/
theorem Report.Tells.of_perm {outcomes outcomes' : List (Except Rejection ResolvedChain)}
    {r : Report} (h : r.Tells outcomes) (hp : outcomes.Perm outcomes') : r.Tells outcomes' where
  candidates := h.candidates.trans hp.length_eq
  resolved := h.resolved.trans (hp.countP_eq _)
  rejected_iff cause n := by rw [h.rejected_iff, hp.count_eq]
  each_once := h.each_once
  total := h.total.trans hp.length_eq

/-- **Rejection is exact.**  With answers that are fixed for each hash, what becomes of a candidate
is decided by what its slots bring, both when it is resolved and in whatever order its look-ups end;
and a report counts the candidates of a request by what was decided for them, both when they are
resolved one after the other and on every schedule that comes to its end. -/
theorem Request.decided_on_every_schedule (q : Request) (s : Settings) (c : Collaborators Id) :
    (∀ chain, q.Decided s c chain (q.resolveChain c s chain).run) ∧
      (∀ chain index task outcome,
        Relation.ReflTransGen (Task.Step (s.answer c)) (.start chain index) task →
          task.Ends q outcome → q.Decided s c chain outcome) ∧
      (∀ r, (q.resolve c s).run = .ok r → ∃ chains outcomes,
        (c.chains q.resource.toPattern q.permission q.principal).run.within?
            s.discoveryTimeout.toNat = some (.ok chains) ∧
          List.Forall₂ (q.Decided s c) chains outcomes ∧ r.report.Tells outcomes) ∧
      ∀ chains cap p, Pool.Run q (s.answer c) cap (.start chains) p → p.Complete →
        ∃ outcomes, List.Forall₂ (q.Decided s c) chains outcomes ∧
          (p.finished.map Prod.fst).Perm outcomes ∧ p.resolution.report.Tells outcomes := by
  refine ⟨q.decided_resolveChain s c, fun chain index task outcome hrun hends => ?_,
    fun r hr => ?_, fun chains cap p hrun hc => ?_⟩
  · obtain ⟨hsound, rfl⟩ := Task.sound_of_run hrun
    exact hsound.decided_of_ends hends
  · rw [run_resolve, map_eq_ok_iff] at hr
    obtain ⟨chains, hc, rfl⟩ := hr
    rw [run_resolveAll]
    refine ⟨chains, _, candidates_eq_ok_iff.mp hc, ?_, Resolution.tells_ofOutcomes _⟩
    exact List.forall₂_map_right_iff.mpr
      (List.forall₂_same.mpr fun chain _ => q.decided_resolveChain s c chain)
  · obtain ⟨outcomes, hdecided, hperm⟩ :=
      (Pool.Settled.of_run hrun).exists_outcomes ((Pool.Sound.of_run hrun).places_perm hc)
    exact ⟨outcomes, hdecided, hperm, (Resolution.tells_ofOutcomes _).of_perm hperm⟩

end AccessWindows
