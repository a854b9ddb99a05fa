import AccessWindows.Proofs.Resolution.Filling
import AccessWindows.Resolution.Verdict

/-!
# Chains — what becomes of them, in whatever order look-ups end

A registry whose answers are fixed gives each hash one verdict.  `Answers` is all that judging
asks of the ends of look-ups: each carries the verdict on the hash of its slot, and none is missing
unless one of them failed.  Both hold in whatever order look-ups end, and also when those behind
the first failure were never started.

* `judge_of_brings`: if every slot brings a credential, the chain of these is reviewed.
* `judge_of_failing`: if some verdict is a refusal, the chain is dropped for one of the refusals.
* `judge_eq_ok_iff`: a chain is accepted exactly when its slots bring credentials that lead to the
  principal and pass on the permission on the resource.
-/

namespace AccessWindows

variable {verdict : CredentialHash → Except Rejection Credential}

/-! ### What slots bring -/

/-- A slot brings the credential that it holds, or the one that its hash stands for. -/
inductive Slot.Brings (verdict : CredentialHash → Except Rejection Credential) :
    Slot → Credential → Prop where
  | held (credential : Credential) : Brings verdict (.resolved credential) credential
  | lookedUp {hash : CredentialHash} {credential : Credential} (h : verdict hash = .ok credential) :
      Brings verdict (.unresolved hash) credential

/-- Some slot's hash stands for no credential. -/
def Failing (verdict : CredentialHash → Except Rejection Credential) (slots : List Slot) : Prop :=
  ∃ hash cause, .unresolved hash ∈ slots ∧ verdict hash = .error cause

theorem brings_or_failing (verdict : CredentialHash → Except Rejection Credential)
    (slots : List Slot) :
    (∃ credentials, List.Forall₂ (Slot.Brings verdict) slots credentials) ∨
      Failing verdict slots := by
  induction slots with
  | nil => exact Or.inl ⟨[], .nil⟩
  | cons slot slots ih =>
      rcases ih with ⟨credentials, ih⟩ | ⟨hash, cause, hm, hv⟩
      · cases slot with
        | resolved credential => exact Or.inl ⟨credential :: credentials, .cons (.held _) ih⟩
        | unresolved hash =>
            cases hv : verdict hash with
            | error cause => exact Or.inr ⟨hash, cause, List.mem_cons_self, hv⟩
            | ok credential =>
                exact Or.inl ⟨credential :: credentials, .cons (.lookedUp hv) ih⟩
      · exact Or.inr ⟨hash, cause, List.mem_cons_of_mem _ hm, hv⟩

theorem Slot.rightUnique_brings : Relator.RightUnique (Slot.Brings verdict) := by
  intro slot c c' h h'
  cases h with
  | held => cases h'; rfl
  | lookedUp h =>
      cases h' with
      | lookedUp h' => exact Except.ok.inj (h.symm.trans h')

theorem brings_unique {slots : List Slot} {cs cs' : List Credential}
    (h : List.Forall₂ (Slot.Brings verdict) slots cs)
    (h' : List.Forall₂ (Slot.Brings verdict) slots cs') : cs = cs' :=
  List.right_unique_forall₂' Slot.rightUnique_brings h h'

/-- At each place there is either nothing on both sides or a slot and what it brings. -/
theorem brings_getElem? {slots : List Slot} {credentials : List Credential}
    (h : List.Forall₂ (Slot.Brings verdict) slots credentials) (j : Nat) :
    slots[j]? = none ∧ credentials[j]? = none ∨
      ∃ slot credential, slots[j]? = some slot ∧ credentials[j]? = some credential ∧
        slot.Brings verdict credential := by
  induction h generalizing j with
  | nil => exact Or.inl ⟨rfl, rfl⟩
  | cons hb _ ih =>
      cases j with
      | zero => exact Or.inr ⟨_, _, rfl, rfl, hb⟩
      | succ j => exact ih j

theorem not_failing_of_brings {slots : List Slot} {credentials : List Credential}
    (h : List.Forall₂ (Slot.Brings verdict) slots credentials) : ¬ Failing verdict slots := by
  rintro ⟨hash, cause, hm, hv⟩
  obtain ⟨j, hj⟩ := List.mem_iff_getElem?.mp hm
  rcases brings_getElem? h j with ⟨hn, -⟩ | ⟨slot, credential, hs, -, hb⟩
  · rw [hn] at hj; cases hj
  · cases Option.some.inj (hj.symm.trans hs)
    cases hb with
    | lookedUp hv' => cases hv.symm.trans hv'

/-! ### The ends of look-ups -/

/-- The ends of look-ups of the pending slots: each carries the verdict on the hash of its slot,
and none is missing unless one failed. -/
structure Answers (verdict : CredentialHash → Except Rejection Credential)
    (pending : List (Nat × CredentialHash)) (arrivals : List Arrival) : Prop where
  sound : ∀ a ∈ arrivals, ∃ hash, (a.key, hash) ∈ pending ∧ a.result = verdict hash
  complete : (∀ a ∈ arrivals, a.result.isOk = true) →
    ∀ p ∈ pending, ∃ a ∈ arrivals, a.key = p.1

/-- The order in which look-ups end does not matter. -/
theorem Answers.of_mem_iff {pending : List (Nat × CredentialHash)} {as as' : List Arrival}
    (h : Answers verdict pending as) (hm : ∀ a, a ∈ as' ↔ a ∈ as) :
    Answers verdict pending as' := by
  refine ⟨fun a ha => h.sound a ((hm a).mp ha), fun hok p hp => ?_⟩
  obtain ⟨a, ha, hpl⟩ := h.complete (fun a ha => hok a ((hm a).mpr ha)) p hp
  exact ⟨a, (hm a).mpr ha, hpl⟩

/-- The place and the credential that a successful look-up brings. -/
def Arrival.fill? (a : Arrival) : Option (Nat × Credential) :=
  a.result.toOption.map (a.key, ·)

theorem Arrival.fill?_eq_some_iff {a : Arrival} {f : Nat × Credential} :
    a.fill? = some f ↔ a.key = f.1 ∧ a.result = .ok f.2 := by
  obtain ⟨place, credential⟩ := f
  rw [fill?]
  cases a.result <;> simp [Except.toOption]

namespace CandidateChain

theorem settle_cons_ok {c : CandidateChain} {a : Arrival} {as : List Arrival}
    {credential : Credential} (h : a.result = .ok credential) :
    c.settle (a :: as) = (c.fill a.key credential).settle as := by
  simp only [settle, List.foldlM_cons, h]
  rfl

theorem settle_cons_error {c : CandidateChain} {a : Arrival} {as : List Arrival}
    {cause : Rejection} (h : a.result = .error cause) :
    c.settle (a :: as) = .error cause := by
  simp only [settle, List.foldlM_cons, h]
  rfl

/-- Look-ups that all succeed fill their slots. -/
theorem settle_of_ok {as : List Arrival} (h : ∀ a ∈ as, a.result.isOk = true)
    (c : CandidateChain) : c.settle as = .ok (c.fillAll (as.filterMap Arrival.fill?)) := by
  induction as generalizing c with
  | nil => rfl
  | cons a as ih =>
      obtain ⟨ha, h⟩ := List.forall_mem_cons.mp h
      cases hr : a.result with
      | error cause => rw [hr] at ha; cases ha
      | ok credential =>
          have hf : a.fill? = some (a.key, credential) := by rw [Arrival.fill?, hr]; rfl
          rw [settle_cons_ok hr, ih h, List.filterMap_cons_some hf]
          rfl

/-- If a look-up fails, the outcome is the failure of one of them. -/
theorem settle_of_error {as : List Arrival} (h : ∃ a ∈ as, ¬ a.result.isOk = true)
    (c : CandidateChain) :
    ∃ a ∈ as, ∃ cause, a.result = .error cause ∧ c.settle as = .error cause := by
  induction as generalizing c with
  | nil => obtain ⟨_, ha, -⟩ := h; cases ha
  | cons a as ih =>
      cases hr : a.result with
      | error cause => exact ⟨a, List.mem_cons_self, cause, hr, settle_cons_error hr⟩
      | ok credential =>
          obtain ⟨b, hb, hbr⟩ := h
          rcases List.mem_cons.mp hb with rfl | hb
          · exact absurd (by rw [hr]; rfl) hbr
          · obtain ⟨b', hb', cause, hbr', hs⟩ := ih ⟨b, hb, hbr⟩ (c.fill a.key credential)
            exact ⟨b', List.mem_cons_of_mem a hb', cause, hbr', by rw [settle_cons_ok hr, hs]⟩

/-- If the chain is filled, all look-ups succeeded. -/
theorem isOk_of_settle {c filled : CandidateChain} {as : List Arrival}
    (h : c.settle as = .ok filled) : ∀ a ∈ as, a.result.isOk = true := by
  by_contra hno
  push Not at hno
  obtain ⟨-, -, cause, -, hs⟩ := settle_of_error hno c
  cases h.symm.trans hs

/-- **What a chain is filled with**, whatever its look-ups brought: at each place there is the
credential that the slot holds, or one that a look-up for this place brought. -/
theorem brought_of_settle {c filled : CandidateChain} {as : List Arrival} {r : ResolvedChain}
    (h : c.settle as = .ok filled) (hr : filled.toResolved? = some r) :
    List.Forall₂ (fun slot credential => slot = .resolved credential ∨
      ∃ a ∈ as, c.slots[a.key]? = some slot ∧ a.result = .ok credential)
        c.slots r.credentials := by
  cases (settle_of_ok (isOk_of_settle h) c).symm.trans h
  have hslots := slots_of_toResolved? hr
  refine List.forall₂_iff_get.mpr ⟨?_, fun j hj hj' => ?_⟩
  · rw [← length_slots_fillAll, hslots, List.length_map]
  · have hget : (c.fillAll (as.filterMap Arrival.fill?)).slots[j]? =
        some (.resolved r.credentials[j]) := by
      rw [hslots, List.getElem?_map, List.getElem?_eq_getElem hj']
      rfl
    rcases getElem?_slots_fillAll_cases hget with hold | ⟨f, hf, rfl, hs⟩
    · exact Or.inl (Option.some.inj ((List.getElem?_eq_getElem hj).symm.trans hold))
    · obtain ⟨a, ha, haf⟩ := List.mem_filterMap.mp hf
      obtain ⟨hplace, hresult⟩ := Arrival.fill?_eq_some_iff.mp haf
      refine Or.inr ⟨a, ha, ?_, ?_⟩
      · rw [hplace]
        exact List.getElem?_eq_getElem hj
      · rw [hresult, ← Slot.resolved.inj hs]
        rfl

/-- Once something is put at every pending place, and each time what its slot brings, the chain
holds what its slots bring. -/
theorem fillAll_eq_held {c : CandidateChain} {fills : List (Nat × Credential)}
    {credentials : List Credential} (hb : List.Forall₂ (Slot.Brings verdict) c.slots credentials)
    (hval : ∀ f ∈ fills, credentials[f.1]? = some f.2)
    (hall : ∀ p ∈ c.pending, p.1 ∈ fills.map Prod.fst) : c.fillAll fills = held credentials := by
  have hslots : (c.fillAll fills).slots = (held credentials).slots := by
    refine List.ext_getElem? fun j => ?_
    rw [getElem?_slots_fillAll hval, held, List.getElem?_map]
    rcases brings_getElem? hb j with ⟨hs, hc⟩ | ⟨slot, credential, hs, hc, hbr⟩
    · rw [hs, hc]
      exact ite_self _
    · rw [hs, hc]
      cases hbr with
      | held => exact ite_self _
      | lookedUp => exact if_pos (hall (j, _) (mem_pending_iff.mpr hs))
  obtain ⟨slots⟩ := c
  exact congrArg mk hslots

/-- A look-up whose slot brings a credential succeeds with it. -/
theorem result_of_brings {c : CandidateChain} {as : List Arrival} {credentials : List Credential}
    (ha : Answers verdict c.pending as)
    (hb : List.Forall₂ (Slot.Brings verdict) c.slots credentials) :
    ∀ a ∈ as, ∃ credential, a.result = .ok credential ∧
      credentials[a.key]? = some credential := by
  intro a ham
  obtain ⟨hash, hp, hr⟩ := ha.sound a ham
  rw [mem_pending_iff] at hp
  rcases brings_getElem? hb a.key with ⟨hn, -⟩ | ⟨slot, credential, hs, hc, hbr⟩
  · rw [hn] at hp; cases hp
  · cases Option.some.inj (hp.symm.trans hs)
    cases hbr with
    | lookedUp hv => exact ⟨credential, hr.trans hv, hc⟩

/-- A chain whose slots all bring a credential is filled with these. -/
theorem settle_of_brings {c : CandidateChain} {as : List Arrival} {credentials : List Credential}
    (ha : Answers verdict c.pending as)
    (hb : List.Forall₂ (Slot.Brings verdict) c.slots credentials) :
    c.settle as = .ok (held credentials) := by
  have hres := result_of_brings ha hb
  have hfill : ∀ a ∈ as, ∃ credential, a.fill? = some (a.key, credential) ∧
      credentials[a.key]? = some credential := by
    intro a ham
    obtain ⟨credential, hr, hc⟩ := hres a ham
    exact ⟨credential, by rw [Arrival.fill?, hr]; rfl, hc⟩
  have hok : ∀ a ∈ as, a.result.isOk = true := by
    intro a ham
    obtain ⟨credential, hr, -⟩ := hres a ham
    rw [hr]; rfl
  rw [settle_of_ok hok c, fillAll_eq_held hb]
  · intro f hf
    obtain ⟨a, ham, haf⟩ := List.mem_filterMap.mp hf
    obtain ⟨credential, hfa, hc⟩ := hfill a ham
    cases haf.symm.trans hfa
    exact hc
  · intro p hp
    obtain ⟨a, ham, hap⟩ := ha.complete hok p hp
    obtain ⟨credential, hfa, -⟩ := hfill a ham
    exact List.mem_map.mpr ⟨_, List.mem_filterMap.mpr ⟨a, ham, hfa⟩, hap⟩

/-- A chain with a slot whose verdict is a refusal is dropped for such a refusal. -/
theorem settle_of_failing {c : CandidateChain} {as : List Arrival}
    (ha : Answers verdict c.pending as) (hf : Failing verdict c.slots) :
    ∃ hash cause, .unresolved hash ∈ c.slots ∧ verdict hash = .error cause ∧
      c.settle as = .error cause := by
  have hbad : ∃ a ∈ as, ¬ a.result.isOk = true := by
    -- if none failed, the look-up of the failing slot is among them
    by_contra hno
    push Not at hno
    obtain ⟨hash, cause, hm, hv⟩ := hf
    obtain ⟨i, hi⟩ := List.mem_iff_getElem?.mp hm
    obtain ⟨a, ham, hap⟩ := ha.complete hno (i, hash) (mem_pending_iff.mpr hi)
    obtain ⟨hash', hp, hr⟩ := ha.sound a ham
    rw [mem_pending_iff, hap, hi] at hp
    cases hp
    have hok := hno a ham
    rw [hr, hv] at hok
    cases hok
  obtain ⟨a, ham, cause, hr, hs⟩ := settle_of_error hbad c
  obtain ⟨hash, hp, hr'⟩ := ha.sound a ham
  exact ⟨hash, cause, List.mem_of_getElem? (mem_pending_iff.mp hp), hr'.symm.trans hr, hs⟩

end CandidateChain

/-! ### Links and grants -/

/-- No link is broken exactly when each hop hands on to the next. -/
theorem ResolvedChain.firstBrokenLink?_isNone {c : ResolvedChain} :
    c.firstBrokenLink?.isNone = true ↔
      c.credentials.IsChain fun a b => a.receiver = b.issuer := by
  obtain ⟨l, -⟩ := c
  simp only [firstBrokenLink?, Option.isNone_iff_eq_none, List.findIdx?_eq_none_iff]
  induction l with
  | nil => simp
  | cons a l ih =>
      cases l with
      | nil => simp
      | cons b l =>
          simp only [List.drop_succ_cons, List.drop_zero] at ih
          simp [List.isChain_cons_cons, ← ih]

theorem ResolvedChain.endsAt_iff {c : ResolvedChain} {p : Principal} :
    c.endsAt p = true ↔ ∃ last, c.credentials.getLast? = some last ∧ last.receiver = p := by
  simp only [endsAt, Option.any_eq_true, beq_iff_eq]

namespace Request

variable {q : Request}

/-- The hops lead to the principal and pass on the permission on the resource. -/
structure Reaches (q : Request) (credentials : List Credential) : Prop where
  linked : credentials.IsChain fun a b => a.receiver = b.issuer
  ends : ∃ last, credentials.getLast? = some last ∧ last.receiver = q.principal
  granted : ∀ c ∈ credentials,
    c.permissions.grants q.permission = true ∧ c.resource.fits q.resource = true

theorem reaches_iff {c : ResolvedChain} :
    q.Reaches c.credentials ↔ q.isLinked c = true ∧ q.isCovered c = true := by
  simp only [isLinked, isCovered, Bool.and_eq_true, List.all_eq_true, Credential.grants,
    ResolvedChain.firstBrokenLink?_isNone, ResolvedChain.endsAt_iff]
  constructor
  · rintro ⟨hl, he, hg⟩
    exact ⟨⟨hl, he⟩, hg⟩
  · rintro ⟨⟨hl, he⟩, hg⟩
    exact ⟨hl, he, hg⟩

theorem review_eq_ok_iff {c r : ResolvedChain} :
    q.review c = .ok r ↔ c = r ∧ q.Reaches c.credentials := by
  rw [review, reaches_iff]
  cases q.isLinked c <;> cases q.isCovered c <;> simp

/-! ### The verdict on a chain -/

/-- If a chain is accepted, the look-ups fill it with credentials that reach the principal. -/
theorem settled_of_judge {c : CandidateChain} {as : List Arrival} {r : ResolvedChain}
    (h : q.judge c as = .ok r) :
    ∃ filled, c.settle as = .ok filled ∧ filled.toResolved? = some r ∧ q.Reaches r.credentials := by
  rw [judge] at h
  split at h
  next => cases h
  next =>
      cases hs : c.settle as with
      | error cause => rw [hs] at h; cases h
      | ok filled =>
          rw [hs] at h
          simp only [bind, Except.bind] at h
          split at h
          next => cases h
          next resolved hr =>
              obtain ⟨rfl, hreaches⟩ := review_eq_ok_iff.mp h
              exact ⟨filled, rfl, hr, hreaches⟩

/-- If a chain is accepted, the credentials that its slots hold or its look-ups brought reach the
principal. -/
theorem brought_of_judge {c : CandidateChain} {as : List Arrival} {r : ResolvedChain}
    (h : q.judge c as = .ok r) :
    List.Forall₂ (fun slot credential => slot = .resolved credential ∨
        ∃ a ∈ as, c.slots[a.key]? = some slot ∧ a.result = .ok credential)
      c.slots r.credentials ∧ q.Reaches r.credentials := by
  obtain ⟨filled, hs, hr, hreaches⟩ := settled_of_judge h
  exact ⟨CandidateChain.brought_of_settle hs hr, hreaches⟩

/-- If a chain is accepted, all its look-ups succeeded. -/
theorem isOk_of_judge {c : CandidateChain} {as : List Arrival} {r : ResolvedChain}
    (h : q.judge c as = .ok r) : ∀ a ∈ as, a.result.isOk = true := by
  obtain ⟨filled, hs, -⟩ := settled_of_judge h
  exact CandidateChain.isOk_of_settle hs

theorem judge_of_brings {c : CandidateChain} {as : List Arrival} {credentials : List Credential}
    (ha : Answers verdict c.pending as)
    (hb : List.Forall₂ (Slot.Brings verdict) c.slots credentials) (hne : credentials ≠ []) :
    q.judge c as = q.review ⟨credentials, hne⟩ := by
  have hc : c.isEmpty = false := by
    rw [CandidateChain.isEmpty, List.isEmpty_eq_false_iff]
    rintro hs
    rw [hs] at hb
    cases hb
    exact hne rfl
  rw [judge, hc, CandidateChain.settle_of_brings ha hb]
  simp only [Bool.false_eq_true, if_false, bind, Except.bind, CandidateChain.toResolved?_held hne]

theorem judge_of_failing {c : CandidateChain} {as : List Arrival}
    (ha : Answers verdict c.pending as) (hf : Failing verdict c.slots) :
    ∃ hash cause, .unresolved hash ∈ c.slots ∧ verdict hash = .error cause ∧
      q.judge c as = .error cause := by
  obtain ⟨hash, cause, hm, hv, hs⟩ := CandidateChain.settle_of_failing ha hf
  have hc : c.isEmpty = false := by
    rw [CandidateChain.isEmpty, List.isEmpty_eq_false_iff]
    exact List.ne_nil_of_mem hm
  refine ⟨hash, cause, hm, hv, ?_⟩
  rw [judge, hc, hs]
  rfl

theorem judge_of_empty {c : CandidateChain} (h : c.slots = []) (as : List Arrival) :
    q.judge c as = .error .empty := by
  rw [judge, CandidateChain.isEmpty, h]
  rfl

/-- **Acceptance**: the slots bring credentials that reach the principal. -/
theorem judge_eq_ok_iff {c : CandidateChain} {as : List Arrival} {r : ResolvedChain}
    (ha : Answers verdict c.pending as) :
    q.judge c as = .ok r ↔
      List.Forall₂ (Slot.Brings verdict) c.slots r.credentials ∧ q.Reaches r.credentials := by
  rcases brings_or_failing verdict c.slots with ⟨credentials, hb⟩ | hf
  · by_cases hne : credentials = []
    · -- a chain without a hop is refused before its slots are looked at
      subst hne
      have hs : c.slots = [] := List.forall₂_nil_right_iff.mp hb
      rw [judge_of_empty hs]
      constructor
      · intro h
        cases h
      · rintro ⟨hb', -⟩
        exact absurd (brings_unique hb hb').symm r.nonempty
    · rw [judge_of_brings ha hb hne, review_eq_ok_iff]
      constructor
      · rintro ⟨rfl, hr⟩
        exact ⟨hb, hr⟩
      · rintro ⟨hb', hr⟩
        cases brings_unique hb hb'
        exact ⟨rfl, hr⟩
  · obtain ⟨hash, cause, -, -, hj⟩ := judge_of_failing (q := q) ha hf
    rw [hj]
    constructor
    · intro h
      cases h
    · rintro ⟨hb, -⟩
      exact absurd hf (not_failing_of_brings hb)

/-- Whether a chain is accepted, and what it then consists of, does not depend on the order in
which its look-ups end. -/
theorem judge_toOption_congr {c : CandidateChain} {as as' : List Arrival}
    (ha : Answers verdict c.pending as) (ha' : Answers verdict c.pending as') :
    (q.judge c as).toOption = (q.judge c as').toOption := by
  have hiff : ∀ r, q.judge c as = .ok r ↔ q.judge c as' = .ok r := fun r =>
    (judge_eq_ok_iff ha).trans (judge_eq_ok_iff ha').symm
  cases h : q.judge c as with
  | ok r => rw [(hiff r).mp h]
  | error cause =>
      cases h' : q.judge c as' with
      | ok r => cases h.symm.trans ((hiff r).mpr h')
      | error cause' => rfl

end Request

end AccessWindows
