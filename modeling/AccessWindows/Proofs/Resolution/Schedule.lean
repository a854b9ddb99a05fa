import AccessWindows.Proofs.Resolution.Judgement
import AccessWindows.Proofs.Resolution.Report
import Mathlib.Logic.Relation
import Mathlib.Algebra.Order.Group.Multiset

/-!
# Schedules — candidates that are resolved side by side

The candidates of a request wait in the order of their discovery, and up to a given number of them
are resolved at a time (`Pool`).  The look-ups of a chain that is being resolved end in any order;
once they all have ended, or one of them has failed, the chain may be finished, and the rest of its
look-ups is then abandoned (`Task`).  A schedule is any sequence of such steps.

What a step preserves is the *ledger* of a pool: for each candidate what becomes of it, causes of
rejections aside, with its place.  `Pool.Sound.step` says so for a step and `Pool.Sound.of_run` for
a schedule, so that a schedule that has come to its end has finished every candidate once, and with
what any other schedule finishes it (`Pool.Sound.finished_perm`).  Every schedule comes to its end:
each step uses up some of the work (`Pool.Step.work_lt`), and there is always a step to take
(`Pool.exists_step`).
-/

namespace AccessWindows

variable {q : Request} {verdict : CredentialHash → Except Rejection Credential} {cap : Nat}

/-! ### One chain -/

/-- What a candidate comes to, the cause of a rejection aside, when its look-ups all end, in the
order of the hops. -/
def Request.accepted? (q : Request) (verdict : CredentialHash → Except Rejection Credential)
    (chain : CandidateChain) : Option ResolvedChain :=
  (q.judge chain (chain.pending.map fun p => ⟨0, p.1, verdict p.2⟩)).toOption

theorem answers_inOrder (verdict : CredentialHash → Except Rejection Credential)
    (pending : List (Nat × CredentialHash)) :
    Answers verdict pending (pending.map fun p => ⟨0, p.1, verdict p.2⟩) := by
  refine ⟨fun a ha => ?_, fun _ p hp => ⟨_, List.mem_map_of_mem hp, rfl⟩⟩
  obtain ⟨p, hp, rfl⟩ := List.mem_map.mp ha
  exact ⟨p.2, hp, rfl⟩

theorem Request.toOption_judge {chain : CandidateChain} {as : List Arrival}
    (h : Answers verdict chain.pending as) :
    (q.judge chain as).toOption = q.accepted? verdict chain :=
  judge_toOption_congr h (answers_inOrder verdict chain.pending)

/-- A candidate that is being resolved: the slots whose look-ups are awaited, and the ends of the
others in the order in which they came. -/
structure Task where
  chain : CandidateChain
  /-- The place of the chain among the candidates. -/
  index : Nat
  awaited : List (Nat × CredentialHash)
  ended : List Arrival

namespace Task

/-- All look-ups of a candidate are awaited. -/
def start (chain : CandidateChain) (index : Nat) : Task := ⟨chain, index, chain.pending, []⟩

/-- One of the awaited look-ups ends, at some time, with the verdict on its hash. -/
inductive Step (verdict : CredentialHash → Except Rejection Credential) : Task → Task → Prop where
  | lookUp {t : Task} {place : Nat} {hash : CredentialHash} (time : Nat)
      (h : (place, hash) ∈ t.awaited) :
      Step verdict t
        { t with
          awaited := t.awaited.erase (place, hash)
          ended := t.ended ++ [⟨time, place, verdict hash⟩] }

/-- Nothing is awaited any more, or a look-up has failed. -/
def Ready (t : Task) : Prop := t.awaited = [] ∨ ∃ a ∈ t.ended, ¬ a.result.isOk = true

/-- The candidate may be finished with that outcome.  Which of several ends of look-ups is taken
notice of first is left open. -/
def Ends (q : Request) (t : Task) (outcome : Except Rejection ResolvedChain) : Prop :=
  t.Ready ∧ ∃ order, order.Perm t.ended ∧ q.judge t.chain order = outcome

/-- What has ended are look-ups of the chain, each with the verdict on its hash, and what has not is
awaited. -/
structure Sound (verdict : CredentialHash → Except Rejection Credential) (t : Task) : Prop where
  awaited : ∀ p ∈ t.awaited, p ∈ t.chain.pending
  ended : ∀ a ∈ t.ended, ∃ hash, (a.key, hash) ∈ t.chain.pending ∧ a.result = verdict hash
  covered : ∀ p ∈ t.chain.pending, p ∈ t.awaited ∨ ∃ a ∈ t.ended, a.key = p.1

variable {t t' : Task}

theorem sound_start (chain : CandidateChain) (index : Nat) :
    (start chain index).Sound verdict :=
  ⟨fun _ hp => hp, fun _ ha => (by cases ha), fun _ hp => Or.inl hp⟩

theorem Sound.step (ht : t.Sound verdict) (h : Step verdict t t') : t'.Sound verdict := by
  cases h with
  | @lookUp place hash _ hp =>
      refine ⟨fun p hp => ht.awaited p (List.mem_of_mem_erase hp), fun a ha => ?_, fun p hm => ?_⟩
      · rcases List.mem_append.mp ha with ha | ha
        · exact ht.ended a ha
        · obtain rfl := List.mem_singleton.mp ha
          exact ⟨hash, ht.awaited _ hp, rfl⟩
      · -- the slot just looked up is covered by the new end, any other as before
        rcases ht.covered p hm with hp' | ⟨a, ha, hap⟩
        · by_cases he : p = (place, hash)
          · subst he
            exact Or.inr ⟨_, List.mem_append_right _ (List.mem_singleton_self _), rfl⟩
          · exact Or.inl ((List.mem_erase_of_ne he).mpr hp')
        · exact Or.inr ⟨a, List.mem_append_left _ ha, hap⟩

theorem Sound.answers (ht : t.Sound verdict) (hr : t.Ready) :
    Answers verdict t.chain.pending t.ended := by
  refine ⟨ht.ended, fun hok p hp => ?_⟩
  rcases hr with hr | ⟨a, ha, hfail⟩
  · rcases ht.covered p hp with hp' | hp'
    · rw [hr] at hp'
      cases hp'
    · exact hp'
  · -- where a look-up has failed, others may be missing
    exact absurd (hok a ha) hfail

/-- However its look-ups ended, a candidate comes to the same, causes of rejections aside. -/
theorem Sound.toOption_of_ends (ht : t.Sound verdict) {outcome : Except Rejection ResolvedChain}
    (h : t.Ends q outcome) : outcome.toOption = q.accepted? verdict t.chain := by
  obtain ⟨hr, order, ho, rfl⟩ := h
  exact Request.toOption_judge ((ht.answers hr).of_mem_iff fun _ => ho.mem_iff)

theorem Step.awaited_length (h : Step verdict t t') :
    t'.awaited.length + 1 = t.awaited.length := by
  cases h with
  | lookUp _ hp => exact List.length_erase_add_one hp

end Task

/-! ### All candidates of a request -/

/-- Candidates that wait, those that are being resolved, and the outcomes of those that are
finished; each with its place among the candidates. -/
structure Pool where
  waiting : List (CandidateChain × Nat)
  running : List Task
  finished : List (Except Rejection ResolvedChain × Nat)

namespace Pool

/-- All candidates wait. -/
def start (chains : List CandidateChain) : Pool := ⟨chains.zipIdx, [], []⟩

/-- All candidates are finished. -/
def Complete (p : Pool) : Prop := p.waiting = [] ∧ p.running = []

/-- What the finished candidates come to. -/
def resolution (p : Pool) : Resolution := .ofOutcomes (p.finished.map Prod.fst)

/-- The next candidate that waits is started if fewer than `cap` are being resolved; a look-up of
one that is being resolved ends; or one is finished. -/
inductive Step (q : Request) (verdict : CredentialHash → Except Rejection Credential) (cap : Nat) :
    Pool → Pool → Prop where
  | start {chain : CandidateChain} {index : Nat} {waiting : List (CandidateChain × Nat)}
      {running : List Task} {finished : List (Except Rejection ResolvedChain × Nat)}
      (h : running.length < cap) :
      Step q verdict cap ⟨(chain, index) :: waiting, running, finished⟩
        ⟨waiting, running ++ [.start chain index], finished⟩
  | lookUp {waiting : List (CandidateChain × Nat)} {before after : List Task} {t t' : Task}
      {finished : List (Except Rejection ResolvedChain × Nat)} (h : t.Step verdict t') :
      Step q verdict cap ⟨waiting, before ++ t :: after, finished⟩
        ⟨waiting, before ++ t' :: after, finished⟩
  | finish {waiting : List (CandidateChain × Nat)} {before after : List Task} {t : Task}
      {finished : List (Except Rejection ResolvedChain × Nat)}
      {outcome : Except Rejection ResolvedChain} (h : t.Ends q outcome) :
      Step q verdict cap ⟨waiting, before ++ t :: after, finished⟩
        ⟨waiting, before ++ after, finished ++ [(outcome, t.index)]⟩

/-- A schedule: any sequence of steps. -/
abbrev Run (q : Request) (verdict : CredentialHash → Except Rejection Credential) (cap : Nat) :
    Pool → Pool → Prop :=
  Relation.ReflTransGen (Step q verdict cap)

variable {p p' : Pool} {chains : List CandidateChain}

/-! ### What a schedule preserves -/

/-- For each candidate what it comes to, the cause of a rejection aside, and its place. -/
def ledger (q : Request) (verdict : CredentialHash → Except Rejection Credential) (p : Pool) :
    Multiset (Option ResolvedChain × Nat) :=
  ↑(p.waiting.map fun c => (q.accepted? verdict c.1, c.2)) +
    ↑(p.running.map fun t => (q.accepted? verdict t.chain, t.index)) +
      ↑(p.finished.map fun o => (o.1.toOption, o.2))

/-- The tasks of a pool are sound, and its ledger is that of the candidates. -/
structure Sound (q : Request) (verdict : CredentialHash → Except Rejection Credential)
    (chains : List CandidateChain) (p : Pool) : Prop where
  tasks : ∀ t ∈ p.running, t.Sound verdict
  ledger : p.ledger q verdict = (start chains).ledger q verdict

theorem sound_start (chains : List CandidateChain) : (start chains).Sound q verdict chains :=
  ⟨fun _ ht => (by cases ht), rfl⟩

/-- **A step** keeps the tasks sound. -/
theorem Step.sound_running (h : Step q verdict cap p p') (hp : ∀ t ∈ p.running, t.Sound verdict) :
    ∀ t ∈ p'.running, t.Sound verdict := by
  cases h with
  | start =>
      exact List.forall_mem_append.mpr
        ⟨hp, List.forall_mem_singleton.mpr (Task.sound_start _ _)⟩
  | lookUp ht =>
      rw [List.forall_mem_append, List.forall_mem_cons] at hp ⊢
      exact ⟨hp.1, hp.2.1.step ht, hp.2.2⟩
  | finish ht =>
      rw [List.forall_mem_append, List.forall_mem_cons] at hp
      exact List.forall_mem_append.mpr ⟨hp.1, hp.2.2⟩

/-- **A step** leaves the ledger as it is. -/
theorem Step.ledger_eq (h : Step q verdict cap p p') (hp : ∀ t ∈ p.running, t.Sound verdict) :
    p'.ledger q verdict = p.ledger q verdict := by
  simp only [ledger]
  cases h with
  | start =>
      simp only [List.map_append, List.map_cons, List.map_nil, ← Multiset.coe_add,
        ← Multiset.cons_coe, ← Multiset.singleton_add, Multiset.coe_nil, add_zero, Task.start]
      ac_rfl
  | lookUp ht =>
      cases ht with
      | lookUp => simp only [List.map_append, List.map_cons]
  | finish ht =>
      -- an entry moves from the tasks to the outcomes, and a sound task ends with what it comes to
      have htask := hp _ (List.mem_append_right _ List.mem_cons_self)
      simp only [List.map_append, List.map_cons, List.map_nil, ← Multiset.coe_add,
        ← Multiset.cons_coe, ← Multiset.singleton_add, Multiset.coe_nil, add_zero,
        htask.toOption_of_ends ht]
      ac_rfl

theorem Sound.step (hp : p.Sound q verdict chains) (h : Step q verdict cap p p') :
    p'.Sound q verdict chains :=
  ⟨h.sound_running hp.tasks, (h.ledger_eq hp.tasks).trans hp.ledger⟩

/-- What holds of a pool at every point of every schedule. -/
theorem Sound.of_run (h : Run q verdict cap (start chains) p) : p.Sound q verdict chains := by
  induction h with
  | refl => exact sound_start chains
  | tail _ hstep ih => exact ih.step hstep

/-- A schedule that has come to its end has finished every candidate once, and with what it comes
to. -/
theorem Sound.finished_perm (hp : p.Sound q verdict chains) (hc : p.Complete) :
    (p.finished.map fun o => (o.1.toOption, o.2)).Perm
      (chains.zipIdx.map fun c => (q.accepted? verdict c.1, c.2)) := by
  have h := hp.ledger
  simpa only [Pool.ledger, start, hc.1, hc.2, List.map_nil, Multiset.coe_nil, zero_add, add_zero,
    Multiset.coe_eq_coe] using h

/-- Each place among the candidates occurs once among those of the finished ones. -/
theorem Sound.places_perm (hp : p.Sound q verdict chains) (hc : p.Complete) :
    (p.finished.map Prod.snd).Perm (List.range chains.length) := by
  have h := (hp.finished_perm hc).map Prod.snd
  rw [List.map_map, List.map_map] at h
  exact h.trans (.of_eq ((List.zipIdx_map_snd 0 chains).trans List.range_eq_range'.symm))

/-- The finished candidates come to what the candidates come to. -/
theorem Sound.outcomes_perm (hp : p.Sound q verdict chains) (hc : p.Complete) :
    ((p.finished.map Prod.fst).map Except.toOption).Perm (chains.map (q.accepted? verdict)) := by
  have h := (hp.finished_perm hc).map Prod.fst
  rw [List.map_map, List.map_map] at h
  rw [List.map_map, ← List.zipIdx_map_fst 0 chains, List.map_map]
  exact h

/-! ### Schedules come to their end -/

/-- The steps that are left for the candidates of a pool, at most. -/
def work (p : Pool) : Nat :=
  (p.waiting.map fun c => c.1.pending.length + 2).sum +
    (p.running.map fun t => t.awaited.length + 1).sum

/-- Each step uses up some of the work. -/
theorem Step.work_lt (h : Step q verdict cap p p') : p'.work < p.work := by
  cases h with
  | start =>
      simp only [work, List.map_append, List.map_cons, List.map_nil, List.sum_append,
        List.sum_cons, List.sum_nil, Task.start]
      omega
  | lookUp ht =>
      have hlen := ht.awaited_length
      simp only [work, List.map_append, List.map_cons, List.sum_append, List.sum_cons]
      omega
  | finish =>
      simp only [work, List.map_append, List.map_cons, List.sum_append, List.sum_cons]
      omega

/-- No schedule goes on forever. -/
theorem wellFounded_step (q : Request) (verdict : CredentialHash → Except Rejection Credential)
    (cap : Nat) : WellFounded fun p' p => Step q verdict cap p p' :=
  Subrelation.wf (fun h => h.work_lt) (measure work).wf

/-- Until all candidates are finished there is a step to take. -/
theorem exists_step (hcap : 0 < cap) (h : ¬ p.Complete) : ∃ p', Step q verdict cap p p' := by
  obtain ⟨waiting, running, finished⟩ := p
  cases running with
  | nil =>
      cases waiting with
      | nil => exact absurd ⟨rfl, rfl⟩ h
      | cons c waiting => exact ⟨_, .start hcap⟩
  | cons t running =>
      -- any task that is running will do
      change ∃ p', Step q verdict cap ⟨waiting, [] ++ t :: running, finished⟩ p'
      cases hawaited : t.awaited with
      | nil => exact ⟨_, .finish ⟨Or.inl hawaited, _, .refl _, rfl⟩⟩
      | cons next rest =>
          have hnext : next ∈ t.awaited := by
            rw [hawaited]
            exact List.mem_cons_self
          exact ⟨_, .lookUp (.lookUp 0 hnext)⟩

end Pool

end AccessWindows
