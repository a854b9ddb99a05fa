import AccessWindows.Proofs.Inquiry.Runs
import AccessWindows.Proofs.Resolution.Judgement

/-!
# Look-ups — which credential a hash stands for

With fixed answers a registry gives each hash one verdict (`Settings.answer`), and that verdict is
a credential exactly when the registry confirms it: it answers in time with an entry that stands
and whose payload is the one with that hash and encodes the credential (`verdict_eq_ok_iff`).

Looking up the slots of a chain yields verdicts on answers of the registry, all of them unless one
fails at once, and this also if the registry has a state and answers differently from one question
to the next (`arrivals_of_lookUp`).  With fixed answers there is one verdict for each hash
(`answers_lookUp`), so that what becomes of a chain does not depend on any delay
(`resolveChain_eq_ok_iff`).
-/

namespace AccessWindows

theorem decodeAccess_eq_ok_iff {hash : CredentialHash} {bytes : List UInt8} {c : Credential} :
    decodeAccess hash bytes = .ok c ↔
      contentHash bytes = hash ∧
        Payload.decode? bytes = some (.access Payload.currentVersion c) := by
  rw [decodeAccess]
  split
  next hne => exact ⟨fun h => (by cases h), fun h => absurd h.1 hne⟩
  next he =>
      rw [not_not] at he
      simp only [he, true_and]
      split
      next version credential hp =>
          rw [hp]
          split
          next hv => simp [hv]
          next hv => simp [hv]
      next hp => exact ⟨fun h => (by cases h), fun h => absurd h (hp _ c)⟩

theorem Reply.outcome_eq_ok_iff {α : Type} {r : Reply α} {operation : String} {deadline : UInt64}
    {a : α} :
    r.outcome operation deadline = .ok a ↔ r.within? deadline.toNat = some (.ok a) := by
  rw [outcome]
  cases r.within? deadline.toNat <;> simp

theorem Reply.result_of_within? {α : Type} {r : Reply α} {deadline : Nat}
    {result : Except Failure α} (h : r.within? deadline = some result) : r.result = result := by
  rw [within?] at h
  split at h
  · exact Option.some.inj h
  · cases h

namespace Settings

variable {s : Settings}

/-- The entry stands: it is valid, or has expired and expired ones count. -/
theorem refusal?_eq_none_iff {v : Validity} :
    s.refusal? v = none ↔ v = .valid ∨ v = .expired ∧ s.acceptExpired = true := by
  cases v <;> simp [refusal?]

/-- The registry answers in time with an entry that stands, whose payload is the one with that
hash and encodes the credential in the current version. -/
def Confirms (s : Settings) (hash : CredentialHash) (reply : Reply RegistryEntry)
    (credential : Credential) : Prop :=
  ∃ entry, reply.within? s.lookupTimeout.toNat = some (.ok entry) ∧
    (entry.state = .valid ∨ entry.state = .expired ∧ s.acceptExpired = true) ∧
    contentHash entry.payload = hash ∧
    Payload.decode? entry.payload = some (.access Payload.currentVersion credential)

theorem verdict_eq_ok_iff {hash : CredentialHash} {reply : Reply RegistryEntry}
    {credential : Credential} :
    s.verdict hash reply = .ok credential ↔ s.Confirms hash reply credential := by
  rw [verdict, Confirms]
  split
  next h => simp [h]
  next h => simp [h]
  next entry h =>
      simp only [h, Option.some.injEq, Except.ok.injEq, exists_eq_left']
      rw [← refusal?_eq_none_iff]
      split
      next cause hr => simp [hr]
      next hr => simp only [hr, true_and, decodeAccess_eq_ok_iff]

/-! ### Asking -/

/-- **Look-ups**, whatever else the registry does: each ends with the verdict on an answer that the
registry may give to the question for the hash of its slot, and all are made unless one fails. -/
theorem arrivals_of_lookUp {m : Type → Type} [Monad m] (y : Yields m) {c : Collaborators m}
    {pending : List (Nat × CredentialHash)} {as : List Arrival}
    (h : y.may (s.lookUp c pending) as) :
    (∀ a ∈ as, ∃ hash reply, (a.key, hash) ∈ pending ∧ y.may (c.credential hash) reply ∧
        a.result = s.verdict hash reply) ∧
      ((∀ a ∈ as, a.result.isOk = true) → ∀ p ∈ pending, ∃ a ∈ as, a.key = p.1) := by
  have hone : ∀ {p : Nat × CredentialHash} {a : Arrival},
      y.may (do
        let reply ← c.credential p.2
        return s.arrival p.1 p.2 reply) a →
        ∃ reply, y.may (c.credential p.2) reply ∧ a = s.arrival p.1 p.2 reply := by
    intro p a ha
    obtain ⟨reply, hreply, ha⟩ := y.of_bind ha
    exact ⟨reply, hreply, y.of_pure ha⟩
  obtain ⟨log, hstarted⟩ := y.started h
  refine ⟨fun a ha => ?_, fun hok p hp => ?_⟩
  · obtain ⟨p, hp, -, -, hasks⟩ := hstarted.exists_asked a ha
    obtain ⟨reply, hreply, rfl⟩ := hone hasks
    exact ⟨p.2, reply, hp, hreply, rfl⟩
  · obtain ⟨a, ha, -, -, hasks⟩ := hstarted.all_of_ok (fun a ha => isOk_iff.mp (hok a ha)) p hp
    obtain ⟨reply, -, rfl⟩ := hone hasks
    exact ⟨_, ha, rfl⟩

/-! ### Fixed answers -/

/-- What a registry whose answers are fixed makes of a hash. -/
def answer (s : Settings) (c : Collaborators Id) (hash : CredentialHash) :
    Except Rejection Credential :=
  s.verdict hash (c.credential hash).run

theorem answers_lookUp (s : Settings) (c : Collaborators Id)
    (pending : List (Nat × CredentialHash)) :
    Answers (s.answer c) pending (s.lookUp c pending).run := by
  obtain ⟨hsound, hcomplete⟩ := arrivals_of_lookUp Yields.fixed (s := s) (c := c) rfl
  refine ⟨fun a ha => ?_, hcomplete⟩
  obtain ⟨hash, _, hp, rfl, hr⟩ := hsound a ha
  exact ⟨hash, hp, hr⟩

/-- The order of time, in which the ends of look-ups are judged, makes no difference. -/
theorem answers_inTime (s : Settings) (c : Collaborators Id)
    (pending : List (Nat × CredentialHash)) :
    Answers (s.answer c) pending (Ended.inTime (s.lookUp c pending).run) :=
  (s.answers_lookUp c pending).of_mem_iff fun _ => Ended.mem_inTime

end Settings

/-- **Acceptance over fixed answers**: no delay has a part in it. -/
theorem Request.resolveChain_eq_ok_iff {q : Request} {c : Collaborators Id} {s : Settings}
    {chain : CandidateChain} {r : ResolvedChain} :
    (q.resolveChain c s chain).run = .ok r ↔
      List.Forall₂ (Slot.Brings (s.answer c)) chain.slots r.credentials ∧
        q.Reaches r.credentials :=
  judge_eq_ok_iff (s.answers_inTime c chain.pending)

/-! ### A small world

One resource, credentials for reading it, and a principal who asks; a chain of two hops of which
one is known by its hash only, and a chain of one that is given; collaborators that give the same
answers to everybody.  The theorems about requests are applied to them. -/

namespace Engine.Sample

def campus : Resource := ⟨["campus"], by decide, by decide⟩

/-- A credential for reading, in force between two seconds. -/
def grant (issuer receiver : String) (created expires : Int) : Credential where
  issuer := ⟨issuer⟩
  receiver := ⟨receiver⟩
  resource := campus.toPattern
  permissions := .ofList [.read]
  createdAt := .ofSeconds created
  expiresAt := .ofSeconds expires

def question : Request := ⟨campus, .read, ⟨"alice"⟩⟩

/-- A credential that chains refer to by its hash. -/
def held : Credential := grant "bob" "alice" 100 200

/-- A hop that is given, and one known by its hash. -/
def twoHops : CandidateChain :=
  ⟨[.resolved (grant "root" "bob" 150 300), .unresolved held.hash]⟩

/-- The two hops, once the second has been looked up. -/
def bothHops : ResolvedChain := ⟨[grant "root" "bob" 150 300, held], List.cons_ne_nil _ _⟩

/-- One hop that is given. -/
def oneHop : CandidateChain := .held [grant "root" "alice" 400 500]

/-- The candidates are always these, and the registry always gives this answer. -/
def collaborators (chains : List CandidateChain) (answer : Reply RegistryEntry) :
    Collaborators Id where
  chains _ _ _ := ⟨0, .ok chains⟩
  credential _ := answer
  resource _ := ⟨0, .ok campus⟩

/-- The payload of the credential stands for it, unless its verdict is a refusal or it is late. -/
theorem verdict_held {s : Settings} {state : Validity} {delay : Nat}
    (hs : s.refusal? state = none) (ht : waited delay ≤ waited s.lookupTimeout.toNat) :
    s.verdict held.hash ⟨delay, .ok ⟨held.encode, state⟩⟩ = .ok held := by
  have hdecode : Payload.decode? held.encode = some (.access Payload.currentVersion held) := by
    decide +kernel
  exact Settings.verdict_eq_ok_iff.mpr
    ⟨_, if_pos ht, Settings.refusal?_eq_none_iff.mp hs, rfl, hdecode⟩

/-- The two hops make a chain if the second is looked up. -/
theorem judge_twoHops {a : Arrival} (hp : a.key = 1) (hr : a.result = .ok held) :
    question.judge twoHops [a] = .ok bothHops := by
  obtain ⟨time, place, result⟩ := a
  cases hp
  cases hr
  rfl

end Engine.Sample

end AccessWindows
