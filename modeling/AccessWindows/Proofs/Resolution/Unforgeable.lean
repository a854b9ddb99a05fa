import AccessWindows.Proofs.Resolution.Lookup
import Mathlib.Data.Set.Function

/-!
# Registries — they can deny but not forge

A registry may answer what it likes: any bytes with any verdict for any hash, late or never, and
differently each time it is asked.  A credential counts only if the bytes it is decoded from have
the hash of its slot, and decoding looks at nothing but the bytes.  So as long as no two of the
payloads that are served share a hash, every hash stands for one credential at most
(`StandsFor.unique`), and this credential is all that a look-up can put at a slot
(`answers_of_accepted`).

Hence two registries may disagree on whether a chain is accepted, but not on what an accepted chain
consists of (`resolveChain_unforgeable`).
-/

namespace AccessWindows

/-! ### What a hash stands for -/

/-- One of the payloads has this hash and encodes the credential. -/
def StandsFor (payloads : Set (List UInt8)) (hash : CredentialHash) (credential : Credential) :
    Prop :=
  ∃ payload ∈ payloads, decodeAccess hash payload = .ok credential

theorem StandsFor.unique {payloads : Set (List UInt8)} (h : payloads.InjOn contentHash)
    {hash : CredentialHash} {credential credential' : Credential}
    (hc : StandsFor payloads hash credential) (hc' : StandsFor payloads hash credential') :
    credential = credential' := by
  obtain ⟨payload, hp, hd⟩ := hc
  obtain ⟨payload', hp', hd'⟩ := hc'
  have hh := (decodeAccess_eq_ok_iff.mp hd).1
  have hh' := (decodeAccess_eq_ok_iff.mp hd').1
  obtain rfl := h hp hp' (hh.trans hh'.symm)
  exact Except.ok.inj (hd.symm.trans hd')

/-- Without collisions, a verdict on each hash that is right about all that is served. -/
theorem exists_verdict {payloads : Set (List UInt8)} (h : payloads.InjOn contentHash) :
    ∃ verdict : CredentialHash → Except Rejection Credential,
      ∀ hash credential, StandsFor payloads hash credential → verdict hash = .ok credential := by
  classical
  refine ⟨fun hash =>
    if hs : ∃ credential, StandsFor payloads hash credential then .ok hs.choose
    else .error .lookupFailed, fun hash credential hc => ?_⟩
  have hs : ∃ credential, StandsFor payloads hash credential := ⟨credential, hc⟩
  exact (dif_pos hs).trans (congrArg Except.ok (hs.choose_spec.unique h hc))

/-- A credential that counts is decoded from the bytes of the answer. -/
theorem Settings.decodeAccess_of_verdict {s : Settings} {hash : CredentialHash}
    {reply : Reply RegistryEntry} {credential : Credential}
    (h : s.verdict hash reply = .ok credential) :
    ∃ entry, reply.result = .ok entry ∧ decodeAccess hash entry.payload = .ok credential := by
  obtain ⟨entry, he, -, hh, hp⟩ := verdict_eq_ok_iff.mp h
  exact ⟨entry, Reply.result_of_within? he, decodeAccess_eq_ok_iff.mpr ⟨hh, hp⟩⟩

/-! ### Accepted chains -/

/-- The payloads that a registry with a state may serve for the hashes of a chain. -/
def Collaborators.served {σ : Type} (c : Collaborators (StateM σ)) (chain : CandidateChain) :
    Set (List UInt8) :=
  {payload | ∃ hash state entry, .unresolved hash ∈ chain.slots ∧
    ((c.credential hash).run state).1.result = .ok entry ∧ entry.payload = payload}

namespace Request

variable {q : Request} {chain : CandidateChain}

/-- The look-ups of an accepted chain brought what its hashes stand for. -/
theorem answers_of_accepted {σ : Type} {c : Collaborators (StateM σ)} {s : Settings} {state : σ}
    {r : ResolvedChain} {verdict : CredentialHash → Except Rejection Credential}
    (hv : ∀ hash credential, StandsFor (c.served chain) hash credential →
      verdict hash = .ok credential)
    (h : ((q.resolveChain c s chain).run state).1 = .ok r) :
    ∃ as, Answers verdict chain.pending as ∧ q.judge chain as = .ok r := by
  let y := Yields.stateful σ
  obtain ⟨as, has, hj⟩ := y.of_bind (x := s.lookUp c chain.pending) ⟨state, h⟩
  have hj := y.of_pure hj
  have hok := isOk_of_judge hj.symm
  simp only [Ended.mem_inTime] at hok
  obtain ⟨hsound, hcomplete⟩ := Settings.arrivals_of_lookUp y has
  refine ⟨_, Answers.of_mem_iff ⟨fun a ha => ?_, hcomplete⟩ fun _ => Ended.mem_inTime, hj.symm⟩
  obtain ⟨hash, reply, hp, ⟨state', rfl⟩, hr⟩ := hsound a ha
  refine ⟨hash, hp, ?_⟩
  cases hres : a.result with
  | error cause => simpa [hres, Except.isOk, Except.toBool] using hok a ha
  | ok credential =>
      obtain ⟨entry, he, hd⟩ := Settings.decodeAccess_of_verdict (hr.symm.trans hres)
      have hslot := List.mem_of_getElem? (CandidateChain.mem_pending_iff.mp hp)
      exact (hv hash credential ⟨_, ⟨hash, state', entry, hslot, he, rfl⟩, hd⟩).symm

/-- **Registries can deny but not forge.**  Two registries answer as they like, each with a state of
its own, under settings of its own, and no two payloads that they may serve for the hashes of a
chain share a hash.  If both lead to the acceptance of the chain, then to one and the same chain of
credentials. -/
theorem resolveChain_unforgeable {σ τ : Type} {c : Collaborators (StateM σ)}
    {c' : Collaborators (StateM τ)} {s s' : Settings} {state : σ} {state' : τ}
    {r r' : ResolvedChain} (hinj : (c.served chain ∪ c'.served chain).InjOn contentHash)
    (h : ((q.resolveChain c s chain).run state).1 = .ok r)
    (h' : ((q.resolveChain c' s' chain).run state').1 = .ok r') : r = r' := by
  -- what either registry serves is decided by one verdict on each hash
  obtain ⟨verdict, hv⟩ := exists_verdict hinj
  obtain ⟨as, ha, hj⟩ := answers_of_accepted
    (fun hash credential ⟨payload, hp, hd⟩ => hv hash credential ⟨payload, Or.inl hp, hd⟩) h
  obtain ⟨as', ha', hj'⟩ := answers_of_accepted
    (fun hash credential ⟨payload, hp, hd⟩ => hv hash credential ⟨payload, Or.inr hp, hd⟩) h'
  obtain ⟨hb, -⟩ := (judge_eq_ok_iff ha).mp hj
  obtain ⟨hb', -⟩ := (judge_eq_ok_iff ha').mp hj'
  have hcs : r.credentials = r'.credentials := brings_unique hb hb'
  cases r
  cases r'
  cases hcs
  rfl

/-! ### A registry that wavers -/

namespace Wavering

open Engine.Sample

/-- Collaborators of which only the registry is ever asked. -/
def registry {σ : Type} (answer : StateM σ (Reply RegistryEntry)) :
    Collaborators (StateM σ) where
  chains _ _ _ := return ⟨0, .ok []⟩
  credential _ := answer
  resource _ := return ⟨0, .ok campus⟩

/-- Answers at once, and always that the credential is valid. -/
def steady : Collaborators (StateM Unit) := registry (return ⟨0, .ok ⟨held.encode, .valid⟩⟩)

/-- Fails when asked for the first time, and later takes its time to say that the credential has
expired. -/
def wavering : Collaborators (StateM Nat) := registry do
  let asked ← getModify (· + 1)
  return if asked = 0 then ⟨0, .error (.network "no route")⟩ else ⟨5, .ok ⟨held.encode, .expired⟩⟩

theorem served_subset :
    ∀ payload ∈ steady.served twoHops ∪ wavering.served twoHops, payload = held.encode := by
  rintro payload (⟨_, _, _, -, he, rfl⟩ | ⟨_, asked, _, -, he, rfl⟩)
  · cases he
    rfl
  · rcases asked with _ | asked
    · cases he
    · cases he
      rfl

theorem run_resolveChain {σ : Type} (answer : StateM σ (Reply RegistryEntry)) (s : Settings)
    (state : σ) :
    ((question.resolveChain (registry answer) s twoHops).run state).1 =
      question.judge twoHops [s.arrival 1 held.hash (answer.run state).1] := by
  have hp : twoHops.pending = [(1, held.hash)] := rfl
  rw [resolveChain, hp]
  simp only [Settings.lookUp, startAll, registry, pure_bind, ite_self, bind_assoc, Ended.inTime,
    List.mergeSort_singleton]
  rfl

/-- An answer with the payload, in time and with a verdict that is no refusal, is accepted. -/
theorem accepts {σ : Type} {answer : StateM σ (Reply RegistryEntry)} {s : Settings} {state : σ}
    {validity : Validity} {delay : Nat}
    (ha : (answer.run state).1 = ⟨delay, .ok ⟨held.encode, validity⟩⟩)
    (hs : s.refusal? validity = none) (ht : waited delay ≤ waited s.lookupTimeout.toNat) :
    ((question.resolveChain (registry answer) s twoHops).run state).1 = .ok bothHops := by
  rw [run_resolveChain, ha, Settings.arrival, verdict_held hs ht]
  exact judge_twoHops rfl rfl

end Wavering

open Wavering Engine.Sample

/-- The registry that wavers denies the chain when asked for the first time.  When asked again it
leads to the same chain as the other registry, although that one is asked by somebody who takes no
expired credentials. -/
theorem resolveChain_of_steady_and_wavering :
    (steady.served twoHops ∪ wavering.served twoHops).InjOn contentHash ∧
      ((question.resolveChain wavering {} twoHops).run 0).1 = .error .lookupFailed ∧
      ∃ r r', ((question.resolveChain steady { acceptExpired := false } twoHops).run ()).1 = .ok r ∧
        ((question.resolveChain wavering {} twoHops).run 1).1 = .ok r' ∧ r = r' := by
  have hinj : (steady.served twoHops ∪ wavering.served twoHops).InjOn contentHash :=
    fun a ha b hb _ => (served_subset a ha).trans (served_subset b hb).symm
  have hdenied : ((question.resolveChain wavering {} twoHops).run 0).1 = .error .lookupFailed := by
    rw [wavering, run_resolveChain]
    rfl
  have h : ((question.resolveChain steady { acceptExpired := false } twoHops).run ()).1 =
      .ok bothHops := accepts rfl rfl (by decide)
  have h' : ((question.resolveChain wavering {} twoHops).run 1).1 = .ok bothHops :=
    accepts rfl rfl (by decide)
  exact ⟨hinj, hdenied, bothHops, bothHops, h, h', resolveChain_unforgeable hinj h h'⟩

end Request

end AccessWindows
