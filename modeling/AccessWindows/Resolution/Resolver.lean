import AccessWindows.AccessError
import AccessWindows.Resolution.Report
import AccessWindows.Resolution.Verdict

/-!
# Resolution

Discovery yields candidates, and each of them is resolved on its own.  Only a failure of discovery
is an error; a candidate that does not hold up is part of the outcome.
-/

namespace AccessWindows.Request

/-- The chains in an answer of discovery. -/
def candidates (q : Request) (s : Settings) (reply : Reply (List CandidateChain)) :
    Except AccessError (List CandidateChain) :=
  (reply.outcome "chain discovery" s.discoveryTimeout).mapError (.discoveryFailed q.resource)

/-- Asks for the candidates of a request. -/
def discover {m : Type → Type} [Monad m] (q : Request) (c : Collaborators m) (s : Settings) :
    m (Ended Resource AccessError (List CandidateChain)) := do
  let reply ← c.chains q.resource.toPattern q.permission q.principal
  return ⟨reply.endsAfter s.discoveryTimeout.toNat, q.resource, q.candidates s reply⟩

/-- Resolves each of the candidates. -/
def resolveAll {m : Type → Type} [Monad m] (q : Request) (c : Collaborators m) (s : Settings)
    (chains : List CandidateChain) : m Resolution := do
  let outcomes ← chains.mapM (q.resolveChain c s)
  return Resolution.ofOutcomes outcomes

/-- Discovers the candidates for a request and resolves each of them. -/
def resolve {m : Type → Type} [Monad m] (q : Request) (c : Collaborators m) (s : Settings) :
    m (Except AccessError Resolution) := do
  let discovered ← q.discover c s
  match discovered.result with
  | .error e => return .error e
  | .ok chains =>
    let resolution ← q.resolveAll c s chains
    return .ok resolution

end AccessWindows.Request
