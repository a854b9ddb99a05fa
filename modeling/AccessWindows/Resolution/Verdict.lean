import AccessWindows.Credential
import AccessWindows.Resolution.Lookup

/-!
# What becomes of a chain

A request asks for a permission on a resource for a principal.  A candidate chain is filled with
what the look-ups bring, in the order in which they end; the first that fails decides.  A chain
that is filled must lead to the principal hop by hop, and each hop must pass on the permission on
the resource.

The order in which look-ups end decides at most for which cause a chain is dropped, never whether
it is dropped or what it consists of.
-/

namespace AccessWindows

/-- Who asks for which permission on which resource. -/
structure Request where
  resource : Resource
  permission : Permission
  principal : Principal
  deriving DecidableEq

/-- Fills the slots of a chain in the order in which their look-ups ended. -/
def CandidateChain.settle (c : CandidateChain) (arrivals : List Arrival) :
    Except Rejection CandidateChain :=
  arrivals.foldlM (fun c a => c.fill a.key <$> a.result) c

namespace Request

/-- Each hop hands on to the next, and the last to the principal. -/
def isLinked (q : Request) (c : ResolvedChain) : Bool :=
  c.firstBrokenLink?.isNone && c.endsAt q.principal

/-- Each hop passes on the permission on the resource. -/
def isCovered (q : Request) (c : ResolvedChain) : Bool :=
  c.credentials.all fun credential => credential.grants q.resource q.permission

/-- The chain, if it answers the request, or why it does not. -/
def review (q : Request) (c : ResolvedChain) : Except Rejection ResolvedChain :=
  if !q.isLinked c then .error .brokenLinkage
  else if !q.isCovered c then .error .scopeMismatch
  else .ok c

/-- What becomes of a candidate whose look-ups ended in that order. -/
def judge (q : Request) (c : CandidateChain) (arrivals : List Arrival) :
    Except Rejection ResolvedChain :=
  if c.isEmpty then .error .empty
  else do
    let filled ← c.settle arrivals
    match filled.toResolved? with
    | none => .error .incomplete
    | some resolved => q.review resolved

/-- Resolves one candidate. -/
def resolveChain {m : Type → Type} [Monad m] (q : Request) (c : Collaborators m) (s : Settings)
    (chain : CandidateChain) : m (Except Rejection ResolvedChain) := do
  let arrivals ← s.lookUp c chain.pending
  return q.judge chain (Ended.inTime arrivals)

end Request

end AccessWindows
