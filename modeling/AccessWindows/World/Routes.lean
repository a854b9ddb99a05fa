import AccessWindows.Credential
import AccessWindows.Failure

/-!
# Routing tables in memory

A route leads to a chain that some principal may use for the resources of a pattern.  A question is
for the resources of a pattern too: for a single resource all routes answer whose pattern fits it,
and for anything wider those that have the very same pattern.
-/

namespace AccessWindows

/-- A chain, whom it serves, and for which resources. -/
structure Route where
  principal : Principal
  pattern : ResourcePattern
  chain : CandidateChain
  deriving DecidableEq

namespace Route

/-- The route covers the resources that are asked for. -/
def covers (route : Route) (requested : ResourcePattern) : Bool :=
  match Resource.ofText requested.text with
  | .ok resource => route.pattern.fits resource
  | .error _ => route.pattern == requested

/-- The route answers a question of the principal for these resources. -/
def serves (route : Route) (requested : ResourcePattern) (principal : Principal) : Bool :=
  route.principal == principal && route.covers requested

end Route

/-- Routes in the order in which they were added. -/
structure RoutingTable where
  routes : List Route := []
  /-- What every question is answered with while this is set. -/
  failure : Option Failure := none
  /-- How many milliseconds an answer takes. -/
  delay : Nat := 0

namespace RoutingTable

/-- Adds a route behind the others. -/
def add (t : RoutingTable) (route : Route) : RoutingTable :=
  { t with routes := t.routes ++ [route] }

/-- The chains of the routes that answer a question. -/
def found (t : RoutingTable) (requested : ResourcePattern) (principal : Principal) :
    List CandidateChain :=
  (t.routes.filter fun route => route.serves requested principal).map Route.chain

/-- The result of a question. -/
def answer (t : RoutingTable) (requested : ResourcePattern) (principal : Principal) :
    Except Failure (List CandidateChain) :=
  match t.failure with
  | some failure => .error failure
  | none => .ok (t.found requested principal)

end RoutingTable

end AccessWindows
