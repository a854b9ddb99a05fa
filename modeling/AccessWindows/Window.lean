import AccessWindows.Credential
import AccessWindows.RangeSet

/-!
# Windows

The instants that chains give access at: for one chain those that the windows of its credentials
cover together, and for several the instants of any of them.  A credential that expires before it
was created covers nothing.
-/

namespace AccessWindows

/-- The instants that the credentials of a chain cover. -/
def ResolvedChain.window (c : ResolvedChain) : RangeSet :=
  .ofList (c.credentials.filterMap Credential.window?)

/-- The instants that one of the chains covers. -/
def RangeSet.ofChains (chains : List ResolvedChain) : RangeSet :=
  chains.foldl (fun s c => s.union c.window) .empty

end AccessWindows
