import AccessWindows.Identity
import AccessWindows.Interval
import AccessWindows.Permission
import AccessWindows.Resource

/-!
# Credentials and chains

A credential is one act of delegation: its issuer passes permissions on the resources of a pattern
to its receiver, for a span of time.  A chain is a sequence of credentials that is meant to lead
from an owner to a principal.

A *candidate* chain may hold mere hashes in place of credentials.  It is *complete* when it does
not, and a complete candidate with at least one hop is a *resolved* chain.
-/

namespace AccessWindows

/-- One act of delegation. -/
structure Credential where
  issuer : Principal
  receiver : Principal
  resource : ResourcePattern
  permissions : PermissionSet
  createdAt : Timestamp
  expiresAt : Timestamp
  deriving DecidableEq

namespace Credential

/-- The instants from creation to expiry.  None if the credential expires before it is created. -/
def window? (c : Credential) : Option Interval := Interval.between? c.createdAt c.expiresAt

/-- The credential passes on the permission on the resource. -/
def grants (c : Credential) (r : Resource) (p : Permission) : Bool :=
  c.permissions.grants p && c.resource.fits r

end Credential

/-- A hop of a candidate chain. -/
inductive Slot where
  | resolved (credential : Credential)
  | unresolved (hash : CredentialHash)
  deriving DecidableEq

/-- The hash that a slot still holds in place of a credential. -/
def Slot.pending? : Slot → Option CredentialHash
  | .resolved _ => none
  | .unresolved h => some h

/-- The credential that a slot holds. -/
def Slot.credential? : Slot → Option Credential
  | .resolved c => some c
  | .unresolved _ => none

/-- A sequence of credentials or of their hashes. -/
structure CandidateChain where
  slots : List Slot
  deriving DecidableEq

/-- A sequence of at least one credential. -/
structure ResolvedChain where
  credentials : List Credential
  nonempty : credentials ≠ []
  deriving DecidableEq

namespace CandidateChain

def length (c : CandidateChain) : Nat := c.slots.length

def isEmpty (c : CandidateChain) : Bool := c.slots.isEmpty

/-- No slot holds a mere hash. -/
def isComplete (c : CandidateChain) : Bool := c.slots.all fun s => s.pending?.isNone

/-- The places and hashes of the slots that hold no credential yet. -/
def pending (c : CandidateChain) : List (Nat × CredentialHash) :=
  c.slots.zipIdx.filterMap fun (s, i) => s.pending?.map (i, ·)

/-- Puts a credential at a place; a place outside the chain has none to put it at. -/
def fill (c : CandidateChain) (index : Nat) (credential : Credential) : CandidateChain :=
  ⟨c.slots.set index (.resolved credential)⟩

/-- One more slot at the end. -/
def push (c : CandidateChain) (s : Slot) : CandidateChain := ⟨c.slots ++ [s]⟩

/-- The credentials of a complete chain, if there are any. -/
def toResolved? (c : CandidateChain) : Option ResolvedChain := do
  let credentials ← c.slots.mapM Slot.credential?
  if h : credentials ≠ [] then some ⟨credentials, h⟩ else none

/-- The resolved chain, or the candidate as it was: a slot still holds a mere hash, or there is no
hop. -/
def toResolved (c : CandidateChain) : Except CandidateChain ResolvedChain :=
  match c.toResolved? with
  | some resolved => .ok resolved
  | none => .error c

end CandidateChain

namespace ResolvedChain

/-- The place of the first hop whose receiver did not issue the next. -/
def firstBrokenLink? (c : ResolvedChain) : Option Nat :=
  (c.credentials.zip (c.credentials.drop 1)).findIdx? fun (a, b) => a.receiver != b.issuer

/-- The last hop is received by the principal. -/
def endsAt (c : ResolvedChain) (p : Principal) : Bool :=
  c.credentials.getLast?.any fun last => last.receiver == p

end ResolvedChain

end AccessWindows
