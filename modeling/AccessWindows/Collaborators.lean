import AccessWindows.Credential
import AccessWindows.Failure

/-!
# Collaborators

The three services that are asked: one discovers candidate chains, one holds payloads by hash, one
knows which resource a stream belongs to.  They are arbitrary functions in a monad, so that the
same engine can be run over answers that are fixed, over answers that are counted, or over a
network.

An answer comes after some time.  Whoever asks waits up to a deadline, and nobody waits longer than
`longestWait`: an answer that would come later comes then, and so does a deadline.  Where both come
at the same moment, the answer counts.
-/

namespace AccessWindows

/-- An answer, and after how many milliseconds it comes. -/
structure Reply (α : Type) where
  delay : Nat
  result : Except Failure α

/-- The longest wait, in milliseconds: thirty years of three hundred and sixty-five days. -/
def longestWait : Nat := 946080000000

/-- How many milliseconds a wait of that length takes. -/
def waited (milliseconds : Nat) : Nat := min milliseconds longestWait

/-- The result of an answer that comes by the deadline. -/
def Reply.within? {α : Type} (r : Reply α) (deadline : Nat) : Option (Except Failure α) :=
  if waited r.delay ≤ waited deadline then some r.result else none

/-- What whoever asks for something gets by the deadline: the result of the answer, or the failure
that it is late. -/
def Reply.outcome {α : Type} (r : Reply α) (operation : String) (deadline : UInt64) :
    Except Failure α :=
  match r.within? deadline.toNat with
  | some result => result
  | none => .error (.timeout operation deadline)

/-- How many milliseconds whoever asks waits: until the answer comes, or up to the deadline. -/
def Reply.endsAfter {α : Type} (r : Reply α) (deadline : Nat) : Nat := waited (min r.delay deadline)

/-- The verdict of a registry on a credential. -/
inductive Validity where
  | valid
  | expired
  | revoked
  | invalid
  deriving DecidableEq

namespace Validity

/-- All verdicts, in the order of their declaration. -/
def all : List Validity := [.valid, .expired, .revoked, .invalid]

def name : Validity → String
  | .valid => "valid"
  | .expired => "expired"
  | .revoked => "revoked"
  | .invalid => "invalid"

end Validity

/-- What a registry holds under a hash. -/
structure RegistryEntry where
  payload : List UInt8
  state : Validity
  deriving DecidableEq

/-- The services that are asked. -/
structure Collaborators (m : Type → Type) where
  /-- The chains that may give a principal a permission on the resources of a pattern. -/
  chains : ResourcePattern → Permission → Principal → m (Reply (List CandidateChain))
  /-- The payload with that hash, and whether it still stands. -/
  credential : CredentialHash → m (Reply RegistryEntry)
  /-- The resource whose records a stream holds. -/
  resource : StreamId → m (Reply Resource)

/-- How often each service was asked. -/
structure Questions where
  chains : Nat := 0
  credentials : Nat := 0
  resources : Nat := 0
  deriving DecidableEq

/-- The same answers, every question being counted. -/
def Collaborators.counted (c : Collaborators Id) : Collaborators (StateM Questions) where
  chains pattern permission principal := do
    modify fun q => { q with chains := q.chains + 1 }
    return c.chains pattern permission principal
  credential hash := do
    modify fun q => { q with credentials := q.credentials + 1 }
    return c.credential hash
  resource stream := do
    modify fun q => { q with resources := q.resources + 1 }
    return c.resource stream

end AccessWindows
