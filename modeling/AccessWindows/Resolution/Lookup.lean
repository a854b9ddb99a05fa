import AccessWindows.Inquiry
import AccessWindows.Payload
import AccessWindows.Settings

/-!
# Look-ups

How the answer of a registry becomes a credential or the cause for which a chain is dropped.  All
look-ups of a chain are started together, in the order of the hops.
-/

namespace AccessWindows

/-- Why a credential with that verdict does not count, if it does not. -/
def Settings.refusal? (s : Settings) : Validity → Option Rejection
  | .valid => none
  | .expired => if s.acceptExpired then none else some .expired
  | .revoked => some .revoked
  | .invalid => some .invalid

/-- The credential in the answer to a question for a hash.  The verdict is looked at first, then
whether the payload is the one that was asked for, then what it says. -/
def Settings.verdict (s : Settings) (hash : CredentialHash) (reply : Reply RegistryEntry) :
    Except Rejection Credential :=
  match reply.within? s.lookupTimeout.toNat with
  | none => .error .lookupTimedOut
  | some (.error _) => .error .lookupFailed
  | some (.ok entry) =>
    match s.refusal? entry.state with
    | some cause => .error cause
    | none => decodeAccess hash entry.payload

/-- The end of a look-up for a slot, which is known by its place. -/
abbrev Arrival := Ended Nat Rejection Credential

/-- The end of the look-up whose answer this is. -/
def Settings.arrival (s : Settings) (place : Nat) (hash : CredentialHash)
    (reply : Reply RegistryEntry) : Arrival where
  time := reply.endsAfter s.lookupTimeout.toNat
  key := place
  result := s.verdict hash reply

/-- Starts the look-ups of these slots. -/
def Settings.lookUp {m : Type → Type} [Monad m] (s : Settings) (c : Collaborators m)
    (pending : List (Nat × CredentialHash)) : m (List Arrival) :=
  startAll (fun (place, hash) => do
    let reply ← c.credential hash
    return s.arrival place hash reply) pending

end AccessWindows
