import AccessWindows.Collaborators
import AccessWindows.Payload

/-!
# Registries in memory

A registry is the history of what was stored, the latest first, and of the hashes that were made
unreachable.  What is found under a hash is what was stored under it last; being unreachable goes
before being stored.
-/

namespace AccessWindows

/-- Payloads by hash. -/
structure Registry where
  /-- What was stored, the latest first. -/
  entries : List (CredentialHash × RegistryEntry) := []
  unreachable : List CredentialHash := []
  /-- How many milliseconds an answer takes. -/
  delay : Nat := 0

namespace Registry

/-- What is stored under a hash. -/
def find? (r : Registry) (hash : CredentialHash) : Option RegistryEntry := r.entries.lookup hash

/-- Stores an entry under a hash, even one that is not the digest of its payload. -/
def insert (r : Registry) (hash : CredentialHash) (entry : RegistryEntry) : Registry :=
  { r with entries := (hash, entry) :: r.entries }

/-- Stores a payload under its digest. -/
def store (r : Registry) (payload : List UInt8) (state : Validity) : Registry :=
  r.insert (contentHash payload) ⟨payload, state⟩

/-- Stores a credential under the digest of its encoding. -/
def register (r : Registry) (c : Credential) (state : Validity) : Registry :=
  r.store c.encode state

/-- Changes the verdict on what is stored under a hash; there must be something. -/
def setState? (r : Registry) (hash : CredentialHash) (state : Validity) : Option Registry :=
  (r.find? hash).map fun entry => r.insert hash { entry with state := state }

/-- Makes all questions for a hash fail. -/
def cutOff (r : Registry) (hash : CredentialHash) : Registry :=
  { r with unreachable := hash :: r.unreachable }

/-- The result of a question for a hash. -/
def answer (r : Registry) (hash : CredentialHash) : Except Failure RegistryEntry :=
  if hash ∈ r.unreachable then .error (.network ("Registry unreachable for " ++ hash.short))
  else
    match r.find? hash with
    | some entry => .ok entry
    | none => .error (.notFound ("Unknown credential " ++ hash.hex))

end Registry

end AccessWindows
