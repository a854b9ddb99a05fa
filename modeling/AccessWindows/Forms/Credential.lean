import AccessWindows.Credential
import AccessWindows.Forms.Basic

/-!
# Written forms of credentials and chains

A credential is a record of six fields.  A slot of a chain is a choice between a credential and a
hash, with the tag `slot`; a chain is the list of its slots.
-/

namespace AccessWindows

open Document

namespace Credential

/-- The fields of a credential, in the order of their declaration. -/
def fieldNames : List String :=
  ["issuer", "receiver", "resource", "permissions", "created_at", "expires_at"]

/-- The fields of a credential with their values. -/
def fields (c : Credential) : List (String × Value) :=
  [("issuer", c.issuer.toValue), ("receiver", c.receiver.toValue),
    ("resource", c.resource.toValue), ("permissions", c.permissions.toValue),
    ("created_at", c.createdAt.toValue), ("expires_at", c.expiresAt.toValue)]

def toValue (c : Credential) : Value := .record c.fields

/-- The credential with these fields, all of which must be given. -/
def ofFields? (d : Dialect) (fs : Fields) : Option Credential := do
  return {
    issuer := ← fs.required "issuer" Principal.ofValue?
    receiver := ← fs.required "receiver" Principal.ofValue?
    resource := ← fs.required "resource" ResourcePattern.ofValue?
    permissions := ← fs.required "permissions" (PermissionSet.ofValue? d)
    createdAt := ← fs.required "created_at" Timestamp.ofValue?
    expiresAt := ← fs.required "expires_at" Timestamp.ofValue? }

def ofValue? (d : Dialect) (v : Value) : Option Credential := do
  ofFields? d (← v.fields? d fieldNames .ignored)

end Credential

namespace Slot

def toValue : Slot → Value
  | .resolved c => .record [("slot", .text "resolved"), ("credential", c.toValue)]
  | .unresolved h => .record [("slot", .text "unresolved"), ("hash", h.toValue)]

def ofValue? (d : Dialect) (v : Value) : Option Slot := do
  let (option, body) ← v.tagged? d "slot" ["resolved", "unresolved"]
  if option = 0 then
    let fs ← body.fields? .cbor ["credential"] .ignored
    return .resolved (← fs.required "credential" (Credential.ofValue? .cbor))
  else
    let fs ← body.fields? .cbor ["hash"] .ignored
    return .unresolved (← fs.required "hash" CredentialHash.ofValue?)

end Slot

def CandidateChain.toValue (c : CandidateChain) : Value := .list (c.slots.map Slot.toValue)

def CandidateChain.ofValue? (d : Dialect) (v : Value) : Option CandidateChain := do
  return ⟨← v.items? (Slot.ofValue? d)⟩

def ResolvedChain.toValue (c : ResolvedChain) : Value :=
  .record [("credentials", .list (c.credentials.map Credential.toValue))]

end AccessWindows
