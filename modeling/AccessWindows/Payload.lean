import AccessWindows.Digest.Blake3
import AccessWindows.Document.Cbor.Reader
import AccessWindows.Document.Cbor.Writer
import AccessWindows.Forms.Credential
import AccessWindows.Rejection

/-!
# Payloads

What a registry stores: bytes that encode a payload, under the digest of these bytes.  A payload is
a choice with the tag `kind`.  Only one kind holds a credential; the other grants permissions
within an application and has no bearing on records.

`decodeAccess` is the only way from bytes to a credential.  It insists that the bytes are the ones
asked for, so a registry can withhold a credential but cannot exchange it for another.
-/

namespace AccessWindows

open Document

/-- What the bytes in a registry mean. -/
inductive Payload where
  /-- A credential, and the version of its encoding. -/
  | access (version : UInt8) (credential : Credential)
  /-- Permissions within an application. -/
  | permission (issuer receiver : Principal) (grants : TextMap) (createdAt expiresAt : Timestamp)
  deriving DecidableEq

namespace Payload

/-- The version that is written, and the only one whose credentials count. -/
def currentVersion : UInt8 := 1

def toValue : Payload → Value
  | .access version credential =>
    .record [("kind", .text "access"), ("version", .int version.toNat),
      ("credential", credential.toValue)]
  | .permission issuer receiver grants createdAt expiresAt =>
    .record [("kind", .text "permission"), ("issuer", issuer.toValue),
      ("receiver", receiver.toValue), ("grants", .ofTextMap grants),
      ("created_at", createdAt.toValue), ("expires_at", expiresAt.toValue)]

/-- A number below 256. -/
def version? (v : Value) : Option UInt8 := do
  let n ← v.int?
  if 0 ≤ n ∧ n < 256 then some n.toNat.toUInt8 else none

def ofValue? (d : Dialect) (v : Value) : Option Payload := do
  let (option, body) ← v.tagged? d "kind" ["access", "permission"]
  if option = 0 then
    let fs ← body.fields? .cbor ["version", "credential"] .ignored
    return .access (← fs.required "version" version?)
      (← fs.required "credential" (Credential.ofValue? .cbor))
  else
    let names := ["issuer", "receiver", "grants", "created_at", "expires_at"]
    let fs ← body.fields? .cbor names .ignored
    return .permission (← fs.required "issuer" Principal.ofValue?)
      (← fs.required "receiver" Principal.ofValue?) (← fs.required "grants" Value.textMap?)
      (← fs.required "created_at" Timestamp.ofValue?)
      (← fs.required "expires_at" Timestamp.ofValue?)

/-- The bytes of a payload. -/
def encode (p : Payload) : List UInt8 := Cbor.write p.toValue

/-- The payload that some bytes encode. -/
def decode? (bytes : List UInt8) : Option Payload := do ofValue? .cbor (← Cbor.read? bytes)

/-- The payload that some bytes encode, or the failure that there is none.  The message ends before
the cause, which is in the words of whoever reads the notation. -/
def decode (bytes : List UInt8) : Except Failure Payload :=
  match decode? bytes with
  | some p => .ok p
  | none => .error (.serialization "Failed to decode credential")

end Payload

/-- The hash under which some bytes are stored. -/
def contentHash (bytes : List UInt8) : CredentialHash := ⟨Digest.Blake3.digest bytes⟩

/-- The bytes of a credential. -/
def Credential.encode (c : Credential) : List UInt8 :=
  (Payload.access Payload.currentVersion c).encode

/-- The hash under which a credential is stored. -/
def Credential.hash (c : Credential) : CredentialHash := contentHash c.encode

/-- The credential in the bytes that were stored for a hash. -/
def decodeAccess (expected : CredentialHash) (bytes : List UInt8) :
    Except Rejection Credential :=
  if contentHash bytes ≠ expected then .error .hashMismatch
  else
    match Payload.decode? bytes with
    | some (.access version credential) =>
      if version = Payload.currentVersion then .ok credential else .error .undecodable
    | _ => .error .undecodable

end AccessWindows
