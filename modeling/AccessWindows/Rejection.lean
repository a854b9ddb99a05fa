/-!
# Rejections

Why a candidate chain contributes nothing.  A rejected chain is no error: it is counted, by its
cause, and the others are not affected.
-/

namespace AccessWindows

/-- Why a candidate chain is dropped. -/
inductive Rejection where
  /-- The registry failed on a slot. -/
  | lookupFailed
  /-- The registry did not answer for a slot in time. -/
  | lookupTimedOut
  /-- A credential is revoked. -/
  | revoked
  /-- A credential is invalid. -/
  | invalid
  /-- A credential has expired, and expired ones do not count. -/
  | expired
  /-- A payload is no credential of a known version. -/
  | undecodable
  /-- A payload is not the one that was asked for. -/
  | hashMismatch
  /-- A receiver did not issue the next credential, or the chain ends with somebody else. -/
  | brokenLinkage
  /-- A hop does not pass on the permission on the resource. -/
  | scopeMismatch
  /-- A slot still holds a hash. -/
  | incomplete
  /-- There is no hop. -/
  | empty
  deriving DecidableEq

namespace Rejection

/-- All causes, in the order in which reports list them. -/
def all : List Rejection :=
  [.lookupFailed, .lookupTimedOut, .revoked, .invalid, .expired, .undecodable, .hashMismatch,
    .brokenLinkage, .scopeMismatch, .incomplete, .empty]

/-- The name of a cause in reports. -/
def label : Rejection → String
  | .lookupFailed => "lookup_failed"
  | .lookupTimedOut => "lookup_timed_out"
  | .revoked => "revoked"
  | .invalid => "invalid"
  | .expired => "expired"
  | .undecodable => "undecodable"
  | .hashMismatch => "hash_mismatch"
  | .brokenLinkage => "broken_linkage"
  | .scopeMismatch => "scope_mismatch"
  | .incomplete => "incomplete"
  | .empty => "empty"

end Rejection

end AccessWindows
