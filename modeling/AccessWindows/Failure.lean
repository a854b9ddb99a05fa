import AccessWindows.Text.Decimal

/-!
# Failures

What a collaborator, or a value that does not denote anything, answers instead of a result.  A
failure is data: it is stored, passed on and written down, so its message is whatever its author
put in it.  The causes that this library itself finds have types of their own, each with one
function that words it, and become failures here.
-/

namespace AccessWindows

/-- Why a question has no answer. -/
inductive Failure where
  | invalid (message : String)
  | notFound (message : String)
  | network (message : String)
  | timeout (operation : String) (milliseconds : UInt64)
  | serialization (message : String)
  | storage (message : String)
  | internal (message : String)
  deriving DecidableEq

namespace Failure

/-- The failure in words. -/
def text : Failure → String
  | .invalid m => "Invalid: " ++ m
  | .notFound m => "Not found: " ++ m
  | .network m => "Network error: " ++ m
  | .timeout operation ms => "Timed out after " ++ Decimal.text ms.toNat ++ "ms: " ++ operation
  | .serialization m => "Serialization error: " ++ m
  | .storage m => "Storage error: " ++ m
  | .internal m => "Internal error: " ++ m

end Failure

/-- What the operating system says about a file it does not deliver. -/
inductive SystemFault where
  | notFound
  | timedOut
  | other
  deriving DecidableEq

/-- A fault of the operating system as a failure.  The system does not say how long it waited. -/
def Failure.ofSystem (fault : SystemFault) (message : String) : Failure :=
  match fault with
  | .notFound => .notFound message
  | .timedOut => .timeout message 0
  | .other => .internal message

end AccessWindows
