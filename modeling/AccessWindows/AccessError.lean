import AccessWindows.Identity
import AccessWindows.Resource
import AccessWindows.Settings

/-!
# Access errors

The failures that would make an answer ambiguous: nobody could say which chains there are, or which
resource a stream belongs to.  A chain that does not hold up is no such failure; it contributes
nothing, and is counted.
-/

namespace AccessWindows

/-- Why a question about access has no answer. -/
inductive AccessError where
  /-- The chains for a resource could not be discovered. -/
  | discoveryFailed (resource : Resource) (cause : Failure)
  /-- The resource of a stream could not be determined. -/
  | resourceLookupFailed (stream : StreamId) (cause : Failure)
  /-- The settings cannot be used. -/
  | configuration (cause : SettingsError)
  deriving DecidableEq

/-- The error in words. -/
def AccessError.message : AccessError → String
  | .discoveryFailed resource cause =>
    "Chain discovery failed for " ++ resource.text ++ ": " ++ cause.text
  | .resourceLookupFailed stream cause =>
    "Resource lookup failed for stream " ++ stream.text ++ ": " ++ cause.text
  | .configuration cause => "Configuration error: " ++ cause.message

end AccessWindows
