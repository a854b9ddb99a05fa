import AccessWindows.AccessError
import AccessWindows.Fixture.Basic
import AccessWindows.Instant

/-!
# Errors of commands

Why a command that makes sense has no answer, in the words in which that is reported.
-/

namespace AccessWindows.CommandLine

/-- Why a command has no answer. -/
inductive Error where
  | configUnreadable (path : String)
  | configMalformed (path : String)
  /-- Neither the command line nor the configuration names a fixture. -/
  | noFixture
  | fixtureUnusable (path : String)
  /-- The fixture describes no world. -/
  | noWorld (cause : FixtureError)
  | access (cause : AccessError)
  | instant (cause : InstantError)
  | inputUnreadable (path : String)
  | inputMalformed (path : String)
  | undeclaredStream (name : String)
  deriving DecidableEq

/-- The error in words. -/
def Error.message : Error → String
  | .configUnreadable path => "Failed to read config " ++ path
  | .configMalformed path => "Failed to parse config " ++ path
  | .noFixture =>
    "No fixture world configured; pass --fixture or set `fixture` in the config file"
  | .fixtureUnusable path => "Failed to load fixture " ++ path
  | .noWorld cause => cause.toFailure.text
  | .access cause => cause.message
  | .instant cause => cause.message
  | .inputUnreadable path => "Failed to read " ++ path
  | .inputMalformed path => "Failed to parse " ++ path
  | .undeclaredStream name => "Stream '" ++ name ++ "' is not declared in the fixture"

end AccessWindows.CommandLine
