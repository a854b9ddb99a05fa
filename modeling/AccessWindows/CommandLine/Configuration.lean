import AccessWindows.CommandLine.Error
import AccessWindows.Files.Path

/-!
# Configuration

A TOML file may give settings and name a fixture; where no file is seen the usual settings hold and
no fixture is named.  Then the environment overrides settings, and only the result is checked.  A
fixture named in the file is looked for from the directory of the file.
-/

namespace AccessWindows.CommandLine

open Document

/-- What the program starts from. -/
structure Configuration where
  access : Settings := {}
  fixture : Option String := none
  deriving DecidableEq

namespace Configuration

/-- A text, or nothing. -/
def text? : Value → Option (Option String)
  | .null => some none
  | v => some <$> v.text?

def toValue (c : Configuration) : Value :=
  .record [("access", c.access.toValue), ("fixture", (c.fixture.map Value.text).getD .null)]

def ofValue? (d : Dialect) (v : Value) : Option Configuration := do
  let fs ← v.fields? d ["access", "fixture"] .refused
  return {
    access := ← fs.optional "access" {} (Settings.ofValue? d)
    fixture := ← fs.optional "fixture" none text? }

/-- The fixture as seen from where the program runs, for a configuration in that file. -/
def seenFrom (c : Configuration) (path : String) : Configuration :=
  { c with fixture := c.fixture.map fun f => Path.join ((Path.parent? path).getD "") f }

/-- Reads a configuration from a file, which need not exist. -/
def ofFile (path : String) (content : FileText) : Except Error Configuration :=
  match content with
  | .error fault => if fault.isAbsence then .ok {} else .error (.configUnreadable path)
  | .ok text =>
    match (Toml.read? text).bind (ofValue? .toml) with
    | some c => .ok (c.seenFrom path)
    | none => .error (.configMalformed path)

/-- Overrides the settings and checks them. -/
def withEnvironment (c : Configuration) (environment : List (String × String)) :
    Except SettingsError Configuration := do
  let (settings, result) := c.access.override environment
  result
  return { c with access := ← settings.check }

/-- The configuration in a file and an environment. -/
def load (path : String) (content : FileText) (environment : List (String × String)) :
    Except Error Configuration := do
  let c ← ofFile path content
  (c.withEnvironment environment).mapError fun cause => .access (.configuration cause)

end Configuration

end AccessWindows.CommandLine
