import AccessWindows.Document.Fields
import AccessWindows.Document.Toml.Reader
import AccessWindows.Files
import AccessWindows.Text.Blank
import AccessWindows.Text.Decimal

/-!
# Settings

The deadlines of discovery and of single look-ups, how many chains may be resolved at a time, and
whether expired credentials count.  They come from a TOML document, may be overridden by
environment variables, and are checked last, so that an override can repair what a document got
wrong.

Overrides are applied one after the other and stop at the first that does not fit; those before it
stay in force.
-/

namespace AccessWindows

open Document

/-- What can be tuned. -/
structure Settings where
  /-- How long discovery may take, in milliseconds. -/
  discoveryTimeout : UInt64 := 5000
  /-- How long a look-up may take, in milliseconds. -/
  lookupTimeout : UInt64 := 2000
  /-- How many chains may be resolved at a time. -/
  maxConcurrentChains : UInt64 := 16
  /-- Expired credentials count: expiry only bounds the window of a credential. -/
  acceptExpired : Bool := true
  deriving DecidableEq

/-- The name of one setting. -/
inductive Setting where
  | discoveryTimeout
  | lookupTimeout
  | maxConcurrentChains
  | acceptExpired
  deriving DecidableEq

namespace Setting

def all : List Setting := [.discoveryTimeout, .lookupTimeout, .maxConcurrentChains, .acceptExpired]

def name : Setting → String
  | .discoveryTimeout => "discovery_timeout_ms"
  | .lookupTimeout => "lookup_timeout_ms"
  | .maxConcurrentChains => "max_concurrent_chains"
  | .acceptExpired => "accept_expired"

def ofName? (s : String) : Option Setting := all.find? fun f => f.name == s

end Setting

/-- Why settings cannot be used. -/
inductive SettingsError where
  | unreadable (path : String) (fault : FileFault)
  | malformed
  | unknownKey (key : String)
  | badValue (value : String) (setting : Setting)
  | zero (setting : Setting)
  deriving DecidableEq

/-- What is wrong with settings.  For a document that holds none, the message ends before the cause,
which is in the words of whoever reads the notation. -/
def SettingsError.message : SettingsError → String
  | .unreadable path fault => "Failed to read " ++ path ++ ": " ++ fault.message
  | .malformed => "Invalid access config"
  | .unknownKey key => "Unknown access config key '" ++ key ++ "'"
  | .badValue value setting => "Invalid value '" ++ value ++ "' for " ++ setting.name
  | .zero setting => setting.name ++ " must be non-zero"

namespace Settings

/-- A number below `2 ^ 64`, white space around it aside. -/
def number? (value : String) : Option UInt64 := do
  let n ← Decimal.unsigned? (Blank.trim value.toList)
  if n < UInt64.size then some n.toUInt64 else none

/-- One of the two words for a truth value, white space around it aside. -/
def truth? (value : String) : Option Bool :=
  let word := Blank.trim value.toList
  if word = ['t', 'r', 'u', 'e'] then some true
  else if word = ['f', 'a', 'l', 's', 'e'] then some false
  else none

/-- Gives a setting the value that a text denotes, if it denotes one. -/
def set? (s : Settings) (setting : Setting) (value : String) : Option Settings :=
  match setting with
  | .discoveryTimeout => (number? value).map fun n => { s with discoveryTimeout := n }
  | .lookupTimeout => (number? value).map fun n => { s with lookupTimeout := n }
  | .maxConcurrentChains => (number? value).map fun n => { s with maxConcurrentChains := n }
  | .acceptExpired => (truth? value).map fun b => { s with acceptExpired := b }

/-- Gives the setting of that name the value that a text denotes. -/
def set (s : Settings) (key value : String) : Except SettingsError Settings :=
  match Setting.ofName? key with
  | none => .error (.unknownKey key)
  | some setting =>
    match s.set? setting value with
    | none => .error (.badValue value setting)
    | some s => .ok s

/-- How the names of the environment variables begin that override settings. -/
def variableStart : List Char := "WARDEN_ACCESS_".toList

/-- The setting that an environment variable is meant for, if it is meant for one at all: the
part of its name behind the common beginning, in small letters. -/
def overrideKey? (name : String) : Option String :=
  let cs := name.toList
  if cs.take variableStart.length = variableStart then
    some (String.ofList ((cs.drop variableStart.length).map Char.toLower))
  else none

/-- Applies environment variables, in their order, up to the first that does not fit. -/
def override (s : Settings) : List (String × String) → Settings × Except SettingsError Unit
  | [] => (s, .ok ())
  | (name, value) :: rest =>
    match overrideKey? name with
    | none => s.override rest
    | some key =>
      match s.set key value with
      | .error e => (s, .error e)
      | .ok s => s.override rest

/-- The settings, if none of the numbers is zero; otherwise the first that is. -/
def check (s : Settings) : Except SettingsError Settings :=
  if s.discoveryTimeout = 0 then .error (.zero .discoveryTimeout)
  else if s.lookupTimeout = 0 then .error (.zero .lookupTimeout)
  else if s.maxConcurrentChains = 0 then .error (.zero .maxConcurrentChains)
  else .ok s

/-- The usual settings can be used. -/
theorem check_usual : ({} : Settings).check = .ok {} := rfl

/-- The settings as a document. -/
def toValue (s : Settings) : Value :=
  .record [("discovery_timeout_ms", .int s.discoveryTimeout.toNat),
    ("lookup_timeout_ms", .int s.lookupTimeout.toNat),
    ("max_concurrent_chains", .int s.maxConcurrentChains.toNat),
    ("accept_expired", .bool s.acceptExpired)]

/-- Reads settings from a document; those that are not given keep their usual value. -/
def ofValue? (d : Dialect) (v : Value) : Option Settings := do
  let usual : Settings := {}
  let fs ← v.fields? d (Setting.all.map Setting.name) .refused
  return {
    discoveryTimeout :=
      ← fs.optional "discovery_timeout_ms" usual.discoveryTimeout Value.word?
    lookupTimeout := ← fs.optional "lookup_timeout_ms" usual.lookupTimeout Value.word?
    maxConcurrentChains :=
      ← fs.optional "max_concurrent_chains" usual.maxConcurrentChains Value.word?
    acceptExpired := ← fs.optional "accept_expired" usual.acceptExpired Value.bool? }

/-- Reads settings from the text of a TOML document. -/
def ofToml (text : String) : Except SettingsError Settings :=
  match (Toml.read? text).bind (ofValue? .toml) with
  | some s => .ok s
  | none => .error .malformed

/-- Reads settings from a file. -/
def ofFile (path : String) (content : FileText) : Except SettingsError Settings :=
  match content with
  | .error fault => .error (.unreadable path fault)
  | .ok text => ofToml text

end Settings

end AccessWindows
