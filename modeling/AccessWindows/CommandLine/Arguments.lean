import AccessWindows.Permission
import AccessWindows.Resource
import AccessWindows.Identity

/-!
# Arguments

The words of a command line: a command, options of that command behind it, and options of the
program before or behind it.  An option is given by its long name or, some of them, by a letter;
its value is the next word, or is attached to it.  A word that begins with a hyphen is never a
value of the word before it.

Each option may be given once before the command and once behind it; what stands behind it counts.
All that does not fit is one and the same refusal.
-/

namespace AccessWindows.CommandLine

/-- An option of the program or of a command. -/
inductive Opt where
  | verbose
  | config
  | fixture
  | json
  | resource
  | principal
  | permission
  | instant
  | records
  | groups
  deriving DecidableEq

namespace Opt

/-- The name behind two hyphens. -/
def long : Opt → String
  | .verbose => "verbose"
  | .config => "config"
  | .fixture => "fixture"
  | .json => "json"
  | .resource => "resource"
  | .principal => "principal"
  | .permission => "permission"
  | .instant => "at"
  | .records => "records"
  | .groups => "groups"

/-- The letter behind one hyphen. -/
def short? : Opt → Option Char
  | .verbose => some 'v'
  | .config => some 'c'
  | .fixture => some 'f'
  | _ => none

/-- The option has no value. -/
def isFlag (o : Opt) : Bool := o = .verbose || o = .json

/-- The value names a file, and so is not empty. -/
def isPath (o : Opt) : Bool := o = .config || o = .fixture || o = .records || o = .groups

/-- The options of the program. -/
def ofProgram : List Opt := [.verbose, .config, .fixture]

end Opt

/-- Options with their values; a flag has an empty one. -/
abbrev Given := List (Opt × String)

/-- What a word of options says. -/
structure Reading where
  given : Given
  /-- The option whose value is the next word. -/
  pending : Option Opt := none

namespace Reading

/-- An option with the value that is attached to it. -/
def attached? (o : Opt) (value : String) : Option Reading :=
  if o.isFlag then none else some { given := [(o, value)] }

/-- An option to which nothing is attached. -/
def bare (o : Opt) : Reading :=
  if o.isFlag then { given := [(o, "")] } else { given := [], pending := some o }

/-- Reads what stands behind two hyphens. -/
def ofLong? (options : List Opt) (cs : List Char) : Option Reading := do
  let name := String.ofList (cs.takeWhile (· != '='))
  let o ← options.find? fun o => o.long == name
  match cs.dropWhile (· != '=') with
  | [] => return bare o
  | _ :: value => attached? o (String.ofList value)

/-- Reads what stands behind one hyphen: letters of flags, and perhaps of one option with a value,
which is attached with or without an equals sign. -/
def ofShort? (options : List Opt) : List Char → Option Reading
  | [] => some { given := [] }
  | c :: cs => do
    let o ← options.find? fun o => o.short? == some c
    match cs with
    | [] => return bare o
    | '=' :: value => attached? o (String.ofList value)
    | cs =>
      if o.isFlag then
        let rest ← ofShort? options cs
        return { rest with given := (o, "") :: rest.given }
      else attached? o (String.ofList cs)

end Reading

/-- The word begins like one of options.  A hyphen alone does not. -/
def isOptionWord (word : String) : Bool := word.toList.head? == some '-' && word != "-"

/-- Reads a word of options. -/
def reading? (options : List Opt) (word : String) : Option Reading :=
  match word.toList with
  | '-' :: '-' :: cs => Reading.ofLong? options cs
  | _ :: cs => Reading.ofShort? options cs
  | [] => none

/-- Reads words up to the first that is not of options, which is left with those behind it. -/
def options? (options : List Opt) : List String → Option (Given × List String)
  | [] => some ([], [])
  | word :: words => do
    if !isOptionWord word || word == "--" then return ([], word :: words)
    let r ← reading? options word
    match r.pending with
    | none =>
      let (given, rest) ← options? options words
      return (r.given ++ given, rest)
    | some o =>
      match words with
      | [] => none
      | value :: words =>
        if isOptionWord value then none
        else
          let (given, rest) ← options? options words
          return (r.given ++ (o, value) :: given, rest)

/-- No option twice, and no file without a name. -/
def isProper (given : Given) : Bool :=
  (given.map Prod.fst).eraseDups.length == given.length &&
    given.all fun (o, value) => !(o.isPath && value == "")

/-- What to do. -/
inductive Command where
  | ranges (resource : Resource) (permission : Permission) (principal : Principal) (json : Bool)
  | check (resource : Resource) (permission : Permission) (principal : Principal)
      (instant : String)
  | mask (principal : Principal) (records : String)
  | maskMetadata (principal : Principal) (groups : String)
  deriving DecidableEq

namespace Command

/-- The options of the command with that name. -/
def options? : String → Option (List Opt)
  | "ranges" => some [.resource, .principal, .permission, .json]
  | "check" => some [.resource, .principal, .permission, .instant]
  | "mask" => some [.principal, .records]
  | "mask-metadata" => some [.principal, .groups]
  | _ => none

/-- The resource that is given. -/
def resource? (given : Given) : Option Resource := do
  (Resource.ofText (← given.lookup .resource)).toOption

/-- The permission that is given; without one, reading is meant. -/
def permission? (given : Given) : Option Permission :=
  match given.lookup .permission with
  | none => some .read
  | some name => (Permission.ofText name).toOption

/-- The principal that is given. -/
def principal? (given : Given) : Option Principal := do return ⟨← given.lookup .principal⟩

/-- The command of a name with the options given for it. -/
def ofOptions? (name : String) (given : Given) : Option Command := do
  let principal ← principal? given
  match name with
  | "ranges" =>
    return .ranges (← resource? given) (← permission? given) principal
      (given.lookup .json).isSome
  | "check" =>
    return .check (← resource? given) (← permission? given) principal (← given.lookup .instant)
  | "mask" => return .mask principal (← given.lookup .records)
  | "mask-metadata" => return .maskMetadata principal (← given.lookup .groups)
  | _ => none

end Command

/-- A command line that makes sense. -/
structure Invocation where
  config : String
  fixture : Option String
  command : Command
  deriving DecidableEq

/-- The words behind the options of a command: none, or the sign that options end. -/
def isEnd (words : List String) : Bool := words == [] || words == ["--"]

/-- Reads the words of a command line. -/
def Invocation.ofWords? (words : List String) : Option Invocation := do
  let (before, rest) ← CommandLine.options? Opt.ofProgram words
  let name :: rest := rest | none
  let (behind, rest) ←
    CommandLine.options? ((← Command.options? name) ++ Opt.ofProgram) rest
  if isProper before && isProper behind && isEnd rest then
    let given := behind ++ before
    return {
      config := (given.lookup .config).getD "warden.toml"
      fixture := given.lookup .fixture
      command := ← Command.ofOptions? name behind }
  else none

end AccessWindows.CommandLine
