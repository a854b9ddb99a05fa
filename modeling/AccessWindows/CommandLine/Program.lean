import AccessWindows.CommandLine.Arguments
import AccessWindows.CommandLine.Form

/-!
# The program

From the words of a command line to what is printed and the exit code.  Files are asked for in any
monad: first the configuration, then the fixture, then what a command names; none is asked for once
an error is known.
-/

namespace AccessWindows.CommandLine

open Document

/-- How the program ends. -/
structure Outcome where
  /-- Zero for success, one for an error or a denial, two for words that make no sense. -/
  exitCode : UInt32
  /-- What is printed. -/
  output : String
  /-- What went wrong, if a command had no answer. -/
  error : Option Error
  deriving DecidableEq

/-- The first line of a text.  It ends at a line feed or with the text; one carriage return before
its end belongs to the end. -/
def firstLine (cs : List Char) : List Char :=
  let line := cs.takeWhile (· != '\n')
  if line.getLast? = some '\r' then line.dropLast else line

namespace Outcome

/-- A command that was answered. -/
def answered (output : String) : Outcome := ⟨0, output, none⟩

/-- A command that had no answer. -/
def failed (e : Error) : Outcome := ⟨1, "", some e⟩

/-- Words that make no sense. -/
def refused : Outcome := ⟨2, "", none⟩

/-- The line on which an error is reported. -/
def errorLine? (o : Outcome) : Option String :=
  o.error.map fun e => String.ofList (firstLine ("Error: " ++ e.message).toList)

end Outcome

namespace Command

/-- The file that a command works on. -/
def input? : Command → Option String
  | .mask _ records => some records
  | .maskMetadata _ groups => some groups
  | _ => none

/-- Answers a command, given the text of the file that it works on. -/
def answer (s : Session) (content : FileText) : Command → Except Error Outcome
  | .ranges resource permission principal json => do
    let q : Request := ⟨resource, permission, principal⟩
    let (set, report) ← s.ranges q
    if json then return .answered (Json.pretty (rangesValue q set report) ++ "\n")
    else return .answered (unlines (rangesLines q set report))
  | .check resource permission principal instant => do
    let q : Request := ⟨resource, permission, principal⟩
    let (t, granted) ← s.check q instant
    return ⟨if granted then 0 else 1, unlines [verdictLine q t granted], none⟩
  | .mask principal path => do
    let records ← inputs NamedRecord.ofValue? path content
    let kept ← s.mask principal records
    return .answered (Json.pretty (.list (kept.map NamedRecord.toValue)) ++ "\n")
  | .maskMetadata principal path => do
    let groups ← inputs NamedGroup.ofValue? path content
    let kept ← s.maskGroups principal groups
    return .answered (Json.pretty (.list (kept.map NamedGroup.toValue)) ++ "\n")

end Command

variable {m : Type → Type} [Monad m]

/-- Runs a command that makes sense. -/
def Invocation.run (i : Invocation) (files : String → m FileText)
    (environment : List (String × String)) : ExceptT Error m Outcome := do
  let content ← files i.config
  let configuration ← Configuration.load i.config content environment
  let path ← Session.fixturePath configuration i.fixture
  let content ← files path
  let session ← Session.start configuration path content
  match i.command.input? with
  | none => i.command.answer session (.ok "")
  | some path =>
    let content ← files path
    i.command.answer session content

/-- Runs the program. -/
def run (files : String → m FileText) (environment : List (String × String))
    (words : List String) : m Outcome := do
  match Invocation.ofWords? words with
  | none => return .refused
  | some i =>
    match ← (i.run files environment).run with
    | .ok outcome => return outcome
    | .error e => return .failed e

end AccessWindows.CommandLine
