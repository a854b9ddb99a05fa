import AccessWindows.CommandLine.Program

/-!
# Main

The program in its surroundings: files are read from disk, the environment is the one of the
process, and the exit code is handed over.
-/

namespace AccessWindows

/-- A fault as the operating system reports it.  A text that cannot be a path, since it is too long,
leads to no file.  That a file is of the wrong kind is either because a directory is to be read,
whose code is 21 up to the sign, or because a path leads on from a file that is none.  What else
happens is told apart by whether the path can be followed to its end: a directory on the way may
deny passage, and a file that is seen may deny reading. -/
def FileFault.ofError (seen : Bool) : IO.Error → FileFault
  | .noFileOrDirectory .. => .missing
  | .invalidArgument .. => .missing
  | .inappropriateType _ code _ =>
    if code = 21 ∨ code = 0 - 21 then .isDirectory else .notDirectory
  | e => if seen then .other (toString e) else .unseen (toString e)

/-- Whether a path can be followed to its end. -/
def isSeen (path : String) : IO Bool := do
  try
    let _ ← IO.FS.realPath path
    return true
  catch _ => return false

/-- The text of a file on disk. -/
def fileText (path : String) : IO FileText := do
  try
    match String.fromUTF8? (← IO.FS.readBinFile path) with
    | some text => return .ok text
    | none => return .error .notText
  catch e => return .error (.ofError (← isSeen path) e)

/-- The variables in a text, a null character behind each, with their names in front of the first
equals sign and their values behind it. -/
def namedValues (block : String) : List (String × String) :=
  ((block.toList.splitOn '\x00').filter (· ≠ [])).map fun cs =>
    (String.ofList (cs.takeWhile (· != '=')), String.ofList ((cs.dropWhile (· != '=')).drop 1))

/-- The environment of the process. -/
def environment : IO (List (String × String)) := do
  match ← fileText "/proc/self/environ" with
  | .ok block => return namedValues block
  | .error _ => return []

end AccessWindows

open AccessWindows CommandLine in
/-- Runs the program on the arguments of the process. -/
def main (args : List String) : IO UInt32 := do
  let outcome ← run fileText (← environment) args
  IO.print outcome.output
  if let some line := outcome.errorLine? then IO.eprintln line
  return outcome.exitCode
