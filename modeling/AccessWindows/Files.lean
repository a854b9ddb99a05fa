/-!
# Files

What the operating system says when a file is not delivered as text.  Files themselves stay outside
this library: whoever needs one is given its text, or the fault.
-/

namespace AccessWindows

/-- Why a file is not delivered as text. -/
inductive FileFault where
  | missing
  | notDirectory
  | isDirectory
  | notText
  /-- The path cannot be followed to its end, so that nobody sees whether there is a file.  The
  operating system says why. -/
  | unseen (message : String)
  /-- Anything else, in the words of the operating system. -/
  | other (message : String)
  deriving DecidableEq

/-- The words of the operating system for a fault. -/
def FileFault.message : FileFault → String
  | .missing => "No such file or directory (os error 2)"
  | .notDirectory => "Not a directory (os error 20)"
  | .isDirectory => "Is a directory (os error 21)"
  | .notText => "stream did not contain valid UTF-8"
  | .unseen message => message
  | .other message => message

/-- No file is seen to be there.  One that is there may still be denied. -/
def FileFault.isAbsence : FileFault → Bool
  | .missing | .notDirectory | .unseen _ => true
  | .isDirectory | .notText | .other _ => false

/-- The text of a file, or why there is none. -/
abbrev FileText := Except FileFault String

end AccessWindows
