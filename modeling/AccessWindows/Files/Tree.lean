import AccessWindows.Files
import AccessWindows.Files.Path
import AccessWindows.Text.Utf8

/-!
# Trees of files in memory

A tree holds files below the directory that one is in, by the names on the way there.  The
directories are those that lead to a file.

Two dots at the top of the tree lead out of it, to the directories above, and a slash in front of a
path leads to the root.  Of what is there only the usual is known: above the tree there are
directories up to the root, but not their names, and below the root there are the directories that
every system has, the empty device and the list of accounts.
-/

namespace AccessWindows

/-- Files with their texts, by the names that lead to them. -/
structure FileTree where
  files : List (List String × String)

namespace FileTree

/-- Where a path leads. -/
inductive Place where
  /-- Down from the directory that one is in. -/
  | within (names : List String)
  /-- One of the directories above. -/
  | above
  /-- Down from the root. -/
  | system (names : List String)
  deriving DecidableEq

/-- The tree with these files. -/
def ofList (files : List (String × String)) : FileTree :=
  ⟨files.map fun f => ((Path.parts f.1).filter fun part => !Path.isVoid part, f.2)⟩

/-- The files that every system has. -/
def usual : FileTree :=
  ofList [("dev/null", ""), ("etc/passwd", "root:x:0:0:root:/root:/bin/sh\n")]

/-- The directories that every system has, files in them or not. -/
def usualDirectories : List (List String) :=
  ["bin", "boot", "dev", "etc", "home", "lib", "media", "mnt", "opt", "proc", "root", "run", "sbin",
    "srv", "sys", "tmp", "usr", "usr/bin", "usr/lib", "usr/local", "usr/share", "var", "var/lib",
    "var/log", "var/tmp"].map Path.parts

/-- Names that lead to some file, and not to it alone, lead to a directory. -/
def isDirectoryName (t : FileTree) (names : List String) : Bool :=
  names.isEmpty || t.files.any fun f => names.isPrefixOf f.1 && f.1 != names

/-- The place is a directory. -/
def isDirectory (t : FileTree) : Place → Bool
  | .within names => t.isDirectoryName names
  | .above => true
  | .system names => usual.isDirectoryName names || usualDirectories.contains names

/-- The text of the file in that place. -/
def text? (t : FileTree) : Place → Option String
  | .within names => t.files.lookup names
  | .above => none
  | .system names => usual.files.lookup names

/-- The directory that holds the place; the root holds itself. -/
def Place.parent : Place → Place
  | .within [] => .above
  | .within names => .within names.dropLast
  | .above => .above
  | .system names => .system names.dropLast

/-- The place of that name in a directory, if anything is known there. -/
def Place.child? (name : String) : Place → Option Place
  | .within names => some (.within (names ++ [name]))
  | .above => none
  | .system names => some (.system (names ++ [name]))

/-- Why a place that is no directory leads nowhere. -/
def fault (t : FileTree) (place : Place) : FileFault :=
  if (t.text? place).isSome then .notDirectory else .missing

/-- Goes one part further; only a directory leads anywhere. -/
def enter (t : FileTree) (place : Place) (part : String) : Except FileFault Place :=
  if !t.isDirectory place then .error (t.fault place)
  else if Path.isVoid part then .ok place
  else if part = ".." then .ok place.parent
  else
    match place.child? part with
    | some child => .ok child
    | none => .error .missing

/-- How many bytes a path may have. -/
def lengthLimit : Nat := 4095

/-- The text of the file that a path leads to.  The empty path leads nowhere, and neither does one
that is too long. -/
def read (t : FileTree) (path : String) : FileText := do
  if path = "" ∨ lengthLimit < (Utf8.encode path).length then throw .missing
  let start : Place := if Path.isAbsolute path then .system [] else .within []
  let place ← (Path.parts path).foldlM t.enter start
  if t.isDirectory place then throw .isDirectory
  match t.text? place with
  | some text => .ok text
  | none => .error .missing

end FileTree

end AccessWindows
