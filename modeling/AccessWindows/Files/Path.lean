/-!
# Paths

Paths are texts whose parts are separated by slashes.  Empty parts and single dots inside a path
mean nothing; a dot in front stands for the directory one is in, and two dots are a part like any
other.  Nothing is looked up: these are operations on texts.
-/

namespace AccessWindows.Path

/-- The path starts at the root. -/
def isAbsolute (path : String) : Bool := path.toList.head? == some '/'

/-- The parts between the slashes. -/
def parts (path : String) : List String := (path.toList.splitOn '/').map String.ofList

/-- A part that means nothing behind another. -/
def isVoid (part : String) : Bool := part == "" || part == "."

/-- Leaves out the parts at the end that mean nothing. -/
def dropVoidEnd (parts : List String) : List String := (parts.reverse.dropWhile isVoid).reverse

/-- The path without its last part; neither the empty path nor the root has one. -/
def parent? (path : String) : Option String :=
  match parts path with
  | [] => none
  | first :: others =>
    match dropVoidEnd others with
    | [] => if first = "" then none else some ""
    | others =>
      let rest := dropVoidEnd others.dropLast
      some (if first = "" ∧ rest = [] then "/" else "/".intercalate (first :: rest))

/-- A path as seen from a directory. -/
def join (directory path : String) : String :=
  if isAbsolute path ∨ directory = "" then path
  else if directory.toList.getLast? = some '/' then directory ++ path
  else directory ++ "/" ++ path

end AccessWindows.Path
