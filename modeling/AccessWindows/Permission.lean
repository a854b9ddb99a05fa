import AccessWindows.Text.Blank

/-!
# Permissions

What a principal may do with a resource, and sets of such permissions.  Whoever may consume a
resource may also read it, so `grants` is wider than `contains` at that one place.
-/

namespace AccessWindows

/-- What may be done with a resource. -/
inductive Permission where
  | consume
  | publish
  | list
  | read
  deriving DecidableEq

/-- Why a text is no permission, or no set of permissions. -/
inductive PermissionError where
  | unknown (name : String)
  | unknownLetter (letter : Char)
  deriving DecidableEq

/-- What is wrong with the text of a permission or of a set of them. -/
def PermissionError.message : PermissionError → String
  | .unknown name => "unknown permission '" ++ name ++ "'"
  | .unknownLetter letter =>
    "unknown permission letter '" ++ String.ofList [letter] ++ "'"

namespace Permission

/-- All permissions, in the order in which sets list them. -/
def all : List Permission := [.consume, .publish, .list, .read]

/-- The name under which a permission is written. -/
def name : Permission → String
  | .consume => "can-consume"
  | .publish => "can-publish"
  | .list => "can-list"
  | .read => "read"

/-- The permission with that name. -/
def ofName? (s : String) : Option Permission := all.find? fun p => p.name == s

/-- The permission abbreviated by a letter. -/
def ofLetter? : Char → Option Permission
  | 'C' => some .consume
  | 'P' => some .publish
  | 'L' => some .list
  | 'R' => some .read
  | _ => none

/-- The permission with that name or that other spelling. -/
def ofSpelling? (s : String) : Option Permission :=
  match ofName? s with
  | some p => some p
  | none =>
    if s = "consume" then some .consume
    else if s = "publish" then some .publish
    else if s = "list" then some .list
    else if s = "can-read" then some .read
    else match s.toList with
      | [c] => ofLetter? c
      | _ => none

/-- Reads a permission in one of its spellings, white space around it aside. -/
def ofText (s : String) : Except PermissionError Permission :=
  let name := String.ofList (Blank.trim s.toList)
  match ofSpelling? name with
  | some p => .ok p
  | none => .error (.unknown name)

end Permission

/-- A set of permissions. -/
structure PermissionSet where
  consume : Bool
  publish : Bool
  list : Bool
  read : Bool
  deriving DecidableEq

namespace PermissionSet

/-- The set without a permission. -/
def empty : PermissionSet := ⟨false, false, false, false⟩

def contains (s : PermissionSet) : Permission → Bool
  | .consume => s.consume
  | .publish => s.publish
  | .list => s.list
  | .read => s.read

/-- Adds a permission. -/
def insert (s : PermissionSet) : Permission → PermissionSet
  | .consume => { s with consume := true }
  | .publish => { s with publish := true }
  | .list => { s with list := true }
  | .read => { s with read := true }

/-- The set of these permissions. -/
def ofList (ps : List Permission) : PermissionSet := ps.foldl insert empty

/-- The permissions in the set, in their order. -/
def toList (s : PermissionSet) : List Permission := Permission.all.filter s.contains

def isEmpty (s : PermissionSet) : Bool := s == empty

/-- The permission is in the set or follows from one that is. -/
def grants (s : PermissionSet) : Permission → Bool
  | .read => s.read || s.consume
  | p => s.contains p

/-- The names of the permissions, a comma between two. -/
def text (s : PermissionSet) : String := ",".intercalate (s.toList.map Permission.name)

/-- A comma, a hyphen or a small letter, none of which can stand among letters of permissions. -/
def isListSign (c : Char) : Bool := c = ',' || c = '-' || ('a' ≤ c && c ≤ 'z')

/-- Reads a list of permissions with commas between them, or a run of their letters; nothing but
white space is the empty set. -/
def ofText (s : String) : Except PermissionError PermissionSet :=
  let cs := Blank.trim s.toList
  if cs.any isListSign then
    ofList <$> (cs.splitOn ',').mapM fun item => Permission.ofText (String.ofList item)
  else
    ofList <$> cs.mapM fun c =>
      match Permission.ofLetter? c with
      | some p => .ok p
      | none => .error (.unknownLetter c)

end PermissionSet

end AccessWindows
