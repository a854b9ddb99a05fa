import AccessWindows.Document.Toml.Text
import AccessWindows.Document.Toml.Tree

/-!
# Reading TOML

A document is a sequence of lines, each with an assignment, a header or nothing, and perhaps a
comment.  Assignments above the first header belong to the document itself.

Lists and inline tables nest only so deep, and a key leads no deeper; the depth that is left is the
argument on which the reader of values recurses.  Between the items of a list there may be line ends
and comments, between the entries of an inline table only spaces and tabs.
-/

namespace AccessWindows.Document.Toml

/-- Takes some characters off the front of the input and makes a result of them, or refuses. -/
abbrev Reader := StateT (List Char) Option

namespace Reader

def refuse {α : Type} : Reader α := fun _ => none

/-- The next character, which is left where it is. -/
def peek : Reader (Option Char) := fun cs => some (cs.head?, cs)

/-- Passes over a character that must come next. -/
def expect (c : Char) : Reader Unit := fun
  | d :: rest => if c = d then some ((), rest) else none
  | [] => none

/-- Passes over spaces and tabs. -/
def gap : Reader Unit := fun cs => some ((), cs.dropWhile isGap)

/-- The longest run of characters that satisfy `p`. -/
def run (p : Char → Bool) : Reader (List Char) := fun cs => some (cs.takeWhile p, cs.dropWhile p)

/-- A line end is at the start of the text. -/
def atLineEnd : List Char → Bool
  | '\n' :: _ => true
  | '\r' :: '\n' :: _ => true
  | _ => false

/-- Passes over a comment, if one begins here. -/
def comment : Reader Unit := fun
  | '\x23' :: cs =>
    let rest := cs.dropWhile isPrinting
    if rest.isEmpty || atLineEnd rest then some ((), rest) else none
  | cs => some ((), cs)

/-- Passes over what may stand behind an assignment or a header, up to the next line. -/
def lineEnd : Reader Unit := do
  gap
  comment
  fun cs => if cs.isEmpty || atLineEnd cs then some ((), dropLineEnd cs) else none

/-- Passes over spaces, tabs, line ends and comments.  Each round ends one line, so the number of
characters bounds the rounds. -/
def blankLines : Nat → Reader Unit
  | 0 => gap
  | rounds + 1 => do
    gap
    comment
    fun cs => if atLineEnd cs then blankLines rounds (dropLineEnd cs) else some ((), cs)

def blank : Reader Unit := fun cs => blankLines cs.length cs

/-- A character of a bare key. -/
def isKeyChar (c : Char) : Bool := c.isAlphanum || c = '_' || c = '-'

/-- One part of a key: bare, or a string on one line. -/
def keyPart : Reader String := fun cs =>
  match cs with
  | '"' :: rest => (basic? rest).map fun r => (String.ofList r.1, r.2)
  | '\x27' :: rest => (literal? rest).map fun r => (String.ofList r.1, r.2)
  | _ =>
    let part := cs.takeWhile isKeyChar
    if part.isEmpty then none else some (String.ofList part, cs.dropWhile isKeyChar)

/-- The parts of a dotted key. -/
def keyParts : Nat → Reader (List String)
  | 0 => refuse
  | rounds + 1 => do
    let part ← keyPart
    gap
    if (← peek) = some '.' then
      expect '.'
      gap
      return part :: (← keyParts rounds)
    else return [part]

/-- How many parts a key may have, and how deep lists and inline tables may nest. -/
def depthLimit : Nat := 79

/-- A key: the parts before the last one, and the last one. -/
def key : Reader (List String × String) := fun cs => (do
  let parts ← keyParts cs.length
  if depthLimit < parts.length then refuse
  match parts.getLast? with
  | some last => return (parts.dropLast, last)
  | none => refuse) cs

/-- A character of a bare value. -/
def isScalarChar (c : Char) : Bool := c.isAlphanum || "+-_.:".toList.contains c

/-- A bare value.  A date may have its time of day behind a space. -/
def scalar : Reader Value := do
  let word ← run isScalarChar
  let more ← fun cs => match cs with
    | ' ' :: d :: _ =>
      if (Calendar.date? word).any (·.2.isEmpty) && d.isDigit then
        some (' ' :: (cs.drop 1).takeWhile isScalarChar, (cs.drop 1).dropWhile isScalarChar)
      else some ([], cs)
    | _ => some ([], cs)
  match scalar? (word ++ more) with
  | some v => return v
  | none => refuse

/-- The items of a list behind its bracket, each read by `item`, up to the closing bracket. -/
def items (item : Reader Value) : Nat → Reader (List Value)
  | 0 => refuse
  | rounds + 1 => do
    blank
    if (← peek) = some ']' then
      expect ']'
      return []
    let v ← item
    blank
    if (← peek) = some ',' then
      expect ','
      return v :: (← items item rounds)
    else
      expect ']'
      return [v]

/-- A key and its value. -/
def assignment (value : Reader Value) : Reader Assignment := do
  let (path, key) ← key
  gap
  expect '='
  gap
  return { path, key, value := ← value }

/-- The entries of an inline table that has some, up to the closing brace. -/
def entries (value : Reader Value) : Nat → Reader (List Assignment)
  | 0 => refuse
  | rounds + 1 => do
    gap
    let a ← assignment value
    gap
    if (← peek) = some ',' then
      expect ','
      return a :: (← entries value rounds)
    else
      expect '\x7d'
      return [a]

/-- An inline table behind its brace. -/
def inlineTable (value : Reader Value) : Reader Value := do
  gap
  if (← peek) = some '\x7d' then
    expect '\x7d'
    return .table []
  let as ← fun cs => entries value cs.length cs
  match tableOf? as with
  | some v => return v
  | none => refuse

/-- A value whose parts are read by `nested`; it must have none where there is no such reader. -/
def valueOver (nested : Option (Reader Value)) : Reader Value := do
  match ← peek, nested with
  | some '"', _ => fun cs => (string? cs).map fun r => (.text (String.ofList r.1), r.2)
  | some '\x27', _ => fun cs => (string? cs).map fun r => (.text (String.ofList r.1), r.2)
  | some '[', some nested => do
    expect '['
    return .list (← fun cs => items nested cs.length cs)
  | some '\x7b', some nested => do
    expect '\x7b'
    inlineTable nested
  | _, _ => scalar

/-- A value that nests at most so deep. -/
def value : Nat → Reader Value
  | 0 => valueOver none
  | depth + 1 => valueOver (some (value depth))

/-- The path and the last key of a header, and whether it is one of a list. -/
def header : Reader (List String × String × Bool) := do
  expect '['
  let repeated := (← peek) = some '['
  if repeated then expect '['
  gap
  let (path, key) ← key
  gap
  expect ']'
  if repeated then expect ']'
  lineEnd
  return (path, key, repeated)

/-- The assignments up to the next header or the end of the document. -/
def assignments : Nat → Reader (List Assignment)
  | 0 => pure []
  | rounds + 1 => do
    blank
    match ← peek with
    | none => return []
    | some '[' => return []
    | some _ =>
      let a ← assignment (value depthLimit)
      lineEnd
      return a :: (← assignments rounds)

/-- The sections up to the end of the document. -/
def sections : Nat → Reader (List Section)
  | 0 => pure []
  | rounds + 1 => do
    match ← peek with
    | none => return []
    | some _ =>
      let (path, key, repeated) ← header
      let assignments ← fun cs => assignments (cs.length + 1) cs
      return { path, key, repeated, assignments } :: (← sections rounds)

/-- The assignments at the top of a document, and its sections. -/
def document : Reader (List Assignment × List Section) := fun cs => (do
  let top ← assignments (cs.length + 1)
  return (top, ← sections (cs.length + 1))) cs

end Reader

/-- The document that fills a text.  A byte order mark at its start is passed over. -/
def read? (text : String) : Option Value := do
  let cs := match text.toList with
    | '\ufeff' :: rest => rest
    | cs => cs
  match Reader.document cs with
  | some ((top, sections), []) => document? top sections
  | _ => none

end AccessWindows.Document.Toml
