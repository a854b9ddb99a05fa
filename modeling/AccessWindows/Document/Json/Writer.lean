import AccessWindows.Document.Shortest
import AccessWindows.Document.Value
import AccessWindows.Text.Hex

/-!
# Writing JSON

Two layouts of the same document: `compact`, without any white space, and `pretty`, with each item
and each entry on a line of its own, two more spaces in front of it than its container has.

Inside strings only the quotation mark, the backslash and the control characters below the space
are escaped.
-/

namespace AccessWindows.Document.Json

/-- A character as it stands inside a string. -/
def escape (c : Char) : List Char :=
  if c = '"' then ['\\', '"']
  else if c = '\\' then ['\\', '\\']
  else if c = '\n' then ['\\', 'n']
  else if c = '\r' then ['\\', 'r']
  else if c = '\t' then ['\\', 't']
  else if c.toNat = 8 then ['\\', 'b']
  else if c.toNat = 12 then ['\\', 'f']
  else if c.toNat < 32 then
    ['\\', 'u', '0', '0', Hex.digit (c.toNat / 16), Hex.digit (c.toNat % 16)]
  else [c]

/-- A text between quotation marks. -/
def quoted (s : String) : String :=
  "\"" ++ String.ofList (s.toList.flatMap escape) ++ "\""

/-- The text of a key. -/
def keyText : Key → String
  | .name s => s
  | .place n => Decimal.text n
  | .unknown => ""
  | .improper => ""

/-- A number, which is written only when it is finite. -/
def realText (x : Binary64) : String :=
  if x.isFinite then String.ofList (Shortest.text x) else "null"

/-- A list of bytes, as their numbers. -/
def bytesText (b : List UInt8) : String :=
  "[" ++ ",".intercalate (b.map fun x => Decimal.text x.toNat) ++ "]"

mutual

/-- The document without white space. -/
def compact : Value → String
  | .null => "null"
  | .bool b => if b then "true" else "false"
  | .int n => Decimal.integerText n
  | .real x => realText x
  | .text s => quoted s
  | .bytes b => bytesText b
  | .list items => "[" ++ ",".intercalate (compactItems items) ++ "]"
  | .table entries => "\x7b" ++ ",".intercalate (compactEntries entries) ++ "\x7d"
  | .foreign => "null"

def compactItems : List Value → List String
  | [] => []
  | v :: rest => compact v :: compactItems rest

def compactEntries : List (Key × Value) → List String
  | [] => []
  | (k, v) :: rest => (quoted (keyText k) ++ ":" ++ compact v) :: compactEntries rest

end

/-- Lines between two brackets, at the indentation of the container. -/
def block (opening closing indent : String) (lines : List String) : String :=
  if lines.isEmpty then opening ++ closing
  else
    let inner := "\n" ++ indent ++ "  "
    opening ++ inner ++ ("," ++ inner).intercalate lines ++ "\n" ++ indent ++ closing

mutual

/-- The document with each part on a line of its own, the container standing at `indent`. -/
def prettyAt (indent : String) : Value → String
  | .list items => block "[" "]" indent (prettyItems (indent ++ "  ") items)
  | .table entries => block "\x7b" "\x7d" indent (prettyEntries (indent ++ "  ") entries)
  | v => compact v

def prettyItems (indent : String) : List Value → List String
  | [] => []
  | v :: rest => prettyAt indent v :: prettyItems indent rest

def prettyEntries (indent : String) : List (Key × Value) → List String
  | [] => []
  | (k, v) :: rest =>
    (quoted (keyText k) ++ ": " ++ prettyAt indent v) :: prettyEntries indent rest

end

/-- The document with each part on a line of its own. -/
def pretty (v : Value) : String := prettyAt "" v

mutual

/-- The same document, the entries of every table in the order of their keys. -/
def sortKeys : Value → Value
  | .list items => .list (sortKeysItems items)
  | .table entries =>
    .table ((sortKeysEntries entries).mergeSort fun a b => keyText a.1 ≤ keyText b.1)
  | v => v

def sortKeysItems : List Value → List Value
  | [] => []
  | v :: rest => sortKeys v :: sortKeysItems rest

def sortKeysEntries : List (Key × Value) → List (Key × Value)
  | [] => []
  | (k, v) :: rest => (k, sortKeys v) :: sortKeysEntries rest

end

end AccessWindows.Document.Json
