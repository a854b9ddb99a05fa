import AccessWindows.Document.Toml.Scalar

/-!
# TOML strings

Four kinds of string: between quotation marks, with escapes, or between apostrophes, without; and
each of them on one line, or on several between three marks.  A string on several lines leaves out
a line end right behind its opening, may hold one or two of its marks in a row, also in front of
its closing, and has every line end as a bare line feed.  Between quotation marks a backslash at
the end of a line takes the line end away, with all white space behind it.

Each function gets the characters behind the opening, and gives the text and what is behind the
closing.
-/

namespace AccessWindows.Document.Toml

/-- A character that may stand for itself: a tab, or anything but a control character. -/
def isPrinting (c : Char) : Bool :=
  let n := c.toNat
  n = 9 || (32 ≤ n && n ≤ 126) || 128 ≤ n

/-- Space and tab. -/
def isGap (c : Char) : Bool := c = ' ' || c = '\t'

/-- The character that a one-letter escape spells. -/
def unescape? : Char → Option Char
  | '"' => some '"'
  | '\\' => some '\\'
  | 'b' => some (Char.ofNat 8)
  | 'f' => some (Char.ofNat 12)
  | 'n' => some '\n'
  | 'r' => some '\r'
  | 't' => some '\t'
  | _ => none

/-- The character with that code, written with hexadecimal digits. -/
def codePoint? (ds : List Char) : Option Char := do
  let ds ← ds.mapM (digitValue? 16)
  let n := ds.foldl (fun acc d => 16 * acc + d) 0
  if n.isValidChar then some (Char.ofNat n) else none

/-- A text with one more character in front, and what is behind it. -/
def pushFront (c : Char) (r : List Char × List Char) : List Char × List Char := (c :: r.1, r.2)

/-- A string between quotation marks. -/
def basic? : List Char → Option (List Char × List Char)
  | [] => none
  | '"' :: rest => some ([], rest)
  | '\\' :: 'u' :: a :: b :: c :: d :: rest => do
    return pushFront (← codePoint? [a, b, c, d]) (← basic? rest)
  | '\\' :: 'U' :: a :: b :: c :: d :: e :: f :: g :: h :: rest => do
    return pushFront (← codePoint? [a, b, c, d, e, f, g, h]) (← basic? rest)
  | '\\' :: c :: rest => do return pushFront (← unescape? c) (← basic? rest)
  | c :: rest => do if isPrinting c then return pushFront c (← basic? rest) else none

/-- A string between apostrophes. -/
def literal? : List Char → Option (List Char × List Char)
  | [] => none
  | '\x27' :: rest => some ([], rest)
  | c :: rest => do if isPrinting c then return pushFront c (← literal? rest) else none

/-- Where a string on several lines stands. -/
inductive Joint where
  /-- In its text. -/
  | none
  /-- Behind a backslash, before the end of its line. -/
  | opened
  /-- Behind a backslash and the end of its line. -/
  | crossed
  deriving DecidableEq

/-- A string between three quotation marks. -/
def basicLines? (joint : Joint) (cs : List Char) : Option (List Char × List Char) :=
  match joint, cs with
  | .opened, '\n' :: rest => basicLines? .crossed rest
  | .opened, '\r' :: '\n' :: rest => basicLines? .crossed rest
  | .opened, c :: rest => if isGap c then basicLines? .opened rest else none
  | .opened, [] => none
  | .crossed, '\n' :: rest => basicLines? .crossed rest
  | .crossed, '\r' :: '\n' :: rest => basicLines? .crossed rest
  | .crossed, ' ' :: rest => basicLines? .crossed rest
  | .crossed, '\t' :: rest => basicLines? .crossed rest
  | _, '"' :: '"' :: '"' :: '"' :: '"' :: rest => some (['"', '"'], rest)
  | _, '"' :: '"' :: '"' :: '"' :: rest => some (['"'], rest)
  | _, '"' :: '"' :: '"' :: rest => some ([], rest)
  | _, '\\' :: 'u' :: a :: b :: c :: d :: rest => do
    return pushFront (← codePoint? [a, b, c, d]) (← basicLines? .none rest)
  | _, '\\' :: 'U' :: a :: b :: c :: d :: e :: f :: g :: h :: rest => do
    return pushFront (← codePoint? [a, b, c, d, e, f, g, h]) (← basicLines? .none rest)
  | _, '\\' :: '\n' :: rest => basicLines? .crossed rest
  | _, '\\' :: '\r' :: '\n' :: rest => basicLines? .crossed rest
  | _, '\\' :: c :: rest =>
    if isGap c then basicLines? .opened rest
    else do return pushFront (← unescape? c) (← basicLines? .none rest)
  | _, '\r' :: '\n' :: rest => do return pushFront '\n' (← basicLines? .none rest)
  | _, c :: rest => do
    if c = '\n' ∨ isPrinting c then return pushFront c (← basicLines? .none rest) else none
  | _, [] => none
termination_by cs.length

/-- A string between three apostrophes. -/
def literalLines? : List Char → Option (List Char × List Char)
  | '\x27' :: '\x27' :: '\x27' :: '\x27' :: '\x27' :: rest => some (['\x27', '\x27'], rest)
  | '\x27' :: '\x27' :: '\x27' :: '\x27' :: rest => some (['\x27'], rest)
  | '\x27' :: '\x27' :: '\x27' :: rest => some ([], rest)
  | '\r' :: '\n' :: rest => do return pushFront '\n' (← literalLines? rest)
  | c :: rest => do
    if c = '\n' ∨ isPrinting c then return pushFront c (← literalLines? rest) else none
  | [] => none

/-- Leaves out a line end at the start. -/
def dropLineEnd : List Char → List Char
  | '\n' :: rest => rest
  | '\r' :: '\n' :: rest => rest
  | cs => cs

/-- The string at the start of a text, of any kind, and what is behind it. -/
def string? : List Char → Option (List Char × List Char)
  | '"' :: '"' :: '"' :: rest => basicLines? .none (dropLineEnd rest)
  | '"' :: rest => basic? rest
  | '\x27' :: '\x27' :: '\x27' :: rest => literalLines? (dropLineEnd rest)
  | '\x27' :: rest => literal? rest
  | _ => none

end AccessWindows.Document.Toml
