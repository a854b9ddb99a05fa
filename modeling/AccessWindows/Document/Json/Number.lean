import AccessWindows.Document.Value
import AccessWindows.Text.Decimal

/-!
# JSON numbers

A numeral without fraction and exponent denotes a whole number when it fits in sixty-four bits,
unsigned, or signed behind a minus sign; every other numeral denotes a binary64 number.  The
latter is read in one pass: the leading digits form a significand below `2 ^ 64`, the digits that
would not fit any more count as places when they stand before the point and as nothing behind it,
and the significand is scaled by one power of ten.  A number too large for binary64 is kept as a
foreign scalar, since it is an error only where it is used.
-/

namespace AccessWindows.Document.Json

/-- A numeral: its sign, the digits before and behind the point, and the exponent. -/
structure Numeral where
  negative : Bool
  whole : List Nat
  fraction : Option (List Nat)
  exponent : Option Int

namespace Numeral

/-- A non-empty run of digits, as digit values, and the rest. -/
def run? (cs : List Char) : Option (List Nat × List Char) :=
  match cs.takeWhile (fun c => (Decimal.digitValue? c).isSome) with
  | [] => none
  | ds => some (ds.filterMap Decimal.digitValue?, cs.drop ds.length)

/-- The digits before the point, which begin with a zero only if that is all. -/
def whole? (cs : List Char) : Option (List Nat × List Char) :=
  match run? cs with
  | some (0 :: _ :: _, _) => none
  | other => other

/-- The point and the digits behind it, if there are any. -/
def fraction? : List Char → Option (Option (List Nat) × List Char)
  | '.' :: cs => (run? cs).map fun (ds, rest) => (some ds, rest)
  | cs => some (none, cs)

/-- The exponent that ends a numeral, if there is one. -/
def exponent? : List Char → Option (Option Int)
  | [] => some none
  | c :: cs =>
    if c = 'e' ∨ c = 'E' then (Decimal.signed? cs).map some else none

/-- Reads a numeral that fills the text. -/
def ofChars? (cs : List Char) : Option Numeral := do
  let (negative, cs) := match cs with
    | '-' :: rest => (true, rest)
    | rest => (false, rest)
  let (whole, cs) ← whole? cs
  let (fraction, cs) ← fraction? cs
  let exponent ← exponent? cs
  return { negative, whole, fraction, exponent }

/-- Appends digits to a significand as long as it stays below `2 ^ 64`, and counts the rest. -/
def append (significand : Nat) : List Nat → Nat × Nat
  | [] => (significand, 0)
  | d :: ds =>
    if 10 * significand + d < UInt64.size then append (10 * significand + d) ds
    else (significand, (d :: ds).length)

/-- The binary64 number that a numeral denotes. -/
def toReal (n : Numeral) : Value :=
  let fraction := n.fraction.getD []
  let (significand, places) := append 0 n.whole
  let (significand, dropped) := append significand fraction
  let exponent := n.exponent.getD 0 + Int.ofNat places - Int.ofNat (fraction.length - dropped)
  match Binary64.scale? (Binary64.round significand 1) exponent with
  | some m => .real (Binary64.ofMagnitude n.negative m)
  | none => .foreign

/-- The value that a numeral denotes. -/
def toValue (n : Numeral) : Value :=
  let magnitude : Nat := n.whole.foldl (fun acc d => 10 * acc + d) 0
  if n.fraction.isSome ∨ n.exponent.isSome then n.toReal
  else if n.negative then
    if 0 < magnitude ∧ magnitude ≤ UInt64.size / 2 then .int (-Int.ofNat magnitude) else n.toReal
  else if magnitude < UInt64.size then .int (Int.ofNat magnitude) else n.toReal

end Numeral

end AccessWindows.Document.Json
