import AccessWindows.Calendar.Rfc3339
import AccessWindows.Document.Binary64
import AccessWindows.Document.Value

/-!
# Bare TOML values

What stands in a document without quotation marks or brackets: truth values, whole numbers,
floating-point numbers, dates and times.  Whole numbers fit in sixty-four bits and a sign; they may
be written to other bases, and a single underscore may stand between two digits.

No record of this library has a floating-point number or a date, so these are only checked, and
become foreign scalars.  A number above all finite ones is refused; one below all of them stands for
negative infinity.
-/

namespace AccessWindows.Document.Toml

/-- The value of a digit to some base, in either case. -/
def digitValue? (base : Nat) (c : Char) : Option Nat :=
  let n := c.toNat
  let v := if 48 ≤ n ∧ n ≤ 57 then n - 48
    else if 97 ≤ n ∧ n ≤ 102 then n - 87
    else if 65 ≤ n ∧ n ≤ 70 then n - 55
    else base
  if v < base then some v else none

/-- Digits to some base, behind those whose value is `acc`. -/
def digitsFrom? (base acc : Nat) : List Char → Option Nat
  | [] => some acc
  | '_' :: c :: cs => do digitsFrom? base (base * acc + (← digitValue? base c)) cs
  | c :: cs => do digitsFrom? base (base * acc + (← digitValue? base c)) cs

/-- A non-empty run of digits to some base, single underscores between them. -/
def natural? (base : Nat) : List Char → Option Nat
  | [] => none
  | c :: cs => do digitsFrom? base (← digitValue? base c) cs

/-- A decimal number, which begins with a zero only if that is all. -/
def decimal? : List Char → Option Nat
  | '0' :: _ :: _ => none
  | cs => natural? 10 cs

/-- The sign in front of a number, and the rest. -/
def sign : List Char → Bool × List Char
  | '-' :: cs => (true, cs)
  | '+' :: cs => (false, cs)
  | cs => (false, cs)

/-- A whole number. -/
def integer? (cs : List Char) : Option Int :=
  let value := match cs with
    | '0' :: 'x' :: ds => (natural? 16 ds).map Int.ofNat
    | '0' :: 'o' :: ds => (natural? 8 ds).map Int.ofNat
    | '0' :: 'b' :: ds => (natural? 2 ds).map Int.ofNat
    | _ =>
      let (negative, ds) := sign cs
      (decimal? ds).map fun n => if negative then -(n : Int) else n
  value.filter fun n => -9223372036854775808 ≤ n && n ≤ 9223372036854775807

/-- The exponent of a floating-point number; none is written for zero. -/
def exponent? : List Char → Option Int
  | [] => some 0
  | c :: cs =>
    let (negative, ds) := sign cs
    if c = 'e' ∨ c = 'E' then (natural? 10 ds).map fun n => if negative then -(n : Int) else n
    else none

/-- A digit or what may stand between two. -/
def isNumeral (c : Char) : Bool := (digitValue? 10 c).isSome || c = '_'

/-- A decimal number with a fraction, an exponent or both, without its sign: the magnitude nearest
to it. -/
def magnitude? (cs : List Char) : Option Nat := do
  let whole := cs.takeWhile isNumeral
  let rest := cs.dropWhile isNumeral
  let n ← decimal? whole
  match rest with
  | [] => none
  | '.' :: rest =>
    let fraction := rest.takeWhile isNumeral
    let places := fraction.countP (· != '_')
    let e ← exponent? (rest.dropWhile isNumeral)
    return Binary64.ofDecimal (n * Nat.pow 10 places + (← natural? 10 fraction)) (e - places)
  | rest => return Binary64.ofDecimal n (← exponent? rest)

/-- A floating-point number: one of the two words for what is not finite, or a decimal number that
is not above all finite ones. -/
def isFloat (cs : List Char) : Bool :=
  let (negative, ds) := sign cs
  if ds = ['i', 'n', 'f'] ∨ ds = ['n', 'a', 'n'] then true
  else (magnitude? ds).any fun m => negative || m < Binary64.infinity

/-- The time of day that fills a text. -/
def isTime (cs : List Char) : Bool :=
  match Calendar.time? cs with
  | some (_, []) => true
  | _ => false

/-- A date, a time of day, or both with or without an offset. -/
def isDateTime (cs : List Char) : Bool :=
  match Calendar.date? cs with
  | none => isTime cs
  | some (_, []) => true
  | some (_, rest) =>
    (Calendar.nanos? cs).isSome || (Calendar.separator? rest).any isTime

/-- The value of a bare word. -/
def scalar? (cs : List Char) : Option Value :=
  if cs = ['t', 'r', 'u', 'e'] then some (.bool true)
  else if cs = ['f', 'a', 'l', 's', 'e'] then some (.bool false)
  else
    match integer? cs with
    | some n => some (.int n)
    | none => if isFloat cs || isDateTime cs then some .foreign else none

end AccessWindows.Document.Toml
