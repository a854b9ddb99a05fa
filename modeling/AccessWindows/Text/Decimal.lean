/-!
# Decimal numerals

Whole numbers as text.  `digits n` is the numeral of `n`, without leading zeros; `padded w n` is
the same numeral with zeros put in front until it has `w` digits.  `natural?` reads a run of
digits of any length, leading zeros included, and `signed?` one that a single sign may precede;
both refuse every other text, the empty one among them.

All of it works on lists of characters, so that a statement about a numeral is an induction over
its digits.
-/

namespace AccessWindows.Decimal

/-- The character of a digit below ten. -/
def digitChar (d : Nat) : Char := Char.ofNat (48 + d)

/-- The value of a digit character. -/
def digitValue? (c : Char) : Option Nat :=
  if 48 ≤ c.toNat ∧ c.toNat ≤ 57 then some (c.toNat - 48) else none

/-- The numeral of `n`, most significant digit first. -/
def digits (n : Nat) : List Char :=
  if n < 10 then [digitChar n] else digits (n / 10) ++ [digitChar (n % 10)]

/-- The numeral of `n`, with zeros in front up to `width` digits. -/
def padded (width n : Nat) : List Char :=
  List.replicate (width - (digits n).length) '0' ++ digits n

/-- The numeral of a whole number, a minus sign before a negative one. -/
def integer (n : Int) : List Char :=
  if n < 0 then '-' :: digits n.natAbs else digits n.natAbs

/-- The text of a natural number. -/
def text (n : Nat) : String := String.ofList (digits n)

/-- The text of a whole number. -/
def integerText (n : Int) : String := String.ofList (integer n)

/-- Reads the digits of `cs` after those already read, whose value is `acc`. -/
def accumulate? (acc : Nat) : List Char → Option Nat
  | [] => some acc
  | c :: cs =>
    match digitValue? c with
    | some d => accumulate? (10 * acc + d) cs
    | none => none

/-- A non-empty run of digits. -/
def natural? : List Char → Option Nat
  | [] => none
  | c :: cs => accumulate? 0 (c :: cs)

/-- A run of digits behind at most one sign. -/
def signed? : List Char → Option Int
  | '-' :: cs => (natural? cs).map fun n => -(n : Int)
  | '+' :: cs => (natural? cs).map Int.ofNat
  | cs => (natural? cs).map Int.ofNat

/-- A run of digits behind at most one plus sign. -/
def unsigned? : List Char → Option Nat
  | '+' :: cs => natural? cs
  | cs => natural? cs

end AccessWindows.Decimal
