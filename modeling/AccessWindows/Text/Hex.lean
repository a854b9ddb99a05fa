/-!
# Hexadecimal bytes

Bytes as pairs of hexadecimal digits, the high half first.  Writing uses lower case, reading
accepts both cases.  What reading refuses it refuses for the first of two reasons that applies:
the number of digits is odd, or some digit is none, in which case the first such is named.
-/

namespace AccessWindows.Hex

/-- The digit of a number below sixteen. -/
def digit (n : Nat) : Char := if n < 10 then Char.ofNat (48 + n) else Char.ofNat (87 + n)

/-- The two digits of a byte. -/
def byte (b : UInt8) : List Char := [digit (b.toNat / 16), digit (b.toNat % 16)]

/-- The digits of some bytes. -/
def encode (bs : List UInt8) : String := String.ofList (bs.flatMap byte)

/-- The value of a digit, given as its ASCII code. -/
def value? (code : UInt8) : Option UInt8 :=
  if 48 ≤ code ∧ code ≤ 57 then some (code - 48)
  else if 97 ≤ code ∧ code ≤ 102 then some (code - 87)
  else if 65 ≤ code ∧ code ≤ 70 then some (code - 55)
  else none

/-- Why a text is no sequence of bytes. -/
inductive Malformed where
  | oddLength
  /-- The byte of the text at that place is no digit. -/
  | badDigit (code : UInt8) (index : Nat)
  deriving DecidableEq

/-- Reads the pairs of digits from the given place on. -/
def decodeFrom (index : Nat) : List UInt8 → Except Malformed (List UInt8)
  | high :: low :: rest =>
    match value? high, value? low with
    | some h, some l => (decodeFrom (index + 2) rest).map ((16 * h + l) :: ·)
    | none, _ => .error (.badDigit high index)
    | _, none => .error (.badDigit low (index + 1))
  | _ => .ok []

/-- Reads a text, given as its bytes, as pairs of digits. -/
def decode (text : List UInt8) : Except Malformed (List UInt8) :=
  if text.length % 2 = 1 then .error .oddLength else decodeFrom 0 text

end AccessWindows.Hex
