import AccessWindows.Text.Hex

/-!
# Quoted characters

How a single byte is shown in a message: as the character of that code between apostrophes, with a
backslash in front of the apostrophe and the backslash, short names for the common controls, and
`\u` with the code in braces for every other character that does not print.
-/

namespace AccessWindows.Quoted

/-- The characters below 256 that do not print: the controls, the no-break space and the soft
hyphen. -/
def isHidden (code : Nat) : Bool :=
  code < 32 || (127 ≤ code && code ≤ 160) || code = 173

/-- The hexadecimal numeral of a byte, without a leading zero. -/
def shortHex (code : Nat) : List Char :=
  if code < 16 then [Hex.digit code] else [Hex.digit (code / 16), Hex.digit (code % 16)]

/-- The character of that code as it is shown within the apostrophes. -/
def shown (code : Nat) : List Char :=
  if code = 0 then ['\\', '0']
  else if code = 9 then ['\\', 't']
  else if code = 10 then ['\\', 'n']
  else if code = 13 then ['\\', 'r']
  else if code = 39 then ['\\', '\x27']
  else if code = 92 then ['\\', '\\']
  else if isHidden code then '\\' :: 'u' :: '\x7b' :: shortHex code ++ ['\x7d']
  else [Char.ofNat code]

/-- The character of a byte, between apostrophes. -/
def byte (b : UInt8) : String := String.ofList ('\x27' :: shown b.toNat ++ ['\x27'])

end AccessWindows.Quoted
