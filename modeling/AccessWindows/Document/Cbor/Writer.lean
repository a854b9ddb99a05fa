import AccessWindows.Document.Value
import AccessWindows.Text.Utf8

/-!
# Writing CBOR

Heads are as short as their number allows.  Strings and maps give their size in advance; a list is
written open, its items followed by a break, and so is whatever is too large for a head to say.
-/

namespace AccessWindows.Document.Cbor

/-- A number in so many bytes, most significant first. -/
def bigEndian : Nat → Nat → List UInt8
  | 0, _ => []
  | count + 1, n => bigEndian count (n / 256) ++ [n.toUInt8]

/-- The shortest head of an item of that kind with that number. -/
def head (kind n : Nat) : List UInt8 :=
  let first (info : Nat) : UInt8 := (32 * kind + info).toUInt8
  if n < 24 then [first n]
  else if n < UInt8.size then first 24 :: bigEndian 1 n
  else if n < UInt16.size then first 25 :: bigEndian 2 n
  else if n < UInt32.size then first 26 :: bigEndian 4 n
  else first 27 :: bigEndian 8 n

/-- A whole number that fits in sixty-four bits and a sign. -/
def writeInt (n : Int) : List UInt8 :=
  if 0 ≤ n then head 0 n.toNat else head 1 (-1 - n).toNat

/-- The head of an item of that kind whose size is not given. -/
def openHead (kind : Nat) : UInt8 := (32 * kind + 31).toUInt8

/-- A string of either kind: its size and its bytes, or open and byte by byte. -/
def writeString (kind : Nat) (b : List UInt8) : List UInt8 :=
  if b.length < UInt64.size then head kind b.length ++ b
  else openHead kind :: b.flatMap (fun x => head kind 1 ++ [x]) ++ [0xff]

/-- A text as a string of its bytes. -/
def writeText (s : String) : List UInt8 := writeString 3 (Utf8.encode s)

/-- A key; only names are keys that are written. -/
def writeKey : Key → List UInt8
  | .name s => writeText s
  | .place n => head 0 n
  | .unknown => head 2 0
  | .improper => head 7 23

mutual

/-- The bytes of a document. -/
def write : Value → List UInt8
  | .null => head 7 22
  | .bool b => head 7 (if b then 21 else 20)
  | .int n => writeInt n
  | .real x => 0xfb :: bigEndian 8 x.bits.toNat
  | .text s => writeText s
  | .bytes b => writeString 2 b
  | .list items => openHead 4 :: (writeItems items ++ [0xff])
  | .table entries =>
    if entries.length < UInt64.size then head 5 entries.length ++ writeEntries entries
    else openHead 5 :: (writeEntries entries ++ [0xff])
  | .foreign => head 7 23

def writeItems : List Value → List UInt8
  | [] => []
  | v :: rest => write v ++ writeItems rest

def writeEntries : List (Key × Value) → List UInt8
  | [] => []
  | (k, v) :: rest => writeKey k ++ write v ++ writeEntries rest

end

end AccessWindows.Document.Cbor
