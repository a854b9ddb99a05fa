import AccessWindows.Digest.Sha1
import AccessWindows.Failure
import AccessWindows.Text.Hex
import AccessWindows.Text.Quoted
import AccessWindows.Text.Utf8

/-!
# Identities

Who asks, what was recorded, and which payload is meant: a `Principal` is any text, a `StreamId` a
128-bit identifier derived from a name or read from one of its usual spellings, and a
`CredentialHash` thirty-two bytes that are read and written as hexadecimal digits.
-/

namespace AccessWindows

/-- Whoever asks for or passes on a permission. -/
structure Principal where
  name : String
  deriving DecidableEq

/-- The identifier of a stream of records, a number below `2 ^ 128`. -/
structure StreamId where
  bits : BitVec 128
  deriving DecidableEq

namespace StreamId

/-- Identifiers in the order of their bytes, most significant first. -/
instance : LE StreamId := ⟨fun a b => a.bits ≤ b.bits⟩
instance (a b : StreamId) : Decidable (a ≤ b) := inferInstanceAs (Decidable (a.bits ≤ b.bits))

/-- The number whose digits to the base 256 are these bytes, as an identifier. -/
def ofBytes (bytes : List UInt8) : StreamId :=
  ⟨.ofNat 128 (bytes.foldl (fun n b => 256 * n + b.toNat) 0)⟩

/-- The identifiers of names are derived within the name space of URLs. -/
def nameSpace : List UInt8 :=
  [0x6b, 0xa7, 0xb8, 0x11, 0x9d, 0xad, 0x11, 0xd1, 0x80, 0xb4, 0x00, 0xc0, 0x4f, 0xd4, 0x30, 0xc8]

/-- Marks sixteen bytes as an identifier of version five, in the usual variant. -/
def marked (bytes : List UInt8) : List UInt8 :=
  bytes.zipIdx.map fun (b, i) =>
    if i = 6 then b &&& 0x0f ||| 0x50 else if i = 8 then b &&& 0x3f ||| 0x80 else b

/-- The identifier of a name: the beginning of a digest over name space and name, marked. -/
def ofName (name : String) : StreamId :=
  let digest := Digest.Sha1.digest (nameSpace ++ Utf8.encode name)
  ofBytes (marked ((digest.toList.flatMap Digest.Sha1.wordBytes).take 16))

/-- The thirty-two digits, most significant first. -/
def digits (id : StreamId) : List Char :=
  (List.range 32).map fun i => Hex.digit ((id.bits.toNat >>> (4 * (31 - i))) % 16)

/-- The digits in groups of eight, four, four, four and twelve, a hyphen between two. -/
def text (id : StreamId) : String :=
  let ds := id.digits
  String.ofList (ds.take 8 ++ '-' :: (ds.drop 8).take 4 ++ '-' :: (ds.drop 12).take 4 ++
    '-' :: (ds.drop 16).take 4 ++ '-' :: ds.drop 20)

/-- The value of a digit in either case. -/
def digitValue? (c : Char) : Option Nat :=
  if c.toNat < 128 then (Hex.value? c.toNat.toUInt8).map UInt8.toNat else none

/-- Reads thirty-two digits. -/
def ofDigits? (cs : List Char) : Option StreamId :=
  if cs.length = 32 then do
    let ds ← cs.mapM digitValue?
    return ⟨.ofNat 128 (ds.foldl (fun n d => 16 * n + d) 0)⟩
  else none

/-- Reads digits in groups, hyphens between them. -/
def ofGroups? (cs : List Char) : Option StreamId :=
  if cs.length = 36 ∧ cs[8]? = some '-' ∧ cs[13]? = some '-' ∧ cs[18]? = some '-' ∧
      cs[23]? = some '-' then
    ofDigits? (cs.take 8 ++ (cs.drop 9).take 4 ++ (cs.drop 14).take 4 ++ (cs.drop 19).take 4 ++
      cs.drop 24)
  else none

/-- The text starts like an identifier that is written as a resource name, in either case. -/
def isResourceName (cs : List Char) : Bool :=
  (cs.take 9).map Char.toLower = ['u', 'r', 'n', ':', 'u', 'u', 'i', 'd', ':']

/-- Reads an identifier in groups, which may stand in braces or be written as a resource name, or
as bare digits. -/
def ofText? (s : String) : Option StreamId :=
  let cs := s.toList
  if cs.length = 32 then ofDigits? cs
  else if cs.length = 36 then ofGroups? cs
  else if cs.length = 38 ∧ cs.head? = some '\x7b' ∧ cs.getLast? = some '\x7d' then
    ofGroups? (cs.drop 1).dropLast
  else if cs.length = 45 ∧ isResourceName cs then ofGroups? (cs.drop 9)
  else none

end StreamId

/-- The digest of an encoded credential. -/
structure CredentialHash where
  bytes : Vector UInt8 32
  deriving DecidableEq

/-- Why a text is no credential hash. -/
inductive HashError where
  | notHex (cause : Hex.Malformed)
  | wrongSize (size : Nat)
  deriving DecidableEq

/-- What is wrong with the text of a credential hash. -/
def HashError.message : HashError → String
  | .notHex .oddLength => "credential hash is not hex: Odd number of digits"
  | .notHex (.badDigit code index) =>
    "credential hash is not hex: Invalid character " ++ Quoted.byte code ++ " at position " ++
      Decimal.text index
  | .wrongSize size => "credential hash must be 32 bytes, got " ++ Decimal.text size

namespace CredentialHash

/-- The sixty-four digits. -/
def hex (h : CredentialHash) : String := Hex.encode h.bytes.toList

/-- The first twelve digits, enough to recognise a hash. -/
def short (h : CredentialHash) : String := Hex.encode (h.bytes.toList.take 6)

/-- Thirty-two bytes as a hash. -/
def ofBytes? (bytes : List UInt8) : Option CredentialHash :=
  if h : bytes.length = 32 then some ⟨⟨bytes.toArray, h⟩⟩ else none

/-- Reads sixty-four digits, in either case. -/
def ofText (s : String) : Except HashError CredentialHash :=
  match Hex.decode (Utf8.encode s) with
  | .error cause => .error (.notHex cause)
  | .ok bytes =>
    match ofBytes? bytes with
    | some h => .ok h
    | none => .error (.wrongSize bytes.length)

/-- The hash as it is named in diagnostics. -/
def label (h : CredentialHash) : String := "CredentialHash(" ++ h.short ++ ")"

end CredentialHash

end AccessWindows
