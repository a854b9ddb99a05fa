/-!
# SHA-1

The 160-bit digest of a message, as five 32-bit words.  It serves to derive name-based identifiers
and is not relied on for more.
-/

namespace AccessWindows.Digest.Sha1

/-- The five words that one block after the other is mixed into. -/
abbrev State := Vector UInt32 5

def initial : State := #v[0x67452301, 0xefcdab89, 0x98badcfe, 0x10325476, 0xc3d2e1f0]

def rotateLeft (x n : UInt32) : UInt32 := (x <<< n) ||| (x >>> (32 - n))

/-- Big-endian words, four bytes each. -/
def words : List UInt8 → List UInt32
  | a :: b :: c :: d :: rest =>
    (a.toUInt32 <<< 24 ||| b.toUInt32 <<< 16 ||| c.toUInt32 <<< 8 ||| d.toUInt32) :: words rest
  | _ => []

/-- The four bytes of a word, most significant first. -/
def wordBytes (w : UInt32) : List UInt8 :=
  [(w >>> 24).toUInt8, (w >>> 16).toUInt8, (w >>> 8).toUInt8, w.toUInt8]

/-- The message behind which a one bit, zeros and its length in bits fill the last block. -/
def padded (message : List UInt8) : List UInt8 :=
  let bits := UInt64.ofNat (8 * message.length)
  let zeros := (119 - message.length % 64) % 64
  message ++ [(0x80 : UInt8)] ++ List.replicate zeros (0 : UInt8) ++
    wordBytes (bits >>> 32).toUInt32 ++ wordBytes bits.toUInt32

/-- The words of a block, each later one from four earlier ones, up to `count` more. -/
def extend : Nat → Array UInt32 → Array UInt32
  | 0, w => w
  | count + 1, w =>
    let back (n : Nat) : UInt32 := w.getD (w.size - n) 0
    extend count (w.push (rotateLeft (back 3 ^^^ back 8 ^^^ back 14 ^^^ back 16) 1))

/-- The function and the constant of a round. -/
def choice (round : Nat) (b c d : UInt32) : UInt32 × UInt32 :=
  if round < 20 then ((b &&& c) ||| (~~~b &&& d), 0x5a827999)
  else if round < 40 then (b ^^^ c ^^^ d, 0x6ed9eba1)
  else if round < 60 then ((b &&& c) ||| (b &&& d) ||| (c &&& d), 0x8f1bbcdc)
  else (b ^^^ c ^^^ d, 0xca62c1d6)

def round (s : State) (index : Nat) (word : UInt32) : State :=
  let (f, k) := choice index s[1] s[2] s[3]
  #v[rotateLeft s[0] 5 + f + s[4] + k + word, s[0], rotateLeft s[1] 30, s[2], s[3]]

/-- Mixes one block of sixteen words into the state. -/
def block (s : State) (input : List UInt32) : State :=
  let schedule := (extend 64 input.toArray).toList
  let mixed := schedule.zipIdx.foldl (fun t (word, index) => round t index word) s
  s.zipWith (· + ·) mixed

/-- Mixes all blocks into the state. -/
def blocks (s : State) (input : List UInt32) : State :=
  if input.length < 16 then s
  else blocks (block s (input.take 16)) (input.drop 16)
termination_by input.length
decreasing_by simp only [List.length_drop]; omega

/-- The digest of a message. -/
def digest (message : List UInt8) : State := blocks initial (words (padded message))

end AccessWindows.Digest.Sha1
