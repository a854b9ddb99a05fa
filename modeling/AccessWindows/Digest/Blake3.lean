/-!
# BLAKE3

The 256-bit BLAKE3 digest of a message.  The message is cut into chunks of 1024 bytes, the leaves
of a binary tree whose left subtrees are complete; a chunk is compressed block by block, a parent
is one compression of the chaining values of its children, and the root is compressed with a flag
of its own.

A node is kept as the input of its last compression, since only where it stands in the tree
decides whether that compression is the root's.
-/

namespace AccessWindows.Digest.Blake3

abbrev Words8 := Vector UInt32 8
abbrev Words16 := Vector UInt32 16

def initial : Words8 :=
  #v[0x6a09e667, 0xbb67ae85, 0x3c6ef372, 0xa54ff53a, 0x510e527f, 0x9b05688c, 0x1f83d9ab,
    0x5be0cd19]

/-- The order in which a round takes the message words of the round before. -/
def permutation : Vector (Fin 16) 16 := #v[2, 6, 3, 10, 7, 0, 4, 13, 1, 11, 12, 5, 9, 14, 15, 8]

def chunkStart : UInt32 := 1
def chunkEnd : UInt32 := 2
def parentFlag : UInt32 := 4
def rootFlag : UInt32 := 8

def rotateRight (x n : UInt32) : UInt32 := (x >>> n) ||| (x <<< (32 - n))

/-- Mixes two message words into a column or a diagonal of the state. -/
def quarter (v : Words16) (a b c d : Fin 16) (x y : UInt32) : Words16 :=
  let v := v.set a (v[a] + v[b] + x)
  let v := v.set d (rotateRight (v[d] ^^^ v[a]) 16)
  let v := v.set c (v[c] + v[d])
  let v := v.set b (rotateRight (v[b] ^^^ v[c]) 12)
  let v := v.set a (v[a] + v[b] + y)
  let v := v.set d (rotateRight (v[d] ^^^ v[a]) 8)
  let v := v.set c (v[c] + v[d])
  v.set b (rotateRight (v[b] ^^^ v[c]) 7)

/-- The four columns, then the four diagonals. -/
def round (v m : Words16) : Words16 :=
  let v := quarter v 0 4 8 12 m[0] m[1]
  let v := quarter v 1 5 9 13 m[2] m[3]
  let v := quarter v 2 6 10 14 m[4] m[5]
  let v := quarter v 3 7 11 15 m[6] m[7]
  let v := quarter v 0 5 10 15 m[8] m[9]
  let v := quarter v 1 6 11 12 m[10] m[11]
  let v := quarter v 2 7 8 13 m[12] m[13]
  quarter v 3 4 9 14 m[14] m[15]

/-- So many rounds, the message words permuted from each to the next. -/
def rounds : Nat → Words16 → Words16 → Words16
  | 0, v, _ => v
  | n + 1, v, m => rounds n (round v m) (permutation.map fun i => m[i])

/-- The input of one compression. -/
structure Node where
  chaining : Words8
  message : Words16
  counter : UInt64
  size : UInt32
  flags : UInt32

namespace Node

/-- The chaining value of a node under additional flags. -/
def compress (n : Node) (extra : UInt32) : Words8 :=
  let h := n.chaining
  let v : Words16 :=
    #v[h[0], h[1], h[2], h[3], h[4], h[5], h[6], h[7], initial[0], initial[1], initial[2],
      initial[3], n.counter.toUInt32, (n.counter >>> 32).toUInt32, n.size, n.flags ||| extra]
  let v := rounds 7 v n.message
  Vector.ofFn fun i => v[i] ^^^ v[i.val + 8]

end Node

/-- Sixteen little-endian words, missing bytes being zero. -/
def blockWords (bytes : List UInt8) : Words16 :=
  let a := bytes.toArray
  Vector.ofFn fun i =>
    let byte (k : Nat) : UInt32 := (a.getD (4 * i.val + k) 0).toUInt32
    byte 0 ||| byte 1 <<< 8 ||| byte 2 <<< 16 ||| byte 3 <<< 24

/-- The last compression of a chunk, `start` being the flag of its first block. -/
def chunk (chaining : Words8) (counter : UInt64) (start : UInt32) (bytes : List UInt8) : Node :=
  let node : Node := {
    chaining, counter, message := blockWords (bytes.take 64),
    size := UInt32.ofNat (min 64 bytes.length), flags := start }
  if 64 < bytes.length then chunk (node.compress 0) counter 0 (bytes.drop 64)
  else { node with flags := start ||| chunkEnd }
termination_by bytes.length
decreasing_by simp only [List.length_drop]; omega

/-- The parent of two nodes. -/
def parent (left right : Node) : Node where
  chaining := initial
  message := left.compress 0 ++ right.compress 0
  counter := 0
  size := 64
  flags := parentFlag

/-- The bytes in the left subtree: the largest power of two of chunks that leaves some over. -/
def leftSize (size : Nat) : Nat := 1024 * Nat.pow 2 ((size - 1) / 1024).log2

theorem leftSize_pos (size : Nat) : 0 < leftSize size :=
  Nat.mul_pos (by decide) (Nat.pow_pos (by decide))

theorem leftSize_lt {size : Nat} (h : 1024 < size) : leftSize size < size := by
  have : Nat.pow 2 ((size - 1) / 1024).log2 ≤ (size - 1) / 1024 := Nat.log2_self_le (by omega)
  unfold leftSize
  omega

/-- The node over a message whose first chunk has the given number. -/
def tree (index : Nat) (bytes : List UInt8) : Node :=
  if h : 1024 < bytes.length then
    let left := leftSize bytes.length
    parent (tree index (bytes.take left)) (tree (index + left / 1024) (bytes.drop left))
  else chunk initial (UInt64.ofNat index) chunkStart bytes
termination_by bytes.length
decreasing_by
  · simp only [List.length_take]; have := leftSize_lt h; omega
  · simp only [List.length_drop]; have := leftSize_pos bytes.length; omega

/-- The digest of a message, each word least significant byte first. -/
def digest (message : List UInt8) : Vector UInt8 32 :=
  let h := (tree 0 message).compress rootFlag
  Vector.ofFn fun i => (h[i.val / 4] >>> UInt32.ofNat (8 * (i.val % 4))).toUInt8

end AccessWindows.Digest.Blake3
