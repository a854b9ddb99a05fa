import AccessWindows.Document.Value
import AccessWindows.Text.Utf8

/-!
# Reading CBOR

A data item is a head, which gives the kind of the item and a number, followed by what the kind and
the number call for: bytes of a string, items of a list, entries of a map.  A string, a list or a
map may instead be open, and then ends with a break.  Tags are passed over.

Items nest only so deep: lists, maps and tags together 127 levels.  The depth that is left is the
argument on which the reader recurses.

Where an item stands as a key it names a field: by its name if it is a text, or bytes that spell
one, by its place if it is an unsigned number.  A number written in two or four bytes is no place,
and no other item can be a field's key.
-/

namespace AccessWindows.Document.Cbor

/-- Takes some bytes off the front of the input and makes a result of them, or refuses. -/
abbrev Reader := StateT (List UInt8) Option

/-- An item, and what it says as the key of an entry. -/
structure Item where
  value : Value
  key : Key

namespace Reader

def refuse {α : Type} : Reader α := fun _ => none

/-- The next byte. -/
def byte : Reader UInt8 := fun
  | [] => none
  | b :: rest => some (b, rest)

/-- The next `n` bytes. -/
def take (n : Nat) : Reader (List UInt8) := fun input =>
  if n ≤ input.length then some (input.take n, input.drop n) else none

/-- An unsigned number in the next `n` bytes, most significant first. -/
def number (n : Nat) : Reader Nat := do
  return (← take n).foldl (fun acc b => 256 * acc + b.toNat) 0

/-- The number of a head, from its low five bits and the bytes these call for. -/
def argument (info : Nat) : Reader Nat :=
  if info < 24 then pure info
  else if info = 24 then number 1
  else if info = 25 then number 2
  else if info = 26 then number 4
  else if info = 27 then number 8
  else refuse

/-- So many times the same. -/
def times {α : Type} (read : Reader α) : Nat → Reader (List α)
  | 0 => pure []
  | n + 1 => do
    let a ← read
    return a :: (← times read n)

/-- The same again and again up to a break, at most as often as the first argument says. -/
def upToBreak {α : Type} (read : Reader α) : Nat → Reader (List α)
  | 0 => refuse
  | n + 1 => fun
    | 0xff :: rest => some ([], rest)
    | input => (do
        let a ← read
        return a :: (← upToBreak read n)) input

/-- The same up to a break.  No reader that is repeated leaves the input as it was, so the number
of bytes bounds the repetitions. -/
def openEnded {α : Type} (read : Reader α) : Reader (List α) := fun input =>
  upToBreak read input.length input

/-- A piece of an open string, of the same kind as the whole. -/
def piece (kind : Nat) : Reader (List UInt8) := do
  let head ← byte
  if head.toNat / 32 = kind then take (← argument (head.toNat % 32)) else refuse

/-- The bytes of a string of either kind. -/
def string (kind info : Nat) : Reader (List UInt8) :=
  if info = 31 then List.flatten <$> openEnded (piece kind) else do take (← argument info)

/-- An unsigned number. -/
def unsigned (info : Nat) : Reader Item := do
  let n ← argument info
  return ⟨.int n, if info = 25 ∨ info = 26 then .improper else .place n⟩

/-- A negative number, which must fit in sixty-four bits. -/
def negative (info : Nat) : Reader Item := do
  let n ← argument info
  if n < UInt64.size / 2 then return ⟨.int (-1 - n), .improper⟩ else refuse

def bytes (info : Nat) : Reader Item := do
  let b ← string 2 info
  return ⟨.bytes b, match Utf8.decode? b with | some s => .name s | none => .unknown⟩

def text (info : Nat) : Reader Item := do
  match Utf8.decode? (← string 3 info) with
  | some s => return ⟨.text s, .name s⟩
  | none => refuse

def list (nested : Reader Item) (info : Nat) : Reader Item := do
  let items ← if info = 31 then openEnded nested else do times nested (← argument info)
  return ⟨.list (items.map Item.value), .improper⟩

def table (nested : Reader Item) (info : Nat) : Reader Item := do
  let entry : Reader (Key × Value) := do
    let k ← nested
    let v ← nested
    return (k.key, v.value)
  let entries ← if info = 31 then openEnded entry else do times entry (← argument info)
  return ⟨.table entries, .improper⟩

/-- A truth value, nothing, or a floating-point number. -/
def simple (info : Nat) : Reader Item :=
  if info = 20 then pure ⟨.bool false, .improper⟩
  else if info = 21 then pure ⟨.bool true, .improper⟩
  else if info = 22 ∨ info = 23 then pure ⟨.null, .improper⟩
  else if info = 25 then do let _ ← take 2; return ⟨.foreign, .improper⟩
  else if info = 26 then do let _ ← take 4; return ⟨.foreign, .improper⟩
  else if info = 27 then do return ⟨.real ⟨(← number 8).toUInt64⟩, .improper⟩
  else refuse

/-- An item whose parts are read by `nested`; it must have none where there is no such reader. -/
def itemOver (nested : Option (Reader Item)) : Reader Item := do
  let head ← byte
  let info := head.toNat % 32
  match head.toNat / 32, nested with
  | 0, _ => unsigned info
  | 1, _ => negative info
  | 2, _ => bytes info
  | 3, _ => text info
  | 4, some nested => list nested info
  | 5, some nested => table nested info
  | 6, some nested => do let _ ← argument info; nested
  | 7, _ => simple info
  | _, _ => refuse

/-- An item that nests at most so deep. -/
def item : Nat → Reader Item
  | 0 => itemOver none
  | depth + 1 => itemOver (some (item depth))

end Reader

/-- How deep items may nest. -/
def depthLimit : Nat := 127

/-- The document that fills the input. -/
def read? (input : List UInt8) : Option Value :=
  match Reader.item depthLimit input with
  | some (item, []) => some item.value
  | _ => none

end AccessWindows.Document.Cbor
