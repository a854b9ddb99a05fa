import AccessWindows.Document.Binary64

/-!
# Documents

What the three notations of this library (JSON, CBOR and TOML) have in common: scalars, lists, and
tables whose entries keep their order and their repetitions, because whether a repeated key is
harmless is decided by whoever reads the table.

Keys are texts.  A binary notation may also name a field by its place, and may use keys that name
nothing, so `Key` says which of these a key is.
-/

namespace AccessWindows.Document

/-- What a key of a table says about the field it belongs to. -/
inductive Key where
  /-- The field of that name. -/
  | name (text : String)
  /-- The field at that place, counted from zero. -/
  | place (index : Nat)
  /-- No field: the key is well formed, and is not the name of anything. -/
  | unknown
  /-- Nothing: the key cannot stand for a field. -/
  | improper
  deriving DecidableEq

/-- A document or a part of one. -/
inductive Value where
  | null
  | bool (b : Bool)
  | int (n : Int)
  | real (x : Binary64)
  | text (s : String)
  | bytes (b : List UInt8)
  | list (items : List Value)
  | table (entries : List (Key × Value))
  /-- A scalar that is well formed and that no field admits: a number out of range, a text with
  half a surrogate pair, a date. -/
  | foreign

namespace Value

instance : Inhabited Value := ⟨.null⟩

/-- The table with these keys, in this order. -/
def record (entries : List (String × Value)) : Value :=
  .table (entries.map fun e => (.name e.1, e.2))

/-- The value of the first entry with that name. -/
def get? (v : Value) (name : String) : Option Value :=
  match v with
  | .table entries => entries.lookup (.name name)
  | _ => none

mutual

/-- No part is foreign, and no key is improper. -/
def isReadable : Value → Bool
  | .list items => areReadable items
  | .table entries => entriesAreReadable entries
  | .foreign => false
  | _ => true

def areReadable : List Value → Bool
  | [] => true
  | v :: rest => isReadable v && areReadable rest

def entriesAreReadable : List (Key × Value) → Bool
  | [] => true
  | (k, v) :: rest => k != .improper && isReadable v && entriesAreReadable rest

end

end Value

end AccessWindows.Document
