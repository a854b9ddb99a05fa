import AccessWindows.Document.Value
import AccessWindows.Text.Utf8
import AccessWindows.TextMap

/-!
# Records in documents

A record is a fixed list of named fields.  A document gives it as a table, in any order, or as a
list of its fields in the order of their declaration.  Whichever it was, `fields?` yields the same
thing: the fields that are there, by name.  A field given twice is refused; a key that is no
field's name is passed over or refused, as the record wants it.

A choice between records carries a tag: an entry of the table, anywhere in it, or the first item of
the list.  `tagged?` takes the tag out and leaves the rest as the document of the record chosen.
Since the tag may be the last entry, the rest is laid aside until the tag is known, entries that no
field takes among it, and the whole of it must then be readable, where otherwise an entry that no
field takes is passed over without being read.

Notations differ in the points that a `Dialect` settles: how the body of a plain choice may be
spelled, whether a list may be longer than the record, whether a tag must be a name, and what can
be laid aside.
-/

namespace AccessWindows.Document

/-- What a notation leaves open. -/
structure Dialect where
  /-- The value that may stand as the body of a choice that has none. -/
  isUnit : Value → Bool
  /-- A list may have more items than the record has fields. -/
  surplus : Bool
  /-- A tag may be the place of an option in place of its name. -/
  placeTags : Bool
  /-- What is laid aside may have foreign parts. -/
  keepsForeign : Bool

namespace Dialect

/-- JSON, where only null stands for nothing. -/
def json : Dialect where
  isUnit v := match v with
    | .null => true
    | _ => false
  surplus := false
  placeTags := false
  keepsForeign := false

/-- CBOR, and what is behind a tag in any notation: the empty table stands for nothing too. -/
def cbor : Dialect where
  isUnit v := match v with
    | .null => true
    | .table [] => true
    | _ => false
  surplus := false
  placeTags := true
  keepsForeign := true

/-- TOML, which has no null. -/
def toml : Dialect where
  isUnit v := match v with
    | .table [] => true
    | .list [] => true
    | _ => false
  surplus := true
  placeTags := false
  keepsForeign := true

end Dialect

/-- The fields of a record that a document gives, by name. -/
abbrev Fields := List (String × Value)

/-- What to do with a key that is no field's name. -/
inductive Strangers where
  | ignored
  | refused
  deriving DecidableEq

namespace Fields

/-- The value given for a field. -/
def get? (fs : Fields) (name : String) : Option Value := fs.lookup name

/-- A field that must be given. -/
def required {α : Type} (fs : Fields) (name : String) (read : Value → Option α) : Option α := do
  read (← fs.get? name)

/-- A field that has a value if it is not given. -/
def optional {α : Type} (fs : Fields) (name : String) (default : α) (read : Value → Option α) :
    Option α :=
  match fs.get? name with
  | some v => read v
  | none => some default

end Fields

namespace Value

/-- The field that a key names, none for a key that names no field of the record.  The outer
option is for keys that cannot stand for a field at all. -/
def fieldName? (names : List String) : Key → Option (Option String)
  | .name s => some (if names.contains s then some s else none)
  | .place i => some names[i]?
  | .unknown => some none
  | .improper => none

/-- Adds one entry of a table to the fields already read. -/
def addField? (names : List String) (strangers : Strangers) (fs : Fields) (entry : Key × Value) :
    Option Fields :=
  match fieldName? names entry.1 with
  | none => none
  | some none => if strangers = .refused then none else some fs
  | some (some name) =>
    if (fs.get? name).isSome then none else some (fs ++ [(name, entry.2)])

/-- The fields of a record with these names that a document gives. -/
def fields? (d : Dialect) (names : List String) (strangers : Strangers) (v : Value) :
    Option Fields :=
  match v with
  | .table entries => entries.foldlM (addField? names strangers) []
  | .list items =>
    if d.surplus ∨ items.length ≤ names.length then some (names.zip items) else none
  | _ => none

/-- The text of a scalar, which a binary notation may give as bytes. -/
def text? : Value → Option String
  | .text s => some s
  | .bytes b => Utf8.decode? b
  | _ => none

def bool? : Value → Option Bool
  | .bool b => some b
  | _ => none

def int? : Value → Option Int
  | .int n => some n
  | _ => none

/-- A number below `2 ^ 64`. -/
def word? (v : Value) : Option UInt64 := do
  let n ← v.int?
  if 0 ≤ n ∧ n < UInt64.size then some n.toNat.toUInt64 else none

/-- A list of documents of one kind. -/
def items? {α : Type} (read : Value → Option α) : Value → Option (List α)
  | .list items => items.mapM read
  | _ => none

/-- The text that a key is. -/
def keyText? : Key → Option String
  | .name s => some s
  | _ => none

/-- The option of a plain choice that a key names. -/
def optionNamed? (options : List String) : Key → Option Nat
  | .name s => options.findIdx? (· == s)
  | .place i => if i < options.length then some i else none
  | _ => none

/-- The place of the option that a plain choice takes: its name alone, or the name as the only key
of a table whose body says nothing. -/
def option? (d : Dialect) (options : List String) : Value → Option Nat
  | .text s => optionNamed? options (.name s)
  | .table [(key, body)] => if d.isUnit body then optionNamed? options key else none
  | _ => none

/-- The place of the option that a tag takes. -/
def tag? (d : Dialect) (options : List String) : Value → Option Nat
  | .int n => if d.placeTags ∧ 0 ≤ n then optionNamed? options (.place n.toNat) else none
  | v => do optionNamed? options (.name (← v.text?))

/-- A document that can be laid aside until it is known what is to be read from it. -/
def laidAside? (d : Dialect) (v : Value) : Option Value :=
  if d.keepsForeign ∨ v.isReadable then some v else none

/-- The tag of a choice, by the place of the option it takes, and the document without the tag.
A table must have exactly one entry for the tag. -/
def tagged? (d : Dialect) (name : String) (options : List String) :
    Value → Option (Nat × Value)
  | .table entries => do
    let isTag (e : Key × Value) : Bool := e.1 == .name name
    let [tag] := entries.filter isTag | none
    return (← tag? d options tag.2, ← laidAside? d (.table (entries.filter fun e => !isTag e)))
  | .list (tag :: items) => do return (← tag? d options tag, ← laidAside? d (.list items))
  | _ => none

/-- A map from texts to texts; of several entries with one key the last one stands. -/
def textMap? : Value → Option TextMap
  | .table entries => TextMap.ofList <$> entries.mapM fun e => do
    return (← keyText? e.1, ← e.2.text?)
  | _ => none

/-- A map from texts to texts, by ascending key. -/
def ofTextMap (m : TextMap) : Value := .record (m.entries.map fun e => (e.1, .text e.2))

end Value

end AccessWindows.Document
