import AccessWindows.Document.Json.Token

/-!
# Reading JSON

A document is read token by token.  The lists and tables that are still open are kept as a stack
of frames, and the state says what may come next, so that the whole reader is one fold over the
tokens.  Entries of a table keep their order and their repetitions.
-/

namespace AccessWindows.Document.Json

/-- A list or table that is still open, its parts last one first. -/
inductive Frame where
  | list (items : List Value)
  | entry (entries : List (Key × Value)) (key : Key)

/-- What may come next, inside the given frames. -/
inductive State where
  /-- A value. -/
  | value (stack : List Frame)
  /-- The first item of a list, or its end. -/
  | item (stack : List Frame)
  /-- A key, or the end of the table if it is still empty. -/
  | key (entries : List (Key × Value)) (stack : List Frame)
  /-- The colon behind a key. -/
  | colon (entries : List (Key × Value)) (key : Key) (stack : List Frame)
  /-- A comma or a closing bracket behind a complete value, or nothing more. -/
  | after (v : Value) (stack : List Frame)

namespace State

/-- The value or the opening bracket that a token is. -/
def value? (stack : List Frame) : Token → Option State
  | .scalar v => some (.after v stack)
  | .string points =>
    some (.after (match stringText? points with | some s => .text s | none => .foreign) stack)
  | .mark '[' => some (.item stack)
  | .mark '\x7b' => some (.key [] stack)
  | .mark _ => none

/-- The key that a string spells. -/
def keyOf (points : List Nat) : Key :=
  match stringText? points with
  | some s => .name s
  | none => .improper

/-- One more token. -/
def step? (s : State) (t : Token) : Option State :=
  match s, t with
  | .item stack, .mark ']' => some (.after (.list []) stack)
  | .item stack, t => value? (.list [] :: stack) t
  | .value stack, t => value? stack t
  | .key [] stack, .mark '\x7d' => some (.after (.table []) stack)
  | .key entries stack, .string points => some (.colon entries (keyOf points) stack)
  | .colon entries k stack, .mark ':' => some (.value (.entry entries k :: stack))
  | .after v (.list items :: stack), .mark ',' => some (.value (.list (v :: items) :: stack))
  | .after v (.list items :: stack), .mark ']' =>
    some (.after (.list (v :: items).reverse) stack)
  | .after v (.entry entries k :: stack), .mark ',' => some (.key ((k, v) :: entries) stack)
  | .after v (.entry entries k :: stack), .mark '\x7d' =>
    some (.after (.table ((k, v) :: entries).reverse) stack)
  | _, _ => none

end State

/-- The document that fills a sequence of tokens. -/
def ofTokens? (tokens : List Token) : Option Value := do
  match ← tokens.foldlM State.step? (.value []) with
  | .after v [] => some v
  | _ => none

/-- The document that fills a text. -/
def read? (text : String) : Option Value := do ofTokens? (← tokens? text.toList)

end AccessWindows.Document.Json
