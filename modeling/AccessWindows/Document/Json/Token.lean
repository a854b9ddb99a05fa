import AccessWindows.Document.Json.Number

/-!
# JSON tokens

A text is cut into tokens by an automaton that reads one character at a time and is, after each of
them, between two tokens, inside a word or a numeral, or inside a string.  A string is kept as the
code points it spells; an escape may spell half of a surrogate pair, and `joinSurrogates?` puts the
halves together or finds that one stands alone.
-/

namespace AccessWindows.Document.Json

/-- What a text consists of, white space aside. -/
inductive Token where
  /-- One of the brackets, the comma or the colon. -/
  | mark (c : Char)
  /-- `null`, a truth value or a numeral. -/
  | scalar (v : Value)
  /-- The code points of a string. -/
  | string (points : List Nat)

/-- Where the automaton stands.  Runs are kept last character first. -/
inductive Place where
  | between
  | word (run : List Char)
  | string (run : List Nat)
  | escape (run : List Nat)
  | hex (run : List Nat) (digits : Nat) (value : Nat)

/-- The places of the automaton, with the tokens it has completed, last one first. -/
structure Scan where
  place : Place
  tokens : List Token

namespace Scan

/-- The scalar that a word or a numeral spells. -/
def scalar? (cs : List Char) : Option Value :=
  if cs = ['n', 'u', 'l', 'l'] then some .null
  else if cs = ['t', 'r', 'u', 'e'] then some (.bool true)
  else if cs = ['f', 'a', 'l', 's', 'e'] then some (.bool false)
  else (Numeral.ofChars? cs).map Numeral.toValue

/-- The four characters between tokens. -/
def isSpace (c : Char) : Bool := c = ' ' || c = '\t' || c = '\n' || c = '\r'

/-- The characters that are a token by themselves. -/
def isMark (c : Char) : Bool :=
  c = '[' || c = ']' || c = '\x7b' || c = '\x7d' || c = ',' || c = ':'

/-- The character that a one-letter escape spells. -/
def unescape? (c : Char) : Option Nat :=
  match c with
  | '"' => some 34
  | '\\' => some 92
  | '/' => some 47
  | 'b' => some 8
  | 'f' => some 12
  | 'n' => some 10
  | 'r' => some 13
  | 't' => some 9
  | _ => none

/-- The value of a hexadecimal digit, in either case. -/
def hexValue? (c : Char) : Option Nat :=
  let n := c.toNat
  if 48 ≤ n ∧ n ≤ 57 then some (n - 48)
  else if 97 ≤ n ∧ n ≤ 102 then some (n - 87)
  else if 65 ≤ n ∧ n ≤ 70 then some (n - 55)
  else none

/-- One character that begins or separates tokens. -/
def open? (tokens : List Token) (c : Char) : Option Scan :=
  if isSpace c then some ⟨.between, tokens⟩
  else if isMark c then some ⟨.between, .mark c :: tokens⟩
  else if c = '"' then some ⟨.string [], tokens⟩
  else some ⟨.word [c], tokens⟩

/-- One more character. -/
def step? (s : Scan) (c : Char) : Option Scan :=
  match s.place with
  | .between => open? s.tokens c
  | .word run =>
    if isSpace c ∨ isMark c ∨ c = '"' then do
      let v ← scalar? run.reverse
      open? (.scalar v :: s.tokens) c
    else some { s with place := .word (c :: run) }
  | .string run =>
    if c = '"' then some ⟨.between, .string run.reverse :: s.tokens⟩
    else if c = '\\' then some { s with place := .escape run }
    else if c.toNat < 32 then none
    else some { s with place := .string (c.toNat :: run) }
  | .escape run =>
    if c = 'u' then some { s with place := .hex run 0 0 }
    else (unescape? c).map fun n => { s with place := .string (n :: run) }
  | .hex run digits value => do
    let d ← hexValue? c
    let value := 16 * value + d
    if digits = 3 then some { s with place := .string (value :: run) }
    else some { s with place := .hex run (digits + 1) value }

end Scan

/-- The tokens of a text. -/
def tokens? (text : List Char) : Option (List Token) := do
  let s ← text.foldlM Scan.step? ⟨.between, []⟩
  match s.place with
  | .between => some s.tokens.reverse
  | .word run =>
    let v ← Scan.scalar? run.reverse
    some (.scalar v :: s.tokens).reverse
  | _ => none

/-- The characters of a string, each surrogate pair joined.  None if half a pair stands alone. -/
def joinSurrogates? : List Nat → Option (List Char)
  | [] => some []
  | [n] => if 0xd800 ≤ n ∧ n ≤ 0xdfff then none else some [Char.ofNat n]
  | n :: m :: rest =>
    if 0xd800 ≤ n ∧ n ≤ 0xdbff then
      if 0xdc00 ≤ m ∧ m ≤ 0xdfff then
        (joinSurrogates? rest).map
          (Char.ofNat (0x10000 + (n - 0xd800) * 0x400 + (m - 0xdc00)) :: ·)
      else none
    else if 0xdc00 ≤ n ∧ n ≤ 0xdfff then none
    else (joinSurrogates? (m :: rest)).map (Char.ofNat n :: ·)

/-- The text of a string. -/
def stringText? (points : List Nat) : Option String :=
  (joinSurrogates? points).map String.ofList

end AccessWindows.Document.Json
