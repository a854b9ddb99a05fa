import AccessWindows.Document.Value

/-!
# TOML tables

A document builds one table out of assignments and headers, and what may still be added to a table
depends on how it came to be.  A table that a dotted key made on the way to another can take more
dotted keys, but no header; one that a longer header implied can still get a header of its own;
one that had its header, or was written as a value, is closed to both.

`assign?` and `install?` walk down a path and change the table at its end.  They refuse what is
refused above and what would name the same thing twice.
-/

namespace AccessWindows.Document.Toml

/-- How a table came to be. -/
inductive Origin where
  /-- By a header of its own, or as the document itself. -/
  | header
  /-- On the way to the table of a longer header. -/
  | implied
  /-- On the way along a dotted key. -/
  | dotted
  deriving DecidableEq

/-- What a key stands for while the document is built. -/
inductive Node where
  | value (v : Value)
  | table (origin : Origin) (entries : List (String × Node))
  /-- The tables of the headers with that path, last one first. -/
  | tables (items : List (List (String × Node)))

/-- The entries of a table that is being built. -/
abbrev Entries := List (String × Node)

namespace Entries

/-- Replaces the node of a key, or adds it at the end. -/
def put (es : Entries) (key : String) (node : Node) : Entries :=
  if es.any fun e => e.1 == key then es.map fun e => if e.1 == key then (key, node) else e
  else es ++ [(key, node)]

/-- Changes the table at the end of a path of headers, making those on the way. -/
def under? (es : Entries) (path : List String) (change : Entries → Option Entries) :
    Option Entries :=
  match path with
  | [] => change es
  | key :: rest =>
    match es.lookup key with
    | none => do return es.put key (.table .implied (← under? [] rest change))
    | some (.table origin inner) => do
      return es.put key (.table origin (← under? inner rest change))
    | some (.tables (last :: earlier)) => do
      return es.put key (.tables ((← under? last rest change) :: earlier))
    | some _ => none

/-- Gives a key its value, behind the remaining keys of a dotted one. -/
def assign? (es : Entries) (path : List String) (key : String) (v : Value) : Option Entries :=
  match path with
  | [] => if (es.lookup key).isSome then none else some (es ++ [(key, .value v)])
  | step :: rest =>
    match es.lookup step with
    | none => do return es ++ [(step, .table .dotted (← assign? [] rest key v))]
    | some (.table .dotted inner) => do
      return es.put step (.table .dotted (← assign? inner rest key v))
    | some _ => none

end Entries

/-- A key and the value it is given, the keys before the last dot apart. -/
structure Assignment where
  path : List String
  key : String
  value : Value

/-- A header and the assignments below it. -/
structure Section where
  path : List String
  key : String
  /-- The header adds a table to a list of tables. -/
  repeated : Bool
  assignments : List Assignment

/-- Makes all assignments to a table. -/
def Entries.assignAll? (es : Entries) (assignments : List Assignment) : Option Entries :=
  assignments.foldlM (fun es a => es.assign? a.path a.key a.value) es

/-- Adds the table of a section to the table in which its last key belongs. -/
def Section.into? (s : Section) (es : Entries) : Option Entries :=
  match s.repeated, es.lookup s.key with
  | true, none => do return es ++ [(s.key, .tables [← Entries.assignAll? [] s.assignments])]
  | true, some (.tables items) => do
    return es.put s.key (.tables ((← Entries.assignAll? [] s.assignments) :: items))
  | false, none => do
    return es ++ [(s.key, .table .header (← Entries.assignAll? [] s.assignments))]
  | false, some (.table .implied inner) => do
    return es.put s.key (.table .header (← Entries.assignAll? inner s.assignments))
  | _, _ => none

/-- Adds a section to a document. -/
def Section.install? (es : Entries) (s : Section) : Option Entries := es.under? s.path s.into?

mutual

/-- The finished document of a node. -/
def Node.toValue : Node → Value
  | .value v => v
  | .table _ entries => .table (entriesToValue entries)
  | .tables items => .list (tablesToValues items).reverse

def entriesToValue : List (String × Node) → List (Key × Value)
  | [] => []
  | (k, n) :: rest => (.name k, n.toValue) :: entriesToValue rest

def tablesToValues : List (List (String × Node)) → List Value
  | [] => []
  | es :: rest => .table (entriesToValue es) :: tablesToValues rest

end

/-- The table that some assignments make. -/
def tableOf? (assignments : List Assignment) : Option Value := do
  return .table (entriesToValue (← Entries.assignAll? [] assignments))

/-- The document of the assignments at its top and of its sections. -/
def document? (top : List Assignment) (sections : List Section) : Option Value := do
  let es ← Entries.assignAll? [] top
  return .table (entriesToValue (← sections.foldlM Section.install? es))

end AccessWindows.Document.Toml
