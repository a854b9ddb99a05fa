import AccessWindows.Text.Blank

/-!
# Resources

A resource is named by a path of segments, such as `campus/bldg1/hvac/temp`.  A pattern is a path
in which `+` stands for any one segment and a final `*` for any number of remaining ones, none
included.

Both are kept as lists of segments, of which none is empty, holds a slash or could be taken for
the other kind.  Slashes at the ends of a written path mean nothing; the text of a path has none.
-/

namespace AccessWindows

/-- A segment that names one step of a path: it is not empty, holds no slash, and is not one of the
two signs of patterns. -/
def IsPlain (s : String) : Prop := s ≠ "" ∧ '/' ∉ s.toList ∧ s ≠ "+" ∧ s ≠ "*"

instance (s : String) : Decidable (IsPlain s) := inferInstanceAs (Decidable (_ ∧ _))

/-- Why a text names no resource, or no pattern. -/
inductive ResourceError where
  | emptyName
  | emptySegment (raw : String)
  | isPattern (raw : String)
  | restNotLast (raw : String)
  deriving DecidableEq

/-- What is wrong with the text of a resource or of a pattern. -/
def ResourceError.message : ResourceError → String
  | .emptyName => "resource name is empty"
  | .emptySegment raw => "resource '" ++ raw ++ "' contains an empty segment"
  | .isPattern raw =>
    "resource '" ++ raw ++ "' is a pattern, a concrete resource is required"
  | .restNotLast raw => "pattern '" ++ raw ++ "' uses '*' before the final segment"

/-- The segments of a written path, the slashes at its ends left out. -/
def pathSegments (raw : String) : List String :=
  ((Blank.trimBy (· == '/') raw.toList).splitOn '/').map String.ofList

/-- The segments of a written path, if it has some and none is empty. -/
def checkedSegments (raw : String) : Except ResourceError (List String) :=
  let segments := pathSegments raw
  if segments = [""] then .error .emptyName
  else if segments.any (· == "") then .error (.emptySegment raw)
  else .ok segments

/-- The name of one resource. -/
structure Resource where
  segments : List String
  nonempty : segments ≠ []
  plain : ∀ s ∈ segments, IsPlain s
  deriving DecidableEq

namespace Resource

/-- Reads the name of a resource. -/
def ofText (raw : String) : Except ResourceError Resource := do
  let segments ← checkedSegments raw
  if h : segments ≠ [] ∧ ∀ s ∈ segments, IsPlain s then .ok ⟨segments, h.1, h.2⟩
  else .error (.isPattern raw)

/-- The segments, a slash between two. -/
def text (r : Resource) : String := "/".intercalate r.segments

/-- Resources in the order of their texts. -/
instance : LE Resource := ⟨fun a b => a.text ≤ b.text⟩
instance (a b : Resource) : Decidable (a ≤ b) := inferInstanceAs (Decidable (a.text ≤ b.text))

end Resource

/-- One step of a pattern. -/
inductive Segment where
  /-- The segment of that name. -/
  | literal (name : String)
  /-- Any one segment, written `+`. -/
  | one
  /-- Any number of segments, written `*`. -/
  | rest
  deriving DecidableEq

namespace Segment

/-- The step that a written segment means. -/
def ofText (s : String) : Segment :=
  if s = "+" then .one else if s = "*" then .rest else .literal s

def text : Segment → String
  | .literal s => s
  | .one => "+"
  | .rest => "*"

/-- The name of a literal step is plain. -/
def IsProper : Segment → Prop
  | .literal s => IsPlain s
  | _ => True

instance : (s : Segment) → Decidable s.IsProper
  | .literal s => inferInstanceAs (Decidable (IsPlain s))
  | .one => .isTrue trivial
  | .rest => .isTrue trivial

/-- The steps fit the segments, one by one up to a `rest`. -/
def matchAll : List Segment → List String → Bool
  | .rest :: _, _ => true
  | .one :: steps, _ :: segments => matchAll steps segments
  | .literal s :: steps, t :: segments => s == t && matchAll steps segments
  | [], [] => true
  | _, _ => false

end Segment

/-- A set of resources, by the form of their names. -/
structure ResourcePattern where
  segments : List Segment
  nonempty : segments ≠ []
  proper : ∀ s ∈ segments, s.IsProper
  restLast : .rest ∉ segments.dropLast
  deriving DecidableEq

namespace ResourcePattern

/-- Reads a pattern. -/
def ofText (raw : String) : Except ResourceError ResourcePattern := do
  let segments := (← checkedSegments raw).map Segment.ofText
  if h : segments ≠ [] ∧ (∀ s ∈ segments, s.IsProper) ∧ .rest ∉ segments.dropLast then
    .ok ⟨segments, h.1, h.2.1, h.2.2⟩
  else .error (.restNotLast raw)

/-- The segments, a slash between two. -/
def text (p : ResourcePattern) : String := "/".intercalate (p.segments.map Segment.text)

/-- The pattern has no sign, and so is the name of one resource. -/
def isConcrete (p : ResourcePattern) : Bool := p.segments.all fun s => s != .one && s != .rest

/-- The resource is in the set. -/
def fits (p : ResourcePattern) (r : Resource) : Bool := Segment.matchAll p.segments r.segments

end ResourcePattern

/-- The pattern that fits one resource only. -/
def Resource.toPattern (r : Resource) : ResourcePattern where
  segments := r.segments.map .literal
  nonempty h := r.nonempty (List.map_eq_nil_iff.1 h)
  proper s hs := by
    obtain ⟨t, ht, rfl⟩ := List.mem_map.1 hs
    exact r.plain t ht
  restLast h := by
    obtain ⟨t, -, ht⟩ := List.mem_map.1 ((List.dropLast_sublist _).subset h)
    cases ht

end AccessWindows
