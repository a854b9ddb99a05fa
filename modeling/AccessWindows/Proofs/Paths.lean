import AccessWindows.Proofs.Blank
import AccessWindows.Proofs.Joined
import AccessWindows.Resource

/-!
# Paths — reading the text of a path

The text of a path joins its segments by slashes.  None of them is empty or holds a slash, so that
splitting the text gives the segments back and there is nothing to trim
(`pathSegments_intercalate`).  Hence resources and patterns are read back from their texts
(`Resource.ofText_text`, `ResourcePattern.ofText_text`); the text of the pattern that fits one
resource only is that of the resource.
-/

namespace AccessWindows

/-! ### Joined segments -/

section joined

variable {ls : List (List Char)}

/-- Segments that are not empty and hold no slash. -/
def Separable (ls : List (List Char)) : Prop := ∀ l ∈ ls, l ≠ [] ∧ '/' ∉ l

/-- Joined segments do not begin with a slash: the first of them is not empty and has none. -/
theorem Separable.head?_ne_slash (h : Separable ls) {c : Char}
    (hc : (['/'].intercalate ls).head? = some c) : c ≠ '/' := by
  cases ls with
  | nil => cases hc
  | cons l ls =>
      obtain ⟨hne, hs⟩ := h l List.mem_cons_self
      obtain ⟨a, l, rfl⟩ := List.exists_cons_of_ne_nil hne
      have ha : (['/'].intercalate ((a :: l) :: ls)).head? = some a := by
        cases ls with
        | nil => rw [List.intercalate_singleton]; rfl
        | cons _ _ => rw [List.intercalate_cons_cons]; rfl
      rintro rfl
      cases ha.symm.trans hc
      exact hs List.mem_cons_self

/-- Joined segments do not end with a slash: the last of them is not empty and has none. -/
theorem Separable.getLast?_ne_slash (h : Separable ls) {c : Char}
    (hc : (['/'].intercalate ls).getLast? = some c) : c ≠ '/' := by
  induction ls with
  | nil => cases hc
  | cons l ls ih =>
      obtain ⟨⟨-, hs⟩, hls⟩ := List.forall_mem_cons.mp h
      cases ls with
      | nil =>
          rw [List.intercalate_singleton] at hc
          rintro rfl
          exact hs (List.mem_of_getLast? hc)
      | cons l' ls =>
          -- what follows the slash is not empty, so the text ends as it does
          have hne : ['/'].intercalate (l' :: ls) ≠ [] := by
            obtain ⟨a, l', rfl⟩ := List.exists_cons_of_ne_nil (hls l' List.mem_cons_self).1
            cases ls with
            | nil => rw [List.intercalate_singleton]; exact List.cons_ne_nil _ _
            | cons _ _ => rw [List.intercalate_cons_cons]; exact List.cons_ne_nil _ _
          rw [List.intercalate_cons_cons, List.getLast?_append,
            List.getLast?_eq_some_getLast hne, Option.some_or,
            ← List.getLast?_eq_some_getLast hne] at hc
          exact ih hls hc

end joined

/-- **Joining and splitting**: the segments of a path are found in its text. -/
theorem pathSegments_intercalate {segments : List String} (hne : segments ≠ [])
    (h : Separable (segments.map String.toList)) :
    pathSegments ("/".intercalate segments) = segments := by
  have htext : ("/".intercalate segments).toList = ['/'].intercalate (segments.map String.toList) :=
    String.toList_intercalate
  have htrim : Blank.trimBy (· == '/') (['/'].intercalate (segments.map String.toList)) =
      ['/'].intercalate (segments.map String.toList) :=
    Blank.trimBy_eq_self (fun c hc => beq_eq_false_iff_ne.mpr (h.head?_ne_slash hc))
      fun c hc => beq_eq_false_iff_ne.mpr (h.getLast?_ne_slash hc)
  rw [pathSegments, htext, htrim, ← htext]
  exact splitOn_toList_intercalate rfl hne fun s hs => (h _ (List.mem_map_of_mem hs)).2

/-- Joined segments pass the check that resources and patterns have in common. -/
theorem checkedSegments_intercalate {segments : List String} (hne : segments ≠ [])
    (h : Separable (segments.map String.toList)) :
    checkedSegments ("/".intercalate segments) = .ok segments := by
  have hempty : ∀ s ∈ segments, s ≠ "" := by
    rintro s hs rfl
    exact (h _ (List.mem_map_of_mem hs)).1 rfl
  rw [checkedSegments, pathSegments_intercalate hne h, if_neg, if_neg]
  · simpa using fun hs => hempty _ hs rfl
  · rintro rfl
    exact hempty _ List.mem_cons_self rfl

/-! ### Resources -/

/-- A plain name may stand between slashes. -/
theorem IsPlain.separable {s : String} (h : IsPlain s) : s.toList ≠ [] ∧ '/' ∉ s.toList :=
  ⟨fun hs => h.1 (String.toList_eq_nil_iff.mp hs), h.2.1⟩

/-- The segments of a resource may be joined. -/
theorem Resource.separable (r : Resource) : Separable (r.segments.map String.toList) := by
  intro l hl
  obtain ⟨s, hs, rfl⟩ := List.mem_map.mp hl
  exact (r.plain s hs).separable

/-- The text of a resource splits into its segments. -/
theorem Resource.pathSegments_text (r : Resource) : pathSegments r.text = r.segments :=
  pathSegments_intercalate r.nonempty r.separable

/-- **Resources** are read back from their texts. -/
theorem Resource.ofText_text (r : Resource) : ofText r.text = .ok r := by
  rw [ofText, text, checkedSegments_intercalate r.nonempty r.separable]
  exact dif_pos ⟨r.nonempty, r.plain⟩

/-- A resource and the pattern that fits it alone have one text. -/
theorem Resource.text_toPattern (r : Resource) : r.toPattern.text = r.text := by
  rw [ResourcePattern.text, toPattern, List.map_map]
  exact congrArg ("/".intercalate ·) (List.map_id r.segments)

/-- The text of a step may stand between slashes, that of a sign too. -/
theorem Segment.IsProper.separable {s : Segment} (h : s.IsProper) :
    s.text.toList ≠ [] ∧ '/' ∉ s.text.toList := by
  cases s with
  | literal name => exact IsPlain.separable h
  | one => decide
  | rest => decide

/-- A step is read back from its text, since no plain name is a sign. -/
theorem Segment.ofText_text {s : Segment} (h : s.IsProper) : ofText s.text = s := by
  cases s with
  | literal name =>
      obtain ⟨-, -, hone, hrest⟩ := h
      rw [text, ofText, if_neg hone, if_neg hrest]
  | one => rfl
  | rest => rfl

/-- No plain name is a sign, so that a step is told from its text. -/
theorem Segment.IsProper.text_eq_sign_iff {s : Segment} (h : s.IsProper) :
    (s.text = "+" ↔ s = .one) ∧ (s.text = "*" ↔ s = .rest) := by
  cases s with
  | literal name =>
      obtain ⟨-, -, hone, hrest⟩ := h
      simp [text, hone, hrest]
  | one => decide
  | rest => decide

/-- The texts of the steps of a pattern may be joined. -/
theorem ResourcePattern.separable (p : ResourcePattern) :
    Separable ((p.segments.map Segment.text).map String.toList) := by
  intro l hl
  obtain ⟨text, ht, rfl⟩ := List.mem_map.mp hl
  obtain ⟨s, hs, rfl⟩ := List.mem_map.mp ht
  exact (p.proper s hs).separable

/-- The text of a pattern splits into the texts of its steps. -/
theorem ResourcePattern.pathSegments_text (p : ResourcePattern) :
    pathSegments p.text = p.segments.map Segment.text :=
  pathSegments_intercalate (by simpa using p.nonempty) p.separable

theorem ResourcePattern.map_ofText_text (p : ResourcePattern) :
    (p.segments.map Segment.text).map Segment.ofText = p.segments := by
  rw [List.map_map]
  calc p.segments.map (Segment.ofText ∘ Segment.text)
      = p.segments.map id := List.map_congr_left fun s hs => Segment.ofText_text (p.proper s hs)
    _ = p.segments := List.map_id _

/-- **Patterns** are read back from their texts. -/
theorem ResourcePattern.ofText_text (p : ResourcePattern) : ofText p.text = .ok p := by
  rw [ofText, text, checkedSegments_intercalate (by simpa using p.nonempty) p.separable]
  simp only [bind, Except.bind, p.map_ofText_text]
  exact dif_pos ⟨p.nonempty, p.proper, p.restLast⟩

end AccessWindows
