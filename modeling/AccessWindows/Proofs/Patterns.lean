import AccessWindows.Proofs.Paths

/-!
# Patterns — which resources fit

The text of a pattern is a path of steps, the text of a resource a path of segments.  A step agrees
with the segment at its place if it is `+` or is that segment.  A pattern that ends in `*` fits the
resources that have a segment for each step before it, all of them in agreement; any other pattern
fits those that have as many segments as it has steps, again all in agreement
(`fits_iff_segmentwise`).

Both follow from one induction over the steps (`matchAll_append`), which settles what the steps in
front ask for and leaves the segments behind them to the steps behind.
-/

namespace AccessWindows

/-- The step at that place is `+`, or is the segment at the same place. -/
def AgreeAt (steps segments : List String) (i : Nat) : Prop :=
  steps[i]? = some "+" ∨ steps[i]? = segments[i]?

namespace Segment

/-- A step that stands for one segment. -/
def IsSingle (s : Segment) : Prop := s.IsProper ∧ s ≠ .rest

/-- A single step takes the segment that it allows, and leaves the others to the steps behind. -/
theorem matchAll_cons {s : Segment} (hs : s.IsSingle) (steps : List Segment) (t : String)
    (segments : List String) : matchAll (s :: steps) (t :: segments) = true ↔
      (s.text = "+" ∨ s.text = t) ∧ matchAll steps segments = true := by
  cases s with
  | literal name =>
      obtain ⟨-, -, hplus, -⟩ := hs.1
      simp [matchAll, text, hplus]
  | one => simp [matchAll, text]
  | rest => exact absurd rfl hs.2

/-- A single step needs a segment. -/
theorem matchAll_cons_nil {s : Segment} (hs : s.IsSingle) (steps : List Segment) :
    matchAll (s :: steps) [] = false := by
  cases s with
  | literal name => rfl
  | one => rfl
  | rest => exact absurd rfl hs.2

/-- **Step by step**: the steps in front agree with the segments in front, one for one, and the
steps behind fit the segments that are left. -/
theorem matchAll_append {steps : List Segment} (hs : ∀ s ∈ steps, s.IsSingle)
    (behind : List Segment) (segments : List String) :
    matchAll (steps ++ behind) segments = true ↔
      steps.length ≤ segments.length ∧
        (∀ i < steps.length, AgreeAt (steps.map text) segments i) ∧
        matchAll behind (segments.drop steps.length) = true := by
  induction steps generalizing segments with
  | nil => simp
  | cons s steps ih =>
      obtain ⟨hs, hsteps⟩ := List.forall_mem_cons.mp hs
      cases segments with
      | nil => simp [matchAll_cons_nil hs]
      | cons t segments =>
          -- place 0 belongs to the first step, all other places to the steps behind it
          have hhead : AgreeAt ((s :: steps).map text) (t :: segments) 0 ↔
              s.text = "+" ∨ s.text = t := by simp [AgreeAt]
          have htail : ∀ i, AgreeAt ((s :: steps).map text) (t :: segments) (i + 1) ↔
              AgreeAt (steps.map text) segments i := fun i => by simp [AgreeAt]
          rw [List.cons_append, matchAll_cons hs, ih hsteps]
          simp only [List.length_cons, Nat.forall_lt_succ_left, hhead, htail,
            Nat.add_le_add_iff_right, List.drop_succ_cons]
          tauto

/-- Names alone fit the segments of these names. -/
theorem matchAll_map_literal (names segments : List String) :
    matchAll (names.map .literal) segments = true ↔ segments = names := by
  induction names generalizing segments with
  | nil => cases segments <;> simp [matchAll]
  | cons name names ih =>
      cases segments with
      | nil => simp [matchAll]
      | cons t segments =>
          rw [List.map_cons, matchAll, Bool.and_eq_true, beq_iff_eq, ih, List.cons.injEq,
            eq_comm (a := name)]

end Segment

theorem Resource.segments_inj {r r' : Resource} : r.segments = r'.segments ↔ r = r' := by
  cases r
  cases r'
  simp

namespace ResourcePattern

variable {p : ResourcePattern} {r : Resource}

/-- Where there is no `*`, each step stands for one segment. -/
theorem isSingle_of_mem {s : Segment} {steps : List Segment} (hs : s ∈ steps)
    (hsub : steps ⊆ p.segments) (hrest : .rest ∉ steps) : s.IsSingle :=
  ⟨p.proper s (hsub hs), fun h => hrest (h ▸ hs)⟩

/-- The steps of a pattern without `*` fit one for one. -/
theorem fits_iff_of_no_rest (h : .rest ∉ p.segments) :
    p.fits r = true ↔ r.segments.length = p.segments.length ∧
      ∀ i < p.segments.length, AgreeAt (p.segments.map Segment.text) r.segments i := by
  have happ := Segment.matchAll_append
    (fun s hs => isSingle_of_mem hs (List.Subset.refl p.segments) h) [] r.segments
  have hnil : Segment.matchAll [] (r.segments.drop p.segments.length) = true ↔
      r.segments.length ≤ p.segments.length := by
    rw [← List.drop_eq_nil_iff]
    cases r.segments.drop p.segments.length <;> simp [Segment.matchAll]
  rw [List.append_nil, hnil] at happ
  rw [fits, happ, Nat.le_antisymm_iff]
  tauto

/-- The steps before a final `*` fit one for one, whatever segments follow. -/
theorem fits_iff_of_rest {steps : List Segment} (h : p.segments = steps ++ [.rest]) :
    p.fits r = true ↔ steps.length ≤ r.segments.length ∧
      ∀ i < steps.length, AgreeAt (steps.map Segment.text) r.segments i := by
  have hrest : .rest ∉ steps := by
    have := p.restLast
    rwa [h, List.dropLast_concat] at this
  have hsub : steps ⊆ p.segments := h ▸ List.subset_append_left _ _
  rw [fits, h, Segment.matchAll_append fun s hs => isSingle_of_mem hs hsub hrest]
  simp [Segment.matchAll]

/-- No segment is named `*`, so the sign at the end of the text is that of the last step. -/
theorem getLast?_text_eq_star_iff :
    (p.segments.map Segment.text).getLast? = some "*" ↔ p.segments.getLast? = some .rest := by
  rw [List.getLast?_map, Option.map_eq_some_iff]
  constructor
  · rintro ⟨s, hs, htext⟩
    have hproper := p.proper _ (List.mem_of_getLast? hs)
    rwa [hproper.text_eq_sign_iff.2.mp htext] at hs
  · intro h
    exact ⟨.rest, h, rfl⟩

/-- A `*` that is not at the end is nowhere. -/
theorem rest_not_mem (h : p.segments.getLast? ≠ some .rest) : .rest ∉ p.segments := by
  intro hmem
  obtain ⟨last, hlast⟩ := Option.ne_none_iff_exists'.mp
    (mt List.getLast?_eq_none_iff.mp p.nonempty)
  obtain ⟨steps, hsteps⟩ := List.getLast?_eq_some_iff.mp hlast
  have hbefore := p.restLast
  rw [hsteps, List.dropLast_concat] at hbefore
  rw [hsteps, List.mem_append, List.mem_singleton] at hmem
  exact h (hlast.trans (congrArg some (hmem.resolve_left hbefore).symm))

/-- **Patterns by their texts.**  With a final `*`, a pattern fits the resources whose segments are
at least as many as the steps before it and agree with these; without one, the resources that have
as many segments as it has steps, all in agreement.  The pattern of a resource fits it alone. -/
theorem fits_iff_segmentwise (p : ResourcePattern) (r : Resource) :
    (p.fits r = true ↔
      let steps := pathSegments p.text
      let segments := pathSegments r.text
      if steps.getLast? = some "*" then
        steps.length - 1 ≤ segments.length ∧ ∀ i < steps.length - 1, AgreeAt steps segments i
      else
        segments.length = steps.length ∧ ∀ i < steps.length, AgreeAt steps segments i) ∧
      ∀ r' : Resource, r'.toPattern.fits r = true ↔ r = r' := by
  refine ⟨?_, fun r' => ?_⟩
  · simp only [p.pathSegments_text, r.pathSegments_text, getLast?_text_eq_star_iff]
    split
    next h =>
        obtain ⟨steps, hsteps⟩ := List.getLast?_eq_some_iff.mp h
        -- a place before the last step is one among the steps in front
        have hagree : ∀ i < steps.length,
            AgreeAt ((steps ++ [Segment.rest]).map Segment.text) r.segments i ↔
              AgreeAt (steps.map Segment.text) r.segments i := fun i hi => by
          simp [AgreeAt, List.getElem?_append_left, hi]
        rw [fits_iff_of_rest hsteps, hsteps, List.length_map, List.length_append,
          List.length_singleton, Nat.add_sub_cancel]
        exact and_congr_right fun _ => forall₂_congr fun i hi => (hagree i hi).symm
    next h =>
        rw [fits_iff_of_no_rest (rest_not_mem h), List.length_map]
  · rw [fits, Resource.toPattern, Segment.matchAll_map_literal]
    exact Resource.segments_inj

end ResourcePattern

end AccessWindows
