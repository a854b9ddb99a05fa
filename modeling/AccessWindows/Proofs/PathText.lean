import AccessWindows.Files.Path
import AccessWindows.Proofs.Paths

/-!
# Path texts — the one text that is kept

Resources and patterns are read from written paths by the same segments (`ofText_eq_ok_iff`), so
that a resource is read exactly where its pattern is (`Resource.ofText_iff_toPattern`): the two
readings agree, and what a resource refuses in addition are the signs of patterns.

The text of what was read is the written path without the slashes at its ends (`Kept`).  It is the
only text that is kept: it is read as the same thing again, and so is the written path with more
slashes at its ends.
-/

namespace AccessWindows

/-! ### Segments of written paths -/

variable {raw : String} {segments : List String}

theorem checkedSegments_eq_ok_iff :
    checkedSegments raw = .ok segments ↔ pathSegments raw = segments ∧ "" ∉ segments := by
  have hany : (pathSegments raw).any (· == "") = true ↔ "" ∈ pathSegments raw := by simp
  rw [checkedSegments]
  split
  next h =>
      simp only [reduceCtorEq, false_iff, h]
      rintro ⟨rfl, hne⟩
      exact hne List.mem_cons_self
  next =>
      split
      next h =>
          simp only [reduceCtorEq, false_iff]
          rintro ⟨rfl, hne⟩
          exact hne (hany.mp h)
      next h =>
          rw [hany] at h
          rw [Except.ok.injEq]
          exact ⟨fun hs => ⟨hs, hs ▸ h⟩, And.left⟩

/-- The segments of a written path, joined again. -/
theorem toList_intercalate_pathSegments (raw : String) :
    ("/".intercalate (pathSegments raw)).toList = Blank.trimBy (· == '/') raw.toList :=
  toList_intercalate_splitOn rfl _

/-- The written path with slashes put in front of it and behind it. -/
def slashed (m n : Nat) (raw : String) : String :=
  String.ofList (List.replicate m '/' ++ raw.toList ++ List.replicate n '/')

theorem pathSegments_slashed (m n : Nat) (raw : String) :
    pathSegments (slashed m n raw) = pathSegments raw := by
  have hslash : ∀ {k : Nat}, ∀ c ∈ List.replicate k '/', (c == '/') = true := fun c hc =>
    beq_iff_eq.mpr (List.eq_of_mem_replicate hc)
  rw [pathSegments, slashed, String.toList_ofList, Blank.trimBy_padded hslash hslash, pathSegments]

/-- What it means that `x` was read from a written path and keeps `text`, with these segments. -/
structure Kept {α : Type} (read : String → Except ResourceError α) (raw : String) (x : α)
    (text : String) (segments : List String) : Prop where
  /-- Only the slashes at the ends are left out. -/
  trimmed : text.toList = Blank.trimBy (· == '/') raw.toList
  head : text.toList.head? ≠ some '/'
  last : text.toList.getLast? ≠ some '/'
  parts : Path.parts text = segments
  nonempty : "" ∉ segments
  joined : "/".intercalate segments = text
  again : read text = .ok x
  padded : ∀ m n, read (slashed m n raw) = .ok x

/-- Whatever is read by its segments, which its text joins, keeps this text. -/
theorem Kept.of_checkedSegments {α : Type} {read : String → Except ResourceError α} {x : α}
    {text : String} (hread : ∀ raw, read raw = .ok x ↔ checkedSegments raw = .ok segments)
    (hjoined : "/".intercalate segments = text) (hagain : read text = .ok x)
    (h : read raw = .ok x) : Kept read raw x text segments := by
  obtain ⟨hsegments, hne⟩ := checkedSegments_eq_ok_iff.mp ((hread raw).mp h)
  have htrimmed : text.toList = Blank.trimBy (· == '/') raw.toList := by
    rw [← hjoined, ← hsegments, toList_intercalate_pathSegments]
  refine ⟨htrimmed, fun hc => ?_, fun hc => ?_, ?_, hne, hjoined, hagain, fun m n => ?_⟩
  · rw [htrimmed] at hc
    exact absurd (Blank.head_trimBy hc) (by decide)
  · rw [htrimmed] at hc
    exact absurd (Blank.getLast_trimBy hc) (by decide)
  · rw [Path.parts, htrimmed, ← pathSegments, hsegments]
  · rw [hread, checkedSegments_eq_ok_iff, pathSegments_slashed]
    exact ⟨hsegments, hne⟩

/-! ### Resources and patterns -/

variable {r : Resource} {p : ResourcePattern}

theorem Resource.ofText_eq_ok_iff : ofText raw = .ok r ↔ checkedSegments raw = .ok r.segments := by
  rw [ofText]
  cases checkedSegments raw with
  | error e => simp [bind, Except.bind]
  | ok segments =>
      simp only [bind, Except.bind, Except.ok.injEq]
      split
      next => rw [Except.ok.injEq, Resource.mk.injEq]
      next h =>
          simp only [reduceCtorEq, false_iff]
          rintro rfl
          exact h ⟨r.nonempty, r.plain⟩

theorem Segment.text_ofText (s : String) : (ofText s).text = s := by
  rw [ofText]
  split
  next h => exact h.symm
  next =>
      split
      next h => exact h.symm
      next => rfl

theorem ResourcePattern.ofText_eq_ok_iff :
    ofText raw = .ok p ↔ checkedSegments raw = .ok (p.segments.map Segment.text) := by
  have htext : ∀ segments : List String,
      (segments.map Segment.ofText).map Segment.text = segments := by
    intro segments
    rw [List.map_map]
    exact List.map_id'' Segment.text_ofText segments
  rw [ofText]
  cases checkedSegments raw with
  | error e => simp [bind, Except.bind]
  | ok segments =>
      simp only [bind, Except.bind, Except.ok.injEq]
      split
      next =>
          rw [Except.ok.injEq, ResourcePattern.mk.injEq]
          exact ⟨fun h => h ▸ (htext segments).symm, fun h => h ▸ p.map_ofText_text⟩
      next h =>
          simp only [reduceCtorEq, false_iff]
          rintro rfl
          rw [p.map_ofText_text] at h
          exact h ⟨p.nonempty, p.proper, p.restLast⟩

theorem ResourcePattern.parts_text (p : ResourcePattern) :
    Path.parts p.text = p.segments.map Segment.text :=
  (Kept.of_checkedSegments (fun _ => ofText_eq_ok_iff) rfl p.ofText_text p.ofText_text).parts

/-- **One reading**: a resource is read where the pattern that fits it alone is. -/
theorem Resource.ofText_iff_toPattern :
    ofText raw = .ok r ↔ ResourcePattern.ofText raw = .ok r.toPattern := by
  have hsegments : r.toPattern.segments.map Segment.text = r.segments := by
    rw [toPattern, List.map_map]
    exact List.map_id r.segments
  rw [ofText_eq_ok_iff, ResourcePattern.ofText_eq_ok_iff, hsegments]

/-- A pattern without a sign is that of a resource. -/
theorem ResourcePattern.isConcrete_iff : p.isConcrete = true ↔ ∃ r : Resource, r.toPattern = p := by
  constructor
  · intro h
    have hliteral : ∀ s ∈ p.segments, IsPlain s.text ∧ Segment.literal s.text = s := by
      intro s hs
      have hproper := p.proper s hs
      have hsign := List.all_eq_true.mp h s hs
      cases s with
      | literal name => exact ⟨hproper, rfl⟩
      | one => exact absurd hsign (by decide)
      | rest => exact absurd hsign (by decide)
    refine ⟨⟨p.segments.map Segment.text, by simpa using p.nonempty, fun s hs => ?_⟩, ?_⟩
    · obtain ⟨t, ht, rfl⟩ := List.mem_map.mp hs
      exact (hliteral t ht).1
    · rw [Resource.toPattern, ResourcePattern.mk.injEq, List.map_map]
      exact (List.map_congr_left fun s hs => (hliteral s hs).2).trans (List.map_id _)
  · rintro ⟨r, rfl⟩
    exact List.all_eq_true.mpr fun s hs => by
      obtain ⟨name, -, rfl⟩ := List.mem_map.mp hs
      rfl

/-- The signs are told from the text alone. -/
theorem ResourcePattern.isConcrete_iff_text :
    p.isConcrete = true ↔ "+" ∉ Path.parts p.text ∧ "*" ∉ Path.parts p.text := by
  have hsign := fun s hs => (p.proper s hs).text_eq_sign_iff
  rw [p.parts_text, isConcrete, List.all_eq_true]
  simp only [List.mem_map, not_exists, not_and, Bool.and_eq_true, bne_iff_ne]
  constructor
  · intro h
    exact ⟨fun s hs => mt (hsign s hs).1.mp (h s hs).1, fun s hs => mt (hsign s hs).2.mp (h s hs).2⟩
  · rintro ⟨hone, hrest⟩ s hs
    exact ⟨mt (hsign s hs).1.mpr (hone s hs), mt (hsign s hs).2.mpr (hrest s hs)⟩

/-- A `*` stands nowhere but at the end. -/
theorem ResourcePattern.star_not_mem_dropLast : "*" ∉ (Path.parts p.text).dropLast := by
  rw [p.parts_text, ← List.map_dropLast]
  intro h
  obtain ⟨s, hs, htext⟩ := List.mem_map.mp h
  have hproper := p.proper s ((List.dropLast_sublist _).subset hs)
  rw [hproper.text_eq_sign_iff.2.mp htext] at hs
  exact p.restLast hs

/-! ### Agreement -/

/-- **Reading written paths.**  A written path names a resource if and only if it is a pattern
without a sign, and then both keep the same text.  The text that is kept has no slash at its ends
and no empty segment, is made of its segments, is read as the same thing again, and stays what it is
if slashes are put at the ends of the written path; that of a pattern has a `*` only at its end.
Hence the text of a pattern names a resource just if the pattern has no sign. -/
theorem path_readings_agree (raw : String) :
    ((∃ r, Resource.ofText raw = .ok r) ↔
      ∃ p, ResourcePattern.ofText raw = .ok p ∧ p.isConcrete = true) ∧
    (∀ r p, Resource.ofText raw = .ok r → ResourcePattern.ofText raw = .ok p → r.text = p.text) ∧
    (∀ r, Resource.ofText raw = .ok r → Kept Resource.ofText raw r r.text r.segments) ∧
    (∀ p, ResourcePattern.ofText raw = .ok p →
      Kept ResourcePattern.ofText raw p p.text (p.segments.map Segment.text) ∧
        "*" ∉ (Path.parts p.text).dropLast) ∧
    ∀ p : ResourcePattern,
      ((∃ r, Resource.ofText p.text = .ok r) ↔ p.isConcrete = true) ∧
        (p.isConcrete = true ↔ "+" ∉ Path.parts p.text ∧ "*" ∉ Path.parts p.text) := by
  refine ⟨?_, fun r p hr hp => ?_, fun r hr => ?_, fun p hp => ⟨?_, p.star_not_mem_dropLast⟩,
    fun p => ⟨?_, p.isConcrete_iff_text⟩⟩
  · simp only [Resource.ofText_iff_toPattern, ResourcePattern.isConcrete_iff]
    constructor
    · rintro ⟨r, hr⟩
      exact ⟨_, hr, r, rfl⟩
    · rintro ⟨_, hr, r, rfl⟩
      exact ⟨r, hr⟩
  · rw [Resource.ofText_iff_toPattern, hp, Except.ok.injEq] at hr
    rw [hr, r.text_toPattern]
  · exact .of_checkedSegments (fun _ => Resource.ofText_eq_ok_iff) rfl r.ofText_text hr
  · exact .of_checkedSegments (fun _ => ResourcePattern.ofText_eq_ok_iff) rfl p.ofText_text hp
  · simp only [Resource.ofText_iff_toPattern, p.ofText_text, Except.ok.injEq,
      ResourcePattern.isConcrete_iff]
    exact exists_congr fun _ => eq_comm

/-- A building of the campus. -/
def Resource.building : Resource := ⟨["campus", "bldg1"], by decide, by decide⟩

/-- All that is in some building of the campus. -/
def ResourcePattern.buildings : ResourcePattern :=
  ⟨[.literal "campus", .one, .rest], by decide, by decide, by decide⟩

/-- A resource and a pattern, both written with slashes at the ends. -/
theorem path_readings_of_building_and_buildings :
    Resource.ofText "//campus/bldg1/" = .ok .building ∧
      Kept Resource.ofText "//campus/bldg1/" .building "campus/bldg1" ["campus", "bldg1"] ∧
      ResourcePattern.ofText "/campus/+/*//" = .ok .buildings ∧
      Kept ResourcePattern.ofText "/campus/+/*//" .buildings "campus/+/*" ["campus", "+", "*"] ∧
      ¬ ∃ r, Resource.ofText "campus/+/*" = .ok r := by
  have hbuilding : Resource.ofText "//campus/bldg1/" = .ok .building := by decide +kernel
  have hbuildings : ResourcePattern.ofText "/campus/+/*//" = .ok .buildings := by decide +kernel
  have htext : Resource.building.text = "campus/bldg1" := by decide +kernel
  have htexts : ResourcePattern.buildings.text = "campus/+/*" := by decide +kernel
  obtain ⟨-, -, hkept, -, -⟩ := path_readings_agree "//campus/bldg1/"
  obtain ⟨-, -, -, hkepts, hconcrete⟩ := path_readings_agree "/campus/+/*//"
  exact ⟨hbuilding, htext ▸ hkept _ hbuilding, hbuildings, htexts ▸ (hkepts _ hbuildings).1,
    htexts ▸ mt (hconcrete .buildings).1.mp (by decide)⟩

end AccessWindows
