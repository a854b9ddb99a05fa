import AccessWindows.Proofs.Engine.MaskRecords

/-!
# Masked tags — who sees a record sees the tags

Tags are shown when the ranges of their stream are not empty, and a record when its instant lies in
them.  A canonical set with a range holds an instant (`keepsTags_iff`), so the two agree: the groups
that are shown are those of streams of which masking would keep a record of some instant
(`maskGroups_eq_filter`).

Whether a record is kept depends on its stream and its instant only, not on its value nor on the
records that it comes with (`mem_maskRecords_iff`).
-/

namespace AccessWindows

theorem RangeSet.Canonical.keepsTags_iff {s : RangeSet} (h : s.Canonical) :
    s.keepsTags = true ↔ ∃ t, s.contains t = true := by
  have hempty : s.keepsTags = true ↔ s.toList ≠ [] := by
    simp [keepsTags, isEmpty, toList]
  rw [hempty]
  constructor
  · intro hne
    obtain ⟨range, rest, hs⟩ := List.exists_cons_of_ne_nil hne
    have hcovers : Covers s.toList range.first :=
      hs ▸ Covers.cons_iff.mpr (.inl range.contains_first)
    exact ⟨range.first, (h.contains_iff _).mpr hcovers⟩
  · rintro ⟨t, ht⟩ hnil
    obtain ⟨range, hm, -⟩ := (h.contains_iff t).mp ht
    rw [hnil] at hm
    cases hm

namespace Engine

/-- A record of the stream at that instant, masked alone, is kept, whatever its value. -/
def KeepsAt (e : Engine Id) (principal : Principal) (stream : StreamId) (t : Timestamp) : Prop :=
  ∀ value, (e.maskRecords principal [⟨stream, t, value⟩]).run = .ok [⟨stream, t, value⟩]

variable {e : Engine Id} {principal : Principal}

/-! ### One stream -/

/-- A stream that has ranges has them when it is the only one asked for. -/
theorem exists_readRanges_singleton {stream : StreamId} {s : RangeSet}
    (h : (e.rangesOf principal stream).run = .ok s) :
    ∃ ranges, (e.readRanges principal [stream]).run = .ok ranges := by
  refine exists_readRanges_iff.mpr fun other ho => ?_
  rw [List.mem_singleton.mp ho]
  exact ⟨s, h⟩

theorem run_maskRecords_singleton {r : Record} {s : RangeSet}
    (h : (e.rangesOf principal r.stream).run = .ok s) :
    (e.maskRecords principal [r]).run = .ok (if s.contains r.time then [r] else []) := by
  obtain ⟨ranges, hranges⟩ := exists_readRanges_singleton h
  refine maskRecords_eq_ok_iff.mpr ⟨ranges, hranges, ?_⟩
  rw [sortByTime_readable hranges]
  by_cases ht : s.contains r.time = true
  · simp [readable_eq_contains h, ht]
  · simp [readable_eq_contains h, ht]

theorem keepsAt_iff {stream : StreamId} {s : RangeSet}
    (h : (e.rangesOf principal stream).run = .ok s) (t : Timestamp) :
    e.KeepsAt principal stream t ↔ s.contains t = true := by
  constructor
  · intro hkeeps
    by_contra ht
    have hsome := hkeeps ⟨0⟩
    rw [run_maskRecords_singleton h, if_neg ht] at hsome
    cases hsome
  · intro ht value
    rw [run_maskRecords_singleton h, if_pos ht]

/-- **A record among others** is kept if it would be kept alone. -/
theorem mem_maskRecords_iff {records kept : List Record}
    (h : (e.maskRecords principal records).run = .ok kept) {r : Record} (hr : r ∈ records) :
    r ∈ kept ↔ e.KeepsAt principal r.stream r.time := by
  obtain ⟨ranges, hranges, rfl⟩ := maskRecords_eq_ok_iff.mp h
  obtain ⟨s, hs, -⟩ := lookup_readRanges hranges (List.mem_map_of_mem hr)
  rw [sortByTime_readable hranges, List.mem_mergeSort, List.mem_filter, keepsAt_iff hs,
    readable_eq_contains hs, and_iff_right hr]

/-! ### Groups of tags -/

theorem maskGroups_eq_ok_iff {groups out : List MetadataGroup} :
    (e.maskGroups principal groups).run = .ok out ↔
      ∃ ranges, (e.readRanges principal (groups.map MetadataGroup.stream)).run = .ok ranges ∧
        (groups.filter fun g => (ranges.lookup g.stream).any RangeSet.keepsTags) = out := by
  rw [maskGroups]
  simp only [Id.run_bind, Id.run_pure, map_eq_ok_iff]

/-- The tags of a stream are shown if a record of it would be kept at some instant. -/
theorem any_keepsTags_iff {streams : List StreamId} {ranges : List (StreamId × RangeSet)}
    (h : (e.readRanges principal streams).run = .ok ranges) {stream : StreamId}
    (hstream : stream ∈ streams) :
    (ranges.lookup stream).any RangeSet.keepsTags = true ↔
      ∃ t, e.KeepsAt principal stream t := by
  obtain ⟨s, hs, hlookup⟩ := lookup_readRanges h hstream
  simp only [hlookup, Option.any_some, (canonical_of_rangesOf hs).keepsTags_iff, keepsAt_iff hs]

open Classical in
/-- **Tags and records are shown to the same principals.**  If tags can be masked, the groups that
are shown are those, in their order and each as often as it was, of whose stream a record at some
instant would be kept; and what would be kept of a stream is what any masking of records keeps.  So
whoever can see no record of a stream sees none of its groups, and whoever can see one sees all. -/
theorem maskGroups_eq_filter (e : Engine Id) (principal : Principal) (groups : List MetadataGroup)
    {out : List MetadataGroup} (h : (e.maskGroups principal groups).run = .ok out) :
    (out = groups.filter fun g => ∃ t, e.KeepsAt principal g.stream t) ∧
    (∀ records kept, (e.maskRecords principal records).run = .ok kept →
      ∀ r ∈ records, r ∈ kept ↔ e.KeepsAt principal r.stream r.time) ∧
    (∀ stream, (∀ t, ¬ e.KeepsAt principal stream t) → ∀ g ∈ out, g.stream ≠ stream) ∧
    ∀ stream t, e.KeepsAt principal stream t →
      (out.filter fun g => g.stream = stream) = groups.filter fun g => g.stream = stream := by
  obtain ⟨ranges, hranges, rfl⟩ := maskGroups_eq_ok_iff.mp h
  have hout : (groups.filter fun g => (ranges.lookup g.stream).any RangeSet.keepsTags) =
      groups.filter fun g => ∃ t, e.KeepsAt principal g.stream t := by
    refine List.filter_congr fun g hg => ?_
    rw [Bool.eq_iff_iff, decide_eq_true_eq]
    exact any_keepsTags_iff hranges (List.mem_map_of_mem hg)
  rw [hout]
  refine ⟨rfl, fun records kept hkept r hr => mem_maskRecords_iff hkept hr, ?_, ?_⟩
  · rintro stream hnone g hg rfl
    obtain ⟨t, ht⟩ := of_decide_eq_true (List.mem_filter.mp hg).2
    exact hnone t ht
  · intro stream t ht
    rw [List.filter_filter]
    refine List.filter_congr fun g _ => ?_
    by_cases hg : g.stream = stream
    · have hsome : ∃ t, e.KeepsAt principal stream t := ⟨t, ht⟩
      simp [hg, hsome]
    · simp [hg]

namespace Sample

/-- One stream is of the campus, where Alice may read, and all others are of a depot. -/
def sites : Engine Id where
  collaborators :=
    { collaborators [oneHop] ⟨0, .error (.network "no route")⟩ with
      resource := fun stream =>
        ⟨0, .ok (if stream = ⟨1⟩ then campus else ⟨["depot"], by decide, by decide⟩)⟩ }
  settings := {}
  checked := Settings.check_usual

/-- The tag that a stream is in use. -/
def inUse (stream : StreamId) : MetadataGroup := ⟨stream, .ofList [("use", "yes")]⟩

end Sample

open Sample

/-- Of the depot nothing is shown, and of the campus the two groups. -/
theorem maskGroups_of_sites :
    (sites.maskGroups ⟨"alice"⟩ [inUse ⟨2⟩, inUse ⟨1⟩, inUse ⟨1⟩]).run =
        .ok [inUse ⟨1⟩, inUse ⟨1⟩] ∧
      (∃ t, sites.KeepsAt ⟨"alice"⟩ ⟨1⟩ t) ∧ ∀ t, ¬ sites.KeepsAt ⟨"alice"⟩ ⟨2⟩ t := by
  have h : (sites.maskGroups ⟨"alice"⟩ [inUse ⟨2⟩, inUse ⟨1⟩, inUse ⟨1⟩]).run =
      .ok [inUse ⟨1⟩, inUse ⟨1⟩] := by cbv
  obtain ⟨-, -, hnone, hall⟩ := maskGroups_eq_filter sites ⟨"alice"⟩ _ h
  refine ⟨h, ?_, fun t ht => ?_⟩
  · by_contra hnever
    exact hnone ⟨1⟩ (fun t ht => hnever ⟨t, ht⟩) _ List.mem_cons_self rfl
  · have heq := hall ⟨2⟩ t ht
    simp [inUse] at heq

end Engine

end AccessWindows
