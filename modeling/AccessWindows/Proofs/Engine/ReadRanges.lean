import AccessWindows.Proofs.Engine.ValidRanges

/-!
# Read ranges — one question for many streams

Masking asks for the distinct streams first, and then for the distinct resources of these, and joins
the answers in whatever order they came.  If this succeeds it gives every stream what the two
questions put for this stream alone give (`lookup_readRanges`).
-/

namespace AccessWindows

/-! ### Each key once, in ascending order -/

namespace StreamId

theorem le_trans {a b c : StreamId} (hab : a ≤ b) (hbc : b ≤ c) : a ≤ c :=
  Nat.le_trans hab hbc

theorem le_total (a b : StreamId) : a ≤ b ∨ b ≤ a := Nat.le_total _ _

theorem isOrdering_le : IsOrdering fun a b : StreamId => decide (a ≤ b) :=
  .of_total (fun _ _ _ => le_trans) le_total

theorem le_antisymm {a b : StreamId} (hab : a ≤ b) (hba : b ≤ a) : a = b := by
  cases a
  cases b
  exact congrArg StreamId.mk (BitVec.eq_of_toNat_eq (Nat.le_antisymm hab hba))

end StreamId

namespace Resource

theorem le_refl (a : Resource) : a ≤ a := String.le_refl a.text

theorem le_trans {a b c : Resource} (hab : a ≤ b) (hbc : b ≤ c) : a ≤ c :=
  String.le_trans hab hbc

theorem le_total (a b : Resource) : a ≤ b ∨ b ≤ a := String.le_total a.text b.text

theorem isOrdering_le : IsOrdering fun a b : Resource => decide (a ≤ b) :=
  .of_total (fun _ _ _ => le_trans) le_total

end Resource

namespace Engine

/-- Without repetitions nothing is there twice. -/
theorem nodup_eraseDups {α : Type} [BEq α] [LawfulBEq α] : (l : List α) → l.eraseDups.Nodup
  | [] => List.nodup_nil
  | a :: l => by
      rw [List.eraseDups_cons]
      refine List.nodup_cons.mpr ⟨fun ha => ?_, nodup_eraseDups _⟩
      simpa using (List.mem_filter.mp (List.mem_eraseDups.mp ha)).2
termination_by l => l.length
decreasing_by exact Nat.lt_succ_of_le (List.length_filter_le _ _)

/-- The distinct streams are the streams. -/
theorem mem_distinctStreams {streams : List StreamId} {stream : StreamId} :
    stream ∈ distinctStreams streams ↔ stream ∈ streams := by
  rw [distinctStreams, List.mem_mergeSort, List.mem_eraseDups]

theorem nodup_distinctStreams (streams : List StreamId) : (distinctStreams streams).Nodup :=
  (List.mergeSort_perm _ _).nodup_iff.mpr (nodup_eraseDups streams)

/-- Streams are asked about by ascending identifier. -/
theorem ascending_distinctStreams (streams : List StreamId) :
    (distinctStreams streams).Pairwise fun a b => a ≤ b :=
  StreamId.isOrdering_le.pairwise_mergeSort _

/-- The distinct resources are the resources. -/
theorem mem_distinctResources {resources : List Resource} {resource : Resource} :
    resource ∈ distinctResources resources ↔ resource ∈ resources := by
  rw [distinctResources, List.mem_mergeSort, List.mem_eraseDups]

/-- A stream has the ranges of its resource, if all resources have ranges. -/
theorem lookup_joinRanges {resources : List (StreamId × Resource)}
    {ranges : List (Resource × RangeSet)}
    (hall : ∀ entry ∈ resources, ∃ s, ranges.lookup entry.2 = some s) (stream : StreamId) :
    (joinRanges resources ranges).lookup stream =
      (resources.lookup stream).bind fun resource => ranges.lookup resource := by
  induction resources with
  | nil => rfl
  | cons entry resources ih =>
      obtain ⟨⟨s, hs⟩, hall⟩ := List.forall_mem_cons.mp hall
      have hjoin : joinRanges (entry :: resources) ranges =
          (entry.1, s) :: joinRanges resources ranges := by
        simp [joinRanges, hs]
      rw [hjoin, List.lookup_cons, List.lookup_cons, ih hall]
      cases stream == entry.1 with
      | true => exact hs.symm
      | false => rfl

/-- The ranges of a stream in a table; none if it is missing. -/
def rangesIn (table : List (StreamId × RangeSet)) (stream : StreamId) : RangeSet :=
  (table.lookup stream).getD (.ofList [])

/-- A stream that is in a table has the ranges given there. -/
theorem rangesIn_of_lookup {table : List (StreamId × RangeSet)} {stream : StreamId} {s : RangeSet}
    (h : table.lookup stream = some s) : rangesIn table stream = s := by
  rw [rangesIn, h]
  rfl

/-! ### One stream alone -/

/-- The resource of a stream is what the index replies within the deadline. -/
theorem resourceIn_eq_ok_iff {s : Settings} {stream : StreamId} {reply : Reply Resource}
    {resource : Resource} :
    resourceIn s stream reply = .ok resource ↔
      reply.within? s.lookupTimeout.toNat = some (.ok resource) := by
  rw [resourceIn, mapError_eq_ok_iff, Reply.outcome_eq_ok_iff]

/-- The resource that a stream belongs to, asked for this stream alone. -/
def resourceOf {m : Type → Type} [Monad m] (e : Engine m) (stream : StreamId) :
    m (Except AccessError Resource) := do
  let reply ← e.collaborators.resource stream
  return resourceIn e.settings stream reply

/-- The instants at which a principal could read a stream, asked for this stream alone. -/
def rangesOf {m : Type → Type} [Monad m] (e : Engine m) (principal : Principal)
    (stream : StreamId) : m (Except AccessError RangeSet) := do
  match ← e.resourceOf stream with
  | .error cause => return .error cause
  | .ok resource => e.validRanges ⟨resource, .read, principal⟩

variable {e : Engine Id} {principal : Principal} {streams : List StreamId}
  {resources : List (StreamId × Resource)} {ranges : List (StreamId × RangeSet)}

/-- The ranges of a stream are the valid ranges for reading its resource. -/
theorem rangesOf_eq_ok_iff {stream : StreamId} {s : RangeSet} :
    (e.rangesOf principal stream).run = .ok s ↔
      ∃ resource, (e.resourceOf stream).run = .ok resource ∧
        (e.validRanges ⟨resource, .read, principal⟩).run = .ok s := by
  rw [rangesOf, Id.run_bind]
  cases (e.resourceOf stream).run with
  | error cause => simp
  | ok resource => simp

/-- The ranges of a stream are canonical, as valid ranges are. -/
theorem canonical_of_rangesOf {stream : StreamId} {s : RangeSet}
    (h : (e.rangesOf principal stream).run = .ok s) : s.Canonical := by
  obtain ⟨resource, -, hs⟩ := rangesOf_eq_ok_iff.mp h
  exact canonical_of_validRanges hs

/-! ### All streams together, and all resources -/

/-- Only streams that were asked for have a resource, and each that which it has alone. -/
theorem of_mem_findResources (h : (e.findResources streams).run = .ok resources) :
    ∀ entry ∈ resources, entry.1 ∈ streams ∧ (e.resourceOf entry.1).run = .ok entry.2 := by
  intro entry he
  obtain ⟨hstream, resource, hr, hentry⟩ := of_mem_askAll (fun _ => rfl) h entry he
  exact ⟨hstream, hr.trans (congrArg Except.ok hentry)⟩

/-- If resources are found, then each stream has its own. -/
theorem lookup_findResources (h : (e.findResources streams).run = .ok resources)
    {stream : StreamId} (hstream : stream ∈ streams) :
    ∃ resource, (e.resourceOf stream).run = .ok resource ∧
      resources.lookup stream = some resource :=
  lookup_askAll (fun _ => rfl) h hstream

/-- Resources are found if and only if that of each stream is. -/
theorem exists_findResources_iff :
    (∃ resources, (e.findResources streams).run = .ok resources) ↔
      ∀ stream ∈ streams, ∃ resource, (e.resourceOf stream).run = .ok resource :=
  exists_askAll_iff fun _ => rfl

/-- Under each resource stand the valid ranges for reading it. -/
theorem lookup_resourceRanges {places : List Resource} {answers : List (Resource × RangeSet)}
    (h : (e.resourceRanges principal places).run = .ok answers) {resource : Resource}
    (hresource : resource ∈ places) :
    ∃ s, (e.validRanges ⟨resource, .read, principal⟩).run = .ok s ∧
      answers.lookup resource = some s := by
  obtain ⟨chains, hc, hlookup⟩ := lookup_askAll (fun _ => rfl) h hresource
  exact ⟨_, validRanges_eq_ok_iff.mpr ⟨chains, hc, rfl⟩, hlookup⟩

/-- Ranges are found if and only if those of each resource are. -/
theorem exists_resourceRanges_iff {places : List Resource} :
    (∃ answers, (e.resourceRanges principal places).run = .ok answers) ↔
      ∀ resource ∈ places, ∃ s, (e.validRanges ⟨resource, .read, principal⟩).run = .ok s := by
  rw [resourceRanges, exists_askAll_iff fun _ => rfl]
  simp only [validRanges_eq_ok_iff]
  exact forall₂_congr fun resource _ =>
    ⟨fun ⟨chains, hc⟩ => ⟨_, chains, hc, rfl⟩, fun ⟨_, chains, hc, _⟩ => ⟨chains, hc⟩⟩

/-- Ranges for all streams need a resource for each of these, and ranges for each resource. -/
theorem readRanges_eq_ok_iff :
    (e.readRanges principal streams).run = .ok ranges ↔
      ∃ resources answers, (e.findResources (distinctStreams streams)).run = .ok resources ∧
        (e.resourceRanges principal (distinctResources (resources.map Prod.snd))).run =
          .ok answers ∧
        joinRanges resources answers = ranges := by
  rw [readRanges, Id.run_bind]
  cases (e.findResources (distinctStreams streams)).run with
  | error cause => simp
  | ok resources => simp [map_eq_ok_iff]

/-- **One question for many streams**: each stream that occurs has the ranges that it would have
been given alone. -/
theorem lookup_readRanges (h : (e.readRanges principal streams).run = .ok ranges)
    {stream : StreamId} (hstream : stream ∈ streams) :
    ∃ s, (e.rangesOf principal stream).run = .ok s ∧ ranges.lookup stream = some s := by
  obtain ⟨resources, answers, hresources, hanswers, rfl⟩ := readRanges_eq_ok_iff.mp h
  have hall : ∀ entry ∈ resources, ∃ s, (e.validRanges ⟨entry.2, .read, principal⟩).run = .ok s ∧
      answers.lookup entry.2 = some s := fun entry he =>
    lookup_resourceRanges hanswers (mem_distinctResources.mpr (List.mem_map_of_mem he))
  obtain ⟨resource, hr, hlookup⟩ :=
    lookup_findResources hresources (mem_distinctStreams.mpr hstream)
  obtain ⟨s, hs, hs'⟩ := hall _ (mem_of_lookup hlookup)
  refine ⟨s, rangesOf_eq_ok_iff.mpr ⟨resource, hr, hs⟩, ?_⟩
  rw [lookup_joinRanges (fun entry he => (hall entry he).imp fun _ hs => hs.2), hlookup]
  exact hs'

/-- There are ranges for many streams if there are ranges for each of them. -/
theorem exists_readRanges_iff :
    (∃ ranges, (e.readRanges principal streams).run = .ok ranges) ↔
      ∀ stream ∈ streams, ∃ s, (e.rangesOf principal stream).run = .ok s := by
  constructor
  · rintro ⟨ranges, h⟩ stream hstream
    exact (lookup_readRanges h hstream).imp fun _ hs => hs.1
  · intro h
    have hresource : ∀ stream ∈ distinctStreams streams, ∃ resource,
        (e.resourceOf stream).run = .ok resource := fun stream hs => by
      obtain ⟨s, hs⟩ := h stream (mem_distinctStreams.mp hs)
      exact (rangesOf_eq_ok_iff.mp hs).imp fun _ hr => hr.1
    obtain ⟨resources, hresources⟩ := exists_findResources_iff.mpr hresource
    have hranges : ∀ resource ∈ distinctResources (resources.map Prod.snd), ∃ s,
        (e.validRanges ⟨resource, .read, principal⟩).run = .ok s := fun resource hr => by
      obtain ⟨entry, he, rfl⟩ := List.mem_map.mp (mem_distinctResources.mp hr)
      obtain ⟨hentry, hplace⟩ := of_mem_findResources hresources entry he
      obtain ⟨s, hs⟩ := h entry.1 (mem_distinctStreams.mp hentry)
      obtain ⟨resource, hr, hs⟩ := rangesOf_eq_ok_iff.mp hs
      cases hplace.symm.trans hr
      exact ⟨s, hs⟩
    obtain ⟨answers, hanswers⟩ := exists_resourceRanges_iff.mpr hranges
    exact ⟨_, readRanges_eq_ok_iff.mpr ⟨resources, answers, hresources, hanswers, rfl⟩⟩

end Engine

end AccessWindows
