import AccessWindows.Proofs.Fixture

/-!
# Streams — what a fixture says about a name

A fixture indexes its streams by the identifiers of their names, one after the other, and nothing
keeps two entries from having the same name.  Such entries share what is indexed: the last of them
decides which resource the stream belongs to, and each of them can make it unreachable
(`resource_of_build`).  So an entry that is the only one of its name is honoured, and one among
others may be redirected or disabled (`build_overrules_streams`).

A declared name is found again from its identifier in any case, as long as no two declared names
have one identifier (`streamName?_ofName`).
-/

namespace AccessWindows

namespace StreamIndex

variable {stream : StreamId} {x : StreamIndex}

/-! ### Indexes -/

theorem lookup_declare (x : StreamIndex) (e : StreamEntry) (stream : StreamId) :
    (x.declare e).entries.lookup stream =
      if stream = .ofName e.name then some e.resource else x.entries.lookup stream := by
  have hentries : (x.declare e).entries = (.ofName e.name, e.resource) :: x.entries := by
    rw [declare]
    cases e.unreachable with
    | true => rfl
    | false => rfl
  rw [hentries, List.lookup_cons]
  by_cases h : stream = .ofName e.name
  · simp [h]
  · rw [if_neg h, beq_eq_false_iff_ne.mpr h]

theorem mem_unreachable_declare {e : StreamEntry} :
    stream ∈ (x.declare e).unreachable ↔
      stream ∈ x.unreachable ∨ e.unreachable = true ∧ .ofName e.name = stream := by
  rw [declare]
  cases e.unreachable with
  | true => simp [cutOff, insert, or_comm, eq_comm]
  | false => simp [insert]

theorem lookup_foldl_declare (entries : List StreamEntry) (stream : StreamId) :
    (entries.foldl declare {}).entries.lookup stream =
      (entries.filter fun e => .ofName e.name = stream).getLast?.map StreamEntry.resource :=
  Declarations.find?_foldl (fun (x : StreamIndex) stream => x.entries.lookup stream) lookup_declare
    rfl entries

theorem mem_unreachable_foldl_declare {entries : List StreamEntry} :
    stream ∈ (entries.foldl declare {}).unreachable ↔
      ∃ e ∈ entries, e.unreachable = true ∧ .ofName e.name = stream :=
  Declarations.marked_foldl_iff (fun (x : StreamIndex) stream => stream ∈ x.unreachable)
    (fun _ e _ => mem_unreachable_declare (e := e)) List.not_mem_nil entries

end StreamIndex

namespace Fixture

variable {f : Fixture} {w : World} {e : StreamEntry} {name : String}

/-! ### Names -/

/-- The names of the streams that a fixture declares. -/
def streamNames (f : Fixture) : List String := f.streams.map StreamEntry.name

/-- The entries with that name. -/
def named (f : Fixture) (name : String) : List StreamEntry :=
  f.streams.filter fun e => e.name = name

theorem mem_named : e ∈ f.named name ↔ e ∈ f.streams ∧ e.name = name := by
  simp [named]

theorem streamId?_eq_some_iff {id : StreamId} :
    f.streamId? name = some id ↔ name ∈ f.streamNames ∧ .ofName name = id := by
  rw [streamId?, Option.ite_none_right_eq_some]
  simp [streamNames]

/-- **A declared name is found again** from its identifier, if no other has it. -/
theorem streamName?_ofName (hinj : Set.InjOn StreamId.ofName { name | name ∈ f.streamNames })
    (h : name ∈ f.streamNames) : f.streamName? (.ofName name) = some name := by
  obtain ⟨e, he, rfl⟩ := List.mem_map.mp h
  have hsome : (f.streams.find? fun other =>
      StreamId.ofName other.name == StreamId.ofName e.name).isSome = true :=
    List.find?_isSome.mpr ⟨e, he, beq_self_eq_true _⟩
  obtain ⟨found, hfound⟩ := Option.isSome_iff_exists.mp hsome
  have hid := List.find?_some hfound
  have hsame : found.name = e.name :=
    hinj (List.mem_map_of_mem (List.mem_of_find?_eq_some hfound)) h (eq_of_beq hid)
  rw [streamName?, hfound, Option.map_some, hsame]

/-! ### Answers -/

/-- The answer to a question for a stream that the index treats like this. -/
def resourceFor (name : String) (unreachable : Bool) (resource : Resource) : Reply Resource where
  delay := 0
  result :=
    if unreachable then
      .error (.storage ("Metadata store unavailable for stream " ++ (StreamId.ofName name).text))
    else .ok resource

/-- Of the entries with a name, the last gives the resource and any can make it unreachable. -/
theorem run_resource_of_build (h : f.build = .ok w)
    (hinj : Set.InjOn StreamId.ofName { name | name ∈ f.streamNames }) {last : StreamEntry}
    (hlast : (f.named name).getLast? = some last) :
    (w.collaborators.resource (.ofName name)).run =
      resourceFor name ((f.named name).any StreamEntry.unreachable) last.resource := by
  obtain ⟨-, routes, -, rfl⟩ := build_eq_ok_iff.mp h
  have hmem := mem_named.mp (List.mem_of_getLast? hlast)
  have hname : name ∈ f.streamNames := hmem.2 ▸ List.mem_map_of_mem hmem.1
  -- without collisions, to have the identifier of a name is to have the name
  have hsame : ∀ e ∈ f.streams, StreamId.ofName e.name = .ofName name ↔ e.name = name :=
    fun e he => ⟨fun hid => hinj (List.mem_map_of_mem he) hname hid, fun heq => by rw [heq]⟩
  have hfilter : (f.streams.filter fun e => StreamId.ofName e.name = .ofName name) =
      f.named name := List.filter_congr fun e he => by simp only [hsame e he]
  have hfind := StreamIndex.lookup_foldl_declare f.streams (.ofName name)
  rw [hfilter, hlast, Option.map_some] at hfind
  have hreach : StreamId.ofName name ∈ (f.streams.foldl StreamIndex.declare {}).unreachable ↔
      (f.named name).any StreamEntry.unreachable = true := by
    rw [StreamIndex.mem_unreachable_foldl_declare, List.any_eq_true]
    simp only [mem_named]
    constructor
    · rintro ⟨e, he, hu, hid⟩
      exact ⟨e, ⟨he, (hsame e he).mp hid⟩, hu⟩
    · rintro ⟨e, ⟨he, heq⟩, hu⟩
      exact ⟨e, he, hu, (hsame e he).mpr heq⟩
  have hreply : ((f.worldWith routes).collaborators.resource (.ofName name)).run =
      ⟨0, (f.streams.foldl StreamIndex.declare {}).answer (.ofName name)⟩ := rfl
  rw [hreply, resourceFor, StreamIndex.answer]
  by_cases hu : StreamId.ofName name ∈ (f.streams.foldl StreamIndex.declare {}).unreachable
  · rw [if_pos hu, if_pos (hreach.mp hu)]
  · rw [if_neg hu, if_neg fun h => hu (hreach.mpr h), hfind]

/-- **What is declared of a stream holds**, as far as all entries of its name agree.  In a built
world, if no two declared names have one identifier, a question for a declared stream fails if an
entry of its name is unreachable, and otherwise yields the resource of the last entry of its name.
So where the entries of a name have the same resource and are reachable alike, each of them is
honoured.  The name itself is found again in any case. -/
theorem resource_of_build (h : f.build = .ok w)
    (hinj : Set.InjOn StreamId.ofName { name | name ∈ f.streamNames }) (he : e ∈ f.streams) :
    (∃ last, (f.named e.name).getLast? = some last ∧
      (w.collaborators.resource (.ofName e.name)).run =
        resourceFor e.name ((f.named e.name).any StreamEntry.unreachable) last.resource) ∧
    ((∀ other ∈ f.named e.name,
        other.resource = e.resource ∧ other.unreachable = e.unreachable) →
      (w.collaborators.resource (.ofName e.name)).run =
        resourceFor e.name e.unreachable e.resource) ∧
    (f.streamId? e.name).bind f.streamName? = some e.name := by
  have hmem : e ∈ f.named e.name := mem_named.mpr ⟨he, rfl⟩
  have hlast := List.getLast?_eq_some_getLast (List.ne_nil_of_mem hmem)
  have hrun := run_resource_of_build h hinj hlast
  have hname : e.name ∈ f.streamNames := List.mem_map_of_mem he
  refine ⟨⟨_, hlast, hrun⟩, fun halike => ?_, ?_⟩
  · have hany : (f.named e.name).any StreamEntry.unreachable = e.unreachable := by
      rw [Bool.eq_iff_iff, List.any_eq_true]
      constructor
      · rintro ⟨other, ho, hu⟩
        exact (halike other ho).2 ▸ hu
      · intro hu
        exact ⟨e, hmem, hu⟩
    rw [hrun, hany, (halike _ (List.mem_of_getLast? hlast)).1]
  · rw [streamId?_eq_some_iff.mpr ⟨hname, rfl⟩, Option.bind_some, streamName?_ofName hinj hname]

namespace Sample

open Engine.Sample

/-- A building of the campus. -/
def annex : Resource := ⟨["campus", "annex"], by decide, by decide⟩

/-- Two streams of one name, and a third that is out of reach. -/
def twice : Fixture where
  streams := [⟨"meter", campus, false⟩, ⟨"door", campus, true⟩, ⟨"meter", annex, false⟩]

/-- A stream that is declared again, and then as out of reach. -/
def withdrawn : Fixture where
  streams := [⟨"meter", campus, false⟩, ⟨"meter", campus, true⟩]

theorem injOn_twice : Set.InjOn StreamId.ofName { name | name ∈ twice.streamNames } := by
  have hne : StreamId.ofName "meter" ≠ .ofName "door" := by decide +kernel
  have hcases : ∀ name ∈ twice.streamNames, name = "meter" ∨ name = "door" := by
    simp [twice, streamNames]
  intro a ha b hb h
  rcases hcases a ha with rfl | rfl
  · rcases hcases b hb with rfl | rfl
    · rfl
    · exact absurd h hne
  · rcases hcases b hb with rfl | rfl
    · exact absurd h.symm hne
    · rfl

theorem injOn_withdrawn : Set.InjOn StreamId.ofName { name | name ∈ withdrawn.streamNames } := by
  have hcases : ∀ name ∈ withdrawn.streamNames, name = "meter" := by
    simp [withdrawn, streamNames]
  intro a ha b hb _
  rw [hcases a ha, hcases b hb]

end Sample

open Sample Engine.Sample

/-- The only entry of its name is honoured, and both entries of another name lead to the resource of
the later. -/
theorem resource_of_twice :
    ∃ w, twice.build = .ok w ∧ Set.InjOn StreamId.ofName { name | name ∈ twice.streamNames } ∧
      ⟨"door", campus, true⟩ ∈ twice.streams ∧ ⟨"meter", annex, false⟩ ∈ twice.streams ∧
      (w.collaborators.resource (.ofName "door")).run = resourceFor "door" true campus ∧
      (w.collaborators.resource (.ofName "meter")).run = resourceFor "meter" false annex ∧
      (twice.streamId? "meter").bind twice.streamName? = some "meter" := by
  obtain ⟨w, hw⟩ := (exists_build_iff (f := twice)).mpr (by decide)
  have hdoor : ⟨"door", campus, true⟩ ∈ twice.streams := by simp [twice]
  have hmeter : ⟨"meter", annex, false⟩ ∈ twice.streams := by simp [twice]
  obtain ⟨-, halike, -⟩ := resource_of_build hw injOn_twice hdoor
  obtain ⟨⟨last, hlast, hrun⟩, -, hname⟩ := resource_of_build hw injOn_twice hmeter
  have hsingle : twice.named "door" = [⟨"door", campus, true⟩] := rfl
  have hpair : twice.named "meter" = [⟨"meter", campus, false⟩, ⟨"meter", annex, false⟩] := rfl
  rw [hpair] at hlast hrun
  cases hlast
  refine ⟨w, hw, injOn_twice, hdoor, hmeter, halike fun other ho => ?_, hrun, hname⟩
  rw [hsingle] at ho
  cases List.mem_singleton.mp ho
  exact ⟨rfl, rfl⟩

/-- **An entry may be redirected or disabled**: a stream was declared for the campus and belongs to
a building, and one that was declared as reachable is not. -/
theorem build_overrules_streams :
    (∃ w, twice.build = .ok w ∧ Set.InjOn StreamId.ofName { name | name ∈ twice.streamNames } ∧
      ⟨"meter", campus, false⟩ ∈ twice.streams ∧
      (w.collaborators.resource (.ofName "meter")).run = resourceFor "meter" false annex ∧
      annex ≠ campus) ∧
    ∃ w, withdrawn.build = .ok w ∧
      Set.InjOn StreamId.ofName { name | name ∈ withdrawn.streamNames } ∧
      ⟨"meter", campus, false⟩ ∈ withdrawn.streams ∧
      (w.collaborators.resource (.ofName "meter")).run = resourceFor "meter" true campus := by
  obtain ⟨w, hw⟩ := (exists_build_iff (f := twice)).mpr (by decide)
  obtain ⟨w', hw'⟩ := (exists_build_iff (f := withdrawn)).mpr (by decide)
  have hlast : (twice.named "meter").getLast? = some ⟨"meter", annex, false⟩ := rfl
  have hlast' : (withdrawn.named "meter").getLast? = some ⟨"meter", campus, true⟩ := rfl
  exact ⟨⟨w, hw, injOn_twice, by simp [twice], run_resource_of_build hw injOn_twice hlast,
    by decide⟩, w', hw', injOn_withdrawn, by simp [withdrawn],
    run_resource_of_build hw' injOn_withdrawn hlast'⟩

end Fixture

end AccessWindows
