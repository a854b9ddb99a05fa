import AccessWindows.Proofs.Engine.ReadRanges
import AccessWindows.Proofs.Masking
import Mathlib

/-!
# Masked records — one group for each stream

Masking puts the records of each stream together, sorts and cuts each group, and sorts what is kept
once more.  The groups ascend by stream and the last sort is stable, so that it sorts by time and,
at one time, by stream (`sortByTime_groups`); and each group is cut by the ranges of its own stream.
The result is what asking for each record alone and sorting afterwards gives
(`maskRecords_eq_mergeSort`).
-/

namespace AccessWindows

/-! ### Records by time and stream -/

/-- The records come in this order by time, and by stream if they are of one time. -/
def Record.before (a b : Record) : Bool :=
  decide (a.time < b.time) || (decide (a.time = b.time) && decide (a.stream ≤ b.stream))

theorem Record.before_iff {a b : Record} :
    a.before b = true ↔ a.time.nanos < b.time.nanos ∨ a.time = b.time ∧ a.stream ≤ b.stream := by
  simp only [before, Bool.or_eq_true, Bool.and_eq_true, decide_eq_true_eq, Timestamp.lt_def]

theorem isOrdering_before : IsOrdering Record.before where
  trans a b c hab hbc := by
    rw [Record.before_iff] at hab hbc ⊢
    rcases hab with hab | ⟨hab, hab'⟩
    · rcases hbc with hbc | ⟨hbc, -⟩
      · exact .inl (Int.lt_trans hab hbc)
      · exact .inl (hbc ▸ hab)
    · rcases hbc with hbc | ⟨hbc, hbc'⟩
      · exact .inl (hab ▸ hbc)
      · exact .inr ⟨hab.trans hbc, StreamId.le_trans hab' hbc'⟩
  total a b := by
    rw [Bool.or_eq_true, Record.before_iff, Record.before_iff]
    rcases Int.lt_trichotomy a.time.nanos b.time.nanos with h | h | h
    · exact .inl (.inl h)
    · have h := Timestamp.ext_nanos h
      exact (StreamId.le_total a.stream b.stream).imp (fun hs => .inr ⟨h, hs⟩)
        fun hs => .inr ⟨h.symm, hs⟩
    · exact .inr (.inl h)

/-- The records are of one stream and one time. -/
theorem tied_before_iff {a b : Record} :
    tied Record.before a b = true ↔ a.stream = b.stream ∧ a.time = b.time := by
  rw [tied, Bool.and_eq_true, Record.before_iff, Record.before_iff]
  constructor
  · rintro ⟨hab | ⟨hab, hab'⟩, hba | ⟨hba, hba'⟩⟩
    · omega
    · rw [hba] at hab; omega
    · rw [hab] at hba; omega
    · exact ⟨StreamId.le_antisymm hab' hba', hab⟩
  · rintro ⟨hs, ht⟩
    exact ⟨.inr ⟨ht, hs ▸ Nat.le_refl _⟩, .inr ⟨ht.symm, hs ▸ Nat.le_refl _⟩⟩

/-- Sorting by time keeps the order of the records of one stream and one time. -/
theorem le_time_of_tied_before {a b c : Record} (hb : tied Record.before a b = true)
    (hc : tied Record.before a c = true) : decide (b.time ≤ c.time) = true := by
  rw [← (tied_before_iff.mp hb).2, ← (tied_before_iff.mp hc).2]
  exact decide_eq_true (Int.le_refl _)

theorem tied_time_iff {a b : Record} :
    tied (fun a b : Record => decide (a.time ≤ b.time)) a b = true ↔ a.time = b.time := by
  simp only [tied, Bool.and_eq_true, decide_eq_true_eq, Timestamp.le_def]
  constructor
  · rintro ⟨hab, hba⟩
    exact Timestamp.ext_nanos (Int.le_antisymm hab hba)
  · intro h
    rw [h]
    exact ⟨Int.le_refl _, Int.le_refl _⟩

/-! ### Groups -/

/-- Of distinct keys, only one contributes. -/
theorem flatMap_eq_of_unique {α κ : Type} {keys : List κ} (hnd : keys.Nodup) {key : κ}
    (hkey : key ∈ keys) {group : κ → List α} (hg : ∀ k, k ≠ key → group k = []) :
    keys.flatMap group = group key := by
  induction keys with
  | nil => cases hkey
  | cons k keys ih =>
      obtain ⟨hk, hnd⟩ := List.nodup_cons.mp hnd
      rw [List.flatMap_cons]
      rcases List.mem_cons.mp hkey with rfl | hkey
      · have hnone : keys.flatMap group = [] := List.flatMap_eq_nil_iff.mpr fun k' hk' =>
          hg k' fun h => hk (h ▸ hk')
        rw [hnone, List.append_nil]
      · rw [hg k fun h => hk (h ▸ hkey), List.nil_append, ih hnd hkey]

section groups

variable {streams : List StreamId} {records : List Record}

/-- The records of each of the streams, by ascending time. -/
def streamGroups (streams : List StreamId) (records : List Record) : List Record :=
  streams.flatMap fun stream => sortByTime (records.filter fun r => r.stream == stream)

theorem stream_of_mem_group {stream : StreamId} {r : Record}
    (h : r ∈ sortByTime (records.filter fun r => r.stream == stream)) : r.stream = stream := by
  rw [sortByTime, List.mem_mergeSort] at h
  exact eq_of_beq (List.mem_filter.mp h).2

theorem pairwise_groups (h : streams.Pairwise fun a b => a ≤ b) :
    (streamGroups streams records).Pairwise fun a b => a.stream ≤ b.stream := by
  refine List.pairwise_flatMap.mpr ⟨fun stream _ => ?_, h.imp fun {s s'} hs a ha b hb => ?_⟩
  · refine List.pairwise_of_forall_mem_list fun a ha b hb => ?_
    rw [stream_of_mem_group ha, stream_of_mem_group hb]
    exact Nat.le_refl _
  · rw [stream_of_mem_group ha, stream_of_mem_group hb]
    exact hs

/-- Grouping keeps the order of the records of one stream and one time. -/
theorem filter_tied_groups (hnd : streams.Nodup) (hall : ∀ r ∈ records, r.stream ∈ streams)
    (a : Record) :
    (streamGroups streams records).filter (tied Record.before a) =
      records.filter (tied Record.before a) := by
  have hclass : ∀ r ∈ records.filter (tied Record.before a), r.stream = a.stream := fun r hr =>
    (tied_before_iff.mp (List.mem_filter.mp hr).2).1.symm
  have hgroup : ∀ stream, (sortByTime (records.filter fun r => r.stream == stream)).filter
      (tied Record.before a) =
        (records.filter (tied Record.before a)).filter fun r => r.stream == stream := by
    intro stream
    rw [sortByTime, isOrdering_time.filter_mergeSort_of_tied fun _ _ => le_time_of_tied_before,
      List.filter_comm]
  rw [streamGroups, List.filter_flatMap]
  simp only [hgroup]
  -- the class lies in the group of its stream; without that group it has no record
  by_cases ha : a.stream ∈ streams
  · rw [flatMap_eq_of_unique hnd ha fun stream hne => ?_]
    · exact List.filter_eq_self.mpr fun r hr => beq_iff_eq.mpr (hclass r hr)
    · exact List.filter_eq_nil_iff.mpr fun r hr hs => hne (eq_of_beq hs ▸ hclass r hr)
  · have hnone : records.filter (tied Record.before a) = [] :=
      List.eq_nil_iff_forall_not_mem.mpr fun r hr =>
        ha (hclass r hr ▸ hall r (List.mem_of_mem_filter hr))
    simp [hnone]

/-- **Grouping and sorting again**: groups that ascend by stream, sorted by time, are sorted by time
and stream. -/
theorem sortByTime_groups (hnd : streams.Nodup) (hsorted : streams.Pairwise fun a b => a ≤ b)
    (hall : ∀ r ∈ records, r.stream ∈ streams) :
    sortByTime (streamGroups streams records) = records.mergeSort Record.before := by
  refine isOrdering_before.eq_mergeSort_of_filter_eq ?_ fun a => ?_
  · refine (isOrdering_time.pairwise_mergeSort_of_pairwise (pairwise_groups hsorted)).imp ?_
    rintro a b ⟨hle, htied⟩
    refine Record.before_iff.mpr ?_
    rcases Int.lt_or_eq_of_le (of_decide_eq_true hle) with h | h
    · exact .inl h
    · have h := Timestamp.ext_nanos h
      exact .inr ⟨h, htied (tied_time_iff.mpr h)⟩
  · rw [sortByTime, isOrdering_time.filter_mergeSort_of_tied fun _ _ => le_time_of_tied_before,
      filter_tied_groups hnd hall]

end groups

/-! ### One record at a time -/

namespace Engine

/-- Whether a principal could read a record when it was recorded, asked for this record alone. -/
def mayRead {m : Type → Type} [Monad m] (e : Engine m) (principal : Principal) (r : Record) :
    m (Except AccessError Bool) := do
  let ranges ← e.rangesOf principal r.stream
  return ranges.map fun s => s.contains r.time

/-- Asked for alone, the record may be read. -/
def readable (e : Engine Id) (principal : Principal) (r : Record) : Bool :=
  (e.mayRead principal r).run = .ok true

variable {e : Engine Id} {principal : Principal} {records : List Record}

theorem run_mayRead {r : Record} {s : RangeSet}
    (h : (e.rangesOf principal r.stream).run = .ok s) :
    (e.mayRead principal r).run = .ok (s.contains r.time) := by
  rw [mayRead, Id.run_bind, h]
  rfl

theorem readable_eq_contains {r : Record} {s : RangeSet}
    (h : (e.rangesOf principal r.stream).run = .ok s) :
    e.readable principal r = s.contains r.time := by
  rw [readable, run_mayRead h, Bool.eq_iff_iff, decide_eq_true_eq, Except.ok.injEq]

/-- The group of a stream that is kept: of its records, those of an instant in its ranges. -/
theorem keepStream_eq {table : List (StreamId × RangeSet)} {stream : StreamId} {s : RangeSet}
    (hlookup : table.lookup stream = some s) (hs : s.Canonical) :
    keepStream table records stream =
      sortByTime ((records.filter fun r => (rangesIn table r.stream).contains r.time).filter
        fun r => r.stream == stream) := by
  have hgroup : ∀ r ∈ records.filter fun r => r.stream == stream,
      s.contains r.time = (rangesIn table r.stream).contains r.time := by
    intro r hr
    have hr : r.stream = stream := eq_of_beq (List.mem_filter.mp hr).2
    rw [hr, rangesIn_of_lookup hlookup]
  rw [keepStream, hlookup]
  calc s.keep (records.filter fun r => r.stream == stream)
      = sortByTime ((records.filter fun r => r.stream == stream).filter
          fun r => s.contains r.time) := by
        rw [hs.keep_eq_filter, sortByTime, isOrdering_time.filter_mergeSort]
        rfl
    _ = sortByTime ((records.filter fun r => (rangesIn table r.stream).contains r.time).filter
          fun r => r.stream == stream) := by
        rw [List.filter_congr hgroup, List.filter_comm]

/-- **What is kept**, if each stream has ranges: the records of an instant in the ranges of their
stream, by time and stream. -/
theorem sortByTime_keepStream {table : List (StreamId × RangeSet)}
    (h : ∀ stream ∈ records.map Record.stream, ∃ s, table.lookup stream = some s ∧ s.Canonical) :
    sortByTime ((distinctStreams (records.map Record.stream)).flatMap (keepStream table records)) =
      (records.filter fun r => (rangesIn table r.stream).contains r.time).mergeSort
        Record.before := by
  have hall : ∀ r ∈ records.filter fun r => (rangesIn table r.stream).contains r.time,
      r.stream ∈ distinctStreams (records.map Record.stream) := fun r hr =>
    mem_distinctStreams.mpr (List.mem_map_of_mem (List.mem_of_mem_filter hr))
  rw [← sortByTime_groups (nodup_distinctStreams _) (ascending_distinctStreams _) hall,
    streamGroups]
  refine congrArg sortByTime (List.flatMap_congr fun stream hstream => ?_)
  obtain ⟨s, hlookup, hs⟩ := h stream (mem_distinctStreams.mp hstream)
  exact keepStream_eq hlookup hs

/-- What is kept are the records that may be read when they are asked for alone. -/
theorem sortByTime_readable {table : List (StreamId × RangeSet)}
    (h : (e.readRanges principal (records.map Record.stream)).run = .ok table) :
    sortByTime ((distinctStreams (records.map Record.stream)).flatMap (keepStream table records)) =
      (records.filter (e.readable principal)).mergeSort Record.before := by
  have hstream : ∀ stream ∈ records.map Record.stream, ∃ s,
      table.lookup stream = some s ∧ s.Canonical := fun stream hs => by
    obtain ⟨s, halone, hlookup⟩ := lookup_readRanges h hs
    exact ⟨s, hlookup, canonical_of_rangesOf halone⟩
  have hreadable : ∀ r ∈ records,
      (rangesIn table r.stream).contains r.time = e.readable principal r := fun r hr => by
    obtain ⟨s, halone, hlookup⟩ := lookup_readRanges h (List.mem_map_of_mem hr)
    rw [rangesIn_of_lookup hlookup, readable_eq_contains halone]
  rw [sortByTime_keepStream hstream, List.filter_congr hreadable]

theorem maskRecords_eq_ok_iff {out : List Record} :
    (e.maskRecords principal records).run = .ok out ↔
      ∃ ranges, (e.readRanges principal (records.map Record.stream)).run = .ok ranges ∧
        sortByTime ((distinctStreams (records.map Record.stream)).flatMap
          (keepStream ranges records)) = out := by
  rw [maskRecords]
  simp only [Id.run_bind, Id.run_pure, map_eq_ok_iff]

/-- **Masking is asking for each record.**  If masking succeeds, each record has an answer when it
is asked for alone, and the output is the records that may be read, sorted by time and stream; each
is there as often as it was, and records of one stream and one time keep their order. -/
theorem maskRecords_eq_mergeSort (e : Engine Id) (principal : Principal) (records : List Record)
    {out : List Record} (h : (e.maskRecords principal records).run = .ok out) :
    (∀ r ∈ records, ∃ answer, (e.mayRead principal r).run = .ok answer) ∧
    out = (records.filter (e.readable principal)).mergeSort Record.before ∧
    (∀ r, out.count r = if e.readable principal r then records.count r else 0) ∧
    ∀ stream time,
      (out.filter fun r => r.stream = stream ∧ r.time = time) =
        (records.filter (e.readable principal)).filter
          fun r => r.stream = stream ∧ r.time = time := by
  obtain ⟨ranges, hranges, rfl⟩ := maskRecords_eq_ok_iff.mp h
  rw [sortByTime_readable hranges]
  refine ⟨fun r hr => ?_, rfl, fun r => ?_, fun stream time => ?_⟩
  · obtain ⟨s, hs, -⟩ := lookup_readRanges hranges (List.mem_map_of_mem hr)
    exact ⟨_, run_mayRead hs⟩
  · rw [(List.mergeSort_perm _ _).count_eq]
    split
    next hr => exact List.count_filter hr
    next hr => exact List.count_eq_zero.mpr fun hm => hr (List.mem_filter.mp hm).2
  · refine isOrdering_before.filter_mergeSort_of_tied (fun a b ha hb => ?_) _
    obtain ⟨rfl, rfl⟩ := of_decide_eq_true ha
    obtain ⟨hs, ht⟩ := of_decide_eq_true hb
    exact Record.before_iff.mpr (.inr ⟨ht.symm, hs ▸ Nat.le_refl _⟩)

namespace Sample

/-- Of two streams; two records are of one stream and one time, and one is of a time at which
nothing was in force. -/
def readings : List Record :=
  [⟨⟨2⟩, .ofSeconds 150, ⟨7⟩⟩, ⟨⟨1⟩, .ofSeconds 400, ⟨1⟩⟩, ⟨⟨1⟩, .ofSeconds 150, ⟨2⟩⟩,
    ⟨⟨2⟩, .ofSeconds 120, ⟨3⟩⟩, ⟨⟨2⟩, .ofSeconds 150, ⟨5⟩⟩]

/-- Those that may be read, by time and stream. -/
def kept : List Record :=
  [⟨⟨2⟩, .ofSeconds 120, ⟨3⟩⟩, ⟨⟨1⟩, .ofSeconds 150, ⟨2⟩⟩, ⟨⟨2⟩, .ofSeconds 150, ⟨7⟩⟩,
    ⟨⟨2⟩, .ofSeconds 150, ⟨5⟩⟩]

end Sample

theorem maskRecords_of_two_streams :
    (Sample.engine.maskRecords ⟨"alice"⟩ Sample.readings).run = .ok Sample.kept ∧
      Sample.kept = (Sample.readings.filter (Sample.engine.readable ⟨"alice"⟩)).mergeSort
        Record.before := by
  have h : (Sample.engine.maskRecords ⟨"alice"⟩ Sample.readings).run = .ok Sample.kept := by cbv
  exact ⟨h, (maskRecords_eq_mergeSort Sample.engine ⟨"alice"⟩ Sample.readings h).2.1⟩

end Engine

end AccessWindows
