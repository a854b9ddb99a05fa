import AccessWindows.Masking
import AccessWindows.Proofs.RangeSet.Union
import AccessWindows.Proofs.StableSort

/-!
# Masking — slices are a filter

In records that ascend in time, the slice of a range holds exactly the records at its instants
(`slice_eq_filter`), and the slices of ascending ranges follow one another in the records.  So the
slices of a canonical set, put together, are the records at instants of the set, each as often as it
is there (`keepSorted_eq_filter`), and masking sorts by time and filters (`keep_eq_filter`).

Every set that a caller can come by is canonical, so for all of them masking by slices and masking
record by record are the same (`slices_eq_filter`).
-/

namespace AccessWindows

/-! ### Records by time -/

theorem isOrdering_time : IsOrdering fun a b : Record => decide (a.time ≤ b.time) :=
  .of_total (fun _ _ _ => Int.le_trans) fun a b => Int.le_total a.time.nanos b.time.nanos

/-- The records ascend in time. -/
def Ascending (records : List Record) : Prop := records.Pairwise fun a b => a.time ≤ b.time

/-- What was sorted ascends by time. -/
theorem ascending_sortByTime (records : List Record) : Ascending (sortByTime records) :=
  isOrdering_time.pairwise_mergeSort records

/-- Sorting loses no record and adds none. -/
theorem sortByTime_perm (records : List Record) : (sortByTime records).Perm records :=
  List.mergeSort_perm _ _

/-- The records of one instant keep their order. -/
theorem filter_time_sortByTime (records : List Record) (t : Timestamp) :
    ((sortByTime records).filter fun r => r.time = t) = records.filter fun r => r.time = t := by
  refine isOrdering_time.filter_mergeSort_of_tied (fun a b ha hb => ?_) records
  rw [of_decide_eq_true ha, of_decide_eq_true hb]
  exact decide_eq_true (Int.le_refl _)

namespace Ascending

variable {l : List Record}

/-- In sorted records those before an instant stand in front. -/
theorem partitioned_lt (h : Ascending l) (t : Timestamp) :
    Partitioned (fun r => decide (r.time < t)) l := by
  refine h.imp fun {a b} hab hb => ?_
  simp only [decide_eq_true_eq, Timestamp.lt_def, Timestamp.le_def] at hab hb ⊢
  omega

/-- In sorted records those up to an instant stand in front. -/
theorem partitioned_le (h : Ascending l) (t : Timestamp) :
    Partitioned (fun r => decide (r.time ≤ t)) l := by
  refine h.imp fun {a b} hab hb => ?_
  simp only [decide_eq_true_eq, Timestamp.le_def] at hab hb ⊢
  omega

end Ascending

namespace RangeSet

/-! ### One slice -/

/-- The records that end a slice are counted from the start of the records, those that begin it too;
since all that come before the range also come before its end, the one cut can be made after the
other. -/
theorem slice_eq_filter {l : List Record} (h : Ascending l) (range : Interval) :
    slice l.toArray range = l.filter fun r => range.contains r.time := by
  have hlt := h.partitioned_lt range.first
  have hle := h.partitioned_le range.last
  have hle' : Partitioned (fun r => decide (r.time < range.first))
      (l.filter fun r => decide (r.time ≤ range.last)) := hlt.filter _
  have hcount : l.countP (fun r => decide (r.time < range.first)) =
      (l.filter fun r => decide (r.time ≤ range.last)).countP
        fun r => decide (r.time < range.first) := by
    rw [List.countP_filter]
    refine List.countP_congr fun r _ => ?_
    have ho := range.ordered_nanos
    simp only [decide_eq_true_eq, Bool.and_eq_true, Timestamp.lt_def, Timestamp.le_def]
    omega
  calc slice l.toArray range
      = (l.take (l.countP fun r => decide (r.time ≤ range.last))).drop
          (l.countP fun r => decide (r.time < range.first)) := by
        rw [slice, bisect_eq_countP hlt, bisect_eq_countP hle, Array.toList_extract,
          List.extract_eq_take_drop, List.drop_take]
    _ = (l.filter fun r => decide (r.time ≤ range.last)).filter
          fun r => !decide (r.time < range.first) := by
        rw [hle.take_countP, hcount, hle'.drop_countP]
    _ = l.filter fun r => range.contains r.time := by
        rw [List.filter_filter]
        refine List.filter_congr fun r _ => ?_
        rw [Bool.eq_iff_iff, Interval.contains_iff]
        simp only [Bool.and_eq_true, Bool.not_eq_true', decide_eq_true_eq, decide_eq_false_iff_not,
          Timestamp.lt_def, Timestamp.le_def]
        omega

/-! ### All slices -/

/-- In a sorted list, what satisfies `p` comes before what satisfies `q` if no `q` may stand before
a `p`. -/
theorem filter_or_eq_append {α : Type} {le : α → α → Prop} {p q : α → Bool} {l : List α}
    (hl : l.Pairwise le) (hpq : ∀ a b, q a = true → p b = true → ¬ le a b)
    (hd : ∀ a, p a = true → q a = false) :
    l.filter (fun a => p a || q a) = l.filter p ++ l.filter q := by
  induction l with
  | nil => rfl
  | cons a l ih =>
      have ih := ih hl.tail
      cases hp : p a with
      | true => simp [hp, hd a hp, ih]
      | false =>
          cases hq : q a with
          | false => simp [hp, hq, ih]
          | true =>
              -- no `p` may stand behind this `q`
              have hnone : l.filter p = [] := List.filter_eq_nil_iff.mpr fun b hb hpb =>
                hpq a b hq hpb (List.rel_of_pairwise_cons hl hb)
              rw [hnone, List.nil_append] at ih
              simp [hp, hq, hnone, ih]

/-- The slices of ascending ranges are the records that one of them covers. -/
theorem flatMap_slice_eq_filter {l : List Record} (hl : Ascending l) {ranges : List Interval}
    (hr : ranges.Pairwise Interval.Precedes) :
    ranges.flatMap (slice l.toArray) = l.filter fun r => ranges.any fun i => i.contains r.time := by
  induction ranges with
  | nil => simp
  | cons i ranges ih =>
      rw [List.flatMap_cons, ih hr.tail, slice_eq_filter hl]
      simp only [List.any_cons]
      refine (filter_or_eq_append hl (fun a b ha hb => ?_) fun a ha => ?_).symm
      · obtain ⟨j, hj, haj⟩ := List.any_eq_true.mp ha
        have hij := Interval.precedes_iff.mp (List.rel_of_pairwise_cons hr hj)
        rw [Interval.contains_iff] at haj hb
        rw [Timestamp.le_def]
        omega
      · refine List.any_eq_false.mpr fun j hj haj => ?_
        have hij := Interval.precedes_iff.mp (List.rel_of_pairwise_cons hr hj)
        rw [Interval.contains_iff] at ha haj
        omega

variable {s : RangeSet}

/-- Bisection finds an instant if and only if some range contains it. -/
theorem Canonical.contains_eq_any (h : s.Canonical) (t : Timestamp) :
    s.contains t = s.toList.any fun i => i.contains t := by
  rw [Bool.eq_iff_iff, h.contains_iff, List.any_eq_true]
  rfl

/-- The slices of sorted records are the records in the ranges. -/
theorem Canonical.keepSorted_eq_filter (h : s.Canonical) {l : List Record} (hl : Ascending l) :
    s.keepSorted l = l.filter fun r => s.contains r.time := by
  rw [keepSorted, flatMap_slice_eq_filter hl h]
  simp only [h.contains_eq_any]

/-- **Slices are a filter**: masking sorts by time and keeps the records at instants of the set. -/
theorem Canonical.keep_eq_filter (h : s.Canonical) (records : List Record) :
    s.keep records = (sortByTime records).filter fun r => s.contains r.time :=
  h.keepSorted_eq_filter (ascending_sortByTime records)

/-- A record in the ranges is kept as often as it was given. -/
theorem Canonical.count_keep (h : s.Canonical) (records : List Record) (r : Record) :
    (s.keep records).count r = if s.contains r.time then records.count r else 0 := by
  rw [h.keep_eq_filter]
  split
  next hr =>
      calc ((sortByTime records).filter fun r => s.contains r.time).count r
          = (sortByTime records).count r := List.count_filter hr
        _ = records.count r := (sortByTime_perm records).count_eq r
  next hr => exact List.count_eq_zero.mpr fun hm => hr (List.mem_filter.mp hm).2

/-- **Masking by slices is filtering**, with every set that a run of operations ends with.  The
instants of such a set are those between the ends of its ranges, both included.  Masking sorts the
records by time, those of one instant in the order in which they came, and keeps those at instants
of the set, each as often as it is there; records that ascend already are only filtered, so that no
more are kept than there are. -/
theorem slices_eq_filter (run : Run) :
    (∀ t, run.result.contains t = true ↔ ∃ i ∈ run.result.toList, i.first ≤ t ∧ t ≤ i.last) ∧
      (∀ records, Ascending (sortByTime records) ∧ (sortByTime records).Perm records ∧
        ∀ t, ((sortByTime records).filter fun r => r.time = t) =
          records.filter fun r => r.time = t) ∧
      (∀ records, run.result.keep records =
        (sortByTime records).filter fun r => run.result.contains r.time) ∧
      (∀ records r, (run.result.keep records).count r =
        if run.result.contains r.time then records.count r else 0) ∧
      ∀ records, Ascending records →
        (run.result.keepSorted records = records.filter fun r => run.result.contains r.time) ∧
          (run.result.keepSorted records).length ≤ records.length := by
  have hcan := run.canonical_result
  refine ⟨fun t => ?_, fun records => ?_, hcan.keep_eq_filter, hcan.count_keep,
    fun records hasc => ?_⟩
  · simp only [hcan.contains_iff, Covers, Interval.contains_iff, Timestamp.le_def]
  · exact ⟨ascending_sortByTime records, sortByTime_perm records, filter_time_sortByTime records⟩
  · have hkept := hcan.keepSorted_eq_filter hasc
    refine ⟨hkept, ?_⟩
    rw [hkept]
    exact List.length_filter_le _ _

end RangeSet

end AccessWindows
