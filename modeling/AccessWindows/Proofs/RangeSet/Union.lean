import AccessWindows.Proofs.RangeSet.Canonical

/-!
# Range sets — union

On canonical sets `union` is the union of instants (`Canonical.contains_union`), and its result is
canonical again.  Since canonical sets are determined by their instants, `union` is commutative,
associative and idempotent there, and the empty set is its identity.  That nothing is done when the
second set is empty makes no difference, except to a first set that is not canonical: such a set
would be left as it is, and brought into normal form the other way round.

A caller has four ways to come by a set: the empty one, the instants of some intervals, the union
of two sets, and the ranges of a set gathered again, with further intervals.  `Run` is any sequence
of these.  Whatever the grouping and the detours, a run ends with what one pass over all intervals
that went into it yields (`Run.result_eq`).
-/

namespace AccessWindows.RangeSet

/-- An empty set has no ranges. -/
theorem toList_of_isEmpty {s : RangeSet} (h : s.isEmpty = true) : s.toList = [] := by
  simpa [isEmpty, toList] using h

theorem contains_empty (t : Timestamp) : empty.contains t = false := rfl

/-- Nothing is coalesced from nothing. -/
theorem ofList_nil : ofList [] = empty := canonical_empty.ofList_toList

namespace Canonical

variable {s s' s'' : RangeSet}

/-- A union with a canonical set is canonical. -/
theorem union (hs : s.Canonical) (s' : RangeSet) : (s.union s').Canonical := by
  rw [RangeSet.union]
  split
  · exact hs
  · exact canonical_ofList _

/-- A union covers what one of the two covers. -/
theorem contains_union (hs : s.Canonical) (hs' : s'.Canonical) (t : Timestamp) :
    (s.union s').contains t = true ↔ s.contains t = true ∨ s'.contains t = true := by
  rw [hs.contains_iff, hs'.contains_iff, RangeSet.union]
  split
  next h => rw [hs.contains_iff, toList_of_isEmpty h, Covers.nil_iff, or_false]
  next => rw [contains_ofList, Covers.append_iff]

/-! ### Laws -/

/-- The order of the two does not matter. -/
theorem union_comm (hs : s.Canonical) (hs' : s'.Canonical) : s.union s' = s'.union s :=
  (hs.union s').ext (hs'.union s) fun t => by
    rw [hs.contains_union hs', hs'.contains_union hs, or_comm]

/-- It does not matter which two are united first. -/
theorem union_assoc (hs : s.Canonical) (hs' : s'.Canonical) (hs'' : s''.Canonical) :
    (s.union s').union s'' = s.union (s'.union s'') :=
  ((hs.union s').union s'').ext (hs.union _) fun t => by
    rw [(hs.union s').contains_union hs'', hs.contains_union hs', hs.contains_union (hs'.union s''),
      hs'.contains_union hs'', or_assoc]

/-- A set adds nothing to itself. -/
theorem union_self (hs : s.Canonical) : s.union s = s :=
  (hs.union s).ext hs fun t => by rw [hs.contains_union hs, or_self]

/-- Nothing is added by the empty set on the right. -/
theorem union_empty (hs : s.Canonical) : s.union empty = s :=
  (hs.union empty).ext hs fun t => by
    rw [hs.contains_union canonical_empty, contains_empty, Bool.false_eq_true, or_false]

/-- Nothing is added to by the empty set on the left. -/
theorem empty_union (hs : s.Canonical) : empty.union s = s := by
  rw [canonical_empty.union_comm hs, hs.union_empty]

end Canonical

/-- **Union is joint coalescing**: it does not matter whether two lists are brought into normal
form together or each on its own. -/
theorem union_ofList (l m : List Interval) : (ofList l).union (ofList m) = ofList (l ++ m) := by
  have hl := canonical_ofList l
  have hm := canonical_ofList m
  refine (hl.union _).ext (canonical_ofList _) fun t => ?_
  rw [hl.contains_union hm, contains_ofList, contains_ofList, contains_ofList, Covers.append_iff]

/-! ### Runs -/

/-- A run of operations that ends with a set, by its last operation. -/
inductive Run where
  /-- The set without an instant. -/
  | empty
  /-- The instants of some intervals. -/
  | compress (intervals : List Interval)
  /-- The set of one run, merged into that of another. -/
  | merge (run other : Run)
  /-- The ranges of a set, gathered again with further intervals. -/
  | reload (run : Run) (more : List Interval)

namespace Run

/-- The set that a run ends with. -/
def result : Run → RangeSet
  | empty => .empty
  | compress intervals => ofList intervals
  | merge run other => run.result.union other.result
  | reload run more => ofList (run.result.toList ++ more)

/-- The intervals that went into a run. -/
def intervals : Run → List Interval
  | empty => []
  | compress intervals => intervals
  | merge run other => run.intervals ++ other.intervals
  | reload run more => run.intervals ++ more

/-- **The run lemma**: a run ends with what one pass over its intervals yields. -/
theorem result_eq (r : Run) : r.result = ofList r.intervals := by
  induction r with
  | empty => exact ofList_nil.symm
  | compress intervals => rfl
  | merge run other ih ih' =>
      rw [result, ih, ih', union_ofList]
      rfl
  | reload run more ih =>
      rw [result, ih, intervals]
      refine ofList_eq_ofList_iff.mpr fun t => ?_
      rw [Covers.append_iff, Covers.append_iff, toList_ofList, covers_coalesce]

/-- However sets are united, the result is canonical. -/
theorem canonical_result (r : Run) : r.result.Canonical := by
  rw [r.result_eq]
  exact canonical_ofList _

end Run

/-- **Union on canonical sets.**  The union of two normal forms is the normal form of both lists
together.  So every run ends with the canonical set of all intervals that went into it, and on the
sets that runs end with, union is commutative, associative and idempotent, the empty set being its
identity on either side. -/
theorem union_laws_of_runs :
    (∀ l m : List Interval, (ofList l).union (ofList m) = ofList (l ++ m)) ∧
      (∀ r : Run, r.result.Canonical ∧ r.result = ofList r.intervals) ∧
      (∀ r r' : Run, r.result.union r'.result = r'.result.union r.result) ∧
      (∀ r r' r'' : Run, (r.result.union r'.result).union r''.result =
        r.result.union (r'.result.union r''.result)) ∧
      (∀ r : Run, r.result.union r.result = r.result) ∧
      ∀ r : Run, r.result.union empty = r.result ∧ empty.union r.result = r.result := by
  refine ⟨union_ofList, fun r => ⟨r.canonical_result, r.result_eq⟩, fun r r' => ?_,
    fun r r' r'' => ?_, fun r => ?_, fun r => ⟨?_, ?_⟩⟩
  · exact r.canonical_result.union_comm r'.canonical_result
  · exact r.canonical_result.union_assoc r'.canonical_result r''.canonical_result
  · exact r.canonical_result.union_self
  · exact r.canonical_result.union_empty
  · exact r.canonical_result.empty_union

end AccessWindows.RangeSet
