import AccessWindows.Proofs.Bisect
import AccessWindows.Proofs.RangeSet.Coalesce
import Mathlib.Data.List.Chain

/-!
# Range sets — the normal form

A range set is *canonical* when its ranges ascend and some instant lies between any two.  Then the
ranges that end before an instant come first, so bisection decides membership
(`Canonical.contains_iff`); and the set of instants determines the ranges (`Canonical.ext`), since
the first instant of a range is the least one not covered by the ranges before it, and its last
instant the last before a gap.

* `ofList_canonical_covering`: `ofList` yields a canonical set, and covers exactly its intervals.
* `ofList_eq_iff_same_instants`: two lists yield equal sets exactly when they cover the same
  instants, so that order, repetition and the cutting of intervals into pieces do not matter.
-/

namespace AccessWindows.RangeSet

/-- The ranges ascend, and some instant lies between any two. -/
def Canonical (s : RangeSet) : Prop := s.toList.Pairwise Interval.Precedes

theorem toList_ofList (l : List Interval) : (ofList l).toList = coalesce l := rfl

theorem ext_toList {s s' : RangeSet} (h : s.toList = s'.toList) : s = s' := by
  obtain ⟨⟨l⟩⟩ := s
  obtain ⟨⟨l'⟩⟩ := s'
  cases h
  rfl

theorem canonical_empty : empty.Canonical := List.Pairwise.nil

theorem canonical_ofList (l : List Interval) : (ofList l).Canonical :=
  pairwise_precedes_coalesce l

/-! ### Membership -/

/-- The ranges that end before an instant come first. -/
theorem partitioned_of_precedes {l : List Interval} (h : l.Pairwise Interval.Precedes)
    (t : Timestamp) : Partitioned (fun r => decide (r.last < t)) l := by
  refine h.imp fun {a b} hab hb => ?_
  rw [Interval.precedes_iff] at hab
  have hb' := b.ordered_nanos
  simp only [decide_eq_true_eq, Timestamp.lt_def] at hb ⊢
  omega

theorem covers_filter_iff {l : List Interval} {t : Timestamp} :
    Covers (l.filter fun r => !decide (r.last < t)) t ↔ Covers l t := by
  constructor
  · rintro ⟨r, hr, ht⟩
    exact ⟨r, (List.mem_filter.mp hr).1, ht⟩
  · rintro ⟨r, hr, ht⟩
    refine ⟨r, List.mem_filter.mpr ⟨hr, ?_⟩, ht⟩
    have hlast := (Interval.contains_iff.mp ht).2
    simp only [Timestamp.lt_def, Bool.not_eq_true', decide_eq_false_iff_not]
    omega

/-- Of ascending ranges that do not end before an instant, the first alone can hold it. -/
theorem head_contains_iff {l : List Interval} (h : l.Pairwise Interval.Precedes) {t : Timestamp}
    (hl : ∀ r ∈ l, ¬ r.last < t) :
    (l.head?.any fun r => r.contains t) = true ↔ Covers l t := by
  cases l with
  | nil => simp [Covers.nil_iff]
  | cons a l =>
      simp only [List.head?_cons, Option.any_some, Covers.cons_iff]
      refine ⟨Or.inl, fun ht => ht.resolve_right ?_⟩
      rintro ⟨r, hr, ht⟩
      have hap := Interval.precedes_iff.mp (List.rel_of_pairwise_cons h hr)
      have hat := hl a List.mem_cons_self
      have hrt := (Interval.contains_iff.mp ht).1
      rw [Timestamp.lt_def] at hat
      omega

/-- **Membership**: bisection finds the range that holds an instant, if one does. -/
theorem Canonical.contains_iff {s : RangeSet} (h : s.Canonical) (t : Timestamp) :
    s.contains t = true ↔ Covers s.toList t := by
  have hp := partitioned_of_precedes h t
  have hget : s.ranges[bisect (fun r => decide (r.last < t)) s.ranges]? =
      (s.toList.filter fun r => !decide (r.last < t)).head? := by
    calc s.ranges[bisect (fun r => decide (r.last < t)) s.ranges]?
        = s.toList[s.toList.countP fun r => decide (r.last < t)]? := by
          rw [bisect_eq_countP hp, ← Array.getElem?_toList]
          rfl
      _ = (s.toList.filter fun r => !decide (r.last < t)).head? := by
          rw [← hp.drop_countP, List.head?_drop]
  rw [contains, hget, head_contains_iff (h.filter _), covers_filter_iff]
  intro r hr
  simpa using (List.mem_filter.mp hr).2

theorem contains_ofList (l : List Interval) (t : Timestamp) :
    (ofList l).contains t = true ↔ Covers l t := by
  rw [(canonical_ofList l).contains_iff t, toList_ofList, covers_coalesce]

/-! ### Gaps -/

theorem pairwise_first_lt {l : List Interval} (h : l.Pairwise Interval.Precedes) :
    l.Pairwise fun a b => a.first < b.first := by
  refine h.imp fun {a b} hab => ?_
  rw [Interval.precedes_iff] at hab
  have ha := a.ordered_nanos
  rw [Timestamp.lt_def]
  omega

/-- Between two neighbours there is an instant that no range covers. -/
theorem exists_uncovered_of_infix {l : List Interval} (h : l.Pairwise Interval.Precedes)
    {a b : Interval} (hab : [a, b] <:+: l) : ∃ t, a.last < t ∧ t < b.first ∧ ¬ Covers l t := by
  obtain ⟨pre, post, rfl⟩ := hab
  simp only [List.append_assoc, List.cons_append, List.nil_append, List.pairwise_append,
    List.pairwise_cons, List.mem_cons] at h
  obtain ⟨-, ⟨ha, hb, -⟩, hpre⟩ := h
  obtain ⟨t, hat, htb⟩ := ha b (Or.inl rfl)
  refine ⟨t, hat, htb, ?_⟩
  rintro ⟨r, hr, ht⟩
  rw [Interval.contains_iff] at ht
  rw [Timestamp.lt_def] at hat htb
  have hra := a.ordered_nanos
  have hrb := b.ordered_nanos
  simp only [List.mem_append, List.mem_cons, List.not_mem_nil, or_false] at hr
  rcases hr with (hr | rfl | rfl) | hr
  · have hp := Interval.precedes_iff.mp (hpre r hr a (Or.inl rfl))
    omega
  · omega
  · omega
  · have hp := Interval.precedes_iff.mp (hb r hr)
    omega

/-- **The normal form.**  The ranges that `ofList` yields begin before they end and ascend, no two
neighbours overlap or abut, an instant between them being left out, and bisection finds an instant
in them exactly when one of the given intervals holds it. -/
theorem ofList_canonical_covering (l : List Interval) :
    (∀ r ∈ (ofList l).toList, r.first ≤ r.last) ∧
      ((ofList l).toList.Pairwise fun a b => a.first < b.first) ∧
      ((ofList l).toList.IsChain fun a b => a.touches b = false ∧
        ∃ t, a.last < t ∧ t < b.first ∧ ∀ i ∈ l, i.contains t = false) ∧
      ∀ t, (ofList l).contains t = true ↔ ∃ i ∈ l, i.contains t = true := by
  have h := canonical_ofList l
  refine ⟨fun r _ => r.ordered, pairwise_first_lt h, ?_, contains_ofList l⟩
  refine (List.isChain_isInfix _).imp fun a b hab => ?_
  obtain ⟨t, hat, htb, ht⟩ := exists_uncovered_of_infix h hab
  refine ⟨?_, t, hat, htb, fun i hi => Bool.eq_false_iff.mpr fun hit => ht ?_⟩
  · exact Interval.not_touches_of_precedes ⟨t, hat, htb⟩
  · exact (covers_coalesce l t).mpr ⟨i, hi, hit⟩

/-! ### Extensionality -/

/-- The first range begins at the first instant that is covered. -/
theorem first_le_of_covers {a : Interval} {l : List Interval}
    (h : (a :: l).Pairwise Interval.Precedes) {t : Timestamp} (ht : Covers (a :: l) t) :
    a.first.nanos ≤ t.nanos := by
  rcases Covers.cons_iff.mp ht with ht | ⟨r, hr, ht⟩
  · exact (Interval.contains_iff.mp ht).1
  · have hp := Interval.precedes_iff.mp (List.rel_of_pairwise_cons h hr)
    have hrt := (Interval.contains_iff.mp ht).1
    have ha := a.ordered_nanos
    omega

/-- Behind the first range an instant is left out. -/
theorem last_ne_of_covers {a : Interval} {l : List Interval}
    (h : (a :: l).Pairwise Interval.Precedes) {t : Timestamp} (ht : Covers (a :: l) t) :
    t.nanos ≠ a.last.nanos + 1 := by
  rcases Covers.cons_iff.mp ht with ht | ⟨r, hr, ht⟩
  · have hat := (Interval.contains_iff.mp ht).2
    omega
  · have hp := Interval.precedes_iff.mp (List.rel_of_pairwise_cons h hr)
    have hrt := (Interval.contains_iff.mp ht).1
    omega

/-- If two sets begin at one instant, the first range of neither outlasts that of the other. -/
theorem last_le_of_covers {a b : Interval} {l m : List Interval}
    (ha : (a :: l).Pairwise Interval.Precedes) (hf : b.first.nanos = a.first.nanos)
    (h : ∀ t, Covers (b :: m) t → Covers (a :: l) t) : b.last.nanos ≤ a.last.nanos := by
  by_contra hlt
  -- the instant behind `a` would lie in `b`
  have hao := a.ordered_nanos
  have hmin := a.last.min_le
  have hmax := b.last.le_max
  have hb : b.contains ⟨a.last.nanos + 1, by omega, by omega⟩ = true :=
    Interval.contains_iff.mpr ⟨by simp only; omega, by simp only; omega⟩
  exact last_ne_of_covers ha (h _ (Covers.cons_iff.mpr (Or.inl hb))) rfl

/-- The ranges behind the first cover what is covered, less the first. -/
theorem covers_tail_iff {a : Interval} {l : List Interval}
    (h : (a :: l).Pairwise Interval.Precedes) (t : Timestamp) :
    Covers l t ↔ Covers (a :: l) t ∧ ¬ a.contains t = true := by
  rw [Covers.cons_iff]
  constructor
  · rintro ⟨r, hr, ht⟩
    refine ⟨Or.inr ⟨r, hr, ht⟩, fun hat => ?_⟩
    have hp := Interval.precedes_iff.mp (List.rel_of_pairwise_cons h hr)
    have hrt := (Interval.contains_iff.mp ht).1
    have hat' := (Interval.contains_iff.mp hat).2
    omega
  · rintro ⟨ht, hat⟩
    exact ht.resolve_left hat

/-- **Extensionality**: ascending ranges with gaps between them are determined by the instants they
cover.  The induction is on both lists at once. -/
theorem eq_of_covers_iff {l m : List Interval} (hl : l.Pairwise Interval.Precedes)
    (hm : m.Pairwise Interval.Precedes) (h : ∀ t, Covers l t ↔ Covers m t) : l = m := by
  induction l generalizing m with
  | nil =>
      cases m with
      | nil => rfl
      | cons b m =>
          exact absurd ((h b.first).mpr (Covers.cons_iff.mpr (Or.inl b.contains_first)))
            Covers.nil_iff.mp
  | cons a l ih =>
      cases m with
      | nil =>
          exact absurd ((h a.first).mp (Covers.cons_iff.mpr (Or.inl a.contains_first)))
            Covers.nil_iff.mp
      | cons b m =>
          have hba : b.first.nanos ≤ a.first.nanos :=
            first_le_of_covers hm ((h _).mp (Covers.cons_iff.mpr (Or.inl a.contains_first)))
          have hab : a.first.nanos ≤ b.first.nanos :=
            first_le_of_covers hl ((h _).mpr (Covers.cons_iff.mpr (Or.inl b.contains_first)))
          have hf : a.first.nanos = b.first.nanos := Int.le_antisymm hab hba
          have hlast : a.last.nanos = b.last.nanos :=
            Int.le_antisymm (last_le_of_covers hm hf fun t => (h t).mp)
              (last_le_of_covers hl hf.symm fun t => (h t).mpr)
          obtain rfl := Interval.ext_nanos hf hlast
          have htail : l = m := ih hl.tail hm.tail fun t => by
            rw [covers_tail_iff hl, covers_tail_iff hm, h t]
          rw [htail]

theorem Canonical.ext {s s' : RangeSet} (hs : s.Canonical) (hs' : s'.Canonical)
    (h : ∀ t, s.contains t = true ↔ s'.contains t = true) : s = s' := by
  refine ext_toList (eq_of_covers_iff hs hs' fun t => ?_)
  rw [← hs.contains_iff, ← hs'.contains_iff, h t]

theorem ofList_eq_ofList_iff {l m : List Interval} :
    ofList l = ofList m ↔ ∀ t, Covers l t ↔ Covers m t := by
  constructor
  · intro h t
    rw [← contains_ofList, ← contains_ofList, h]
  · intro h
    refine (canonical_ofList l).ext (canonical_ofList m) fun t => ?_
    rw [contains_ofList, contains_ofList, h t]

/-- A canonical set is the one that its own ranges yield. -/
theorem Canonical.ofList_toList {s : RangeSet} (h : s.Canonical) : ofList s.toList = s :=
  (canonical_ofList _).ext h fun t => by rw [contains_ofList, h.contains_iff]

/-- **Normal forms are unique.**  Two lists of intervals yield equal sets exactly when they cover
the same instants; so it does not matter in which order and how often an interval is given, nor
whether it is given in pieces, and a set is what its own ranges yield. -/
theorem ofList_eq_iff_same_instants (l m : List Interval) :
    (ofList l = ofList m ↔
        ∀ t, (∃ i ∈ l, i.contains t = true) ↔ ∃ i ∈ m, i.contains t = true) ∧
      ((∀ i, i ∈ l ↔ i ∈ m) → ofList l = ofList m) ∧
      (∀ pieces : Interval → List Interval,
        (∀ i ∈ l, ∀ t, (∃ j ∈ pieces i, j.contains t = true) ↔ i.contains t = true) →
          ofList (l.flatMap pieces) = ofList l) ∧
      ofList (ofList l).toList = ofList l := by
  refine ⟨ofList_eq_ofList_iff, fun h => ?_, fun pieces h => ?_, ?_⟩
  · exact ofList_eq_ofList_iff.mpr fun t => Covers.congr_mem h
  · exact ofList_eq_ofList_iff.mpr fun t => Covers.flatMap_iff fun i hi => h i hi t
  · exact (canonical_ofList l).ofList_toList

end AccessWindows.RangeSet
