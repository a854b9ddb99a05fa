import AccessWindows.Proofs.RangeSet.Canonical
import Mathlib.Data.Int.Interval
import Mathlib.Data.Set.Card

/-!
# Range sets — how long they last

Both ends of an interval belong to it, so it holds one instant more than it lasts nanoseconds.  The
ranges of a canonical set have no instant in common, hence such a set holds as many instants as it
lasts nanoseconds, and one more for each of its ranges (`encard_covers`).

A nanosecond lies between two instants.  Those that a canonical set lasts are the ones between two
instants which it covers both: the two then lie in one range, as no two ranges abut
(`encard_spans`).  So a set that covers more lasts longer, whatever its number of ranges.
-/

namespace AccessWindows

theorem Timestamp.nanos_injective : Function.Injective Timestamp.nanos := fun _ _ => ext_nanos

/-- Within the bounds there is an instant for every number. -/
theorem Timestamp.encard_between {a b : Int} (ha : min.nanos ≤ a) (hb : b ≤ max.nanos + 1) :
    {t : Timestamp | a ≤ t.nanos ∧ t.nanos < b}.encard = ((b - a).toNat : Nat) := by
  have himage : nanos '' {t : Timestamp | a ≤ t.nanos ∧ t.nanos < b} = ↑(Finset.Ico a b) := by
    ext n
    rw [Finset.coe_Ico, Set.mem_Ico]
    constructor
    · rintro ⟨t, ht, rfl⟩
      exact ht
    · intro hn
      have hmax : n ≤ max.nanos := by omega
      exact ⟨⟨n, Int.le_trans ha hn.1, hmax⟩, hn, rfl⟩
  rw [← nanos_injective.encard_image, himage, Set.encard_coe_eq_coe_finsetCard, Int.card_Ico]

namespace Interval

theorem duration_eq (i : Interval) : (i.duration : Int) = i.last.nanos - i.first.nanos :=
  Int.toNat_of_nonneg (Int.sub_nonneg_of_le i.ordered)

theorem encard_contains (i : Interval) :
    {t | i.contains t = true}.encard = (i.duration + 1 : Nat) := by
  have hset : {t | i.contains t = true} =
      {t | i.first.nanos ≤ t.nanos ∧ t.nanos < i.last.nanos + 1} := by
    ext t
    simp only [Set.mem_ofPred_eq, contains_iff, Int.lt_add_one_iff]
  have hcount : (i.last.nanos + 1 - i.first.nanos).toNat = i.duration + 1 := by
    have hd := i.duration_eq
    omega
  have hlast : i.last.nanos + 1 ≤ Timestamp.max.nanos + 1 := Int.add_le_add_right i.last.le_max 1
  rw [hset, Timestamp.encard_between i.first.min_le hlast, hcount]

end Interval

/-- The instant and the next one are covered. -/
def Spans (l : List Interval) (t : Timestamp) : Prop :=
  ∃ u, t.next? = some u ∧ Covers l t ∧ Covers l u

theorem Spans.mono {l m : List Interval} (h : ∀ t, Covers l t → Covers m t) {t : Timestamp}
    (ht : Spans l t) : Spans m t := by
  obtain ⟨u, hu, hlt, hlu⟩ := ht
  exact ⟨u, hu, h t hlt, h u hlu⟩

/-- An interval spans the instants before its last. -/
theorem spans_singleton_iff {i : Interval} {t : Timestamp} :
    Spans [i] t ↔ i.first.nanos ≤ t.nanos ∧ t.nanos < i.last.nanos := by
  simp only [Spans, Timestamp.next?_eq_some_iff, Covers.cons_iff, Covers.nil_iff, or_false,
    Interval.contains_iff]
  constructor
  · rintro ⟨u, hu, ht, hl⟩
    omega
  · rintro ⟨hf, hl⟩
    have hmin := t.min_le
    have hmax := i.last.le_max
    exact ⟨⟨t.nanos + 1, by omega, by omega⟩, rfl, ⟨hf, by omega⟩, by simp only; omega⟩

theorem Interval.encard_spans (i : Interval) : {t | Spans [i] t}.encard = (i.duration : Nat) := by
  have hlast : i.last.nanos ≤ Timestamp.max.nanos + 1 := by
    have hmax : i.last.nanos ≤ Timestamp.max.nanos := i.last.le_max
    omega
  have hset : {t | Spans [i] t} = {t | i.first.nanos ≤ t.nanos ∧ t.nanos < i.last.nanos} :=
    Set.ext fun _ => spans_singleton_iff
  rw [hset, Timestamp.encard_between i.first.min_le hlast]
  rfl

section ascending

variable {a : Interval} {l : List Interval}

/-- What the ranges behind the first cover lies behind it, with a gap between. -/
theorem lt_of_covers_tail (h : (a :: l).Pairwise Interval.Precedes) {t : Timestamp}
    (ht : Covers l t) : a.last.nanos + 1 < t.nanos := by
  obtain ⟨r, hr, ht⟩ := ht
  have hp := Interval.precedes_iff.mp (List.rel_of_pairwise_cons h hr)
  have hrt := (Interval.contains_iff.mp ht).1
  omega

/-- **The instants**: as many as nanoseconds, and one more for each range. -/
theorem encard_covers (h : l.Pairwise Interval.Precedes) :
    {t | Covers l t}.encard = ((l.map Interval.duration).sum + l.length : Nat) := by
  induction l with
  | nil => simp [Covers.nil_iff]
  | cons a l ih =>
      have hdisjoint : Disjoint {t | a.contains t = true} {t | Covers l t} := by
        rw [Set.disjoint_left]
        intro t ha hl
        have hlast := (Interval.contains_iff.mp ha).2
        have hlt := lt_of_covers_tail h hl
        omega
      have hunion : {t | Covers (a :: l) t} = {t | a.contains t = true} ∪ {t | Covers l t} :=
        Set.ext fun _ => Covers.cons_iff
      rw [hunion, Set.encard_union_eq hdisjoint, a.encard_contains, ih h.tail, ← Nat.cast_add,
        List.map_cons, List.sum_cons, List.length_cons]
      congr 1
      omega

/-- Two successive instants lie in the first range, or both behind it. -/
theorem spans_cons_iff (h : (a :: l).Pairwise Interval.Precedes) {t : Timestamp} :
    Spans (a :: l) t ↔ Spans [a] t ∨ Spans l t := by
  constructor
  · rintro ⟨u, hu, ht, hu'⟩
    have hnext := Timestamp.next?_eq_some_iff.mp hu
    rcases Covers.cons_iff.mp ht with ha | hl
    · rcases Covers.cons_iff.mp hu' with ha' | hl'
      · exact Or.inl ⟨u, hu, ⟨a, List.mem_singleton_self a, ha⟩, a, List.mem_singleton_self a, ha'⟩
      · -- the gap behind `a` is wider than a nanosecond
        have hlt := lt_of_covers_tail h hl'
        have hlast := (Interval.contains_iff.mp ha).2
        omega
    · rcases Covers.cons_iff.mp hu' with ha' | hl'
      · have hlt := lt_of_covers_tail h hl
        have hlast := (Interval.contains_iff.mp ha').2
        omega
      · exact Or.inr ⟨u, hu, hl, hl'⟩
  · rintro (hs | hs)
    · refine hs.mono fun u hu => Covers.cons_iff.mpr (Or.inl ?_)
      simpa only [Covers.cons_iff, Covers.nil_iff, or_false] using hu
    · exact hs.mono fun u hu => Covers.cons_iff.mpr (Or.inr hu)

/-- **The nanoseconds**: each between two successive instants that are covered. -/
theorem encard_spans (h : l.Pairwise Interval.Precedes) :
    {t | Spans l t}.encard = ((l.map Interval.duration).sum : Nat) := by
  induction l with
  | nil => simp [Spans, Covers.nil_iff]
  | cons a l ih =>
      have hdisjoint : Disjoint {t | Spans [a] t} {t | Spans l t} := by
        rw [Set.disjoint_left]
        rintro t ha ⟨u, -, hl, -⟩
        have hlast := (spans_singleton_iff.mp ha).2
        have hlt := lt_of_covers_tail h hl
        omega
      have hunion : {t | Spans (a :: l) t} = {t | Spans [a] t} ∪ {t | Spans l t} :=
        Set.ext fun _ => spans_cons_iff h
      rw [hunion, Set.encard_union_eq hdisjoint, a.encard_spans, ih h.tail, ← Nat.cast_add,
        List.map_cons, List.sum_cons]

end ascending

namespace RangeSet

theorem duration_eq_sum (s : RangeSet) : s.duration = (s.toList.map Interval.duration).sum := rfl

namespace Canonical

variable {s s' : RangeSet}

theorem encard_contains (h : s.Canonical) :
    {t | s.contains t = true}.encard = (s.duration + s.size : Nat) := by
  have hset : {t | s.contains t = true} = {t | Covers s.toList t} := Set.ext h.contains_iff
  have hsize : s.toList.length = s.size := Array.length_toList
  rw [hset, encard_covers h, duration_eq_sum, hsize]

theorem encard_spans (h : s.Canonical) :
    {t | Spans s.toList t}.encard = (s.duration : Nat) := AccessWindows.encard_spans h

/-- A set that covers more lasts longer. -/
theorem duration_le (h : s.Canonical) (h' : s'.Canonical)
    (hcovers : ∀ t, s.contains t = true → s'.contains t = true) : s.duration ≤ s'.duration := by
  have hsub : {t | Spans s.toList t} ⊆ {t | Spans s'.toList t} := by
    intro t ht
    refine ht.mono fun u hu => ?_
    exact (h'.contains_iff u).mp (hcovers u ((h.contains_iff u).mpr hu))
  have hle := Set.encard_le_encard hsub
  rw [h.encard_spans, h'.encard_spans] at hle
  exact Nat.cast_le.mp hle

/-- No set lasts longer than the time from the first instant to the last. -/
theorem duration_le_max (h : s.Canonical) : s.duration ≤ 2 ^ 64 - 1 := by
  have hsub : {t | Spans s.toList t} ⊆
      {t | Timestamp.min.nanos ≤ t.nanos ∧ t.nanos < Timestamp.max.nanos} := by
    rintro t ⟨u, hu, -⟩
    have hnext := Timestamp.next?_eq_some_iff.mp hu
    have hmax : u.nanos ≤ Timestamp.max.nanos := u.le_max
    exact ⟨t.min_le, by omega⟩
  have hle := Set.encard_le_encard hsub
  rw [h.encard_spans, Timestamp.encard_between (Int.le_refl _) (by decide)] at hle
  exact Nat.cast_le.mp hle

end Canonical

/-- **Durations measure what is covered.**  The set of some intervals lasts as many nanoseconds as
there are instants in one of them, less one for each of its ranges.  No range ends before it begins,
so that nothing is lost where a duration is taken as a natural number.  No set lasts longer than
`2 ^ 64 - 1` nanoseconds, and none longer than a set that covers whatever it covers. -/
theorem duration_measures_coverage (l : List Interval) :
    {t : Timestamp | ∃ i ∈ l, i.contains t = true}.encard =
        ((ofList l).duration + (ofList l).size : Nat) ∧
      (∀ r ∈ (ofList l).toList, 0 ≤ r.last.nanos - r.first.nanos ∧
        (r.duration : Int) = r.last.nanos - r.first.nanos) ∧
      (ofList l).duration ≤ 2 ^ 64 - 1 ∧
      ∀ m, (∀ t, (ofList l).contains t = true → (ofList m).contains t = true) →
        (ofList l).duration ≤ (ofList m).duration := by
  have h := canonical_ofList l
  refine ⟨?_, ?_, h.duration_le_max, ?_⟩
  · rw [← h.encard_contains]
    congr 1
    ext t
    exact (contains_ofList l t).symm
  · intro r _
    rw [← r.duration_eq]
    exact ⟨Int.natCast_nonneg _, rfl⟩
  · intro m hcovers
    exact h.duration_le (canonical_ofList m) hcovers

namespace Sample

/-- Two pieces that leave out the third of five instants, and the whole. -/
def early : Interval := ⟨⟨21, by decide, by decide⟩, ⟨22, by decide, by decide⟩, by decide⟩
def late : Interval := ⟨⟨24, by decide, by decide⟩, ⟨25, by decide, by decide⟩, by decide⟩
def whole : Interval := ⟨early.first, late.last, by decide⟩

end Sample

open Sample

/-- The two pieces have four instants and last two nanoseconds, no longer than the whole. -/
theorem duration_of_pieces :
    {t : Timestamp | ∃ i ∈ [late, early], i.contains t = true}.encard = 4 ∧
      (ofList [late, early]).duration = 2 ∧ (ofList [late, early]).size = 2 ∧
      (∀ t, (ofList [late, early]).contains t = true → (ofList [whole]).contains t = true) ∧
      (ofList [late, early]).duration ≤ (ofList [whole]).duration := by
  have hswap : ofList [late, early] = ofList [early, late] :=
    ofList_eq_ofList_iff.mpr fun t => Covers.congr_mem fun i => (List.Perm.swap _ _ _).mem_iff
  have hpieces : ofList [late, early] = ⟨#[early, late]⟩ := by
    have hgap : (⟨#[early, late]⟩ : RangeSet).Canonical :=
      List.pairwise_pair.mpr (Interval.precedes_iff.mpr (by decide))
    exact hswap.trans hgap.ofList_toList
  have hcovers : ∀ t, (ofList [late, early]).contains t = true →
      (ofList [whole]).contains t = true := by
    intro t ht
    rw [contains_ofList] at ht ⊢
    simp only [Covers.cons_iff, Covers.nil_iff, or_false, Interval.contains_iff, early, late,
      whole] at ht ⊢
    omega
  obtain ⟨hcount, -, -, hmono⟩ := duration_measures_coverage [late, early]
  have hduration : (ofList [late, early]).duration = 2 := by rw [hpieces]; rfl
  have hsize : (ofList [late, early]).size = 2 := by rw [hpieces]; rfl
  refine ⟨?_, hduration, hsize, hcovers, hmono [whole] hcovers⟩
  rw [hcount, hduration, hsize]
  rfl

end RangeSet

end AccessWindows
