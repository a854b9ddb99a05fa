import AccessWindows.Interval

/-!
# Intervals — what they cover

Every question about intervals is one about the whole numbers at their ends.  Two intervals touch
exactly when neither begins more than one nanosecond behind the other's last (`touches_iff`), and
then their hull covers what the two cover and nothing else (`contains_hull`).  A third interval
touches the hull only if it touches one of the two (`touches_hull`), which is why an interval that
has been set aside can never touch what a candidate grows into later.

`Precedes` is the gap that a range set leaves between two ranges: an instant behind the one and
before the other.  Two intervals that do not touch lie one before the other in this sense.
-/

namespace AccessWindows

namespace Timestamp

/-- The successor of an instant is one nanosecond later. -/
theorem next?_eq_some_iff {s t : Timestamp} : s.next? = some t ↔ t.nanos = s.nanos + 1 := by
  constructor
  · intro h
    exact nanos_of_ofNanos? h
  · intro h
    rw [next?, ← h, ofNanos?_nanos]

/-- The earlier of two instants has the smaller number. -/
theorem nanos_earlier (a b : Timestamp) : (a.earlier b).nanos = Min.min a.nanos b.nanos := by
  simp only [earlier, lt_def]
  split <;> omega

/-- The later of two instants has the larger number. -/
theorem nanos_later (a b : Timestamp) : (a.later b).nanos = Max.max a.nanos b.nanos := by
  simp only [later, lt_def]
  split <;> omega

/-- There is an instant between two that are more than a nanosecond apart. -/
theorem exists_between_iff {s t : Timestamp} :
    (∃ u, s < u ∧ u < t) ↔ s.nanos + 1 < t.nanos := by
  simp only [lt_def]
  constructor
  · rintro ⟨u, hs, ht⟩
    omega
  · intro h
    have hs := s.min_le
    have ht := t.le_max
    exact ⟨⟨s.nanos + 1, by omega, by omega⟩, Int.lt_succ s.nanos, h⟩

end Timestamp

namespace Interval

/-- An interval is told by the numbers of its two ends. -/
theorem ext_nanos {a b : Interval} (hf : a.first.nanos = b.first.nanos)
    (hl : a.last.nanos = b.last.nanos) : a = b := by
  obtain ⟨f, l, _⟩ := a
  obtain ⟨f', l', _⟩ := b
  cases Timestamp.ext_nanos hf
  cases Timestamp.ext_nanos hl
  rfl

theorem ordered_nanos (i : Interval) : i.first.nanos ≤ i.last.nanos := i.ordered

/-- An interval contains the instants between its ends, both ends among them. -/
theorem contains_iff {i : Interval} {t : Timestamp} :
    i.contains t = true ↔ i.first.nanos ≤ t.nanos ∧ t.nanos ≤ i.last.nanos := by
  simp only [contains, Timestamp.le_def, Bool.and_eq_true, decide_eq_true_eq]

theorem contains_first (i : Interval) : i.contains i.first = true :=
  contains_iff.mpr ⟨Int.le_refl _, i.ordered⟩

theorem contains_last (i : Interval) : i.contains i.last = true :=
  contains_iff.mpr ⟨i.ordered, Int.le_refl _⟩

/-- The interval between two instants holds those that lie between them, and it is there if there
are any. -/
theorem between?_contains_iff {f l t : Timestamp} :
    (∃ i, between? f l = some i ∧ i.contains t = true) ↔ f ≤ t ∧ t ≤ l := by
  constructor
  · rintro ⟨i, hi, ht⟩
    rw [between?] at hi
    split at hi
    · cases hi
      exact contains_iff.mp ht
    · cases hi
  · rintro ⟨hf, hl⟩
    have h : f ≤ l := Int.le_trans hf hl
    exact ⟨⟨f, l, h⟩, dif_pos h, contains_iff.mpr ⟨hf, hl⟩⟩

/-! ### Touching -/

/-- An interval meets the one that begins one nanosecond after its end. -/
theorem meets_iff {a b : Interval} : a.meets b = true ↔ b.first.nanos = a.last.nanos + 1 := by
  rw [meets, beq_iff_eq, Timestamp.next?_eq_some_iff]

/-- Neither of two touching intervals begins more than a nanosecond behind the other's last. -/
theorem touches_iff {a b : Interval} :
    a.touches b = true ↔
      a.first.nanos ≤ b.last.nanos + 1 ∧ b.first.nanos ≤ a.last.nanos + 1 := by
  have ha := a.ordered_nanos
  have hb := b.ordered_nanos
  simp only [touches, overlaps, Bool.or_eq_true, Bool.and_eq_true, decide_eq_true_eq, meets_iff,
    Timestamp.le_def]
  omega

/-- Touching is mutual. -/
theorem touches_comm (a b : Interval) : a.touches b = b.touches a := by
  rw [Bool.eq_iff_iff, touches_iff, touches_iff]
  exact and_comm

/-- The hull begins with the one that begins first. -/
theorem nanos_first_hull (a b : Interval) :
    (a.hull b).first.nanos = Min.min a.first.nanos b.first.nanos :=
  Timestamp.nanos_earlier _ _

/-- The hull ends with the one that ends last. -/
theorem nanos_last_hull (a b : Interval) :
    (a.hull b).last.nanos = Max.max a.last.nanos b.last.nanos :=
  Timestamp.nanos_later _ _

/-- **No gap is closed**: the hull of two touching intervals covers what they cover. -/
theorem contains_hull {a b : Interval} (h : a.touches b = true) (t : Timestamp) :
    (a.hull b).contains t = true ↔ a.contains t = true ∨ b.contains t = true := by
  rw [touches_iff] at h
  have ha := a.ordered_nanos
  have hb := b.ordered_nanos
  simp only [contains_iff, nanos_first_hull, nanos_last_hull]
  omega

/-- What touches the hull of two touching intervals touches one of them. -/
theorem touches_hull {a b : Interval} (h : a.touches b = true) (c : Interval) :
    c.touches (a.hull b) = true ↔ c.touches a = true ∨ c.touches b = true := by
  rw [touches_iff] at h
  have ha := a.ordered_nanos
  have hb := b.ordered_nanos
  have hc := c.ordered_nanos
  simp only [touches_iff, nanos_first_hull, nanos_last_hull]
  omega

/-! ### The gap between two ranges -/

/-- Some instant lies behind the first interval and before the second. -/
def Precedes (a b : Interval) : Prop := ∃ t, a.last < t ∧ t < b.first

/-- One interval precedes another if at least one instant lies between them. -/
theorem precedes_iff {a b : Interval} : a.Precedes b ↔ a.last.nanos + 1 < b.first.nanos :=
  Timestamp.exists_between_iff

/-- Two intervals that do not touch leave a gap, behind the one that begins first. -/
theorem precedes_of_not_touches {a b : Interval} (h : a.touches b = false)
    (hf : a.first ≤ b.first) : a.Precedes b := by
  have ht : ¬ a.touches b = true := by simp [h]
  rw [touches_iff] at ht
  rw [Timestamp.le_def] at hf
  have hb := b.ordered_nanos
  rw [precedes_iff]
  omega

/-- Intervals with an instant between them do not touch. -/
theorem not_touches_of_precedes {a b : Interval} (h : a.Precedes b) : a.touches b = false := by
  rw [precedes_iff] at h
  refine Bool.eq_false_iff.mpr fun ht => ?_
  rw [touches_iff] at ht
  omega

end Interval

/-! ### Lists of intervals -/

/-- The instant lies in one of the intervals. -/
def Covers (intervals : List Interval) (t : Timestamp) : Prop :=
  ∃ i ∈ intervals, i.contains t = true

namespace Covers

variable {t : Timestamp}

theorem nil_iff : Covers [] t ↔ False := by simp [Covers]

theorem cons_iff {i : Interval} {l : List Interval} :
    Covers (i :: l) t ↔ i.contains t = true ∨ Covers l t := by simp [Covers]

/-- Two lists cover what one of them covers. -/
theorem append_iff {l₁ l₂ : List Interval} :
    Covers (l₁ ++ l₂) t ↔ Covers l₁ t ∨ Covers l₂ t := by
  simp only [Covers, List.mem_append, or_and_right, exists_or]

/-- Only which intervals there are counts, neither their order nor how often each is there. -/
theorem congr_mem {l₁ l₂ : List Interval} (h : ∀ i, i ∈ l₁ ↔ i ∈ l₂) :
    Covers l₁ t ↔ Covers l₂ t := by simp only [Covers, h]

/-- Intervals given in pieces cover what they cover in one piece. -/
theorem flatMap_iff {l : List Interval} {pieces : Interval → List Interval}
    (h : ∀ i ∈ l, Covers (pieces i) t ↔ i.contains t = true) :
    Covers (l.flatMap pieces) t ↔ Covers l t := by
  constructor
  · rintro ⟨j, hj, ht⟩
    obtain ⟨i, hi, hji⟩ := List.mem_flatMap.mp hj
    exact ⟨i, hi, (h i hi).mp ⟨j, hji, ht⟩⟩
  · rintro ⟨i, hi, ht⟩
    obtain ⟨j, hj, hjt⟩ := (h i hi).mpr ht
    exact ⟨j, List.mem_flatMap.mpr ⟨i, hi, hj⟩, hjt⟩

end Covers

end AccessWindows
