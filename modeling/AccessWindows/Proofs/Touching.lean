import AccessWindows.Proofs.Interval

/-!
# Touching — joined without a gap

Whether two intervals touch is decided at their ends.  What it says about the instants can be put in
three ways: none is left out between the two (`InGap`), those of either form one run (`Contiguous`),
and the hull holds those of either and no other.

The proofs go round.  The hull of touching intervals is exact (`contains_hull`), what one interval
holds is a run (`contiguous_contains`), a run leaves no gap (`not_inGap_of_contiguous`), and
intervals without a gap between them touch (`exists_inGap_of_not_touches`).  At the end of time,
where an instant has no successor, nothing is different, since nothing can begin behind it.
-/

namespace AccessWindows

/-- All instants that lie between two of the set belong to it. -/
def Contiguous (held : Timestamp → Prop) : Prop :=
  ∀ s t u, held s → held u → s ≤ t → t ≤ u → held t

namespace Interval

/-- An instant outside both intervals, behind instants of one and before instants of the other. -/
structure InGap (a b : Interval) (t : Timestamp) : Prop where
  not_left : a.contains t = false
  not_right : b.contains t = false
  between : ∃ s u, (a.contains s = true ∧ b.contains u = true ∨
    b.contains s = true ∧ a.contains u = true) ∧ s < t ∧ t < u

variable {a b : Interval} {t : Timestamp}

theorem InGap.symm (h : InGap a b t) : InGap b a t := by
  obtain ⟨s, u, hends, hst, htu⟩ := h.between
  exact ⟨h.not_right, h.not_left, s, u, hends.symm, hst, htu⟩

/-! ### Runs -/

theorem contiguous_contains (i : Interval) : Contiguous fun t => i.contains t = true := by
  intro s t u hs hu hst htu
  rw [contains_iff] at hs hu ⊢
  exact ⟨Int.le_trans hs.1 hst, Int.le_trans htu hu.2⟩

/-- If the hull is exact, the two intervals hold what one interval holds. -/
theorem contiguous_of_hull (h : ∀ t, (a.hull b).contains t = true ↔
      a.contains t = true ∨ b.contains t = true) :
    Contiguous fun t => a.contains t = true ∨ b.contains t = true := by
  have hrun := contiguous_contains (a.hull b)
  simp only [h] at hrun
  exact hrun

/-! ### Gaps -/

/-- A run holds what lies between an instant of the one interval and an instant of the other. -/
theorem not_inGap_of_contiguous
    (h : Contiguous fun t => a.contains t = true ∨ b.contains t = true) : ¬ ∃ t, InGap a b t := by
  rintro ⟨t, hgap⟩
  obtain ⟨s, u, hends, hst, htu⟩ := hgap.between
  have hs : a.contains s = true ∨ b.contains s = true := hends.imp And.left And.left
  have hu : a.contains u = true ∨ b.contains u = true := (hends.imp And.right And.right).symm
  rcases h s t u hs hu (Int.le_of_lt hst) (Int.le_of_lt htu) with ht | ht
  · exact Bool.false_ne_true (hgap.not_left.symm.trans ht)
  · exact Bool.false_ne_true (hgap.not_right.symm.trans ht)

/-- What lies behind the last instant of the one and before the first of the other is in neither. -/
theorem exists_inGap_of_precedes (h : a.Precedes b) : ∃ t, InGap a b t := by
  obtain ⟨t, hat, htb⟩ := h
  have ha : ¬ a.contains t = true := fun ht => Int.not_lt.mpr (contains_iff.mp ht).2 hat
  have hb : ¬ b.contains t = true := fun ht => Int.not_lt.mpr (contains_iff.mp ht).1 htb
  exact ⟨t, Bool.eq_false_iff.mpr ha, Bool.eq_false_iff.mpr hb, a.last, b.first,
    Or.inl ⟨a.contains_last, b.contains_first⟩, hat, htb⟩

/-- Of two intervals that do not touch, the one that begins first has the gap behind it. -/
theorem exists_inGap_of_not_touches (h : a.touches b = false) : ∃ t, InGap a b t := by
  rcases Int.le_total a.first.nanos b.first.nanos with hf | hf
  · exact exists_inGap_of_precedes (precedes_of_not_touches h hf)
  · rw [touches_comm] at h
    obtain ⟨t, ht⟩ := exists_inGap_of_precedes (precedes_of_not_touches h hf)
    exact ⟨t, ht.symm⟩

/-! ### Joining -/

/-- **Touching is joining without a gap.**  It does not matter which of the two intervals comes
first.  They touch exactly when no instant is left out between them, which is when the instants of
either form one run, and exactly then their hull holds the instants of either and no other.  A third
interval touches the hull of two that touch if and only if it touches one of them. -/
theorem touching_joins (a b : Interval) :
    a.touches b = b.touches a ∧
      (a.touches b = true ↔ ¬ ∃ t, InGap a b t) ∧
      (a.touches b = true ↔ Contiguous fun t => a.contains t = true ∨ b.contains t = true) ∧
      (a.touches b = true ↔
        ∀ t, (a.hull b).contains t = true ↔ a.contains t = true ∨ b.contains t = true) ∧
      (a.touches b = true →
        ∀ c : Interval, c.touches (a.hull b) = true ↔ c.touches a = true ∨ c.touches b = true) := by
  have htouches : (¬ ∃ t, InGap a b t) → a.touches b = true := by
    intro h
    cases ht : a.touches b with
    | true => rfl
    | false => exact absurd (exists_inGap_of_not_touches ht) h
  refine ⟨touches_comm a b, ⟨?_, htouches⟩, ⟨?_, ?_⟩, ⟨contains_hull, ?_⟩, touches_hull⟩
  · intro h
    exact not_inGap_of_contiguous (contiguous_of_hull (contains_hull h))
  · intro h
    exact contiguous_of_hull (contains_hull h)
  · intro h
    exact htouches (not_inGap_of_contiguous h)
  · intro h
    exact htouches (not_inGap_of_contiguous (contiguous_of_hull h))

namespace Sample

/-- All instants up to one of them, and all behind it. -/
def early : Interval := ⟨.min, ⟨11, by decide, by decide⟩, by decide⟩
def late : Interval := ⟨⟨12, by decide, by decide⟩, .max, by decide⟩

end Sample

open Sample

/-- The two parts of time share no instant and touch; every instant lies in one of them, and what
touches the whole touches one of them. -/
theorem parts_join :
    early.overlaps late = false ∧ early.touches late = true ∧
      (∀ t, early.contains t = true ∨ late.contains t = true) ∧
      ∀ c : Interval, c.touches (early.hull late) = true ↔
        c.touches early = true ∨ c.touches late = true := by
  have h : early.touches late = true := by decide
  obtain ⟨-, -, -, hexact, hthird⟩ := touching_joins early late
  refine ⟨by decide, h, fun t => ?_, hthird h⟩
  exact (hexact.mp h t).mp (contains_iff.mpr ⟨t.min_le, t.le_max⟩)

/-- Time does not come round: what reaches its end does not abut what begins at its start. -/
example : (⟨⟨13, by decide, by decide⟩, .max, by decide⟩ : Interval).touches early = false := by
  decide

end Interval

end AccessWindows
