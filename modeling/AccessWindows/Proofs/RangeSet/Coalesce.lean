import AccessWindows.Proofs.Interval
import AccessWindows.Proofs.StableSort
import AccessWindows.RangeSet

/-!
# Coalescing — one pass keeps the accepted intervals apart

`Apart l` says that no two intervals of `l` touch.  It is the invariant of the pass: one more
interval absorbs those it touches, in one scan during which it grows.  An interval passed over
early in the scan is not looked at again, and need not be, for what the candidate grows by is
accepted too and so does not touch it (`touches_absorb`).

Sorted by their first instants, intervals that are apart leave a gap between any two
(`pairwise_precedes_coalesce`).  Nothing is gained or lost on the way (`covers_coalesce`).
-/

namespace AccessWindows

/-- No two of the intervals touch. -/
def Apart (l : List Interval) : Prop := l.Pairwise fun a b => a.touches b = false

/-! ### One more interval -/

namespace Interval

theorem absorb_cons_of_touches {c i : Interval} (l : List Interval) (h : i.touches c = true) :
    c.absorb (i :: l) = (c.hull i).absorb l := by
  rw [absorb, if_pos h]

theorem absorb_cons_of_not_touches {c i : Interval} (l : List Interval)
    (h : i.touches c = false) :
    c.absorb (i :: l) = ((c.absorb l).1, i :: (c.absorb l).2) := by
  rw [absorb, if_neg (by simp [h])]

/-- What is passed over stays as it was. -/
theorem sublist_absorb (c : Interval) (l : List Interval) : List.Sublist (c.absorb l).2 l := by
  induction l generalizing c with
  | nil => exact List.Sublist.slnil
  | cons i l ih =>
      cases h : i.touches c with
      | true =>
          rw [absorb_cons_of_touches l h]
          exact (ih _).cons i
      | false =>
          rw [absorb_cons_of_not_touches l h]
          exact (ih c).cons_cons i

/-- What touches the candidate at the end touched it at the start, or touches one it scanned. -/
theorem touches_absorb {c x : Interval} {l : List Interval}
    (h : x.touches (c.absorb l).1 = true) :
    x.touches c = true ∨ ∃ i ∈ l, x.touches i = true := by
  induction l generalizing c with
  | nil => exact Or.inl h
  | cons i l ih =>
      cases hi : i.touches c with
      | true =>
          rw [absorb_cons_of_touches l hi] at h
          rw [touches_comm] at hi
          rcases ih h with hx | ⟨j, hj, hx⟩
          · rcases (touches_hull hi x).mp hx with hx | hx
            · exact Or.inl hx
            · exact Or.inr ⟨i, List.mem_cons_self, hx⟩
          · exact Or.inr ⟨j, List.mem_cons_of_mem i hj, hx⟩
      | false =>
          rw [absorb_cons_of_not_touches l hi] at h
          rcases ih h with hx | ⟨j, hj, hx⟩
          · exact Or.inl hx
          · exact Or.inr ⟨j, List.mem_cons_of_mem i hj, hx⟩

/-- Of intervals that are apart, none that is passed over touches what the candidate becomes. -/
theorem not_touches_absorb {c : Interval} {l : List Interval} (hl : Apart l) :
    ∀ k ∈ (c.absorb l).2, k.touches (c.absorb l).1 = false := by
  induction l generalizing c with
  | nil => exact fun k hk => absurd hk List.not_mem_nil
  | cons i l ih =>
      obtain ⟨hil, hl⟩ := List.pairwise_cons.mp hl
      intro k hk
      cases hi : i.touches c with
      | true =>
          rw [absorb_cons_of_touches l hi] at hk ⊢
          exact ih hl k hk
      | false =>
          rw [absorb_cons_of_not_touches l hi] at hk ⊢
          rcases List.mem_cons.mp hk with rfl | hk
          · -- passed over: it touches neither the candidate as it was nor any interval behind it
            refine Bool.eq_false_iff.mpr fun ht => ?_
            rcases touches_absorb ht with ht | ⟨j, hj, ht⟩
            · exact Bool.false_ne_true (hi.symm.trans ht)
            · exact Bool.false_ne_true ((hil j hj).symm.trans ht)
          · exact ih hl k hk

theorem covers_absorb (c : Interval) (l : List Interval) (t : Timestamp) :
    Covers ((c.absorb l).1 :: (c.absorb l).2) t ↔ Covers (c :: l) t := by
  induction l generalizing c with
  | nil => rfl
  | cons i l ih =>
      cases hi : i.touches c with
      | true =>
          rw [absorb_cons_of_touches l hi, ih]
          rw [touches_comm] at hi
          simp only [Covers.cons_iff, contains_hull hi, or_assoc]
      | false =>
          have hih := ih c
          rw [absorb_cons_of_not_touches l hi]
          simp only [Covers.cons_iff] at hih ⊢
          rw [or_left_comm, hih, or_left_comm]

/-- **The step**: one more interval leaves the accepted ones apart. -/
theorem apart_accept {l : List Interval} (hl : Apart l) (c : Interval) : Apart (accept l c) := by
  refine List.pairwise_append.mpr
    ⟨hl.sublist (sublist_absorb c l), List.pairwise_singleton _ _, fun a ha b hb => ?_⟩
  rw [List.mem_singleton.mp hb]
  exact not_touches_absorb hl a ha

theorem covers_accept (l : List Interval) (c : Interval) (t : Timestamp) :
    Covers (accept l c) t ↔ Covers l t ∨ c.contains t = true := by
  have h := covers_absorb c l t
  simp only [Covers.cons_iff] at h
  simp only [accept, Covers.append_iff, Covers.cons_iff, Covers.nil_iff, or_false]
  rw [or_comm, h, or_comm]

end Interval

/-! ### All of them -/

theorem apart_foldl_accept (l : List Interval) {accepted : List Interval} (h : Apart accepted) :
    Apart (l.foldl Interval.accept accepted) := by
  induction l generalizing accepted with
  | nil => exact h
  | cons c l ih => exact ih (Interval.apart_accept h c)

theorem covers_foldl_accept (l accepted : List Interval) (t : Timestamp) :
    Covers (l.foldl Interval.accept accepted) t ↔ Covers accepted t ∨ Covers l t := by
  induction l generalizing accepted with
  | nil => simp [Covers.nil_iff]
  | cons c l ih => rw [List.foldl_cons, ih, Interval.covers_accept, Covers.cons_iff, or_assoc]

/-- Coalescing neither gains nor loses an instant. -/
theorem covers_coalesce (l : List Interval) (t : Timestamp) :
    Covers (coalesce l) t ↔ Covers l t := by
  calc Covers (coalesce l) t
      ↔ Covers (l.foldl Interval.accept []) t := Covers.congr_mem fun _ => List.mem_mergeSort
    _ ↔ Covers [] t ∨ Covers l t := covers_foldl_accept l [] t
    _ ↔ Covers l t := by simp only [Covers.nil_iff, false_or]

theorem coalesce_sorted (l : List Interval) :
    (coalesce l).Pairwise fun a b => a.first ≤ b.first := by
  have h : IsOrdering fun a b : Interval => decide (a.first ≤ b.first) :=
    .of_total (fun _ _ _ => Int.le_trans) fun a b => Int.le_total a.first.nanos b.first.nanos
  exact h.pairwise_mergeSort _

theorem apart_coalesce (l : List Interval) : Apart (coalesce l) :=
  (apart_foldl_accept l List.Pairwise.nil).perm (List.mergeSort_perm _ _).symm
    fun h => (Interval.touches_comm _ _).trans h

/-- **The pass**: its result ascends with a gap between any two intervals. -/
theorem pairwise_precedes_coalesce (l : List Interval) :
    (coalesce l).Pairwise Interval.Precedes :=
  (apart_coalesce l).imp₂ (fun _ _ h hf => Interval.precedes_of_not_touches h hf)
    (coalesce_sorted l)

end AccessWindows
