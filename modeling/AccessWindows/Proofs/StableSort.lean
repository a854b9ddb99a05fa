import Mathlib.Data.List.Basic

/-!
# Stable sorting — what it is determined by

A stable sort leaves elements that come neither before nor behind each other in the order in which
they were given (`filter_mergeSort_of_tied`).  Together with being sorted this determines the list
(`eq_mergeSort_of_filter_eq`): two sorted lists that agree on every class of tied elements are
equal.  Hence sorting commutes with filtering, and sorting by a second key what ascends in a first
one sorts by both (`pairwise_mergeSort_of_pairwise`).
-/

namespace AccessWindows

variable {α : Type} {le : α → α → Bool}

/-- A comparison by which any two elements compare, and chains of comparisons compose. -/
structure IsOrdering (le : α → α → Bool) : Prop where
  trans : ∀ a b c, le a b = true → le b c = true → le a c = true
  total : ∀ a b, (le a b || le b a) = true

/-- Neither element comes before the other. -/
def tied (le : α → α → Bool) (a b : α) : Bool := le a b && le b a

namespace IsOrdering

/-- A relation by which any two elements compare is an ordering once it is decided. -/
theorem of_total {r : α → α → Prop} [DecidableRel r] (htrans : ∀ a b c, r a b → r b c → r a c)
    (htotal : ∀ a b, r a b ∨ r b a) : IsOrdering fun a b => decide (r a b) where
  trans a b c hab hbc :=
    decide_eq_true (htrans a b c (of_decide_eq_true hab) (of_decide_eq_true hbc))
  total a b := by simpa using htotal a b

/-- What was sorted by a relation ascends in it. -/
theorem pairwise_mergeSort {r : α → α → Prop} [DecidableRel r]
    (h : IsOrdering fun a b => decide (r a b)) (l : List α) :
    (l.mergeSort fun a b => decide (r a b)).Pairwise r :=
  (List.pairwise_mergeSort h.trans h.total l).imp of_decide_eq_true

theorem refl (h : IsOrdering le) (a : α) : le a a = true := by
  simpa using h.total a a

theorem tied_self (h : IsOrdering le) (a : α) : tied le a a = true := by
  simp [tied, h.refl a]

theorem le_of_tied (h : IsOrdering le) {a b c : α} (hb : tied le a b = true)
    (hc : tied le a c = true) : le b c = true := by
  simp only [tied, Bool.and_eq_true] at hb hc
  exact h.trans b a c hb.2 hc.1

/-- **Stability**: elements of which none comes before another keep their order. -/
theorem filter_mergeSort_of_tied (h : IsOrdering le) {p : α → Bool}
    (hp : ∀ a b, p a = true → p b = true → le a b = true) (l : List α) :
    (l.mergeSort le).filter p = l.filter p := by
  have hpw : (l.filter p).Pairwise fun a b => le a b = true :=
    List.pairwise_of_forall_mem_list fun a ha b hb =>
      hp a b (List.mem_filter.mp ha).2 (List.mem_filter.mp hb).2
  have hsub : List.Sublist (l.filter p) (l.mergeSort le) :=
    List.sublist_mergeSort h.trans h.total hpw List.filter_sublist
  have hsub' : List.Sublist (l.filter p) ((l.mergeSort le).filter p) := by
    simpa only [List.filter_filter, Bool.and_self] using hsub.filter p
  exact (hsub'.eq_of_length ((List.mergeSort_perm l le).filter p).length_eq.symm).symm

theorem filter_tied_mergeSort (h : IsOrdering le) (a : α) (l : List α) :
    (l.mergeSort le).filter (tied le a) = l.filter (tied le a) :=
  h.filter_mergeSort_of_tied (fun _ _ hb hc => h.le_of_tied hb hc) l

/-! ### Sorted lists that agree on every class -/

/-- The head of a sorted list comes before or is tied with every element of the list. -/
theorem le_of_head (h : IsOrdering le) {a b : α} {l : List α}
    (hl : (a :: l).Pairwise fun a b => le a b = true) (hb : b ∈ a :: l) : le a b = true := by
  rcases List.mem_cons.mp hb with rfl | hb
  · exact h.refl b
  · exact List.rel_of_pairwise_cons hl hb

/-- An element is in any list that agrees with its own on its class. -/
theorem mem_of_filter_eq (h : IsOrdering le) {a : α} {l m : List α} (ha : a ∈ l)
    (hc : l.filter (tied le a) = m.filter (tied le a)) : a ∈ m := by
  have hm : a ∈ m.filter (tied le a) := hc ▸ List.mem_filter.mpr ⟨ha, h.tied_self a⟩
  exact (List.mem_filter.mp hm).1

/-- The induction takes the head of both lists at once: each comes before the other, so both head
their common class. -/
theorem eq_of_filter_eq (h : IsOrdering le) {l m : List α}
    (hl : l.Pairwise fun a b => le a b = true) (hm : m.Pairwise fun a b => le a b = true)
    (hc : ∀ a, l.filter (tied le a) = m.filter (tied le a)) : l = m := by
  induction l generalizing m with
  | nil =>
      cases m with
      | nil => rfl
      | cons b m =>
          exact absurd (h.mem_of_filter_eq List.mem_cons_self (hc b).symm) List.not_mem_nil
  | cons a l ih =>
      cases m with
      | nil => exact absurd (h.mem_of_filter_eq List.mem_cons_self (hc a)) List.not_mem_nil
      | cons b m =>
          have hab : le a b = true :=
            h.le_of_head hl (h.mem_of_filter_eq List.mem_cons_self (hc b).symm)
          have hba : le b a = true :=
            h.le_of_head hm (h.mem_of_filter_eq List.mem_cons_self (hc a))
          have htied : tied le a b = true := by simp [tied, hab, hba]
          -- so they are the heads of one and the same class
          have hheads := hc a
          rw [List.filter_cons_of_pos (h.tied_self a), List.filter_cons_of_pos htied] at hheads
          obtain ⟨rfl, -⟩ := List.cons.inj hheads
          refine congrArg (List.cons a) (ih hl.tail hm.tail fun c => ?_)
          have hcc := hc c
          rw [List.filter_cons, List.filter_cons] at hcc
          split at hcc
          · exact (List.cons.inj hcc).2
          · exact hcc

/-- **What a stable sort is**: a sorted list that agrees with the given one on every class. -/
theorem eq_mergeSort_of_filter_eq (h : IsOrdering le) {l m : List α}
    (hm : m.Pairwise fun a b => le a b = true)
    (hc : ∀ a, m.filter (tied le a) = l.filter (tied le a)) : m = l.mergeSort le :=
  h.eq_of_filter_eq hm (List.pairwise_mergeSort h.trans h.total l) fun a => by
    rw [hc a, h.filter_tied_mergeSort]

theorem filter_mergeSort (h : IsOrdering le) (p : α → Bool) (l : List α) :
    (l.mergeSort le).filter p = (l.filter p).mergeSort le := by
  refine h.eq_mergeSort_of_filter_eq ((List.pairwise_mergeSort h.trans h.total l).filter p) ?_
  intro a
  rw [List.filter_comm, h.filter_tied_mergeSort, List.filter_comm]

/-- A stable sort of what ascends in a first key ascends in that key wherever the sort ties. -/
theorem pairwise_mergeSort_of_pairwise (h : IsOrdering le) {r : α → α → Prop} {l : List α}
    (hl : l.Pairwise r) :
    (l.mergeSort le).Pairwise fun a b => le a b = true ∧ (tied le a b = true → r a b) := by
  have hsorted := List.pairwise_mergeSort h.trans h.total l
  have hclass : ∀ a, ((l.mergeSort le).filter (tied le a)).Pairwise r := fun a => by
    rw [h.filter_tied_mergeSort]
    exact hl.filter _
  generalize l.mergeSort le = m at hsorted hclass
  induction m with
  | nil => exact List.Pairwise.nil
  | cons a m ih =>
      refine List.pairwise_cons.mpr ⟨fun b hb => ⟨List.rel_of_pairwise_cons hsorted hb, ?_⟩, ?_⟩
      · intro ht
        have ha := hclass a
        rw [List.filter_cons_of_pos (h.tied_self a)] at ha
        exact List.rel_of_pairwise_cons ha (List.mem_filter.mpr ⟨hb, ht⟩)
      · exact ih hsorted.tail fun c => (hclass c).sublist ((List.sublist_cons_self a m).filter _)

end IsOrdering

end AccessWindows
