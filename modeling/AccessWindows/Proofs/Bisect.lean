import AccessWindows.Bisect

/-!
# Bisection — where it ends

In an array whose elements satisfying `p` come first, bisection finds how many they are
(`bisect_eq_countP`).  The invariant of the search says that everything before `lo` satisfies `p`
and nothing from `hi` on does.  A look at the middle element moves one of the two bounds, because
the order of the array settles all elements on one side of it.
-/

namespace AccessWindows

variable {α : Type} {p : α → Bool}

/-- The elements satisfying `p` come first. -/
def Partitioned (p : α → Bool) (l : List α) : Prop :=
  l.Pairwise fun a b => p b = true → p a = true

/-- All elements before `lo` satisfy `p`, and none from `hi` on does. -/
structure Brackets (p : α → Bool) (l : List α) (lo hi : Nat) : Prop where
  before : ∀ i (h : i < l.length), i < lo → p l[i] = true
  behind : ∀ i (h : i < l.length), hi ≤ i → p l[i] = false

namespace Brackets

variable {l : List α} {lo hi mid : Nat}

theorem whole (p : α → Bool) (l : List α) : Brackets p l 0 l.length :=
  ⟨fun _ _ h => absurd h (Nat.not_lt_zero _), fun _ h h' => absurd h (Nat.not_lt.mpr h')⟩

/-- An element that satisfies `p` settles all before it. -/
theorem raise (hp : Partitioned p l) (h : Brackets p l lo hi) (hm : mid < l.length)
    (hx : p l[mid] = true) : Brackets p l (mid + 1) hi := by
  refine ⟨fun i hi' hlt => ?_, h.behind⟩
  -- before `mid` by the order of the array, at `mid` by the look
  rcases Nat.lt_or_eq_of_le (Nat.le_of_lt_succ hlt) with hlt | rfl
  · exact List.pairwise_iff_getElem.mp hp i mid hi' hm hlt hx
  · exact hx

/-- An element that does not satisfy `p` settles all behind it. -/
theorem lower (hp : Partitioned p l) (h : Brackets p l lo hi) (hm : mid < l.length)
    (hx : p l[mid] = false) : Brackets p l lo mid := by
  refine ⟨h.before, fun i hi' hle => ?_⟩
  rcases Nat.lt_or_eq_of_le hle with hlt | rfl
  · have hi := List.pairwise_iff_getElem.mp hp mid i hm hi' hlt
    rw [hx] at hi
    exact Bool.eq_false_iff.mpr fun hpi => Bool.false_ne_true (hi hpi)
  · exact hx

/-- Bounds that meet are the number of elements satisfying `p`. -/
theorem eq_countP {k : Nat} (h : Brackets p l k k) (hk : k ≤ l.length) : l.countP p = k := by
  have htake : ∀ x ∈ l.take k, p x = true := by
    intro x hx
    obtain ⟨i, hi, rfl⟩ := List.mem_take_iff_getElem.mp hx
    exact h.before i (by omega) (by omega)
  have hdrop : ∀ x ∈ l.drop k, ¬ p x = true := by
    intro x hx
    obtain ⟨i, hi, rfl⟩ := List.mem_drop_iff_getElem.mp hx
    simp [h.behind (k + i) (by omega) (by omega)]
  calc l.countP p
      = (l.take k).countP p + (l.drop k).countP p := by
        rw [← List.countP_append, List.take_append_drop]
    _ = (l.take k).length + 0 := by
        rw [List.countP_eq_length.mpr htake, List.countP_eq_zero.mpr hdrop]
    _ = k := by rw [List.length_take_of_le hk, Nat.add_zero]

end Brackets

theorem bisectBetween_eq_countP {xs : Array α} (hp : Partitioned p xs.toList) (lo hi : Nat)
    (h : Brackets p xs.toList lo hi) (hle : lo ≤ hi) (hhi : hi ≤ xs.toList.length) :
    bisectBetween p xs lo hi = xs.toList.countP p := by
  induction lo, hi using bisectBetween.induct p xs with
  | case1 lo hi hlt mid hmid ih =>
      have hm : mid < xs.toList.length := by omega
      have hx : xs[mid]? = some xs.toList[mid] := by simp
      rw [hx] at hmid
      rw [bisectBetween, dif_pos hlt, if_pos (by rw [hx]; exact hmid)]
      exact ih (h.raise hp hm hmid) (by omega) hhi
  | case2 lo hi hlt mid hmid ih =>
      have hm : mid < xs.toList.length := by omega
      have hx : xs[mid]? = some xs.toList[mid] := by simp
      rw [hx] at hmid
      rw [bisectBetween, dif_pos hlt, if_neg (by rw [hx]; exact hmid)]
      exact ih (h.lower hp hm (Bool.eq_false_iff.mpr hmid)) (by omega) (by omega)
  | case3 lo hi hlt =>
      obtain rfl : lo = hi := by omega
      rw [bisectBetween, dif_neg hlt]
      exact (h.eq_countP hhi).symm

/-- **Bisection counts**: it finds how many elements satisfy `p` when these come first. -/
theorem bisect_eq_countP {xs : Array α} (hp : Partitioned p xs.toList) :
    bisect p xs = xs.toList.countP p :=
  bisectBetween_eq_countP hp 0 xs.size (.whole p xs.toList) (Nat.zero_le _) (Nat.le_refl _)

/-! ### The two parts of a partitioned list -/

namespace Partitioned

variable {a : α} {l : List α}

/-- Once an element does not satisfy `p`, none behind it does. -/
theorem not_of_head (hp : Partitioned p (a :: l)) (ha : p a = false) :
    ∀ b ∈ l, ¬ p b = true := by
  intro b hb hpb
  have hpa := (List.pairwise_cons.mp hp).1 b hb hpb
  exact Bool.false_ne_true (ha.symm.trans hpa)

theorem take_countP (hp : Partitioned p l) : l.take (l.countP p) = l.filter p := by
  induction l with
  | nil => rfl
  | cons a l ih =>
      cases ha : p a with
      | true => simp [ha, ih hp.tail]
      | false =>
          have hnone := hp.not_of_head ha
          simp [ha, List.countP_eq_zero.mpr hnone, List.filter_eq_nil_iff.mpr hnone]

theorem drop_countP (hp : Partitioned p l) : l.drop (l.countP p) = l.filter fun a => !p a := by
  induction l with
  | nil => rfl
  | cons a l ih =>
      cases ha : p a with
      | true => simp [ha, ih hp.tail]
      | false =>
          have hnone := hp.not_of_head ha
          have hall : l.filter (fun a => !p a) = l :=
            List.filter_eq_self.mpr fun b hb => by simp [hnone b hb]
          simp [ha, List.countP_eq_zero.mpr hnone, hall]

end Partitioned

end AccessWindows
