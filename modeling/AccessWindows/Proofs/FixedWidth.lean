import AccessWindows.Proofs.Decimal
import Mathlib.Algebra.Group.Nat.Defs
import Mathlib.Data.List.Forall2
import Mathlib.Data.List.Lex

/-!
# Numerals of fixed width

Zeros in front make numerals equally long, and change neither their value (`natural?_padded`) nor
that each is found from its front by its width alone (`length_padded`).  Equally long numerals are
in the order of their numbers (`padded_lt_padded_iff`), because the first place where two differ is
the most significant one.

A row of such numerals, each of its own width and with its own sign behind it, is ordered like the
numbers in it, the first deciding before the second (`spelled_lt_spelled_iff`).
-/

namespace AccessWindows.Decimal

/-- Texts whose fronts are equally long are ordered by their fronts first. -/
theorem append_lt_append_iff {front front' : List Char} (h : front.length = front'.length)
    (back back' : List Char) :
    front ++ back < front' ++ back' ↔ front < front' ∨ front = front' ∧ back < back' := by
  induction front generalizing front' with
  | nil =>
      cases List.length_eq_zero_iff.mp h.symm
      simp
  | cons c front ih =>
      cases front' with
      | nil => cases h
      | cons c' front' =>
          rw [List.cons_append, List.cons_append, List.cons_lt_cons_iff, List.cons_lt_cons_iff,
            ih (Nat.succ.inj h), List.cons.injEq]
          tauto

/-! ### One numeral -/

section padded

variable {width n a b : Nat}

theorem div_ten_lt (h : n < 10 ^ (width + 1)) : n / 10 < 10 ^ width :=
  Nat.div_lt_of_lt_mul (by rwa [Nat.pow_succ, Nat.mul_comm] at h)

theorem length_digits_le (hw : 0 < width) (h : n < 10 ^ width) : (digits n).length ≤ width := by
  induction width generalizing n with
  | zero => exact absurd hw (Nat.lt_irrefl 0)
  | succ width ih =>
      rw [digits]
      split
      next => exact Nat.succ_le_of_lt hw
      next hn =>
          have hpos : 0 < width := by
            rcases Nat.eq_zero_or_pos width with rfl | hpos
            · omega
            · exact hpos
          rw [List.length_append]
          exact Nat.succ_le_succ (ih hpos (div_ten_lt h))

theorem length_padded (hw : 0 < width) (h : n < 10 ^ width) : (padded width n).length = width := by
  have hle := length_digits_le hw h
  rw [padded, List.length_append, List.length_replicate]
  omega

theorem isDigit_of_mem_padded {c : Char} (h : c ∈ padded width n) :
    ∃ d < 10, c = digitChar d := by
  rcases List.mem_append.mp h with h | h
  · exact ⟨0, by decide, List.eq_of_mem_replicate h⟩
  · exact isDigit_of_mem_digits h

theorem padded_ne_nil (width n : Nat) : padded width n ≠ [] :=
  List.append_ne_nil_of_right_ne_nil _ (digits_ne_nil n)

/-- **Zeros in front** do not count. -/
theorem natural?_padded (width n : Nat) : natural? (padded width n) = some n := by
  have hzeros : ∀ k, accumulate? 0 (List.replicate k '0') = some 0 := fun k => by
    induction k with
    | zero => rfl
    | succ k ih => exact ih
  obtain ⟨c, cs, hcs⟩ := List.exists_cons_of_ne_nil (padded_ne_nil width n)
  rw [hcs, natural?, ← hcs, padded, accumulate?_append, hzeros, Option.bind_some]
  exact accumulate?_digits n

theorem padded_inj : padded width a = padded width b ↔ a = b := by
  refine ⟨fun h => ?_, fun h => by rw [h]⟩
  have hread := natural?_padded width a
  rw [h, natural?_padded] at hread
  exact (Option.some.inj hread).symm

/-- The last digit comes behind a numeral that is one digit shorter. -/
theorem padded_succ (hw : 0 < width) (n : Nat) :
    padded (width + 1) n = padded width (n / 10) ++ [digitChar (n % 10)] := by
  by_cases hn : n < 10
  · obtain ⟨width, rfl⟩ := Nat.exists_eq_add_one_of_ne_zero (Nat.ne_of_gt hw)
    have hzero : digits 0 = ['0'] := by rw [digits]; rfl
    have hone : digits n = [digitChar n] := by rw [digits, if_pos hn]
    rw [padded, padded, Nat.div_eq_of_lt hn, Nat.mod_eq_of_lt hn, hzero, hone]
    simp only [List.length_singleton, Nat.add_sub_cancel, List.replicate_succ']
  · have hmore : digits n = digits (n / 10) ++ [digitChar (n % 10)] := by rw [digits, if_neg hn]
    rw [padded, padded, hmore, List.length_append, List.length_singleton,
      Nat.add_sub_add_right, List.append_assoc]

theorem digitChar_lt_digitChar_iff (ha : a < 10) (hb : b < 10) :
    digitChar a < digitChar b ↔ a < b := by
  have hall : ∀ a < 10, ∀ b < 10, digitChar a < digitChar b ↔ a < b := by decide
  exact hall a ha b hb

/-- **Equally long numerals** are in the order of their numbers. -/
theorem padded_lt_padded_iff (hw : 0 < width) (ha : a < 10 ^ width) (hb : b < 10 ^ width) :
    padded width a < padded width b ↔ a < b := by
  induction width generalizing a b with
  | zero => exact absurd hw (Nat.lt_irrefl 0)
  | succ width ih =>
      have hlast : ∀ x y : Char, [x] < [y] ↔ x < y := fun x y => by
        rw [List.cons_lt_cons_iff]
        simp
      rcases Nat.eq_zero_or_pos width with rfl | hpos
      · have hone : ∀ n < 10, padded 1 n = [digitChar n] := fun n hn => by
          rw [padded, digits, if_pos hn]
          rfl
        rw [hone a ha, hone b hb, hlast, digitChar_lt_digitChar_iff ha hb]
      · -- the digits before the last are a shorter numeral, and decide first
        have hlength : (padded width (a / 10)).length = (padded width (b / 10)).length := by
          rw [length_padded hpos (div_ten_lt ha), length_padded hpos (div_ten_lt hb)]
        rw [padded_succ hpos, padded_succ hpos, append_lt_append_iff hlength,
          ih hpos (div_ten_lt ha) (div_ten_lt hb), padded_inj, hlast,
          digitChar_lt_digitChar_iff (Nat.mod_lt _ (by decide)) (Nat.mod_lt _ (by decide))]
        omega

end padded

/-! ### A row of numerals -/

/-- Numbers as numerals of given widths, the given sign behind each. -/
def spelled (layout : List (Nat × Char)) (numbers : List Nat) : List Char :=
  (layout.zip numbers).flatMap fun (field, n) => padded field.1 n ++ [field.2]

/-- As many numbers as there are fields, each of which has room for its number. -/
def Fits (layout : List (Nat × Char)) (numbers : List Nat) : Prop :=
  List.Forall₂ (fun field n => 0 < field.1 ∧ n < 10 ^ field.1) layout numbers

theorem spelled_cons (width : Nat) (sign : Char) (layout : List (Nat × Char)) (n : Nat)
    (numbers : List Nat) : spelled ((width, sign) :: layout) (n :: numbers) =
      padded width n ++ sign :: spelled layout numbers := by
  rw [spelled, List.zip_cons_cons, List.flatMap_cons, List.append_assoc]
  rfl

/-- A row holds digits and the signs behind its numerals. -/
theorem mem_spelled {layout : List (Nat × Char)} {numbers : List Nat} {c : Char}
    (h : c ∈ spelled layout numbers) :
    (∃ d < 10, c = digitChar d) ∨ c ∈ layout.map Prod.snd := by
  obtain ⟨⟨field, n⟩, hfield, hc⟩ := List.mem_flatMap.mp h
  rcases List.mem_append.mp hc with hc | hc
  · exact Or.inl (isDigit_of_mem_padded hc)
  · rw [List.mem_singleton.mp hc]
    exact Or.inr (List.mem_map_of_mem (List.of_mem_zip hfield).1)

/-- **Rows of numerals** are in the order of their numbers, the first deciding first. -/
theorem spelled_lt_spelled_iff {layout : List (Nat × Char)} {as bs : List Nat}
    (ha : Fits layout as) (hb : Fits layout bs) :
    spelled layout as < spelled layout bs ↔ as < bs := by
  induction ha generalizing bs with
  | nil =>
      cases hb
      simp
  | @cons field a layout as hfit _ ih =>
      obtain _ | ⟨hfit', hb⟩ := hb
      obtain ⟨width, sign⟩ := field
      rw [spelled_cons, spelled_cons, append_lt_append_iff, List.cons_lt_cons_iff,
        List.cons_lt_cons_iff, ih hb, padded_lt_padded_iff hfit.1 hfit.2 hfit'.2, padded_inj]
      · simp
      · rw [length_padded hfit.1 hfit.2, length_padded hfit'.1 hfit'.2]

end AccessWindows.Decimal
