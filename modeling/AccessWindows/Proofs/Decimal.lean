import AccessWindows.Text.Decimal
import Mathlib.Data.List.Basic

/-!
# Decimal numerals — reading what was written

The numeral of a number is a run of digits (`isDigit_of_mem_digits`) that begins with a zero only if
it is all there is (`digits_head`), and whose value, digit by digit, is the number
(`foldl_digits`).  So it is read back, a sign in front included (`natural?_digits`,
`signed?_integer`), whereas a text with another character in it is no numeral
(`signed?_append_cons`).
-/

namespace AccessWindows.Decimal

/-! ### Digits -/

/-- A digit has the value that it was written for. -/
theorem digitValue?_digitChar {d : Nat} (h : d < 10) : digitValue? (digitChar d) = some d := by
  have hall : ∀ d < 10, digitValue? (digitChar d) = some d := by decide
  exact hall d h

/-- A numeral consists of decimal digits. -/
theorem isDigit_of_mem_digits {n : Nat} {c : Char} (h : c ∈ digits n) :
    ∃ d < 10, c = digitChar d := by
  fun_induction digits n with
  | case1 n hn => exact ⟨n, hn, List.mem_singleton.mp h⟩
  | case2 n _ ih =>
      rcases List.mem_append.mp h with h | h
      · exact ih h
      · exact ⟨n % 10, Nat.mod_lt _ (by decide), List.mem_singleton.mp h⟩

theorem space_not_mem_digits (n : Nat) : ' ' ∉ digits n := by
  intro h
  have hnone : ∀ d < 10, ' ' ≠ digitChar d := by decide
  obtain ⟨d, hd, hc⟩ := isDigit_of_mem_digits h
  exact hnone d hd hc

/-- The numeral of a whole number holds a minus sign and digits. -/
theorem sign_or_digit_of_mem_integer {n : Int} {c : Char} (h : c ∈ integer n) :
    c = '-' ∨ ∃ d < 10, c = digitChar d := by
  rw [integer] at h
  split at h
  · exact (List.mem_cons.mp h).imp_right isDigit_of_mem_digits
  · exact Or.inr (isDigit_of_mem_digits h)

/-- A numeral has at least one digit. -/
theorem digits_ne_nil (n : Nat) : digits n ≠ [] := by
  rw [digits]
  split
  · exact List.cons_ne_nil _ _
  · exact List.append_ne_nil_of_right_ne_nil _ (List.cons_ne_nil _ _)

/-- A numeral of more than one digit does not begin with a zero. -/
theorem digits_head {n : Nat} (h : 10 ≤ n) : ∃ d, 0 < d ∧ d < 10 ∧
    (digits n).head? = some (digitChar d) := by
  fun_induction digits n with
  | case1 n hn => omega
  | case2 n hn ih =>
      rw [List.head?_append_of_ne_nil _ (digits_ne_nil _)]
      by_cases hsmall : n / 10 < 10
      · refine ⟨n / 10, by omega, hsmall, ?_⟩
        rw [digits, if_pos hsmall]
        rfl
      · exact ih (by omega)

/-! ### Reading -/

/-- Digits accumulate from left to right. -/
theorem accumulate?_append (acc : Nat) (cs cs' : List Char) :
    accumulate? acc (cs ++ cs') = (accumulate? acc cs).bind fun acc => accumulate? acc cs' := by
  induction cs generalizing acc with
  | nil => rfl
  | cons c cs ih =>
      rw [List.cons_append, accumulate?, accumulate?]
      cases digitValue? c with
      | none => rfl
      | some d => exact ih _

/-- The digits of a number accumulate to it. -/
theorem accumulate?_digits (n : Nat) : accumulate? 0 (digits n) = some n := by
  fun_induction digits n with
  | case1 n hn => simp [accumulate?, digitValue?_digitChar hn]
  | case2 n _ ih =>
      have hd := digitValue?_digitChar (Nat.mod_lt n (by decide : 0 < 10))
      rw [accumulate?_append, ih, Option.bind_some, accumulate?, hd]
      exact congrArg some (Nat.div_add_mod n 10)

/-- The values of the digits, one after the other, come to the number. -/
theorem foldl_digits (n : Nat) :
    ((digits n).filterMap digitValue?).foldl (fun acc d => 10 * acc + d) 0 = n := by
  fun_induction digits n with
  | case1 n hn => simp [digitValue?_digitChar hn]
  | case2 n _ ih =>
      have hd := digitValue?_digitChar (Nat.mod_lt n (by decide : 0 < 10))
      rw [List.filterMap_append, List.foldl_append, ih, List.filterMap_cons_some hd]
      exact Nat.div_add_mod n 10

/-- A number is read back from its digits. -/
theorem natural?_digits (n : Nat) : natural? (digits n) = some n := by
  obtain ⟨c, cs, hcs⟩ := List.exists_cons_of_ne_nil (digits_ne_nil n)
  rw [hcs, natural?, ← hcs]
  exact accumulate?_digits n

/-- Different numbers have different digits. -/
theorem digits_injective : Function.Injective digits := by
  intro n m h
  have hread := natural?_digits n
  rw [h, natural?_digits] at hread
  exact (Option.some.inj hread).symm

/-- A digit is no sign. -/
theorem digitChar_ne_sign {d : Nat} (h : d < 10) : digitChar d ≠ '-' ∧ digitChar d ≠ '+' := by
  have hall : ∀ d < 10, digitChar d ≠ '-' ∧ digitChar d ≠ '+' := by decide
  exact hall d h

/-- Digits without a sign are read as a number that is not negative. -/
theorem signed?_digits (n : Nat) : signed? (digits n) = some (n : Int) := by
  obtain ⟨c, cs, hcs⟩ := List.exists_cons_of_ne_nil (digits_ne_nil n)
  obtain ⟨d, hd, rfl⟩ := isDigit_of_mem_digits (hcs ▸ List.mem_cons_self : c ∈ digits n)
  obtain ⟨hminus, hplus⟩ := digitChar_ne_sign hd
  have h := natural?_digits n
  rw [hcs] at h ⊢
  rw [signed?.eq_3 _ (fun _ he => hminus (List.cons.inj he).1)
    (fun _ he => hplus (List.cons.inj he).1), h]
  rfl

/-- **A whole number is read back** from its numeral. -/
theorem signed?_integer (n : Int) : signed? (integer n) = some n := by
  rw [integer]
  split
  next hn =>
      have hneg : -(n.natAbs : Int) = n := by omega
      rw [signed?, natural?_digits]
      exact congrArg some hneg
  next hn =>
      rw [signed?_digits]
      exact congrArg some (by omega)

/-! ### Refusing -/

section refusing

variable {front rest : List Char} {c : Char}

/-- A character that is no digit spoils a numeral, wherever it stands. -/
theorem natural?_append_cons (front : List Char) (hc : digitValue? c = none) (rest : List Char) :
    natural? (front ++ c :: rest) = none := by
  have hstop : ∀ acc, accumulate? acc (c :: rest) = none := fun acc => by rw [accumulate?, hc]
  have hall : accumulate? 0 (front ++ c :: rest) = none := by
    rw [accumulate?_append]
    cases accumulate? 0 front with
    | none => rfl
    | some acc => exact hstop acc
  cases front with
  | nil => exact hall
  | cons first front => exact hall

/-- A sign that is not in front has no place in a numeral, nor has anything else but digits. -/
theorem signed?_append_cons (hfront : front ≠ []) (hc : digitValue? c = none) (rest : List Char) :
    signed? (front ++ c :: rest) = none := by
  obtain ⟨first, front, rfl⟩ := List.exists_cons_of_ne_nil hfront
  rw [List.cons_append, signed?.eq_def]
  split
  next heq => rw [← (List.cons.inj heq).2, natural?_append_cons front hc]; rfl
  next heq => rw [← (List.cons.inj heq).2, natural?_append_cons front hc]; rfl
  next => rw [← List.cons_append, natural?_append_cons _ hc]; rfl

end refusing

end AccessWindows.Decimal
