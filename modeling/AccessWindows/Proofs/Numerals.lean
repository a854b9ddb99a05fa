import AccessWindows.Proofs.FixedWidth
import Mathlib.Data.List.Induction

/-!
# Numerals — which texts are read

A run of digits is the numeral of one number, zeros in front included: it is what `padded` writes
for that number at the width of the run (`natural?_eq_some_iff`).  So the texts of a number are just
these numerals, behind one sign at most where a sign is allowed (`unsigned?_eq_some_iff`,
`signed?_eq_some_iff`).

Zeros put behind a numeral multiply its number (`padded_append_zeros`), and what is cut off behind
it divides it (`take_padded`).
-/

namespace AccessWindows.Decimal

variable {cs : List Char} {c : Char} {n d : Nat}

theorem digitValue?_eq_some (h : digitValue? c = some d) : d < 10 ∧ c = digitChar d := by
  rw [digitValue?] at h
  split at h
  next hc =>
      cases h
      refine ⟨by omega, ?_⟩
      rw [digitChar, Nat.add_sub_cancel' hc.1, Char.ofNat_toNat]
  next => cases h

/-! ### Runs of digits -/

theorem natural?_eq_accumulate? (h : cs ≠ []) : natural? cs = accumulate? 0 cs := by
  obtain ⟨first, rest, rfl⟩ := List.exists_cons_of_ne_nil h
  rfl

/-- A run of digits is the numeral that its number has at this width. -/
theorem eq_padded_of_natural? (h : natural? cs = some n) :
    0 < cs.length ∧ n < 10 ^ cs.length ∧ padded cs.length n = cs := by
  -- the last digit is the least, so the induction takes it off first
  induction cs using List.reverseRecOn generalizing n with
  | nil => cases h
  | append_singleton front c ih =>
      rw [natural?_eq_accumulate? (List.append_ne_nil_of_right_ne_nil _ (List.cons_ne_nil c [])),
        accumulate?_append] at h
      obtain ⟨m, hm, hlast⟩ := Option.bind_eq_some_iff.mp h
      rw [accumulate?] at hlast
      cases hd : digitValue? c with
      | none => rw [hd] at hlast; cases hlast
      | some d =>
          rw [hd] at hlast
          cases hlast
          obtain ⟨hlt, rfl⟩ := digitValue?_eq_some hd
          rw [List.length_append, List.length_singleton]
          by_cases hfront : front = []
          · subst hfront
            cases hm
            refine ⟨by decide, by simpa using hlt, ?_⟩
            rw [padded, digits, if_pos (by omega), Nat.mul_zero, Nat.zero_add]
            rfl
          · rw [← natural?_eq_accumulate? hfront] at hm
            obtain ⟨hpos, hm10, hpadded⟩ := ih hm
            refine ⟨by omega, by rw [Nat.pow_succ]; omega, ?_⟩
            rw [padded_succ hpos, Nat.mul_add_div (by decide), Nat.div_eq_of_lt hlt, Nat.add_zero,
              hpadded, Nat.mul_add_mod, Nat.mod_eq_of_lt hlt]

/-- **Runs of digits** are the numerals, with any number of zeros in front. -/
theorem natural?_eq_some_iff : natural? cs = some n ↔ ∃ width, cs = padded width n := by
  constructor
  · intro h
    exact ⟨cs.length, (eq_padded_of_natural? h).2.2.symm⟩
  · rintro ⟨width, rfl⟩
    exact natural?_padded width n

theorem head_padded_ne_sign (width n : Nat) {rest : List Char} :
    padded width n ≠ '-' :: rest ∧ padded width n ≠ '+' :: rest := by
  constructor
  · intro h
    obtain ⟨d, hd, hc⟩ := isDigit_of_mem_padded (h ▸ List.mem_cons_self : '-' ∈ padded width n)
    exact (digitChar_ne_sign hd).1 hc.symm
  · intro h
    obtain ⟨d, hd, hc⟩ := isDigit_of_mem_padded (h ▸ List.mem_cons_self : '+' ∈ padded width n)
    exact (digitChar_ne_sign hd).2 hc.symm

/-- Digits are a numeral of some number. -/
theorem exists_natural? (hne : cs ≠ []) (h : ∀ c ∈ cs, (digitValue? c).isSome = true) :
    ∃ n, natural? cs = some n := by
  have hall : ∀ acc, ∃ n, accumulate? acc cs = some n := by
    clear hne
    induction cs with
    | nil => exact fun acc => ⟨acc, rfl⟩
    | cons c cs ih =>
        intro acc
        obtain ⟨hc, hcs⟩ := List.forall_mem_cons.mp h
        obtain ⟨d, hd⟩ := Option.isSome_iff_exists.mp hc
        rw [accumulate?, hd]
        exact ih hcs _
  rw [natural?_eq_accumulate? hne]
  exact hall 0

/-! ### Shifts -/

section shifts

variable {width : Nat}

/-- Zeros behind a numeral multiply its number. -/
theorem padded_append_zeros (hw : 0 < width) (n count : Nat) :
    padded width n ++ List.replicate count '0' = padded (width + count) (n * 10 ^ count) := by
  induction count with
  | zero => simp
  | succ count ih =>
      have hlast : n * 10 ^ (count + 1) = 10 * (n * 10 ^ count) := by
        rw [Nat.pow_succ, ← Nat.mul_assoc, Nat.mul_comm]
      rw [List.replicate_succ', ← List.append_assoc, ih, ← Nat.add_assoc,
        padded_succ (Nat.add_pos_left hw count), hlast, Nat.mul_div_cancel_left _ (by decide),
        Nat.mul_mod_right]
      rfl

/-- The front of a numeral is that of the quotient. -/
theorem take_padded (hw : 0 < width) {n count : Nat} (hn : n < 10 ^ (width + count)) :
    (padded (width + count) n).take width = padded width (n / 10 ^ count) := by
  induction count generalizing n with
  | zero =>
      rw [Nat.pow_zero, Nat.div_one, Nat.add_zero]
      exact List.take_of_length_le (Nat.le_of_eq (length_padded hw hn))
  | succ count ih =>
      have hn' := div_ten_lt hn
      have hlength := length_padded (Nat.add_pos_left hw count) hn'
      rw [← Nat.add_assoc, padded_succ (Nat.add_pos_left hw count),
        List.take_append_of_le_length (by rw [hlength]; exact Nat.le_add_right width count), ih hn',
        Nat.div_div_eq_div_mul, Nat.pow_succ, Nat.mul_comm 10]

end shifts

/-! ### Signs -/

/-- **Counts**: numerals, behind a plus sign or not. -/
theorem unsigned?_eq_some_iff :
    unsigned? cs = some n ↔ ∃ width, cs = padded width n ∨ cs = '+' :: padded width n := by
  rw [unsigned?.eq_def]
  split
  next rest =>
      rw [natural?_eq_some_iff]
      refine exists_congr fun width => ?_
      rw [List.cons.injEq]
      simp [(head_padded_ne_sign width n).2.symm]
  next hplus =>
      rw [natural?_eq_some_iff]
      exact exists_congr fun width => (or_iff_left fun h => hplus _ h).symm

/-- The text of a whole number: a numeral, behind a sign or not. -/
inductive IsInteger : List Char → Int → Prop
  | bare (width n : Nat) : IsInteger (padded width n) n
  | plus (width n : Nat) : IsInteger ('+' :: padded width n) n
  | minus (width n : Nat) : IsInteger ('-' :: padded width n) (-n)

/-- **Whole numbers** are read from their texts, and from no others. -/
theorem signed?_eq_some_iff {n : Int} : signed? cs = some n ↔ IsInteger cs n := by
  constructor
  · intro h
    rw [signed?.eq_def] at h
    split at h
    next rest =>
        obtain ⟨_, hrest, rfl⟩ := Option.map_eq_some_iff.mp h
        obtain ⟨m, hm, he⟩ := Option.bind_eq_some_iff.mp hrest
        cases he
        obtain ⟨width, rfl⟩ := natural?_eq_some_iff.mp hm
        exact .minus width m
    next rest =>
        obtain ⟨m, hm, rfl⟩ := Option.map_eq_some_iff.mp h
        obtain ⟨width, rfl⟩ := natural?_eq_some_iff.mp hm
        exact .plus width m
    next =>
        obtain ⟨m, hm, rfl⟩ := Option.map_eq_some_iff.mp h
        obtain ⟨width, rfl⟩ := natural?_eq_some_iff.mp hm
        exact .bare width m
  · rintro (⟨width, n⟩ | ⟨width, n⟩ | ⟨width, n⟩)
    · rw [signed?.eq_3 _ (fun _ => (head_padded_ne_sign width n).1)
        (fun _ => (head_padded_ne_sign width n).2), natural?_padded]
      rfl
    · rw [signed?, natural?_padded]
      rfl
    · rw [signed?, natural?_padded]
      rfl

end AccessWindows.Decimal
