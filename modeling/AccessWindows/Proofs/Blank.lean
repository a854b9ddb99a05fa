import AccessWindows.Text.Blank
import Mathlib.Data.List.TakeWhile

/-!
# Trimming — what is left and what does not matter

What is trimmed neither begins nor ends with a character that trimming removes (`head_trimBy`,
`getLast_trimBy`), and nothing else was removed (`mem_trimBy`).  A text of which this is true
already is left as it is (`trimBy_eq_self`), and more such characters at its ends make no difference
(`trimBy_padded`).
-/

namespace AccessWindows

/-! ### Lists without their beginning -/

section dropWhile

variable {α : Type} {p : α → Bool} {l : List α}

/-- What is left when a front has been dropped does not begin with what is dropped. -/
theorem head_dropWhile {a : α} (h : (l.dropWhile p).head? = some a) : p a = false := by
  have hnot := List.head?_dropWhile_not p l
  rwa [h] at hnot

/-- Nothing is dropped if nothing stands in front that should be. -/
theorem dropWhile_eq_self (h : ∀ a, l.head? = some a → p a = false) : l.dropWhile p = l := by
  cases l with
  | nil => rfl
  | cons a l => exact List.dropWhile_cons_of_neg (by simp [h a rfl])

end dropWhile

/-! ### Trimmed texts -/

namespace Blank

variable {p : Char → Bool} {cs : List Char} {c : Char}

/-- Behind what is left there was nothing but what trimming removes. -/
theorem exists_dropWhile_eq (p : Char → Bool) (cs : List Char) :
    ∃ back, (∀ c ∈ back, p c = true) ∧ cs.dropWhile p = trimBy p cs ++ back := by
  refine ⟨((cs.dropWhile p).reverse.takeWhile p).reverse, fun c hc => ?_, ?_⟩
  · exact List.mem_takeWhile_imp (List.mem_reverse.mp hc)
  · rw [trimBy, ← List.reverse_append, List.takeWhile_append_dropWhile, List.reverse_reverse]

/-- A trimmed text does not begin with what is removed. -/
theorem head_trimBy (h : (trimBy p cs).head? = some c) : p c = false := by
  obtain ⟨back, -, hsplit⟩ := exists_dropWhile_eq p cs
  have hhead : (cs.dropWhile p).head? = some c := by
    rw [hsplit, List.head?_append, h, Option.some_or]
  exact head_dropWhile hhead

/-- A trimmed text does not end with what is removed. -/
theorem getLast_trimBy (h : (trimBy p cs).getLast? = some c) : p c = false := by
  rw [trimBy, List.getLast?_reverse] at h
  exact head_dropWhile h

/-- What is not to be removed stays. -/
theorem mem_trimBy (hc : c ∈ cs) (hp : p c = false) : c ∈ trimBy p cs := by
  obtain ⟨back, hback, hsplit⟩ := exists_dropWhile_eq p cs
  rw [← List.takeWhile_append_dropWhile (p := p) (l := cs), hsplit, List.mem_append,
    List.mem_append] at hc
  rcases hc with hc | hc | hc
  · rw [List.mem_takeWhile_imp hc] at hp
    cases hp
  · exact hc
  · rw [hback c hc] at hp
    cases hp

/-- Nothing is removed from a text if neither of its ends is to be. -/
theorem trimBy_eq_self (hhead : ∀ c, cs.head? = some c → p c = false)
    (hlast : ∀ c, cs.getLast? = some c → p c = false) : trimBy p cs = cs := by
  rw [trimBy, dropWhile_eq_self hhead, dropWhile_eq_self (by simpa using hlast),
    List.reverse_reverse]

/-- A trimmed text is trimmed no further. -/
theorem trimBy_trimBy (p : Char → Bool) (cs : List Char) : trimBy p (trimBy p cs) = trimBy p cs :=
  trimBy_eq_self (fun _ => head_trimBy) fun _ => getLast_trimBy

/-- Text without white space is not trimmed. -/
theorem trim_eq_self (h : ∀ c ∈ cs, isBlank c = false) : trim cs = cs :=
  trimBy_eq_self (fun c hc => h c (List.mem_of_head? hc)) fun c hc => h c (List.mem_of_getLast? hc)

/-- **Padding**: what is removed at the ends may stand there any number of times. -/
theorem trimBy_padded {front back : List Char} (hfront : ∀ c ∈ front, p c = true)
    (hback : ∀ c ∈ back, p c = true) : trimBy p (front ++ cs ++ back) = trimBy p cs := by
  have hreverse : ∀ c ∈ back.reverse, p c = true := fun c hc => hback c (List.mem_reverse.mp hc)
  rw [trimBy, List.append_assoc, List.dropWhile_append_of_pos hfront, List.dropWhile_append]
  split
  next h =>
      -- nothing but padding
      rw [List.isEmpty_iff] at h
      rw [trimBy, h, List.dropWhile_eq_nil_iff.mpr hback]
  next h => rw [List.reverse_append, List.dropWhile_append_of_pos hreverse, trimBy]

end Blank

end AccessWindows
