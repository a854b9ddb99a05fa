import AccessWindows.Instant
import AccessWindows.Proofs.Calendar.Grammar
import AccessWindows.Proofs.Paths

/-!
# Instants — reading what was shown

An instant is shown in two ways, as its count of nanoseconds and as a date-time.  Neither begins or
ends with white space, so that there is nothing to trim, and no date-time is taken for a count,
since it holds a hyphen behind its year.  Hence both are read back, from the first instant to the
last; and of two date-times the lower in the order of texts is the earlier (`instants_faithful`).
-/

namespace AccessWindows.Timestamp

open Decimal

theorem isBlank_digitChar {d : Nat} (h : d < 10) : Blank.isBlank (digitChar d) = false := by
  have hall : ∀ d < 10, Blank.isBlank (digitChar d) = false := by decide
  exact hall d h

/-! ### Counts -/

theorem isBlank_of_mem_integer {n : Int} {c : Char} (h : c ∈ integer n) :
    Blank.isBlank c = false := by
  rcases sign_or_digit_of_mem_integer h with rfl | ⟨d, hd, rfl⟩
  · rfl
  · exact isBlank_digitChar hd

/-- **An instant is read back** from its count of nanoseconds. -/
theorem ofText_text (t : Timestamp) : ofText t.text = .ok t := by
  rw [ofText, text, integerText, String.toList_ofList]
  simp only [Blank.trim_eq_self fun _ h => isBlank_of_mem_integer h, signed?_integer,
    Option.bind_some, ofNanos?_nanos]

/-! ### Date-times -/

theorem isBlank_of_mem_render {t : Timestamp} {c : Char} (h : c ∈ (Calendar.render t).toList) :
    Blank.isBlank c = false := by
  have hsigns : (Calendar.layout.map Prod.snd).all (fun c => !Blank.isBlank c) = true := rfl
  rw [Calendar.toList_render] at h
  rcases mem_spelled h with ⟨d, hd, rfl⟩ | h
  · exact isBlank_digitChar hd
  · simpa using List.all_eq_true.mp hsigns c h

/-- A date-time is no count: behind the digits of its year stands a hyphen. -/
theorem signed?_eq_none_of_nanos? {cs : List Char} {n : Int} (h : Calendar.nanos? cs = some n) :
    signed? cs = none := by
  obtain ⟨x, ⟨sign, -, zone, -, rfl⟩, -⟩ := Calendar.nanos?_eq_some_iff.mp h
  simp only [Calendar.dateText, List.append_assoc, List.cons_append]
  exact signed?_append_cons (padded_ne_nil _ _) (by decide) _

/-- **An instant is read back** from its date-time. -/
theorem ofText_render (t : Timestamp) : ofText (Calendar.render t) = .ok t := by
  have hnanos := Calendar.nanos?_render t
  rw [ofText]
  simp only [Blank.trim_eq_self fun _ h => isBlank_of_mem_render h,
    signed?_eq_none_of_nanos? hnanos, Option.bind_none, hnanos, ofNanos?_nanos]

/-- **What is shown is faithful.**  Every instant is read back from its date-time, and from its
count of nanoseconds, and date-times are in the order of their instants. -/
theorem instants_faithful :
    (∀ t : Timestamp, ofText (Calendar.render t) = .ok t ∧ ofText t.text = .ok t) ∧
      ∀ a b : Timestamp, a < b ↔ Calendar.render a < Calendar.render b :=
  ⟨fun t => ⟨ofText_render t, ofText_text t⟩, fun _ _ => Calendar.render_lt_render_iff.symm⟩

end AccessWindows.Timestamp
