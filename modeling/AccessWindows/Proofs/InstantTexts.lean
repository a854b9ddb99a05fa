import AccessWindows.Proofs.Instant

/-!
# Instants — what a text denotes

White space around it aside, a text denotes an instant if it is a whole number, which counts
nanoseconds, or a date-time, which denotes the instant that its date, its time and its offset come
to.  No text is both, since a date-time holds a hyphen behind its year
(`signed?_eq_none_of_nanos?`).

The instant that is read is exactly the one denoted, from the first timestamp to the last, and
beyond these there is an error and no other timestamp (`ofText_exact`).
-/

namespace AccessWindows.Timestamp

open Calendar Decimal

variable {cs : List Char} {n : Int} {t : Timestamp} {raw raw' : String}

theorem ofNanos?_eq_some_iff : ofNanos? n = some t ↔ t.nanos = n := by
  refine ⟨nanos_of_ofNanos?, ?_⟩
  rintro rfl
  exact ofNanos?_nanos t

/-! ### Reading -/

/-- **Success**: the text is the count of the instant, or a date-time that denotes it. -/
theorem ofText_eq_ok_iff : ofText raw = .ok t ↔
    signed? (Blank.trim raw.toList) = some t.nanos ∨
      nanos? (Blank.trim raw.toList) = some t.nanos := by
  rw [ofText]
  cases hs : (signed? (Blank.trim raw.toList)).bind ofNanos? with
  | some u =>
      obtain ⟨m, hm, hu⟩ := Option.bind_eq_some_iff.mp hs
      have hnone : nanos? (Blank.trim raw.toList) = none := by
        by_contra hsome
        obtain ⟨n, hn⟩ := Option.ne_none_iff_exists'.mp hsome
        rw [signed?_eq_none_of_nanos? hn] at hm
        cases hm
      rw [← ofNanos?_eq_some_iff.mp hu] at hm
      simp only [hm, hnone, Except.ok.injEq, Option.some.injEq, reduceCtorEq, or_false]
      exact ⟨congrArg nanos, ext_nanos⟩
  | none =>
      -- a count that no timestamp has may stand here, but it is not that of `t`
      have hcount : signed? (Blank.trim raw.toList) ≠ some t.nanos := fun h => by
        rw [h, Option.bind_some, ofNanos?_nanos] at hs
        cases hs
      rw [or_iff_right hcount]
      cases hn : nanos? (Blank.trim raw.toList) with
      | none => simp
      | some m =>
          rw [Option.some.injEq, eq_comm (a := m), ← ofNanos?_eq_some_iff]
          cases hof : ofNanos? m with
          | none => simp [hof]
          | some u => simp [hof]

/-- **Beyond the bounds**: the text is a date-time whose instant no timestamp reaches. -/
theorem ofText_eq_outOfRange_iff : ofText raw = .error (.outOfRange raw) ↔
    ∃ n, nanos? (Blank.trim raw.toList) = some n ∧ ofNanos? n = none := by
  rw [ofText]
  cases hn : nanos? (Blank.trim raw.toList) with
  | none => cases (signed? (Blank.trim raw.toList)).bind ofNanos? <;> simp
  | some m =>
      rw [signed?_eq_none_of_nanos? hn, Option.bind_none]
      simp only [Option.some.injEq, exists_eq_left']
      cases ofNanos? m <;> simp

/-- **Refusal**: the text is neither a count within the bounds nor a date-time. -/
theorem ofText_eq_unreadable_iff : ofText raw = .error (.unreadable raw) ↔
    (signed? (Blank.trim raw.toList)).bind ofNanos? = none ∧
      nanos? (Blank.trim raw.toList) = none := by
  rw [ofText]
  cases (signed? (Blank.trim raw.toList)).bind ofNanos? with
  | some t => simp
  | none =>
      cases nanos? (Blank.trim raw.toList) with
      | none => simp
      | some m => cases hof : ofNanos? m <;> simp [hof]

/-- **Offsets** leave no trace: only the instant counts. -/
theorem toOption_ofText {x : DateTime} (hx : x.Written (Blank.trim raw.toList)) (hn : x.IsAt n) :
    (ofText raw).toOption = ofNanos? n := by
  have hnanos := nanos?_eq_some_iff.mpr ⟨x, hx, hn⟩
  rw [ofText, signed?_eq_none_of_nanos? hnanos, hnanos, Option.bind_none]
  cases hof : ofNanos? n <;> simp [hof, Except.toOption]

theorem signed?_bind_ofNanos?_eq_none_iff :
    (signed? cs).bind ofNanos? = none ↔ ∀ t : Timestamp, ¬ IsInteger cs t.nanos := by
  rw [Option.bind_eq_none_iff]
  constructor
  · intro h t ht
    have hnone := h _ (signed?_eq_some_iff.mpr ht)
    rw [ofNanos?_nanos] at hnone
    cases hnone
  · intro h n hn
    by_contra hsome
    obtain ⟨t, ht⟩ := Option.ne_none_iff_exists'.mp hsome
    rw [← ofNanos?_eq_some_iff.mp ht] at hn
    exact h t (signed?_eq_some_iff.mp hn)

/-- Every date-time denotes an instant, so only what writes none is not read. -/
theorem nanos?_eq_none_iff : nanos? cs = none ↔ ∀ x : DateTime, ¬ x.Written cs := by
  rw [Option.eq_none_iff_forall_not_mem]
  constructor
  · intro h x hx
    exact h _ (nanos?_eq_some_iff.mpr ⟨x, hx, _, Date.numbered_toDays x.inCalendar, rfl⟩)
  · intro h n hn
    obtain ⟨x, hx, -⟩ := nanos?_eq_some_iff.mp hn
    exact h x hx

/-- **Texts of instants.**  White space around it aside, a text is read as an instant just if it is
the whole number of its nanoseconds, or a date-time that denotes it exactly.  It is refused as out
of range just if it is a date-time whose instant lies before the first timestamp or behind the last,
and as unreadable just if it is no date-time and no whole number that a timestamp has.  So
date-times that denote one instant are read alike, whatever their offsets. -/
theorem ofText_exact (raw : String) :
    (∀ t, ofText raw = .ok t ↔ IsInteger (Blank.trim raw.toList) t.nanos ∨
      ∃ x : DateTime, x.Written (Blank.trim raw.toList) ∧ x.IsAt t.nanos) ∧
    (ofText raw = .error (.outOfRange raw) ↔
      ∃ (x : DateTime) (n : Int), x.Written (Blank.trim raw.toList) ∧ x.IsAt n ∧
        (n < min.nanos ∨ max.nanos < n)) ∧
    (ofText raw = .error (.unreadable raw) ↔
      (∀ t : Timestamp, ¬ IsInteger (Blank.trim raw.toList) t.nanos) ∧
        ∀ x : DateTime, ¬ x.Written (Blank.trim raw.toList)) ∧
    ∀ (raw' : String) (x x' : DateTime) (n : Int), x.Written (Blank.trim raw.toList) → x.IsAt n →
      x'.Written (Blank.trim raw'.toList) → x'.IsAt n →
        (ofText raw).toOption = (ofText raw').toOption := by
  refine ⟨fun t => ?_, ?_, ?_, ?_⟩
  · rw [ofText_eq_ok_iff, signed?_eq_some_iff, nanos?_eq_some_iff]
  · simp only [ofText_eq_outOfRange_iff, nanos?_eq_some_iff, ofNanos?_eq_none_iff]
    constructor
    · rintro ⟨n, ⟨x, hx, hn⟩, hout⟩
      exact ⟨x, n, hx, hn, hout⟩
    · rintro ⟨x, n, hx, hn, hout⟩
      exact ⟨n, ⟨x, hx, hn⟩, hout⟩
  · rw [ofText_eq_unreadable_iff, signed?_bind_ofNanos?_eq_none_iff, nanos?_eq_none_iff]
  · intro raw' x x' n hx hn hx' hn'
    rw [toOption_ofText hx hn, toOption_ofText hx' hn']

/-- The last second of 2016 was a leap second; it ended a year in Greenwich, and an evening farther
west.  The tenth digit of a fraction does not count. -/
theorem ofText_across_offsets :
    ∃ (x x' : DateTime) (n : Int),
      x.Written (Blank.trim " 2016-12-31t18:59:60.1234567899\u221205:00".toList) ∧ x.IsAt n ∧
      x'.Written (Blank.trim "2017-01-01 00:00:00.123456789Z".toList) ∧ x'.IsAt n ∧
      (ofText " 2016-12-31t18:59:60.1234567899\u221205:00").toOption =
        (ofText "2017-01-01 00:00:00.123456789Z").toOption := by
  let evening : DateTime :=
    { date := ⟨2016, 12, 31⟩
      time := ⟨18, 59, 60, 10, 1234567899, by decide, by decide, by decide, by decide⟩
      offset := .behind 5 0 (by decide) (by decide)
      inCalendar := ⟨by decide, by decide, by decide, by decide⟩
      year_bounds := by decide }
  let morning : DateTime :=
    { date := ⟨2017, 1, 1⟩
      time := ⟨0, 0, 0, 9, 123456789, by decide, by decide, by decide, by decide⟩
      offset := .utc
      inCalendar := ⟨by decide, by decide, by decide, by decide⟩
      year_bounds := by decide }
  have hevening :
      evening.Written (Blank.trim " 2016-12-31t18:59:60.1234567899\u221205:00".toList) :=
    ⟨'t', by decide, _, .minus, by decide +kernel⟩
  have hmorning : morning.Written (Blank.trim "2017-01-01 00:00:00.123456789Z".toList) :=
    ⟨' ', by decide, _, .upper, by decide +kernel⟩
  have hlate : evening.IsAt 1483228800123456789 :=
    ⟨17166, Date.numbered_iff.mpr ⟨evening.inCalendar, by decide +kernel⟩, by decide +kernel⟩
  have hearly : morning.IsAt 1483228800123456789 :=
    ⟨17167, Date.numbered_iff.mpr ⟨morning.inCalendar, by decide +kernel⟩, by decide +kernel⟩
  exact ⟨evening, morning, _, hevening, hlate, hmorning, hearly,
    (ofText_exact _).2.2.2 _ _ _ _ hevening hlate hmorning hearly⟩

end AccessWindows.Timestamp
