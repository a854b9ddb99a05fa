import AccessWindows.Proofs.Calendar.Counting
import AccessWindows.Proofs.Calendar.Rfc3339
import AccessWindows.Proofs.Numerals
import Mathlib.Data.List.TakeWhile

/-!
# RFC 3339 date-times — which texts are read

A date-time is a date of the years 0 to 9999, a time of day and an offset from UTC (`DateTime`).  It
may be written in several ways (`DateTime.Written`): with either letter or a space behind the date,
and with either letter for UTC or either minus sign before an offset.  The fraction may have any
number of digits.

The instant it denotes is counted from the number of its date, less its offset
(`DateTime.IsAt`).  Of the fraction whole nanoseconds count, and the second 60 is the first of the
next minute.

Reading finds each part again in front of what follows it, and accepts nothing that is not written
in this way.  So it yields just the instants of the date-times that a text writes
(`nanos?_eq_some_iff`).
-/

namespace AccessWindows.Calendar

open Decimal

variable {cs rest : List Char} {c : Char} {n width : Nat}

/-! ### Numerals and signs -/

/-- A numeral is found by its width, whatever follows. -/
theorem digits?_padded (hw : 0 < width) (h : n < 10 ^ width) (rest : List Char) :
    digits? width (padded width n ++ rest) = some (n, rest) := by
  have hlength := length_padded hw h
  have htake : (padded width n ++ rest).take width = padded width n :=
    List.take_left' hlength
  have hdrop : (padded width n ++ rest).drop width = rest := List.drop_left' hlength
  rw [digits?, if_pos (by rw [List.length_append]; omega), htake, hdrop, natural?_padded]
  rfl

theorem behind?_cons (c : Char) (rest : List Char) : behind? c (c :: rest) = some rest :=
  if_pos rfl

theorem digits?_eq_some_iff (hw : 0 < width) :
    digits? width cs = some (n, rest) ↔ n < 10 ^ width ∧ cs = padded width n ++ rest := by
  constructor
  · intro h
    obtain ⟨hlength, h⟩ := Option.ite_none_right_eq_some.mp h
    obtain ⟨m, hm, he⟩ := Option.map_eq_some_iff.mp h
    cases he
    obtain ⟨-, hlt, hpadded⟩ := eq_padded_of_natural? hm
    rw [List.length_take_of_le hlength] at hlt hpadded
    exact ⟨hlt, by rw [hpadded, List.take_append_drop]⟩
  · rintro ⟨hlt, rfl⟩
    exact digits?_padded hw hlt rest

theorem behind?_eq_some_iff : behind? c cs = some rest ↔ cs = c :: rest := by
  cases cs with
  | nil => simp [behind?]
  | cons d cs =>
      rw [behind?, Option.ite_none_right_eq_some, Option.some.injEq, List.cons.injEq,
        eq_comm (a := c)]

/-! ### Offsets -/

/-- A distance from UTC in hours and minutes. -/
inductive Offset where
  | utc
  | ahead (hours minutes : Nat) (hours_lt : hours < 24) (minutes_lt : minutes < 60)
  | behind (hours minutes : Nat) (hours_lt : hours < 24) (minutes_lt : minutes < 60)

namespace Offset

/-- The distance in seconds. -/
def seconds : Offset → Int
  | utc => 0
  | ahead hours minutes _ _ => 3600 * hours + 60 * minutes
  | behind hours minutes _ _ => -(3600 * hours + 60 * minutes)

/-- The hours and minutes of an offset. -/
def digits (hours minutes : Nat) : List Char := padded 2 hours ++ ':' :: padded 2 minutes

/-- The text writes the offset. -/
inductive Written : Offset → List Char → Prop
  | upper : Written utc ['Z']
  | lower : Written utc ['z']
  | plus {hours minutes : Nat} {hh : hours < 24} {hm : minutes < 60} :
      Written (ahead hours minutes hh hm) ('+' :: digits hours minutes)
  | hyphen {hours minutes : Nat} {hh : hours < 24} {hm : minutes < 60} :
      Written (behind hours minutes hh hm) ('-' :: digits hours minutes)
  | minus {hours minutes : Nat} {hh : hours < 24} {hm : minutes < 60} :
      Written (behind hours minutes hh hm) ('\u2212' :: digits hours minutes)

end Offset

theorem hoursMinutes?_eq_some_iff {seconds : Int} :
    hoursMinutes? cs = some seconds ↔ ∃ hours minutes, hours < 24 ∧ minutes < 60 ∧
      cs = Offset.digits hours minutes ∧ (3600 * hours + 60 * minutes : Int) = seconds := by
  simp only [hoursMinutes?, Option.bind_eq_bind, Option.bind_eq_some_iff, Prod.exists,
    digits?_eq_some_iff (by decide : 0 < 2), behind?_eq_some_iff, Option.ite_none_right_eq_some,
    Option.some.injEq, Offset.digits]
  constructor
  · rintro ⟨hours, _, ⟨-, rfl⟩, _, rfl, minutes, _, ⟨-, rfl⟩, ⟨hh, hm, rfl⟩, rfl⟩
    exact ⟨hours, minutes, hh, hm, by rw [List.append_nil], rfl⟩
  · rintro ⟨hours, minutes, hh, hm, rfl, rfl⟩
    exact ⟨hours, _, ⟨by omega, rfl⟩, _, rfl, minutes, [], ⟨by omega, by rw [List.append_nil]⟩,
      ⟨hh, hm, rfl⟩, rfl⟩

/-- **Offsets** are read from the texts that write them. -/
theorem offset?_eq_some_iff {seconds : Int} :
    offset? cs = some seconds ↔ ∃ z : Offset, z.Written cs ∧ z.seconds = seconds := by
  constructor
  · intro h
    rw [offset?.eq_def] at h
    split at h
    next => cases h; exact ⟨_, .upper, rfl⟩
    next => cases h; exact ⟨_, .lower, rfl⟩
    next =>
        obtain ⟨hours, minutes, hh, hm, rfl, rfl⟩ := hoursMinutes?_eq_some_iff.mp h
        exact ⟨.ahead hours minutes hh hm, .plus, rfl⟩
    next =>
        obtain ⟨_, hread, rfl⟩ := Option.map_eq_some_iff.mp h
        obtain ⟨hours, minutes, hh, hm, rfl, rfl⟩ := hoursMinutes?_eq_some_iff.mp hread
        exact ⟨.behind hours minutes hh hm, .hyphen, rfl⟩
    next =>
        obtain ⟨_, hread, rfl⟩ := Option.map_eq_some_iff.mp h
        obtain ⟨hours, minutes, hh, hm, rfl, rfl⟩ := hoursMinutes?_eq_some_iff.mp hread
        exact ⟨.behind hours minutes hh hm, .minus, rfl⟩
    next => cases h
  · rintro ⟨z, hz, rfl⟩
    have hread : ∀ {hours minutes : Nat}, hours < 24 → minutes < 60 →
        hoursMinutes? (Offset.digits hours minutes) = some (3600 * hours + 60 * minutes : Int) :=
      fun hh hm => hoursMinutes?_eq_some_iff.mpr ⟨_, _, hh, hm, rfl, rfl⟩
    cases hz with
    | upper => rfl
    | lower => rfl
    | @plus hours minutes hh hm => exact hread hh hm
    | @hyphen hours minutes hh hm => exact congrArg (Option.map _) (hread hh hm)
    | @minus hours minutes hh hm => exact congrArg (Option.map _) (hread hh hm)

/-- An offset begins with a sign of its own, neither a digit nor a point. -/
theorem Offset.Written.head {z : Offset} (h : z.Written cs) (hc : cs.head? = some c) :
    digitValue? c = none ∧ c ≠ '.' := by
  cases h <;> (cases hc; decide)

/-! ### Times of day -/

/-- A time of day, whose fraction of a second has the given value at the given number of places. -/
structure TimeOfDay where
  hour : Nat
  minute : Nat
  second : Nat
  places : Nat
  fraction : Nat
  hour_lt : hour < 24
  minute_lt : minute < 60
  second_le : second ≤ 60
  fraction_lt : fraction < 10 ^ places

/-- The text of a fraction; without places there is none. -/
def fractionText (places fraction : Nat) : List Char :=
  if places = 0 then [] else '.' :: padded places fraction

namespace TimeOfDay

/-- The nanoseconds since midnight, those that are whole. -/
def nanos (t : TimeOfDay) : Nat :=
  (3600 * t.hour + 60 * t.minute + t.second) * 10 ^ 9 + t.fraction * 10 ^ 9 / 10 ^ t.places

def text (t : TimeOfDay) : List Char :=
  padded 2 t.hour ++ ':' :: (padded 2 t.minute ++ ':' :: (padded 2 t.second ++
    fractionText t.places t.fraction))

end TimeOfDay

/-- What follows a fraction does not continue it. -/
def EndsFraction (places : Nat) (rest : List Char) : Prop :=
  ∀ c, rest.head? = some c → digitValue? c = none ∧ (places = 0 → c ≠ '.')

/-- Nine places of a fraction count its whole nanoseconds. -/
theorem natural?_nine {places fraction : Nat} (hpos : 0 < places) (h : fraction < 10 ^ places) :
    natural? ((padded places fraction ++ List.replicate 9 '0').take 9) =
      some (fraction * 10 ^ 9 / 10 ^ places) := by
  have hshift : fraction * 10 ^ 9 < 10 ^ (9 + places) := by
    rw [Nat.pow_add, Nat.mul_comm]
    exact Nat.mul_lt_mul_of_pos_left h (by decide)
  rw [padded_append_zeros hpos, Nat.add_comm places, take_padded (by decide) hshift,
    natural?_padded]

/-- **Fractions** of any length are read as whole nanoseconds. -/
theorem fraction?_fractionText {places fraction : Nat} (h : fraction < 10 ^ places)
    (hrest : EndsFraction places rest) :
    fraction? (fractionText places fraction ++ rest) =
      some (fraction * 10 ^ 9 / 10 ^ places, rest) := by
  rw [fractionText]
  split
  next hplaces =>
      subst hplaces
      obtain rfl : fraction = 0 := Nat.lt_one_iff.mp h
      rw [List.nil_append, fraction?.eq_2]
      · rfl
      · rintro cs rfl
        exact (hrest '.' rfl).2 rfl rfl
  next hplaces =>
      have hpos : 0 < places := Nat.pos_of_ne_zero hplaces
      have hdigits : ∀ d ∈ padded places fraction, (digitValue? d).isSome = true := fun d hd => by
        obtain ⟨k, hk, rfl⟩ := isDigit_of_mem_padded hd
        rw [digitValue?_digitChar hk]
        rfl
      have hstop : rest.takeWhile (fun d => (digitValue? d).isSome) = [] := by
        cases rest with
        | nil => rfl
        | cons c rest => exact List.takeWhile_cons_of_neg (by simp [(hrest c rfl).1])
      have htake : (padded places fraction ++ rest).takeWhile (fun d => (digitValue? d).isSome) =
          padded places fraction := by
        rw [List.takeWhile_append_of_pos hdigits, hstop, List.append_nil]
      rw [List.cons_append, fraction?, htake]
      split
      next heq => exact absurd heq (padded_ne_nil places fraction)
      next =>
          rw [natural?_nine hpos h, length_padded hpos h, List.drop_left' (length_padded hpos h)]
          rfl

theorem exists_of_fraction? (h : fraction? cs = some (n, rest)) :
    ∃ places fraction, fraction < 10 ^ places ∧ cs = fractionText places fraction ++ rest ∧
      fraction * 10 ^ 9 / 10 ^ places = n := by
  rw [fraction?.eq_def] at h
  split at h
  next cs =>
      split at h
      next => cases h
      next hne =>
          have hdigits : ∀ c ∈ cs.takeWhile fun c => (digitValue? c).isSome,
              (digitValue? c).isSome = true := fun c hc => by simpa using List.mem_takeWhile_imp hc
          obtain ⟨fraction, hfraction⟩ := exists_natural? hne hdigits
          obtain ⟨hpos, hlt, hpadded⟩ := eq_padded_of_natural? hfraction
          rw [← hpadded, natural?_nine hpos hlt, hpadded] at h
          cases h
          refine ⟨_, fraction, hlt, ?_, rfl⟩
          rw [fractionText, if_neg (Nat.ne_of_gt hpos), hpadded, List.cons_append]
          exact congrArg _ (List.prefix_iff_eq_append.mp (List.takeWhile_prefix _)).symm
  next =>
      cases h
      exact ⟨0, 0, Nat.one_pos, rfl, rfl⟩

theorem TimeOfDay.nanos_eq (t : TimeOfDay) : t.nanos =
    (3600 * t.hour + 60 * t.minute + t.second) * 1000000000 +
      t.fraction * 10 ^ 9 / 10 ^ t.places := rfl

/-- **Times of day** are found again, in front of what does not continue a fraction. -/
theorem time?_text (t : TimeOfDay) (hrest : EndsFraction t.places rest) :
    time? (t.text ++ rest) = some (t.nanos, rest) := by
  have hhour : t.hour < 10 ^ 2 := Nat.lt_trans t.hour_lt (by decide)
  have hminute : t.minute < 10 ^ 2 := Nat.lt_trans t.minute_lt (by decide)
  have hsecond : t.second < 10 ^ 2 := Nat.lt_of_le_of_lt t.second_le (by decide)
  have hvalid : t.hour < 24 ∧ t.minute < 60 ∧ t.second ≤ 60 := ⟨t.hour_lt, t.minute_lt, t.second_le⟩
  simp only [TimeOfDay.text, List.append_assoc, List.cons_append, time?,
    digits?_padded (by decide : 0 < 2) hhour, digits?_padded (by decide : 0 < 2) hminute,
    digits?_padded (by decide : 0 < 2) hsecond, behind?_cons,
    fraction?_fractionText t.fraction_lt hrest, Option.bind_eq_bind, Option.bind_some, hvalid,
    and_self, if_true, t.nanos_eq]

theorem exists_of_time? (h : time? cs = some (n, rest)) :
    ∃ t : TimeOfDay, cs = t.text ++ rest ∧ t.nanos = n := by
  simp only [time?, Option.bind_eq_bind, Option.bind_eq_some_iff, Prod.exists,
    digits?_eq_some_iff (by decide : 0 < 2), behind?_eq_some_iff, Option.ite_none_right_eq_some,
    Option.some.injEq, Prod.mk.injEq] at h
  obtain ⟨hour, _, ⟨-, rfl⟩, _, rfl, minute, _, ⟨-, rfl⟩, _, rfl, second, _, ⟨-, rfl⟩, f, _, hf,
    ⟨hhour, hminute, hsecond⟩, rfl, rfl⟩ := h
  obtain ⟨places, fraction, hlt, rfl, rfl⟩ := exists_of_fraction? hf
  refine ⟨⟨hour, minute, second, places, fraction, hhour, hminute, hsecond, hlt⟩, ?_, rfl⟩
  simp only [TimeOfDay.text, List.append_assoc, List.cons_append]

/-! ### Dates -/

/-- The text of a date, for years of four digits. -/
def dateText (d : Date) : List Char :=
  padded 4 d.year.toNat ++ '-' :: (padded 2 d.month ++ '-' :: padded 2 d.day)

/-- **Dates** of four-digit years are found again, and are what is found. -/
theorem date?_eq_some_iff {d : Date} : date? cs = some (d, rest) ↔
    d.InCalendar ∧ (0 ≤ d.year ∧ d.year < 10000) ∧ cs = dateText d ++ rest := by
  constructor
  · intro h
    simp only [date?, Option.bind_eq_bind, Option.bind_eq_some_iff, Prod.exists,
      digits?_eq_some_iff (by decide : 0 < 2), digits?_eq_some_iff (by decide : 0 < 4),
      behind?_eq_some_iff, Option.ite_none_right_eq_some, Option.some.injEq, Prod.mk.injEq] at h
    obtain ⟨year, _, ⟨hyear, rfl⟩, _, rfl, month, _, ⟨-, rfl⟩, _, rfl, day, _, ⟨-, rfl⟩, hvalid,
      rfl, rfl⟩ := h
    refine ⟨Date.isValid_iff.mp hvalid, ⟨Int.natCast_nonneg year, Int.ofNat_lt.mpr hyear⟩, ?_⟩
    simp only [dateText, Int.toNat_natCast, List.append_assoc, List.cons_append]
  · rintro ⟨hd, hyear, rfl⟩
    have hday : d.day ≤ 31 := Nat.le_trans hd.day_le (daysIn_le d.year d.month)
    have hmonth' : d.month < 10 ^ 2 := Nat.lt_of_le_of_lt hd.month_le (by decide)
    have hday' : d.day < 10 ^ 2 := Nat.lt_of_le_of_lt hday (by decide)
    have hyear' : d.year.toNat < 10 ^ 4 := by omega
    have hback : (d.year.toNat : Int) = d.year := Int.toNat_of_nonneg hyear.1
    simp only [dateText, List.append_assoc, List.cons_append, date?,
      digits?_padded (by decide : 0 < 4) hyear', digits?_padded (by decide : 0 < 2) hmonth',
      digits?_padded (by decide : 0 < 2) hday', behind?_cons, hback, Option.bind_eq_bind,
      Option.bind_some, Date.isValid_iff.mpr hd, if_true]

theorem separator?_eq_some_iff :
    separator? cs = some rest ↔ ∃ sign ∈ ['T', 't', ' '], cs = sign :: rest := by
  rw [separator?.eq_def]
  split
  next => simp
  next => simp
  next => simp
  next hupper hlower hblank =>
      simp only [List.mem_cons, List.not_mem_nil, or_false, reduceCtorEq, false_iff]
      rintro ⟨sign, rfl | rfl | rfl, rfl⟩
      · exact hupper _ rfl
      · exact hlower _ rfl
      · exact hblank _ rfl

/-! ### Date-times -/

/-- A date of a year of four digits, a time of day, and how far they are from UTC. -/
structure DateTime where
  date : Date
  time : TimeOfDay
  offset : Offset
  inCalendar : date.InCalendar
  year_bounds : 0 ≤ date.year ∧ date.year < 10000

namespace DateTime

/-- The text writes the date-time. -/
def Written (x : DateTime) (cs : List Char) : Prop :=
  ∃ sign ∈ ['T', 't', ' '], ∃ zone, x.offset.Written zone ∧
    cs = dateText x.date ++ sign :: (x.time.text ++ zone)

/-- The date-time denotes the instant so many nanoseconds after the start of 1970. -/
def IsAt (x : DateTime) (n : Int) : Prop :=
  ∃ day, x.date.Numbered day ∧ n = (86400 * day - x.offset.seconds) * 10 ^ 9 + x.time.nanos

end DateTime

/-- **Date-times** are read from the texts that write them, and from no others, as the instants that
they denote. -/
theorem nanos?_eq_some_iff {n : Int} :
    nanos? cs = some n ↔ ∃ x : DateTime, x.Written cs ∧ x.IsAt n := by
  constructor
  · -- each part that was found is one that the text writes, in front of the next
    intro h
    simp only [nanos?, Option.bind_eq_bind, Option.bind_eq_some_iff, Prod.exists,
      date?_eq_some_iff, separator?_eq_some_iff, offset?_eq_some_iff] at h
    obtain ⟨date, _, ⟨hdate, hyear, rfl⟩, _, ⟨sign, hsign, rfl⟩, _, zone, htime, _,
      ⟨offset, hzone, rfl⟩, he⟩ := h
    obtain ⟨time, rfl, rfl⟩ := exists_of_time? htime
    cases he
    exact ⟨⟨date, time, offset, hdate, hyear⟩, ⟨sign, hsign, zone, hzone, rfl⟩, _,
      Date.numbered_toDays hdate, rfl⟩
  · rintro ⟨x, ⟨sign, hsign, zone, hzone, rfl⟩, day, hday, rfl⟩
    have hrest : EndsFraction x.time.places zone := fun c hc =>
      (hzone.head hc).imp_right fun h _ => h
    have hdate := date?_eq_some_iff.mpr ⟨x.inCalendar, x.year_bounds,
      (rfl : _ = dateText x.date ++ sign :: (x.time.text ++ zone))⟩
    have hseparator := separator?_eq_some_iff.mpr ⟨sign, hsign,
      (rfl : _ = sign :: (x.time.text ++ zone))⟩
    have hoffset := offset?_eq_some_iff.mpr ⟨x.offset, hzone, rfl⟩
    rw [(Date.numbered_iff.mp hday).2]
    simp only [nanos?, hdate, hseparator, time?_text x.time hrest, hoffset, Option.bind_eq_bind,
      Option.bind_some]
    rfl

/-! ### Date-times that are written -/

/-- The date-time that is written for an instant. -/
def DateTime.ofTimestamp (t : Timestamp) : DateTime where
  date := Date.ofDays (dayOf t)
  time :=
    { hour := secondOf t / 3600
      minute := secondOf t / 60 % 60
      second := secondOf t % 60
      places := 9
      fraction := fractionOf t
      hour_lt := by have := secondOf_lt t; omega
      minute_lt := Nat.mod_lt _ (by decide)
      second_le := Nat.le_of_lt (Nat.mod_lt _ (by decide))
      fraction_lt := fractionOf_lt t }
  offset := .utc
  inCalendar := Date.isValid_iff.mp (Date.isValid_ofDays _)
  year_bounds := by have := Calendar.year_bounds t; omega

theorem DateTime.written_ofTimestamp (t : Timestamp) :
    (ofTimestamp t).Written (render t).toList := by
  refine ⟨'T', List.mem_cons_self, _, .upper, ?_⟩
  have hnil : spelled [] [] = [] := rfl
  have hfraction : fractionText 9 (fractionOf t) = '.' :: padded 9 (fractionOf t) := rfl
  rw [toList_render]
  simp only [layout, numbers, spelled_cons, hnil, ofTimestamp, dateText, TimeOfDay.text, hfraction,
    List.append_assoc, List.cons_append]

theorem DateTime.isAt_ofTimestamp (t : Timestamp) : (ofTimestamp t).IsAt t.nanos := by
  refine ⟨_, Date.numbered_toDays (ofTimestamp t).inCalendar, ?_⟩
  have hparts := nanos_eq t
  simp only [ofTimestamp, Date.toDays_ofDays, Offset.seconds, TimeOfDay.nanos]
  omega

/-- **A date-time is read back** as the count of nanoseconds that it was written for, negative
counts included, since the fraction counts from the second before. -/
theorem nanos?_render (t : Timestamp) : nanos? (render t).toList = some t.nanos :=
  nanos?_eq_some_iff.mpr
    ⟨.ofTimestamp t, DateTime.written_ofTimestamp t, DateTime.isAt_ofTimestamp t⟩

end AccessWindows.Calendar
