import AccessWindows.Text.Decimal

/-!
# Timestamps

An instant is a signed count of nanoseconds since 1970-01-01T00:00:00Z that fits in sixty-four
bits: `Timestamp.min` is in September 1677 and `Timestamp.max` in April 2262.  The bounds are part
of the type, so that an instant beyond them cannot be formed: `ofNanos?` refuses it, `clamp` takes
the nearest instant there is, and the instant `next?` to the last one does not exist.
-/

namespace AccessWindows

/-- A count of nanoseconds since the start of 1970, within sixty-four bits. -/
structure Timestamp where
  nanos : Int
  min_le : -9223372036854775808 ≤ nanos
  le_max : nanos ≤ 9223372036854775807
  deriving DecidableEq

namespace Timestamp

/-- The first instant. -/
def min : Timestamp := ⟨-9223372036854775808, by decide, by decide⟩

/-- The last instant. -/
def max : Timestamp := ⟨9223372036854775807, by decide, by decide⟩

instance : Inhabited Timestamp := ⟨⟨0, by decide, by decide⟩⟩

/-- The instant `n` nanoseconds after the start of 1970, if there is one. -/
def ofNanos? (n : Int) : Option Timestamp :=
  if h : -9223372036854775808 ≤ n ∧ n ≤ 9223372036854775807 then some ⟨n, h.1, h.2⟩ else none

/-- The instant nearest to `n` nanoseconds after the start of 1970. -/
def clamp (n : Int) : Timestamp :=
  if n < -9223372036854775808 then min else (ofNanos? n).getD max

/-- The instant `n` seconds after the start of 1970, or the nearest one there is. -/
def ofSeconds (n : Int) : Timestamp := clamp (n * 1000000000)

instance : LE Timestamp := ⟨fun a b => a.nanos ≤ b.nanos⟩
instance : LT Timestamp := ⟨fun a b => a.nanos < b.nanos⟩
instance (a b : Timestamp) : Decidable (a ≤ b) := inferInstanceAs (Decidable (a.nanos ≤ b.nanos))
instance (a b : Timestamp) : Decidable (a < b) := inferInstanceAs (Decidable (a.nanos < b.nanos))

theorem le_def {a b : Timestamp} : a ≤ b ↔ a.nanos ≤ b.nanos := Iff.rfl

theorem lt_def {a b : Timestamp} : a < b ↔ a.nanos < b.nanos := Iff.rfl

/-- The instant one nanosecond later; the last instant has none. -/
def next? (t : Timestamp) : Option Timestamp := ofNanos? (t.nanos + 1)

/-- The earlier of two instants. -/
def earlier (a b : Timestamp) : Timestamp := if b < a then b else a

/-- The later of two instants. -/
def later (a b : Timestamp) : Timestamp := if a < b then b else a

/-- The decimal count of nanoseconds. -/
def text (t : Timestamp) : String := Decimal.integerText t.nanos

theorem ext_nanos {a b : Timestamp} (h : a.nanos = b.nanos) : a = b := by
  cases a; cases b; cases h; rfl

theorem ofNanos?_nanos (t : Timestamp) : ofNanos? t.nanos = some t := by
  unfold ofNanos?
  rw [dif_pos ⟨t.min_le, t.le_max⟩]

theorem nanos_of_ofNanos? {n : Int} {t : Timestamp} (h : ofNanos? n = some t) : t.nanos = n := by
  unfold ofNanos? at h
  split at h
  · cases h; rfl
  · cases h

/-- There is an instant at `n` exactly when `n` is within the bounds. -/
theorem ofNanos?_eq_none_iff {n : Int} :
    ofNanos? n = none ↔ n < -9223372036854775808 ∨ 9223372036854775807 < n := by
  unfold ofNanos?
  split
  · simp; omega
  · simp; omega

end Timestamp

end AccessWindows
