/-!
# Binary64 numbers

A double-precision number as its sixty-four bits: a sign, eleven bits of exponent and fifty-two of
fraction.  `round` finds the magnitude nearest to a ratio of two natural numbers, a tie going to
the even one; products and quotients are the exact ones, rounded once.  Everything is arithmetic
on natural numbers, so that a NaN keeps its payload, and what rounding does can be said exactly.
-/

namespace AccessWindows

/-- A double-precision number, by its bits. -/
structure Binary64 where
  bits : UInt64
  deriving DecidableEq

namespace Binary64

/-- The pattern of infinity, above the patterns of all finite magnitudes. -/
def infinity : Nat := 0x7ff0000000000000

/-- The sign, as a number: `2 ^ 63`. -/
def signUnit : Nat := 0x8000000000000000

/-- The least exponent, as a number, and the least full significand: `2 ^ 52`. -/
def fractionUnit : Nat := 0x10000000000000

/-- The bits below the sign. -/
def magnitude (x : Binary64) : Nat := x.bits.toNat % signUnit

/-- The sign bit is set. -/
def negative (x : Binary64) : Bool := signUnit ≤ x.bits.toNat

def isFinite (x : Binary64) : Bool := x.magnitude < infinity

/-- The number of that sign and magnitude. -/
def ofMagnitude (negative : Bool) (magnitude : Nat) : Binary64 :=
  ⟨(if negative then signUnit + magnitude else magnitude).toUInt64⟩

/-- A finite magnitude is `(parts).1 * 2 ^ (parts).2`. -/
def parts (magnitude : Nat) : Nat × Int :=
  if magnitude < fractionUnit then (magnitude, -1074)
  else (fractionUnit + magnitude % fractionUnit, (magnitude / fractionUnit : Nat) - 1075)

/-- A finite magnitude as a ratio. -/
def ratio (magnitude : Nat) : Nat × Nat :=
  let (m, e) := parts magnitude
  if 0 ≤ e then (m * Nat.pow 2 e.toNat, 1) else (m, Nat.pow 2 (-e).toNat)

/-- The quotient of two natural numbers, rounded to the nearest, a tie to the even one. -/
def divideNearest (num den : Nat) : Nat :=
  let q := num / den
  let r := num % den
  if 2 * r < den then q else if den < 2 * r then q + 1 else q + q % 2

/-- The magnitude nearest to `num / den`, or infinity past the largest finite one. -/
def round (num den : Nat) : Nat :=
  if num = 0 then 0 else
    let quotient (e : Int) : Nat × Nat :=
      if 0 ≤ e then (num, den * Nat.pow 2 e.toNat) else (num * Nat.pow 2 (-e).toNat, den)
    let low : Int := max (num.log2 - den.log2 - 53) (-1074)
    let (n, d) := quotient low
    let e := if n / d < 2 * fractionUnit then low else low + 1
    let (n, d) := quotient e
    let m := divideNearest n d
    min infinity
      (if m < fractionUnit then m else (e + 1075).toNat * fractionUnit + m - fractionUnit)

/-- The magnitude nearest to the product of two finite magnitudes. -/
def multiply (a b : Nat) : Nat :=
  round ((ratio a).1 * (ratio b).1) ((ratio a).2 * (ratio b).2)

/-- The magnitude nearest to the quotient of two finite magnitudes. -/
def divide (a b : Nat) : Nat :=
  round ((ratio a).1 * (ratio b).2) ((ratio a).2 * (ratio b).1)

/-- The number nearest to a whole number. -/
def ofInt (n : Int) : Binary64 := ofMagnitude (n < 0) (round n.natAbs 1)

/-- The magnitude nearest to `m * 10 ^ exponent`, or infinity past the largest finite one.

Beyond the 308th power there is nothing finite but zero.  Far below, where the quotient is less
than half of the least magnitude, there is nothing but zero at all. -/
def ofDecimal (m : Nat) (exponent : Int) : Nat :=
  if m = 0 then 0
  else if 308 < exponent then infinity
  else if 0 ≤ exponent then round (m * Nat.pow 10 exponent.toNat) 1
  else if exponent < -(m.log2 + 1100 : Nat) then 0
  else round m (Nat.pow 10 (-exponent).toNat)

/-- The power of ten nearest to `10 ^ k`. -/
def powerOfTen (k : Nat) : Nat := round (Nat.pow 10 k) 1

/-- The magnitude `m` scaled by a power of ten, if the result is finite.

Powers up to the 308th are applied in one rounded step.  Below that, the number is divided by the
308th power as often as needed, which ends at the latest when nothing is left of it. -/
def scale? (m : Nat) (exponent : Int) : Option Nat :=
  if m = 0 then some 0
  else if 308 < exponent then none
  else if 0 ≤ exponent then
    let scaled := multiply m (powerOfTen exponent.toNat)
    if scaled < infinity then some scaled else none
  else if h : exponent < -308 then scale? (divide m (powerOfTen 308)) (exponent + 308)
  else some (divide m (powerOfTen (-exponent).toNat))
termination_by exponent.natAbs
decreasing_by omega

end Binary64

end AccessWindows
