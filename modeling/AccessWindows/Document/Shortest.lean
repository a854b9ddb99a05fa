import AccessWindows.Document.Binary64
import AccessWindows.Text.Decimal

/-!
# Shortest decimals

The decimal written for a binary64 number has the fewest digits that read back as that number; of
several with so few digits it is the nearest one, and the even one of two equally near.

The decimals that read back are those in an interval around the number: half-way to each
neighbour, the ends included exactly when its significand is even.  On a grid of powers of ten the
only candidates are the two points next to the number, so it is enough to try the grids from
coarse to fine and to stop at the first hit.

The layout is positional from `0.00001` up to, and not including, `10000000000000000`, and has an
exponent with its sign elsewhere.  A positional numeral always has a fraction.
-/

namespace AccessWindows.Shortest

open Binary64

/-- The point next to the number `m * 2 ^ e` on the grid of multiples of `10 ^ k` that reads back
as this number, if there is one.  All lengths are counted in quarters of `2 ^ e`. -/
def onGrid? (m : Nat) (e k : Int) : Option Nat :=
  let unit := Nat.pow 2 (e - 2).toNat * Nat.pow 10 (-k).toNat
  let grid := Nat.pow 2 (2 - e).toNat * Nat.pow 10 k.toNat
  let low := if m = fractionUnit ∧ -1074 < e then 4 * m - 1 else 4 * m - 2
  let high := 4 * m + 2
  let readsBack (c : Nat) : Bool :=
    if m % 2 = 0 then low * unit ≤ c * grid && c * grid ≤ high * unit
    else low * unit < c * grid && c * grid < high * unit
  let below := 4 * m * unit / grid
  let nearest := divideNearest (4 * m * unit) grid
  if readsBack nearest then some nearest
  else if readsBack below then some below
  else if readsBack (below + 1) then some (below + 1)
  else none

/-- The first hit among the grids from `10 ^ k` down. -/
def search (m : Nat) (e k : Int) : Nat → Nat × Int
  | 0 => (0, k)
  | rounds + 1 =>
    match onGrid? m e k with
    | some d => (d, k)
    | none => search m e (k - 1) rounds

/-- The shortest decimal `d * 10 ^ k` of a finite magnitude above zero, as `(d, k)`.

The first grid is coarser than the number, and seventeen digits always suffice. -/
def decimal (magnitude : Nat) : Nat × Int :=
  let (m, e) := parts magnitude
  search m e ((m.log2 + e + 1) * 30103 / 100000 + 1) 24

/-- The layout of the decimal with these digits, the point standing `point` places behind the
start of the first one. -/
def layout (ds : List Char) (point : Int) : List Char :=
  if 0 < point ∧ point ≤ 16 then
    let whole := ds.take point.toNat ++ List.replicate (point.toNat - ds.length) '0'
    let fraction := ds.drop point.toNat
    whole ++ '.' :: (if fraction.isEmpty then ['0'] else fraction)
  else if -5 < point ∧ point ≤ 0 then
    '0' :: '.' :: List.replicate (-point).toNat '0' ++ ds
  else
    let exponent := point - 1
    let sign := if exponent < 0 then '-' else '+'
    let power := 'e' :: sign :: Decimal.digits exponent.natAbs
    match ds with
    | [] => power
    | [d] => d :: power
    | d :: rest => d :: '.' :: rest ++ power

/-- The text of a finite number. -/
def text (x : Binary64) : List Char :=
  let sign := if x.negative then ['-'] else []
  if x.magnitude = 0 then sign ++ ['0', '.', '0']
  else
    let (d, k) := decimal x.magnitude
    let ds := Decimal.digits d
    sign ++ layout (ds.reverse.dropWhile (· == '0')).reverse (ds.length + k)

end AccessWindows.Shortest
