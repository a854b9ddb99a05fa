/-!
# Bisection

`bisect p xs` is the place where a partitioned array changes sides: when the elements satisfying
`p` come first, it is their number.  Each round looks at the element in the middle of the part
that is still open and halves that part.
-/

namespace AccessWindows

/-- The boundary of `p` among the elements from `lo` up to, and not including, `hi`. -/
def bisectBetween {α : Type} (p : α → Bool) (xs : Array α) (lo hi : Nat) : Nat :=
  if h : lo < hi then
    let mid := lo + (hi - lo) / 2
    if xs[mid]?.any p then bisectBetween p xs (mid + 1) hi else bisectBetween p xs lo mid
  else lo
termination_by hi - lo

/-- The boundary of `p` in an array whose elements satisfying `p` come first. -/
def bisect {α : Type} (p : α → Bool) (xs : Array α) : Nat := bisectBetween p xs 0 xs.size

end AccessWindows
