import AccessWindows.Collaborators

/-!
# Inquiries

Questions that are put together.  All of them are started at one moment, in the order of their keys,
and each ends at a time of its own: when the answer comes, or at a deadline.  What an answer is for
is done when its question ends; the first question that ends without one decides, and what has not
ended by then is given up.

A question that fails at the very moment it is started keeps the rest from being started.  Of
questions that end at one time, that of the key in front counts as the first.
-/

namespace AccessWindows

/-- The end of a question. -/
structure Ended (κ ε α : Type) where
  /-- How many milliseconds after the start it came. -/
  time : Nat
  /-- What was asked for. -/
  key : κ
  result : Except ε α

namespace Ended

variable {κ ε α : Type}

/-- The question failed at the very moment it was started. -/
def failsAtOnce (e : Ended κ ε α) : Bool := e.time == 0 && !e.result.isOk

/-- The ends in the order of time; those of one time keep their order. -/
def inTime (ends : List (Ended κ ε α)) : List (Ended κ ε α) :=
  ends.mergeSort fun a b => a.time ≤ b.time

end Ended

variable {m : Type → Type} [Monad m] {ι κ ε α β : Type}

/-- Starts a question for each of these. -/
def startAll (ask : ι → m (Ended κ ε α)) : List ι → m (List (Ended κ ε α))
  | [] => return []
  | i :: rest => do
    let ended ← ask i
    if ended.failsAtOnce then return [ended]
    let others ← startAll ask rest
    return ended :: others

/-- Goes on with the answers of these ends, one after the other, up to the first that has none.
What comes of them stands in the order in which they came. -/
def finishAll (next : κ → α → m β) : List (Ended κ ε α) → m (Except ε (List (κ × β)))
  | [] => return .ok []
  | ended :: rest => do
    match ended.result with
    | .error cause => return .error cause
    | .ok answer =>
      let out ← next ended.key answer
      let others ← finishAll next rest
      return others.map fun outs => (ended.key, out) :: outs

/-- Puts a question for each of the keys, all together, and goes on with each answer. -/
def askAll (ask : ι → m (Ended κ ε α)) (next : κ → α → m β) (keys : List ι) :
    m (Except ε (List (κ × β))) := do
  let ends ← startAll ask keys
  finishAll next (Ended.inTime ends)

end AccessWindows
