import AccessWindows.Credential
import AccessWindows.Rejection

/-!
# Reports

What resolution made of the candidates of a request: the chains that hold up, and how many did not,
by cause.  A report is a function of the outcomes alone, and each outcome counts once.
-/

namespace AccessWindows

/-- How many chains there were, and what became of them. -/
structure Report where
  /-- Candidates that were discovered. -/
  candidates : Nat
  /-- Candidates that hold up. -/
  resolved : Nat
  /-- Candidates that do not, by cause, in the order of causes; no cause has the count zero. -/
  rejected : List (Rejection × Nat)
  deriving DecidableEq

/-- Candidates that do not hold up. -/
def Report.rejectedTotal (r : Report) : Nat := (r.rejected.map Prod.snd).foldr (· + ·) 0

/-- The chains that hold up, and a report of all. -/
structure Resolution where
  chains : List ResolvedChain
  report : Report

namespace Resolution

/-- The cause of an outcome that is a rejection. -/
def cause? : Except Rejection ResolvedChain → Option Rejection
  | .error cause => some cause
  | .ok _ => none

/-- How often each cause occurs, of those that do. -/
def tally (causes : List Rejection) : List (Rejection × Nat) :=
  Rejection.all.filterMap fun cause =>
    if causes.contains cause then some (cause, causes.count cause) else none

/-- Collects what became of the candidates. -/
def ofOutcomes (outcomes : List (Except Rejection ResolvedChain)) : Resolution :=
  let chains := outcomes.filterMap Except.toOption
  { chains
    report := {
      candidates := outcomes.length
      resolved := chains.length
      rejected := tally (outcomes.filterMap cause?) } }

end Resolution

end AccessWindows
