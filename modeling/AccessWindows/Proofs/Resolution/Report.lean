import AccessWindows.Proofs.Window
import AccessWindows.Resolution.Report
import Mathlib.Algebra.BigOperators.Group.List.Lemmas
import Mathlib.Algebra.GroupWithZero.Nat
import Mathlib.Data.List.ReduceOption

/-!
# Reports — every candidate counts once

A tally lists each cause that occurs with the number of times it does, so its counts add up to the
number of causes (`rejectedTotal_ofOutcomes`), and with the chains that hold up to the number of
candidates (`resolved_add_rejectedTotal`).

What the outcomes come to, causes aside, does not depend on their order (`Agree`): two lists of
outcomes that contain the same chains, each as often, and as many rejections, give the same valid
ranges and the same numbers (`agree_of_perm`).
-/

namespace AccessWindows

theorem Rejection.nodup_all : all.Nodup := by decide

theorem Rejection.mem_all (cause : Rejection) : cause ∈ all := by cases cause <;> decide

namespace Resolution

theorem tally_eq (causes : List Rejection) :
    tally causes =
      (Rejection.all.filter causes.contains).map fun cause => (cause, causes.count cause) := by
  rw [tally, ← List.filterMap_filter, List.filterMap_eq_map']

/-- The causes that a tally lists are those that occur. -/
theorem filter_contains_perm (causes : List Rejection) :
    (Rejection.all.filter causes.contains).Perm causes.dedup := by
  rw [List.perm_ext_iff_of_nodup (Rejection.nodup_all.filter _) causes.nodup_dedup]
  intro cause
  simp only [List.mem_filter, List.contains_iff_mem, Rejection.mem_all, true_and, List.mem_dedup]

theorem sum_tally (causes : List Rejection) :
    ((tally causes).map Prod.snd).sum = causes.length := by
  rw [tally_eq, List.map_map]
  calc ((Rejection.all.filter causes.contains).map fun cause => causes.count cause).sum
      = (causes.dedup.map fun cause => causes.count cause).sum :=
        ((filter_contains_perm causes).map _).sum_eq
    _ = causes.length := List.sum_map_count_dedup_eq_length causes

variable {outcomes outcomes' : List (Except Rejection ResolvedChain)}

theorem rejectedTotal_ofOutcomes :
    (ofOutcomes outcomes).report.rejectedTotal = (outcomes.filterMap cause?).length :=
  sum_tally _

/-- **Every candidate counts once**, as one that holds up or as one that does not. -/
theorem resolved_add_rejectedTotal (outcomes : List (Except Rejection ResolvedChain)) :
    (ofOutcomes outcomes).report.resolved + (ofOutcomes outcomes).report.rejectedTotal =
      outcomes.length := by
  rw [rejectedTotal_ofOutcomes]
  induction outcomes with
  | nil => rfl
  | cons outcome outcomes ih =>
      cases outcome with
      | error cause => exact congrArg Nat.succ ih
      | ok r => exact (Nat.succ_add _ _).trans (congrArg Nat.succ ih)

/-! ### The order of outcomes -/

/-- The same valid ranges, and the same numbers of candidates, of those that hold up and of those
that do not. -/
structure Agree (r r' : Resolution) : Prop where
  ranges : RangeSet.ofChains r.chains = RangeSet.ofChains r'.chains
  candidates : r.report.candidates = r'.report.candidates
  resolved : r.report.resolved = r'.report.resolved
  rejectedTotal : r.report.rejectedTotal = r'.report.rejectedTotal

theorem chains_ofOutcomes :
    (ofOutcomes outcomes).chains = (outcomes.map Except.toOption).reduceOption := by
  rw [List.reduceOption, List.filterMap_map]
  rfl

/-- What outcomes come to depends neither on their order nor on the causes of rejections. -/
theorem agree_of_perm (h : (outcomes.map Except.toOption).Perm (outcomes'.map Except.toOption)) :
    Agree (ofOutcomes outcomes) (ofOutcomes outcomes') := by
  have hchains : (ofOutcomes outcomes).chains.Perm (ofOutcomes outcomes').chains := by
    rw [chains_ofOutcomes, chains_ofOutcomes]
    exact h.filterMap id
  have hlength : outcomes.length = outcomes'.length := by
    simpa only [List.length_map] using h.length_eq
  have hresolved : (ofOutcomes outcomes).report.resolved =
      (ofOutcomes outcomes').report.resolved := hchains.length_eq
  have hsum := resolved_add_rejectedTotal outcomes
  have hsum' := resolved_add_rejectedTotal outcomes'
  exact ⟨RangeSet.ofChains_congr fun _ => hchains.mem_iff, hlength, hresolved, by omega⟩

end Resolution

end AccessWindows
