import Mathlib.Data.List.Basic
import Mathlib.Data.List.Induction

/-!
# Runs of declarations — what is left of them

Declarations are made one after the other, each about a key.  Where each replaces what was there for
its key, the last one for a key stands (`find?_foldl`); where each can only add a mark, a key is
marked if any of them marks it (`marked_foldl_iff`).
-/

namespace AccessWindows.Declarations

variable {σ α κ ν : Type} {step : σ → α → σ} {s : σ} {k : κ}

/-- **The last declaration counts**, if nothing was there before. -/
theorem find?_foldl [DecidableEq κ] (find? : σ → κ → Option ν) {key : α → κ} {value : α → ν}
    (hstep : ∀ s a k, find? (step s a) k = if k = key a then some (value a) else find? s k)
    (hs : find? s k = none) (xs : List α) :
    find? (xs.foldl step s) k = (xs.filter fun a => key a = k).getLast?.map value := by
  -- the last declaration is made over those before it, so the induction takes it off first
  induction xs using List.reverseRecOn with
  | nil => exact hs
  | append_singleton xs a ih =>
      rw [List.foldl_concat, hstep, List.filter_append]
      by_cases h : key a = k
      · simp [h]
      · simp [h, ih, Ne.symm h]

/-- **Each declaration counts**: a mark that was made stays. -/
theorem marked_foldl_iff (Marked : σ → κ → Prop) {marks : α → κ → Prop}
    (hstep : ∀ s a k, Marked (step s a) k ↔ Marked s k ∨ marks a k) (hs : ¬ Marked s k)
    (xs : List α) : Marked (xs.foldl step s) k ↔ ∃ a ∈ xs, marks a k := by
  induction xs using List.reverseRecOn with
  | nil => simp [hs]
  | append_singleton xs a ih =>
      rw [List.foldl_concat, hstep, ih]
      simp [or_and_right, exists_or]

end AccessWindows.Declarations
