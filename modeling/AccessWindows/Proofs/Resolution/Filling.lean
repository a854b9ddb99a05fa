import AccessWindows.Credential
import Mathlib.Data.List.Forall2

/-!
# Chains — filling them slot by slot

Which credential a slot ends up with depends only on what was put at its place, so that the order
does not matter (`getElem?_slots_fillAll`).  A chain whose slots all hold a credential resolves to
these credentials, in the order of the hops (`toResolved?_held`).
-/

namespace AccessWindows.CandidateChain

/-- Puts credentials at places, one after the other. -/
def fillAll (c : CandidateChain) (fills : List (Nat × Credential)) : CandidateChain :=
  fills.foldl (fun c f => c.fill f.1 f.2) c

theorem mem_pending_iff {c : CandidateChain} {i : Nat} {h : CredentialHash} :
    (i, h) ∈ c.pending ↔ c.slots[i]? = some (.unresolved h) := by
  simp only [pending, List.mem_filterMap, Prod.exists, List.mem_zipIdx_iff_getElem?,
    Option.map_eq_some_iff, Prod.mk.injEq]
  constructor
  · rintro ⟨s, j, hs, h', hp, rfl, rfl⟩
    cases s with
    | resolved _ => cases hp
    | unresolved _ => cases hp; exact hs
  · intro hs
    exact ⟨.unresolved h, i, hs, h, rfl, rfl, rfl⟩

theorem getElem?_slots_fill (c : CandidateChain) (i j : Nat) (credential : Credential) :
    (c.fill i credential).slots[j]? =
      if i = j then c.slots[j]?.map fun _ => .resolved credential else c.slots[j]? := by
  simp only [fill, List.getElem?_set']
  split
  next h => subst h; rfl
  next => rfl

/-- **Filling in any order**: where all that is put at one place is the same credential, a place
that something is put at ends up with it, and any other place stays as it was. -/
theorem getElem?_slots_fillAll {fills : List (Nat × Credential)} {value : Nat → Option Credential}
    (hv : ∀ f ∈ fills, value f.1 = some f.2) (c : CandidateChain) (j : Nat) :
    (c.fillAll fills).slots[j]? =
      if j ∈ fills.map Prod.fst then c.slots[j]?.bind fun _ => (value j).map .resolved
      else c.slots[j]? := by
  induction fills generalizing c with
  | nil => simp [fillAll]
  | cons f fills ih =>
      obtain ⟨hf, hv⟩ := List.forall_mem_cons.mp hv
      have hstep : (c.fillAll (f :: fills)).slots[j]? =
          ((c.fill f.1 f.2).fillAll fills).slots[j]? := rfl
      rw [hstep, ih hv, getElem?_slots_fill, List.map_cons]
      by_cases hj : f.1 = j
      · subst hj
        rw [if_pos rfl, if_pos List.mem_cons_self, hf]
        cases c.slots[f.1]? with
        | none => exact ite_self _
        | some _ => exact ite_self _
      · have hmem : j ∈ f.1 :: fills.map Prod.fst ↔ j ∈ fills.map Prod.fst :=
          List.mem_cons.trans (or_iff_right fun h => hj h.symm)
        simp only [if_neg hj, hmem]

theorem length_slots_fillAll (c : CandidateChain) (fills : List (Nat × Credential)) :
    (c.fillAll fills).slots.length = c.slots.length := by
  induction fills generalizing c with
  | nil => rfl
  | cons f fills ih => exact (ih _).trans List.length_set

/-- Whatever is put where, a slot holds what it held before or something put at its place. -/
theorem getElem?_slots_fillAll_cases {fills : List (Nat × Credential)} {c : CandidateChain}
    {j : Nat} {slot : Slot} (h : (c.fillAll fills).slots[j]? = some slot) :
    c.slots[j]? = some slot ∨ ∃ f ∈ fills, f.1 = j ∧ slot = .resolved f.2 := by
  induction fills generalizing c with
  | nil => exact Or.inl h
  | cons f fills ih =>
      rcases ih h with h | ⟨g, hg, hgj⟩
      · rw [getElem?_slots_fill] at h
        split at h
        next hj =>
            obtain ⟨-, -, rfl⟩ := Option.map_eq_some_iff.mp h
            exact Or.inr ⟨f, List.mem_cons_self, hj, rfl⟩
        next => exact Or.inl h
      · exact Or.inr ⟨g, List.mem_cons_of_mem f hg, hgj⟩

/-! ### Chains that hold credentials only -/

/-- The chain that holds these credentials. -/
def held (credentials : List Credential) : CandidateChain := ⟨credentials.map .resolved⟩

theorem mapM_credential?_held (credentials : List Credential) :
    (held credentials).slots.mapM Slot.credential? = some credentials := by
  induction credentials with
  | nil => rfl
  | cons credential rest ih =>
      simp only [held] at ih
      simp only [held, List.map_cons, List.mapM_cons, ih]
      rfl

theorem toResolved?_held {credentials : List Credential} (h : credentials ≠ []) :
    (held credentials).toResolved? = some ⟨credentials, h⟩ := by
  rw [toResolved?, mapM_credential?_held]
  exact dif_pos h

theorem eq_of_mapM_credential? {slots : List Slot} {credentials : List Credential}
    (h : slots.mapM Slot.credential? = some credentials) :
    slots = credentials.map .resolved := by
  induction slots generalizing credentials with
  | nil =>
      cases h
      rfl
  | cons slot slots ih =>
      rw [List.mapM_cons] at h
      obtain ⟨credential, hc, h⟩ := Option.bind_eq_some_iff.mp h
      obtain ⟨rest, hrest, h⟩ := Option.bind_eq_some_iff.mp h
      cases h
      cases slot with
      | resolved _ => cases hc; rw [List.map_cons, ih hrest]
      | unresolved _ => cases hc

/-- A chain resolves to the credentials that it holds. -/
theorem slots_of_toResolved? {c : CandidateChain} {r : ResolvedChain}
    (h : c.toResolved? = some r) : c.slots = r.credentials.map .resolved := by
  obtain ⟨credentials, hc, h⟩ := Option.bind_eq_some_iff.mp h
  split at h
  next => cases h; exact eq_of_mapM_credential? hc
  next => cases h

end AccessWindows.CandidateChain
