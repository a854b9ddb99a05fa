import AccessWindows.Proofs.Resolution.Lookup
import Mathlib.Order.Bounds.Defs

/-!
# Chains — completing them

Let a credential be assigned to each hash, and let slots that hold a mere hash be filled from this
assignment, in some order.  Each slot that was filled then holds the credential of its hash, and any
other is as it was (`getElem?_slots_fillFrom`), so the order has no part in the outcome.

As long as a slot is left, the candidate comes back as it is (`toResolved_of_unfilled`).  When none
is, the chain consists of the credentials of its hops, hop by hop (`fillFrom_all`), and the first
broken link of a chain is the least place at which one is broken (`firstBrokenLink?_eq_some_iff`).
-/

namespace AccessWindows

/-- The credential of a hop: the one that it holds, or the one that is assigned to its hash. -/
def Slot.credentialFrom (assigned : CredentialHash → Credential) : Slot → Credential
  | .resolved credential => credential
  | .unresolved hash => assigned hash

namespace CandidateChain

variable {c : CandidateChain} {assigned : CredentialHash → Credential}
  {fills : List (Nat × CredentialHash)}

/-- Fills the slots at these places with the credentials that are assigned to the hashes, one after
the other. -/
def fillFrom (c : CandidateChain) (assigned : CredentialHash → Credential)
    (fills : List (Nat × CredentialHash)) : CandidateChain :=
  c.fillAll (fills.map fun f => (f.1, assigned f.2))

/-! ### What is filled -/

/-- A place outside the chain has nothing to put a credential at. -/
theorem fill_of_length_le {i : Nat} (h : c.length ≤ i) (credential : Credential) :
    c.fill i credential = c :=
  congrArg CandidateChain.mk (List.set_eq_of_length_le h)

/-- **Each place on its own**: where something was filled there is the credential of the hop. -/
theorem getElem?_slots_fillFrom (h : fills ⊆ c.pending) (j : Nat) :
    (c.fillFrom assigned fills).slots[j]? =
      if j ∈ fills.map Prod.fst then
        c.slots[j]?.map fun slot => .resolved (slot.credentialFrom assigned)
      else c.slots[j]? := by
  have hvalue : ∀ f ∈ fills.map (fun f => (f.1, assigned f.2)),
      (c.slots[f.1]?.map (Slot.credentialFrom assigned)) = some f.2 := by
    intro f hf
    obtain ⟨p, hp, rfl⟩ := List.mem_map.mp hf
    rw [mem_pending_iff.mp (h hp)]
    rfl
  have hplaces : (fills.map fun f => (f.1, assigned f.2)).map Prod.fst = fills.map Prod.fst := by
    rw [List.map_map]
    rfl
  have hslot := @getElem?_slots_fillAll _ (fun i => c.slots[i]?.map _) hvalue c j
  rw [fillFrom, hslot, hplaces]
  cases c.slots[j]? <;> rfl

/-- A pending slot is filled if something is filled at its place. -/
theorem mem_places_iff (h : fills ⊆ c.pending) {p : Nat × CredentialHash} (hp : p ∈ c.pending) :
    p.1 ∈ fills.map Prod.fst ↔ p ∈ fills := by
  obtain ⟨i, hash⟩ := p
  constructor
  · intro hplace
    obtain ⟨⟨j, hash'⟩, hj, rfl⟩ := List.mem_map.mp hplace
    -- the slot tells the hash
    cases (mem_pending_iff.mp (h hj)).symm.trans (mem_pending_iff.mp hp)
    exact hj
  · exact List.mem_map_of_mem

/-- **In any order**: only which slots are filled makes a difference. -/
theorem fillFrom_congr {fills' : List (Nat × CredentialHash)} (h : fills ⊆ c.pending)
    (hmem : ∀ p, p ∈ fills ↔ p ∈ fills') :
    c.fillFrom assigned fills = c.fillFrom assigned fills' := by
  have h' : fills' ⊆ c.pending := fun p hp => h ((hmem p).mpr hp)
  have hplaces : ∀ j, j ∈ fills.map Prod.fst ↔ j ∈ fills'.map Prod.fst := by
    intro j
    simp only [List.mem_map, hmem]
  have hslots : (c.fillFrom assigned fills).slots = (c.fillFrom assigned fills').slots := by
    apply List.ext_getElem?
    intro j
    simp only [getElem?_slots_fillFrom h, getElem?_slots_fillFrom h', hplaces]
  exact congrArg CandidateChain.mk hslots

/-- Once every pending slot is filled, the chain holds the credentials of its hops. -/
theorem fillFrom_all (h : ∀ p, p ∈ fills ↔ p ∈ c.pending) :
    c.fillFrom assigned fills = held (c.slots.map (Slot.credentialFrom assigned)) := by
  have hslots : (c.fillFrom assigned fills).slots =
      (c.slots.map (Slot.credentialFrom assigned)).map .resolved := by
    apply List.ext_getElem?
    intro j
    rw [getElem?_slots_fillFrom fun p hp => (h p).mp hp, List.map_map, List.getElem?_map]
    split
    · rfl
    · next hj =>
        -- nothing was filled here, so the slot holds a credential of its own
        cases hs : c.slots[j]? with
        | none => rfl
        | some slot =>
            cases slot with
            | resolved credential => rfl
            | unresolved hash =>
                have hp := (h (j, hash)).mpr (mem_pending_iff.mpr hs)
                exact absurd (List.mem_map_of_mem hp) hj
  exact congrArg CandidateChain.mk hslots

/-! ### Resolving -/

theorem toResolved_eq_ok_iff {r : ResolvedChain} :
    c.toResolved = .ok r ↔ c = held r.credentials := by
  constructor
  · intro h
    unfold toResolved at h
    split at h
    · next hr =>
        cases h
        exact congrArg CandidateChain.mk (slots_of_toResolved? hr)
    · cases h
  · intro h
    rw [h, toResolved, toResolved?_held r.nonempty]

/-- Credentials resolve exactly if there are any. -/
theorem exists_toResolved_held_iff {credentials : List Credential} :
    (∃ r, (held credentials).toResolved = .ok r) ↔ credentials ≠ [] := by
  constructor
  · rintro ⟨r, hr⟩ rfl
    have hslots := congrArg slots (toResolved_eq_ok_iff.mp hr)
    exact r.nonempty (List.map_eq_nil_iff.mp hslots.symm)
  · intro h
    exact ⟨⟨credentials, h⟩, toResolved_eq_ok_iff.mpr rfl⟩

theorem held_inj {l l' : List Credential} : held l = held l' ↔ l = l' := by
  constructor
  · intro h
    have hslots := congrArg slots h
    exact List.map_injective_iff.mpr (fun _ _ => Slot.resolved.inj) hslots
  · exact congrArg held

/-- **A slot that is left** keeps the chain from resolving, and the candidate comes back. -/
theorem toResolved_of_unfilled (h : fills ⊆ c.pending) {p : Nat × CredentialHash}
    (hp : p ∈ c.pending) (hleft : p ∉ fills) :
    (c.fillFrom assigned fills).toResolved = .error (c.fillFrom assigned fills) := by
  have hslot : (c.fillFrom assigned fills).slots[p.1]? = some (.unresolved p.2) := by
    rw [getElem?_slots_fillFrom h, if_neg fun hplace => hleft ((mem_places_iff h hp).mp hplace)]
    exact mem_pending_iff.mp hp
  unfold toResolved
  split
  · next r hr =>
      rw [slots_of_toResolved? hr, List.getElem?_map] at hslot
      obtain ⟨credential, -, hc⟩ := Option.map_eq_some_iff.mp hslot
      cases hc
  · rfl

end CandidateChain

/-! ### Broken links -/

namespace ResolvedChain

variable {r : ResolvedChain} {i : Nat}

/-- The receiver of the hop at this place is not the issuer of the next. -/
def BrokenAt (r : ResolvedChain) (i : Nat) : Prop :=
  ∃ a b, r.credentials[i]? = some a ∧ r.credentials[i + 1]? = some b ∧ a.receiver ≠ b.issuer

theorem brokenAt_iff :
    r.BrokenAt i ↔ ∃ pair, (r.credentials.zip (r.credentials.drop 1))[i]? = some pair ∧
      (pair.1.receiver != pair.2.issuer) = true := by
  simp only [BrokenAt, Prod.exists, List.getElem?_zip_eq_some, List.getElem?_drop, bne_iff_ne,
    and_assoc, Nat.add_comm 1 i]

theorem firstBrokenLink?_eq_none_iff : r.firstBrokenLink? = none ↔ ∀ i, ¬ r.BrokenAt i := by
  rw [firstBrokenLink?, List.findIdx?_eq_none_iff]
  simp only [brokenAt_iff]
  constructor
  · rintro h i ⟨pair, hpair, hbroken⟩
    exact Bool.false_ne_true ((h pair (List.mem_of_getElem? hpair)).symm.trans hbroken)
  · intro h pair hpair
    obtain ⟨i, hi⟩ := List.mem_iff_getElem?.mp hpair
    exact Bool.eq_false_iff.mpr fun hbroken => h i ⟨pair, hi, hbroken⟩

/-- **The first broken link** is the least of them. -/
theorem firstBrokenLink?_eq_some_iff :
    r.firstBrokenLink? = some i ↔ IsLeast {i | r.BrokenAt i} i := by
  rw [firstBrokenLink?, List.findIdx?_eq_some_iff_getElem]
  constructor
  · rintro ⟨hi, hbroken, hbefore⟩
    refine ⟨brokenAt_iff.mpr ⟨_, List.getElem?_eq_getElem hi, hbroken⟩, ?_⟩
    intro j hj
    obtain ⟨pair, hpair, hbroken'⟩ := brokenAt_iff.mp hj
    obtain ⟨hlt, rfl⟩ := List.getElem?_eq_some_iff.mp hpair
    exact Nat.le_of_not_lt fun hji => hbefore j hji hbroken'
  · rintro ⟨hi, hleast⟩
    obtain ⟨pair, hpair, hbroken⟩ := brokenAt_iff.mp hi
    obtain ⟨hlt, rfl⟩ := List.getElem?_eq_some_iff.mp hpair
    refine ⟨hlt, hbroken, ?_⟩
    intro j hji hbroken'
    have hj : r.BrokenAt j :=
      brokenAt_iff.mpr ⟨_, List.getElem?_eq_getElem (Nat.lt_trans hji hlt), hbroken'⟩
    exact Nat.not_le_of_lt hji (hleast hj)

end ResolvedChain

/-! ### All at once -/

namespace CandidateChain

/-- **Chains are completed hop by hop, in any order.**  Let pending slots be filled with the
credentials assigned to their hashes.  Which of them are filled decides what becomes of the chain,
not in which order or how often.  As long as one is left, the chain does not resolve and comes back
as it is.  Once none is, it resolves exactly if it has a hop, to as many credentials as it has hops:
each the one that its slot held, or else the one assigned to the hash in the slot.  The first broken
link is then the least place where a receiver is not the next issuer.  Nothing happens at a place
outside the chain. -/
theorem completed_in_any_order (c : CandidateChain) (assigned : CredentialHash → Credential) :
    (∀ fills fills', fills ⊆ c.pending → (∀ p, p ∈ fills ↔ p ∈ fills') →
      c.fillFrom assigned fills = c.fillFrom assigned fills') ∧
    (∀ fills, fills ⊆ c.pending → (∃ p ∈ c.pending, p ∉ fills) →
      (c.fillFrom assigned fills).toResolved = .error (c.fillFrom assigned fills)) ∧
    (∀ fills, (∀ p, p ∈ fills ↔ p ∈ c.pending) →
      ((∃ r, (c.fillFrom assigned fills).toResolved = .ok r) ↔ c.slots ≠ []) ∧
      ∀ r, (c.fillFrom assigned fills).toResolved = .ok r →
        r.credentials.length = c.length ∧
        (∀ (i : Nat) credential, c.slots[i]? = some (.resolved credential) →
          r.credentials[i]? = some credential) ∧
        (∀ (i : Nat) hash, c.slots[i]? = some (.unresolved hash) →
          r.credentials[i]? = some (assigned hash)) ∧
        (∀ i, r.firstBrokenLink? = some i ↔ IsLeast {i | r.BrokenAt i} i) ∧
        (r.firstBrokenLink? = none ↔ ∀ i, ¬ r.BrokenAt i)) ∧
    ∀ i credential, c.length ≤ i → c.fill i credential = c := by
  refine ⟨fun fills fills' h hmem => fillFrom_congr h hmem, ?_, ?_, ?_⟩
  · rintro fills h ⟨p, hp, hleft⟩
    exact toResolved_of_unfilled h hp hleft
  · intro fills h
    rw [fillFrom_all h, exists_toResolved_held_iff, ne_eq, List.map_eq_nil_iff]
    refine ⟨Iff.rfl, ?_⟩
    intro r hr
    have hcredentials : c.slots.map (Slot.credentialFrom assigned) = r.credentials :=
      held_inj.mp (toResolved_eq_ok_iff.mp hr)
    refine ⟨?_, ?_, ?_, fun i => ResolvedChain.firstBrokenLink?_eq_some_iff,
      ResolvedChain.firstBrokenLink?_eq_none_iff⟩
    · rw [← hcredentials, List.length_map, length]
    · intro i credential hi
      rw [← hcredentials, List.getElem?_map, hi]
      rfl
    · intro i hash hi
      rw [← hcredentials, List.getElem?_map, hi]
      rfl
  · intro i credential h
    exact fill_of_length_le h credential

namespace Sample

/-- The hashes of the first and of the last of three hops. -/
def firstHash : CredentialHash := ⟨.replicate 32 1⟩
def lastHash : CredentialHash := ⟨.replicate 32 2⟩

/-- The hop in the middle is given. -/
def threeHops : CandidateChain :=
  ⟨[.unresolved firstHash, .resolved (Engine.Sample.grant "bob" "carol" 100 200),
    .unresolved lastHash]⟩

/-- The last hop is not one that Carol issued. -/
def assigned (hash : CredentialHash) : Credential :=
  if hash = firstHash then Engine.Sample.grant "root" "bob" 150 300
  else Engine.Sample.grant "mallory" "alice" 100 200

end Sample

open Sample

/-- Filled from its end the chain is the same, and does not resolve before its first hop is filled;
then its second link is the first that is broken. -/
theorem completed_from_the_end :
    threeHops.fillFrom assigned [(2, lastHash), (0, firstHash)] =
        threeHops.fillFrom assigned [(0, firstHash), (2, lastHash)] ∧
      (threeHops.fillFrom assigned [(2, lastHash)]).toResolved =
        .error (threeHops.fillFrom assigned [(2, lastHash)]) ∧
      ∃ r, (threeHops.fillFrom assigned [(2, lastHash), (0, firstHash)]).toResolved = .ok r ∧
        r.credentials[0]? = some (assigned firstHash) ∧ r.credentials.length = 3 ∧
        IsLeast {i | r.BrokenAt i} 1 := by
  have hpending : threeHops.pending = [(0, firstHash), (2, lastHash)] := rfl
  obtain ⟨horder, hleft, hall, -⟩ := completed_in_any_order threeHops assigned
  rw [hpending] at horder hleft hall
  have hswap : ∀ p, p ∈ [(2, lastHash), (0, firstHash)] ↔ p ∈ [(0, firstHash), (2, lastHash)] :=
    fun p => (List.Perm.swap _ _ _).mem_iff
  obtain ⟨hexists, hresolved⟩ := hall _ hswap
  obtain ⟨r, hr⟩ := hexists.mpr (List.cons_ne_nil _ _)
  obtain ⟨hlength, -, hlooked, hbroken, -⟩ := hresolved r hr
  refine ⟨horder _ _ (fun p hp => (hswap p).mp hp) hswap, hleft _ (by decide) ⟨(0, firstHash), ?_⟩,
    r, hr, hlooked 0 firstHash rfl, hlength, (hbroken 1).mp ?_⟩
  · decide
  · cases hr
    decide

end CandidateChain

end AccessWindows
