import AccessWindows.Proofs.Paths
import AccessWindows.Proofs.Resolution.Lookup
import AccessWindows.World
import Mathlib.Data.List.Induction

/-!
# Worlds — what collaborators in memory answer

Asked for a single resource, a routing table has the chains of the routes that lead there
(`found_toPattern`).

What a registry holds under a hash has that hash, and the last operation that gave a verdict on it
decides which one it has.  This is kept by each operation (`Records.perform`), so that after any run
of operations it is clear what a look-up answers and whether a verdict can be changed
(`answers_after`).
-/

namespace AccessWindows

/-! ### Routes -/

/-- The routes of a principal to a resource, in their order. -/
def RoutingTable.leading (t : RoutingTable) (principal : Principal) (resource : Resource) :
    List Route :=
  t.routes.filter fun route => route.principal == principal && route.pattern.fits resource

/-- A route covers the pattern of a resource if its own pattern fits the resource. -/
theorem Route.covers_toPattern (route : Route) (resource : Resource) :
    route.covers resource.toPattern = route.pattern.fits resource := by
  rw [covers, Resource.text_toPattern, Resource.ofText_text]

/-- **A single resource** is recognised in the pattern that is asked for, and leads to the chains of
the routes to it. -/
theorem RoutingTable.found_toPattern (t : RoutingTable) (resource : Resource)
    (principal : Principal) :
    t.found resource.toPattern principal = (t.leading principal resource).map Route.chain := by
  simp only [found, leading, Route.serves, Route.covers_toPattern]

/-! ### Single operations on a registry -/

/-- Bytes that were asked for by their own hash do not miss it. -/
theorem decodeAccess_ne_hashMismatch {hash : CredentialHash} {payload : List UInt8}
    (h : contentHash payload = hash) : decodeAccess hash payload ≠ .error .hashMismatch := by
  intro hd
  rw [decodeAccess, if_neg (not_not_intro h)] at hd
  split at hd
  · split at hd
    · cases hd
    · cases hd
  · cases hd

/-- A hash that differs in each byte. -/
def CredentialHash.shifted (hash : CredentialHash) : CredentialHash := ⟨hash.bytes.map (· + 1)⟩

theorem CredentialHash.ne_shifted (hash : CredentialHash) : hash ≠ hash.shifted := by
  intro h
  have hbyte := congrArg (fun hash : CredentialHash => hash.bytes[0]) h
  simp [shifted] at hbyte

namespace Registry

variable {r : Registry} {hash other : CredentialHash}

/-- An entry that is stored replaces what is stored for its hash, and nothing else. -/
theorem find?_insert (r : Registry) (hash other : CredentialHash) (entry : RegistryEntry) :
    (r.insert other entry).find? hash = if hash = other then some entry else r.find? hash := by
  rw [find?, insert, List.lookup_cons]
  by_cases h : hash = other
  · simp [h]
  · simp [beq_false_of_ne h, h, find?]

/-- An unreachable hash is not answered for. -/
theorem answer_of_mem (h : hash ∈ r.unreachable) :
    r.answer hash = .error (.network ("Registry unreachable for " ++ hash.short)) := if_pos h

/-- A hash that can be reached is answered for with what is stored for it. -/
theorem answer_of_find? {entry : RegistryEntry} (h : hash ∉ r.unreachable)
    (hentry : r.find? hash = some entry) : r.answer hash = .ok entry := by
  rw [answer, if_neg h, hentry]

/-- A hash that can be reached and has nothing stored for it is not found. -/
theorem answer_of_find?_none (h : hash ∉ r.unreachable) (hnone : r.find? hash = none) :
    r.answer hash = .error (.notFound ("Unknown credential " ++ hash.hex)) := by
  rw [answer, if_neg h, hnone]

/-- A credential that was registered is found under its hash. -/
theorem answer_register (c : Credential) (state : Validity) :
    (({} : Registry).register c state).answer c.hash = .ok ⟨c.encode, state⟩ := by
  simp [answer, find?, register, store, insert, Credential.hash]

/-- What is stored under one hash makes no difference to another. -/
theorem answer_insert_of_ne {entry : RegistryEntry} (h : hash ≠ other) :
    (r.insert other entry).answer hash = r.answer hash := by
  simp only [answer, find?, insert, List.lookup_cons, beq_false_of_ne h]

/-- To cut off one hash says nothing about another. -/
theorem answer_cutOff_of_ne (h : hash ≠ other) : (r.cutOff other).answer hash = r.answer hash := by
  simp only [answer, find?, cutOff, List.mem_cons, h, false_or]

/-! ### Runs of operations -/

/-- What may be done with a registry. -/
inductive Operation where
  | register (credential : Credential) (state : Validity)
  | store (payload : List UInt8) (state : Validity)
  | setState (hash : CredentialHash) (state : Validity)
  | cutOff (hash : CredentialHash)
  | lookUp (hash : CredentialHash)

/-- What an operation answers. -/
inductive Outcome where
  | stored (hash : CredentialHash)
  | known (known : Bool)
  | done
  | found (result : Except Failure RegistryEntry)

/-- Carries out an operation. -/
def perform (r : Registry) : Operation → Outcome × Registry
  | .register c state => (.stored c.hash, r.register c state)
  | .store payload state => (.stored (contentHash payload), r.store payload state)
  | .setState hash state =>
    match r.setState? hash state with
    | some changed => (.known true, changed)
    | none => (.known false, r)
  | .cutOff hash => (.done, r.cutOff hash)
  | .lookUp hash => (.found (r.answer hash), r)

/-- The registry that is left when operations have been carried out on an empty one. -/
def after (ops : List Operation) : Registry := ops.foldl (fun r op => (r.perform op).2) {}

/-- The payload that an operation stores. -/
def Operation.payload? : Operation → Option (List UInt8)
  | .register c _ => some c.encode
  | .store payload _ => some payload
  | _ => none

/-- One of the operations stored a payload with that hash. -/
def Stored (ops : List Operation) (hash : CredentialHash) : Prop :=
  ∃ op ∈ ops, ∃ payload, op.payload? = some payload ∧ contentHash payload = hash

/-- The operation, after those before it, gives the hash a verdict: it stores a payload with that
hash, or changes the verdict on one that was stored before. -/
inductive Gives (before : List Operation) (hash : CredentialHash) (state : Validity) :
    Operation → Prop where
  | registered {c : Credential} (h : c.hash = hash) : Gives before hash state (.register c state)
  | stored {payload : List UInt8} (h : contentHash payload = hash) :
    Gives before hash state (.store payload state)
  | changed (h : Stored before hash) : Gives before hash state (.setState hash state)

/-- The last of the operations that give the hash a verdict gives it this one. -/
def LastGiven (ops : List Operation) (hash : CredentialHash) (state : Validity) : Prop :=
  ∃ before op later, ops = before ++ op :: later ∧ Gives before hash state op ∧
    ∀ between next rest, later = between ++ next :: rest →
      ∀ state', ¬ Gives (before ++ op :: between) hash state' next

variable {ops : List Operation} {op : Operation} {state : Validity}

/-- The registry after some operations and one more. -/
theorem after_concat (ops : List Operation) (op : Operation) :
    after (ops ++ [op]) = ((after ops).perform op).2 := by
  simp [after]

/-- What was stored stays stored. -/
theorem stored_concat : Stored (ops ++ [op]) hash ↔
    Stored ops hash ∨ ∃ payload, op.payload? = some payload ∧ contentHash payload = hash := by
  simp [Stored, or_and_right, exists_or]

theorem gives_register_iff {c : Credential} {state' : Validity} :
    Gives ops hash state' (.register c state) ↔ hash = contentHash c.encode ∧ state' = state := by
  constructor
  · intro hg
    cases hg with
    | registered h => exact ⟨h.symm, rfl⟩
  · rintro ⟨h, rfl⟩
    exact .registered h.symm

theorem gives_store_iff {payload : List UInt8} {state' : Validity} :
    Gives ops hash state' (.store payload state) ↔
      hash = contentHash payload ∧ state' = state := by
  constructor
  · intro hg
    cases hg with
    | stored h => exact ⟨h.symm, rfl⟩
  · rintro ⟨h, rfl⟩
    exact .stored h.symm

/-- An operation that stores something gives it a verdict. -/
theorem exists_gives {payload : List UInt8} (hp : op.payload? = some payload)
    (hh : contentHash payload = hash) : ∃ state, Gives ops hash state op := by
  cases op with
  | register c state => cases hp; exact ⟨state, .registered hh⟩
  | store payload state => cases hp; exact ⟨state, .stored hh⟩
  | setState => cases hp
  | cutOff => cases hp
  | lookUp => cases hp

/-- The operation that comes last decides if it gives a verdict at all. -/
theorem LastGiven.of_gives (h : Gives ops hash state op) : LastGiven (ops ++ [op]) hash state :=
  ⟨ops, op, [], rfl, h, fun between next rest hnil => by simp at hnil⟩

/-- A verdict lasts as long as no other is given. -/
theorem LastGiven.concat (h : LastGiven ops hash state)
    (hop : ∀ state', ¬ Gives ops hash state' op) : LastGiven (ops ++ [op]) hash state := by
  obtain ⟨before, last, later, rfl, hgives, hlater⟩ := h
  refine ⟨before, last, later ++ [op], by simp, hgives, fun between next rest heq => ?_⟩
  rcases rest.eq_nil_or_concat with rfl | ⟨rest, final, rfl⟩
  · obtain ⟨rfl, hnext⟩ := List.append_inj' heq rfl
    cases hnext
    exact hop
  · have heq : later ++ [op] = (between ++ next :: rest) ++ [final] := by simpa using heq
    exact hlater between next rest (List.append_inj' heq rfl).1

/-- An operation gives a hash one verdict. -/
theorem Gives.unique {state' : Validity} (h : Gives ops hash state op)
    (h' : Gives ops hash state' op) : state = state' := by
  cases h with
  | registered => cases h'; rfl
  | stored => cases h'; rfl
  | changed => cases h'; rfl

/-- The verdict that was given last is one. -/
theorem LastGiven.unique {state' : Validity} (h : LastGiven ops hash state)
    (h' : LastGiven ops hash state') : state = state' := by
  obtain ⟨before, op, later, rfl, hgives, hlater⟩ := h
  obtain ⟨before', op', later', heq, hgives', hlater'⟩ := h'
  -- the later of the two operations would be one that follows the other
  rcases List.append_eq_append_iff.mp heq with ⟨mid, rfl, hmid⟩ | ⟨mid, rfl, hmid⟩
  · cases mid with
    | nil =>
        cases hmid
        rw [List.append_nil] at hgives'
        exact hgives.unique hgives'
    | cons first mid =>
        cases hmid
        exact absurd hgives' (hlater mid op' later' rfl state')
  · cases mid with
    | nil =>
        cases hmid
        rw [List.append_nil] at hgives
        exact hgives.unique hgives'
    | cons first mid =>
        cases hmid
        exact absurd hgives (hlater' mid op later rfl state)

/-- What is found under a hash is as the operations have left it: there is something if it was
stored, and then it is a stored payload with that hash, under the verdict given last. -/
structure Records (ops : List Operation) (hash : CredentialHash) (found : Option RegistryEntry) :
    Prop where
  isSome_iff : found.isSome = true ↔ Stored ops hash
  entry : ∀ entry, found = some entry → contentHash entry.payload = hash ∧
    (∃ op ∈ ops, op.payload? = some entry.payload) ∧ LastGiven ops hash entry.state

namespace Records

variable {found : Option RegistryEntry}

theorem nil (hash : CredentialHash) : Records [] hash none where
  isSome_iff := by simp [Stored]
  entry _ h := by cases h

/-- An operation that gives the hash no verdict leaves alone what is found there. -/
theorem concat (h : Records ops hash found) (hop : ∀ state, ¬ Gives ops hash state op) :
    Records (ops ++ [op]) hash found where
  isSome_iff := by
    rw [h.isSome_iff, stored_concat]
    refine ⟨Or.inl, fun hs => hs.resolve_right ?_⟩
    rintro ⟨payload, hp, hh⟩
    obtain ⟨state, hgives⟩ := exists_gives hp hh
    exact hop state hgives
  entry entry he := by
    obtain ⟨hh, ⟨op', hm, hp⟩, hlast⟩ := h.entry entry he
    exact ⟨hh, ⟨op', List.mem_append_left _ hm, hp⟩, hlast.concat hop⟩

/-- Whatever was found before, what is stored is found now. -/
theorem store {payload : List UInt8} (hp : op.payload? = some payload)
    (hgives : ∀ hash state', Gives ops hash state' op ↔ hash = contentHash payload ∧ state' = state)
    (h : Records ops hash (r.find? hash)) :
    Records (ops ++ [op]) hash ((r.store payload state).find? hash) := by
  rw [Registry.store, find?_insert]
  by_cases hh : hash = contentHash payload
  · rw [if_pos hh]
    refine ⟨?_, fun entry he => ?_⟩
    · rw [stored_concat]
      exact ⟨fun _ => .inr ⟨payload, hp, hh.symm⟩, fun _ => rfl⟩
    · cases he
      have hg : Gives ops hash state op := (hgives hash state).mpr ⟨hh, rfl⟩
      exact ⟨hh.symm, ⟨op, by simp, hp⟩, .of_gives hg⟩
  · rw [if_neg hh]
    exact h.concat fun state' hg => hh ((hgives hash state').mp hg).1

/-- A verdict can be changed on what was stored, and on nothing else. -/
theorem setState {changed : CredentialHash} (h : ∀ hash, Records ops hash (r.find? hash)) :
    Records (ops ++ [.setState changed state]) hash
      ((r.perform (.setState changed state)).2.find? hash) := by
  cases hc : r.find? changed with
  | none =>
      have hnot : ¬ Stored ops changed := by simp [← (h changed).isSome_iff, hc]
      simp only [perform, setState?, hc, Option.map_none]
      refine (h hash).concat fun state' hg => ?_
      cases hg with
      | changed hs => exact hnot hs
  | some entry =>
      simp only [perform, setState?, hc, Option.map_some]
      rw [find?_insert]
      by_cases hh : hash = changed
      · subst hh
        obtain ⟨hhash, ⟨op, hm, hp⟩, -⟩ := (h hash).entry entry hc
        have hs : Stored ops hash := (h hash).isSome_iff.mp (by rw [hc]; rfl)
        rw [if_pos rfl]
        refine ⟨?_, fun entry' he => ?_⟩
        · rw [stored_concat]
          exact ⟨fun _ => .inl hs, fun _ => rfl⟩
        · cases he
          exact ⟨hhash, ⟨op, List.mem_append_left _ hm, hp⟩, .of_gives (.changed hs)⟩
      · rw [if_neg hh]
        refine (h hash).concat fun state' hg => ?_
        cases hg with
        | changed => exact hh rfl

/-- **Each operation** leaves under a hash what it is bound to leave there. -/
theorem perform (h : ∀ hash, Records ops hash (r.find? hash)) (op : Operation)
    (hash : CredentialHash) : Records (ops ++ [op]) hash ((r.perform op).2.find? hash) := by
  cases op with
  | register c state => exact store rfl (fun _ _ => gives_register_iff) (h hash)
  | store payload state => exact store rfl (fun _ _ => gives_store_iff) (h hash)
  | setState changed state => exact setState h
  | cutOff other => exact (h hash).concat fun state hg => by cases hg
  | lookUp other => exact (h hash).concat fun state hg => by cases hg

/-- **Runs**: under each hash stands what the operations have left there. -/
theorem after (ops : List Operation) : ∀ hash, Records ops hash ((after ops).find? hash) := by
  induction ops using List.reverseRecOn with
  | nil => exact nil
  | append_singleton ops op ih =>
      rw [after_concat]
      exact perform ih op

end Records

/-- Nothing makes a hash reachable again. -/
theorem mem_unreachable_perform : hash ∈ (r.perform op).2.unreachable ↔
    hash ∈ r.unreachable ∨ .cutOff hash = op := by
  cases op with
  | register c state => simp [perform, register, store, insert]
  | store payload state => simp [perform, store, insert]
  | setState other state =>
      cases h : r.find? other with
      | none => simp [perform, setState?, h]
      | some entry => simp [perform, setState?, h, insert]
  | cutOff other => simp [perform, cutOff, or_comm]
  | lookUp other => simp [perform]

/-- The unreachable hashes are those that were made so; nothing makes them reachable again. -/
theorem mem_unreachable_after : hash ∈ (after ops).unreachable ↔ .cutOff hash ∈ ops := by
  induction ops using List.reverseRecOn with
  | nil => simp [after]
  | append_singleton ops op ih => simp [after_concat, mem_unreachable_perform, ih]

/-- **A registry is content-addressed, and the last verdict counts.**  After any run of operations
on an empty registry, a look-up of a hash fails with a network failure if the hash was ever made
unreachable; otherwise it finds nothing if nothing was stored under the hash, and else a payload
that was stored and has that hash, so that decoding it reports no mismatch, under the verdict that
was given last.  A verdict can be changed exactly where something was stored; elsewhere the attempt
changes nothing. -/
theorem answers_after (ops : List Operation) (hash : CredentialHash) :
    (.cutOff hash ∈ ops → ((after ops).perform (.lookUp hash)).1 =
      .found (.error (.network ("Registry unreachable for " ++ hash.short)))) ∧
    (.cutOff hash ∉ ops → ¬ Stored ops hash → ((after ops).perform (.lookUp hash)).1 =
      .found (.error (.notFound ("Unknown credential " ++ hash.hex)))) ∧
    (.cutOff hash ∉ ops → Stored ops hash → ∃ entry,
      ((after ops).perform (.lookUp hash)).1 = .found (.ok entry) ∧
      contentHash entry.payload = hash ∧
      decodeAccess hash entry.payload ≠ .error .hashMismatch ∧
      (∃ op ∈ ops, op.payload? = some entry.payload) ∧ LastGiven ops hash entry.state) ∧
    ∀ state,
      (((after ops).perform (.setState hash state)).1 = .known true ↔ Stored ops hash) ∧
      (¬ Stored ops hash →
        (after ops).perform (.setState hash state) = (.known false, after ops)) := by
  have h := Records.after ops hash
  refine ⟨fun hcut => ?_, fun hcut hnot => ?_, fun hcut hs => ?_, fun state => ?_⟩
  · exact congrArg Outcome.found (answer_of_mem (mem_unreachable_after.mpr hcut))
  · have hnone : (after ops).find? hash = none :=
      Option.not_isSome_iff_eq_none.mp (h.isSome_iff.not.mpr hnot)
    have hreach := mem_unreachable_after.not.mpr hcut
    exact congrArg Outcome.found (answer_of_find?_none hreach hnone)
  · obtain ⟨entry, he⟩ := Option.isSome_iff_exists.mp (h.isSome_iff.mpr hs)
    obtain ⟨hh, hstored, hlast⟩ := h.entry entry he
    have hreach := mem_unreachable_after.not.mpr hcut
    exact ⟨entry, congrArg Outcome.found (answer_of_find? hreach he), hh,
      decodeAccess_ne_hashMismatch hh, hstored, hlast⟩
  · rw [← h.isSome_iff]
    cases he : (after ops).find? hash with
    | none => simp [perform, setState?, he]
    | some entry => simp [perform, setState?, he]

namespace Sample

open Engine.Sample

/-- A credential is registered as valid and then revoked, and another hash is cut off. -/
def history : List Operation :=
  [.register held .valid, .cutOff held.hash.shifted, .setState held.hash .revoked,
    .lookUp held.hash]

theorem stored_held : Stored history held.hash :=
  ⟨.register held .valid, List.mem_cons_self, held.encode, rfl, rfl⟩

theorem lastGiven_held : LastGiven history held.hash .revoked := by
  have h : LastGiven ([.register held .valid, .cutOff held.hash.shifted] ++
      [.setState held.hash .revoked]) held.hash .revoked :=
    .of_gives (.changed ⟨.register held .valid, List.mem_cons_self, held.encode, rfl, rfl⟩)
  exact h.concat fun state hg => by cases hg

end Sample

open Sample Engine.Sample

/-- The credential is found, and it is revoked; the other hash is out of reach. -/
theorem answers_after_history :
    .cutOff held.hash ∉ history ∧ Stored history held.hash ∧
      (∃ entry, ((after history).perform (.lookUp held.hash)).1 = .found (.ok entry) ∧
        contentHash entry.payload = held.hash ∧ entry.state = .revoked) ∧
      .cutOff held.hash.shifted ∈ history ∧
      ((after history).perform (.lookUp held.hash.shifted)).1 =
        .found (.error (.network ("Registry unreachable for " ++ held.hash.shifted.short))) := by
  have hcut : .cutOff held.hash ∉ history := by
    simp [history, held.hash.ne_shifted]
  have hcut' : .cutOff held.hash.shifted ∈ history := by
    simp [history]
  obtain ⟨-, -, hfound, -⟩ := answers_after history held.hash
  obtain ⟨entry, hentry, hh, -, -, hlast⟩ := hfound hcut stored_held
  obtain ⟨hnetwork, -⟩ := answers_after history held.hash.shifted
  exact ⟨hcut, stored_held, ⟨entry, hentry, hh, hlast.unique lastGiven_held⟩, hcut',
    hnetwork hcut'⟩

end Registry

end AccessWindows
