import AccessWindows.Fixture.Basic
import AccessWindows.Proofs.Declarations
import AccessWindows.Proofs.Engine.ValidRanges
import AccessWindows.Proofs.Payload
import AccessWindows.Proofs.Steps
import AccessWindows.Proofs.World
import Mathlib.Data.Set.Function

/-!
# Fixtures — what is built is what was declared

A fixture describes a world exactly when its identifiers are distinct and every hop is one of them
(`build_eq_ok_iff`).  Identifiers then stand for one credential each, so that each declared chain
becomes a route whose slots are those of its hops, and a request discovers the chains declared for
its principal and its resource (`discovers_declared`).

Credentials are stored by hash, one after the other.  So entries that declare the same credential
share what is stored: the last of them decides its verdict, and each of them can make it
unreachable (`answer_of_build`).
-/

namespace AccessWindows

/-! ### Building -/

namespace Fixture

variable {f : Fixture} {w : World}

/-- No text is found to repeat if they are distinct, and distinct from those seen before. -/
theorem firstRepeated?_eq_none_iff {seen texts : List String} :
    firstRepeated? seen texts = none ↔ texts.Nodup ∧ ∀ s ∈ texts, s ∉ seen := by
  induction texts generalizing seen with
  | nil => simp [firstRepeated?]
  | cons s texts ih =>
      rw [firstRepeated?]
      by_cases hs : s ∈ seen
      · simp [hs]
      · rw [if_neg hs, ih, List.nodup_cons, List.forall_mem_cons]
        simp only [List.mem_cons, not_or]
        constructor
        · rintro ⟨hnd, h⟩
          exact ⟨⟨fun hm => (h s hm).1 rfl, hnd⟩, hs, fun t ht => (h t ht).2⟩
        · rintro ⟨⟨hnew, hnd⟩, -, h⟩
          exact ⟨hnd, fun t ht => ⟨fun heq => hnew (heq ▸ ht), h t ht⟩⟩

/-- The world that consists of these routes and of what the fixture declares besides. -/
def worldWith (f : Fixture) (routes : List Route) : World where
  routes := { routes }
  registry := f.credentials.foldl Registry.declare {}
  streams := f.streams.foldl StreamIndex.declare {}

/-- No two credentials have the same identifier. -/
def Distinct (f : Fixture) : Prop := (f.credentials.map CredentialEntry.id).Nodup

instance (f : Fixture) : Decidable f.Distinct := inferInstanceAs (Decidable (List.Nodup _))

/-- A world is built if identifiers are distinct and each chain has its route. -/
theorem build_eq_ok_iff :
    f.build = .ok w ↔ f.Distinct ∧
      ∃ routes, f.chains.mapM f.route = .ok routes ∧ f.worldWith routes = w := by
  have hdistinct : f.Distinct ↔
      firstRepeated? [] (f.credentials.map CredentialEntry.id) = none := by
    simp [Distinct, firstRepeated?_eq_none_iff]
  rw [hdistinct, build]
  cases firstRepeated? [] (f.credentials.map CredentialEntry.id) with
  | some id => simp [bind, Except.bind, throw, throwThe, MonadExceptOf.throw]
  | none =>
      cases f.chains.mapM f.route with
      | error cause => simp [bind, Except.bind]
      | ok routes => simp [bind, Except.bind, pure, Except.pure, worldWith]

/-- The registry of a built world answers at once. -/
theorem delay_registry (h : f.build = .ok w) : w.registry.delay = 0 := by
  obtain ⟨-, routes, -, rfl⟩ := build_eq_ok_iff.mp h
  rw [worldWith]
  induction f.credentials using List.reverseRecOn with
  | nil => rfl
  | append_singleton entries e ih =>
      rw [List.foldl_concat, Registry.declare]
      cases e.unreachable with
      | true => exact ih
      | false => exact ih

/-! ### Chains -/

/-- The slot for a hop: it holds the credential with that identifier in full, or its hash. -/
def SlotFor (f : Fixture) (inFull : Bool) (id : String) (slot : Slot) : Prop :=
  ∃ e ∈ f.credentials, e.id = id ∧
    slot = if inFull then .resolved e.credential else .unresolved e.credential.hash

/-- The chain as it was declared: one slot for each hop, in their order. -/
def Declares (f : Fixture) (e : ChainEntry) (chain : CandidateChain) : Prop :=
  List.Forall₂ (f.SlotFor e.inFull) e.hops chain.slots

/-- The chains declared for a principal whose pattern fits a resource. -/
def chainsFor (f : Fixture) (principal : Principal) (resource : Resource) : List ChainEntry :=
  f.chains.filter fun e => e.principal == principal && e.resource.fits resource

/-- Where identifiers are distinct, each finds its own entry. -/
theorem find?_id_of_mem {entries : List CredentialEntry}
    (hnd : (entries.map CredentialEntry.id).Nodup) {e : CredentialEntry} (he : e ∈ entries) :
    (entries.find? fun other => other.id == e.id) = some e := by
  induction entries with
  | nil => cases he
  | cons first entries ih =>
      obtain ⟨hnew, hnd⟩ := List.nodup_cons.mp hnd
      rcases List.mem_cons.mp he with rfl | he
      · exact List.find?_cons_of_pos (beq_self_eq_true e.id)
      · have hne : first.id ≠ e.id := fun h => hnew (h ▸ List.mem_map_of_mem he)
        rw [List.find?_cons_of_neg (by simpa using hne)]
        exact ih hnd he

/-- With distinct identifiers, a hop has a slot if it is one of them. -/
theorem slot_eq_ok_iff (h : f.Distinct) {inFull : Bool} {id : String} {slot : Slot} :
    f.slot inFull id = .ok slot ↔ f.SlotFor inFull id slot := by
  constructor
  · intro hslot
    cases he : f.credentials.find? fun e => e.id == id with
    | none => simp [Fixture.slot, find?, he] at hslot
    | some e =>
        refine ⟨e, List.mem_of_find?_eq_some he, ?_, ?_⟩
        · simpa using List.find?_some he
        · simpa [Fixture.slot, find?, he, eq_comm] using hslot
  · rintro ⟨e, he, rfl, rfl⟩
    simp [Fixture.slot, find?, find?_id_of_mem h he]

/-- A chain is declared if its hops are found one by one. -/
theorem declares_iff (h : f.Distinct) {e : ChainEntry} {slots : List Slot} :
    f.Declares e ⟨slots⟩ ↔ e.hops.mapM (f.slot e.inFull) = .ok slots := by
  simp only [mapM_eq_ok_iff, slot_eq_ok_iff h]
  rfl

/-- An entry declares one chain. -/
theorem Declares.unique (h : f.Distinct) {e : ChainEntry} {chain chain' : CandidateChain}
    (hc : f.Declares e chain) (hc' : f.Declares e chain') : chain = chain' := by
  have hslots := (declares_iff h).mp hc
  rw [(declares_iff h).mp hc'] at hslots
  exact congrArg CandidateChain.mk (Except.ok.inj hslots).symm

/-- The route of an entry leads to the chain that the entry declares. -/
theorem route_eq_ok_iff (h : f.Distinct) {e : ChainEntry} {route : Route} :
    f.route e = .ok route ↔
      route.principal = e.principal ∧ route.pattern = e.resource ∧ f.Declares e route.chain := by
  obtain ⟨principal, pattern, ⟨slots⟩⟩ := route
  rw [declares_iff h, Fixture.route]
  cases e.hops.mapM (f.slot e.inFull) with
  | error cause => simp [bind, Except.bind]
  | ok found => simp [bind, Except.bind, pure, Except.pure, eq_comm]

/-- A hop has a slot if its identifier is that of a credential. -/
theorem exists_slotFor_iff {inFull : Bool} {id : String} :
    (∃ slot, f.SlotFor inFull id slot) ↔ id ∈ f.credentials.map CredentialEntry.id := by
  rw [List.mem_map]
  constructor
  · rintro ⟨slot, e, he, hid, -⟩
    exact ⟨e, he, hid⟩
  · rintro ⟨e, he, hid⟩
    exact ⟨_, e, he, hid, rfl⟩

/-- A chain has a route if each of its hops is an identifier. -/
theorem exists_route_iff (h : f.Distinct) {e : ChainEntry} :
    (∃ route, f.route e = .ok route) ↔
      ∀ id ∈ e.hops, id ∈ f.credentials.map CredentialEntry.id := by
  calc (∃ route, f.route e = .ok route)
      ↔ ∃ slots, e.hops.mapM (f.slot e.inFull) = .ok slots := by
        simp only [route_eq_ok_iff h, ← declares_iff h]
        constructor
        · rintro ⟨route, -, -, hchain⟩
          exact ⟨route.chain.slots, hchain⟩
        · rintro ⟨slots, hslots⟩
          exact ⟨⟨e.principal, e.resource, ⟨slots⟩⟩, rfl, rfl, hslots⟩
    _ ↔ ∀ id ∈ e.hops, ∃ slot, f.slot e.inFull id = .ok slot := exists_mapM_ok_iff
    _ ↔ ∀ id ∈ e.hops, id ∈ f.credentials.map CredentialEntry.id := by
        simp only [slot_eq_ok_iff h, exists_slotFor_iff]

/-- A world is built if identifiers are distinct and each hop names one of them. -/
theorem exists_build_iff : (∃ w, f.build = .ok w) ↔
    f.Distinct ∧ ∀ e ∈ f.chains, ∀ id ∈ e.hops, id ∈ f.credentials.map CredentialEntry.id := by
  simp only [build_eq_ok_iff]
  constructor
  · rintro ⟨w, h, routes, hroutes, -⟩
    refine ⟨h, fun e he => (exists_route_iff h).mp ?_⟩
    exact exists_mapM_ok_iff.mp ⟨routes, hroutes⟩ e he
  · rintro ⟨h, hops⟩
    obtain ⟨routes, hroutes⟩ := exists_mapM_ok_iff.mpr fun e he =>
      (exists_route_iff h).mpr (hops e he)
    exact ⟨_, h, routes, hroutes, rfl⟩

/-- The routes to a resource are those of the chains declared for it, in their order. -/
theorem forall₂_leading (h : f.build = .ok w) (principal : Principal) (resource : Resource) :
    List.Forall₂ f.Declares (f.chainsFor principal resource)
      ((w.routes.leading principal resource).map Route.chain) := by
  obtain ⟨hd, routes, hroutes, rfl⟩ := build_eq_ok_iff.mp h
  have hall : List.Forall₂ (fun e route => route.principal = e.principal ∧
      route.pattern = e.resource ∧ f.Declares e route.chain) f.chains routes := by
    simpa only [mapM_eq_ok_iff, route_eq_ok_iff hd] using hroutes
  -- an entry and its route agree on the principal and the pattern, so both are kept or neither
  rw [List.forall₂_map_right_iff]
  refine (List.rel_filter (fun e route hr => ?_) hall).imp fun e route hr => hr.2.2
  simp only [hr.1, hr.2.1]

/-- Discovery fails in no built world, and takes no time. -/
theorem candidates_of_build (h : f.build = .ok w) (q : Request) (s : Settings) :
    q.candidates s (w.collaborators.chains q.resource.toPattern q.permission q.principal).run =
      .ok ((w.routes.leading q.principal q.resource).map Route.chain) := by
  obtain ⟨-, routes, -, rfl⟩ := build_eq_ok_iff.mp h
  rw [Request.candidates_eq_ok_iff, ← RoutingTable.found_toPattern]
  exact if_pos ((Nat.zero_min longestWait).trans_le (Nat.zero_le _))

end Fixture

/-! ### Credentials -/

/-- What is stored for an entry. -/
def CredentialEntry.stored (e : CredentialEntry) : RegistryEntry := ⟨e.credential.encode, e.state⟩

/-- What is stored for an entry has the hash of its credential. -/
theorem CredentialEntry.hash_stored (e : CredentialEntry) :
    contentHash e.stored.payload = e.credential.hash := rfl

namespace Registry

variable {hash : CredentialHash}

/-- A declaration replaces what is stored for its hash, and nothing else. -/
theorem find?_declare (r : Registry) (e : CredentialEntry) (hash : CredentialHash) :
    (r.declare e).find? hash =
      if hash = e.credential.hash then some e.stored else r.find? hash := by
  rw [← find?_insert r hash e.credential.hash e.stored, declare]
  cases e.unreachable with
  | true => rfl
  | false => rfl

/-- A declaration makes no hash reachable again. -/
theorem mem_unreachable_declare {r : Registry} {e : CredentialEntry} :
    hash ∈ (r.declare e).unreachable ↔
      hash ∈ r.unreachable ∨ e.unreachable = true ∧ e.credential.hash = hash := by
  rw [declare]
  cases e.unreachable with
  | true => simp [cutOff, register, store, insert, or_comm, eq_comm]
  | false => simp [register, store, insert]

/-- **The last entry counts**: what is found under a hash is what was stored for the last entry with
that hash. -/
theorem find?_foldl_declare (entries : List CredentialEntry) (hash : CredentialHash) :
    (entries.foldl declare {}).find? hash =
      (entries.filter fun e => e.credential.hash = hash).getLast?.map CredentialEntry.stored :=
  Declarations.find?_foldl find? find?_declare rfl entries

/-- **Each entry counts**: a hash is out of reach if some entry with that hash is. -/
theorem mem_unreachable_foldl_declare {entries : List CredentialEntry} :
    hash ∈ (entries.foldl declare {}).unreachable ↔
      ∃ e ∈ entries, e.unreachable = true ∧ e.credential.hash = hash :=
  Declarations.marked_foldl_iff (fun (r : Registry) hash => hash ∈ r.unreachable)
    (fun _ e _ => mem_unreachable_declare (e := e)) List.not_mem_nil entries

end Registry

theorem Credential.encode_injective : Function.Injective Credential.encode := by
  intro c c' h
  have hdecode : some (Payload.access Payload.currentVersion c) =
      some (.access Payload.currentVersion c') :=
    (Payload.decode?_encode _).symm.trans
      ((congrArg Payload.decode? h).trans (Payload.decode?_encode _))
  cases hdecode
  rfl

namespace Fixture

variable {f : Fixture} {w : World} {e : CredentialEntry}

/-- The encodings of the declared credentials. -/
def payloads (f : Fixture) : Set (List UInt8) :=
  {payload | ∃ e ∈ f.credentials, e.credential.encode = payload}

/-- The entries that declare the credential. -/
def declaring (f : Fixture) (c : Credential) : List CredentialEntry :=
  f.credentials.filter fun e => e.credential = c

/-- The entries that declare a credential are those that hold it. -/
theorem mem_declaring {c : Credential} :
    e ∈ f.declaring c ↔ e ∈ f.credentials ∧ e.credential = c := by
  simp [declaring]

/-- Without collisions, a hash stands for one credential. -/
theorem hash_eq_iff (hinj : f.payloads.InjOn contentHash) {other : CredentialEntry}
    (he : e ∈ f.credentials) (ho : other ∈ f.credentials) :
    other.credential.hash = e.credential.hash ↔ other.credential = e.credential := by
  constructor
  · intro h
    exact Credential.encode_injective (hinj ⟨other, ho, rfl⟩ ⟨e, he, rfl⟩ h)
  · intro h
    rw [h]

/-- What is stored for a credential is what the last entry that declares it says. -/
theorem find?_registry (h : f.build = .ok w) (hinj : f.payloads.InjOn contentHash)
    (he : e ∈ f.credentials) :
    w.registry.find? e.credential.hash =
      (f.declaring e.credential).getLast?.map CredentialEntry.stored := by
  obtain ⟨-, routes, -, rfl⟩ := build_eq_ok_iff.mp h
  have hfilter : (f.credentials.filter fun other => other.credential.hash = e.credential.hash) =
      f.declaring e.credential :=
    List.filter_congr fun other ho => by simp only [hash_eq_iff hinj he ho]
  rw [worldWith, Registry.find?_foldl_declare, hfilter]

/-- The hash of a declared credential leads to a payload with that hash. -/
theorem exists_find?_of_build (h : f.build = .ok w) (he : e ∈ f.credentials) :
    ∃ entry, w.registry.find? e.credential.hash = some entry ∧
      contentHash entry.payload = e.credential.hash := by
  obtain ⟨-, routes, -, rfl⟩ := build_eq_ok_iff.mp h
  rw [worldWith, Registry.find?_foldl_declare]
  have hm : e ∈ f.credentials.filter fun other => other.credential.hash = e.credential.hash :=
    List.mem_filter.mpr ⟨he, decide_eq_true rfl⟩
  have hlast := List.getLast?_eq_some_getLast (List.ne_nil_of_mem hm)
  have hmem := List.mem_filter.mp (List.mem_of_getLast? hlast)
  exact ⟨_, congrArg (Option.map CredentialEntry.stored) hlast,
    (CredentialEntry.hash_stored _).trans (of_decide_eq_true hmem.2)⟩

/-- A credential is unreachable if one of the entries that declare it says so. -/
theorem mem_unreachable_registry (h : f.build = .ok w) (hinj : f.payloads.InjOn contentHash)
    (he : e ∈ f.credentials) :
    e.credential.hash ∈ w.registry.unreachable ↔
      (f.declaring e.credential).any CredentialEntry.unreachable = true := by
  obtain ⟨-, routes, -, rfl⟩ := build_eq_ok_iff.mp h
  rw [worldWith, Registry.mem_unreachable_foldl_declare, List.any_eq_true]
  simp only [mem_declaring]
  constructor
  · rintro ⟨other, ho, hu, hh⟩
    exact ⟨other, ⟨ho, (hash_eq_iff hinj he ho).mp hh⟩, hu⟩
  · rintro ⟨other, ⟨ho, hc⟩, hu⟩
    exact ⟨other, ho, hu, (hash_eq_iff hinj he ho).mpr hc⟩

/-- The answer to a question for a credential that the registry treats like this. -/
def answerFor (c : Credential) (unreachable : Bool) (state : Validity) : Reply RegistryEntry where
  delay := 0
  result :=
    if unreachable then .error (.network ("Registry unreachable for " ++ c.hash.short))
    else .ok ⟨c.encode, state⟩

/-- Of the entries that declare a credential, the last gives the verdict and any can make it
unreachable. -/
theorem run_credential_of_build (h : f.build = .ok w) (hinj : f.payloads.InjOn contentHash)
    (he : e ∈ f.credentials) {last : CredentialEntry}
    (hlast : (f.declaring e.credential).getLast? = some last) :
    (w.collaborators.credential e.credential.hash).run =
      answerFor e.credential ((f.declaring e.credential).any CredentialEntry.unreachable)
        last.state := by
  have hreach := mem_unreachable_registry h hinj he
  have hfind := find?_registry h hinj he
  have hc : last.credential = e.credential := (mem_declaring.mp (List.mem_of_getLast? hlast)).2
  rw [hlast, Option.map_some, CredentialEntry.stored, hc] at hfind
  have hresult : w.registry.answer e.credential.hash = (answerFor e.credential
      ((f.declaring e.credential).any CredentialEntry.unreachable) last.state).result := by
    by_cases hu : e.credential.hash ∈ w.registry.unreachable
    · rw [Registry.answer_of_mem hu, answerFor, hreach.mp hu, if_pos rfl]
    · rw [Registry.answer_of_find? hu hfind, answerFor, if_neg fun h => hu (hreach.mpr h)]
  have hreply : (w.collaborators.credential e.credential.hash).run =
      ⟨w.registry.delay, w.registry.answer e.credential.hash⟩ := rfl
  rw [hreply, hresult, delay_registry h]
  rfl

/-- One of the entries that declare a credential is the last. -/
theorem exists_last (he : e ∈ f.credentials) :
    ∃ last, (f.declaring e.credential).getLast? = some last :=
  ⟨_, List.getLast?_eq_some_getLast (List.ne_nil_of_mem (mem_declaring.mpr ⟨he, rfl⟩))⟩

/-- **What is declared of a credential holds**, as far as all entries that declare it agree.  In a
built world, if no two encodings of declared credentials share a hash, a question for the hash of a
declared credential fails if an entry that declares it is unreachable, and otherwise yields its
encoding, which decodes to it, under the verdict of the last entry that declares it.  So where the
entries that declare it have the same verdict and are reachable alike, each of them is honoured. -/
theorem answer_of_build (h : f.build = .ok w) (hinj : f.payloads.InjOn contentHash)
    (he : e ∈ f.credentials) :
    (∃ last, (f.declaring e.credential).getLast? = some last ∧
      (w.collaborators.credential e.credential.hash).run =
        answerFor e.credential ((f.declaring e.credential).any CredentialEntry.unreachable)
          last.state) ∧
    decodeAccess e.credential.hash e.credential.encode = .ok e.credential ∧
    ((∀ other ∈ f.declaring e.credential,
        other.state = e.state ∧ other.unreachable = e.unreachable) →
      (w.collaborators.credential e.credential.hash).run =
        answerFor e.credential e.unreachable e.state) := by
  obtain ⟨last, hlast⟩ := exists_last he
  have hrun := run_credential_of_build h hinj he hlast
  have hdecode : decodeAccess e.credential.hash e.credential.encode = .ok e.credential :=
    decodeAccess_eq_ok_iff.mpr ⟨rfl, Payload.decode?_encode _⟩
  refine ⟨⟨last, hlast, hrun⟩, hdecode, fun halike => ?_⟩
  have hany : (f.declaring e.credential).any CredentialEntry.unreachable = e.unreachable := by
    rw [Bool.eq_iff_iff, List.any_eq_true]
    constructor
    · rintro ⟨other, ho, hu⟩
      exact (halike other ho).2 ▸ hu
    · intro hu
      exact ⟨e, mem_declaring.mpr ⟨he, rfl⟩, hu⟩
  rw [hrun, hany, (halike last (List.mem_of_getLast? hlast)).1]

/-- Encodings do not collide if the hashes of different credentials differ. -/
theorem injOn_payloads (h : ∀ e ∈ f.credentials, ∀ e' ∈ f.credentials,
    e.credential.hash = e'.credential.hash → e.credential = e'.credential) :
    f.payloads.InjOn contentHash := by
  rintro _ ⟨e, he, rfl⟩ _ ⟨e', he', rfl⟩ hh
  rw [h e he e' he' hh]

namespace Sample

open Engine.Sample

/-- Declares the credential as revoked. -/
def former : CredentialEntry := ⟨"former", held, .revoked, false⟩

/-- Declares the same credential as valid. -/
def renewed : CredentialEntry := ⟨"renewed", held, .valid, false⟩

/-- Declares another credential, which is out of reach. -/
def remote : CredentialEntry := ⟨"remote", grant "root" "alice" 400 500, .expired, true⟩

/-- The campus and all that is in it. -/
def premises : ResourcePattern :=
  ⟨[.literal "campus", .rest], by decide, by decide, by decide⟩

/-- Alice is led to the campus by credentials in full, and to all that is in it by their hashes;
Mallory is led there too. -/
def roster : Fixture where
  credentials := [former, remote, renewed]
  chains :=
    [⟨⟨"alice"⟩, campus.toPattern, ["renewed", "remote"], true⟩,
      ⟨⟨"mallory"⟩, premises, ["former"], true⟩,
      ⟨⟨"alice"⟩, premises, ["remote", "former"], false⟩]

theorem hash_remote_ne : remote.credential.hash ≠ held.hash := by
  decide +kernel

theorem injOn_roster : roster.payloads.InjOn contentHash := by
  have hcases : ∀ e ∈ roster.credentials,
      e.credential = held ∨ e.credential = remote.credential := by
    simp [roster, former, renewed]
  refine injOn_payloads fun e he e' he' hh => ?_
  rcases hcases e he with h | h
  · rcases hcases e' he' with h' | h'
    · rw [h, h']
    · rw [h, h'] at hh
      exact absurd hh.symm hash_remote_ne
  · rcases hcases e' he' with h' | h'
    · rw [h, h'] at hh
      exact absurd hh hash_remote_ne
    · rw [h, h']

end Sample

open Sample Engine.Sample

/-- **An entry may be overruled**: the credential was declared as revoked, and is valid. -/
theorem build_roster_overrules :
    ∃ w, roster.build = .ok w ∧ roster.payloads.InjOn contentHash ∧
      former ∈ roster.credentials ∧ former.unreachable = false ∧ former.state = .revoked ∧
      (w.collaborators.credential former.credential.hash).run =
        answerFor former.credential false .valid := by
  obtain ⟨w, hw⟩ := (exists_build_iff (f := roster)).mpr (by decide)
  have hm : former ∈ roster.credentials := List.mem_cons_self
  exact ⟨w, hw, injOn_roster, hm, rfl, rfl, run_credential_of_build hw injOn_roster hm rfl⟩

/-- The only entry for a credential is honoured, also among others. -/
theorem build_roster_answers :
    ∃ w, roster.build = .ok w ∧ roster.payloads.InjOn contentHash ∧
      renewed ∈ roster.credentials ∧ remote ∈ roster.credentials ∧
      (w.collaborators.credential renewed.credential.hash).run =
        answerFor renewed.credential renewed.unreachable renewed.state ∧
      (w.collaborators.credential remote.credential.hash).run =
        answerFor remote.credential remote.unreachable remote.state := by
  obtain ⟨w, hw⟩ := (exists_build_iff (f := roster)).mpr (by decide)
  have hrenewed : renewed ∈ roster.credentials := by simp [roster]
  have hremote : remote ∈ roster.credentials := by simp [roster]
  obtain ⟨⟨last, hlast, hrun⟩, -, -⟩ := answer_of_build hw injOn_roster hrenewed
  obtain ⟨-, -, halike⟩ := answer_of_build hw injOn_roster hremote
  have hpair : roster.declaring renewed.credential = [former, renewed] := rfl
  have hsingle : roster.declaring remote.credential = [remote] := rfl
  rw [hpair] at hlast hrun
  cases hlast
  refine ⟨w, hw, injOn_roster, hrenewed, hremote, hrun, halike fun other ho => ?_⟩
  rw [hsingle] at ho
  cases List.mem_singleton.mp ho
  exact ⟨rfl, rfl⟩

/-- **Fixtures are built as declared.**  A world can be built exactly when the identifiers are
distinct and each hop is one of them.  In that world a request discovers, under any settings, the
chains declared for its principal whose pattern fits its resource, in their order and as often as
they were declared, each with the slots of its hops; and the hash of a declared credential is one
under which a payload with that hash is stored. -/
theorem build_discovers_declared (f : Fixture) :
    ((∃ w, f.build = .ok w) ↔ (f.credentials.map CredentialEntry.id).Nodup ∧
      ∀ e ∈ f.chains, ∀ id ∈ e.hops, id ∈ f.credentials.map CredentialEntry.id) ∧
    ∀ w, f.build = .ok w →
      (∀ (q : Request) (s : Settings), ∃ chains,
        q.candidates s (w.collaborators.chains q.resource.toPattern q.permission q.principal).run =
          .ok chains ∧
        List.Forall₂ f.Declares (f.chainsFor q.principal q.resource) chains) ∧
      ∀ e ∈ f.credentials, ∃ entry, w.registry.find? e.credential.hash = some entry ∧
        contentHash entry.payload = e.credential.hash := by
  refine ⟨exists_build_iff, fun w h => ⟨fun q s => ?_, fun e he => ?_⟩⟩
  · exact ⟨_, candidates_of_build h q s, forall₂_leading h q.principal q.resource⟩
  · exact exists_find?_of_build h he

/-- Alice's two chains are discovered, and Mallory's is not. -/
theorem build_roster_discovers :
    ∃ w, roster.build = .ok w ∧ ∀ s : Settings,
      question.candidates s
          (w.collaborators.chains campus.toPattern .read ⟨"alice"⟩).run =
        .ok [⟨[.resolved renewed.credential, .resolved remote.credential]⟩,
          ⟨[.unresolved remote.credential.hash, .unresolved former.credential.hash]⟩] := by
  obtain ⟨hbuild, hdiscovers⟩ := build_discovers_declared roster
  obtain ⟨w, hw⟩ := hbuild.mpr (by decide)
  refine ⟨w, hw, fun s => ?_⟩
  obtain ⟨chains, hchains, hdeclared⟩ := (hdiscovers w hw).1 question s
  have hd : roster.Distinct := by decide
  obtain ⟨first, rest, hfirst, hrest, rfl⟩ := List.forall₂_cons_left_iff.mp hdeclared
  obtain ⟨second, _, hsecond, hnil, rfl⟩ := List.forall₂_cons_left_iff.mp hrest
  cases hnil
  rw [hfirst.unique hd ((declares_iff hd).mpr rfl),
    hsecond.unique hd ((declares_iff hd).mpr rfl)] at hchains
  exact hchains

end Fixture

end AccessWindows
