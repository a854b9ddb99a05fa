import AccessWindows.Fixture.Form
import AccessWindows.Proofs.Json.RoundTrip
import AccessWindows.Proofs.Payload
import AccessWindows.Settings

/-!
# JSON — persisted values have one canonical text each

A *form* of a type is how its values stand in documents.  When every document that is written in
the form is plain and is read back as the value it was written for (`Form.IsExact`), the same holds
of texts, in both layouts.  A text that is accepted for a value may then spell it in many ways: in
another order of keys, as a list in place of a table, with fields left out that have a usual value.
Rewriting it, which is to read it and to write what was read, takes each of them to one text that
stands for all (`Form.Canonical`).

Candidate chains, payloads, fixtures, settings and failures are kept in such forms
(`json_undoes_itself`).
-/

namespace AccessWindows

open Document Json

/-! ### Forms -/

/-- How the values of a type stand in documents, and which documents are accepted for them. -/
structure Form (α : Type) where
  toValue : α → Value
  ofValue? : Value → Option α

namespace Form

variable {α : Type} {form : Form α}

/-- The value that a text is accepted for. -/
def read? (form : Form α) (text : String) : Option α := (Json.read? text).bind form.ofValue?

/-- The text of a value. -/
def write (form : Form α) (layout : Value → String) (x : α) : String := layout (form.toValue x)

/-- The text of the value that a text is accepted for. -/
def rewrite? (form : Form α) (layout : Value → String) (text : String) : Option String :=
  (form.read? text).map (form.write layout)

/-- What is written is plain, and is read back. -/
structure IsExact (form : Form α) : Prop where
  plain : ∀ x, Plain (form.toValue x)
  ofValue?_toValue : ∀ x, form.ofValue? (form.toValue x) = some x

/-- In this layout every value has one text, and every text that is accepted for the value is
rewritten to that one. -/
structure Canonical (form : Form α) (layout : Value → String) : Prop where
  /-- A value is read back from its text. -/
  read_write : ∀ x, form.read? (form.write layout x) = some x
  /-- A text that was rewritten is accepted for the same value as before. -/
  read_rewrite : ∀ {text text'}, form.rewrite? layout text = some text' →
    form.read? text' = form.read? text
  /-- A text that was rewritten stays as it is. -/
  rewrite_rewrite : ∀ {text text'}, form.rewrite? layout text = some text' →
    form.rewrite? layout text' = some text'
  /-- Texts are rewritten alike when they are accepted for the same value, and only then. -/
  rewrite_eq_iff : ∀ {text text'},
    form.rewrite? layout text = form.rewrite? layout text' ↔ form.read? text = form.read? text'

/-- All follows from the first: a text determines the value it was written for. -/
theorem canonical_of_read_write {layout : Value → String}
    (h : ∀ x, form.read? (form.write layout x) = some x) : form.Canonical layout where
  read_write := h
  read_rewrite hrewrite := by
    obtain ⟨x, hx, rfl⟩ := Option.map_eq_some_iff.mp hrewrite
    rw [h, hx]
  rewrite_rewrite hrewrite := by
    obtain ⟨x, hx, rfl⟩ := Option.map_eq_some_iff.mp hrewrite
    rw [rewrite?, h]
    rfl
  rewrite_eq_iff := by
    refine fun {text text'} => ⟨fun heq => ?_, congrArg (Option.map _)⟩
    have hinj : Function.Injective (form.write layout) := fun x x' hx => by
      have hread := congrArg form.read? hx
      rw [h, h] at hread
      exact Option.some.inj hread
    exact Option.map_injective hinj heq

/-- The values of the form are read back from either layout. -/
def IsPersistent (form : Form α) : Prop := form.Canonical compact ∧ form.Canonical pretty

/-- A plain document is read back from either layout, so a form that is exact persists in both. -/
theorem IsExact.isPersistent (h : form.IsExact) : form.IsPersistent := by
  constructor
  · refine canonical_of_read_write fun x => ?_
    rw [read?, write, read?_compact (h.plain x)]
    exact h.ofValue?_toValue x
  · refine canonical_of_read_write fun x => ?_
    rw [read?, write, read?_pretty (h.plain x)]
    exact h.ofValue?_toValue x

end Form

/-! ### Plain documents -/

/-- A list is plain if whatever may stand in it is. -/
theorem plain_list {α : Type} {f : α → Value} (h : ∀ x, Plain (f x)) (xs : List α) :
    Plain (.list (xs.map f)) := by
  refine .list fun v hv => ?_
  obtain ⟨x, -, rfl⟩ := List.mem_map.mp hv
  exact h x

/-- A number of one of the machine's words. -/
theorem plain_nat {n : Nat} (h : n < 18446744073709551616) : Plain (.int n) :=
  .int ⟨by omega, by omega⟩

/-- The number of an instant fits in sixty-four bits. -/
theorem Timestamp.plain (t : Timestamp) : Plain t.toValue :=
  .int ⟨t.min_le, Int.lt_of_le_of_lt t.le_max (by decide)⟩

namespace Credential

/-- Texts and two instants are all that the fields of a credential hold. -/
theorem plain_fields (c : Credential) : ∀ e ∈ c.fields, Plain e.2 := by
  simp only [fields, List.forall_mem_cons]
  exact ⟨.text _, .text _, .text _, plain_list (fun _ => .text _) _, c.createdAt.plain,
    c.expiresAt.plain, List.forall_mem_nil _⟩

theorem plain (c : Credential) : Plain c.toValue := plain_record c.plain_fields

end Credential

/-- A slot is plain, resolved or not. -/
theorem Slot.plain (s : Slot) : Plain s.toValue := by
  refine match s with
    | .resolved c => plain_record ?_
    | .unresolved h => plain_record ?_
  · simp only [List.forall_mem_cons]
    exact ⟨.text _, c.plain, List.forall_mem_nil _⟩
  · simp only [List.forall_mem_cons]
    exact ⟨.text _, .text _, List.forall_mem_nil _⟩

/-- Payloads of either kind are plain: versions and instants are small, and grants are texts. -/
theorem Payload.plain (p : Payload) : Plain p.toValue := by
  cases p with
  | access version c =>
      have hversion : version.toNat < 256 := version.toNat_lt
      refine plain_record ?_
      simp only [List.forall_mem_cons]
      exact ⟨.text _, plain_nat (by omega), c.plain, List.forall_mem_nil _⟩
  | permission issuer receiver grants createdAt expiresAt =>
      have hgrants : Plain (.ofTextMap grants) := plain_record fun e he => by
        obtain ⟨_, -, rfl⟩ := List.mem_map.mp he
        exact .text _
      refine plain_record ?_
      simp only [List.forall_mem_cons]
      exact ⟨.text _, .text _, .text _, hgrants, createdAt.plain, expiresAt.plain,
        List.forall_mem_nil _⟩

/-- A failure is plain: its deadline fits in sixty-four bits. -/
theorem Failure.plain (f : Failure) : Plain f.toValue := by
  refine plain_record (List.forall_mem_cons.mpr ⟨?_, List.forall_mem_nil _⟩)
  cases f with
  | timeout operation milliseconds =>
      refine plain_record ?_
      simp only [List.forall_mem_cons]
      exact ⟨.text _, plain_nat milliseconds.toNat_lt, List.forall_mem_nil _⟩
  | invalid m | notFound m | network m | serialization m | storage m | internal m =>
      exact plain_record (List.forall_mem_cons.mpr ⟨.text m, List.forall_mem_nil _⟩)

/-! ### Settings -/

namespace Settings

theorem plain (s : Settings) : Plain s.toValue := by
  refine plain_record ?_
  simp only [List.forall_mem_cons]
  exact ⟨plain_nat s.discoveryTimeout.toNat_lt, plain_nat s.lookupTimeout.toNat_lt,
    plain_nat s.maxConcurrentChains.toNat_lt, .bool _, List.forall_mem_nil _⟩

/-- **Settings** are read back, in whatever notation. -/
theorem ofValue?_toValue (d : Dialect) (s : Settings) : ofValue? d s.toValue = some s := by
  let fs : Fields := [("discovery_timeout_ms", .int s.discoveryTimeout.toNat),
    ("lookup_timeout_ms", .int s.lookupTimeout.toNat),
    ("max_concurrent_chains", .int s.maxConcurrentChains.toNat),
    ("accept_expired", .bool s.acceptExpired)]
  have hnd : (fs.map Prod.fst).Nodup := by simp [fs]
  have hfields : s.toValue.fields? d (Setting.all.map Setting.name) .refused = some fs :=
    Value.fields?_record (fun _ he => List.mem_map_of_mem he) hnd
  have hdiscovery := Fields.optional_eq hnd "discovery_timeout_ms"
    (Value.word?_toNat s.discoveryTimeout) (by simp [fs])
  have hlookup := Fields.optional_eq hnd "lookup_timeout_ms"
    (Value.word?_toNat s.lookupTimeout) (by simp [fs])
  have hchains := Fields.optional_eq hnd "max_concurrent_chains"
    (Value.word?_toNat s.maxConcurrentChains) (by simp [fs])
  have hexpired := Fields.optional_eq hnd "accept_expired"
    (Value.bool?_bool s.acceptExpired) (by simp [fs])
  rw [ofValue?, hfields, Option.bind_eq_bind, Option.bind_some, hdiscovery, hlookup, hchains,
    hexpired]
  rfl

end Settings

/-! ### Fixtures -/

namespace CredentialEntry

/-- The fields of an entry with their values: those of the credential among them. -/
def fields (e : CredentialEntry) : Fields :=
  ("id", .text e.id) :: e.credential.fields ++
    [("state", e.state.toValue), ("unreachable", .bool e.unreachable)]

theorem nodup_fields (e : CredentialEntry) : (e.fields.map Prod.fst).Nodup := by
  have hnames : e.fields.map Prod.fst = fieldNames := rfl
  rw [hnames]
  decide

theorem plain (e : CredentialEntry) : Plain e.toValue := by
  refine plain_record fun f hf => ?_
  simp only [List.cons_append, List.mem_cons, List.mem_append, List.not_mem_nil, or_false] at hf
  rcases hf with rfl | hf | rfl | rfl
  · exact .text _
  · exact e.credential.plain_fields f hf
  · exact .text _
  · exact .bool _

/-- Entries of credentials are read back, in whatever notation. -/
theorem ofValue?_toValue (d : Dialect) (e : CredentialEntry) : ofValue? d e.toValue = some e := by
  have hfields : e.toValue.fields? d fieldNames .refused = some e.fields :=
    Value.fields?_record (fun _ he => List.mem_map_of_mem he) e.nodup_fields
  have hid := Fields.required_eq e.nodup_fields "id" (Value.text?_text e.id) (by simp [fields])
  have hcredential : Credential.ofFields? d e.fields = some e.credential :=
    e.credential.ofFields?_of_subset d e.nodup_fields fun f hf => by simp [fields, hf]
  have hstate := Fields.optional_eq e.nodup_fields "state" (e.state.ofValue?_toValue d)
    (by simp [fields])
  have hunreachable := Fields.optional_eq e.nodup_fields "unreachable"
    (Value.bool?_bool e.unreachable) (by simp [fields])
  rw [ofValue?, hfields, Option.bind_eq_bind, Option.bind_some, hid, hcredential, hstate,
    hunreachable]
  rfl

end CredentialEntry

namespace ChainEntry

theorem plain (e : ChainEntry) : Plain e.toValue := by
  refine plain_record ?_
  simp only [List.forall_mem_cons]
  exact ⟨.text _, .text _, plain_list .text _, .bool _, List.forall_mem_nil _⟩

/-- Entries of chains are read back, in whatever notation. -/
theorem ofValue?_toValue (d : Dialect) (e : ChainEntry) : ofValue? d e.toValue = some e := by
  let fs : Fields := [("principal", e.principal.toValue), ("resource", e.resource.toValue),
    ("hops", .list (e.hops.map Value.text)), ("inline", .bool e.inFull)]
  have hnd : (fs.map Prod.fst).Nodup := by simp [fs]
  have hfields : e.toValue.fields? d ["principal", "resource", "hops", "inline"] .refused =
      some fs := Value.fields?_record (fun _ he => List.mem_map_of_mem he) hnd
  have hitems : (Value.list (e.hops.map Value.text)).items? Value.text? = some e.hops :=
    mapM_map_eq_some fun s _ => Value.text?_text s
  have hprincipal :=
    Fields.required_eq hnd "principal" e.principal.ofValue?_toValue (by simp [fs])
  have hresource := Fields.required_eq hnd "resource" e.resource.ofValue?_toValue (by simp [fs])
  have hhops := Fields.required_eq hnd "hops" hitems (by simp [fs])
  have hinFull := Fields.optional_eq hnd "inline" (Value.bool?_bool e.inFull) (by simp [fs])
  rw [ofValue?, hfields, Option.bind_eq_bind, Option.bind_some, hprincipal, hresource, hhops,
    hinFull]
  rfl

end ChainEntry

namespace StreamEntry

theorem plain (e : StreamEntry) : Plain e.toValue := by
  refine plain_record ?_
  simp only [List.forall_mem_cons]
  exact ⟨.text _, .text _, .bool _, List.forall_mem_nil _⟩

/-- Entries of streams are read back, in whatever notation. -/
theorem ofValue?_toValue (d : Dialect) (e : StreamEntry) : ofValue? d e.toValue = some e := by
  let fs : Fields := [("name", .text e.name), ("resource", e.resource.toValue),
    ("unreachable", .bool e.unreachable)]
  have hnd : (fs.map Prod.fst).Nodup := by simp [fs]
  have hfields : e.toValue.fields? d ["name", "resource", "unreachable"] .refused = some fs :=
    Value.fields?_record (fun _ he => List.mem_map_of_mem he) hnd
  have hname := Fields.required_eq hnd "name" (Value.text?_text e.name) (by simp [fs])
  have hresource := Fields.required_eq hnd "resource" e.resource.ofValue?_toValue (by simp [fs])
  have hunreachable :=
    Fields.optional_eq hnd "unreachable" (Value.bool?_bool e.unreachable) (by simp [fs])
  rw [ofValue?, hfields, Option.bind_eq_bind, Option.bind_some, hname, hresource, hunreachable]
  rfl

end StreamEntry

namespace Fixture

theorem plain (f : Fixture) : Plain f.toValue := by
  refine plain_record ?_
  simp only [List.forall_mem_cons]
  exact ⟨plain_list CredentialEntry.plain _, plain_list ChainEntry.plain _,
    plain_list StreamEntry.plain _, List.forall_mem_nil _⟩

/-- **Fixtures** are read back, in whatever notation. -/
theorem ofValue?_toValue (d : Dialect) (f : Fixture) : ofValue? d f.toValue = some f := by
  let fs : Fields := [("credentials", .list (f.credentials.map CredentialEntry.toValue)),
    ("chains", .list (f.chains.map ChainEntry.toValue)),
    ("streams", .list (f.streams.map StreamEntry.toValue))]
  have hnd : (fs.map Prod.fst).Nodup := by simp [fs]
  have hfields : f.toValue.fields? d ["credentials", "chains", "streams"] .refused = some fs :=
    Value.fields?_record (fun _ he => List.mem_map_of_mem he) hnd
  have hitems : ∀ {α : Type} {toValue : α → Value} {read : Value → Option α} (xs : List α),
      (∀ x, read (toValue x) = some x) → (Value.list (xs.map toValue)).items? read = some xs :=
    fun _ hread => mapM_map_eq_some fun x _ => hread x
  have hcredentials := Fields.optional_eq hnd "credentials"
    (hitems f.credentials (CredentialEntry.ofValue?_toValue d)) (by simp [fs])
  have hchains := Fields.optional_eq hnd "chains"
    (hitems f.chains (ChainEntry.ofValue?_toValue d)) (by simp [fs])
  have hstreams := Fields.optional_eq hnd "streams"
    (hitems f.streams (StreamEntry.ofValue?_toValue d)) (by simp [fs])
  rw [ofValue?, hfields, Option.bind_eq_bind, Option.bind_some, hcredentials, hchains, hstreams]
  rfl

end Fixture

/-! ### The persisted types -/

namespace Form

def chains : Form CandidateChain := ⟨CandidateChain.toValue, CandidateChain.ofValue? .json⟩

def payloads : Form Payload := ⟨Payload.toValue, Payload.ofValue? .json⟩

def fixtures : Form Fixture := ⟨Fixture.toValue, Fixture.ofValue? .json⟩

def settings : Form Settings := ⟨Settings.toValue, Settings.ofValue? .json⟩

def failures : Form Failure := ⟨Failure.toValue, Failure.ofValue?⟩

/-- What is written of chains is plain and read back, and so it is with the other four types. -/
theorem isExact_chains : chains.IsExact :=
  ⟨fun c => plain_list Slot.plain c.slots, CandidateChain.ofValue?_toValue .json⟩

theorem isExact_payloads : payloads.IsExact := ⟨Payload.plain, Payload.ofValue?_toValue .json⟩

theorem isExact_fixtures : fixtures.IsExact := ⟨Fixture.plain, Fixture.ofValue?_toValue .json⟩

theorem isExact_settings : settings.IsExact := ⟨Settings.plain, Settings.ofValue?_toValue .json⟩

theorem isExact_failures : failures.IsExact := ⟨Failure.plain, Failure.ofValue?_toValue⟩

/-- **JSON undoes itself for every persisted type.**  In either layout a value is read back from its
text, and all texts that are accepted for it are rewritten to this one. -/
theorem json_undoes_itself :
    chains.IsPersistent ∧ payloads.IsPersistent ∧ fixtures.IsPersistent ∧
      settings.IsPersistent ∧ failures.IsPersistent :=
  ⟨isExact_chains.isPersistent, isExact_payloads.isPersistent, isExact_fixtures.isPersistent,
    isExact_settings.isPersistent, isExact_failures.isPersistent⟩

example : settings.rewrite? compact "[5000, 7]" =
    settings.rewrite? compact " \x7b\"accept_expired\": true, \"lookup_timeout_ms\": 7\x7d" := by
  decide +kernel

end Form

end AccessWindows
