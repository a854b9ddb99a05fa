import AccessWindows.Forms.Credential
import AccessWindows.Forms.Outcome
import AccessWindows.Proofs.Identity
import AccessWindows.Proofs.Paths
import AccessWindows.Proofs.PermissionText

/-!
# Written forms — what is written is read back

Each value is found in its written form again, in whatever notation, because the one form that is
written is one that every notation reads alike.  A record is written with its fields by name, each
once and in their order, so that reading yields just these fields (`fields?_record`); the rest is a
matter of the single fields.
-/

namespace AccessWindows

open Document

/-! ### Records -/

/-- If each item is read back, so is the list. -/
theorem mapM_map_eq_some {α β : Type} {f : β → Option α} {g : α → β} {xs : List α}
    (h : ∀ x ∈ xs, f (g x) = some x) : (xs.map g).mapM f = some xs := by
  induction xs with
  | nil => rfl
  | cons x xs ih =>
      obtain ⟨hx, hxs⟩ := List.forall_mem_cons.mp h
      rw [List.map_cons, List.mapM_cons, hx, ih hxs]
      rfl

namespace Document

variable {fs entries : Fields} {name : String} {v : Value}

/-- A field that is not there is not found. -/
theorem Fields.get?_eq_none (h : name ∉ fs.map Prod.fst) : fs.get? name = none := by
  refine List.lookup_eq_none_iff.mpr fun e he => bne_iff_ne.mpr ?_
  rintro rfl
  exact h (List.mem_map_of_mem he)

/-- A field that is there once is found. -/
theorem Fields.get?_eq_some (hnd : (fs.map Prod.fst).Nodup) (h : (name, v) ∈ fs) :
    fs.get? name = some v := by
  obtain ⟨before, after, rfl⟩ := List.append_of_mem h
  rw [List.map_append, List.map_cons, List.nodup_append] at hnd
  refine List.lookup_eq_some_iff.mpr ⟨before, after, rfl, fun e he => bne_iff_ne.mpr ?_⟩
  rintro rfl
  exact hnd.2.2 _ (List.mem_map_of_mem he) _ List.mem_cons_self rfl

section field

variable {α : Type} {read : Value → Option α} {a : α}

/-- A field that is there once is read as what its value is read as. -/
theorem Fields.required_eq (hnd : (fs.map Prod.fst).Nodup) (name : String) (hread : read v = some a)
    (h : (name, v) ∈ fs) : fs.required name read = some a := by
  rw [required, get?_eq_some hnd h]
  exact hread

/-- What a field would be if it were not given does not matter if it is. -/
theorem Fields.optional_eq (hnd : (fs.map Prod.fst).Nodup) (name : String) (hread : read v = some a)
    (h : (name, v) ∈ fs) (usual : α) : fs.optional name usual read = some a := by
  rw [optional, get?_eq_some hnd h]
  exact hread

end field

namespace Value

variable {names : List String} {strangers : Strangers}

/-- A field that is not yet there is added behind the others. -/
theorem addField?_name (hname : name ∈ names) (hnew : name ∉ fs.map Prod.fst) :
    addField? names strangers fs (.name name, v) = some (fs ++ [(name, v)]) := by
  have hfield : fieldName? names (.name name) = some (some name) := by
    rw [fieldName?, if_pos (List.contains_iff_mem.mpr hname)]
  simp only [addField?, hfield, Fields.get?_eq_none hnew]
  rfl

/-- Fields gather in the order in which they are written, behind those that are there already. -/
theorem foldlM_addField? (fs : Fields) (hnames : ∀ e ∈ entries, e.1 ∈ names)
    (hnd : ((fs ++ entries).map Prod.fst).Nodup) :
    (entries.map fun e => (Key.name e.1, e.2)).foldlM (addField? names strangers) fs =
      some (fs ++ entries) := by
  induction entries generalizing fs with
  | nil => rw [List.append_nil]; rfl
  | cons e entries ih =>
      obtain ⟨he, hnames⟩ := List.forall_mem_cons.mp hnames
      have hnew : e.1 ∉ fs.map Prod.fst := by
        rw [List.map_append, List.nodup_append] at hnd
        exact fun hm => hnd.2.2 e.1 hm e.1 List.mem_cons_self rfl
      have hsplit : fs ++ e :: entries = (fs ++ [e]) ++ entries := List.append_cons _ _ _
      rw [hsplit] at hnd ⊢
      rw [List.map_cons, List.foldlM_cons, addField?_name he hnew]
      exact ih _ hnames hnd

/-- **Records**: the fields that are written, each once, are the fields that are read. -/
theorem fields?_record {d : Dialect} (hnames : ∀ e ∈ entries, e.1 ∈ names)
    (hnd : (entries.map Prod.fst).Nodup) :
    (record entries).fields? d names strangers = some entries :=
  foldlM_addField? [] hnames hnd

/-- A list is readable if and only if its items are. -/
theorem areReadable_iff {vs : List Value} : areReadable vs ↔ ∀ v ∈ vs, v.isReadable := by
  induction vs with
  | nil => simp [areReadable]
  | cons v vs ih => simp [areReadable, ih]

/-- A record is readable if and only if its values are, since its keys are names. -/
theorem isReadable_record_iff : (record entries).isReadable ↔ ∀ e ∈ entries, e.2.isReadable := by
  rw [record, isReadable]
  induction entries with
  | nil => simp [entriesAreReadable]
  | cons e entries ih => simp [entriesAreReadable, ih]

/-- What is readable can be laid aside in any notation. -/
theorem laidAside?_of_isReadable (d : Dialect) (h : v.isReadable) : laidAside? d v = some v :=
  if_pos (.inr h)

/-- **Choices**: the tag that is written first is taken out, and the rest is left. -/
theorem tagged?_record {d : Dialect} {tag : String} {options : List String}
    (option : String) {i : Nat} (hoption : optionNamed? options (.name option) = some i)
    (hfields : tag ∉ entries.map Prod.fst) (hentries : ∀ e ∈ entries, e.2.isReadable) :
    (record ((tag, .text option) :: entries)).tagged? d tag options = some (i, record entries) := by
  have hother : ∀ e ∈ entries.map fun e => (Key.name e.1, e.2), (e.1 == Key.name tag) = false := by
    intro e he
    obtain ⟨f, hf, rfl⟩ := List.mem_map.mp he
    exact beq_eq_false_iff_ne.mpr fun h => hfields (Key.name.inj h ▸ List.mem_map_of_mem hf)
  have hin : (entries.map fun e => (Key.name e.1, e.2)).filter (fun e => e.1 == Key.name tag) =
      [] := List.filter_eq_nil_iff.mpr fun e he => by simp [hother e he]
  have hout : (entries.map fun e => (Key.name e.1, e.2)).filter (fun e => !(e.1 == Key.name tag)) =
      entries.map fun e => (Key.name e.1, e.2) :=
    List.filter_eq_self.mpr fun e he => by simp [hother e he]
  have htag : tag? d options (.text option) = some i := hoption
  have hrest := laidAside?_of_isReadable d (isReadable_record_iff.mpr hentries)
  rw [record] at hrest
  rw [record, List.map_cons, tagged?]
  simp only [List.filter_cons, beq_self_eq_true, if_true, hin, Bool.not_true, Bool.false_eq_true,
    if_false, hout, htag, hrest]
  rfl

end Value

end Document

/-! ### Maps of texts -/

namespace TextMap

/-- An entry with a key behind all others is placed at the end. -/
theorem place_eq_append {key value : String} {es : List (String × String)}
    (h : ∀ e ∈ es, e.1 < key) : place key value es = es ++ [(key, value)] := by
  induction es with
  | nil => rfl
  | cons e es ih =>
      obtain ⟨he, hes⟩ := List.forall_mem_cons.mp h
      rw [place, if_neg (String.lt_asymm he), if_pos he, ih hes]
      rfl

theorem ext_entries {m m' : TextMap} (h : m.entries = m'.entries) : m = m' := by
  cases m; cases m'; cases h; rfl

/-- Entries by ascending key are placed one behind the other. -/
theorem entries_foldl_insert {es : List (String × String)} (m : TextMap)
    (h : (m.entries ++ es).Pairwise fun a b => a.1 < b.1) :
    (es.foldl (fun m e => m.insert e.1 e.2) m).entries = m.entries ++ es := by
  induction es generalizing m with
  | nil => rw [List.append_nil]; rfl
  | cons e es ih =>
      have hlast : (m.insert e.1 e.2).entries = m.entries ++ [e] :=
        place_eq_append fun x hx => (List.pairwise_append.mp h).2.2 x hx e List.mem_cons_self
      have hsplit : m.entries ++ e :: es = (m.insert e.1 e.2).entries ++ es := by
        rw [hlast, ← List.append_cons]
      rw [hsplit] at h ⊢
      exact ih _ h

/-- A map is made again of its entries. -/
theorem ofList_entries (m : TextMap) : ofList m.entries = m :=
  ext_entries (entries_foldl_insert empty m.ascending)

end TextMap

/-- Maps of texts are read back. -/
theorem Document.Value.textMap?_ofTextMap (m : TextMap) : (ofTextMap m).textMap? = some m := by
  have h : ((m.entries.map fun e => (e.1, Value.text e.2)).map fun e => (Key.name e.1, e.2)).mapM
      (fun e => do return (← keyText? e.1, ← e.2.text?)) = some m.entries := by
    rw [List.map_map]
    exact mapM_map_eq_some fun _ _ => rfl
  rw [ofTextMap, record, textMap?, h]
  exact congrArg some (TextMap.ofList_entries m)

/-! ### Simple values -/

/-- Instants are read back. -/
theorem Timestamp.ofValue?_toValue (t : Timestamp) : ofValue? t.toValue = some t :=
  ofNanos?_nanos t

/-- Hashes are read back. -/
theorem CredentialHash.ofValue?_toValue (h : CredentialHash) : ofValue? h.toValue = some h :=
  congrArg Except.toOption h.ofText_hex

theorem Resource.ofValue?_toValue (r : Resource) : ofValue? r.toValue = some r :=
  congrArg Except.toOption r.ofText_text

theorem Validity.ofValue?_toValue (d : Dialect) (v : Validity) : ofValue? d v.toValue = some v := by
  cases v <;> rfl

theorem Document.Value.text?_text (s : String) : text? (.text s) = some s := rfl

theorem Document.Value.bool?_bool (b : Bool) : bool? (.bool b) = some b := rfl

/-- Numbers of sixty-four bits are read back. -/
theorem Document.Value.word?_toNat (n : UInt64) : word? (.int n.toNat) = some n := by
  have hfits : 0 ≤ (n.toNat : Int) ∧ (n.toNat : Int) < UInt64.size :=
    ⟨Int.natCast_nonneg _, Int.ofNat_lt.mpr n.toNat_lt_size⟩
  rw [word?, int?, Option.bind_eq_bind, Option.bind_some, if_pos hfits, Int.toNat_natCast]
  exact congrArg some UInt64.ofNat_toNat

theorem Principal.ofValue?_toValue (p : Principal) : ofValue? p.toValue = some p := rfl

theorem ResourcePattern.ofValue?_toValue (p : ResourcePattern) : ofValue? p.toValue = some p :=
  congrArg Except.toOption p.ofText_text

/-- A permission is read back from its name, in whatever notation. -/
theorem Permission.ofValue?_toValue (d : Dialect) (p : Permission) :
    ofValue? d p.toValue = some p := by
  cases p <;> rfl

/-- A set of permissions is read back from the list of those in it. -/
theorem PermissionSet.ofValue?_toValue (d : Dialect) (s : PermissionSet) :
    ofValue? d s.toValue = some s := by
  have h : s.toValue.items? (Permission.ofValue? d) = some s.toList :=
    mapM_map_eq_some fun p _ => p.ofValue?_toValue d
  rw [ofValue?, h]
  exact congrArg some s.ofList_toList

/-! ### Credentials -/

namespace Credential

/-- No two fields of a credential have one name. -/
theorem nodup_fields (c : Credential) : (c.fields.map Prod.fst).Nodup := by
  have hnames : c.fields.map Prod.fst = fieldNames := rfl
  rw [hnames]
  decide

/-- The fields of a credential may stand among others. -/
theorem ofFields?_of_subset (d : Dialect) (c : Credential) {fs : Fields}
    (hnd : (fs.map Prod.fst).Nodup) (hfs : c.fields ⊆ fs) : ofFields? d fs = some c := by
  have hget := fun {α : Type} (name : String) {v : Value} {a : α} {read : Value → Option α}
      (hread : read v = some a) (h : (name, v) ∈ c.fields) =>
    Fields.required_eq hnd name hread (hfs h)
  have hissuer := hget "issuer" c.issuer.ofValue?_toValue (by simp [fields])
  have hreceiver := hget "receiver" c.receiver.ofValue?_toValue (by simp [fields])
  have hresource := hget "resource" c.resource.ofValue?_toValue (by simp [fields])
  have hpermissions :=
    hget "permissions" (c.permissions.ofValue?_toValue d) (by simp [fields])
  have hcreated := hget "created_at" c.createdAt.ofValue?_toValue (by simp [fields])
  have hexpires := hget "expires_at" c.expiresAt.ofValue?_toValue (by simp [fields])
  rw [ofFields?, hissuer, hreceiver, hresource, hpermissions, hcreated, hexpires]
  rfl

/-- A credential can stand behind a tag. -/
theorem isReadable_toValue (c : Credential) : c.toValue.isReadable := by
  refine Value.isReadable_record_iff.mpr ?_
  have hpermissions : c.permissions.toValue.isReadable :=
    Value.areReadable_iff.mpr fun v hv => by
      obtain ⟨p, -, rfl⟩ := List.mem_map.mp hv
      rfl
  simp only [fields, List.forall_mem_cons]
  exact ⟨rfl, rfl, rfl, hpermissions, rfl, rfl, List.forall_mem_nil _⟩

/-- **Credentials** are read back, in whatever notation. -/
theorem ofValue?_toValue (d : Dialect) (c : Credential) : ofValue? d c.toValue = some c := by
  have hfields : c.toValue.fields? d fieldNames .ignored = some c.fields :=
    Value.fields?_record (fun _ he => List.mem_map_of_mem he) c.nodup_fields
  rw [ofValue?, hfields]
  exact ofFields?_of_subset d c c.nodup_fields (List.Subset.refl _)

end Credential

/-! ### Chains -/

namespace Slot

theorem ofValue?_resolved (d : Dialect) (c : Credential) :
    ofValue? d (resolved c).toValue = some (.resolved c) := by
  let fs : Fields := [("credential", c.toValue)]
  have hnd : (fs.map Prod.fst).Nodup := by simp [fs]
  have htag : (resolved c).toValue.tagged? d "slot" ["resolved", "unresolved"] =
      some (0, .record fs) :=
    Value.tagged?_record "resolved" (by decide) (by simp)
      (List.forall_mem_singleton.mpr c.isReadable_toValue)
  have hfields : (Value.record fs).fields? .cbor ["credential"] .ignored = some fs :=
    Value.fields?_record (fun _ he => List.mem_map_of_mem he) hnd
  have hcredential :=
    Fields.required_eq hnd "credential" (c.ofValue?_toValue .cbor) List.mem_cons_self
  simp only [ofValue?, htag, Option.bind_eq_bind, Option.bind_some, if_true, hfields, hcredential]
  rfl

theorem ofValue?_unresolved (d : Dialect) (h : CredentialHash) :
    ofValue? d (unresolved h).toValue = some (.unresolved h) := by
  let fs : Fields := [("hash", h.toValue)]
  have hnd : (fs.map Prod.fst).Nodup := by simp [fs]
  have htag : (unresolved h).toValue.tagged? d "slot" ["resolved", "unresolved"] =
      some (1, .record fs) :=
    Value.tagged?_record "unresolved" (by decide) (by simp) (List.forall_mem_singleton.mpr rfl)
  have hfields : (Value.record fs).fields? .cbor ["hash"] .ignored = some fs :=
    Value.fields?_record (fun _ he => List.mem_map_of_mem he) hnd
  have hhash := Fields.required_eq hnd "hash" h.ofValue?_toValue List.mem_cons_self
  simp only [ofValue?, htag, Option.bind_eq_bind, Option.bind_some, Nat.one_ne_zero, if_false,
    hfields, hhash]
  rfl

/-- Slots are read back, in whatever notation. -/
theorem ofValue?_toValue (d : Dialect) (s : Slot) : ofValue? d s.toValue = some s := by
  cases s with
  | resolved c => exact ofValue?_resolved d c
  | unresolved h => exact ofValue?_unresolved d h

end Slot

/-- **Candidate chains** are read back, in whatever notation. -/
theorem CandidateChain.ofValue?_toValue (d : Dialect) (c : CandidateChain) :
    ofValue? d c.toValue = some c := by
  have h : c.toValue.items? (Slot.ofValue? d) = some c.slots :=
    mapM_map_eq_some fun s _ => s.ofValue?_toValue d
  rw [ofValue?, h]
  rfl

/-! ### Failures -/

namespace Failure

/-- The kind decides which fields the body must have. -/
theorem ofValue?_record (kind : String) (body : Fields) :
    ofValue? (.record [(kind, .record body)]) =
      if kind = "Timeout" then do
        let fs ← (Value.record body).fields? .json ["operation", "timeout_ms"] .ignored
        return .timeout (← fs.required "operation" Value.text?)
          (← fs.required "timeout_ms" Value.word?)
      else (do
        let fs ← (Value.record body).fields? .json ["message"] .ignored
        ofKind? kind (← fs.required "message" Value.text?)) :=
  rfl

theorem ofValue?_timeout (operation : String) (milliseconds : UInt64) :
    ofValue? (timeout operation milliseconds).toValue = some (.timeout operation milliseconds) := by
  let fs : Fields := [("operation", .text operation), ("timeout_ms", .int milliseconds.toNat)]
  have hnd : (fs.map Prod.fst).Nodup := by simp [fs]
  have hfields : (Value.record fs).fields? .json ["operation", "timeout_ms"] .ignored = some fs :=
    Value.fields?_record (fun _ he => List.mem_map_of_mem he) hnd
  have hoperation :=
    Fields.required_eq hnd "operation" (Value.text?_text operation) (by simp [fs])
  have hmilliseconds :=
    Fields.required_eq hnd "timeout_ms" (Value.word?_toNat milliseconds) (by simp [fs])
  have hread := ofValue?_record "Timeout" fs
  rw [if_pos rfl] at hread
  refine hread.trans ?_
  rw [hfields, Option.bind_eq_bind, Option.bind_some, hoperation, Option.bind_eq_bind,
    Option.bind_some, hmilliseconds]
  rfl

/-- The kinds with a message differ in their names only. -/
theorem ofValue?_message {kind : String} (m : String) (hkind : kind ≠ "Timeout") :
    ofValue? (.record [(kind, .record [("message", .text m)])]) = ofKind? kind m := by
  let fs : Fields := [("message", .text m)]
  have hnd : (fs.map Prod.fst).Nodup := by simp [fs]
  have hfields : (Value.record fs).fields? .json ["message"] .ignored = some fs :=
    Value.fields?_record (fun _ he => List.mem_map_of_mem he) hnd
  have hmessage := Fields.required_eq hnd "message" (Value.text?_text m) List.mem_cons_self
  have hread := ofValue?_record kind fs
  rw [if_neg hkind] at hread
  refine hread.trans ?_
  simp only [hfields, Option.bind_eq_bind, Option.bind_some, hmessage]

/-- **Failures** are read back. -/
theorem ofValue?_toValue (f : Failure) : ofValue? f.toValue = some f := by
  cases f with
  | timeout operation milliseconds => exact ofValue?_timeout operation milliseconds
  | invalid m | notFound m | network m | serialization m | storage m | internal m =>
      exact ofValue?_message m (by rw [kind]; decide)

end Failure

end AccessWindows
