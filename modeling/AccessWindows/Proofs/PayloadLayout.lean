import AccessWindows.Proofs.Cbor.Layout
import AccessWindows.Proofs.Payload
import Mathlib.Data.List.Nodup

/-!
# Payloads — layout

The tables of a payload may have their entries in any order and hold others beside them
(`Document.Arranges`), and the bytes may be any spelling of the document (`Cbor.Spells`).  What is
read does not depend on this: wherever the tag stands, it is taken out, and of the rest the fields
are those that are known (`fields?_ignored`).

Each field that is known must be there once (`Document.Once`): without it, or with two of it, there
is no payload (`decode_of_layout`).
-/

namespace AccessWindows

open Document Cbor

namespace Document

variable {fs fields entries : Fields} {names : List String} {name : String} {v : Value}
  {strangers : Strangers}

/-- The same entries in any order, among others that have none of their names. -/
def Arranges (fields entries : Fields) : Prop :=
  ∃ strangers : Fields, (∀ e ∈ strangers, e.1 ∉ fields.map Prod.fst) ∧
    entries.Perm (fields ++ strangers)

/-- Exactly one entry has the name. -/
def Once (entries : Fields) (name : String) : Prop := (entries.map Prod.fst).count name = 1

/-- The entries with one of the names. -/
def known (names : List String) (entries : Fields) : Fields := entries.filter fun e => e.1 ∈ names

/-! ### Known fields -/

theorem known_cons_of_mem {e : String × Value} (h : e.1 ∈ names) :
    known names (e :: entries) = e :: known names entries := List.filter_cons_of_pos (by simpa)

theorem known_cons_of_not_mem {e : String × Value} (h : e.1 ∉ names) :
    known names (e :: entries) = known names entries := List.filter_cons_of_neg (by simpa)

/-- The fields are found among the entries, up to order. -/
theorem Arranges.known_perm (h : Arranges fields entries) (hnames : fields.map Prod.fst = names) :
    (known names entries).Perm fields := by
  obtain ⟨strangers, hstrangers, hperm⟩ := h
  rw [hnames] at hstrangers
  refine (hperm.filter _).trans ?_
  rw [List.filter_append, List.filter_eq_self.mpr, List.filter_eq_nil_iff.mpr, List.append_nil]
  · simpa using hstrangers
  · intro e he
    rw [← hnames]
    exact decide_eq_true (List.mem_map_of_mem he)

/-- Without the entry of a tag, the other entries are left as they are arranged. -/
theorem Arranges.untag {tag : String} (h : Arranges ((tag, v) :: fields) entries)
    (htag : tag ∉ fields.map Prod.fst) :
    entries.filter (fun e => e.1 = tag) = [(tag, v)] ∧
      Arranges fields (entries.filter fun e => e.1 ≠ tag) := by
  obtain ⟨strangers, hstrangers, hperm⟩ := h
  -- the tag is neither a field nor, being one of the names, that of a stranger
  have hother : ∀ e ∈ fields ++ strangers, e.1 ≠ tag := by
    rintro e he rfl
    rcases List.mem_append.mp he with he | he
    · exact htag (List.mem_map_of_mem he)
    · exact hstrangers e he List.mem_cons_self
  have hnone : (fields ++ strangers).filter (fun e => e.1 = tag) = [] :=
    List.filter_eq_nil_iff.mpr fun e he => by simpa using hother e he
  have hall : (fields ++ strangers).filter (fun e => e.1 ≠ tag) = fields ++ strangers :=
    List.filter_eq_self.mpr fun e he => by simpa using hother e he
  constructor
  · have hin := hperm.filter (fun e => e.1 = tag)
    rw [List.cons_append, List.filter_cons_of_pos (by simp), hnone] at hin
    exact List.perm_singleton.mp hin
  · have hout := hperm.filter (fun e => e.1 ≠ tag)
    rw [List.cons_append, List.filter_cons_of_neg (by simp), hall] at hout
    exact ⟨strangers, fun e he hmem => hstrangers e he (List.mem_cons_of_mem _ hmem), hout⟩

/-- Taking out entries by their names leaves the others as often as they were. -/
theorem once_filter_iff {p : String → Bool} (hp : p name = true) :
    Once (entries.filter fun e => p e.1) name ↔ Once entries name := by
  have hkeys : (entries.filter fun e => p e.1).map Prod.fst = (entries.map Prod.fst).filter p := by
    rw [List.filter_map]
    rfl
  rw [Once, hkeys, List.count_filter hp, Once]

namespace Value

/-- A field that is given again is refused. -/
theorem addField?_again (hname : name ∈ names) (hold : name ∈ fs.map Prod.fst) :
    addField? names strangers fs (.name name, v) = none := by
  have hfield : fieldName? names (.name name) = some (some name) := by
    rw [fieldName?, if_pos (List.contains_iff_mem.mpr hname)]
  have hget : (fs.get? name).isSome = true := by
    obtain ⟨e, he, rfl⟩ := List.mem_map.mp hold
    exact List.lookup_isSome_iff.mpr ⟨e, he, beq_self_eq_true e.1⟩
  simp only [addField?, hfield, hget, if_true]

/-- A name that no field has is passed over. -/
theorem addField?_stranger (hname : name ∉ names) :
    addField? names .ignored fs (.name name, v) = some fs := by
  have hfield : fieldName? names (.name name) = some none := by
    rw [fieldName?, if_neg (mt List.contains_iff_mem.mp hname)]
  simp only [addField?, hfield, reduceCtorEq, if_false]

/-- Known fields gather behind those in front as long as none repeats. -/
theorem foldlM_addField?_ignored (hnd : (fs.map Prod.fst).Nodup) :
    (entries.map fun e => (Key.name e.1, e.2)).foldlM (addField? names .ignored) fs =
      if ((fs ++ known names entries).map Prod.fst).Nodup then some (fs ++ known names entries)
      else none := by
  -- `fs` are the fields in front, so that a name among them is one that is given again
  induction entries generalizing fs with
  | nil => rw [known, List.filter_nil, List.append_nil, if_pos hnd]; rfl
  | cons e entries ih =>
      rw [List.map_cons, List.foldlM_cons]
      by_cases hknown : e.1 ∈ names
      · rw [known_cons_of_mem hknown]
        by_cases hold : e.1 ∈ fs.map Prod.fst
        · rw [addField?_again hknown hold, if_neg]
          · rfl
          · rw [List.map_append, List.nodup_append]
            exact fun h => h.2.2 e.1 hold e.1 List.mem_cons_self rfl
        · have hnd' : ((fs ++ [e]).map Prod.fst).Nodup := by
            rw [List.map_append]
            simpa using hnd.concat hold
          rw [addField?_name hknown hold, List.append_cons fs e (known names entries)]
          exact ih hnd'
      · rw [known_cons_of_not_mem hknown, addField?_stranger hknown]
        exact ih hnd

/-- **Fields** are those that are known, each of them once. -/
theorem fields?_ignored {d : Dialect} :
    (record entries).fields? d names .ignored =
      if ((known names entries).map Prod.fst).Nodup then some (known names entries) else none :=
  foldlM_addField?_ignored List.nodup_nil

/-- If fields are read at all, they are the known ones, each of them once. -/
theorem known_of_fields? {d : Dialect}
    (h : (record entries).fields? d names .ignored = some fs) :
    (fs.map Prod.fst).Nodup ∧ fs = known names entries := by
  rw [fields?_ignored, Option.ite_none_right_eq_some] at h
  obtain ⟨hnd, he⟩ := h
  cases he
  exact ⟨hnd, rfl⟩

/-- The entries of a record are its known fields, in any order and among others. -/
theorem fields?_of_arranges {d : Dialect} (hnd : (fields.map Prod.fst).Nodup)
    (hnames : fields.map Prod.fst = names) (h : Arranges fields entries) :
    ∃ fs, (record entries).fields? d names .ignored = some fs ∧ fs.Perm fields := by
  have hperm := h.known_perm hnames
  refine ⟨known names entries, ?_, hperm⟩
  rw [fields?_ignored, if_pos ((hperm.map Prod.fst).nodup_iff.mpr hnd)]

/-- A known field that is not there once is not there to be read. -/
theorem get?_of_not_once {d : Dialect} (hname : name ∈ names) (honce : ¬ Once entries name)
    (h : (record entries).fields? d names .ignored = some fs) : fs.get? name = none := by
  obtain ⟨hnd, rfl⟩ := known_of_fields? h
  refine Fields.get?_eq_none fun hmem => honce ?_
  exact (once_filter_iff (p := (· ∈ names)) (decide_eq_true hname)).mp
    (List.count_eq_one_of_mem hnd hmem)

/-! ### Tags -/

/-- **Choices**: there must be one tag, and the rest is left. -/
theorem tagged?_record_eq {tag : String} {options : List String} :
    (record entries).tagged? .cbor tag options =
      match entries.filter (fun e => e.1 = tag) with
      | [e] => (tag? .cbor options e.2).map (·, record (entries.filter fun e => e.1 ≠ tag))
      | _ => none := by
  have hkey : ∀ e : String × Value, (Key.name e.1 == Key.name tag) = decide (e.1 = tag) :=
    fun e => by rw [Bool.eq_iff_iff]; simp
  have hin : (entries.map fun e => (Key.name e.1, e.2)).filter (fun e => e.1 == Key.name tag) =
      (entries.filter fun e => e.1 = tag).map fun e => (Key.name e.1, e.2) := by
    rw [List.filter_map]
    exact congrArg _ (List.filter_congr fun e _ => hkey e)
  have hout : (entries.map fun e => (Key.name e.1, e.2)).filter (fun e => !(e.1 == Key.name tag)) =
      (entries.filter fun e => e.1 ≠ tag).map fun e => (Key.name e.1, e.2) := by
    rw [List.filter_map]
    exact congrArg _ (List.filter_congr fun e _ => by simp [hkey e])
  rw [record, tagged?]
  simp only [hin, hout]
  cases h : entries.filter (fun e => e.1 = tag) with
  | nil => rfl
  | cons e es =>
      cases es with
      | nil => exact Option.map_eq_bind.symm
      | cons e' es => rfl

/-- A tag is found wherever it stands, and the rest is left as it is arranged. -/
theorem tagged?_of_arranges {tag option : String} {options : List String} {i : Nat}
    (hoption : optionNamed? options (.name option) = some i) (htag : tag ∉ fields.map Prod.fst)
    (h : Arranges ((tag, .text option) :: fields) entries) :
    ∃ rest, (record entries).tagged? .cbor tag options = some (i, record rest) ∧
      Arranges fields rest := by
  obtain ⟨hin, hout⟩ := h.untag htag
  refine ⟨_, ?_, hout⟩
  have htag? : tag? .cbor options (.text option) = some i := hoption
  rw [tagged?_record_eq, hin]
  dsimp only
  rw [htag?]
  rfl

/-- Without a tag, or with two of them, nothing is chosen. -/
theorem tagged?_of_not_once {tag : String} {options : List String} (h : ¬ Once entries tag) :
    (record entries).tagged? .cbor tag options = none := by
  rw [tagged?_record_eq]
  split
  next e he =>
      refine absurd ?_ h
      rw [Once, List.count_eq_length_filter, List.filter_map, List.length_map]
      exact congrArg List.length he
  next => rfl

/-- If an option is in the tag, it is the one that is chosen. -/
theorem eq_of_tagged? {tag option : String} {options : List String} {i j : Nat}
    {body : Value} (hoption : optionNamed? options (.name option) = some i)
    (hmem : (tag, .text option) ∈ entries)
    (h : (record entries).tagged? .cbor tag options = some (j, body)) :
    j = i ∧ body = record (entries.filter fun e => e.1 ≠ tag) := by
  have htag? : tag? .cbor options (.text option) = some i := hoption
  rw [tagged?_record_eq] at h
  split at h
  next e he =>
      have hmem' : (tag, Value.text option) ∈ entries.filter (fun e => e.1 = tag) :=
        List.mem_filter.mpr ⟨hmem, decide_eq_true rfl⟩
      rw [he, List.mem_singleton] at hmem'
      subst hmem'
      rw [htag?] at h
      cases h
      exact ⟨rfl, rfl⟩
  next => cases h

end Value

end Document

/-! ### Credentials -/

/-- All the fields of a credential must be given. -/
theorem Credential.get?_ne_none {d : Dialect} {fs : Fields} {c : Credential} {name : String}
    (h : ofFields? d fs = some c) (hname : name ∈ fieldNames) : fs.get? name ≠ none := by
  simp only [ofFields?, Fields.required, Option.bind_eq_bind, Option.bind_eq_some_iff] at h
  obtain ⟨_, ⟨_, hissuer, -⟩, _, ⟨_, hreceiver, -⟩, _, ⟨_, hresource, -⟩, _, ⟨_, hpermissions, -⟩,
    _, ⟨_, hcreated, -⟩, _, ⟨_, hexpires, -⟩, -⟩ := h
  simp only [fieldNames, List.mem_cons, List.not_mem_nil, or_false] at hname
  rcases hname with rfl | rfl | rfl | rfl | rfl | rfl
  · simp [hissuer]
  · simp [hreceiver]
  · simp [hresource]
  · simp [hpermissions]
  · simp [hcreated]
  · simp [hexpires]

/-- A credential is read from its fields in any order, among others or not. -/
theorem Credential.ofValue?_of_arranges (d : Dialect) {c : Credential} {inner : Fields}
    (h : Arranges c.fields inner) : ofValue? d (.record inner) = some c := by
  obtain ⟨fs, hfields, hperm⟩ := Value.fields?_of_arranges (d := d) c.nodup_fields rfl h
  have hnd : (fs.map Prod.fst).Nodup := (hperm.map Prod.fst).nodup_iff.mpr c.nodup_fields
  rw [ofValue?]
  exact Option.bind_eq_some_iff.mpr ⟨fs, hfields, ofFields?_of_subset d c hnd hperm.symm.subset⟩

/-- Without one of its fields, or with two of it, there is no credential. -/
theorem Credential.ofValue?_of_not_once (d : Dialect) {inner : Fields} {name : String}
    (hname : name ∈ fieldNames) (honce : ¬ Once inner name) :
    ofValue? d (.record inner) = none := by
  rw [ofValue?]
  refine Option.bind_eq_none_iff.mpr fun fs hfields => ?_
  by_contra hsome
  obtain ⟨c, hc⟩ := Option.ne_none_iff_exists'.mp hsome
  exact get?_ne_none hc hname (Value.get?_of_not_once hname honce hfields)

namespace Payload

/-! ### Payloads -/

/-- The fields of an access payload, with a credential laid out in some way. -/
def accessFields (version : UInt8) (credential : Value) : Fields :=
  [("kind", .text "access"), ("version", .int version.toNat), ("credential", credential)]

/-- An access payload is read from its fields in any order, and those of its credential. -/
theorem ofValue?_of_arranges {version : UInt8} {c : Credential} {inner outer : Fields}
    (hinner : Arranges c.fields inner)
    (houter : Arranges (accessFields version (.record inner)) outer) :
    ofValue? .cbor (.record outer) = some (.access version c) := by
  let fields : Fields := [("version", .int version.toNat), ("credential", .record inner)]
  have hnd : (fields.map Prod.fst).Nodup := by simp [fields]
  obtain ⟨rest, htag, hrest⟩ : ∃ rest, (Value.record outer).tagged? .cbor "kind"
      ["access", "permission"] = some (0, .record rest) ∧ Arranges fields rest :=
    Value.tagged?_of_arranges (by decide) (by simp [fields]) houter
  obtain ⟨fs, hfields, hperm⟩ := Value.fields?_of_arranges (d := .cbor) hnd rfl hrest
  have hfs : (fs.map Prod.fst).Nodup := (hperm.map Prod.fst).nodup_iff.mpr hnd
  have hversion := Fields.required_eq hfs "version" (version?_toNat version)
    (hperm.mem_iff.mpr List.mem_cons_self)
  have hcredential := Fields.required_eq hfs "credential"
    (Credential.ofValue?_of_arranges .cbor hinner) (hperm.mem_iff.mpr (by simp [fields]))
  have hnames : fields.map Prod.fst = ["version", "credential"] := rfl
  rw [hnames] at hfields
  simp only [ofValue?, htag, Option.bind_eq_bind, Option.bind_some, if_true, hfields, hversion,
    hcredential]
  rfl

/-- A field is missing or there twice, of the payload or of the credential in it. -/
inductive Miscounts (outer : Fields) : Prop
  | kind (h : ¬ Once outer "kind")
  | field (hkind : ("kind", .text "access") ∈ outer) {name : String}
      (hname : name ∈ ["version", "credential"]) (h : ¬ Once outer name)
  | credential (hkind : ("kind", .text "access") ∈ outer) {inner : Fields}
      (hinner : ("credential", .record inner) ∈ outer) {name : String}
      (hname : name ∈ Credential.fieldNames) (h : ¬ Once inner name)

/-- What an access payload was read from. -/
theorem exists_fields_of_ofValue? {outer : Fields} {p : Payload}
    (hkind : ("kind", .text "access") ∈ outer) (h : ofValue? .cbor (.record outer) = some p) :
    ∃ fs, (Value.record (outer.filter fun e => e.1 ≠ "kind")).fields? .cbor
        ["version", "credential"] .ignored = some fs ∧
      fs.get? "version" ≠ none ∧
      ∃ v c, fs.get? "credential" = some v ∧ Credential.ofValue? .cbor v = some c := by
  obtain ⟨⟨i, body⟩, htag, h⟩ := Option.bind_eq_some_iff.mp h
  obtain ⟨rfl, rfl⟩ := Value.eq_of_tagged? (i := 0) (by decide) hkind htag
  dsimp only at h
  rw [if_pos rfl] at h
  simp only [Fields.required, Option.bind_eq_bind, Option.bind_eq_some_iff] at h
  obtain ⟨fs, hfields, _, ⟨_, hversion, -⟩, c, ⟨v, hcredential, hc⟩, -⟩ := h
  exact ⟨fs, hfields, by simp [hversion], v, c, hcredential, hc⟩

/-- Without one of the fields, or with two of it, there is no payload. -/
theorem ofValue?_of_miscounts {outer : Fields} (h : Miscounts outer) :
    ofValue? .cbor (.record outer) = none := by
  cases h with
  | kind h => rw [ofValue?, Value.tagged?_of_not_once h]; rfl
  | @field hkind name hname h =>
      refine Option.eq_none_iff_forall_ne_some.mpr fun p hp => ?_
      obtain ⟨fs, hfields, hversion, v, c, hcredential, -⟩ := exists_fields_of_ofValue? hkind hp
      -- what the tag leaves has the field as often as the whole
      have hne : name ≠ "kind" := by rintro rfl; simp at hname
      have hnone := Value.get?_of_not_once hname
        (mt (once_filter_iff (p := (· ≠ "kind")) (decide_eq_true hne)).mp h) hfields
      simp only [List.mem_cons, List.not_mem_nil, or_false] at hname
      rcases hname with rfl | rfl
      · exact hversion hnone
      · rw [hnone] at hcredential
        cases hcredential
  | @credential hkind inner hinner name hname h =>
      refine Option.eq_none_iff_forall_ne_some.mpr fun p hp => ?_
      obtain ⟨fs, hfields, -, v, c, hcredential, hc⟩ := exists_fields_of_ofValue? hkind hp
      obtain ⟨hnd, rfl⟩ := Value.known_of_fields? hfields
      have hmem : ("credential", .record inner) ∈
          known ["version", "credential"] (outer.filter fun e => e.1 ≠ "kind") := by
        simp [known, hinner]
      rw [Fields.get?_eq_some hnd hmem, Option.some.injEq] at hcredential
      rw [← hcredential, Credential.ofValue?_of_not_once .cbor hname h] at hc
      cases hc

/-- **Layout does not matter.**  An access payload is decoded from its fields in any order, among
others or not, the fields of its credential likewise, and from all spellings of the document that
this makes.  Without one of the fields, or with two of it, no payload is decoded. -/
theorem decode_of_layout (outer : Fields) (b : List UInt8)
    (hb : Spells depthLimit (.record outer) b) :
    (∀ version c inner, Arranges c.fields inner →
        Arranges (accessFields version (.record inner)) outer →
          decode b = .ok (.access version c)) ∧
      (Miscounts outer → decode b = .error (.serialization "Failed to decode credential")) := by
  have hread : decode? b = ofValue? .cbor (.record outer) := by
    rw [decode?, read?_of_spells hb]
    rfl
  constructor
  · intro version c inner hinner houter
    rw [decode, hread, ofValue?_of_arranges hinner houter]
  · intro h
    rw [decode, hread, ofValue?_of_miscounts h]

namespace Sample

/-- In force about the start of 1970. -/
def lease : Credential where
  issuer := ⟨"ann"⟩
  receiver := ⟨"bob"⟩
  resource := Resource.toPattern ⟨["orchard"], by decide, by decide⟩
  permissions := .ofList [.read]
  createdAt := ⟨-7, by decide, by decide⟩
  expiresAt := ⟨7, by decide, by decide⟩

/-- An entry whose value has these bytes. -/
def entry (name : String) (value : Value) (valueBytes : List UInt8) : Entry :=
  ⟨name, value, writeText name, valueBytes⟩

/-- A head of eight bytes behind the first. -/
def wideHead (kind n : Nat) : List UInt8 := (32 * kind + 27).toUInt8 :: bigEndian 8 n

/-- Backwards, with a field of the payload in front, and instants in more bytes than they need. -/
def leaseEntries : List Entry :=
  [entry "kind" (.text "loan") (writeText "loan"),
    entry "expires_at" (.int 7) (wideHead 0 7),
    entry "created_at" (.int (-7)) (wideHead 1 6),
    entry "permissions" lease.permissions.toValue (write lease.permissions.toValue),
    entry "resource" lease.resource.toValue (writeText lease.resource.text),
    entry "receiver" (.text "bob") (writeText "bob"),
    entry "issuer" (.text "ann") (writeText "ann")]

def leaseFields : Fields := leaseEntries.map Entry.field

def leaseBytes : List UInt8 :=
  wideHead 5 leaseEntries.length ++ leaseEntries.flatMap Entry.bytes

/-- Backwards, so that the tag is the last, and with a field of the credential in front. -/
def payloadEntries : List Entry :=
  [entry "issuer" (.text "eve") (writeText "eve"),
    entry "credential" (.record leaseFields) leaseBytes,
    entry "version" (.int 1) (wideHead 0 1),
    entry "kind" (.text "access") (writeText "access")]

/-- The entries as an open table. -/
def openTable (entries : List Entry) : List UInt8 :=
  openHead 5 :: (entries.flatMap Entry.bytes ++ [0xff])

theorem isHead_wideHead {kind n : Nat} (h : n < 256 ^ 8) : IsHead kind n (wideHead kind n) :=
  .wide 27 8 (by decide) h

theorem spells_writeText {depth : Nat} {s : String} (h : (Utf8.encode s).length < UInt64.size) :
    Spells depth (.text s) (writeText s) := .text (spellsText_writeText h)

/-- Every name is spelled as it would be written. -/
theorem spellsText_nameBytes : ∀ e ∈ leaseEntries ++ payloadEntries,
    SpellsText e.name e.nameBytes := by
  have hwritten : ∀ e ∈ leaseEntries ++ payloadEntries,
      e.nameBytes = writeText e.name ∧ (Utf8.encode e.name).length < UInt64.size := by
    decide +kernel
  intro e he
  rw [(hwritten e he).1]
  exact spellsText_writeText (hwritten e he).2

/-- The bytes of the credential spell its document. -/
theorem spells_leaseBytes : Spells 126 (.record leaseFields) leaseBytes := by
  have hcreated : Spells 125 (.int (-7)) (wideHead 1 6) :=
    .negative (n := 6) (by decide) (isHead_wideHead (by decide))
  have hpermissions : Portable 125 lease.permissions.toValue := by
    intro v hv
    obtain ⟨p, -, rfl⟩ := List.mem_map.mp hv
    exact portable_text _ _
  refine .table (fun e he => spellsText_nameBytes e (List.mem_append_left _ he)) ?_
    (.sized (isHead_wideHead (by decide)))
  simp only [leaseEntries, List.forall_mem_cons]
  exact ⟨spells_writeText (by decide +kernel), .natural (isHead_wideHead (by decide)), hcreated,
    .written hpermissions, spells_writeText (by decide +kernel),
    spells_writeText (by decide +kernel), spells_writeText (by decide +kernel),
    List.forall_mem_nil _⟩

/-- Entries of the payload may be spelled as an open table. -/
theorem spells_openTable {es : List Entry} (hes : es ⊆ payloadEntries) :
    Spells depthLimit (.record (es.map Entry.field)) (openTable es) := by
  have hvalues : ∀ e ∈ payloadEntries, Spells 126 e.value e.valueBytes := by
    simp only [payloadEntries, List.forall_mem_cons]
    exact ⟨spells_writeText (by decide +kernel), spells_leaseBytes,
      .natural (isHead_wideHead (by decide)), spells_writeText (by decide +kernel),
      List.forall_mem_nil _⟩
  exact .table (fun e he => spellsText_nameBytes e (List.mem_append_right _ (hes he)))
    (fun e he => hvalues e (hes he)) .opened

end Sample

open Sample

/-- Nothing stands where it would be written, and the payload is decoded; not so without its tag. -/
theorem decode_of_backwards :
    Spells depthLimit (.record (payloadEntries.map Entry.field)) (openTable payloadEntries) ∧
      Arranges lease.fields leaseFields ∧
      Arranges (accessFields 1 (.record leaseFields)) (payloadEntries.map Entry.field) ∧
      decode (openTable payloadEntries) = .ok (.access 1 lease) ∧
      Miscounts (payloadEntries.dropLast.map Entry.field) ∧
      decode (openTable payloadEntries.dropLast) =
        .error (.serialization "Failed to decode credential") := by
  have hlease : leaseFields = (lease.fields ++ [("kind", Value.text "loan")]).reverse := rfl
  have hpayload : payloadEntries.map Entry.field =
      (accessFields 1 (.record leaseFields) ++ [("issuer", Value.text "eve")]).reverse := rfl
  have hinner : Arranges lease.fields leaseFields :=
    ⟨[("kind", .text "loan")], by decide, hlease ▸ List.reverse_perm _⟩
  have houter : Arranges (accessFields 1 (.record leaseFields))
      (payloadEntries.map Entry.field) :=
    ⟨[("issuer", .text "eve")], by decide, hpayload ▸ List.reverse_perm _⟩
  have hwhole := spells_openTable (List.Subset.refl _)
  have huntagged : Miscounts (payloadEntries.dropLast.map Entry.field) :=
    .kind (show ¬ (_ : Nat) = 1 by decide)
  exact ⟨hwhole, hinner, houter, (decode_of_layout _ _ hwhole).1 _ _ _ hinner houter, huntagged,
    (decode_of_layout _ _ (spells_openTable (List.dropLast_subset _))).2 huntagged⟩

end Payload

end AccessWindows
