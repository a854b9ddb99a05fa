import AccessWindows.Payload
import AccessWindows.Proofs.Cbor.Delimiting
import AccessWindows.Proofs.Forms
import AccessWindows.Proofs.Resolution.Lookup

/-!
# Payloads — encoding loses nothing

The document of a payload is read back as the payload (`ofValue?_toValue`), and it is portable, so
that its bytes are read back as the document (`portable_toValue`).  Hence a payload is decoded from
its own bytes, whatever texts, numbers and maps it holds, and a credential from the bytes and the
hash under which it is stored (`encode_lossless`).

A payload is one document, and a document says where it ends.  So bytes that hold a payload hold
none any more when something is cut off them or added to them (`decode_self_delimiting`).
-/

namespace AccessWindows

open Document Cbor

namespace Payload

/-! ### The document of a payload -/

theorem version?_toNat (version : UInt8) : version? (.int version.toNat) = some version := by
  have hlt : version.toNat < 256 := version.toNat_lt
  have hback : version.toNat.toUInt8 = version := UInt8.ofNat_toNat
  simp only [version?, Value.int?, Option.bind_eq_bind, Option.bind_some, Int.toNat_natCast, hback]
  exact if_pos (by omega)

theorem ofValue?_access (d : Dialect) (version : UInt8) (c : Credential) :
    ofValue? d (access version c).toValue = some (.access version c) := by
  let fs : Fields := [("version", .int version.toNat), ("credential", c.toValue)]
  have hnd : (fs.map Prod.fst).Nodup := by simp [fs]
  have htag : (access version c).toValue.tagged? d "kind" ["access", "permission"] =
      some (0, .record fs) :=
    Value.tagged?_record "access" (by decide) (by simp) <| by
      simp only [List.forall_mem_cons]
      exact ⟨rfl, c.isReadable_toValue, List.forall_mem_nil _⟩
  have hfields : (Value.record fs).fields? .cbor ["version", "credential"] .ignored = some fs :=
    Value.fields?_record (fun _ he => List.mem_map_of_mem he) hnd
  have hversion := Fields.required_eq hnd "version" (version?_toNat version) (by simp [fs])
  have hcredential :=
    Fields.required_eq hnd "credential" (c.ofValue?_toValue .cbor) (by simp [fs])
  simp only [ofValue?, htag, Option.bind_eq_bind, Option.bind_some, if_true, hfields, hversion,
    hcredential]
  rfl

theorem ofValue?_permission (d : Dialect) (issuer receiver : Principal) (grants : TextMap)
    (createdAt expiresAt : Timestamp) :
    ofValue? d (permission issuer receiver grants createdAt expiresAt).toValue =
      some (.permission issuer receiver grants createdAt expiresAt) := by
  let fs : Fields := [("issuer", issuer.toValue), ("receiver", receiver.toValue),
    ("grants", .ofTextMap grants), ("created_at", createdAt.toValue),
    ("expires_at", expiresAt.toValue)]
  have hnd : (fs.map Prod.fst).Nodup := by simp [fs]
  have hgrants : (Value.ofTextMap grants).isReadable :=
    Value.isReadable_record_iff.mpr fun e he => by
      obtain ⟨_, -, rfl⟩ := List.mem_map.mp he
      rfl
  have htag : (permission issuer receiver grants createdAt expiresAt).toValue.tagged? d "kind"
      ["access", "permission"] = some (1, .record fs) :=
    Value.tagged?_record "permission" (by decide) (by simp) <| by
      simp only [List.forall_mem_cons]
      exact ⟨rfl, rfl, hgrants, rfl, rfl, List.forall_mem_nil _⟩
  have hfields : (Value.record fs).fields? .cbor
      ["issuer", "receiver", "grants", "created_at", "expires_at"] .ignored = some fs :=
    Value.fields?_record (fun _ he => List.mem_map_of_mem he) hnd
  have hissuer := Fields.required_eq hnd "issuer" issuer.ofValue?_toValue (by simp [fs])
  have hreceiver := Fields.required_eq hnd "receiver" receiver.ofValue?_toValue (by simp [fs])
  have hgrants := Fields.required_eq hnd "grants" (Value.textMap?_ofTextMap grants) (by simp [fs])
  have hcreated := Fields.required_eq hnd "created_at" createdAt.ofValue?_toValue (by simp [fs])
  have hexpires := Fields.required_eq hnd "expires_at" expiresAt.ofValue?_toValue (by simp [fs])
  simp only [ofValue?, htag, Option.bind_eq_bind, Option.bind_some, Nat.one_ne_zero, if_false,
    hfields, hissuer, hreceiver, hgrants, hcreated, hexpires]
  rfl

/-- **Payloads** are read back from their documents, in whatever notation. -/
theorem ofValue?_toValue (d : Dialect) (p : Payload) : ofValue? d p.toValue = some p := by
  cases p with
  | access version c => exact ofValue?_access d version c
  | permission issuer receiver grants createdAt expiresAt =>
      exact ofValue?_permission d issuer receiver grants createdAt expiresAt

/-! ### The bytes of a payload -/

theorem portable_record {depth : Nat} {entries : List (String × Value)}
    (h : ∀ e ∈ entries, Portable depth e.2) : Portable (depth + 1) (.record entries) := by
  intro e he
  obtain ⟨f, hf, rfl⟩ := List.mem_map.mp he
  exact ⟨⟨f.1, rfl⟩, h f hf⟩

theorem portable_text (depth : Nat) (s : String) : Portable depth (.text s) := by
  cases depth <;> trivial

theorem portable_timestamp (depth : Nat) (t : Timestamp) : Portable depth t.toValue := by
  have h : -9223372036854775808 ≤ t.nanos ∧ t.nanos < 18446744073709551616 :=
    ⟨t.min_le, Int.lt_of_le_of_lt t.le_max (by decide)⟩
  cases depth <;> exact h

theorem portable_credential (depth : Nat) (c : Credential) : Portable (depth + 2) c.toValue := by
  refine portable_record fun e he => ?_
  simp only [Credential.fields, List.mem_cons, List.not_mem_nil, or_false] at he
  rcases he with rfl | rfl | rfl | rfl | rfl | rfl
  · exact portable_text _ _
  · exact portable_text _ _
  · exact portable_text _ _
  · intro v hv
    obtain ⟨p, -, rfl⟩ := List.mem_map.mp hv
    exact portable_text _ _
  · exact portable_timestamp _ _
  · exact portable_timestamp _ _

/-- The document of a payload nests three deep: the credential in it, the permissions in that. -/
theorem portable_toValue (depth : Nat) (p : Payload) : Portable (depth + 3) p.toValue := by
  cases p with
  | access version c =>
      have hversion : (version.toNat : Int) < 18446744073709551616 := by
        have := version.toNat_lt
        omega
      refine portable_record fun e he => ?_
      simp only [List.mem_cons, List.not_mem_nil, or_false] at he
      rcases he with rfl | rfl | rfl
      · exact portable_text _ _
      · exact ⟨by omega, hversion⟩
      · exact portable_credential depth c
  | permission issuer receiver grants createdAt expiresAt =>
      refine portable_record fun e he => ?_
      simp only [List.mem_cons, List.not_mem_nil, or_false] at he
      rcases he with rfl | rfl | rfl | rfl | rfl | rfl
      · exact portable_text _ _
      · exact portable_text _ _
      · exact portable_text _ _
      · refine portable_record fun e he => ?_
        obtain ⟨_, -, rfl⟩ := List.mem_map.mp he
        exact portable_text _ _
      · exact portable_timestamp _ _
      · exact portable_timestamp _ _

theorem decode?_encode (p : Payload) : decode? p.encode = some p := by
  have hread : read? p.encode = some p.toValue := read?_write (p.portable_toValue 124)
  rw [decode?, hread]
  exact p.ofValue?_toValue .cbor

theorem decode_encode (p : Payload) : decode p.encode = .ok p := by
  rw [decode, decode?_encode]

/-- **The codec loses nothing.**  Every payload is decoded from its own bytes, and every credential
from the bytes and the hash under which it is stored.  What some bytes were decoded to is decoded
again from the bytes that it is encoded as, be they the same or not. -/
theorem encode_lossless :
    (∀ p : Payload, decode p.encode = .ok p) ∧
      (∀ c : Credential, decodeAccess c.hash c.encode = .ok c) ∧
      ∀ bytes p, decode bytes = .ok p → decode p.encode = decode bytes := by
  refine ⟨decode_encode, fun c => ?_, fun bytes p h => ?_⟩
  · exact decodeAccess_eq_ok_iff.mpr ⟨rfl, decode?_encode _⟩
  · rw [h, decode_encode]

/-! ### Where a payload ends -/

/-- Some bytes hold no payload, and so no credential, though they be stored under their own hash. -/
structure IsUndecodable (b : List UInt8) : Prop where
  decode : (decode b).isOk = false
  decodeAccess : decodeAccess (contentHash b) b = .error .undecodable

variable {b more : List UInt8}

theorem isOk_decode_iff : (decode b).isOk = true ↔ ∃ p, decode? b = some p := by
  rw [decode]
  cases decode? b <;> simp [Except.isOk, Except.toBool]

theorem isUndecodable_of_decode? (h : decode? b = none) : IsUndecodable b where
  decode := by rw [decode, h]; rfl
  decodeAccess := by rw [AccessWindows.decodeAccess, if_neg (fun hne => hne rfl), h]

/-- Behind the bytes of one payload there is room for nothing. -/
theorem decode?_append_eq_none {p : Payload} (h : decode? b = some p) (hmore : more ≠ []) :
    decode? (b ++ more) = none := by
  obtain ⟨v, hread, -⟩ := Option.bind_eq_some_iff.mp h
  rw [decode?, read?_append_eq_none hread hmore]
  rfl

/-- **Payloads delimit themselves.**  No bytes hold a payload both with and without something behind
them, however they spell it.  So the bytes of a payload hold it as they are, and none once they are
cut short or added to, and then a credential is not found in them either. -/
theorem decode_self_delimiting (hmore : more ≠ []) :
    (∀ b, ¬ ((decode b).isOk = true ∧ (decode (b ++ more)).isOk = true)) ∧
      ∀ p : Payload, decode p.encode = .ok p ∧ IsUndecodable (p.encode ++ more) ∧
        ∀ b, b ++ more = p.encode → IsUndecodable b := by
  have hlonger : ∀ b p, decode? b = some p → decode? (b ++ more) = none := fun b p h =>
    decode?_append_eq_none h hmore
  refine ⟨fun b => ?_, fun p => ⟨p.decode_encode, ?_, fun b hb => ?_⟩⟩
  · rintro ⟨hshort, hlong⟩
    obtain ⟨p, hp⟩ := isOk_decode_iff.mp hshort
    obtain ⟨p', hp'⟩ := isOk_decode_iff.mp hlong
    cases (hlonger b p hp).symm.trans hp'
  · exact isUndecodable_of_decode? (hlonger _ _ p.decode?_encode)
  · -- what is left of the payload cannot hold another: the whole would then hold none
    refine isUndecodable_of_decode? (Option.eq_none_iff_forall_ne_some.mpr fun p' hp' => ?_)
    have hwhole := hlonger b p' hp'
    rw [hb, p.decode?_encode] at hwhole
    cases hwhole

namespace Sample

/-- A grant that expires one nanosecond before 1970 begins. -/
def grant : Payload := .permission ⟨"ann"⟩ ⟨"bob"⟩ (.ofList [("door", "east")])
  ⟨5, by decide, by decide⟩ ⟨-1, by decide, by decide⟩

/-- The same grant as an open list: its kind by place, its texts as bytes or in pieces, its map
open, its first instant in more bytes than it needs. -/
def spelledOut : List UInt8 :=
  [0x9f, 0x01, 0x43, 0x61, 0x6e, 0x6e, 0x7f, 0x61, 0x62, 0x62, 0x6f, 0x62, 0xff,
    0xbf, 0x64, 0x64, 0x6f, 0x6f, 0x72, 0x64, 0x65, 0x61, 0x73, 0x74, 0xff,
    0x1b, 0x00, 0x00, 0x00, 0x00, 0x00, 0x00, 0x00, 0x05, 0x20, 0xff]

end Sample

/-- Neither spelling may be added to, and the shorter one may not lose its last byte. -/
theorem decode_of_spelledOut :
    ([0x20] : List UInt8) ≠ [] ∧ decode? Sample.spelledOut = some Sample.grant ∧
      (decode (Sample.spelledOut ++ [0x20])).isOk = false ∧
      IsUndecodable (Sample.grant.encode ++ [0x20]) ∧
      Sample.grant.encode.dropLast ++ [0x20] = Sample.grant.encode ∧
      IsUndecodable Sample.grant.encode.dropLast := by
  have hne : ([0x20] : List UInt8) ≠ [] := by decide
  have hdecode : decode? Sample.spelledOut = some Sample.grant := by decide +kernel
  have hlast : Sample.grant.encode.dropLast ++ [0x20] = Sample.grant.encode := by decide +kernel
  obtain ⟨hboth, hcut⟩ := decode_self_delimiting hne
  obtain ⟨-, hlonger, hshorter⟩ := hcut Sample.grant
  refine ⟨hne, hdecode, ?_, hlonger, hlast, hshorter _ hlast⟩
  refine Bool.eq_false_iff.mpr fun hlong => hboth Sample.spelledOut ⟨?_, hlong⟩
  exact isOk_decode_iff.mpr ⟨_, hdecode⟩

end Payload

end AccessWindows
