import AccessWindows.Proofs.Cbor.RoundTrip

/-!
# CBOR — the spellings of a document

A number may stand in a head of any width that holds it (`IsHead`), be it a whole number or the size
of a text, a list or a table; and a list or a table may be open and end with a break (`Frames`).  So
a document has many spellings (`Spells`).  The one that is written is among them, and all of them
are read as the document (`reads_spells`, `read?_of_spells`).
-/

namespace AccessWindows.Document.Cbor

/-- A head of an item of that kind with that number, in any width that holds the number. -/
inductive IsHead (kind n : Nat) : List UInt8 → Prop
  | short (h : n < 24) : IsHead kind n [(32 * kind + n).toUInt8]
  | wide (info width : Nat) (hinfo : (info, width) ∈ [(24, 1), (25, 2), (26, 4), (27, 8)])
      (h : n < 256 ^ width) : IsHead kind n ((32 * kind + info).toUInt8 :: bigEndian width n)

/-- The parts of a list or a table, behind a head with their number or in front of a break. -/
inductive Frames (kind count : Nat) (parts : List UInt8) : List UInt8 → Prop
  | sized {b : List UInt8} (h : IsHead kind count b) : Frames kind count parts (b ++ parts)
  | opened : Frames kind count parts (openHead kind :: (parts ++ [0xff]))

/-- A text, behind a head with its size. -/
inductive SpellsText (s : String) : List UInt8 → Prop
  | sized {b : List UInt8} (h : IsHead 3 (Utf8.encode s).length b) :
      SpellsText s (b ++ Utf8.encode s)

/-- An entry of a table, with the bytes of its name and of its value. -/
structure Entry where
  name : String
  value : Value
  nameBytes : List UInt8
  valueBytes : List UInt8

namespace Entry

def field (e : Entry) : String × Value := (e.name, e.value)

def bytes (e : Entry) : List UInt8 := e.nameBytes ++ e.valueBytes

end Entry

/-- The bytes spell the document, which nests at most so deep. -/
inductive Spells : Nat → Value → List UInt8 → Prop
  | written {depth : Nat} {v : Value} (h : Portable depth v) : Spells depth v (write v)
  | natural {depth n : Nat} {b : List UInt8} (h : IsHead 0 n b) : Spells depth (.int n) b
  | negative {depth n : Nat} {b : List UInt8} (hn : n < UInt64.size / 2) (h : IsHead 1 n b) :
      Spells depth (.int (-1 - n)) b
  | text {depth : Nat} {s : String} {b : List UInt8} (h : SpellsText s b) : Spells depth (.text s) b
  | list {depth : Nat} {pieces : List (List UInt8 × Value)} {b : List UInt8}
      (hpieces : ∀ p ∈ pieces, Spells depth p.2 p.1)
      (h : Frames 4 pieces.length (pieces.flatMap Prod.fst) b) :
      Spells (depth + 1) (.list (pieces.map Prod.snd)) b
  | table {depth : Nat} {entries : List Entry} {b : List UInt8}
      (hnames : ∀ e ∈ entries, SpellsText e.name e.nameBytes)
      (hvalues : ∀ e ∈ entries, Spells depth e.value e.valueBytes)
      (h : Frames 5 entries.length (entries.flatMap Entry.bytes) b) :
      Spells (depth + 1) (.record (entries.map Entry.field)) b

open Reader

variable {kind n depth : Nat} {b : List UInt8} {s : String} {v : Value}

theorem IsHead.exists_argument (h : IsHead kind n b) :
    ∃ info bytes, b = (32 * kind + info).toUInt8 :: bytes ∧ info < 28 ∧
      Reads (argument info) bytes n := by
  cases h with
  | short h => exact ⟨n, [], rfl, by omega, by rw [argument, if_pos h]; exact Reads.pure n⟩
  | wide info width hinfo h =>
      simp only [List.mem_cons, Prod.mk.injEq, List.not_mem_nil, or_false] at hinfo
      rcases hinfo with ⟨rfl, rfl⟩ | ⟨rfl, rfl⟩ | ⟨rfl, rfl⟩ | ⟨rfl, rfl⟩
      · exact ⟨24, _, rfl, by decide, reads_number 1 h⟩
      · exact ⟨25, _, rfl, by decide, reads_number 2 h⟩
      · exact ⟨26, _, rfl, by decide, reads_number 4 h⟩
      · exact ⟨27, _, rfl, by decide, reads_number 8 h⟩

/-- The shortest head is one of them. -/
theorem isHead_head (h : n < UInt64.size) : IsHead kind n (head kind n) := by
  unfold head
  split
  next h0 => exact .short h0
  split
  next h1 => exact .wide 24 1 (by decide) h1
  split
  next h2 => exact .wide 25 2 (by decide) h2
  split
  next h3 => exact .wide 26 4 (by decide) h3
  next => exact .wide 27 8 (by decide) h

theorem spellsText_writeText (h : (Utf8.encode s).length < UInt64.size) :
    SpellsText s (writeText s) := by
  rw [writeText, writeString, if_pos h]
  exact .sized (isHead_head h)

namespace Reader

/-! ### Scalars -/

section scalars

variable {nested : Option (Reader Item)}

theorem reads_natural (h : IsHead 0 n b) : ∃ key, Reads (itemOver nested) b ⟨.int n, key⟩ := by
  obtain ⟨info, bytes, rfl, hi, hr⟩ := h.exists_argument
  refine ⟨if info = 25 ∨ info = 26 then .improper else .place n, ?_⟩
  exact reads_itemOver nested _ _ (by decide) (by omega) hr.bind_pure

theorem reads_negative (hn : n < UInt64.size / 2) (h : IsHead 1 n b) :
    Reads (itemOver nested) b ⟨.int (-1 - n), .improper⟩ := by
  obtain ⟨info, bytes, rfl, hi, hr⟩ := h.exists_argument
  refine reads_itemOver nested _ _ (by decide) (by omega) (hr.bind_nil ?_)
  rw [if_pos hn]
  exact Reads.pure _

theorem reads_text (h : SpellsText s b) : Reads (itemOver nested) b ⟨.text s, .name s⟩ := by
  obtain ⟨hsize⟩ := h
  obtain ⟨info, bytes, rfl, hi, hr⟩ := hsize.exists_argument
  have hstring : Reads (string 3 info) (bytes ++ Utf8.encode s) (Utf8.encode s) := by
    rw [string, if_neg (by omega)]
    exact hr.bind (reads_take _)
  refine reads_itemOver nested _ _ (by decide) (by omega) (hstring.bind_nil ?_)
  rw [Utf8.decode?_encode]
  exact Reads.pure _

end scalars

/-! ### Lists and tables -/

theorem reads_list {pieces : List (List UInt8 × Value)}
    (hpieces : ∀ p ∈ pieces, ∃ key, Reads (item depth) p.1 ⟨p.2, key⟩)
    (h : Frames 4 pieces.length (pieces.flatMap Prod.fst) b) :
    Reads (item (depth + 1)) b ⟨.list (pieces.map Prod.snd), .improper⟩ := by
  have : Nonempty Key := ⟨.improper⟩
  choose! key hkey using hpieces
  have hvalues : (pieces.map fun p => (⟨p.2, key p⟩ : Item)).map Item.value =
      pieces.map Prod.snd := List.map_map
  rw [← hvalues]
  cases h with
  | sized hhead =>
      obtain ⟨info, bytes, rfl, hi, hr⟩ := hhead.exists_argument
      refine reads_itemOver (some (item depth)) _ _ (by decide) (by omega) ?_
      rw [body, list, if_neg (by omega : info ≠ 31)]
      exact hr.bind (reads_times hkey).bind_pure
  | opened =>
      exact reads_itemOver (some (item depth)) 4 31 (by decide) (by decide)
        (reads_openEnded (refusesBreak_item depth) hkey).bind_pure

theorem reads_table {entries : List Entry}
    (hentries : ∀ e ∈ entries,
      Reads (entry (item depth)) e.bytes (Key.name e.name, e.value))
    (h : Frames 5 entries.length (entries.flatMap Entry.bytes) b) :
    Reads (item (depth + 1)) b ⟨.record (entries.map Entry.field), .improper⟩ := by
  have hfields : (entries.map fun e => (Key.name e.name, e.value)) =
      (entries.map Entry.field).map fun e => (Key.name e.1, e.2) := by
    rw [List.map_map]
    rfl
  rw [Value.record, ← hfields]
  cases h with
  | sized hhead =>
      obtain ⟨info, bytes, rfl, hi, hr⟩ := hhead.exists_argument
      refine reads_itemOver (some (item depth)) _ _ (by decide) (by omega) ?_
      rw [body, table, if_neg (by omega : info ≠ 31)]
      exact hr.bind (reads_times hentries).bind_pure
  | opened =>
      have hbreak : RefusesBreak (entry (item depth)) := (refusesBreak_item depth).bind _
      exact reads_itemOver (some (item depth)) 5 31 (by decide) (by decide)
        (reads_openEnded hbreak hentries).bind_pure

end Reader

/-- **Every spelling is read** as the document it spells, at the depth to which it nests. -/
theorem reads_spells (h : Spells depth v b) :
    ∃ key, Reads (item depth) b ⟨v, key⟩ := by
  induction h with
  | written h => exact reads_write h
  | natural h => rw [item_eq]; exact reads_natural h
  | negative hn h => rw [item_eq]; exact ⟨_, reads_negative hn h⟩
  | text h => rw [item_eq]; exact ⟨_, reads_text h⟩
  | list _ h ih => exact ⟨_, reads_list ih h⟩
  | @table depth entries b hnames _ h ih =>
      refine ⟨_, reads_table (fun e he => ?_) h⟩
      obtain ⟨key, hvalue⟩ := ih e he
      have hname : Reads (item depth) e.nameBytes ⟨.text e.name, .name e.name⟩ := by
        rw [item_eq]
        exact reads_text (hnames e he)
      exact hname.bind hvalue.bind_pure

/-- **A document that fills the input** is read, however it is spelled. -/
theorem read?_of_spells (h : Spells depthLimit v b) : read? b = some v := by
  obtain ⟨key, hr⟩ := reads_spells h
  have hr := hr []
  rw [List.append_nil] at hr
  rw [read?, hr]

end AccessWindows.Document.Cbor
