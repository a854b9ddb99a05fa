import AccessWindows.Proofs.Cbor.Reading
import Mathlib.Tactic.Choose

/-!
# CBOR — reading what was written

A document is *portable* at a depth when its numbers fit in sixty-four bits, its keys are names and
it nests no deeper; a `foreign` scalar is none that could be written.  Reading a portable document
gives it back, wherever it stands (`reads_write`), and so does reading the input that it fills
(`read?_write`).  Nothing else is asked of it: no string, list or table is too long, since what is
too large for a head to say is written open.
-/

namespace AccessWindows.Document.Cbor

/-- The document nests at most so deep, and all its parts have a form that is read back. -/
def Portable : Nat → Value → Prop
  | _, .int n => -9223372036854775808 ≤ n ∧ n < 18446744073709551616
  | _, .foreign => False
  | 0, .list _ => False
  | 0, .table _ => False
  | depth + 1, .list items => ∀ v ∈ items, Portable depth v
  | depth + 1, .table entries =>
    ∀ e ∈ entries, (∃ name, e.1 = .name name) ∧ Portable depth e.2
  | _, _ => True

namespace Reader

/-! ### Items behind their first byte -/

/-- What follows the first byte of an item, by the kind and the number in that byte. -/
def body (nested : Option (Reader Item)) (kind info : Nat) : Reader Item :=
  match kind, nested with
  | 0, _ => unsigned info
  | 1, _ => negative info
  | 2, _ => bytes info
  | 3, _ => text info
  | 4, some nested => list nested info
  | 5, some nested => table nested info
  | 6, some nested => do let _ ← argument info; nested
  | 7, _ => simple info
  | _, _ => refuse

/-- An item is told by its first byte: three bits for the kind, five for a number. -/
theorem itemOver_cons (nested : Option (Reader Item)) (first : UInt8) (input : List UInt8) :
    itemOver nested (first :: input) =
      body nested (first.toNat / 32) (first.toNat % 32) input := rfl

/-- An item is read if what its first byte calls for is. -/
theorem reads_itemOver (nested : Option (Reader Item)) (kind info : Nat) {b : List UInt8}
    {it : Item} (hk : kind < 8) (hi : info < 32) (h : Reads (body nested kind info) b it) :
    Reads (itemOver nested) ((32 * kind + info).toUInt8 :: b) it := by
  obtain ⟨hkind, hinfo⟩ := toNat_first hk hi
  intro rest
  rw [List.cons_append, itemOver_cons, hkind, hinfo]
  exact h rest

/-- The reader of what is nested in an item. -/
def nested? : Nat → Option (Reader Item)
  | 0 => none
  | depth + 1 => some (item depth)

/-- Readers of items differ by what they read inside of one. -/
theorem item_eq (depth : Nat) : item depth = itemOver (nested? depth) := by
  cases depth with
  | zero => rfl
  | succ depth => rfl

/-- No item is a break, so that an open list or table ends at the first one. -/
theorem refusesBreak_item (depth : Nat) : RefusesBreak (item depth) where
  nil := by rw [item_eq]; rfl
  cons rest := by rw [item_eq]; rfl

/-! ### Scalars -/

section scalars

variable {nested : Option (Reader Item)}

/-- Numbers are read back.  What they are as keys depends on the bytes they take. -/
theorem reads_writeInt {n : Int} (h : -9223372036854775808 ≤ n ∧ n < 18446744073709551616) :
    ∃ key, Reads (itemOver nested) (writeInt n) ⟨.int n, key⟩ := by
  unfold writeInt
  split
  next hn =>
      have hsize : n.toNat < UInt64.size := by simp only [UInt64.size]; omega
      obtain ⟨info, bytes, he, hi, hr⟩ := exists_head 0 hsize
      refine ⟨if info = 25 ∨ info = 26 then .improper else .place n.toNat, ?_⟩
      rw [he]
      refine reads_itemOver nested _ _ (by decide) (by omega) ?_
      have hread := hr.bind_pure (g := fun n : Nat =>
        (⟨.int n, if info = 25 ∨ info = 26 then .improper else .place n⟩ : Item))
      rwa [Int.toNat_of_nonneg hn] at hread
  next hn =>
      have hsize : (-1 - n).toNat < UInt64.size / 2 := by simp only [UInt64.size]; omega
      obtain ⟨info, bytes, he, hi, hr⟩ :=
        exists_head 1 (Nat.lt_of_lt_of_le hsize (Nat.div_le_self _ _))
      refine ⟨.improper, ?_⟩
      rw [he]
      refine reads_itemOver nested _ _ (by decide) (by omega) ?_
      have hback : -1 - ((-1 - n).toNat : Int) = n := by omega
      refine hr.bind_nil ?_
      rw [if_pos hsize, hback]
      exact Reads.pure _

/-- Texts are read back, and as keys they are names. -/
theorem reads_writeText (s : String) :
    Reads (itemOver nested) (writeText s) ⟨.text s, .name s⟩ := by
  obtain ⟨info, bytes, he, hi, hr⟩ := exists_string 3 (by decide) (Utf8.encode s)
  rw [writeText, he]
  refine reads_itemOver nested _ _ (by decide) hi ?_
  refine hr.bind_nil ?_
  rw [Utf8.decode?_encode]
  exact Reads.pure _

/-- Bytes are read back, whether they spell a text or not. -/
theorem reads_writeBytes (b : List UInt8) :
    ∃ key, Reads (itemOver nested) (writeString 2 b) ⟨.bytes b, key⟩ := by
  obtain ⟨info, bytes, he, hi, hr⟩ := exists_string 2 (by decide) b
  rw [he]
  cases hd : Utf8.decode? b with
  | some s =>
      refine ⟨.name s, reads_itemOver nested _ _ (by decide) hi (hr.bind_nil ?_)⟩
      rw [hd]
      exact Reads.pure _
  | none =>
      refine ⟨.unknown, reads_itemOver nested _ _ (by decide) hi (hr.bind_nil ?_)⟩
      rw [hd]
      exact Reads.pure _

/-- Floating-point numbers are read back bit by bit. -/
theorem reads_writeReal (x : Binary64) :
    Reads (itemOver nested) (0xfb :: bigEndian 8 x.bits.toNat) ⟨.real x, .improper⟩ := by
  have hr := (reads_number 8 x.bits.toNat_lt).bind_pure (g := fun n =>
    (⟨.real ⟨n.toUInt64⟩, .improper⟩ : Item))
  have hbits : x.bits.toNat.toUInt64 = x.bits := UInt64.ofNat_toNat
  rw [hbits] at hr
  exact reads_itemOver nested 7 27 (by decide) (by decide) hr

/-- What is neither a list nor a table is read back wherever items are read. -/
theorem reads_scalar {depth : Nat} {v : Value} (h : Portable depth v)
    (hl : ∀ items, v ≠ .list items) (ht : ∀ entries, v ≠ .table entries) :
    ∃ key, Reads (itemOver nested) (write v) ⟨v, key⟩ := by
  cases v with
  | null => rw [write]; exact ⟨_, fun _ => rfl⟩
  | bool b => cases b <;> (rw [write]; exact ⟨_, fun _ => rfl⟩)
  | int n => rw [write]; exact reads_writeInt (by simpa only [Portable] using h)
  | real x => rw [write]; exact ⟨_, reads_writeReal x⟩
  | text s => rw [write]; exact ⟨_, reads_writeText s⟩
  | bytes b => rw [write]; exact reads_writeBytes b
  | list items => exact absurd rfl (hl items)
  | table entries => exact absurd rfl (ht entries)
  | foreign => simp only [Portable] at h

end scalars

/-! ### Lists and tables -/

section nested

variable {depth : Nat}

/-- Items are written one after the other. -/
theorem writeItems_eq (items : List Value) : writeItems items = items.flatMap write := by
  induction items with
  | nil => rw [writeItems, List.flatMap_nil]
  | cons v items ih => rw [writeItems, ih, List.flatMap_cons]

/-- Entries are written one after the other, each key in front of its value. -/
theorem writeEntries_eq (entries : List (Key × Value)) :
    writeEntries entries = entries.flatMap fun e => writeKey e.1 ++ write e.2 := by
  induction entries with
  | nil => rw [writeEntries, List.flatMap_nil]
  | cons e entries ih => rw [writeEntries, ih, List.flatMap_cons]

/-- A list is read back one level above its items.  It is always written open. -/
theorem reads_writeList {items : List Value}
    (h : ∀ v ∈ items, ∃ key, Reads (item depth) (write v) ⟨v, key⟩) :
    Reads (item (depth + 1)) (write (.list items)) ⟨.list items, .improper⟩ := by
  have : Nonempty Key := ⟨.improper⟩
  choose! key hkey using h
  have hr := (reads_openEnded (refusesBreak_item depth) hkey).bind_pure (g := fun items =>
    (⟨.list (items.map Item.value), .improper⟩ : Item))
  have hvalues : (items.map fun v => (⟨v, key v⟩ : Item)).map Item.value = items := by
    rw [List.map_map]
    exact List.map_id items
  rw [hvalues, ← writeItems_eq] at hr
  rw [write]
  exact reads_itemOver (some (item depth)) 4 31 (by decide) (by decide) hr

/-- A key and its value, one after the other. -/
def entry (nested : Reader Item) : Reader (Key × Value) := do
  let k ← nested
  let v ← nested
  return (k.key, v.value)

/-- An entry is read back if its key is a name and its value is read back. -/
theorem reads_entry {e : Key × Value} (hname : ∃ name, e.1 = .name name)
    (hvalue : ∃ key, Reads (item depth) (write e.2) ⟨e.2, key⟩) :
    Reads (entry (item depth)) (writeKey e.1 ++ write e.2) e := by
  obtain ⟨key, value⟩ := e
  obtain ⟨name, rfl⟩ := hname
  obtain ⟨key, hvalue⟩ := hvalue
  have hkey : Reads (item depth) (writeText name) ⟨.text name, .name name⟩ := by
    rw [item_eq]
    exact reads_writeText name
  rw [writeKey]
  exact hkey.bind (hvalue.bind_pure (g := fun v : Item => (Key.name name, v.value)))

/-- A table is read back one level above its values, with its size in front or written open. -/
theorem reads_writeTable {entries : List (Key × Value)}
    (h : ∀ e ∈ entries, Reads (entry (item depth)) (writeKey e.1 ++ write e.2) e) :
    Reads (item (depth + 1)) (write (.table entries)) ⟨.table entries, .improper⟩ := by
  rw [write, writeEntries_eq]
  split
  next hsize =>
      obtain ⟨info, bytes, he, hi, hr⟩ := exists_head 5 hsize
      have htimes := reads_times h
      rw [List.map_id'] at htimes
      rw [he]
      refine reads_itemOver (some (item depth)) _ _ (by decide) (by omega) ?_
      rw [body, table, if_neg (by omega : info ≠ 31)]
      exact hr.bind (htimes.bind_pure (g := fun entries =>
        (⟨.table entries, .improper⟩ : Item)))
  next =>
      have hbreak : RefusesBreak (entry (item depth)) := (refusesBreak_item depth).bind _
      have hopen := reads_openEnded hbreak h
      rw [List.map_id'] at hopen
      exact reads_itemOver (some (item depth)) 5 31 (by decide) (by decide)
        (hopen.bind_pure (g := fun entries => (⟨.table entries, .improper⟩ : Item)))

end nested

end Reader

open Reader

/-- **What was written is read back**, at the depth at which the document is portable. -/
theorem reads_write {depth : Nat} {v : Value} (h : Portable depth v) :
    ∃ key, Reads (item depth) (write v) ⟨v, key⟩ := by
  induction depth generalizing v with
  | zero =>
      rw [item_eq]
      refine reads_scalar h (fun items hv => ?_) fun entries hv => ?_
      · subst hv; exact h
      · subst hv; exact h
  | succ depth ih =>
      cases v with
      | list items => exact ⟨_, reads_writeList fun v hv => ih (h v hv)⟩
      | table entries =>
          exact ⟨_, reads_writeTable fun e he => reads_entry (h e he).1 (ih (h e he).2)⟩
      | _ => exact reads_scalar h (fun _ hv => by cases hv) fun _ hv => by cases hv

/-- **A document that fills the input** is read back. -/
theorem read?_write {v : Value} (h : Portable depthLimit v) : read? (write v) = some v := by
  obtain ⟨key, hr⟩ := reads_write h
  have hr := hr []
  rw [List.append_nil] at hr
  rw [read?, hr]

end AccessWindows.Document.Cbor
