import AccessWindows.Proofs.Cbor.RoundTrip

/-!
# CBOR — where an item ends

An item says itself where it ends.  Whatever a reader makes of an input, it makes of a piece in
front, and would make the same of that piece whatever followed it (`Delimits`).  This holds of all
that can be read, not only of what is written: of items longer than they need to be, of open ones,
of tags, of what no field admits.  It passes from parts to wholes, and an item nests in an item, so
that the induction is on the depth (`delimits_item`).

So a document that fills an input fills no longer one (`read?_append_eq_none`).
-/

namespace AccessWindows.Document.Cbor

/-- What the reader makes of an input, it makes of a piece in front, whatever follows. -/
def Delimits {α : Type} (read : Reader α) : Prop :=
  ∀ input a rest, read input = some (a, rest) → ∃ b, input = b ++ rest ∧ Reads read b a

namespace Delimits

variable {α β : Type} {read : Reader α}

/-- The piece in front may be empty. -/
theorem pure (a : α) : Delimits (Pure.pure a) := by
  intro input a' rest h
  cases h
  exact ⟨[], rfl, Reads.pure a⟩

/-- Of what is refused nothing is asked. -/
theorem refuse : Delimits (Reader.refuse : Reader α) := fun _ _ _ h => by cases h

/-- One reader after the other: the second begins where the first ends. -/
theorem bind {f : α → Reader β} (hread : Delimits read) (hf : ∀ a, Delimits (f a)) :
    Delimits (read >>= f) := by
  intro input c rest h
  obtain ⟨⟨a, middle⟩, hfirst, hsecond⟩ := Option.bind_eq_some_iff.mp h
  obtain ⟨b, rfl, hb⟩ := hread _ _ _ hfirst
  obtain ⟨b', rfl, hb'⟩ := hf a _ _ _ hsecond
  exact ⟨b ++ b', (List.append_assoc b b' rest).symm, hb.bind hb'⟩

/-- What is made of a result does not change how far the reader went. -/
theorem map (hread : Delimits read) (g : α → β) : Delimits (g <$> read) := by
  intro input c rest h
  obtain ⟨⟨a, _⟩, hfirst, he⟩ := Option.bind_eq_some_iff.mp h
  cases he
  obtain ⟨b, rfl, hb⟩ := hread _ _ _ hfirst
  exact ⟨b, rfl, hb.map g⟩

/-- Whichever of two readers is chosen, it says where it ends. -/
theorem ite {c : Prop} [Decidable c] {other : Reader α} (hread : Delimits read)
    (hother : Delimits other) : Delimits (if c then read else other) := by
  split
  · exact hread
  · exact hother

end Delimits

namespace Reader

/-! ### Bytes and numbers -/

theorem delimits_byte : Delimits byte := by
  intro input b rest h
  cases input with
  | nil => cases h
  | cons first input =>
      cases h
      exact ⟨[b], rfl, reads_byte b⟩

/-- As many bytes are taken as the number says, or none at all. -/
theorem delimits_take (n : Nat) : Delimits (take n) := by
  intro input b rest h
  rw [take] at h
  split at h
  next hn =>
      cases h
      have hread := reads_take (input.take n)
      rw [List.length_take_of_le hn] at hread
      exact ⟨input.take n, (List.take_append_drop n input).symm, hread⟩
  next => cases h

theorem delimits_number (n : Nat) : Delimits (number n) :=
  (delimits_take n).bind fun _ => .pure _

/-- The number of a head ends with the bytes that the head calls for. -/
theorem delimits_argument (info : Nat) : Delimits (argument info) :=
  .ite (.pure _) <| .ite (delimits_number 1) <| .ite (delimits_number 2) <|
    .ite (delimits_number 4) <| .ite (delimits_number 8) .refuse

/-! ### Repetition -/

section repetition

variable {α : Type} {read : Reader α}

/-- So many items end with the last of them. -/
theorem delimits_times (hread : Delimits read) (n : Nat) : Delimits (times read n) := by
  induction n with
  | zero => exact .pure []
  | succ n ih => exact hread.bind fun _ => ih.bind fun _ => .pure _

/-- What was read up to a break was read piece by piece. -/
theorem exists_pieces (hread : Delimits read) {n : Nat} {input rest : List UInt8} {as : List α}
    (h : upToBreak read n input = some (as, rest)) :
    ∃ pieces : List (List UInt8 × α), as = pieces.map Prod.snd ∧
      input = pieces.flatMap Prod.fst ++ [0xff] ++ rest ∧ ∀ p ∈ pieces, Reads read p.1 p.2 := by
  induction n generalizing input as with
  | zero => cases h
  | succ n ih =>
      rw [upToBreak] at h
      dsimp only at h
      split at h
      next =>
          -- a break: no piece is left
          cases h
          exact ⟨[], rfl, rfl, fun _ hp => by cases hp⟩
      next =>
          obtain ⟨⟨a, middle⟩, hfirst, h⟩ := Option.bind_eq_some_iff.mp h
          obtain ⟨⟨as, _⟩, hmore, he⟩ := Option.bind_eq_some_iff.mp h
          cases he
          obtain ⟨b, rfl, hb⟩ := hread _ _ _ hfirst
          obtain ⟨pieces, rfl, rfl, hpieces⟩ := ih hmore
          refine ⟨(b, a) :: pieces, rfl, ?_, List.forall_mem_cons.mpr ⟨hb, hpieces⟩⟩
          simp only [List.flatMap_cons, List.append_assoc]

/-- An open item ends with its break, though the input that follows allows for more repetitions. -/
theorem delimits_openEnded (hread : Delimits read) (hbreak : RefusesBreak read) :
    Delimits (openEnded read) := by
  intro input as rest h
  obtain ⟨pieces, rfl, rfl, hpieces⟩ := exists_pieces hread h
  exact ⟨_, rfl, reads_openEnded hbreak hpieces⟩

end repetition

/-! ### Items -/

theorem delimits_piece (kind : Nat) : Delimits (piece kind) :=
  delimits_byte.bind fun _ => .ite ((delimits_argument _).bind fun n => delimits_take n) .refuse

/-- A string ends after its bytes, or with a break. -/
theorem delimits_string {kind : Nat} (hk : kind < 7) (info : Nat) : Delimits (string kind info) :=
  .ite ((delimits_openEnded (delimits_piece kind) (refusesBreak_piece hk)).map _)
    ((delimits_argument info).bind fun n => delimits_take n)

theorem delimits_unsigned (info : Nat) : Delimits (unsigned info) :=
  (delimits_argument info).bind fun _ => .pure _

theorem delimits_negative (info : Nat) : Delimits (negative info) :=
  (delimits_argument info).bind fun _ => .ite (.pure _) .refuse

theorem delimits_bytes (info : Nat) : Delimits (bytes info) :=
  (delimits_string (by decide) info).bind fun _ => .pure _

theorem delimits_text (info : Nat) : Delimits (text info) := by
  refine (delimits_string (by decide) info).bind fun b => ?_
  cases Utf8.decode? b with
  | none => exact .refuse
  | some s => exact .pure _

theorem delimits_simple (info : Nat) : Delimits (simple info) :=
  .ite (.pure _) <| .ite (.pure _) <| .ite (.pure _) <|
    .ite ((delimits_take 2).bind fun _ => .pure _) <|
    .ite ((delimits_take 4).bind fun _ => .pure _) <|
    .ite ((delimits_number 8).bind fun _ => .pure _) .refuse

section nested

variable {nested : Reader Item}

/-- A list ends after its items, or with a break. -/
theorem delimits_list (hn : Delimits nested) (hb : RefusesBreak nested) (info : Nat) :
    Delimits (list nested info) :=
  .ite ((delimits_openEnded hn hb).bind fun _ => .pure _)
    ((delimits_argument info).bind fun n => (delimits_times hn n).bind fun _ => .pure _)

/-- An entry ends with its value. -/
theorem delimits_entry (hn : Delimits nested) : Delimits (entry nested) :=
  hn.bind fun _ => hn.bind fun _ => .pure _

/-- A table ends after its entries, or with a break. -/
theorem delimits_table (hn : Delimits nested) (hb : RefusesBreak nested) (info : Nat) :
    Delimits (table nested info) := by
  have hentry := delimits_entry hn
  have hbreak : RefusesBreak (entry nested) := hb.bind _
  exact .ite ((delimits_openEnded hentry hbreak).bind fun _ => .pure _)
    ((delimits_argument info).bind fun n => (delimits_times hentry n).bind fun _ => .pure _)

end nested

/-- What follows the first byte of an item says where it ends, if that is so of what is nested. -/
theorem delimits_body {nested : Option (Reader Item)}
    (hn : ∀ read ∈ nested, Delimits read ∧ RefusesBreak read) (kind info : Nat) :
    Delimits (body nested kind info) := by
  unfold body
  split
  next => exact delimits_unsigned info
  next => exact delimits_negative info
  next => exact delimits_bytes info
  next => exact delimits_text info
  next => exact delimits_list (hn _ rfl).1 (hn _ rfl).2 info
  next => exact delimits_table (hn _ rfl).1 (hn _ rfl).2 info
  next => exact (delimits_argument info).bind fun _ => (hn _ rfl).1
  next => exact delimits_simple info
  next => exact .refuse

/-- **Items delimit themselves**, however deep they may nest. -/
theorem delimits_item (depth : Nat) : Delimits (item depth) := by
  induction depth with
  | zero => exact delimits_byte.bind fun _ => delimits_body (fun _ h => by cases h) _ _
  | succ depth ih =>
      refine delimits_byte.bind fun _ => delimits_body (fun read h => ?_) _ _
      cases h
      exact ⟨ih, refusesBreak_item depth⟩

end Reader

/-- **A document that fills an input** fills none of which that input is only the front. -/
theorem read?_append_eq_none {b more : List UInt8} {v : Value} (h : read? b = some v)
    (hmore : more ≠ []) : read? (b ++ more) = none := by
  rw [read?] at h
  split at h
  next it hitem =>
      obtain ⟨b', hb, hreads⟩ := Reader.delimits_item depthLimit _ _ _ hitem
      rw [List.append_nil] at hb
      subst hb
      rw [read?, hreads more]
      split
      next heq =>
          cases heq
          exact absurd rfl hmore
      next => rfl
  next => cases h

end AccessWindows.Document.Cbor
