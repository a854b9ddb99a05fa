import AccessWindows.Document.Json.Reader
import AccessWindows.Proofs.Json.Spelling
import Mathlib.Data.List.Forall2

/-!
# JSON — reading what was written

A document is *plain* when it consists of null, truth values, whole numbers that fit in sixty-four
bits, texts, lists, and tables whose keys are names.  A text *shows* a document when it spells
tokens that are read as this document wherever a value may stand (`Shows`).

Lists and tables are read alike: what is between the brackets is a sequence of parts with commas
between them, and the parts gather behind the open bracket (`Container`).  The two layouts differ in
the white space around the parts only, so one statement about sequences serves both
(`Container.exists_rest`).  Hence a plain document is read back from either of its layouts
(`read?_compact`, `read?_pretty`).
-/

namespace AccessWindows.Document.Json

/-- The document has no parts but those that every layout keeps. -/
inductive Plain : Value → Prop where
  | null : Plain .null
  | bool (b : Bool) : Plain (.bool b)
  | int {n : Int} (h : -9223372036854775808 ≤ n ∧ n < 18446744073709551616) : Plain (.int n)
  | text (s : String) : Plain (.text s)
  | list {items : List Value} (h : ∀ v ∈ items, Plain v) : Plain (.list items)
  | table {entries : List (Key × Value)} (hk : ∀ e ∈ entries, ∃ name, e.1 = .name name)
      (hv : ∀ e ∈ entries, Plain e.2) : Plain (.table entries)

/-- A record is plain if the values of its fields are: its keys are names. -/
theorem plain_record {entries : List (String × Value)} (h : ∀ e ∈ entries, Plain e.2) :
    Plain (.record entries) := by
  refine .table (fun e he => ?_) fun e he => ?_
  · obtain ⟨f, -, rfl⟩ := List.mem_map.mp he
    exact ⟨f.1, rfl⟩
  · obtain ⟨f, hf, rfl⟩ := List.mem_map.mp he
    exact h f hf

/-! ### Pieces of text -/

/-- White space only. -/
def IsGap (cs : List Char) : Prop := ∀ c ∈ cs, Scan.isSpace c = true

/-- In front of any text that ends a word, the text spells the tokens. -/
def SpellsBefore (cs : List Char) (ts : List Token) : Prop :=
  ∀ rest ts', EndsWord rest → Spells rest ts' → Spells (cs ++ rest) (ts ++ ts')

/-- The text ends a word, with whatever follows it. -/
def Cuts (cs : List Char) : Prop := ∀ rest, EndsWord (cs ++ rest)

section pieces

variable {cs cs' blank : List Char} {ts ts' : List Token} {c : Char}

/-- A word ends where the text ends. -/
theorem endsWord_nil : EndsWord [] := fun _ h => by cases h

/-- A word ends in front of a mark. -/
theorem cuts_mark (h : Scan.isMark c = true) (cs : List Char) : Cuts (c :: cs) := by
  rintro rest _ ⟨⟩
  exact Or.inr h

/-- White space keeps words apart as well as what follows it. -/
theorem Cuts.gap (h : Cuts cs) (hgap : IsGap blank) : Cuts (blank ++ cs) := by
  cases blank with
  | nil => exact h
  | cons c blank =>
      rintro rest _ ⟨⟩
      exact Or.inl (hgap c List.mem_cons_self)

theorem spellsBefore_nil : SpellsBefore [] [] := fun _ _ _ h => h

/-- A mark in front is one more token. -/
theorem SpellsBefore.mark (h : SpellsBefore cs ts) (hc : Scan.isMark c = true) :
    SpellsBefore (c :: cs) (.mark c :: ts) := fun rest ts' hend hs => .mark hc (h rest ts' hend hs)

/-- White space in front makes no token. -/
theorem SpellsBefore.gap (h : SpellsBefore cs ts) (hgap : IsGap blank) :
    SpellsBefore (blank ++ cs) ts := by
  induction blank with
  | nil => exact h
  | cons c blank ih =>
      obtain ⟨hc, hgap⟩ := List.forall_mem_cons.mp hgap
      exact fun rest ts' hend hs => .space hc (ih hgap rest ts' hend hs)

/-- A quoted text in front is one more token. -/
theorem SpellsBefore.string (h : SpellsBefore cs ts) (s : String) :
    SpellsBefore ((quoted s).toList ++ cs) (.string (points s) :: ts) := by
  intro rest ts' hend hs
  rw [List.append_assoc]
  exact .string s (h rest ts' hend hs)

/-- Two pieces spell their tokens one after the other if no word runs from one into the other. -/
theorem SpellsBefore.append (h : SpellsBefore cs ts) (h' : SpellsBefore cs' ts')
    (hcuts : Cuts cs') : SpellsBefore (cs ++ cs') (ts ++ ts') := by
  intro rest ts'' hend hs
  rw [List.append_assoc, List.append_assoc]
  exact h _ _ (hcuts rest) (h' rest ts'' hend hs)

/-- A scalar that is written as a word is one token. -/
theorem spellsBefore_word {run : List Char} {v : Value} (hv : Scan.scalar? run = some v)
    (hne : run ≠ []) (hrun : ∀ c ∈ run, IsWordChar c) : SpellsBefore run [.scalar v] :=
  fun _ _ hend hs => .word hv hne hrun hend hs

end pieces

/-! ### Values -/

/-- Where a value may stand, the tokens are read as this value. -/
def Parses (tokens : List Token) (v : Value) : Prop :=
  ∀ stack, tokens.foldlM State.step? (.value stack) = some (.after v stack)

/-- The text spells tokens that are read as this value. -/
def Shows (cs : List Char) (v : Value) : Prop :=
  ∃ tokens, Parses tokens v ∧ SpellsBefore cs tokens

/-- The first value of a list is read like any other, since no value begins with the bracket that
would close the list. -/
theorem Parses.item {tokens : List Token} {v : Value} (h : Parses tokens v) (stack : List Frame) :
    tokens.foldlM State.step? (.item stack) = some (.after v (.list [] :: stack)) := by
  cases tokens with
  | nil => cases h stack
  | cons t tokens =>
      have h := h (.list [] :: stack)
      have hstep : State.step? (.item stack) t = State.step? (.value (.list [] :: stack)) t := by
        cases t with
        | mark c =>
            by_cases hc : c = ']'
            · subst hc; cases h
            · simp [State.step?, hc]
        | scalar _ => rfl
        | string _ => rfl
      rw [List.foldlM_cons, hstep, ← List.foldlM_cons]
      exact h

/-- The word that a scalar is written as shows it. -/
theorem shows_scalar {run : List Char} {v : Value} (hv : Scan.scalar? run = some v)
    (hne : run ≠ []) (hrun : ∀ c ∈ run, IsWordChar c) : Shows run v :=
  ⟨[.scalar v], fun _ => rfl, spellsBefore_word hv hne hrun⟩

/-- A quoted text shows the text. -/
theorem shows_text (s : String) : Shows (quoted s).toList (.text s) := by
  refine ⟨[.string (points s)], fun stack => ?_, ?_⟩
  · simp [State.step?, State.value?, stringText?_points]
  · have h := spellsBefore_nil.string s
    rwa [List.append_nil] at h

/-! ### Lists and tables -/

/-- What is read part by part between two brackets: the bracket that closes it, the states before
and behind a part when some parts have been read, last one first, and what all of them make. -/
structure Container (α : Type) where
  closing : Char
  next : List α → List Frame → State
  behind : α → List α → List Frame → State
  whole : List α → Value
  isMark_closing : Scan.isMark closing = true
  step_comma : ∀ a acc stack,
    State.step? (behind a acc stack) (.mark ',') = some (next (a :: acc) stack)
  step_closing : ∀ a acc stack,
    State.step? (behind a acc stack) (.mark closing) =
      some (.after (whole (a :: acc).reverse) stack)

namespace Container

/-- Lists, by their items. -/
def list : Container Value where
  closing := ']'
  next acc stack := .value (.list acc :: stack)
  behind v acc stack := .after v (.list acc :: stack)
  whole := .list
  isMark_closing := rfl
  step_comma _ _ _ := rfl
  step_closing _ _ _ := rfl

/-- Tables, by their entries. -/
def table : Container (Key × Value) where
  closing := '\x7d'
  next acc stack := .key acc stack
  behind e acc stack := .after e.2 (.entry acc e.1 :: stack)
  whole := .table
  isMark_closing := rfl
  step_comma _ _ _ := rfl
  step_closing _ _ _ := rfl

variable {α : Type} {c : Container α} {gap gap' : List Char} {parts : List (List Char)}
  {as : List α}

/-- The text spells tokens that are read as this part. -/
def Part (c : Container α) (cs : List Char) (a : α) : Prop :=
  ∃ tokens, (∀ acc stack, tokens.foldlM State.step? (c.next acc stack) =
    some (c.behind a acc stack)) ∧ SpellsBefore cs tokens

/-- The parts behind the first, each behind a comma, and the bracket that closes all. -/
def rest (c : Container α) (gap gap' : List Char) (parts : List (List Char)) : List Char :=
  (parts.flatMap fun part => ',' :: (gap ++ part)) ++ (gap' ++ [c.closing])

/-- **Sequences**: the parts that follow gather behind those that were read before. -/
theorem exists_rest (hgap : IsGap gap) (hgap' : IsGap gap') (h : List.Forall₂ c.Part parts as) :
    ∃ tokens, (∀ a acc stack, tokens.foldlM State.step? (c.behind a acc stack) =
        some (.after (c.whole (acc.reverse ++ a :: as)) stack)) ∧
      SpellsBefore (c.rest gap gap' parts) tokens ∧ Cuts (c.rest gap gap' parts) := by
  induction h with
  | nil =>
      refine ⟨[.mark c.closing], fun a acc stack => ?_, ?_, ?_⟩
      · rw [List.foldlM_cons, c.step_closing, List.reverse_cons]
        rfl
      · exact (spellsBefore_nil.mark c.isMark_closing).gap hgap'
      · exact (cuts_mark c.isMark_closing []).gap hgap'
  | @cons part a' parts as hpart _ ih =>
      obtain ⟨tokens, hread, hspell⟩ := hpart
      obtain ⟨tokens', hread', hspell', hcuts⟩ := ih
      have hrest : c.rest gap gap' (part :: parts) =
          ',' :: (gap ++ (part ++ c.rest gap gap' parts)) := by simp [rest]
      rw [hrest]
      refine ⟨.mark ',' :: (tokens ++ tokens'), fun a acc stack => ?_, ?_, cuts_mark rfl _⟩
      · rw [List.foldlM_cons, c.step_comma]
        simp only [Option.bind_eq_bind, Option.bind_some, List.foldlM_append, hread, hread',
          List.reverse_cons, List.append_assoc, List.singleton_append]
      · exact ((hspell.append hspell' hcuts).gap hgap).mark rfl

end Container

/-- Parts between two brackets, with commas between them and white space around them. -/
def enclosed {α : Type} (c : Container α) (opening : Char) (gap gap' : List Char) :
    List (List Char) → List Char
  | [] => [opening, c.closing]
  | part :: parts => opening :: (gap ++ (part ++ c.rest gap gap' parts))

section enclosed

variable {gap gap' : List Char} {parts : List (List Char)}

/-- **Lists**: parts that show the items, with commas between them, show the list. -/
theorem shows_list (hgap : IsGap gap) (hgap' : IsGap gap') {items : List Value}
    (h : List.Forall₂ Shows parts items) :
    Shows (enclosed .list '[' gap gap' parts) (.list items) := by
  cases h with
  | nil => exact ⟨[.mark '[', .mark ']'], fun _ => rfl, (spellsBefore_nil.mark rfl).mark rfl⟩
  | @cons part v parts items hpart hparts =>
      obtain ⟨tokens, hread, hspell⟩ := hpart
      have hparts : List.Forall₂ Container.list.Part parts items :=
        hparts.imp fun _ _ ⟨tokens, hread, hspell⟩ =>
          ⟨tokens, fun acc stack => hread (.list acc :: stack), hspell⟩
      obtain ⟨tokens', hread', hspell', hcuts⟩ := Container.exists_rest hgap hgap' hparts
      refine ⟨.mark '[' :: (tokens ++ tokens'), fun stack => ?_,
        ((hspell.append hspell' hcuts).gap hgap).mark rfl⟩
      have hopen : State.step? (.value stack) (.mark '[') = some (.item stack) := rfl
      rw [List.foldlM_cons, hopen]
      simp only [Option.bind_eq_bind, Option.bind_some, List.foldlM_append, hread.item stack]
      exact hread' v [] stack

/-- An entry is its key, a colon and its value. -/
theorem part_entry {gap'' cs : List Char} {v : Value} (hgap : IsGap gap'') (name : String)
    (h : Shows cs v) :
    Container.table.Part ((quoted name).toList ++ ':' :: (gap'' ++ cs)) (.name name, v) := by
  obtain ⟨tokens, hread, hspell⟩ := h
  refine ⟨.string (points name) :: .mark ':' :: tokens, fun acc stack => ?_,
    ((hspell.gap hgap).mark rfl).string name⟩
  have hkey : State.step? (.key acc stack) (.string (points name)) =
      some (.colon acc (.name name) stack) := by
    cases acc <;> simp [State.step?, State.keyOf, stringText?_points]
  have hcolon : State.step? (.colon acc (.name name) stack) (.mark ':') =
      some (.value (.entry acc (.name name) :: stack)) := rfl
  rw [Container.table, List.foldlM_cons, hkey]
  simp only [Option.bind_eq_bind, Option.bind_some, List.foldlM_cons, hcolon]
  exact hread _

/-- **Tables**: parts that spell the entries, with commas between them, show the table. -/
theorem shows_table (hgap : IsGap gap) (hgap' : IsGap gap') {entries : List (Key × Value)}
    (h : List.Forall₂ Container.table.Part parts entries) :
    Shows (enclosed .table '\x7b' gap gap' parts) (.table entries) := by
  cases h with
  | nil => exact ⟨[.mark '\x7b', .mark '\x7d'], fun _ => rfl, (spellsBefore_nil.mark rfl).mark rfl⟩
  | @cons part e parts entries hpart hparts =>
      obtain ⟨tokens, hread, hspell⟩ := hpart
      obtain ⟨tokens', hread', hspell', hcuts⟩ := Container.exists_rest hgap hgap' hparts
      refine ⟨.mark '\x7b' :: (tokens ++ tokens'), fun stack => ?_,
        ((hspell.append hspell' hcuts).gap hgap).mark rfl⟩
      have hopen : State.step? (.value stack) (.mark '\x7b') =
          some (Container.table.next [] stack) := rfl
      rw [List.foldlM_cons, hopen]
      simp only [Option.bind_eq_bind, Option.bind_some, List.foldlM_append, hread]
      exact hread' e [] stack

end enclosed

/-! ### The texts of the two layouts -/

/-- Items are laid out one by one. -/
theorem compactItems_eq (items : List Value) : compactItems items = items.map compact := by
  induction items with
  | nil => rfl
  | cons v items ih => rw [compactItems, ih, List.map_cons]

theorem compactEntries_eq (entries : List (Key × Value)) :
    compactEntries entries =
      entries.map fun e => quoted (keyText e.1) ++ ":" ++ compact e.2 := by
  induction entries with
  | nil => rfl
  | cons e entries ih => rw [compactEntries, ih, List.map_cons]

theorem prettyItems_eq (indent : String) (items : List Value) :
    prettyItems indent items = items.map (prettyAt indent) := by
  induction items with
  | nil => rfl
  | cons v items ih => rw [prettyItems, ih, List.map_cons]

theorem prettyEntries_eq (indent : String) (entries : List (Key × Value)) :
    prettyEntries indent entries =
      entries.map fun e => quoted (keyText e.1) ++ ": " ++ prettyAt indent e.2 := by
  induction entries with
  | nil => rfl
  | cons e entries ih => rw [prettyEntries, ih, List.map_cons]

/-- A separator stands in front of every part but the first. -/
theorem intercalate_cons (sep part : List Char) (parts : List (List Char)) :
    sep.intercalate (part :: parts) = part ++ parts.flatMap fun part => sep ++ part := by
  induction parts generalizing part with
  | nil => simp
  | cons part' parts ih => rw [List.intercalate_cons_cons, ih, List.flatMap_cons]; simp

/-- What stands between the brackets is the parts, joined by commas and gaps. -/
theorem enclosed_cons {α : Type} (c : Container α) (opening : Char) (gap gap' part : List Char)
    (parts : List (List Char)) :
    enclosed c opening gap gap' (part :: parts) =
      opening :: (gap ++ ((',' :: gap).intercalate (part :: parts) ++ (gap' ++ [c.closing]))) := by
  rw [enclosed, Container.rest, intercalate_cons, List.append_assoc]
  rfl

/-- Between brackets without white space there may be nothing at all. -/
theorem enclosed_tight {α : Type} (c : Container α) (opening : Char) (parts : List (List Char)) :
    enclosed c opening [] [] parts = opening :: ([','].intercalate parts ++ [c.closing]) := by
  cases parts with
  | nil => rfl
  | cons part parts => exact enclosed_cons c opening [] [] part parts

/-- A block of lines is what is enclosed in line feeds and indentations. -/
theorem toList_block {α : Type} (c : Container α) (opening : Char) (indent : String)
    (lines : List String) :
    (block (String.singleton opening) (String.singleton c.closing) indent lines).toList =
      enclosed c opening ('\n' :: (indent.toList ++ [' ', ' '])) ('\n' :: indent.toList)
        (lines.map String.toList) := by
  cases lines with
  | nil => simp [block, enclosed]
  | cons line lines =>
      rw [List.map_cons, enclosed_cons, ← List.map_cons]
      simp [block, String.toList_append, String.toList_intercalate]

/-- An entry is its key, a colon with or without a space, and its value. -/
theorem toList_entry (colon name : String) (text : String) :
    (quoted name ++ colon ++ text).toList =
      (quoted name).toList ++ (colon.toList ++ text.toList) := by
  rw [String.toList_append, String.toList_append, List.append_assoc]

/-! ### Documents -/

theorem isGap_nil : IsGap [] := List.forall_mem_nil _

/-- A line feed and an indentation are white space. -/
theorem isGap_spaces {indent : List Char} (h : ∀ c ∈ indent, c = ' ') :
    IsGap ('\n' :: indent) :=
  List.forall_mem_cons.mpr ⟨rfl, fun _ hc => h _ hc ▸ rfl⟩

/-- A number is shown by its decimal digits. -/
theorem shows_int {n : Int} (h : -9223372036854775808 ≤ n ∧ n < 18446744073709551616) :
    Shows (compact (.int n)).toList (.int n) := by
  have htext : (compact (.int n)).toList = Decimal.integer n := by
    rw [compact, Decimal.integerText, String.toList_ofList]
  rw [htext]
  exact shows_scalar (scalar?_integer h) (integer_ne_nil n) fun _ => isWordChar_of_mem_integer

/-- A plain document is shown by its layout without white space. -/
theorem shows_compact {v : Value} (h : Plain v) : Shows (compact v).toList v := by
  have hword : ∀ {cs : List Char} {v : Value}, Scan.scalar? cs = some v → cs ≠ [] →
      (cs.all fun c => !Scan.isSpace c && (!Scan.isMark c && c != '"')) = true → Shows cs v :=
    fun hv hne hall => shows_scalar hv hne fun c hc => by
      simpa [IsWordChar] using List.all_eq_true.mp hall c hc
  induction h with
  | null => exact hword rfl (List.cons_ne_nil _ _) rfl
  | bool b => cases b <;> exact hword rfl (List.cons_ne_nil _ _) rfl
  | int h => exact shows_int h
  | text s => rw [compact]; exact shows_text s
  | @list items _ ih =>
      have htext : (compact (.list items)).toList =
          enclosed .list '[' [] [] (items.map fun v => (compact v).toList) := by
        rw [enclosed_tight, compact, compactItems_eq]
        simp [String.toList_intercalate, Container.list, Function.comp_def]
      rw [htext]
      exact shows_list isGap_nil isGap_nil
        (List.forall₂_map_left_iff.mpr (List.forall₂_same.mpr ih))
  | @table entries hk _ ih =>
      have htext : (compact (.table entries)).toList = enclosed .table '\x7b' [] []
          (entries.map fun e => (quoted (keyText e.1) ++ ":" ++ compact e.2).toList) := by
        rw [enclosed_tight, compact, compactEntries_eq]
        simp [String.toList_intercalate, Container.table, Function.comp_def]
      rw [htext]
      refine shows_table isGap_nil isGap_nil
        (List.forall₂_map_left_iff.mpr (List.forall₂_same.mpr ?_))
      rintro ⟨key, v⟩ he
      obtain ⟨name, rfl⟩ := hk _ he
      rw [toList_entry]
      exact part_entry isGap_nil name (ih _ he)

/-- A plain document is shown by its layout line by line, at any indentation. -/
theorem shows_prettyAt {v : Value} (h : Plain v) {indent : String}
    (hindent : ∀ c ∈ indent.toList, c = ' ') : Shows (prettyAt indent v).toList v := by
  have hinner : ∀ {indent : String}, (∀ c ∈ indent.toList, c = ' ') →
      ∀ c ∈ (indent ++ "  ").toList, c = ' ' := fun h c hc => by
    rw [String.toList_append, List.mem_append] at hc
    exact hc.elim (h c) (by simp)
  induction h generalizing indent with
  | null => exact shows_compact .null
  | bool b => exact shows_compact (.bool b)
  | int h => exact shows_compact (.int h)
  | text s => exact shows_compact (.text s)
  | @list items _ ih =>
      have hin := hinner hindent
      have htext := toList_block .list '[' indent (prettyItems (indent ++ "  ") items)
      rw [prettyItems_eq, List.map_map] at htext
      rw [prettyAt, prettyItems_eq]
      refine htext ▸ shows_list (isGap_spaces ?_) (isGap_spaces hindent)
        (List.forall₂_map_left_iff.mpr (List.forall₂_same.mpr fun v hv => ih v hv hin))
      rwa [String.toList_append] at hin
  | @table entries hk _ ih =>
      have hin := hinner hindent
      have htext := toList_block .table '\x7b' indent (prettyEntries (indent ++ "  ") entries)
      rw [prettyEntries_eq, List.map_map] at htext
      rw [prettyAt, prettyEntries_eq]
      refine htext ▸ shows_table (isGap_spaces ?_) (isGap_spaces hindent)
        (List.forall₂_map_left_iff.mpr (List.forall₂_same.mpr ?_))
      · rwa [String.toList_append] at hin
      rintro ⟨key, v⟩ he
      obtain ⟨name, rfl⟩ := hk _ he
      have hspace : IsGap [' '] := List.forall_mem_cons.mpr ⟨rfl, isGap_nil⟩
      rw [Function.comp_apply, toList_entry]
      exact part_entry hspace name (ih _ he hin)

/-- A text that shows a document is read as this document. -/
theorem Shows.read?_eq {text : String} {v : Value} (h : Shows text.toList v) :
    read? text = some v := by
  obtain ⟨tokens, hread, hspell⟩ := h
  have hspell := hspell [] [] endsWord_nil .done
  rw [List.append_nil, List.append_nil] at hspell
  rw [read?, hspell.tokens?_eq]
  simp only [Option.bind_eq_bind, Option.bind_some, ofTokens?, hread []]

/-- **A plain document is read back** from what it is written as without white space. -/
theorem read?_compact {v : Value} (h : Plain v) : read? (compact v) = some v :=
  (shows_compact h).read?_eq

/-- **A plain document is read back** from what it is written as line by line. -/
theorem read?_pretty {v : Value} (h : Plain v) : read? (pretty v) = some v :=
  (shows_prettyAt h (by simp)).read?_eq

end AccessWindows.Document.Json
