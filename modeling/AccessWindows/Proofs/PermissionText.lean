import AccessWindows.Permission
import AccessWindows.Proofs.Blank
import AccessWindows.Proofs.Joined
import AccessWindows.Proofs.Steps

/-!
# Permission texts — what a set may be written as

A set of permissions is written as nothing, as a run of letters, or as a list of spellings with
commas between them, with white space at its ends and around each item (`Lists`).  One look for a
comma, a hyphen or a small letter settles which of the two readers gets the text.  It never sends
one that lists permissions to the wrong reader: no letter of a permission is such a sign, and of the
spellings only the letters hold none.  So reading accepts just these texts (`ofText_eq_ok_iff`).
-/

namespace AccessWindows

/-! ### Spellings -/

namespace Permission

variable {p : Permission} {s : String}

/-- The letter that abbreviates a permission. -/
def letter : Permission → Char
  | .consume => 'C'
  | .publish => 'P'
  | .list => 'L'
  | .read => 'R'

/-- All spellings of a permission. -/
def spellings : Permission → List String
  | .consume => ["can-consume", "consume", "C"]
  | .publish => ["can-publish", "publish", "P"]
  | .list => ["can-list", "list", "L"]
  | .read => ["read", "can-read", "R"]

/-- The item spells the permission, white space around it aside. -/
def IsSpelledBy (p : Permission) (item : String) : Prop :=
  String.ofList (Blank.trim item.toList) ∈ p.spellings

instance (p : Permission) (item : String) : Decidable (p.IsSpelledBy item) :=
  inferInstanceAs (Decidable (_ ∈ _))

theorem ofLetter?_eq_some_iff {c : Char} : ofLetter? c = some p ↔ c = p.letter := by
  constructor
  · intro h
    unfold ofLetter? at h
    split at h <;> cases h <;> rfl
  · rintro rfl
    cases p <;> rfl

theorem name_mem_spellings (p : Permission) : p.name ∈ p.spellings := by
  cases p <;> decide

theorem letter_mem_spellings (p : Permission) : String.singleton p.letter ∈ p.spellings := by
  cases p <;> decide

/-- **Spellings** are what reading accepts. -/
theorem ofSpelling?_eq_some_iff : ofSpelling? s = some p ↔ s ∈ p.spellings := by
  constructor
  · intro h
    unfold ofSpelling? at h
    split at h
    next q hq =>
        cases h
        have hname := List.find?_some hq
        rw [beq_iff_eq] at hname
        exact hname ▸ p.name_mem_spellings
    next =>
        -- the other spellings in their order, and at last the letters
        split at h
        next hs => cases h; subst hs; decide
        next =>
        split at h
        next hs => cases h; subst hs; decide
        next =>
        split at h
        next hs => cases h; subst hs; decide
        next =>
        split at h
        next hs => cases h; subst hs; decide
        next =>
        split at h
        next c hc =>
            have hs : s = String.singleton c := String.toList_inj.mp (by simpa using hc)
            rw [hs, ofLetter?_eq_some_iff.mp h]
            exact p.letter_mem_spellings
        next => cases h
  · have hall : ∀ s ∈ p.spellings, ofSpelling? s = some p := by cases p <;> decide
    exact hall s

theorem ofText_eq_ok_iff : ofText s = .ok p ↔ p.IsSpelledBy s := by
  rw [IsSpelledBy, ← ofSpelling?_eq_some_iff, ofText]
  cases ofSpelling? (String.ofList (Blank.trim s.toList)) <;> simp

/-- No letter can be taken for a sign of a list. -/
theorem isListSign_letter (p : Permission) : PermissionSet.isListSign p.letter = false := by
  cases p <;> rfl

/-- A spelling without a sign of a list is the letter. -/
theorem eq_letter_of_mem_spellings (h : s ∈ p.spellings)
    (hsign : s.toList.any PermissionSet.isListSign = false) : s.toList = [p.letter] := by
  have hall : ∀ s ∈ p.spellings, s.toList.any PermissionSet.isListSign = false →
      s.toList = [p.letter] := by
    cases p <;> decide
  exact hall s h hsign

/-- Spellings hold neither commas nor white space. -/
theorem plain_of_mem_spellings (h : s ∈ p.spellings) :
    ∀ c ∈ s.toList, c ≠ ',' ∧ Blank.isBlank c = false := by
  have hall : ∀ s ∈ p.spellings, s.toList.all (fun c => c != ',' && !Blank.isBlank c) = true := by
    cases p <;> decide
  simpa using hall s h

/-- No comma hides in the white space around a spelling. -/
theorem IsSpelledBy.comma_not_mem {item : String} (h : p.IsSpelledBy item) : ',' ∉ item.toList := by
  intro hc
  refine (plain_of_mem_spellings h ',' ?_).1 rfl
  rw [String.toList_ofList]
  exact Blank.mem_trimBy hc (by decide)

/-- A spelling needs no white space around it. -/
theorem isSpelledBy_of_mem_spellings (h : s ∈ p.spellings) : p.IsSpelledBy s := by
  rwa [IsSpelledBy, Blank.trim_eq_self fun c hc => (plain_of_mem_spellings h c hc).2,
    String.ofList_toList]

end Permission

/-! ### Sets by their members -/

namespace PermissionSet

variable {s : String} {set : PermissionSet} {ps ps' : List Permission} {p : Permission}

theorem ext_contains {set' : PermissionSet} (h : ∀ p, set.contains p = set'.contains p) :
    set = set' := by
  obtain ⟨consume, publish, list, read⟩ := set
  obtain ⟨consume', publish', list', read'⟩ := set'
  have hconsume : consume = consume' := h .consume
  have hpublish : publish = publish' := h .publish
  have hlist : list = list' := h .list
  have hread : read = read' := h .read
  rw [hconsume, hpublish, hlist, hread]

theorem contains_insert (set : PermissionSet) (q p : Permission) :
    (set.insert q).contains p = true ↔ p = q ∨ set.contains p = true := by
  cases q <;> cases p <;> simp [insert, contains]

theorem contains_foldl_insert (set : PermissionSet) (ps : List Permission) (p : Permission) :
    (ps.foldl insert set).contains p = true ↔ set.contains p = true ∨ p ∈ ps := by
  induction ps generalizing set with
  | nil => simp
  | cons q ps ih => rw [List.foldl_cons, ih, contains_insert, List.mem_cons, or_assoc, or_left_comm]

/-- The set of some permissions holds just these. -/
theorem contains_ofList (ps : List Permission) (p : Permission) :
    (ofList ps).contains p = true ↔ p ∈ ps := by
  rw [ofList, contains_foldl_insert]
  have hempty : empty.contains p = false := by cases p <;> rfl
  simp [hempty]

theorem eq_ofList_iff : set = ofList ps ↔ ∀ p, set.contains p = true ↔ p ∈ ps := by
  constructor
  · rintro rfl p
    exact contains_ofList ps p
  · intro h
    refine ext_contains fun p => ?_
    rw [Bool.eq_iff_iff, h, contains_ofList]

/-! ### The two readers -/

/-- The text lists these permissions, in this order. -/
inductive Lists (s : String) : List Permission → Prop where
  /-- Nothing but white space lists nothing. -/
  | nothing (h : Blank.trim s.toList = []) : Lists s []
  /-- A run of letters, white space around it aside. -/
  | letters {ps : List Permission} (hne : ps ≠ [])
      (h : Blank.trim s.toList = ps.map Permission.letter) : Lists s ps
  /-- Spellings with a comma between two, white space around each aside. -/
  | items {ps : List Permission} (items : List String) (hne : items ≠ [])
      (h : Blank.trim s.toList = (",".intercalate items).toList)
      (hitems : List.Forall₂ (fun item p => p.IsSpelledBy item) items ps) : Lists s ps

/-- Reads a run of letters. -/
theorem mapM_letters_eq_ok_iff {cs : List Char} :
    (cs.mapM fun c =>
      match Permission.ofLetter? c with
      | some p => (.ok p : Except PermissionError Permission)
      | none => .error (.unknownLetter c)) = .ok ps ↔ cs = ps.map Permission.letter := by
  have hletter : ∀ (c : Char) (p : Permission),
      (match Permission.ofLetter? c with
        | some p => (.ok p : Except PermissionError Permission)
        | none => .error (.unknownLetter c)) = .ok p ↔ c = p.letter := by
    intro c p
    rw [← Permission.ofLetter?_eq_some_iff]
    cases Permission.ofLetter? c <;> simp
  simp only [mapM_eq_ok_iff, hletter]
  rw [← List.forall₂_map_right_iff, List.forall₂_eq_eq_eq]

/-- Reads the parts of a list, which are spellings. -/
theorem mapM_parts_eq_ok_iff {parts : List (List Char)} :
    (parts.mapM fun item => Permission.ofText (String.ofList item)) = .ok ps ↔
      List.Forall₂ (fun item p => p.IsSpelledBy item) (parts.map String.ofList) ps := by
  simp only [mapM_eq_ok_iff, Permission.ofText_eq_ok_iff, List.forall₂_map_left_iff]

/-- Items that are spellings are found between the commas. -/
theorem splitOn_intercalate_items {items : List String} (hne : items ≠ [])
    (hitems : List.Forall₂ (fun item p => p.IsSpelledBy item) items ps) :
    ((",".intercalate items).toList.splitOn ',').map String.ofList = items := by
  have hcomma : ∀ item ∈ items, ',' ∉ item.toList :=
    ((List.forall₂_and_left _ _).mp (hitems.imp fun _ _ h => ⟨h.comma_not_mem, h⟩)).1
  exact splitOn_toList_intercalate rfl hne hcomma

/-- A list of spellings without a sign of lists has a single item, which is a letter. -/
theorem eq_letters_of_items {cs : List Char} {items : List String} (hne : items ≠ [])
    (h : Blank.trim cs = (",".intercalate items).toList)
    (hitems : List.Forall₂ (fun item p => p.IsSpelledBy item) items ps)
    (hsign : ¬ (Blank.trim cs).any isListSign = true) :
    Blank.trim cs = ps.map Permission.letter := by
  rw [Bool.not_eq_true] at hsign
  rw [String.toList_intercalate] at h
  cases hitems with
  | nil => exact absurd rfl hne
  | @cons item p items ps hitem hrest =>
      cases hrest with
      | nil =>
          rw [List.map_singleton, List.intercalate_singleton] at h
          have htrim : Blank.trim item.toList = item.toList := by
            rw [← h]
            exact Blank.trimBy_trimBy _ cs
          rw [Permission.IsSpelledBy, htrim, String.ofList_toList] at hitem
          rw [h] at hsign ⊢
          exact Permission.eq_letter_of_mem_spellings hitem hsign
      | @cons item' p' items ps _ _ =>
          -- two items have a comma between them, which is a sign
          have hcomma : ',' ∈ Blank.trim cs := by
            rw [h, List.map_cons, List.map_cons, List.intercalate_cons_cons]
            simp
          exact absurd rfl (List.any_eq_false.mp hsign ',' hcomma)

/-- Permissions that are listed by their letters. -/
theorem ofText_of_letters (h : Blank.trim s.toList = ps.map Permission.letter) :
    ofText s = .ok (ofList ps) := by
  have hsign : (Blank.trim s.toList).any isListSign = false := by
    rw [h]
    simp [Permission.isListSign_letter]
  simp only [ofText, hsign, Bool.false_eq_true, if_false]
  exact congrArg (Except.map ofList) (mapM_letters_eq_ok_iff.mpr h)

/-- What lists permissions is read as their set. -/
theorem Lists.ofText_eq (h : Lists s ps) : ofText s = .ok (ofList ps) := by
  cases h with
  | nothing h => exact ofText_of_letters h
  | letters _ h => exact ofText_of_letters h
  | items items hne h hitems =>
      by_cases hsign : (Blank.trim s.toList).any isListSign = true
      · have hread : ((Blank.trim s.toList).splitOn ',').mapM
            (fun item => Permission.ofText (String.ofList item)) = .ok ps := by
          rwa [mapM_parts_eq_ok_iff, h, splitOn_intercalate_items hne hitems]
        simp only [ofText, hsign, if_true]
        exact congrArg (Except.map ofList) hread
      · exact ofText_of_letters (eq_letters_of_items hne h hitems hsign)

/-- What is read as a set lists its permissions. -/
theorem exists_lists_of_ofText (h : ofText s = .ok set) : ∃ ps, Lists s ps ∧ set = ofList ps := by
  simp only [ofText] at h
  split at h
  · obtain ⟨ps, hps, hset⟩ := map_eq_ok_iff.mp h
    have hne : ((Blank.trim s.toList).splitOn ',').map String.ofList ≠ [] := by simp
    exact ⟨ps, .items _ hne (toList_intercalate_splitOn rfl _).symm (mapM_parts_eq_ok_iff.mp hps),
      hset.symm⟩
  · obtain ⟨ps, hps, hset⟩ := map_eq_ok_iff.mp h
    have hcs := mapM_letters_eq_ok_iff.mp hps
    cases ps with
    | nil => exact ⟨[], .nothing hcs, hset.symm⟩
    | cons p ps => exact ⟨p :: ps, .letters (List.cons_ne_nil _ _) hcs, hset.symm⟩

/-- **The grammar**: what is read are the texts that list permissions, as the set of these. -/
theorem ofText_eq_ok_iff :
    ofText s = .ok set ↔ ∃ ps, Lists s ps ∧ ∀ p, set.contains p = true ↔ p ∈ ps := by
  simp only [← eq_ofList_iff]
  constructor
  · exact exists_lists_of_ofText
  · rintro ⟨ps, hlists, rfl⟩
    exact hlists.ofText_eq

/-! ### Written sets -/

/-- One spelling for each of some permissions, with a comma between two. -/
theorem lists_intercalate {spell : Permission → String} (hspell : ∀ p, spell p ∈ p.spellings)
    (ps : List Permission) : Lists (",".intercalate (ps.map spell)) ps := by
  have hblank : ∀ c ∈ (",".intercalate (ps.map spell)).toList, Blank.isBlank c = false := by
    intro c hc
    rw [String.toList_intercalate] at hc
    rcases mem_intercalate hc with hc | ⟨l, hl, hc⟩
    · rw [List.mem_singleton.mp hc]
      rfl
    · simp only [List.map_map, List.mem_map, Function.comp_apply] at hl
      obtain ⟨p, -, rfl⟩ := hl
      exact (Permission.plain_of_mem_spellings (hspell p) c hc).2
  have htrim := Blank.trim_eq_self hblank
  cases ps with
  | nil => exact .nothing htrim
  | cons p ps =>
      refine .items _ (List.cons_ne_nil _ _) htrim ?_
      rw [← List.map_cons, List.forall₂_map_left_iff, List.forall₂_same]
      exact fun p _ => Permission.isSpelledBy_of_mem_spellings (hspell p)

/-- The letters of some permissions, one behind the other. -/
def compact (ps : List Permission) : String := String.ofList (ps.map Permission.letter)

theorem ofText_compact (ps : List Permission) : ofText (compact ps) = .ok (ofList ps) := by
  have hblank : ∀ c ∈ ps.map Permission.letter, Blank.isBlank c = false := by
    intro c hc
    obtain ⟨p, -, rfl⟩ := List.mem_map.mp hc
    cases p <;> rfl
  refine ofText_of_letters ?_
  rw [compact, String.toList_ofList, Blank.trim_eq_self hblank]

/-- A set holds the permissions that it lists. -/
theorem ofList_toList (set : PermissionSet) : ofList set.toList = set := by
  refine (eq_ofList_iff.mpr fun p => ?_).symm
  rw [toList, List.mem_filter]
  exact ⟨fun h => ⟨by cases p <;> decide, h⟩, And.right⟩

/-- **Texts of permission sets.**  The items of a list are the spellings of single permissions.  A
text is read as a set just if it lists permissions and the set holds these, and every other text is
refused.  So neither order nor repetition, neither white space nor the choice among spellings
matters; letters one behind the other mean what they mean with commas between them; and the text of
a set is read as the set. -/
theorem texts_list_permissions :
    (∀ item p, Permission.ofText item = .ok p ↔ p.IsSpelledBy item) ∧
    (∀ s set, ofText s = .ok set ↔ ∃ ps, Lists s ps ∧ ∀ p, set.contains p = true ↔ p ∈ ps) ∧
    (∀ s, (∃ e, ofText s = .error e) ↔ ¬ ∃ ps, Lists s ps) ∧
    (∀ s s' ps ps', Lists s ps → Lists s' ps' → (∀ p, p ∈ ps ↔ p ∈ ps') → ofText s = ofText s') ∧
    (∀ ps : List Permission, ofText (compact ps) =
      ofText (",".intercalate (ps.map fun p => String.singleton p.letter))) ∧
    ∀ set : PermissionSet, ofText set.text = .ok set := by
  refine ⟨fun item p => Permission.ofText_eq_ok_iff, fun s set => ofText_eq_ok_iff, fun s => ?_,
    fun s s' ps ps' h h' hsame => ?_, fun ps => ?_, fun set => ?_⟩
  · rw [exists_error_iff]
    refine not_congr ⟨?_, fun ⟨ps, h⟩ => ⟨_, h.ofText_eq⟩⟩
    rintro ⟨set, h⟩
    obtain ⟨ps, hlists, -⟩ := exists_lists_of_ofText h
    exact ⟨ps, hlists⟩
  · have hset : ofList ps = ofList ps' := eq_ofList_iff.mpr fun p => by
      rw [contains_ofList, hsame]
    rw [h.ofText_eq, h'.ofText_eq, hset]
  · rw [ofText_compact, (lists_intercalate Permission.letter_mem_spellings ps).ofText_eq]
  · have h := (lists_intercalate Permission.name_mem_spellings set.toList).ofText_eq
    rwa [ofList_toList] at h

/-- Reading and consuming, once with repetition and white space, once by their letters. -/
theorem texts_list_reading_and_consuming :
    Lists " R ,\tcan-consume,read " [.read, .consume, .read] ∧ Lists "CR" [.consume, .read] ∧
      ofText " R ,\tcan-consume,read " = ofText "CR" := by
  have hitems : Lists " R ,\tcan-consume,read " [.read, .consume, .read] :=
    .items ["R ", "\tcan-consume", "read"] (by decide) (by decide +kernel)
      (.cons (by decide +kernel) (.cons (by decide +kernel) (.cons (by decide +kernel) .nil)))
  have hletters : Lists "CR" [.consume, .read] := .letters (by decide) (by decide +kernel)
  have hsame : ∀ p : Permission, p ∈ [.read, .consume, .read] ↔ p ∈ [.consume, .read] := by
    intro p
    cases p <;> decide
  exact ⟨hitems, hletters, texts_list_permissions.2.2.2.1 _ _ _ _ hitems hletters hsame⟩

end PermissionSet

end AccessWindows
