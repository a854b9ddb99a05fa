import Mathlib.Data.List.Basic

/-!
# Joined texts — separators between texts

A text that is split at a character is what its parts are with this character between two of them
(`toList_intercalate_splitOn`), and texts without the character are the parts of what they are
joined to (`splitOn_toList_intercalate`).
-/

namespace AccessWindows

variable {sep : String} {c : Char}

/-- The parts of a text, joined again. -/
theorem toList_intercalate_splitOn (hsep : sep.toList = [c]) (cs : List Char) :
    (sep.intercalate ((cs.splitOn c).map String.ofList)).toList = cs := by
  have hback : ((cs.splitOn c).map String.ofList).map String.toList = cs.splitOn c := by
    rw [List.map_map]
    exact List.map_id'' (fun part => String.toList_ofList) _
  rw [String.toList_intercalate, hsep, hback, List.intercalate_splitOn]

/-- Joined texts, split again. -/
theorem splitOn_toList_intercalate (hsep : sep.toList = [c]) {items : List String}
    (hne : items ≠ []) (h : ∀ item ∈ items, c ∉ item.toList) :
    ((sep.intercalate items).toList.splitOn c).map String.ofList = items := by
  rw [String.toList_intercalate, hsep,
    List.splitOn_intercalate c (by simpa using h) (by simpa using hne), List.map_map]
  exact List.map_id'' (fun item => String.ofList_toList) items

theorem mem_intercalate {sep : List Char} {ls : List (List Char)} (h : c ∈ sep.intercalate ls) :
    c ∈ sep ∨ ∃ l ∈ ls, c ∈ l := by
  induction ls with
  | nil => cases h
  | cons l ls ih =>
      cases ls with
      | nil =>
          rw [List.intercalate_singleton] at h
          exact .inr ⟨l, List.mem_cons_self, h⟩
      | cons l' ls =>
          rw [List.intercalate_cons_cons, List.mem_append, List.mem_append] at h
          rcases h with (h | h) | h
          · exact .inr ⟨l, List.mem_cons_self, h⟩
          · exact .inl h
          · exact (ih h).imp_right fun ⟨l, hl, hc⟩ => ⟨l, List.mem_cons_of_mem _ hl, hc⟩

end AccessWindows
