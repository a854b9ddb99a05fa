import AccessWindows.Files.Path
import AccessWindows.Proofs.Blank
import AccessWindows.Proofs.Joined

/-!
# File paths — what lies beside a file

Two paths with a slash between them have the parts of the one and then those of the other
(`parts_append`).  So the directory of a file whose path ends in a name is what stands before the
slash (`parent?_append`), and another path as seen from there stands behind it (`join_eq`).
-/

namespace AccessWindows.Path

variable {directory name path : String}

/-- A single part that means something. -/
def IsName (name : String) : Prop := '/' ∉ name.toList ∧ isVoid name = false

/-- The last part of the path means something. -/
def EndsInName (path : String) : Prop := ∀ last, (parts path).getLast? = some last →
  isVoid last = false

theorem parts_append (directory name : String) :
    parts (directory ++ "/" ++ name) = parts directory ++ parts name := by
  have hsplit : (directory ++ "/" ++ name).toList.splitOn '/' =
      directory.toList.splitOn '/' ++ name.toList.splitOn '/' := by
    rw [String.toList_append, String.toList_append, List.append_assoc]
    exact List.splitOnP_append_cons directory.toList name.toList (beq_self_eq_true '/')
  rw [parts, hsplit, List.map_append]
  rfl

theorem parts_of_not_mem (h : '/' ∉ name.toList) : parts name = [name] := by
  have hjoined : "/".intercalate [name] = name := by
    rw [← String.toList_inj, String.toList_intercalate, List.map_singleton,
      List.intercalate_singleton]
  have hsplit : parts ("/".intercalate [name]) = [name] :=
    splitOn_toList_intercalate rfl (List.cons_ne_nil _ _) (by simpa using h)
  rwa [hjoined] at hsplit

theorem intercalate_parts (path : String) : "/".intercalate (parts path) = path :=
  String.toList_inj.mp (toList_intercalate_splitOn rfl path.toList)

theorem dropVoidEnd_eq_self {l : List String} (h : ∀ last, l.getLast? = some last →
    isVoid last = false) : dropVoidEnd l = l := by
  rw [dropVoidEnd, dropWhile_eq_self (by simpa using h), List.reverse_reverse]

/-- A file without a directory in its path is in the directory one is in. -/
theorem parent?_of_isName (h : IsName name) : parent? name = some "" := by
  have hname : name ≠ "" := by
    rintro rfl
    exact absurd h.2 (by decide)
  rw [parent?, parts_of_not_mem h.1]
  exact if_neg hname

/-- **The directory of a file** is what stands before the last slash. -/
theorem parent?_append (hdirectory : EndsInName directory) (hname : IsName name) :
    parent? (directory ++ "/" ++ name) = some directory := by
  obtain ⟨first, others, hparts⟩ := List.exists_cons_of_ne_nil
    (show parts directory ≠ [] by simp [parts])
  have hback := intercalate_parts directory
  have hlast : ∀ last, others.getLast? = some last → isVoid last = false := by
    intro last h
    refine hdirectory last ?_
    rw [hparts, List.getLast?_cons, h, Option.getD_some]
  have hend : dropVoidEnd (others ++ [name]) = others ++ [name] :=
    dropVoidEnd_eq_self fun last h => by
      rw [List.getLast?_concat, Option.some.injEq] at h
      exact h ▸ hname.2
  have hfirst : ¬ (first = "" ∧ others = []) := by
    rintro ⟨rfl, rfl⟩
    exact absurd (hdirectory "" (by rw [hparts]; rfl)) (by decide)
  rw [parent?, parts_append, parts_of_not_mem hname.1, hparts, List.cons_append]
  simp only [hend]
  split
  next hnil => exact absurd hnil (List.concat_ne_nil name others)
  next => rw [List.dropLast_concat, dropVoidEnd_eq_self hlast, if_neg hfirst, ← hparts, hback]

theorem join_of_isAbsolute (h : isAbsolute path = true) : join directory path = path :=
  if_pos (.inl h)

theorem join_empty (path : String) : join "" path = path := if_pos (.inr rfl)

/-- A path that does not start at the root is put behind the directory. -/
theorem join_eq (hdirectory : EndsInName directory) (h : isAbsolute path = false) :
    join directory path = directory ++ "/" ++ path := by
  have hempty : directory ≠ "" := by
    rintro rfl
    exact absurd (hdirectory "" rfl) (by decide)
  have hslash : directory.toList.getLast? ≠ some '/' := by
    intro hlast
    obtain ⟨front, hfront⟩ := List.getLast?_eq_some_iff.mp hlast
    have heq : directory = String.ofList front ++ "/" ++ "" := by
      rw [← String.toList_inj, hfront]
      simp
    refine absurd (hdirectory "" ?_) (by decide)
    rw [heq, parts_append]
    exact List.getLast?_concat
  simp [join, h, hempty, hslash]

end AccessWindows.Path
