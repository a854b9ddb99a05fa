import AccessWindows.Document.Json.Token
import AccessWindows.Document.Json.Writer
import AccessWindows.Proofs.Decimal
import Mathlib.Data.List.TakeWhile

/-!
# JSON — texts that spell tokens

A text *spells* a sequence of tokens when it is made of their written forms: marks by themselves,
strings between quotation marks with what must be escaped in them escaped, and words and numerals,
which go on until white space or a mark ends them.  White space may stand between any two of these.
The scanner finds the tokens that a text spells (`Spells.tokens?_eq`).

The code points of a string are those of its characters, none of which is half of a surrogate pair,
so that they are read as the string again (`stringText?_points`); and the numeral of a whole number
that fits in sixty-four bits is read as that number (`scalar?_integer`).
-/

namespace AccessWindows.Document.Json

/-- The code points of a text. -/
def points (s : String) : List Nat := s.toList.map Char.toNat

/-- A word that stands in front of the text ends where the text begins. -/
def EndsWord (cs : List Char) : Prop :=
  ∀ c, cs.head? = some c → Scan.isSpace c = true ∨ Scan.isMark c = true

/-- The character belongs to a word or a numeral. -/
def IsWordChar (c : Char) : Prop := Scan.isSpace c = false ∧ Scan.isMark c = false ∧ c ≠ '"'

/-- The text is made of the written forms of the tokens. -/
inductive Spells : List Char → List Token → Prop where
  | done : Spells [] []
  | space {c : Char} {cs : List Char} {ts : List Token} (h : Scan.isSpace c = true)
      (hs : Spells cs ts) : Spells (c :: cs) ts
  | mark {c : Char} {cs : List Char} {ts : List Token} (h : Scan.isMark c = true)
      (hs : Spells cs ts) : Spells (c :: cs) (.mark c :: ts)
  | string (s : String) {cs : List Char} {ts : List Token} (hs : Spells cs ts) :
      Spells ((quoted s).toList ++ cs) (.string (points s) :: ts)
  | word {run : List Char} {v : Value} {cs : List Char} {ts : List Token}
      (hv : Scan.scalar? run = some v) (hne : run ≠ []) (hrun : ∀ c ∈ run, IsWordChar c)
      (hend : EndsWord cs) (hs : Spells cs ts) : Spells (run ++ cs) (.scalar v :: ts)

namespace Scan

/-- The tokens of a scan that has come to the end of the text. -/
def result? (s : Scan) : Option (List Token) :=
  match s.place with
  | .between => some s.tokens.reverse
  | .word run => (scalar? run.reverse).map fun v => (.scalar v :: s.tokens).reverse
  | _ => none

theorem tokens?_eq_bind (text : List Char) :
    tokens? text = (text.foldlM step? ⟨.between, []⟩).bind result? := by
  rw [tokens?]
  refine Option.bind_congr fun s _ => ?_
  rw [result?]
  cases s.place with
  | word run => cases h : scalar? run.reverse <;> simp [h]
  | _ => rfl

/-! ### Words -/

variable {tokens : List Token}

theorem foldlM_word (first : List Char) {run : List Char} (hrun : ∀ c ∈ run, IsWordChar c) :
    run.foldlM step? ⟨.word first, tokens⟩ = some ⟨.word (run.reverse ++ first), tokens⟩ := by
  induction run generalizing first with
  | nil => rfl
  | cons c run ih =>
      obtain ⟨⟨hs, hm, hq⟩, hrun⟩ := List.forall_mem_cons.mp hrun
      have hstep : step? ⟨.word first, tokens⟩ c = some ⟨.word (c :: first), tokens⟩ := by
        simp [step?, hs, hm, hq]
      rw [List.foldlM_cons, hstep, List.reverse_cons, List.append_assoc]
      exact ih (c :: first) hrun

theorem open?_word {c : Char} (h : IsWordChar c) :
    open? tokens c = some ⟨.word [c], tokens⟩ := by
  obtain ⟨hs, hm, hq⟩ := h
  simp [open?, hs, hm, hq]

/-- A word that ends is the token that it spells. -/
theorem scan_word {run cs : List Char} {v : Value} (hv : scalar? run.reverse = some v)
    (hend : EndsWord cs) :
    (cs.foldlM step? ⟨.word run, tokens⟩).bind result? =
      (cs.foldlM step? ⟨.between, .scalar v :: tokens⟩).bind result? := by
  cases cs with
  | nil => simp [result?, hv]
  | cons c cs =>
      have hc : isSpace c = true ∨ isMark c = true ∨ c = '"' :=
        (hend c rfl).imp_right Or.inl
      have hstep : step? ⟨.word run, tokens⟩ c = step? ⟨.between, .scalar v :: tokens⟩ c := by
        simp only [step?, if_pos hc, hv]
        rfl
      rw [List.foldlM_cons, List.foldlM_cons, hstep]

/-! ### Strings -/

theorem hexValue?_digit {n : Nat} (h : n < 16) : hexValue? (Hex.digit n) = some n := by
  have hall : ∀ n < 16, hexValue? (Hex.digit n) = some n := by decide
  exact hall n h

/-- An escaped character is one code point of the string. -/
theorem foldlM_escape (c : Char) (run : List Nat) :
    (escape c).foldlM step? ⟨.string run, tokens⟩ = some ⟨.string (c.toNat :: run), tokens⟩ := by
  have hletter : ∀ {c : Char} {n : Nat}, c ≠ 'u' → unescape? c = some n →
      (['\\', c].foldlM step? ⟨.string run, tokens⟩) = some ⟨.string (n :: run), tokens⟩ :=
    fun hu hn => by simp [step?, hu, hn]
  have hcode : ∀ {c : Char} {n : Nat}, c.toNat = n → c = Char.ofNat n :=
    fun h => h ▸ (Char.ofNat_toNat _).symm
  unfold escape
  split
  next h => subst h; exact hletter (by decide) rfl
  split
  next h => subst h; exact hletter (by decide) rfl
  split
  next h => subst h; exact hletter (by decide) rfl
  split
  next h => subst h; exact hletter (by decide) rfl
  split
  next h => subst h; exact hletter (by decide) rfl
  split
  next h => rw [h]; exact hletter (by decide) rfl
  split
  next h => rw [h]; exact hletter (by decide) rfl
  split
  next h =>
      have hhigh := hexValue?_digit (by omega : c.toNat / 16 < 16)
      have hlow := hexValue?_digit (Nat.mod_lt c.toNat (by decide : 0 < 16))
      have hzero : hexValue? '0' = some 0 := rfl
      simp only [List.foldlM_cons, List.foldlM_nil, step?, hzero, hhigh, hlow]
      simp [Nat.div_add_mod]
  next hquote hslash _ _ _ _ _ hsmall => simp [step?, hquote, hslash, hsmall]

theorem foldlM_escapes (cs : List Char) (run : List Nat) :
    (cs.flatMap escape).foldlM step? ⟨.string run, tokens⟩ =
      some ⟨.string ((cs.map Char.toNat).reverse ++ run), tokens⟩ := by
  induction cs generalizing run with
  | nil => rfl
  | cons c cs ih =>
      rw [List.flatMap_cons, List.foldlM_append, foldlM_escape, List.map_cons, List.reverse_cons,
        List.append_assoc]
      exact ih (c.toNat :: run)

theorem foldlM_quoted (s : String) :
    (quoted s).toList.foldlM step? ⟨.between, tokens⟩ =
      some ⟨.between, .string (points s) :: tokens⟩ := by
  have hlist : (quoted s).toList = '"' :: (s.toList.flatMap escape ++ ['"']) := by
    simp [quoted, String.toList_append]
  have hopen : step? ⟨.between, tokens⟩ '"' = some ⟨.string [], tokens⟩ := rfl
  have hclose : step? ⟨.string (points s).reverse, tokens⟩ '"' =
      some ⟨.between, .string (points s) :: tokens⟩ := by
    simp [step?]
  rw [hlist, List.foldlM_cons, hopen]
  simp only [Option.bind_eq_bind, Option.bind_some, List.foldlM_append, foldlM_escapes,
    List.append_nil]
  rw [← points, List.foldlM_cons, hclose]
  rfl

end Scan

open Scan

/-- The scan of a text that spells tokens adds these to the tokens found before. -/
theorem Spells.scan {cs : List Char} {ts : List Token} (h : Spells cs ts) (tokens : List Token) :
    (cs.foldlM step? ⟨.between, tokens⟩).bind result? = some (tokens.reverse ++ ts) := by
  induction h generalizing tokens with
  | done => simp [result?]
  | space hc _ ih =>
      have hstep : step? ⟨.between, tokens⟩ _ = some ⟨.between, tokens⟩ := if_pos hc
      rw [List.foldlM_cons, hstep]
      exact ih tokens
  | @mark c _ ts hc _ ih =>
      have hspace : isSpace c = false := by
        simp only [isMark, Bool.or_eq_true, decide_eq_true_eq] at hc
        rcases hc with ((((rfl | rfl) | rfl) | rfl) | rfl) | rfl <;> rfl
      have hstep : step? ⟨.between, tokens⟩ c = some ⟨.between, .mark c :: tokens⟩ := by
        simp [step?, open?, hspace, hc]
      rw [List.foldlM_cons, hstep]
      exact (ih (.mark c :: tokens)).trans (by simp)
  | string s _ ih =>
      rw [List.foldlM_append, foldlM_quoted]
      exact (ih (.string (points s) :: tokens)).trans (by simp)
  | @word run v cs ts hv hne hrun hend _ ih =>
      obtain ⟨c, run, rfl⟩ := List.exists_cons_of_ne_nil hne
      obtain ⟨hc, hrun⟩ := List.forall_mem_cons.mp hrun
      have hstep : step? ⟨.between, tokens⟩ c = some ⟨.word [c], tokens⟩ := open?_word hc
      have hback : (run.reverse ++ [c]).reverse = c :: run := by simp
      rw [List.cons_append, List.foldlM_cons, hstep]
      simp only [Option.bind_eq_bind, Option.bind_some, List.foldlM_append, foldlM_word [c] hrun]
      rw [scan_word (hback ▸ hv) hend, ih]
      simp

/-- **The scanner finds what a text spells.** -/
theorem Spells.tokens?_eq {cs : List Char} {ts : List Token} (h : Spells cs ts) :
    tokens? cs = some ts := by
  rw [tokens?_eq_bind]
  exact h.scan []

/-! ### Characters and code points -/

/-- No character is half of a surrogate pair. -/
theorem not_surrogate (c : Char) : ¬ (0xd800 ≤ c.toNat ∧ c.toNat ≤ 0xdfff) := by
  have h := c.valid
  simp only [UInt32.isValidChar, Nat.isValidChar] at h
  simp only [Char.toNat]
  omega

theorem joinSurrogates?_map_toNat (cs : List Char) :
    joinSurrogates? (cs.map Char.toNat) = some cs := by
  induction cs with
  | nil => rfl
  | cons c cs ih =>
      have hc := not_surrogate c
      cases cs with
      | nil => simp only [List.map_cons, List.map_nil, joinSurrogates?, if_neg hc, Char.ofNat_toNat]
      | cons c' cs =>
          simp only [List.map_cons] at ih ⊢
          rw [joinSurrogates?, if_neg (by omega), if_neg (by omega), ih, Char.ofNat_toNat]
          rfl

theorem stringText?_points (s : String) : stringText? (points s) = some s := by
  rw [stringText?, points, joinSurrogates?_map_toNat]
  exact congrArg some String.ofList_toList

/-! ### Numerals of whole numbers -/

theorem isWordChar_of_mem_integer {n : Int} {c : Char} (h : c ∈ Decimal.integer n) :
    IsWordChar c := by
  have hdigit : ∀ d < 10, IsWordChar (Decimal.digitChar d) := by
    simp only [IsWordChar]
    decide
  rcases Decimal.sign_or_digit_of_mem_integer h with rfl | ⟨d, hd, rfl⟩
  · exact ⟨by decide, by decide, by decide⟩
  · exact hdigit d hd

theorem integer_ne_nil (n : Int) : Decimal.integer n ≠ [] := by
  rw [Decimal.integer]
  split
  · exact List.cons_ne_nil _ _
  · exact Decimal.digits_ne_nil _

namespace Numeral

/-- The digits of a numeral, as values. -/
def digitsOf (n : Nat) : List Nat := (Decimal.digits n).filterMap Decimal.digitValue?

theorem run?_digits (n : Nat) : run? (Decimal.digits n) = some (digitsOf n, []) := by
  have hall : (Decimal.digits n).takeWhile (fun c => (Decimal.digitValue? c).isSome) =
      Decimal.digits n := by
    refine List.takeWhile_eq_self_iff.mpr fun c hc => ?_
    obtain ⟨d, hd, rfl⟩ := Decimal.isDigit_of_mem_digits hc
    rw [Decimal.digitValue?_digitChar hd]
    rfl
  rw [run?, hall]
  split
  next h => exact absurd h (Decimal.digits_ne_nil n)
  next => rw [List.drop_length, digitsOf]

/-- The numeral of a number has no zero in front of other digits. -/
theorem whole?_digits (n : Nat) : whole? (Decimal.digits n) = some (digitsOf n, []) := by
  rw [whole?, run?_digits]
  split
  next hd =>
      exfalso
      have hd := (Prod.mk.inj (Option.some.inj hd)).1
      by_cases hn : n < 10
      · rw [digitsOf, Decimal.digits, if_pos hn,
          List.filterMap_cons_some (Decimal.digitValue?_digitChar hn)] at hd
        cases hd
      · obtain ⟨d, hpos, hlt, hhead⟩ := Decimal.digits_head (Nat.le_of_not_lt hn)
        obtain ⟨rest, hrest⟩ := List.head?_eq_some_iff.mp hhead
        rw [digitsOf, hrest, List.filterMap_cons_some (Decimal.digitValue?_digitChar hlt)] at hd
        have hzero := (List.cons.inj hd).1
        omega
  next => rfl

theorem ofChars?_integer (n : Int) :
    ofChars? (Decimal.integer n) =
      some { negative := decide (n < 0), whole := digitsOf n.natAbs, fraction := none,
             exponent := none } := by
  have hwhole := whole?_digits n.natAbs
  rw [Decimal.integer]
  split
  next hn => simp [ofChars?, hwhole, fraction?, exponent?, hn]
  next hn =>
      obtain ⟨c, cs, hcs⟩ := List.exists_cons_of_ne_nil (Decimal.digits_ne_nil n.natAbs)
      obtain ⟨d, hd, rfl⟩ :=
        Decimal.isDigit_of_mem_digits (hcs ▸ List.mem_cons_self : c ∈ Decimal.digits n.natAbs)
      have hminus := (Decimal.digitChar_ne_sign hd).1
      rw [hcs] at hwhole ⊢
      simp [ofChars?, hwhole, fraction?, exponent?, hn, hminus]

end Numeral

/-- **Whole numbers** that fit in sixty-four bits are read back from their numerals. -/
theorem scalar?_integer {n : Int} (h : -9223372036854775808 ≤ n ∧ n < 18446744073709551616) :
    Scan.scalar? (Decimal.integer n) = some (.int n) := by
  have hnumeral := Numeral.ofChars?_integer n
  have hword : ∀ {cs : List Char}, Numeral.ofChars? cs = none → Decimal.integer n ≠ cs :=
    fun hcs he => by
      rw [he, hcs] at hnumeral
      cases hnumeral
  rw [Scan.scalar?, if_neg (hword rfl), if_neg (hword rfl), if_neg (hword rfl), hnumeral,
    Option.map_some, Numeral.toValue]
  simp only [Numeral.digitsOf, Decimal.foldl_digits, Option.isSome_none, Bool.false_eq_true,
    or_self, if_false, decide_eq_true_eq, UInt64.size]
  split
  next hn =>
      rw [if_pos (by omega)]
      exact congrArg (some ∘ Value.int) (by omega : -(n.natAbs : Int) = n)
  next hn =>
      rw [if_pos (by omega)]
      exact congrArg (some ∘ Value.int) (by omega : (n.natAbs : Int) = n)

end AccessWindows.Document.Json
