import AccessWindows.Proofs.Identity
import AccessWindows.Proofs.Steps

/-!
# Hexadecimal digits — reading any text

A text is read byte by byte, though what is meant is its digits.  The two agree: a byte has a value
just if it is the code of a digit (`isSome_value?_iff`), and no byte of a longer character is, so
that the bytes of a text are codes of digits just if its characters are digits
(`forall_encode_iff`).

What is read is written with the same digits, in lower case (`decode_eq_ok`).  What is refused is
refused for the one reason that fits (`Malformed.Fits`): an odd number of bytes, or else the first
of them that is the code of no digit (`fits_of_decode_eq_error`).
-/

namespace AccessWindows

/-! ### Digits and their codes -/

namespace Hex

/-- One of the sixteen digits, in either case. -/
def IsDigit (c : Char) : Prop :=
  '0' ≤ c ∧ c ≤ '9' ∨ 'a' ≤ c ∧ c ≤ 'f' ∨ 'A' ≤ c ∧ c ≤ 'F'

instance : DecidablePred IsDigit := fun c =>
  inferInstanceAs (Decidable ('0' ≤ c ∧ c ≤ '9' ∨ 'a' ≤ c ∧ c ≤ 'f' ∨ 'A' ≤ c ∧ c ≤ 'F'))

/-- The character whose code a byte is. -/
def charOf (b : UInt8) : Char := Char.ofNat b.toNat

/-- What holds of the bytes up to 255 holds of all bytes. -/
theorem forall_byte {P : UInt8 → Prop} (h : ∀ n < 256, P (UInt8.ofNat n)) (b : UInt8) : P b := by
  rw [← UInt8.ofNat_toNat (x := b)]
  exact h b.toNat b.toNat_lt

section bytes

set_option maxRecDepth 4096

/-- The codes of digits are the bytes that have a value. -/
theorem isSome_value?_iff (b : UInt8) : (value? b).isSome = true ↔ IsDigit (charOf b) :=
  forall_byte (P := fun b => (value? b).isSome = true ↔ IsDigit (charOf b)) (by decide) b

/-- The digit of a value is the one it was read from, in lower case. -/
theorem digit_of_mem_value? (b : UInt8) :
    ∀ v ∈ value? b, v.toNat < 16 ∧ digit v.toNat = (charOf b).toLower :=
  forall_byte (P := fun b => ∀ v ∈ value? b, v.toNat < 16 ∧ digit v.toNat = (charOf b).toLower)
    (by decide) b

/-- The bytes that only occur within longer characters are the codes of no digits. -/
theorem not_isDigit_charOf {b : UInt8} (h : 128 ≤ b.toNat) : ¬ IsDigit (charOf b) :=
  forall_byte (P := fun b => 128 ≤ b.toNat → ¬ IsDigit (charOf b)) (by decide) b h

end bytes

/-- A byte without a value is no digit. -/
theorem not_isDigit_of_none {b : UInt8} (h : value? b = none) : ¬ IsDigit (charOf b) := by
  rw [← isSome_value?_iff, h]
  exact Bool.false_ne_true

/-- A byte with a value is a digit. -/
theorem isDigit_of_some {b v : UInt8} (h : value? b = some v) : IsDigit (charOf b) := by
  rw [← isSome_value?_iff, h]
  rfl

/-- The two digits of a byte that two digits were read as are these digits, in lower case. -/
theorem byte_of_values {high low h l : UInt8} (hhigh : value? high = some h)
    (hlow : value? low = some l) :
    byte (16 * h + l) = [(charOf high).toLower, (charOf low).toLower] := by
  obtain ⟨hh, hdh⟩ := digit_of_mem_value? high h hhigh
  obtain ⟨hl, hdl⟩ := digit_of_mem_value? low l hlow
  have hsum : (16 * h + l).toNat = 16 * h.toNat + l.toNat := by
    rw [UInt8.toNat_add, UInt8.toNat_mul]
    simp
    omega
  have hdiv : (16 * h + l).toNat / 16 = h.toNat := by omega
  have hmod : (16 * h + l).toNat % 16 = l.toNat := by omega
  rw [byte, hdiv, hmod, hdh, hdl]

/-! ### Writing pairs -/

/-- Bytes are written with digits, two for each. -/
theorem length_flatMap_byte (bs : List UInt8) : (bs.flatMap byte).length = 2 * bs.length := by
  induction bs with
  | nil => rfl
  | cons b bs ih =>
      rw [List.flatMap_cons, List.length_append, ih, List.length_cons]
      simp only [byte, List.length_cons, List.length_nil]
      omega

theorem isDigit_of_mem_flatMap_byte {bs : List UInt8} {c : Char} (h : c ∈ bs.flatMap byte) :
    IsDigit c := by
  have hdigit : ∀ n < 16, IsDigit (digit n) := by decide
  obtain ⟨b, -, hc⟩ := List.mem_flatMap.mp h
  have hlt : b.toNat < 256 := b.toNat_lt
  rcases List.mem_cons.mp hc with rfl | hc
  · exact hdigit _ (by omega)
  · rw [List.mem_singleton.mp hc]
    exact hdigit _ (by omega)

/-- Each byte takes two digits. -/
theorem take_flatMap_byte (n : Nat) (bs : List UInt8) :
    (bs.take n).flatMap byte = (bs.flatMap byte).take (2 * n) := by
  induction n generalizing bs with
  | zero => rfl
  | succ n ih =>
      cases bs with
      | nil => rfl
      | cons b bs =>
          rw [List.take_succ_cons, List.flatMap_cons, List.flatMap_cons, ih]
          rfl

/-! ### Reading pairs -/

/-- The place of the first byte of a text that is the code of no digit. -/
structure FirstBad (text : List UInt8) (code : UInt8) (index : Nat) : Prop where
  there : text[index]? = some code
  bad : ¬ IsDigit (charOf code)
  first : ∀ b ∈ text.take index, IsDigit (charOf b)

section reading

variable {text : List UInt8} {code : UInt8} {index : Nat}

/-- A byte in front that is no digit is the first bad one. -/
theorem FirstBad.head (h : ¬ IsDigit (charOf code)) : FirstBad (code :: text) code 0 :=
  ⟨rfl, h, fun _ hb => absurd hb List.not_mem_nil⟩

/-- A digit in front moves the first bad byte one further. -/
theorem FirstBad.cons {b : UInt8} (hb : IsDigit (charOf b)) (h : FirstBad text code index) :
    FirstBad (b :: text) code (index + 1) := by
  refine ⟨h.there, h.bad, ?_⟩
  intro b' hb'
  rcases List.mem_cons.mp hb' with rfl | hb'
  · exact hb
  · exact h.first b' hb'

/-- The bytes in front of a place hold any place further in front. -/
theorem mem_take_of_getElem? {i : Nat} (h : text[i]? = some code) (hlt : i < index) :
    code ∈ text.take index :=
  List.mem_of_getElem? ((List.getElem?_take_of_lt hlt).trans h)

/-- There is only one first bad byte. -/
theorem FirstBad.unique {code' : UInt8} {index' : Nat} (h : FirstBad text code index)
    (h' : FirstBad text code' index') : code = code' ∧ index = index' := by
  rcases Nat.lt_trichotomy index index' with hlt | rfl | hlt
  · exact absurd (h'.first code (mem_take_of_getElem? h.there hlt)) h.bad
  · exact ⟨Option.some.inj (h.there.symm.trans h'.there), rfl⟩
  · exact absurd (h.first code' (mem_take_of_getElem? h'.there hlt)) h'.bad

theorem FirstBad.not_forall (h : FirstBad text code index) :
    ¬ ∀ b ∈ text, IsDigit (charOf b) :=
  fun hall => h.bad (hall code (List.mem_of_getElem? h.there))

/-- What an even number of codes is read as is written with the same digits, in lower case. -/
theorem decodeFrom_eq_ok {bytes : List UInt8} (heven : text.length % 2 = 0)
    (h : decodeFrom index text = .ok bytes) :
    (∀ b ∈ text, IsDigit (charOf b)) ∧
      bytes.flatMap byte = text.map fun b => (charOf b).toLower := by
  fun_induction decodeFrom index text generalizing bytes with
  | case1 index high low rest vhigh vlow hlow hhigh ih =>
      have hrestEven : rest.length % 2 = 0 := by
        simp only [List.length_cons] at heven
        omega
      obtain ⟨bs, hrest, rfl⟩ := map_eq_ok_iff.mp h
      obtain ⟨hall, hdigits⟩ := ih hrestEven hrest
      refine ⟨?_, ?_⟩
      · intro b hb
        rcases List.mem_cons.mp hb with rfl | hb
        · exact isDigit_of_some hhigh
        · rcases List.mem_cons.mp hb with rfl | hb
          · exact isDigit_of_some hlow
          · exact hall b hb
      · rw [List.flatMap_cons, byte_of_values hhigh hlow, hdigits]
        rfl
  | case2 => cases h
  | case3 => cases h
  | case4 rest _ hshort =>
      cases h
      match rest, heven, hshort with
      | [], _, _ => exact ⟨fun b hb => absurd hb List.not_mem_nil, rfl⟩
      | [b], heven, _ => cases heven
      | b :: b' :: rest, _, hshort => exact absurd rfl (hshort b b' rest)

/-- What is refused is refused for the first byte that is the code of no digit. -/
theorem decodeFrom_eq_error {cause : Malformed} (h : decodeFrom index text = .error cause) :
    ∃ code i, cause = .badDigit code (index + i) ∧ FirstBad text code i := by
  fun_induction decodeFrom index text generalizing cause with
  | case1 index high low rest vhigh vlow hlow hhigh ih =>
      obtain ⟨code, i, rfl, hbad⟩ := ih (map_eq_error_iff.mp h)
      refine ⟨code, i + 2, ?_, (hbad.cons (isDigit_of_some hlow)).cons (isDigit_of_some hhigh)⟩
      rw [Nat.add_assoc, Nat.add_comm 2 i]
  | case2 index high low rest hhigh =>
      cases h
      exact ⟨high, 0, rfl, .head (not_isDigit_of_none hhigh)⟩
  | case3 index high low rest hlow hhigh =>
      cases h
      obtain ⟨v, hv⟩ := Option.ne_none_iff_exists'.mp hhigh
      exact ⟨low, 1, rfl, (FirstBad.head (not_isDigit_of_none hlow)).cons (isDigit_of_some hv)⟩
  | case4 => cases h

/-- The reason that fits a text, given as its bytes, is the first that applies: the number of bytes
is odd, or one of them is the code of no digit. -/
def Malformed.Fits (text : List UInt8) : Malformed → Prop
  | .oddLength => text.length % 2 = 1
  | .badDigit code index => text.length % 2 = 0 ∧ FirstBad text code index

/-- No two reasons fit. -/
theorem Malformed.Fits.unique {cause cause' : Malformed} (h : cause.Fits text)
    (h' : cause'.Fits text) : cause = cause' := by
  match cause, cause', h, h' with
  | .oddLength, .oddLength, _, _ => rfl
  | .oddLength, .badDigit _ _, hodd, ⟨heven, _⟩ =>
      exact absurd (hodd.symm.trans heven) (by decide)
  | .badDigit _ _, .oddLength, ⟨heven, _⟩, hodd =>
      exact absurd (hodd.symm.trans heven) (by decide)
  | .badDigit _ _, .badDigit _ _, ⟨_, hbad⟩, ⟨_, hbad'⟩ =>
      obtain ⟨rfl, rfl⟩ := hbad.unique hbad'
      rfl

/-- None fits the codes of pairs of digits. -/
theorem Malformed.Fits.not_pairs {cause : Malformed} (h : cause.Fits text) {n : Nat}
    (hlength : text.length = 2 * n) : ¬ ∀ b ∈ text, IsDigit (charOf b) := by
  match cause, h with
  | .oddLength, hodd =>
      rw [Fits, hlength, Nat.mul_mod_right] at hodd
      cases hodd
  | .badDigit _ _, ⟨_, hbad⟩ => exact hbad.not_forall

/-- What is decoded has two digits for each byte, and these spell the bytes. -/
theorem decode_eq_ok {bytes : List UInt8} (h : decode text = .ok bytes) :
    text.length = 2 * bytes.length ∧ (∀ b ∈ text, IsDigit (charOf b)) ∧
      bytes.flatMap byte = text.map fun b => (charOf b).toLower := by
  rw [decode] at h
  split at h
  next => cases h
  next heven =>
      obtain ⟨hall, hdigits⟩ := decodeFrom_eq_ok (Nat.mod_two_ne_one.mp heven) h
      have hlength := congrArg List.length hdigits
      rw [length_flatMap_byte, List.length_map] at hlength
      exact ⟨hlength.symm, hall, hdigits⟩

/-- The cause of a refusal is what is wrong with the text. -/
theorem fits_of_decode_eq_error {cause : Malformed} (h : decode text = .error cause) :
    cause.Fits text := by
  rw [decode] at h
  split at h
  next hodd =>
      cases h
      exact hodd
  next heven =>
      obtain ⟨code, i, rfl, hbad⟩ := decodeFrom_eq_error h
      rw [Nat.zero_add]
      exact ⟨Nat.mod_two_ne_one.mp heven, hbad⟩

end reading

end Hex

/-! ### Texts and their bytes -/

/-- A digit is a character of one byte. -/
theorem Hex.IsDigit.toNat_lt {c : Char} (h : IsDigit c) : c.toNat < 128 := by
  have hle : c ≤ 'f' := by
    rcases h with ⟨-, h⟩ | ⟨-, h⟩ | ⟨-, h⟩
    · exact Char.le_trans h (by decide)
    · exact h
    · exact Char.le_trans h (by decide)
  exact Nat.lt_of_le_of_lt (Char.le_def.mp hle) (by decide)

/-- A capital is a digit if the small letter is. -/
theorem Hex.isDigit_toLower_iff (c : Char) : IsDigit c.toLower ↔ IsDigit c := by
  by_cases hc : c.toNat < 128
  · have hall : ∀ n < 128, IsDigit (Char.ofNat n).toLower ↔ IsDigit (Char.ofNat n) := by decide
    rw [← Char.ofNat_toNat c]
    exact hall c.toNat hc
  · have hupper : ¬ (c.val ≥ 'A'.val ∧ c.val ≤ 'Z'.val) := by
      rintro ⟨-, hle⟩
      exact hc (Nat.lt_of_le_of_lt (UInt32.le_iff_toNat_le.mp hle) (by decide))
    have hlower : c.toLower = c := dif_neg hupper
    rw [hlower]

namespace Utf8

/-- The bytes of a text are those of its characters. -/
theorem encode_eq_flatMap (s : String) :
    encode s = s.toList.flatMap String.utf8EncodeChar := by
  obtain ⟨cs, rfl⟩ : ∃ cs, s = String.ofList cs := ⟨s.toList, String.ofList_toList.symm⟩
  rw [encode, String.toUTF8_eq_toByteArray, String.toByteArray_ofList, String.toList_ofList]
  exact congrArg Array.toList List.data_toByteArray

/-- A character of one byte is its own code. -/
theorem encodeChar_of_lt {c : Char} (h : c.toNat < 128) :
    String.utf8EncodeChar c = [c.val.toUInt8] :=
  String.utf8EncodeChar_eq_singleton (Char.utf8Size_eq_one_iff.mpr (Nat.le_of_lt_succ h))

/-- Any other character begins with a byte that is no character by itself. -/
theorem exists_mem_encodeChar {c : Char} (h : ¬ c.toNat < 128) :
    ∃ b ∈ String.utf8EncodeChar c, 128 ≤ b.toNat := by
  have hor : ∀ x y : UInt8, 128 ≤ y.toNat → 128 ≤ (x ||| y).toNat := by
    intro x y hy
    rw [UInt8.toNat_or]
    exact Nat.le_trans hy Nat.right_le_or
  rcases Char.utf8Size_eq c with hs | hs | hs | hs
  · exact absurd (Nat.lt_succ_of_le (Char.utf8Size_eq_one_iff.mp hs)) h
  · rw [String.utf8EncodeChar_eq_cons_cons hs]
    exact ⟨_, List.mem_cons_self, hor _ _ (by decide)⟩
  · rw [String.utf8EncodeChar_eq_cons_cons_cons hs]
    exact ⟨_, List.mem_cons_self, hor _ _ (by decide)⟩
  · rw [String.utf8EncodeChar_eq_cons_cons_cons_cons hs]
    exact ⟨_, List.mem_cons_self, hor _ _ (by decide)⟩

end Utf8

namespace Hex

theorem charOf_toUInt8 {c : Char} (h : c.toNat < 128) : charOf c.val.toUInt8 = c := by
  have hc : c.val.toUInt8.toNat = c.toNat := by
    rw [UInt32.toNat_toUInt8]
    exact Nat.mod_eq_of_lt (Nat.lt_trans h (by decide))
  rw [charOf, hc, Char.ofNat_toNat]

/-- The bytes of a character are codes of digits just if it is a digit itself. -/
theorem forall_encodeChar_iff (c : Char) :
    (∀ b ∈ String.utf8EncodeChar c, IsDigit (charOf b)) ↔ IsDigit c := by
  by_cases hc : c.toNat < 128
  · rw [Utf8.encodeChar_of_lt hc, List.forall_mem_singleton, charOf_toUInt8 hc]
  · refine iff_of_false ?_ (fun h => hc h.toNat_lt)
    intro hall
    obtain ⟨b, hb, hlarge⟩ := Utf8.exists_mem_encodeChar hc
    exact not_isDigit_charOf hlarge (hall b hb)

/-- The bytes of a text are digits if and only if its characters are. -/
theorem forall_encode_iff (s : String) :
    (∀ b ∈ Utf8.encode s, IsDigit (charOf b)) ↔ ∀ c ∈ s.toList, IsDigit c := by
  rw [Utf8.encode_eq_flatMap, List.forall_mem_flatMap]
  exact forall₂_congr fun c _ => forall_encodeChar_iff c

/-- The bytes of a text of digits are the codes of these, one for each. -/
theorem map_charOf_encode {s : String} (h : ∀ c ∈ s.toList, IsDigit c) :
    (Utf8.encode s).map charOf = s.toList := by
  rw [Utf8.encode_eq_flatMap, List.map_flatMap]
  refine (List.flatMap_congr fun c hc => ?_).trans (List.flatMap_singleton' s.toList)
  have hlt := (h c hc).toNat_lt
  rw [Utf8.encodeChar_of_lt hlt, List.map_singleton, charOf_toUInt8 hlt]

end Hex

end AccessWindows
