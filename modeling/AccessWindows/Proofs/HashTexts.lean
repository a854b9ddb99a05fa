import AccessWindows.Proofs.Decimal
import AccessWindows.Proofs.HexDigits

/-!
# Hash texts — one for each hash, up to the case of the digits

A text is read as the hash that is written like it, apart from the case of its digits
(`CredentialHash.ofText_eq_ok_iff`), so that the texts of hashes are those of sixty-four digits
(`CredentialHash.exists_ofText_iff`).

Every other text is refused for the first reason that applies to its bytes (`HashError.Fits`).  The
reasons exclude each other (`HashError.Fits.unique`), whence each refusal is known from the text
that is refused (`CredentialHash.ofText_eq_error_iff`), and it is known from its own text as well,
with the byte and the place or the number that it names (`HashError.message_injective`).
-/

namespace AccessWindows

/-! ### Refusals -/

namespace HashError

/-- The refusal that fits a text, given as its bytes, is the first that applies: it is no sequence
of bytes, or one of the wrong number. -/
def Fits (text : List UInt8) : HashError → Prop
  | .notHex cause => cause.Fits text
  | .wrongSize size =>
    text.length = 2 * size ∧ (∀ b ∈ text, Hex.IsDigit (Hex.charOf b)) ∧ size ≠ 32

variable {text : List UInt8} {e e' : HashError}

/-- No two refusals fit. -/
theorem Fits.unique (h : e.Fits text) (h' : e'.Fits text) : e = e' := by
  match e, e', h, h' with
  | .notHex _, .notHex _, hcause, hcause' =>
      exact congrArg notHex (Hex.Malformed.Fits.unique hcause hcause')
  | .notHex _, .wrongSize _, hcause, ⟨hlength, hall, _⟩ =>
      exact absurd hall (Hex.Malformed.Fits.not_pairs hcause hlength)
  | .wrongSize _, .notHex _, ⟨hlength, hall, _⟩, hcause =>
      exact absurd hall (Hex.Malformed.Fits.not_pairs hcause hlength)
  | .wrongSize _, .wrongSize _, ⟨hlength, _⟩, ⟨hlength', _⟩ =>
      rw [Nat.eq_of_mul_eq_mul_left (by decide) (hlength.symm.trans hlength')]

/-- None fits the codes of sixty-four digits. -/
theorem Fits.not_digits (h : e.Fits text) (hlength : text.length = 2 * 32) :
    ¬ ∀ b ∈ text, Hex.IsDigit (Hex.charOf b) := by
  match e, h with
  | .notHex _, hcause => exact Hex.Malformed.Fits.not_pairs hcause hlength
  | .wrongSize _, ⟨hsize, _, hne⟩ =>
      exact absurd (Nat.eq_of_mul_eq_mul_left (by decide) (hsize.symm.trans hlength)) hne

end HashError

namespace CredentialHash

variable {s : String} {h : CredentialHash} {e : HashError}

theorem ofBytes?_eq_some {bytes : List UInt8} (hb : ofBytes? bytes = some h) :
    h.bytes.toList = bytes := by
  rw [ofBytes?] at hb
  split at hb
  · cases hb
    rfl
  · cases hb

theorem ofBytes?_eq_none {bytes : List UInt8} (hb : ofBytes? bytes = none) :
    bytes.length ≠ 32 := by
  intro h32
  rw [ofBytes?, dif_pos h32] at hb
  cases hb

/-- What was read is written with the same digits, in lower case. -/
theorem of_ofText_eq_ok (hok : ofText s = .ok h) :
    (Utf8.encode s).length = 2 * 32 ∧ (∀ b ∈ Utf8.encode s, Hex.IsDigit (Hex.charOf b)) ∧
      h.bytes.toList.flatMap Hex.byte = (Utf8.encode s).map fun b => (Hex.charOf b).toLower := by
  rw [ofText] at hok
  split at hok
  next => cases hok
  next bytes hread =>
      split at hok
      next h' hbytes =>
          cases hok
          have hspec := Hex.decode_eq_ok hread
          rw [← ofBytes?_eq_some hbytes, Vector.length_toList] at hspec
          exact hspec
      next => cases hok

/-- Whatever is refused is refused for a reason that fits it. -/
theorem fits_of_ofText_eq_error (herror : ofText s = .error e) : e.Fits (Utf8.encode s) := by
  rw [ofText] at herror
  split at herror
  next cause hread =>
      cases herror
      exact Hex.fits_of_decode_eq_error hread
  next bytes hread =>
      split at herror
      next => cases herror
      next hbytes =>
          cases herror
          obtain ⟨hlength, hall, -⟩ := Hex.decode_eq_ok hread
          exact ⟨hlength, hall, ofBytes?_eq_none hbytes⟩

/-- A text is read just if it consists of sixty-four digits. -/
theorem exists_ofText_iff :
    (∃ h, ofText s = .ok h) ↔ s.toList.length = 64 ∧ ∀ c ∈ s.toList, Hex.IsDigit c := by
  have hbytes : (s.toList.length = 64 ∧ ∀ c ∈ s.toList, Hex.IsDigit c) ↔
      (Utf8.encode s).length = 2 * 32 ∧ ∀ b ∈ Utf8.encode s, Hex.IsDigit (Hex.charOf b) := by
    rw [Hex.forall_encode_iff]
    refine and_congr_left fun hall => ?_
    rw [← Hex.map_charOf_encode hall, List.length_map]
  rw [hbytes]
  constructor
  · rintro ⟨h, hok⟩
    obtain ⟨hlength, hall, -⟩ := of_ofText_eq_ok hok
    exact ⟨hlength, hall⟩
  · rintro ⟨hlength, hall⟩
    cases hread : ofText s with
    | ok h => exact ⟨h, rfl⟩
    | error e => exact absurd hall ((fits_of_ofText_eq_error hread).not_digits hlength)

/-- A refusal is the one that fits the text. -/
theorem ofText_eq_error_iff : ofText s = .error e ↔ e.Fits (Utf8.encode s) := by
  refine ⟨fits_of_ofText_eq_error, ?_⟩
  intro hfits
  cases hread : ofText s with
  | ok h =>
      obtain ⟨hlength, hall, -⟩ := of_ofText_eq_ok hread
      exact absurd hall (hfits.not_digits hlength)
  | error e' => rw [hfits.unique (fits_of_ofText_eq_error hread)]

theorem hex_of_ofText_eq_ok (hok : ofText s = .ok h) : h.hex = s.map Char.toLower := by
  obtain ⟨-, hall, hdigits⟩ := of_ofText_eq_ok hok
  rw [← String.toList_inj, hex, Hex.encode, String.toList_ofList, String.toList_map, hdigits,
    ← Hex.map_charOf_encode ((Hex.forall_encode_iff s).mp hall), List.map_map]
  rfl

/-- A text is read as the hash that is written like it, up to the case of the digits. -/
theorem ofText_eq_ok_iff : ofText s = .ok h ↔ h.hex = s.map Char.toLower := by
  refine ⟨hex_of_ofText_eq_ok, ?_⟩
  intro hhex
  have hlist : h.bytes.toList.flatMap Hex.byte = s.toList.map Char.toLower := by
    rw [← String.toList_map, ← hhex, hex, Hex.encode, String.toList_ofList]
  have hlength : s.toList.length = 64 := by
    rw [← List.length_map Char.toLower, ← hlist, Hex.length_flatMap_byte, Vector.length_toList]
  have hdigits : ∀ c ∈ s.toList, Hex.IsDigit c := by
    intro c hc
    rw [← Hex.isDigit_toLower_iff]
    exact Hex.isDigit_of_mem_flatMap_byte (hlist ▸ List.mem_map_of_mem hc)
  obtain ⟨h', hread⟩ := exists_ofText_iff.mpr ⟨hlength, hdigits⟩
  have hsame : h'.hex = h.hex := (hex_of_ofText_eq_ok hread).trans hhex.symm
  rw [hread, ← ofText_hex h', hsame, ofText_hex]

theorem toList_short (h : CredentialHash) : h.short.toList = h.hex.toList.take 12 := by
  rw [short, hex, Hex.encode, Hex.encode, String.toList_ofList, String.toList_ofList]
  exact Hex.take_flatMap_byte 6 _

end CredentialHash

/-! ### The texts of refusals -/

/-- The last place of a character tells what stands before it and behind it. -/
theorem append_cons_inj_of_not_mem {α : Type} {c : α} {xs ys ds es : List α} (hd : c ∉ ds)
    (he : c ∉ es) (h : xs ++ c :: ds = ys ++ c :: es) : xs = ys ∧ ds = es := by
  rcases List.append_eq_append_iff.mp h with ⟨as, rfl, has⟩ | ⟨as, rfl, has⟩
  · cases as with
    | nil => exact ⟨(List.append_nil xs).symm, (List.cons.inj has).2⟩
    | cons a as =>
        rw [(List.cons.inj has).2] at hd
        exact absurd (List.mem_append_right as List.mem_cons_self) hd
  · cases as with
    | nil => exact ⟨List.append_nil ys, (List.cons.inj has).2.symm⟩
    | cons a as =>
        rw [(List.cons.inj has).2] at he
        exact absurd (List.mem_append_right as List.mem_cons_self) he

namespace Quoted

/-- The code of the character that is shown. -/
def codeOf : List Char → Nat
  | ['\\', '0'] => 0
  | ['\\', 't'] => 9
  | ['\\', 'n'] => 10
  | ['\\', 'r'] => 13
  | ['\\', c] => c.toNat
  | '\\' :: 'u' :: '\x7b' :: cs =>
    (cs.dropLast.filterMap fun c => Hex.value? c.val.toUInt8).foldl
      (fun n v => 16 * n + v.toNat) 0
  | [c] => c.toNat
  | _ => 0

set_option maxRecDepth 4096 in
/-- A byte is known from how it is shown. -/
theorem byte_injective : Function.Injective byte := by
  have hall : ∀ n < 256, codeOf (shown n) = n := by decide
  intro b b' h
  have hshown : shown b.toNat = shown b'.toNat := by
    rw [byte, byte, String.ofList_inj] at h
    exact List.append_cancel_right (List.cons.inj h).2
  apply UInt8.toNat_inj.mp
  rw [← hall _ b.toNat_lt, hshown, hall _ b'.toNat_lt]

end Quoted

namespace HashError

variable (code : UInt8) (index size : Nat)

theorem message_badDigit : (notHex (.badDigit code index)).message =
    "credential hash is not hex: Invalid character " ++
      (Quoted.byte code ++ " at position" ++ (" " ++ Decimal.text index)) := by
  have hspace : " at position " = " at position" ++ " " := by decide
  have hmessage : (notHex (.badDigit code index)).message =
      "credential hash is not hex: Invalid character " ++ Quoted.byte code ++ " at position " ++
        Decimal.text index := rfl
  rw [hmessage, hspace]
  simp only [String.append_assoc]

theorem message_wrongSize : (wrongSize size).message =
    "credential hash must be 32 bytes, got " ++ Decimal.text size := rfl

/-- The letter by which the text of a refusal tells its kind. -/
def letter : HashError → Char
  | .notHex .oddLength => 'O'
  | .notHex (.badDigit _ _) => 'I'
  | .wrongSize _ => 'y'

theorem getElem?_message (e : HashError) : e.message.toList[28]? = some e.letter := by
  match e with
  | .notHex .oddLength => decide
  | .notHex (.badDigit code index) =>
      rw [message_badDigit, String.toList_append, List.getElem?_append_left (by decide), letter]
      decide
  | .wrongSize size =>
      rw [message_wrongSize, String.toList_append, List.getElem?_append_left (by decide), letter]
      decide

theorem badDigit_message_inj {code code' : UInt8} {index index' : Nat}
    (h : message (.notHex (.badDigit code index)) = message (.notHex (.badDigit code' index'))) :
    code = code' ∧ index = index' := by
  have hspaced : ∀ (s : String) (i : Nat),
      (s ++ (" " ++ Decimal.text i)).toList = s.toList ++ ' ' :: Decimal.digits i := by
    intro s i
    simp [Decimal.text]
  rw [message_badDigit, message_badDigit, String.append_right_inj] at h
  have hlist := congrArg String.toList h
  rw [hspaced, hspaced] at hlist
  obtain ⟨hfront, hindex⟩ := append_cons_inj_of_not_mem (Decimal.space_not_mem_digits _)
    (Decimal.space_not_mem_digits _) hlist
  rw [String.toList_inj, String.append_left_inj] at hfront
  exact ⟨Quoted.byte_injective hfront, Decimal.digits_injective hindex⟩

/-- **Each refusal has a text of its own.** -/
theorem message_injective : Function.Injective message := by
  intro e e' h
  have hletter : e.letter = e'.letter := by
    have hsome := getElem?_message e
    rw [h, getElem?_message e'] at hsome
    exact (Option.some.inj hsome).symm
  rcases e with (_ | ⟨code, index⟩) | size <;> rcases e' with (_ | ⟨code', index'⟩) | size'
  case notHex.oddLength.notHex.oddLength => rfl
  case notHex.badDigit.notHex.badDigit =>
      obtain ⟨rfl, rfl⟩ := badDigit_message_inj h
      rfl
  case wrongSize.wrongSize =>
      rw [message_wrongSize, message_wrongSize, String.append_right_inj, Decimal.text,
        Decimal.text, String.ofList_inj] at h
      rw [Decimal.digits_injective h]
  -- the letters of refusals of different kinds differ
  all_goals simp [letter] at hletter

end HashError

/-! ### The text of a hash -/

namespace CredentialHash

/-- **Texts and hashes**: a text is read just if it is sixty-four digits in any case, as the hash
whose own digits are these in lower case.  So a hash is read back from its digits, and the short
form is the first twelve of them.  What is refused is refused for the first reason that applies to
its bytes, and the text of the refusal tells which this is. -/
theorem ofText_classified (s : String) :
    ((∃ h, ofText s = .ok h) ↔ s.toList.length = 64 ∧ ∀ c ∈ s.toList, Hex.IsDigit c) ∧
      (∀ h, ofText s = .ok h ↔ h.hex = s.map Char.toLower) ∧
      (∀ h, ofText s = .ok h → h.short.toList = (s.map Char.toLower).toList.take 12) ∧
      (∀ h : CredentialHash, ofText h.hex = .ok h) ∧
      (∀ e, ofText s = .error e ↔ e.Fits (Utf8.encode s)) ∧
      Function.Injective HashError.message := by
  refine ⟨exists_ofText_iff, fun h => ofText_eq_ok_iff, ?_, ofText_hex,
    fun e => ofText_eq_error_iff, HashError.message_injective⟩
  intro h hok
  rw [toList_short, hex_of_ofText_eq_ok hok]

/-- The two bytes of one character are an even number, and its first byte is no digit. -/
example : ofText "é" = .error (.notHex (.badDigit 0xc3 0)) := by decide

end CredentialHash

end AccessWindows
