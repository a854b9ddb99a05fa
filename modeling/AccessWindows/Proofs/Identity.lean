import AccessWindows.Identity

/-!
# Identities — reading hashes that were written

The bytes of a text of hexadecimal digits are the codes of these digits, so that pairs of digits are
read as the bytes they were written for (`Hex.decode_encode`), and a hash is read back from its
sixty-four digits (`CredentialHash.ofText_hex`).
-/

namespace AccessWindows

/-- A character of one byte stands for itself. -/
theorem Utf8.encode_ofList_cons {c : Char} (h : c.utf8Size = 1) (cs : List Char) :
    encode (String.ofList (c :: cs)) = c.val.toUInt8 :: encode (String.ofList cs) := by
  simp only [encode, String.toUTF8_eq_toByteArray, String.toByteArray_ofList]
  rw [List.utf8Encode_cons, List.utf8Encode_singleton, String.utf8EncodeChar_eq_singleton h]
  simp

namespace Hex

theorem value?_digit {n : Nat} (h : n < 16) : value? (digit n).val.toUInt8 = some n.toUInt8 := by
  have hall : ∀ n < 16, value? (digit n).val.toUInt8 = some n.toUInt8 := by decide
  exact hall n h

theorem utf8Size_digit {n : Nat} (h : n < 16) : (digit n).utf8Size = 1 := by
  have hall : ∀ n < 16, (digit n).utf8Size = 1 := by decide
  exact hall n h

/-- The text of some bytes begins with the codes of the two digits of the first. -/
theorem utf8_encode_cons (b : UInt8) (bs : List UInt8) :
    Utf8.encode (encode (b :: bs)) =
      (digit (b.toNat / 16)).val.toUInt8 :: (digit (b.toNat % 16)).val.toUInt8 ::
        Utf8.encode (encode bs) := by
  have hlt : b.toNat < 256 := b.toNat_lt
  have hhigh := utf8Size_digit (by omega : b.toNat / 16 < 16)
  have hlow := utf8Size_digit (Nat.mod_lt b.toNat (by decide : 0 < 16))
  have hchars : (b :: bs).flatMap byte =
      digit (b.toNat / 16) :: digit (b.toNat % 16) :: bs.flatMap byte := rfl
  rw [encode, hchars, Utf8.encode_ofList_cons hhigh, Utf8.encode_ofList_cons hlow, encode]

theorem length_utf8_encode (bs : List UInt8) :
    (Utf8.encode (encode bs)).length = 2 * bs.length := by
  induction bs with
  | nil => rfl
  | cons b bs ih =>
      rw [utf8_encode_cons]
      simp only [List.length_cons, ih]
      omega

/-- The two halves of a byte make the byte. -/
theorem halves (b : UInt8) : 16 * (b.toNat / 16).toUInt8 + (b.toNat % 16).toUInt8 = b := by
  apply UInt8.toNat_inj.mp
  have hlt : b.toNat < 256 := b.toNat_lt
  simp
  omega

theorem decodeFrom_encode (index : Nat) (bs : List UInt8) :
    decodeFrom index (Utf8.encode (encode bs)) = .ok bs := by
  induction bs generalizing index with
  | nil => rfl
  | cons b bs ih =>
      have hlt : b.toNat < 256 := b.toNat_lt
      have hhigh := value?_digit (by omega : b.toNat / 16 < 16)
      have hlow := value?_digit (Nat.mod_lt b.toNat (by decide : 0 < 16))
      rw [utf8_encode_cons, decodeFrom]
      simp only [hhigh, hlow, ih, halves]
      rfl

theorem decode_encode (bs : List UInt8) : decode (Utf8.encode (encode bs)) = .ok bs := by
  have heven : (Utf8.encode (encode bs)).length % 2 ≠ 1 := by
    rw [length_utf8_encode]
    omega
  rw [decode, if_neg heven, decodeFrom_encode]

end Hex

namespace CredentialHash

theorem ofBytes?_bytes (h : CredentialHash) : ofBytes? h.bytes.toList = some h := by
  rw [ofBytes?, dif_pos h.bytes.length_toList]
  rfl

/-- **A hash is read back** from its digits. -/
theorem ofText_hex (h : CredentialHash) : ofText h.hex = .ok h := by
  rw [ofText, hex, Hex.decode_encode]
  simp only [ofBytes?_bytes]

end CredentialHash

end AccessWindows
