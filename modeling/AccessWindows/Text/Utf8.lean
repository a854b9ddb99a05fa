/-!
# UTF-8

The bytes of a text and the text of some bytes.  `decode?` undoes `encode`.
-/

namespace AccessWindows.Utf8

/-- The bytes of a text. -/
def encode (s : String) : List UInt8 := s.toUTF8.data.toList

/-- The text whose bytes these are, if they are well formed. -/
def decode? (b : List UInt8) : Option String := String.fromUTF8? b.toByteArray

theorem toByteArray_toList (b : ByteArray) : b.data.toList.toByteArray = b := by
  apply ByteArray.ext
  rw [List.data_toByteArray, Array.toArray_toList]

theorem decode?_encode (s : String) : decode? (encode s) = some s := by
  unfold decode? encode String.fromUTF8?
  rw [toByteArray_toList, String.toUTF8_eq_toByteArray, dif_pos s.isValidUTF8]
  rfl

end AccessWindows.Utf8
