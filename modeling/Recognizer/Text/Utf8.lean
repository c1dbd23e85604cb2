/-!
# Texts as bytes

Files and streams hold bytes.  `encode` gives the UTF-8 bytes of a text and
`decode?` reads them back, refusing every sequence that is not well formed.
-/

namespace Recognizer.Utf8

/-- The UTF-8 bytes of a text. -/
def encode (text : String) : List UInt8 :=
  text.toUTF8.data.toList

def decode? (bytes : List UInt8) : Option String :=
  String.fromUTF8? ⟨bytes.toArray⟩

/-- The UTF-8 bytes of one character. -/
def encodeChar (character : Char) : List UInt8 :=
  encode (String.singleton character)

theorem decode?_encode (text : String) : decode? (encode text) = some text := by
  simp only [decode?, encode, String.toUTF8_eq_toByteArray,
    Array.toArray_toList, String.fromUTF8?, dif_pos text.isValidUTF8]
  rfl

end Recognizer.Utf8
