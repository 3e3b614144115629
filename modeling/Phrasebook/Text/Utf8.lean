/-!
# UTF-8

Text as bytes and back, in the encoding of labels when they are compared, of
speech cues in a plain file and of saved settings.
-/

namespace Phrasebook.Text

def utf8 (text : String) : List UInt8 := text.toList.flatMap String.utf8EncodeChar

def ofUtf8? (bytes : List UInt8) : Option String := String.fromUTF8? bytes.toByteArray

theorem toByteArray_utf8 (text : String) : (utf8 text).toByteArray = text.toByteArray := by
  have := String.toByteArray_ofList (l := text.toList)
  rw [String.ofList_toList] at this
  exact this.symm

@[simp] theorem ofUtf8?_utf8 (text : String) : ofUtf8? (utf8 text) = some text := by
  simp only [ofUtf8?, toByteArray_utf8, String.fromUTF8?]
  rw [dif_pos text.isValidUTF8]
  rfl

end Phrasebook.Text
