/-
Texts as byte strings.

Texts are sequences of characters; everything that leaves the machine (the
output, a channel, a file) is a sequence of bytes.  The two meet in UTF-8, and
`ofBytes?` is the strict reader: it refuses overlong forms, surrogates and code
points past the last plane, so every text has exactly one byte form.
-/

namespace DualStack.Text

/-- The UTF-8 form of a text. -/
def bytes (text : String) : List UInt8 :=
  text.toList.flatMap String.utf8EncodeChar

/-- The text whose UTF-8 form is `bytes`, if there is one. -/
def ofBytes? (bytes : List UInt8) : Option String :=
  String.fromUTF8? ⟨bytes.toArray⟩

/-- The number of bytes of a run of characters. -/
def width (cs : List Char) : Nat :=
  cs.foldr (fun c n => c.utf8Size + n) 0

@[simp] theorem width_nil : width [] = 0 := rfl

@[simp] theorem width_cons (c : Char) (cs : List Char) :
    width (c :: cs) = c.utf8Size + width cs := rfl

@[simp] theorem width_append (cs ds : List Char) : width (cs ++ ds) = width cs + width ds := by
  induction cs with
  | nil => rw [List.nil_append, width_nil, Nat.zero_add]
  | cons c cs ih => rw [List.cons_append, width_cons, width_cons, ih, Nat.add_assoc]

/-- A run of characters is as wide as its byte form is long. -/
theorem length_bytes (text : String) : (bytes text).length = width text.toList := by
  unfold bytes
  induction text.toList with
  | nil => rfl
  | cons c cs ih =>
      rw [List.flatMap_cons, List.length_append, String.length_utf8EncodeChar, ih, width_cons]

theorem toArray_bytes (text : String) :
    (⟨(bytes text).toArray⟩ : ByteArray) = text.toByteArray := by
  rw [← String.utf8Encode_toList]
  exact ByteArray.ext List.data_toByteArray.symm

theorem width_toList (text : String) : width text.toList = text.utf8ByteSize := by
  rw [← length_bytes, ← String.size_toByteArray, ← toArray_bytes]
  rfl

/-- A text is read back from its byte form. -/
theorem ofBytes?_bytes (text : String) : ofBytes? (bytes text) = some text := by
  unfold ofBytes? String.fromUTF8?
  rw [toArray_bytes, dif_pos text.isValidUTF8]
  rfl

end DualStack.Text
