/-!
Text as bytes. Every position, length and column of the library counts bytes of the UTF-8 form,
so this module fixes the two directions between a `String` and its list of bytes. Encoding is
injective and respects concatenation, and decoding is its partial inverse.
-/

namespace BindlessHlsl.Utf8

/-- The bytes of a text. -/
def encode (text : String) : List UInt8 := text.toByteArray.data.toList

/-- The text whose bytes these are, if they are well-formed. -/
def decode? (bytes : List UInt8) : Option String := String.fromUTF8? ⟨bytes.toArray⟩

/-- The text whose bytes these are; bytes that cut a character apart denote the empty text. -/
def decode (bytes : List UInt8) : String := (decode? bytes).getD ""

/-- Length of a text in bytes. -/
def length (text : String) : Nat := text.utf8ByteSize

@[simp] theorem encode_append (s t : String) : encode (s ++ t) = encode s ++ encode t := by
  simp [encode]

@[simp] theorem length_encode (s : String) : (encode s).length = length s := by
  rfl

theorem encode_injective {s t : String} (h : encode s = encode t) : s = t := by
  apply String.toByteArray_inj.1
  exact ByteArray.ext (Array.toList_inj.1 h)

@[simp] theorem decode?_encode (s : String) : decode? (encode s) = some s := by
  simp [decode?, encode, String.fromUTF8?, String.fromUTF8, s.isValidUTF8]

@[simp] theorem decode_encode (s : String) : decode (encode s) = s := by
  simp [decode]

/-- The bytes of a list of characters. -/
def encodeChars (chars : List Char) : List UInt8 := chars.flatMap String.utf8EncodeChar

/-- Length in bytes of a list of characters. -/
def charsLength (chars : List Char) : Nat := chars.foldr (fun c n => c.utf8Size + n) 0

theorem encode_ofList (chars : List Char) : encode (String.ofList chars) = encodeChars chars := by
  simp [encode, encodeChars, List.utf8Encode]

theorem length_encodeChars (chars : List Char) :
    (encodeChars chars).length = charsLength chars := by
  induction chars with
  | nil => rfl
  | cons c chars ih => simpa [encodeChars, charsLength] using ih

end BindlessHlsl.Utf8
