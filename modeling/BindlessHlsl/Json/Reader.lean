import BindlessHlsl.Json.Value

/-!
Reading JSON text. The reader accepts exactly one value with blanks around it.
-/

namespace BindlessHlsl.JsonValue

/-- The blanks of JSON. -/
def isBlank (c : Char) : Bool := c == ' ' || c == '\n' || c == '\t' || c == '\r'

/-- Text without blanks in front. -/
def skipBlank (text : List Char) : List Char := text.dropWhile isBlank

/-- What a string is made of: characters, and escaped halves of surrogate pairs. -/
inductive Piece where
  | char (c : Char)
  | half (code : Nat)
  deriving DecidableEq, Repr

/-- Value of a hexadecimal digit. -/
def hexValue? (c : Char) : Option Nat :=
  if c.isDigit then some (c.toNat - '0'.toNat)
  else if 'a' ≤ c ∧ c ≤ 'f' then some (c.toNat - 'a'.toNat + 10)
  else if 'A' ≤ c ∧ c ≤ 'F' then some (c.toNat - 'A'.toNat + 10)
  else none

/-- The piece with a code of four hexadecimal digits. -/
def hexPiece? (a b c d : Char) : Option Piece := do
  let code :=
    ((← hexValue? a) * 16 + (← hexValue? b)) * 256 + (← hexValue? c) * 16 + (← hexValue? d)
  return if 0xd800 ≤ code ∧ code < 0xe000 then .half code else .char (Char.ofNat code)

/-- The character that a short escape stands for. -/
def escaped? (c : Char) : Option Char :=
  match c with
  | '"' => some '"'
  | '\\' => some '\\'
  | '/' => some '/'
  | 'b' => some (Char.ofNat 8)
  | 'f' => some (Char.ofNat 12)
  | 'n' => some '\n'
  | 'r' => some '\r'
  | 't' => some '\t'
  | _ => none

/-- Reads the rest of a string up to its closing quote. -/
def readPieces : List Char → Option (List Piece × List Char)
  | [] => none
  | '"' :: rest => some ([], rest)
  | '\\' :: 'u' :: a :: b :: c :: d :: rest => do
    let piece ← hexPiece? a b c d
    let (pieces, rest) ← readPieces rest
    return (piece :: pieces, rest)
  | '\\' :: c :: rest => do
    let piece ← escaped? c
    let (pieces, rest) ← readPieces rest
    return (.char piece :: pieces, rest)
  | c :: rest =>
    if c.toNat < 32 then none
    else do
      let (pieces, rest) ← readPieces rest
      return (.char c :: pieces, rest)

/-- The characters of pieces, if every half of a surrogate pair stands with its other half. -/
def joinPieces : List Piece → Option (List Char)
  | [] => some []
  | .char c :: rest => (joinPieces rest).map (c :: ·)
  | .half high :: .half low :: rest =>
    if high < 0xdc00 ∧ 0xdc00 ≤ low then
      (joinPieces rest).map (Char.ofNat (0x10000 + (high - 0xd800) * 0x400 + (low - 0xdc00)) :: ·)
    else none
  | .half _ :: _ => none

/-- The text of pieces. -/
def textOf? (pieces : List Piece) : Option String := (joinPieces pieces).map String.ofList

/-- Reads digits. -/
def readDigits (text : List Char) : List Char × List Char :=
  (text.takeWhile Char.isDigit, text.dropWhile Char.isDigit)

/-- Reads the digits behind a point, if there is one. -/
def readFraction? : List Char → Option (List Char × List Char)
  | '.' :: rest =>
    let (digits, rest) := readDigits rest
    if digits.isEmpty then none else some (digits, rest)
  | rest => some ([], rest)

/-- Reads an exponent, if there is one. -/
def readExponent? : List Char → Option (Option (Bool × List Char) × List Char)
  | [] => some (none, [])
  | mark :: rest =>
    if mark = 'e' ∨ mark = 'E' then
      let (negative, rest) := Single.Numeral.sign rest
      let (digits, rest) := readDigits rest
      if digits.isEmpty then none else some (some (negative, digits), rest)
    else some (none, mark :: rest)

/-- Reads a number without its sign. A zero in front stands alone. -/
def readNumber? (negative : Bool) (text : List Char) : Option (JsonNumber × List Char) := do
  let (whole, rest) := readDigits text
  if whole.isEmpty || (whole.head? == some '0' && whole.length != 1) then none
  else
    let (fraction, rest) ← readFraction? rest
    let (exponent, rest) ← readExponent? rest
    return (⟨negative, whole, fraction, exponent⟩, rest)

/-- Text behind a word that it has to start with. -/
def afterWord? (word : String) (text : List Char) : Option (List Char) :=
  if word.toList.isPrefixOf text then some (text.drop word.toList.length) else none

/-- A string, or a broken one. -/
def stringOf (pieces : List Piece) : JsonValue := ((textOf? pieces).map .string).getD .broken

/-- A field whose key is a text. -/
def fieldOf? (field : List Piece × JsonValue) : Option (String × JsonValue) :=
  (textOf? field.1).map fun key => (key, field.2)

/-- An object, or a broken one. -/
def objectOf (fields : List (List Piece × JsonValue)) : JsonValue :=
  ((fields.mapM fieldOf?).map .object).getD .broken

mutual

/-- Reads a value, nested to at most a number of levels. -/
def readValue : Nat → List Char → Option (JsonValue × List Char)
  | 0, _ => none
  | levels + 1, text =>
    match skipBlank text with
    | '"' :: rest => do
      let (pieces, rest) ← readPieces rest
      return (stringOf pieces, rest)
    | '[' :: rest =>
      match skipBlank rest with
      | ']' :: rest => some (.array [], rest)
      | rest => do
        let (items, rest) ← readItems levels rest
        return (.array items, rest)
    | '\x7b' :: rest =>
      match skipBlank rest with
      | '\x7d' :: rest => some (.object [], rest)
      | rest => do
        let (fields, rest) ← readFields levels rest
        return (objectOf fields, rest)
    | 'n' :: rest => (afterWord? "ull" rest).map fun rest => (.null, rest)
    | 't' :: rest => (afterWord? "rue" rest).map fun rest => (.bool true, rest)
    | 'f' :: rest => (afterWord? "alse" rest).map fun rest => (.bool false, rest)
    | '-' :: rest => (readNumber? true rest).map fun (n, rest) => (.number n, rest)
    | rest => (readNumber? false rest).map fun (n, rest) => (.number n, rest)

/-- Reads items up to the closing bracket. -/
def readItems : Nat → List Char → Option (List JsonValue × List Char)
  | 0, _ => none
  | levels + 1, text => do
    let (item, rest) ← readValue levels text
    match skipBlank rest with
    | ']' :: rest => return ([item], rest)
    | ',' :: rest =>
      let (items, rest) ← readItems levels rest
      return (item :: items, rest)
    | _ => none

/-- Reads fields up to the closing brace. -/
def readFields : Nat → List Char → Option (List (List Piece × JsonValue) × List Char)
  | 0, _ => none
  | levels + 1, text =>
    match skipBlank text with
    | '"' :: rest => do
      let (key, rest) ← readPieces rest
      match skipBlank rest with
      | ':' :: rest =>
        let (value, rest) ← readValue levels rest
        match skipBlank rest with
        | '\x7d' :: rest => return ([(key, value)], rest)
        | ',' :: rest =>
          let (fields, rest) ← readFields levels rest
          return ((key, value) :: fields, rest)
        | _ => none
      | _ => none
    | _ => none

end

/-- Reads a text that holds one value. Every level of nesting, item and field takes a character, so
the length of the text bounds the levels. -/
def ofText? (text : String) : Option JsonValue :=
  match readValue (text.toList.length + 1) text.toList with
  | some (value, rest) => if (skipBlank rest).isEmpty then some value else none
  | none => none

end BindlessHlsl.JsonValue
