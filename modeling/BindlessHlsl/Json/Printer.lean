import BindlessHlsl.Json.Value

/-!
The two written forms of JSON: compact without any blanks, and indented by two spaces a level with
one item or field a line.
-/

namespace BindlessHlsl.JsonValue

/-- A hexadecimal digit. -/
def hexDigit (n : Nat) : Char := (Nat.toDigits 16 n).headD '0'

/-- A character inside a string. Quotes, backslashes and control characters are escaped. -/
def escape (c : Char) : List Char :=
  if c = '"' then ['\\', '"']
  else if c = '\\' then ['\\', '\\']
  else if c.toNat = 8 then ['\\', 'b']
  else if c = '\t' then ['\\', 't']
  else if c = '\n' then ['\\', 'n']
  else if c.toNat = 12 then ['\\', 'f']
  else if c = '\r' then ['\\', 'r']
  else if c.toNat < 32 then
    ['\\', 'u', '0', '0', hexDigit (c.toNat / 16), hexDigit (c.toNat % 16)]
  else [c]

/-- A string in quotes. -/
def quote (s : String) : List Char := '"' :: s.toList.flatMap escape ++ ['"']

/-- A value that is not a list of values. -/
def scalarChars : JsonValue → List Char
  | .bool true => "true".toList
  | .bool false => "false".toList
  | .number n => n.chars
  | .string s => quote s
  | _ => "null".toList

mutual

/-- The compact form. -/
def compactChars : JsonValue → List Char
  | .array [] => ['[', ']']
  | .array (item :: items) => '[' :: compactChars item ++ compactItems items ++ [']']
  | .object [] => ['\x7b', '\x7d']
  | .object ((key, value) :: fields) =>
    '\x7b' :: quote key ++ ':' :: compactChars value ++ compactFields fields ++ ['\x7d']
  | value => value.scalarChars

/-- Further items in compact form. -/
def compactItems : List JsonValue → List Char
  | [] => []
  | item :: items => ',' :: compactChars item ++ compactItems items

/-- Further fields in compact form. -/
def compactFields : List (String × JsonValue) → List Char
  | [] => []
  | (key, value) :: fields =>
    ',' :: quote key ++ ':' :: compactChars value ++ compactFields fields

end

/-- A new line at a level. -/
def lineBreak (level : Nat) : List Char := '\n' :: List.replicate (2 * level) ' '

mutual

/-- The indented form at a level. -/
def prettyChars (level : Nat) : JsonValue → List Char
  | .array [] => ['[', ']']
  | .array (item :: items) =>
    '[' :: lineBreak (level + 1) ++ prettyChars (level + 1) item ++
      prettyItems (level + 1) items ++ lineBreak level ++ [']']
  | .object [] => ['\x7b', '\x7d']
  | .object ((key, value) :: fields) =>
    '\x7b' :: lineBreak (level + 1) ++ quote key ++ ':' :: ' ' :: prettyChars (level + 1) value ++
      prettyFields (level + 1) fields ++ lineBreak level ++ ['\x7d']
  | value => value.scalarChars

/-- Further items in indented form. -/
def prettyItems (level : Nat) : List JsonValue → List Char
  | [] => []
  | item :: items => ',' :: lineBreak level ++ prettyChars level item ++ prettyItems level items

/-- Further fields in indented form. -/
def prettyFields (level : Nat) : List (String × JsonValue) → List Char
  | [] => []
  | (key, value) :: fields =>
    ',' :: lineBreak level ++ quote key ++ ':' :: ' ' :: prettyChars level value ++
      prettyFields level fields

end

/-- The compact text of a value. -/
def compact (v : JsonValue) : String := String.ofList v.compactChars

/-- The indented text of a value. -/
def pretty (v : JsonValue) : String := String.ofList (v.prettyChars 0)

end BindlessHlsl.JsonValue
