import BindlessHlsl.Json.Number
import BindlessHlsl.Keyword

/-!
Values of the library in JSON. A record is an object, whose unknown fields are ignored and
whose known fields occur at most once, or an array of its fields in order. An absent or null field
may stand for an optional value.
-/

namespace BindlessHlsl.JsonValue

/-- A value of a closed set as its tag. -/
def ofTagged {α : Type} [Tagged α] [BEq α] (value : α) : JsonValue := .string (Tagged.tag value)

/-- The text of a string. -/
def toText? : JsonValue → Option String
  | .string s => some s
  | _ => none

/-- The word of a number. -/
def toWord? : JsonValue → Option UInt32
  | .number n => n.toWord?
  | _ => none

/-- The single-precision value of a number. -/
def toSingle? : JsonValue → Option Single
  | .number n => n.toSingle?
  | _ => none

/-- The items of an array, each read. -/
def toList? {α : Type} (f : JsonValue → Option α) : JsonValue → Option (List α)
  | .array items => items.mapM f
  | _ => none

/-- A value of a closed set: its tag, or an object with its tag as the only key and null there. -/
def toTagged? {α : Type} [Tagged α] : JsonValue → Option α
  | .string tag => Tagged.ofTag? tag
  | .object [(tag, .null)] => Tagged.ofTag? tag
  | _ => none

/-- The fields with a name. -/
def fieldsNamed (fields : List (String × JsonValue)) (name : String) : List JsonValue :=
  fields.filterMap fun f => if f.1 = name then some f.2 else none

/-- The field with a name, which occurs at most once. -/
def field? (fields : List (String × JsonValue)) (name : String) : Option (Option JsonValue) :=
  match fieldsNamed fields name with
  | [] => some none
  | [value] => some (some value)
  | _ => none

/-- The fields of a record, in the order of their names. At the end of an array a number of fields
may be left out. -/
def record? (names : List String) (optional : Nat) : JsonValue → Option (List (Option JsonValue))
  | .object fields => names.mapM (field? fields)
  | .array items =>
    if items.length ≤ names.length ∧ names.length ≤ items.length + optional then
      some (items.map some ++ List.replicate (names.length - items.length) none)
    else none
  | _ => none

/-- Whether every part of a value can be read for itself: numbers are in range, texts are whole, and
arrays and objects are nested to at most a number of levels. -/
def isReadable : Nat → JsonValue → Bool
  | _, .broken => false
  | _, .number n => n.isInteger64 || n.toDouble?.isSome
  | 0, .array _ => false
  | 0, .object _ => false
  | levels + 1, .array items => items.all (isReadable levels)
  | levels + 1, .object fields => fields.all fun f => isReadable levels f.2
  | _, _ => true

/-- A field that must be there. -/
def required {α : Type} (f : JsonValue → Option α) (value : Option JsonValue) : Option α :=
  value.bind f

/-- A field that may be absent or null. -/
def optional {α : Type} (f : JsonValue → Option α) : Option JsonValue → Option (Option α)
  | none => some none
  | some .null => some none
  | some value => (f value).map some

end BindlessHlsl.JsonValue
