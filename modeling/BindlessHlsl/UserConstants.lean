import BindlessHlsl.Declarations

/-!
User constants: the constant buffers marked as such, gathered in the order of their declaration.
They share the push constant budget. A struct behind them moves into the preamble, so it has to
stand in the root file.
-/

namespace BindlessHlsl

/-- What keeps a shader from being generated. -/
inductive Stop where
  | rejected (rejection : Rejection)
  /-- A size does not fit a word. -/
  | overflow
  /-- A text would be inserted inside a character. -/
  | insideCharacter
  deriving DecidableEq, Repr

/-- A size that has to fit a word. -/
def Stop.fitting {α : Type} : Option α → Except Stop α
  | some value => .ok value
  | none => .error .overflow

/-- One member of the user constants. -/
structure ConstantsField where
  typeName : String
  name : String
  deriving DecidableEq, Repr

/-- The user constants of a shader. -/
structure UserConstants where
  /-- The structs behind the fields, each once, by first use. -/
  structs : List Struct := []
  fields : List ConstantsField := []
  size : UInt32 := 0
  deriving DecidableEq, Repr, Inhabited

namespace UserConstants

/-- Bytes of push constants. -/
def budget : UInt32 := 128

/-- Adds one constant buffer with its struct. -/
def addField (u : UserConstants) (file : String) (r : Resource) (s : Struct) :
    Except Stop UserConstants := do
  if s.range.isNone then
    throw (.rejected ⟨file, .point r.location, .constantsStructInInclude s.name⟩)
  else
    let size ← Stop.fitting s.size?
    let total ← Stop.fitting (Word.add? u.size size)
    if budget < total then
      throw (.rejected ⟨file, .point r.location, .constantsOverflow total budget⟩)
    else
      return {
        structs := if u.structs.contains s then u.structs else u.structs ++ [s]
        fields := u.fields ++ [⟨s.name, r.name⟩]
        size := total }

/-- Adds one constant buffer. One whose struct is not known adds nothing. -/
def add (d : Declarations) (file : String) (u : UserConstants) (r : Resource) :
    Except Stop UserConstants :=
  match d.elementStruct? r with
  | none => .ok u
  | some s => u.addField file r s

/-- The user constants among declarations. -/
def ofDeclarations (file : String) (d : Declarations) : Except Stop UserConstants :=
  (d.resources.filter Resource.isConstants).foldlM (add d file) {}

end UserConstants

end BindlessHlsl
