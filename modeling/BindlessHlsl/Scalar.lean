import BindlessHlsl.Keyword
import BindlessHlsl.Word

/-!
Types of struct members. A primitive type name is a scalar followed by a shape: nothing, a number of
rows, or rows and columns; each dimension lies between one and four. Any other type name counts as a
struct, whose width is taken as zero.
-/

namespace BindlessHlsl

/-- The scalar of a member type. `struct` covers every type that is not primitive. -/
inductive Scalar where
  | struct
  | bool
  | int
  | uint
  | dword
  | half
  | float
  | double
  | uint64
  | int64
  | float16
  | uint16
  | int16
  deriving DecidableEq, Repr, Inhabited

namespace Scalar

/-- Size of one scalar in bytes. -/
def width : Scalar → UInt32
  | struct => 0
  | bool | int | uint | dword | float => 4
  | half | float16 | uint16 | int16 => 2
  | double | uint64 | int64 => 8

instance : Keyword Scalar where
  spellings := [
    ("uint64_t", uint64),
    ("uint64", uint64),
    ("uint16_t", uint16),
    ("uint16", uint16),
    ("uint", uint),
    ("int64_t", int64),
    ("int64", int64),
    ("int16_t", int16),
    ("int16", int16),
    ("int", int),
    ("float16_t", float16),
    ("float16", float16),
    ("float", float),
    ("double", double),
    ("dword", dword),
    ("half", half),
    ("bool", bool),
    ("struct", struct)]

instance : Tagged Scalar where
  tags := [
    (struct, "struct"),
    (bool, "bool"),
    (int, "int"),
    (uint, "uInt"),
    (dword, "dWord"),
    (half, "half"),
    (float, "float"),
    (double, "double"),
    (uint64, "uInt64"),
    (int64, "int64"),
    (float16, "float16"),
    (uint16, "uInt16"),
    (int16, "int16")]

end Scalar

/-- A scalar with its number of rows and columns. -/
structure MemberType where
  scalar : Scalar
  rows : UInt32
  columns : UInt32
  deriving DecidableEq, Repr, Inhabited

namespace MemberType

/-- The type of a member whose type name is not primitive. -/
def unknownStruct : MemberType := ⟨.struct, 1, 1⟩

/-- Reads a dimension, which lies between one and four. -/
def dimension? (chars : List Char) : Option UInt32 :=
  (Word.ofChars? chars).filter fun n => 1 ≤ n && n ≤ 4

/-- Reads a shape: nothing, rows, or rows and columns with an `x` between them. -/
def shape? (chars : List Char) : Option (UInt32 × UInt32) :=
  if chars.isEmpty then some (1, 1)
  else
    match chars.dropWhile (· != 'x') with
    | [] => (dimension? chars).map fun rows => (rows, 1)
    | _ :: columns => do
      return (← dimension? (chars.takeWhile (· != 'x')), ← dimension? columns)

/-- Reads a word as one spelling of a scalar followed by a shape. -/
def withSpelling? (word : List Char) (spelling : String × Scalar) : Option MemberType :=
  if spelling.1.toList.isPrefixOf word then
    (shape? (word.drop spelling.1.toList.length)).map fun (rows, columns) =>
      ⟨spelling.2, rows, columns⟩
  else none

/-- The spellings of the primitive scalars. -/
def primitiveSpellings : List (String × Scalar) :=
  Keyword.spellings.filter fun s => s.2 != Scalar.struct

/-- Reads a primitive type name. The bare word `matrix` is a four by four matrix of floats. -/
def ofWord? (word : String) : Option MemberType :=
  if word == "matrix" then some ⟨.float, 4, 4⟩
  else primitiveSpellings.findSome? (withSpelling? word.toList)

end MemberType

end BindlessHlsl
