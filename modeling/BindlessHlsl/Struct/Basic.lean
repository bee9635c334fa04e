import BindlessHlsl.Scalar
import BindlessHlsl.Span

/-!
Structs with the sizes of their members. Sizes are words: a size that does not fit has no value.
-/

namespace BindlessHlsl

/-- A data member of a struct. -/
structure Member where
  type : MemberType
  arrayLength : Option UInt32
  name : String
  /-- The member as written, without its semicolon. -/
  declaration : String
  deriving DecidableEq, Repr, Inhabited

/-- Size of a member in bytes, each product exact. -/
def Member.size? (m : Member) : Option UInt32 := do
  let row ← Word.mul? m.type.scalar.width m.type.rows
  let element ← Word.mul? row m.type.columns
  Word.mul? element (m.arrayLength.getD 1)

/-- A struct definition. -/
structure Struct where
  name : String
  members : List Member
  /-- Where the definition stands in the root file; none for a struct of an included file. -/
  range : Option ByteRange
  deriving DecidableEq, Repr, Inhabited

/-- Size of a struct in bytes, each partial sum exact. -/
def Struct.size? (s : Struct) : Option UInt32 := do Word.sum? (← s.members.mapM Member.size?)

end BindlessHlsl
