import BindlessHlsl.Cursor.Basic

/-!
What can be asked of a cursor, as data. An operation gives an answer and leaves a cursor behind. A
run performs operations one after the other and keeps each of them with its answer and the cursors
around it.
-/

namespace BindlessHlsl.Cursor

/-- What can be asked of a cursor. -/
inductive Operation where
  | textLength
  | pos
  | atEnd
  | location
  | peek
  | peekAt (distance : Nat)
  | slice (start stop : Nat)
  | atComment
  | lineEnd
  | bump
  | eat (b : UInt8)
  | advanceTo (place : Nat)
  | skipInline
  | skipBlank
  | skipTrivia
  | skipComment
  | skipLine
  | skipString
  | identifier
  | valueToken
  | quoted
  | value
  deriving DecidableEq, Repr

/-- What an operation answers. -/
inductive Answer where
  /-- There is nothing to tell but that the cursor was moved. -/
  | done
  | flag (holds : Bool)
  | byte (next : Option UInt8)
  | offset (place : Nat)
  | location (place : Location)
  | text (value : String)
  | quoted (value : Quoted)
  deriving DecidableEq, Repr

/-- The answer of an operation and the cursor behind it. There is none only for a byte at a distance
that leads out of all offsets. -/
def Operation.perform? : Operation → Cursor → Option (Answer × Cursor)
  | .textLength, c => some (.offset c.textLength, c)
  | .pos, c => some (.offset c.pos, c)
  | .atEnd, c => some (.flag c.atEnd, c)
  | .location, c => some (.location c.location, c)
  | .peek, c => some (.byte c.peek, c)
  | .peekAt distance, c => (c.peekAt? distance).map fun b => (.byte b, c)
  | .slice start stop, c => some (.text (c.slice start stop), c)
  | .atComment, c => some (.flag c.atComment, c)
  | .lineEnd, c => some (.offset c.lineEnd, c)
  | .bump, c => some (.byte c.peek, c.bump)
  | .eat b, c =>
    match c.eat? b with
    | some next => some (.flag true, next)
    | none => some (.flag false, c)
  | .advanceTo place, c => some (.done, c.advanceTo place)
  | .skipInline, c => some (.done, c.skipInline)
  | .skipBlank, c => some (.done, c.skipBlank)
  | .skipTrivia, c => some (.done, c.skipTrivia)
  | .skipComment, c => some (.flag c.atComment, c.skipComment)
  | .skipLine, c => some (.done, c.skipLine)
  | .skipString, c => some (.done, c.skipString)
  | .identifier, c => some (.text c.identifier.1, c.identifier.2)
  | .valueToken, c => some (.text c.valueToken.1, c.valueToken.2)
  | .quoted, c => some (.quoted c.quoted.1, c.quoted.2)
  | .value, c => some (.quoted c.value.1, c.value.2)

/-- One operation of a run, between the cursor that was asked and the one that is left behind. -/
structure Turn where
  start : Cursor
  operation : Operation
  answer : Answer
  stop : Cursor
  deriving DecidableEq, Repr

/-- Operations one after the other, up to the first one that has no answer. -/
def run (c : Cursor) : List Operation → List Turn
  | [] => []
  | op :: ops =>
    match op.perform? c with
    | none => []
    | some (answer, next) => ⟨c, op, answer, next⟩ :: next.run ops

end BindlessHlsl.Cursor
