/-!
Places in a shader text. An offset counts bytes, a location is a line and a column, both counted
from one, and a span is either a single place or the stretch between two.

Byte offsets are natural numbers below a fixed bound. Offsets inside a text always are, as no text
is that long; an offset that is asked for from outside may lead past the bound, and then there is no
answer.
-/

namespace BindlessHlsl

namespace Offset

/-- Number of offsets. -/
def bound : Nat := 0x10000000000000000

/-- A natural number as an offset, if it is one. -/
def ofNat? (n : Nat) : Option Nat := if n < bound then some n else none

/-- The exact sum of two offsets. -/
def add? (a b : Nat) : Option Nat := ofNat? (a + b)

theorem ofNat?_eq_some_iff {n m : Nat} : ofNat? n = some m ↔ n < bound ∧ n = m := by
  simp [ofNat?]

theorem ofNat?_eq_none_iff {n : Nat} : ofNat? n = none ↔ bound ≤ n := by
  simp [ofNat?]

end Offset

/-- A place in a text. The column counts bytes. -/
structure Location where
  line : Nat
  column : Nat
  deriving DecidableEq, Repr, Inhabited

/-- The text of a location inside messages. -/
def Location.text (l : Location) : String := s!"{l.line}:{l.column}"

/-- Locations are ordered by line, then by column. -/
def Location.compare (a b : Location) : Ordering :=
  (Ord.compare a.line b.line).then (Ord.compare a.column b.column)

/-- A stretch of a text. -/
inductive Span where
  | point (place : Location)
  | range (start stop : Location)
  deriving DecidableEq, Repr, Inhabited

namespace Span

/-- The span from `start` up to `stop`. At most one column on one line is a point. -/
def between (start stop : Location) : Span :=
  if start.line = stop.line ∧ stop.column - start.column ≤ 1 then .point start
  else .range start stop

/-- Where the span begins. -/
def start : Span → Location
  | .point place => place
  | .range start _ => start

/-- The text of a span inside messages. -/
def text : Span → String
  | .point place => s!"({place.text})"
  | .range start stop => s!"({start.text},{stop.text})"

@[simp] theorem start_between (a b : Location) : (between a b).start = a := by
  unfold between; split <;> rfl

end Span

/-- A half-open range of byte offsets. -/
structure ByteRange where
  start : Nat
  stop : Nat
  deriving DecidableEq, Repr, Inhabited

namespace ByteRange

/-- Whether an offset lies in the range. -/
def contains (r : ByteRange) (offset : Nat) : Bool := r.start ≤ offset && offset < r.stop

/-- Whether no offset lies in the range. -/
def isEmpty (r : ByteRange) : Bool := r.stop ≤ r.start

/-- The bytes of a list at the offsets of the range. -/
def slice (r : ByteRange) (bytes : List UInt8) : List UInt8 :=
  (bytes.drop r.start).take (r.stop - r.start)

end ByteRange

end BindlessHlsl
