import BindlessHlsl.Cursor.Motion
import BindlessHlsl.Rejection

/-!
Reading with failure. A reading step either hands on what it read and the cursor after it, or fails
at a place of its text.
-/

namespace BindlessHlsl

/-- The outcome of reading. -/
abbrev Reading (α : Type) := Except Failure α

theorem Reading.bind_eq_ok {α β : Type} {x : Reading α} {f : α → Reading β} {b : β} :
    (x >>= f) = .ok b ↔ ∃ a, x = .ok a ∧ f a = .ok b := by
  cases x <;> simp [bind, Except.bind]

/-- Fails unless a condition holds. -/
def require (condition : Bool) (failure : Failure) : Reading Unit :=
  if condition then .ok () else .error failure

namespace Cursor

/-- The failure to find something here. At the end of the text it says so. -/
def failure (c : Cursor) (what : Expectation) : Failure :=
  .at c.location (if c.atEnd then .unexpectedEnd what else .expected what)

/-- Past a byte that must come next. -/
def expectByte (c : Cursor) (b : UInt8) (what : Expectation) : Reading Cursor :=
  match c.eat? b with
  | some next => .ok next
  | none => .error (c.failure what)

/-- Reads an identifier that must come next. -/
def expectIdentifier (c : Cursor) (what : Expectation) : Reading (String × Cursor) :=
  if c.identifier.1 = "" then .error (c.identifier.2.failure what) else .ok c.identifier

/-- Reads a value that must come next. -/
def expectValue (c : Cursor) (what : Expectation) : Reading (String × Cursor) :=
  match c.value with
  | (.text value, next) => .ok (value, next)
  | (_, next) => .error (next.failure what)

/-- Reads a quoted text that must follow on this line. -/
def expectQuoted (c : Cursor) (what : Expectation) : Reading (String × Cursor) :=
  match c.skipInline.quoted with
  | (.text value, next) => .ok (value, next)
  | (_, next) => .error (next.failure what)

/-- Past a comma, or to the closing byte that comes next instead. -/
def expectSeparator (c : Cursor) (closing : UInt8) (what : Expectation) : Reading Cursor :=
  match c.eat? Ascii.comma with
  | some next => .ok next
  | none => if c.peek = some closing then .ok c else .error (c.failure what)

theorem passes_of_expectByte {c d : Cursor} {b : UInt8} {what : Expectation}
    (h : c.expectByte b what = .ok d) : c.Passes d := by
  unfold expectByte at h
  split at h
  next next he =>
    cases h
    exact passes_of_eat? he
  next => cases h

theorem passes_of_expectIdentifier {c d : Cursor} {word : String} {what : Expectation}
    (h : c.expectIdentifier what = .ok (word, d)) : c.Passes d := by
  unfold expectIdentifier at h
  split at h
  next => cases h
  next hw =>
    have := passes_identifier hw
    simp_all

theorem reaches_of_expectValue {c d : Cursor} {value : String} {what : Expectation}
    (h : c.expectValue what = .ok (value, d)) : c.Reaches d := by
  have := c.reaches_value
  unfold expectValue at h
  split at h
  · simp_all
  · cases h

theorem reaches_of_expectQuoted {c d : Cursor} {value : String} {what : Expectation}
    (h : c.expectQuoted what = .ok (value, d)) : c.Reaches d := by
  have := c.skipInline.reaches_quoted
  unfold expectQuoted at h
  split at h
  · exact c.reaches_skipInline.trans (by simp_all)
  · cases h

theorem reaches_of_expectSeparator {c d : Cursor} {closing : UInt8} {what : Expectation}
    (h : c.expectSeparator closing what = .ok d) : c.Reaches d := by
  unfold expectSeparator at h
  split at h
  next next he =>
    cases h
    exact (passes_of_eat? he).reaches
  next =>
    split at h
    · cases h
      exact .refl c
    · cases h

end Cursor

end BindlessHlsl
