import BindlessHlsl.Utf8
import BindlessHlsl.Lexeme
import BindlessHlsl.Span

/-!
A cursor stands between two bytes of a text and only ever moves forward. It keeps the bytes on
either side of it together with its offset, line and column. All its operations move by `advance`,
which looks at each byte for a new line, except that the mark which opens a block comment is jumped
over. A jump over no newline is an `advance` (`jump_eq_advance`), so what holds of `advance` holds
of every operation.
-/

namespace BindlessHlsl

open Ascii

/-- A place inside a text with the bytes before it, nearest first, and the bytes after it. -/
structure Cursor where
  before : List UInt8
  rest : List UInt8
  pos : Nat
  line : Nat
  column : Nat
  deriving DecidableEq, Repr, Inhabited

/-- What a quoted text turned out to be. -/
inductive Quoted where
  /-- There was no quote, and nothing was consumed. -/
  | missing
  /-- The line or the text ended before the closing quote. -/
  | unterminated
  | text (value : String)
  deriving DecidableEq, Repr, Inhabited

namespace Cursor

/-- The cursor at the start of a list of bytes. -/
def ofBytes (bytes : List UInt8) : Cursor := ⟨[], bytes, 0, 1, 1⟩

/-- The cursor at the start of a text. -/
def ofText (source : String) : Cursor := ofBytes (Utf8.encode source)

/-- All bytes of the text the cursor stands in. -/
def bytes (c : Cursor) : List UInt8 := c.before.reverse ++ c.rest

/-- Length of the text the cursor stands in. -/
def textLength (c : Cursor) : Nat := c.pos + c.rest.length

/-- Whether nothing is left to read. -/
def atEnd (c : Cursor) : Bool := c.rest.isEmpty

/-- Line and column of the next byte. -/
def location (c : Cursor) : Location := ⟨c.line, c.column⟩

/-- The next byte. -/
def peek (c : Cursor) : Option UInt8 := c.rest.head?

/-- The byte a distance ahead, if the text reaches that far. There is no answer if the place of that
byte is no offset. -/
def peekAt? (c : Cursor) (distance : Nat) : Option (Option UInt8) :=
  (Offset.add? c.pos distance).map fun _ => c.rest[distance]?

/-- One byte forward; a newline starts the next line. -/
def bump (c : Cursor) : Cursor :=
  match c.rest with
  | [] => c
  | b :: rest =>
    if b = newline then ⟨b :: c.before, rest, c.pos + 1, c.line + 1, 1⟩
    else ⟨b :: c.before, rest, c.pos + 1, c.line, c.column + 1⟩

/-- A number of bytes forward, or to the end of the text. -/
def advance (c : Cursor) : Nat → Cursor
  | 0 => c
  | n + 1 => if c.rest.isEmpty then c else c.bump.advance n

@[simp] theorem advance_zero (c : Cursor) : c.advance 0 = c := rfl

@[simp] theorem rest_bump (c : Cursor) : c.bump.rest = c.rest.drop 1 := by
  unfold bump; split
  · simp_all
  · split <;> simp_all

@[simp] theorem rest_advance (c : Cursor) (n : Nat) : (c.advance n).rest = c.rest.drop n := by
  induction n generalizing c with
  | zero => rfl
  | succ n ih =>
    unfold advance
    split
    · simp_all
    · simp [ih]

theorem advance_succ {c : Cursor} (h : c.rest ≠ []) (n : Nat) :
    c.advance (n + 1) = c.bump.advance n := by
  rw [advance, if_neg]
  simpa using h

theorem advance_of_rest_nil {c : Cursor} (h : c.rest = []) (n : Nat) : c.advance n = c := by
  cases n <;> simp [advance, h]

theorem advance_advance (c : Cursor) (m n : Nat) :
    (c.advance m).advance n = c.advance (m + n) := by
  induction m generalizing c with
  | zero => simp
  | succ m ih =>
    by_cases h : c.rest = []
    · simp [advance_of_rest_nil h]
    · rw [advance_succ h, ih, Nat.add_right_comm, advance_succ h]

/-- A number of bytes forward without a look at them. The line stays what it was. -/
def jump (c : Cursor) (n : Nat) : Cursor :=
  ⟨(c.rest.take n).reverse ++ c.before, c.rest.drop n, c.pos + n, c.line, c.column + n⟩

/-- A jump inside of a line is as good as a look at each byte. -/
theorem jump_eq_advance {c : Cursor} {n : Nat} (hn : n ≤ c.rest.length)
    (h : newline ∉ c.rest.take n) : c.jump n = c.advance n := by
  induction n generalizing c with
  | zero => simp [jump]
  | succ n ih =>
    obtain ⟨before, _ | ⟨b, rest⟩, pos, line, column⟩ := c
    · simp at hn
    · rw [List.take_succ_cons, List.mem_cons, not_or] at h
      have hbump : bump ⟨before, b :: rest, pos, line, column⟩ =
          ⟨b :: before, rest, pos + 1, line, column + 1⟩ := if_neg (Ne.symm h.1)
      rw [advance_succ (List.cons_ne_nil b rest), hbump, ← ih (Nat.le_of_succ_le_succ hn) h.2]
      simp [jump, Nat.add_assoc, Nat.add_comm 1]

/-- Forward to an offset. The cursor stays where it is if it is already past it. -/
def advanceTo (c : Cursor) (offset : Nat) : Cursor := c.advance (offset - c.pos)

/-- Past the next byte if it is the given one. -/
def eat? (c : Cursor) (b : UInt8) : Option Cursor :=
  if c.peek = some b then some (c.advance 1) else none

/-- Past the bytes of a class. -/
def skipWhile (c : Cursor) (p : UInt8 → Bool) : Cursor := c.advance (c.rest.takeWhile p).length

/-- Past blanks that do not end a line. -/
def skipInline (c : Cursor) : Cursor := c.skipWhile isInlineBlank

/-- Past blanks. -/
def skipBlank (c : Cursor) : Cursor := c.skipWhile isBlank

/-- Whether a comment starts here. -/
def atComment (c : Cursor) : Bool := Lexeme.comment c.rest != 0

/-- Past the comment that starts here, if one does. -/
def skipComment (c : Cursor) : Cursor :=
  if [slash, star].isPrefixOf c.rest then
    (c.jump 2).advance (Lexeme.blockCommentRest (c.rest.drop 2))
  else c.advance (Lexeme.comment c.rest)

theorem skipComment_eq (c : Cursor) : c.skipComment = c.advance (Lexeme.comment c.rest) := by
  unfold skipComment
  split
  next h =>
    obtain ⟨rest, hr⟩ := List.isPrefixOf_iff_prefix.1 h
    have hmark : newline ∉ [slash, star] := by decide
    rw [jump_eq_advance (by simp [← hr]) (by rwa [← hr]), advance_advance, ← hr]
    rfl
  next => rfl

theorem rest_skipComment_lt {c : Cursor} (h : c.atComment = true) :
    c.skipComment.rest.length < c.rest.length := by
  have hn : Lexeme.comment c.rest ≠ 0 := by simpa [atComment] using h
  have hr : c.rest ≠ [] := fun hr => hn (by rw [hr]; rfl)
  have := List.length_pos_iff.2 hr
  rw [skipComment_eq, rest_advance, List.length_drop]
  omega

/-- Past blanks and comments. -/
def skipTrivia (c : Cursor) : Cursor :=
  let d := c.skipBlank
  if d.atComment then d.skipComment.skipTrivia else d
termination_by c.rest.length
decreasing_by
  rename_i h
  have hle : d.rest.length ≤ c.rest.length := by simp [d, skipBlank, skipWhile]
  exact Nat.lt_of_lt_of_le (rest_skipComment_lt h) hle

/-- To the newline that ends the logical line, or to the end of the text. -/
def skipLine (c : Cursor) : Cursor := c.advance (Lexeme.line c.rest)

/-- Offset of the end of the logical line. -/
def lineEnd (c : Cursor) : Nat := c.pos + Lexeme.line c.rest

/-- Past the string literal that starts here, if one does. -/
def skipString (c : Cursor) : Cursor := c.advance (Lexeme.stringLiteral c.rest)

/-- The text of the next bytes. -/
def upcoming (c : Cursor) (n : Nat) : String := Utf8.decode (c.rest.take n)

/-- The text between this cursor and a later one in the same text. -/
def textUntil (c later : Cursor) : String := c.upcoming (later.pos - c.pos)

/-- The range of offsets between this cursor and a later one in the same text. -/
def rangeUntil (c later : Cursor) : ByteRange := ⟨c.pos, later.pos⟩

/-- The text between two offsets. It is empty for a range that is reversed, reaches past the end
or cuts a character apart. -/
def slice (c : Cursor) (start stop : Nat) : String :=
  if start ≤ stop ∧ stop ≤ c.textLength then
    Utf8.decode (ByteRange.slice ⟨start, stop⟩ c.bytes)
  else ""

/-- Reads an identifier, which is empty where none starts. -/
def identifier (c : Cursor) : String × Cursor :=
  let n := Lexeme.identifier c.rest
  (c.upcoming n, c.advance n)

/-- Reads an unquoted value such as a word or a signed number. -/
def valueToken (c : Cursor) : String × Cursor :=
  let n := (c.rest.takeWhile isValueByte).length
  (c.upcoming n, c.advance n)

/-- Reads a text in single or double quotes that ends on its line. -/
def quoted (c : Cursor) : Quoted × Cursor :=
  match c.rest with
  | [] => (.missing, c)
  | q :: rest =>
    if q = doubleQuote ∨ q = singleQuote then
      let body := rest.takeWhile fun b => b != q && b != newline
      if rest[body.length]? = some q then
        (.text (Utf8.decode body), c.advance (body.length + 2))
      else (.unterminated, c.advance (body.length + 1))
    else (.missing, c)

/-- Reads a quoted text or an unquoted value. -/
def value (c : Cursor) : Quoted × Cursor :=
  match c.quoted with
  | (.missing, c) =>
    match c.valueToken with
    | ("", c) => (.missing, c)
    | (token, c) => (.text token, c)
  | read => read

end Cursor

end BindlessHlsl
