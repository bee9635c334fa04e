import BindlessHlsl.Ascii

/-!
How far the lexical elements of shader text reach. Each function measures, in bytes, the element
that a list of bytes starts with; a length of zero says that there is none. A word can also be
looked for in a text (`WordSearch`), where it counts if no letter, digit or underscore touches it.
-/

namespace BindlessHlsl.Lexeme

open Ascii

/-- The rest of a block comment, its closing mark included. Without one it runs to the end. -/
def blockCommentRest : List UInt8 → Nat
  | [] => 0
  | b :: rest =>
    if b = star ∧ rest.head? = some slash then 2 else 1 + blockCommentRest rest

/-- A comment. A line comment ends before its newline. -/
def comment : List UInt8 → Nat
  | b :: mark :: rest =>
    if b = slash ∧ mark = slash then 2 + (rest.takeWhile (· != newline)).length
    else if b = slash ∧ mark = star then 2 + blockCommentRest rest
    else 0
  | _ => 0

/-- The rest of a string literal after its opening quote. A backslash takes the next byte along,
and a newline ends the literal without being part of it. -/
def stringRest : List UInt8 → Nat
  | [] => 0
  | [b] => if b = newline then 0 else 1
  | b :: d :: rest =>
    if b = backslash then 2 + stringRest rest
    else if b = doubleQuote then 1
    else if b = newline then 0
    else 1 + stringRest (d :: rest)

/-- A string literal in double quotes. -/
def stringLiteral : List UInt8 → Nat
  | [] => 0
  | b :: rest => if b = doubleQuote then 1 + stringRest rest else 0

/-- The rest of a logical line, its newline excluded. The flag says whether the last byte other
than a carriage return was a backslash, which continues the line past its newline. -/
def lineRest : Bool → List UInt8 → Nat
  | _, [] => 0
  | continued, b :: rest =>
    if b = newline then
      if continued then 1 + lineRest false rest else 0
    else if b = carriageReturn then 1 + lineRest continued rest
    else 1 + lineRest (b == backslash) rest

/-- A logical line. -/
def line (bytes : List UInt8) : Nat := lineRest false bytes

/-- An identifier. -/
def identifier : List UInt8 → Nat
  | [] => 0
  | b :: rest =>
    if isIdentifierStart b then 1 + (rest.takeWhile isIdentifierContinue).length else 0

/-- Blanks and comments in any order. -/
def trivia : List UInt8 → Nat
  | [] => 0
  | b :: rest =>
    if isBlank b then 1 + trivia rest
    else
      match comment (b :: rest) with
      | 0 => 0
      | n + 1 => (n + 1) + trivia (rest.drop n)
termination_by bytes => bytes.length

end BindlessHlsl.Lexeme

namespace BindlessHlsl.WordSearch

/-- Whether a neighbour of an occurrence extends the word. -/
def extends? (neighbour : Option UInt8) : Bool :=
  (neighbour.map Ascii.isIdentifierContinue).getD false

/-- Looks for a word after a neighbour. Occurrences are tried from left to right, each past the end
of the one before. -/
def findAfter (word : List UInt8) (previous : Option UInt8) : List UInt8 → Bool
  | [] => false
  | b :: rest =>
    if word.isPrefixOf (b :: rest) then
      let behind := rest.drop (word.length - 1)
      if !extends? previous && !extends? behind.head? then true
      else findAfter word (word.getLast?.or (some b)) behind
    else findAfter word (some b) rest
termination_by text => text.length

/-- Whether a word occurs in a text as a whole word. -/
def contains (word text : List UInt8) : Bool := findAfter word none text

end BindlessHlsl.WordSearch
