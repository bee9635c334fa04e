/-!
The ASCII bytes and byte classes that matter in shader text. Everything the library recognises is
spelled in ASCII; a byte of a longer character belongs to none of these classes.
-/

namespace BindlessHlsl.Ascii

def tab : UInt8 := 9
def newline : UInt8 := 10
def formFeed : UInt8 := 12
def carriageReturn : UInt8 := 13
def space : UInt8 := 32
def doubleQuote : UInt8 := 34
def hash : UInt8 := 35
def singleQuote : UInt8 := 39
def openParen : UInt8 := 40
def closeParen : UInt8 := 41
def star : UInt8 := 42
def plus : UInt8 := 43
def comma : UInt8 := 44
def minus : UInt8 := 45
def dot : UInt8 := 46
def slash : UInt8 := 47
def colon : UInt8 := 58
def semicolon : UInt8 := 59
def less : UInt8 := 60
def equals : UInt8 := 61
def greater : UInt8 := 62
def openBracket : UInt8 := 91
def backslash : UInt8 := 92
def closeBracket : UInt8 := 93
def underscore : UInt8 := 95
def openBrace : UInt8 := 123
def closeBrace : UInt8 := 125

/-- A decimal digit. -/
def isDigit (b : UInt8) : Bool := 48 ≤ b && b ≤ 57

/-- A letter of either case. -/
def isLetter (b : UInt8) : Bool := (65 ≤ b && b ≤ 90) || (97 ≤ b && b ≤ 122)

/-- A byte that may start an identifier. -/
def isIdentifierStart (b : UInt8) : Bool := isLetter b || b == underscore

/-- A byte that may continue an identifier. -/
def isIdentifierContinue (b : UInt8) : Bool := isIdentifierStart b || isDigit b

/-- A byte of an unquoted value: an identifier byte, a point or a sign. -/
def isValueByte (b : UInt8) : Bool :=
  isIdentifierContinue b || b == dot || b == minus || b == plus

/-- Blanks that do not end a line. -/
def isInlineBlank (b : UInt8) : Bool := b == space || b == tab || b == carriageReturn

/-- Blanks, line ends included. The vertical tab is not one. -/
def isBlank (b : UInt8) : Bool := isInlineBlank b || b == newline || b == formFeed

end BindlessHlsl.Ascii
