import BindlessHlsl.Single.Shortest

/-!
JSON values. Objects keep the order of their fields. A number is kept as it is written, since its
value depends on what it is read as.
-/

namespace BindlessHlsl

/-- A written number: digits, optional digits behind a point, and an optional exponent. -/
structure JsonNumber where
  negative : Bool := false
  whole : List Char
  fraction : List Char := []
  /-- Whether the exponent is negative, and its digits. -/
  exponent : Option (Bool × List Char) := none
  deriving DecidableEq, Repr, Inhabited

/-- A JSON value. -/
inductive JsonValue where
  | null
  | bool (value : Bool)
  | number (value : JsonNumber)
  | string (value : String)
  | array (items : List JsonValue)
  | object (fields : List (String × JsonValue))
  /-- A string, or an object with a key, that names half of a surrogate pair. It may be passed over,
  but it is no text. -/
  | broken
  deriving Repr, Inhabited

namespace JsonNumber

/-- The digits of a natural number. -/
def ofNat (n : Nat) : JsonNumber := { whole := Nat.toDigits 10 n }

/-- Exponents of the leading digit for which a number is written without exponent. -/
def isPlain (exponent : Int) : Bool := -6 ≤ exponent && exponent ≤ 12

/-- The written form of a positive decimal. Without exponent there is a digit on either side of the
point. -/
def ofDecimal (d : Decimal) : JsonNumber :=
  let digits := Nat.toDigits 10 d.digits
  let leading := d.exponent + digits.length - 1
  if isPlain leading then
    if 0 ≤ d.exponent then
      { whole := digits ++ List.replicate d.exponent.toNat '0', fraction := ['0'] }
    else if 0 ≤ leading then
      { whole := digits.take (leading + 1).toNat, fraction := digits.drop (leading + 1).toNat }
    else
      { whole := ['0'], fraction := List.replicate (-leading - 1).toNat '0' ++ digits }
  else
    { whole := digits.take 1
      fraction := digits.drop 1
      exponent := some (decide (leading < 0), Nat.toDigits 10 leading.natAbs) }

/-- The written form of a finite number: the fewest digits that read back. -/
def ofSingle (x : Single) : JsonNumber :=
  if x.magnitude = 0 then { negative := x.isNegative, whole := ['0'], fraction := ['0'] }
  else { ofDecimal (Single.shortest x.magnitude) with negative := x.isNegative }

/-- Characters of a number. The exponent always has a sign. -/
def chars (n : JsonNumber) : List Char :=
  (if n.negative then ['-'] else []) ++ n.whole ++
  (if n.fraction.isEmpty then [] else '.' :: n.fraction) ++
  match n.exponent with
  | none => []
  | some (negative, digits) => 'e' :: (if negative then '-' else '+') :: digits

end JsonNumber

namespace JsonValue

/-- A word as a number. -/
def ofWord (n : UInt32) : JsonValue := .number (.ofNat n.toNat)

/-- A single-precision number. JSON has no infinity and no NaN, so those are null. -/
def ofSingle (x : Single) : JsonValue := if x.isFinite then .number (.ofSingle x) else .null

/-- A value that may be absent. -/
def ofOption {α : Type} (f : α → JsonValue) : Option α → JsonValue
  | some value => f value
  | none => .null

end JsonValue

end BindlessHlsl
