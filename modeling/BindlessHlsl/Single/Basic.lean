import BindlessHlsl.Single.Rounding
import BindlessHlsl.Word

/-!
Single-precision numbers, known by their 32 bits, and how they are read from shader text.
-/

namespace BindlessHlsl

/-- A number of the 32-bit binary format. -/
structure Single where
  bits : UInt32
  deriving DecidableEq, Repr, Inhabited

namespace Single

/-- Weight of the sign bit. -/
def signBit : Nat := 0x80000000

/-- The number with a sign and magnitude bits. -/
def ofMagnitude (negative : Bool) (magnitude : Nat) : Single :=
  ⟨((if negative then signBit else 0) + magnitude).toUInt32⟩

/-- The bits without the sign. -/
def magnitude (x : Single) : Nat := x.bits.toNat % signBit

/-- Whether the sign bit is set. -/
def isNegative (x : Single) : Bool := signBit ≤ x.bits.toNat

def zero : Single := ⟨0⟩
def one : Single := ⟨0x3f800000⟩

/-- The greatest finite number. -/
def greatest : Single := ⟨0x7f7fffff⟩

/-- Neither infinite nor a NaN. -/
def isFinite (x : Single) : Bool := x.magnitude < BinaryFormat.single.infinity

/-- Magnitude bits of the value nearest to a decimal. From 10^40 on everything is infinite, and
below 10^-50 everything is zero. -/
def magnitudeOfDecimal (d : Decimal) : Nat :=
  if d.digits = 0 then 0
  else if 40 < d.exponent + d.size then BinaryFormat.single.infinity
  else if d.exponent + d.size < -50 then 0
  else BinaryFormat.single.round d.fraction.1 d.fraction.2

/-- The number nearest to a word. -/
def ofWord (w : UInt32) : Single := ofMagnitude false (BinaryFormat.single.ofNat w.toNat)

/-- What a written number denotes. -/
inductive Numeral where
  | decimal (negative : Bool) (value : Decimal)
  | infinity (negative : Bool)
  | nan
  deriving DecidableEq, Repr

namespace Numeral

/-- Cuts off an optional sign. -/
def sign : List Char → Bool × List Char
  | '-' :: rest => (true, rest)
  | '+' :: rest => (false, rest)
  | rest => (false, rest)

/-- Reads an exponent with its mark. No text at all is the exponent zero. -/
def exponent? : List Char → Option Int
  | [] => some 0
  | mark :: rest =>
    if mark == 'e' || mark == 'E' then
      let (negative, digits) := sign rest
      if digits.isEmpty || !digits.all Char.isDigit then none
      else
        let n : Int := Word.digitsValue digits
        some (if negative then -n else n)
    else none

/-- Reads digits with an optional point and an optional exponent. -/
def decimal? (chars : List Char) : Option Decimal := do
  let whole := chars.takeWhile Char.isDigit
  let rest := chars.dropWhile Char.isDigit
  let (fraction, rest) := match rest with
    | '.' :: rest => (rest.takeWhile Char.isDigit, rest.dropWhile Char.isDigit)
    | rest => ([], rest)
  if whole.isEmpty && fraction.isEmpty then none
  else
    let exponent ← exponent? rest
    return ⟨Word.digitsValue (whole ++ fraction), exponent - fraction.length⟩

/-- Reads a number: a sign, then a decimal or one of the words for infinity and NaN in any letter
case. -/
def ofChars? (chars : List Char) : Option Numeral :=
  let (negative, rest) := sign chars
  match decimal? rest with
  | some value => some (.decimal negative value)
  | none =>
    let word := String.ofList (rest.map Char.toLower)
    if word == "inf" || word == "infinity" then some (.infinity negative)
    else if word == "nan" then some .nan
    else none

/-- The greater of a written number and zero. -/
def clamp : Numeral → Single
  | .decimal false value => ofMagnitude false (magnitudeOfDecimal value)
  | .infinity false => ofMagnitude false BinaryFormat.single.infinity
  | _ => zero

end Numeral

/-- Reads a level of detail: a number that may end in the letter `f`, with zero in place of anything
below it. -/
def levelOfDetail? (text : String) : Option Single :=
  let chars := (text.toList.reverse.dropWhile fun c => c == 'f' || c == 'F').reverse
  (Numeral.ofChars? chars).map Numeral.clamp

end Single

end BindlessHlsl
