import BindlessHlsl.Json.Value

/-!
What written numbers mean. A word is written as plain digits. For a single-precision number an
integer that fits 64 bits is rounded once; anything else goes through double precision: as many
leading digits as fit 64 bits, scaled by powers of ten one rounding at a time.
-/

namespace BindlessHlsl.JsonNumber

/-- The word that a number denotes. -/
def toWord? (n : JsonNumber) : Option UInt32 :=
  if n.negative || !n.fraction.isEmpty || n.exponent.isSome then none
  else Word.ofNat? (Word.digitsValue n.whole)

/-- Values of this size do not fit 64 bits. -/
def significandBound : Nat := 0x10000000000000000

/-- The value of as many leading digits as fit 64 bits, and the number of digits left over. -/
def significand (start : Nat) : List Char → Nat × Nat
  | [] => (start, 0)
  | d :: rest =>
    let next := 10 * start + (d.toNat - '0'.toNat)
    if next < significandBound then significand next rest else (start, rest.length + 1)

/-- The greatest power of ten in double precision. -/
def powerLimit : Nat := 308

/-- Double-precision bits of a power of ten. -/
def power (n : Nat) : Nat := BinaryFormat.double.ofNat (Nat.pow 10 n)

/-- Scales double-precision bits by a power of ten. There is no result out of range. -/
def scale? (bits : Nat) (exponent : Int) : Option Nat :=
  if exponent.natAbs ≤ powerLimit then
    if 0 ≤ exponent then
      let product := BinaryFormat.double.mul bits (power exponent.natAbs)
      if product = BinaryFormat.double.infinity then none else some product
    else some (BinaryFormat.double.div bits (power exponent.natAbs))
  else if bits = 0 then some 0
  else if 0 ≤ exponent then none
  else scale? (BinaryFormat.double.div bits (power powerLimit)) (exponent + powerLimit)
termination_by (-exponent).toNat
decreasing_by simp only [powerLimit] at *; omega

/-- The exponent as written. -/
def exponentValue (n : JsonNumber) : Int :=
  match n.exponent with
  | none => 0
  | some (negative, digits) =>
    let value : Int := Word.digitsValue digits
    if negative then -value else value

/-- Double-precision bits of the magnitude of a number. -/
def toDouble? (n : JsonNumber) : Option Nat :=
  let (whole, dropped) := significand 0 n.whole
  let (digits, left) := significand whole n.fraction
  let places : Int := dropped - (n.fraction.length - left : Nat)
  scale? (BinaryFormat.double.ofNat digits) (places + n.exponentValue)

/-- Whether a number is an integer that is rounded once. -/
def isInteger64 (n : JsonNumber) : Bool :=
  let value := Word.digitsValue n.whole
  n.fraction.isEmpty && n.exponent.isNone &&
    if n.negative then 0 < value && value ≤ significandBound / 2 else value < significandBound

/-- The single-precision number that a number denotes. -/
def toSingle? (n : JsonNumber) : Option Single :=
  if n.isInteger64 then
    some (Single.ofMagnitude n.negative (BinaryFormat.single.ofNat (Word.digitsValue n.whole)))
  else
    n.toDouble?.map fun bits =>
      Single.ofMagnitude n.negative (BinaryFormat.double.convert BinaryFormat.single bits)

end BindlessHlsl.JsonNumber
