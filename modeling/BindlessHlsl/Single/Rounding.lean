/-!
Binary floating-point formats, without sign. A format keeps a fixed number of fraction bits; a bit
pattern stands for a multiple of the least positive value, and patterns grow with their values.
Rounding a fraction goes to the nearest value and, halfway between two, to the even pattern.
-/

namespace BindlessHlsl

/-- The nearest natural number to `num / den`, the even one of two. -/
def roundHalfEven (num den : Nat) : Nat :=
  let q := num / den
  let r := num % den
  if 2 * r < den then q else if den < 2 * r then q + 1 else q + q % 2

/-- A decimal `digits * 10 ^ exponent`. -/
structure Decimal where
  digits : Nat
  exponent : Int
  deriving DecidableEq, Repr, Inhabited

namespace Decimal

/-- Number of digits. -/
def size (d : Decimal) : Nat := (Nat.toDigits 10 d.digits).length

/-- Numerator and denominator. -/
def fraction (d : Decimal) : Nat × Nat :=
  (d.digits * Nat.pow 10 d.exponent.toNat, Nat.pow 10 (-d.exponent).toNat)

/-- Moves the zeros at the end of the digits into the exponent. -/
def normalize (d : Decimal) : Decimal :=
  if h : d.digits ≠ 0 ∧ d.digits % 10 = 0 then normalize ⟨d.digits / 10, d.exponent + 1⟩ else d
termination_by d.digits
decreasing_by omega

end Decimal

/-- A binary floating-point format. -/
structure BinaryFormat where
  /-- Bits of the fraction. -/
  fractionBits : Nat
  /-- The least positive value is two to the minus this. -/
  scale : Nat
  /-- The bits of infinity. -/
  infinity : Nat

namespace BinaryFormat

/-- The format of 32 bits. -/
def single : BinaryFormat := ⟨23, 149, 0x7f800000⟩

/-- The format of 64 bits. -/
def double : BinaryFormat := ⟨52, 1074, 0x7ff0000000000000⟩

variable (f : BinaryFormat)

/-- The bits of the value nearest to `num / den`. -/
def round (num den : Nat) : Nat :=
  let scaled := num * Nat.pow 2 f.scale
  let shift := Nat.log2 (scaled / den) - f.fractionBits
  min (shift * Nat.pow 2 f.fractionBits + roundHalfEven scaled (den * Nat.pow 2 shift)) f.infinity

/-- The value of finite bits in units of the least positive value. -/
def units (bits : Nat) : Nat :=
  let exponent := bits / Nat.pow 2 f.fractionBits
  let fraction := bits % Nat.pow 2 f.fractionBits
  if exponent = 0 then fraction
  else (Nat.pow 2 f.fractionBits + fraction) * Nat.pow 2 (exponent - 1)

/-- The bits of the value nearest to a product of two. -/
def mul (a b : Nat) : Nat :=
  if a = f.infinity ∨ b = f.infinity then f.infinity
  else f.round (f.units a * f.units b) (Nat.pow 2 (2 * f.scale))

/-- The bits of the value nearest to the quotient of a finite value by a positive one. -/
def div (a b : Nat) : Nat := f.round (f.units a) (f.units b)

/-- The bits of the value nearest to a natural number. -/
def ofNat (n : Nat) : Nat := f.round n 1

/-- The bits in this format of the value nearest to finite bits in another. -/
def convert (target : BinaryFormat) (bits : Nat) : Nat :=
  if bits = f.infinity then target.infinity else target.round (f.units bits) (Nat.pow 2 f.scale)

end BinaryFormat

end BindlessHlsl
