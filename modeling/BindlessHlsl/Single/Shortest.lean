import BindlessHlsl.Single.Basic

/-!
The shortest decimal for a single-precision number: the fewest digits that read back and, of several
candidates, the one nearest to the number.
-/

namespace BindlessHlsl.Single

/-- Exponent of the leading decimal digit of a positive fraction. -/
def leadingExponent (num den : Nat) : Int :=
  if den ≤ num then (Nat.toDigits 10 (num / den)).length - 1
  else
    let size := (Nat.toDigits 10 (den / num)).length
    if den ≤ num * Nat.pow 10 (size - 1) then -((size - 1 : Nat) : Int) else -(size : Int)

/-- The decimal with `count` digits that reads back as `bits`, if there is one: a neighbour of
`num / den` on the grid of that many digits, the nearer one, or the even one halfway. -/
def withDigits? (bits num den : Nat) (count : Nat) : Option Decimal :=
  let exponent := leadingExponent num den + 1 - count
  let top := num * Nat.pow 10 (-exponent).toNat
  let unit := den * Nat.pow 10 exponent.toNat
  let low : Decimal := ⟨top / unit, exponent⟩
  let high : Decimal := ⟨top / unit + 1, exponent⟩
  match magnitudeOfDecimal low == bits, magnitudeOfDecimal high == bits with
  | true, true => if roundHalfEven top unit = low.digits then some low else some high
  | true, false => some low
  | false, true => some high
  | false, false => none

/-- The shortest decimal that reads back as positive finite magnitude bits. Nine digits always
suffice; the exact value would stand in. -/
def shortest (bits : Nat) : Decimal :=
  let num := BinaryFormat.single.units bits
  let den := Nat.pow 2 BinaryFormat.single.scale
  let exact : Decimal := ⟨num * Nat.pow 5 BinaryFormat.single.scale, -BinaryFormat.single.scale⟩
  (((List.range' 1 9).findSome? (withDigits? bits num den)).getD exact).normalize

end BindlessHlsl.Single
