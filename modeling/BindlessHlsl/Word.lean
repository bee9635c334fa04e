/-!
Sizes, offsets and register numbers are 32-bit words. Arithmetic on them either is exact or has no
result; it never wraps.
-/

namespace BindlessHlsl.Word

/-- Number of words. -/
def bound : Nat := 0x100000000

/-- The word of a natural number that fits. -/
def ofNat? (n : Nat) : Option UInt32 := if n < bound then some n.toUInt32 else none

/-- The exact sum. -/
def add? (a b : UInt32) : Option UInt32 := ofNat? (a.toNat + b.toNat)

/-- The exact product. -/
def mul? (a b : UInt32) : Option UInt32 := ofNat? (a.toNat * b.toNat)

/-- The sum of a list, each partial sum exact. -/
def sum? : List UInt32 → Option UInt32 := List.foldlM add? 0

/-- The value of a list of decimal digits. -/
def digitsValue (digits : List Char) : Nat :=
  digits.foldl (fun n d => 10 * n + (d.toNat - '0'.toNat)) 0

/-- Reads decimal digits, which a plus sign may precede. -/
def ofChars? (chars : List Char) : Option UInt32 :=
  let digits := match chars with
    | '+' :: digits => digits
    | digits => digits
  if digits.isEmpty || !digits.all Char.isDigit then none else ofNat? (digitsValue digits)

/-- Reads a number from a text. -/
def ofText? (text : String) : Option UInt32 := ofChars? text.toList

theorem toNat_of_ofNat? {n : Nat} {w : UInt32} (h : ofNat? n = some w) : w.toNat = n := by
  unfold ofNat? at h
  split at h
  next hn =>
    cases h
    simpa [bound] using hn
  next => cases h

theorem ofNat?_toNat (w : UInt32) : ofNat? w.toNat = some w := by
  simp [ofNat?, bound, w.toNat_lt]

theorem toNat_of_add? {a b w : UInt32} (h : add? a b = some w) : w.toNat = a.toNat + b.toNat :=
  toNat_of_ofNat? h

theorem toNat_of_mul? {a b w : UInt32} (h : mul? a b = some w) : w.toNat = a.toNat * b.toNat :=
  toNat_of_ofNat? h

end BindlessHlsl.Word
