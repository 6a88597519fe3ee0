/-!
# Sizes in decimal notation

Sizes are written as decimal digits, optionally after a plus sign, and are
limited to 64 bits.
-/

namespace Switching.Text

/-- Sizes are counted in 64-bit words. -/
def sizeLimit : Nat := 0x10000000000000000

/-- The number written by a list of decimal digits, most significant first. -/
def digitsValue? (digits : List Char) : Option Nat :=
  digits.foldlM (fun value digit =>
    if digit.isDigit then some (10 * value + (digit.toNat - '0'.toNat)) else none) 0

/-- Read a size: an optional plus sign, then at least one decimal digit, of a
value below `sizeLimit`. -/
def size? (text : String) : Option Nat :=
  let digits := match text.toList with
    | '+' :: rest => rest
    | chars => chars
  if digits.isEmpty then none
  else (digitsValue? digits).filter (· < sizeLimit)

end Switching.Text
