import Switching.Table.Row

/-!
# Cubes

A cube fixes some inputs to one or zero and leaves the others open.  It stands
for the set of rows that agree with it wherever it is fixed.
-/

namespace Switching

/-- One place of a cube. -/
inductive Trit
  | one
  | zero
  | dash
  deriving DecidableEq, Repr, Inhabited

namespace Trit

/-- The place that fixes an input to the given bit. -/
def ofBool (bit : Bool) : Trit :=
  if bit then .one else .zero

/-- The character of a place. -/
def symbol : Trit → Char
  | .one => '1'
  | .zero => '0'
  | .dash => '-'

/-- The place of a character. -/
def ofSymbol? : Char → Option Trit
  | '1' => some .one
  | '0' => some .zero
  | '-' => some .dash
  | _ => none

/-- The rank of a place in the canonical order: one, zero, dash. -/
def rank : Trit → Nat
  | .one => 0
  | .zero => 1
  | .dash => 2

end Trit

/-- A cube, with the most significant input first. -/
abbrev Cube := List Trit

namespace Cube

/-- The full cube that fixes every input to the given bit. -/
def full (bits : List Bool) : Cube :=
  bits.map Trit.ofBool

@[simp]
theorem length_full (bits : List Bool) : (full bits).length = bits.length :=
  List.length_map _

/-- The full cube of a row. -/
def ofIndex (width index : Nat) : Cube :=
  full (Row.bits width index)

/-- The cube that a text over `0`, `1` and `-` writes. -/
def ofChars? (chars : List Char) : Option Cube :=
  chars.mapM Trit.ofSymbol?

/-- The cube that a string writes. -/
def parse? (text : String) : Option Cube :=
  ofChars? text.toList

/-- A cube as text. -/
def render (cube : Cube) : String :=
  String.ofList (cube.map Trit.symbol)

/-- The number of places that are one. -/
def weight (cube : Cube) : Nat :=
  cube.countP (· = .one)

/-- The number of places that are fixed. -/
def literalCount (cube : Cube) : Nat :=
  cube.countP (· ≠ .dash)

/-- Whether a cube contains a full cube of the same width. -/
def covers : Cube → Cube → Bool
  | [], [] => true
  | place :: rest, bit :: bits => (place = .dash || place = bit) && covers rest bits
  | _, _ => false

/-- The union of two cubes that differ in exactly one place, where both are
fixed. -/
def combine? : Cube → Cube → Option Cube
  | a :: rest, b :: others =>
      if a = b then (combine? rest others).map (a :: ·)
      else if a ≠ .dash ∧ b ≠ .dash ∧ rest = others then some (.dash :: rest)
      else none
  | _, _ => none

/-- The canonical order: place by place, and shorter cubes before their
extensions. -/
def precedes : Cube → Cube → Bool
  | [], _ => true
  | _ :: _, [] => false
  | a :: rest, b :: others => a.rank < b.rank || (a = b && precedes rest others)

/-- The rows of a cube, in ascending order, whose indices start with the bits
of `index`. -/
def rowsFrom (index : Nat) : Cube → List Nat
  | [] => [index]
  | .one :: rest => rowsFrom (2 * index + 1) rest
  | .zero :: rest => rowsFrom (2 * index) rest
  | .dash :: rest => rowsFrom (2 * index) rest ++ rowsFrom (2 * index + 1) rest

/-- The indices of the rows of a cube, in ascending order. -/
def rows (cube : Cube) : List Nat :=
  rowsFrom 0 cube

end Cube

end Switching
