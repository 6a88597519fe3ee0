import Switching.Table.Error
import Switching.Text.Utf8

/-!
# Rows of truth tables

A row of a table over `width` inputs is given by its index, by its bits with
the first input most significant, by its pattern over `0` and `1`, or by an
assignment of the inputs.  This file converts between the four.
-/

namespace Switching.Row

/-- The largest number of inputs of a table. -/
def maxInputs : Nat := 10

/-- Refuse more inputs than a table may have. -/
def checkWidth (count : Nat) : Except TableError Unit :=
  if count ≤ maxInputs then .ok () else .error (.tooManyVariables count maxInputs)

/-- The number of rows over `width` inputs, which doubles with every input. -/
def count : (width : Nat) → Nat
  | 0 => 1
  | width + 1 => 2 * count width

/-- There is always at least one row. -/
theorem count_pos (width : Nat) : 0 < count width := by
  induction width with
  | zero => decide
  | succ width ih =>
      rw [count]
      omega

/-- The lowest `width` bits of an index, most significant first. -/
def bits : (width index : Nat) → List Bool
  | 0, _ => []
  | width + 1, index => index.testBit width :: bits width index

@[simp]
theorem length_bits (width index : Nat) : (bits width index).length = width := by
  induction width with
  | zero => rfl
  | succ width ih => simp [bits, ih]

/-- Row indices are computed in 64-bit words. -/
def wordLimit : Nat := 0x10000000000000000

/-- Append one bit to an index as its least significant one. -/
def appendBit (index : Nat) (bit : Bool) : Nat :=
  (2 * index + bit.toNat) % wordLimit

/-- The index with the given bits, most significant first. -/
def ofBits (bits : List Bool) : Nat :=
  bits.foldl appendBit 0

private theorem foldl_appendBit_lt (bits : List Bool) :
    ∀ {index width : Nat}, index < count width →
      bits.foldl appendBit index < count (width + bits.length) := by
  induction bits with
  | nil => intro index width bound; simpa using bound
  | cons bit bits ih =>
      intro index width bound
      have step : appendBit index bit < count (width + 1) := by
        have le : appendBit index bit ≤ 2 * index + bit.toNat := Nat.mod_le _ _
        have := bit.toNat_le
        rw [count]
        omega
      have := ih step
      rw [List.foldl_cons, List.length_cons]
      rwa [Nat.add_right_comm, Nat.add_assoc] at this

/-- The index with the given bits is the index of a row. -/
theorem ofBits_lt (bits : List Bool) : ofBits bits < count bits.length := by
  have := foldl_appendBit_lt bits (count_pos 0)
  simpa [ofBits] using this

/-- The character of a bit. -/
def bitSymbol (bit : Bool) : Char :=
  if bit then '1' else '0'

/-- The bit of a character. -/
def bit? : Char → Option Bool
  | '0' => some false
  | '1' => some true
  | _ => none

/-- The pattern of the row with a given index. -/
def pattern (width index : Nat) : String :=
  String.ofList ((bits width index).map bitSymbol)

/-- All patterns of a given width, in ascending order of their indices. -/
def patterns (width : Nat) : Except TableError (List String) := do
  checkWidth width
  return (List.range (count width)).map (pattern width)

/-- The bits that a pattern of the given width lists.  The width is compared
with the bytes of the pattern, and reported in characters. -/
def readBits (pattern : String) (width : Nat) : Except TableError (List Bool) :=
  if Text.utf8Length pattern.toList = width then
    match pattern.toList.mapM bit? with
    | some bits => .ok bits
    | none => .error (.invalidPattern pattern)
  else .error (.patternLength pattern.toList.length width)

private theorem utf8Length_eq_length_of_mapM_bit? :
    ∀ {chars : List Char} {bits : List Bool}, chars.mapM bit? = some bits →
      bits.length = Text.utf8Length chars
  | [], bits, read => by
      have : bits = [] := by simpa using read.symm
      simp [this]
  | c :: rest, bits, read => by
      rw [List.mapM_cons] at read
      simp only [Option.bind_eq_bind, Option.bind_eq_some_iff, Option.pure_def,
        Option.some.injEq] at read
      obtain ⟨bit, readBit, restBits, readRest, rfl⟩ := read
      have size : c.utf8Size = 1 := by
        unfold bit? at readBit
        split at readBit
        · decide
        · decide
        · cases readBit
      have := utf8Length_eq_length_of_mapM_bit? readRest
      simp [size, this, Nat.add_comm]

/-- A pattern that is read has exactly as many bits as the width asks for. -/
theorem length_of_readBits {pattern : String} {width : Nat} {bits : List Bool}
    (read : readBits pattern width = .ok bits) : bits.length = width := by
  unfold readBits at read
  split at read
  · rename_i width_eq
    split at read
    · rename_i readChars
      cases read
      rw [utf8Length_eq_length_of_mapM_bit? readChars, width_eq]
    · cases read
  · cases read

/-- The index of the row with a given pattern. -/
def index (pattern : String) (width : Nat) : Except TableError (Fin (count width)) :=
  match read : readBits pattern width with
  | .ok bits => .ok ⟨ofBits bits, length_of_readBits read ▸ ofBits_lt bits⟩
  | .error error => .error error

/-- Give each variable the bit at its place. -/
def assignBits (bits : List Bool) (names : List String) : Assignment :=
  .ofList (names.zip bits)

/-- The assignment of the row with a given index. -/
def assignment (names : List String) (index : Nat) : Assignment :=
  assignBits (bits names.length index) names

/-- The assignment of the row with a given pattern. -/
def assignmentOfPattern (pattern : String) (names : List String) :
    Except TableError Assignment := do
  let index ← index pattern names.length
  return assignment names index

/-- The pattern that the values of the variables form. -/
def patternOfAssignment (assignment : Assignment) (names : List String) :
    Except TableError String := do
  let symbols ← names.mapM fun name =>
    match assignment.value? name with
    | some value => .ok (bitSymbol value)
    | none => .error (TableError.missingVariable name)
  return String.ofList symbols

end Switching.Row
