/-!
# Cells of truth tables
-/

namespace Switching

/-- What a table says about one output for one row: it is on, it is off, or
either value will do. -/
inductive Cell
  | on
  | off
  | free
  deriving DecidableEq, Repr

namespace Cell

instance : Inhabited Cell :=
  ⟨.off⟩

/-- The cell of a Boolean value. -/
def ofBool (value : Bool) : Cell :=
  if value then .on else .off

/-- The value of a cell, unless either will do. -/
def toBool? : Cell → Option Bool
  | .on => some true
  | .off => some false
  | .free => none

/-- The next cell in the editing cycle on, off, free. -/
def next : Cell → Cell
  | .on => .off
  | .off => .free
  | .free => .on

/-- Exchange on and off. -/
def invert : Cell → Cell
  | .on => .off
  | .off => .on
  | .free => .free

/-- A cover may contain a row unless its cell is off. -/
def mayBeOn : Cell → Bool
  | .off => false
  | _ => true

/-- The character of a cell in a table dump. -/
def symbol : Cell → Char
  | .on => '1'
  | .off => '0'
  | .free => 'x'

/-- The cell of a character of a table dump. -/
def ofSymbol? : Char → Option Cell
  | '1' => some .on
  | '0' => some .off
  | 'x' => some .free
  | _ => none

/-- The editing cycle comes back after three steps. -/
@[simp]
theorem next_next_next (cell : Cell) : cell.next.next.next = cell := by
  cases cell <;> rfl

@[simp]
theorem invert_invert (cell : Cell) : cell.invert.invert = cell := by
  cases cell <;> rfl

@[simp]
theorem toBool?_ofBool (value : Bool) : (ofBool value).toBool? = some value := by
  cases value <;> rfl

end Cell

end Switching
