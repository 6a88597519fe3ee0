import Switching.Table.Cell
import Switching.Table.Row

/-!
# Truth tables

A table has one row for every pattern of its inputs and one cell per output in
each row, so it is a total map from patterns and output names to cells.  The
shape is part of the type: an index that is in range is in range for good.
-/

namespace Switching

/-- The largest number of outputs of a table. -/
def maxOutputs : Nat := 64

/-- A truth table over named inputs and outputs.  The row of index `i` belongs
to the pattern that writes `i` in binary. -/
structure Table where
  inputs : List String
  outputs : List String
  rows : Vector (Vector Cell outputs.length) (Row.count inputs.length)
  inputs_nodup : inputs.Nodup
  outputs_nodup : outputs.Nodup
  inputs_le : inputs.length ≤ Row.maxInputs
  outputs_le : outputs.length ≤ maxOutputs
  deriving DecidableEq

namespace Table

/-- The first name of a list that occurs before in it. -/
def firstRepeated? (seen : List String) : List String → Option String
  | [] => none
  | name :: rest =>
      if name ∈ seen then some name else firstRepeated? (name :: seen) rest

private theorem nodup_of_firstRepeated? :
    ∀ {names seen : List String}, firstRepeated? seen names = none →
      names.Nodup ∧ ∀ name ∈ names, name ∉ seen
  | [], _, _ => by simp
  | name :: rest, seen, none_eq => by
      unfold firstRepeated? at none_eq
      split at none_eq
      · cases none_eq
      · rename_i fresh
        have ⟨restNodup, restFresh⟩ := nodup_of_firstRepeated? none_eq
        refine ⟨List.nodup_cons.mpr ⟨fun mem => ?_, restNodup⟩, fun other mem => ?_⟩
        · exact restFresh name mem List.mem_cons_self
        · rcases List.mem_cons.mp mem with rfl | mem
          · exact fresh
          · exact fun seenMem => restFresh other mem (List.mem_cons_of_mem _ seenMem)

/-- A list of names without a repetition is accepted. -/
theorem nodup_of_firstRepeated?_nil {names : List String}
    (none_eq : firstRepeated? [] names = none) : names.Nodup :=
  (nodup_of_firstRepeated? none_eq).1

/-- The table over the given names whose cells are all off.  The numbers of
names are checked before their repetitions, and the inputs before the
outputs. -/
def blank (inputs outputs : List String) : Except TableError Table :=
  if inputs_le : inputs.length ≤ Row.maxInputs then
    if outputs_le : outputs.length ≤ maxOutputs then
      match inputs_new : firstRepeated? [] inputs with
      | some name => .error (.duplicateVariable name)
      | none =>
          match outputs_new : firstRepeated? [] outputs with
          | some name => .error (.duplicateVariable name)
          | none => .ok
              { inputs, outputs, inputs_le, outputs_le
                rows := .replicate _ (.replicate _ .off)
                inputs_nodup := nodup_of_firstRepeated?_nil inputs_new
                outputs_nodup := nodup_of_firstRepeated?_nil outputs_new }
    else .error (.tooManyOutputs outputs.length maxOutputs)
  else .error (.tooManyVariables inputs.length Row.maxInputs)

variable (table : Table)

/-- The number of rows. -/
abbrev rowCount : Nat := Row.count table.inputs.length

/-- The number of outputs. -/
abbrev outputCount : Nat := table.outputs.length

/-- The position of a cell: its row and its column. -/
abbrev Place : Type := Fin table.rowCount × Fin table.outputCount

/-- The cell at a place. -/
def cell (place : table.Place) : Cell :=
  table.rows[place.1][place.2]

/-- Replace the cell at a place. -/
def setCell (place : table.Place) (cell : Cell) : Table :=
  { table with rows := table.rows.set place.1 (table.rows[place.1].set place.2 cell) }

/-- Replacing a cell changes that cell and no other. -/
theorem cell_setCell (place other : table.Place) (cell : Cell) :
    (table.setCell place cell).cell other = if other = place then cell else table.cell other := by
  obtain ⟨row, column⟩ := place
  obtain ⟨otherRow, otherColumn⟩ := other
  change (table.rows.set row.val (table.rows[row.val].set column.val cell))[otherRow.val][
    otherColumn.val] = if _ then cell else table.rows[otherRow.val][otherColumn.val]
  by_cases sameRow : otherRow = row
  · subst sameRow
    by_cases sameColumn : otherColumn = column
    · subst sameColumn
      simp
    · have differ : column.val ≠ otherColumn.val := fun same => sameColumn (Fin.ext same.symm)
      simp [sameColumn, differ]
  · have differ : row.val ≠ otherRow.val := fun same => sameRow (Fin.ext same.symm)
    simp [sameRow, differ]

/-- A table is given by its names and its cells. -/
theorem ext_cell {first second : Table} (inputs_eq : first.inputs = second.inputs)
    (outputs_eq : first.outputs = second.outputs)
    (cells : ∀ (place : first.Place) (other : second.Place), place.1.val = other.1.val →
      place.2.val = other.2.val → first.cell place = second.cell other) : first = second := by
  obtain ⟨inputs, outputs, rows⟩ := first
  obtain ⟨_, _, others⟩ := second
  dsimp only at inputs_eq outputs_eq
  subst inputs_eq outputs_eq
  have rows_eq : rows = others := by
    refine Vector.ext fun row row_lt => Vector.ext fun column column_lt => ?_
    exact cells (⟨row, row_lt⟩, ⟨column, column_lt⟩) (⟨row, row_lt⟩, ⟨column, column_lt⟩) rfl rfl
  subst rows_eq
  rfl

/-- Replace the cells of a column from the first row on, as far as the given
cells go. -/
def fillColumn (column : Fin table.outputCount) (cells : Array Cell) : Table :=
  { table with
    rows := table.rows.mapIdx fun index row =>
      match cells[index]? with
      | some cell => row.set column cell
      | none => row }

/-- The cells of the row with a given index, if there is such a row. -/
def row? (index : Nat) : Option (List Cell) :=
  table.rows[index]?.map Vector.toList

/-- The column of an output. -/
def outputIndex (output : String) : Except TableError (Fin table.outputCount) :=
  match table.outputs.finIdxOf? output with
  | some column => .ok column
  | none => .error (.unknownOutput output)

/-- The place that a pattern and an output name stand for. -/
def place (pattern output : String) : Except TableError table.Place := do
  let row ← Row.index pattern table.inputs.length
  let column ← table.outputIndex output
  return (row, column)

/-- The cell for a pattern and an output name. -/
def value (pattern output : String) : Except TableError Cell := do
  return table.cell (← table.place pattern output)

/-- Replace the cell for a pattern and an output name. -/
def set (pattern output : String) (cell : Cell) : Except TableError Table := do
  return table.setCell (← table.place pattern output) cell

/-- Move the cell for a pattern and an output name to the next one of the
editing cycle, and give the new cell. -/
def cycle (pattern output : String) : Except TableError (Cell × Table) := do
  let place ← table.place pattern output
  let cell := (table.cell place).next
  return (cell, table.setCell place cell)

/-- Exchange on and off in every cell. -/
def inverted : Table :=
  { table with rows := table.rows.map (·.map Cell.invert) }

@[simp]
theorem cell_inverted (place : table.Place) :
    table.inverted.cell place = (table.cell place).invert := by
  change (table.rows.map (·.map Cell.invert))[place.1.val][place.2.val] = _
  simp [cell]

/-- Exchanging on and off twice changes nothing. -/
@[simp]
theorem inverted_inverted : table.inverted.inverted = table := by
  have twice : (fun row : Vector Cell table.outputs.length =>
      (row.map Cell.invert).map Cell.invert) = id := by
    funext row
    simp [Function.comp_def]
  have rows_eq : (table.rows.map (·.map Cell.invert)).map (·.map Cell.invert) = table.rows := by
    rw [Vector.map_map]
    exact (congrArg (table.rows.map ·) twice).trans (by simp)
  simp only [inverted, rows_eq]

/-- The rows with their patterns, in ascending order. -/
def entries : List (String × List Cell) :=
  table.rows.toList.zipIdx.map fun (cells, index) =>
    (Row.pattern table.inputs.length index, cells.toList)

/-- One of the three editing steps. -/
inductive Edit
  | set (pattern output : String) (cell : Cell)
  | cycle (pattern output : String)
  | invert
  deriving DecidableEq, Repr

/-- Carry out an editing step. -/
def edit : Edit → Except TableError Table
  | .set pattern output cell => table.set pattern output cell
  | .cycle pattern output => (table.cycle pattern output).map Prod.snd
  | .invert => .ok table.inverted

end Table

end Switching
