import Switching.Proofs.Table.Patterns

/-!
# Sheets

The shape of a table is part of its type.  A sheet has the names and the cells of a
table without it: there may be rows of any number and length, and a call that reads or
writes a cell behind them fails.  Calls change the sheet at hand, and an error would
leave the changes that were made before it.  On the sheet of a table, a call answers
what the operation on the table gives and leaves the sheet of the table after it; no
access is out of range, and an error leaves the sheet as it was.
-/

namespace Switching

/-- The names and the cells of a table, whatever the number and the length of the rows. -/
structure Sheet where
  inputs : List String
  outputs : List String
  rows : Array (Array Cell)

/-- Why a call on a sheet fails. -/
inductive Sheet.Fault
  | refused (error : TableError)
  | outOfRange
  deriving DecidableEq

/-- Calls on the sheet at hand.  An error keeps the changes that were made before it. -/
abbrev SheetM := EStateM Sheet.Fault Sheet

namespace SheetM

/-- The row of a pattern and the column of an output name. -/
def locate (pattern output : String) : SheetM (Nat × Nat) := do
  let sheet ← get
  let row ← match Row.index pattern sheet.inputs.length with
    | .ok row => pure row.val
    | .error error => throw (.refused error)
  match sheet.outputs.finIdxOf? output with
  | some column => return (row, column.val)
  | none => throw (.refused (.unknownOutput output))

/-- Read a cell. -/
def read (row column : Nat) : SheetM Cell := do
  let sheet ← get
  match sheet.rows[row]? >>= (·[column]?) with
  | some cell => return cell
  | none => throw .outOfRange

/-- Overwrite a cell. -/
def write (row column : Nat) (cell : Cell) : SheetM Unit := do
  let _ ← read row column
  modify fun sheet => { sheet with
    rows := sheet.rows.modify row (·.setIfInBounds column cell) }

/-- The cell for a pattern and an output name. -/
def value (pattern output : String) : SheetM Cell := do
  let (row, column) ← locate pattern output
  read row column

/-- Overwrite the cell for a pattern and an output name. -/
def set (pattern output : String) (cell : Cell) : SheetM Unit := do
  let (row, column) ← locate pattern output
  write row column cell

/-- Move the cell for a pattern and an output name to the next one of the editing
cycle, and read it. -/
def cycle (pattern output : String) : SheetM Cell := do
  let (row, column) ← locate pattern output
  let cell ← read row column
  write row column cell.next
  read row column

/-- Exchange on and off in every cell. -/
def invert : SheetM Unit :=
  modify fun sheet => { sheet with rows := sheet.rows.map (·.map Cell.invert) }

/-- The call for an editing step. -/
def call : Table.Edit → SheetM Unit
  | .set pattern output cell => set pattern output cell
  | .cycle pattern output => discard (cycle pattern output)
  | .invert => invert

/-- The sheet that a call leaves, whether it fails or not. -/
def left (sheet : Sheet) (edit : Table.Edit) : Sheet :=
  match (call edit).run sheet with
  | .ok _ next => next
  | .error _ next => next

/-- The sheet after some calls in turn, of which any may fail. -/
def after (sheet : Sheet) (edits : List Table.Edit) : Sheet :=
  edits.foldl left sheet

end SheetM

namespace Table

variable {table : Table}

/-- The names and the cells of a table. -/
def sheet (table : Table) : Sheet where
  inputs := table.inputs
  outputs := table.outputs
  rows := table.rows.toArray.map Vector.toArray

/-- The result of a call on the sheet of a table that carries out an operation on the
table: its answer and the sheet of the table after it, or its error and the sheet as it
was. -/
def answers {α : Type} (table : Table) : Except TableError (α × Table) →
    EStateM.Result Sheet.Fault Sheet α
  | .ok (value, next) => .ok value next.sheet
  | .error error => .error (.refused error) table.sheet

@[simp]
theorem inputs_sheet (table : Table) : table.sheet.inputs = table.inputs :=
  rfl

@[simp]
theorem outputs_sheet (table : Table) : table.sheet.outputs = table.outputs :=
  rfl

theorem size_rows_sheet (table : Table) : table.sheet.rows.size = table.rowCount := by
  simp [sheet]

theorem size_of_mem_rows_sheet {row : Array Cell} (mem : row ∈ table.sheet.rows) :
    row.size = table.outputs.length := by
  obtain ⟨cells, -, rfl⟩ := Array.mem_map.mp mem
  exact cells.size_toArray

theorem getElem?_rows_sheet (table : Table) (row : Nat) :
    table.sheet.rows[row]? = table.rows[row]?.map Vector.toArray := by
  simp [sheet]

theorem locate_run (table : Table) (pattern output : String) :
    (SheetM.locate pattern output).run table.sheet =
      table.answers ((table.place pattern output).map fun place =>
        ((place.1.val, place.2.val), table)) := by
  unfold Table.place outputIndex SheetM.locate
  simp only [EStateM.run_bind, EStateM.run_get, inputs_sheet, outputs_sheet]
  cases Row.index pattern table.inputs.length with
  | error error => rfl
  | ok row => cases table.outputs.finIdxOf? output <;> rfl

/-- The place of a cell is in range. -/
theorem read_run (table : Table) (place : table.Place) :
    (SheetM.read place.1 place.2).run table.sheet = .ok (table.cell place) table.sheet := by
  have found : table.sheet.rows[place.1.val]? >>= (·[place.2.val]?) = some (table.cell place) := by
    rw [getElem?_rows_sheet]
    simp [cell]
  unfold SheetM.read
  simp only [EStateM.run_bind, EStateM.run_get, found]
  rfl

theorem sheet_setCell (table : Table) (place : table.Place) (cell : Cell) :
    (table.setCell place cell).sheet = { table.sheet with
      rows := table.sheet.rows.modify place.1 (·.setIfInBounds place.2 cell) } := by
  have rows_eq : (table.setCell place cell).sheet.rows =
      table.sheet.rows.modify place.1 (·.setIfInBounds place.2 cell) := by
    refine Array.ext_getElem? fun row => ?_
    rw [Array.getElem?_modify, getElem?_rows_sheet, getElem?_rows_sheet]
    change (table.rows.set place.1 (table.rows[place.1].set place.2 cell))[row]?.map Vector.toArray =
      _
    rw [Vector.getElem?_set]
    by_cases same : place.1.val = row
    · subst same
      simp [Array.setIfInBounds]
    · simp [same]
  exact congrArg (Sheet.mk table.inputs table.outputs) rows_eq

theorem write_run (table : Table) (place : table.Place) (cell : Cell) :
    (SheetM.write place.1 place.2 cell).run table.sheet =
      .ok () (table.setCell place cell).sheet := by
  unfold SheetM.write
  rw [EStateM.run_bind, read_run, sheet_setCell]
  rfl

theorem value_run (table : Table) (pattern output : String) :
    (SheetM.value pattern output).run table.sheet =
      table.answers ((table.value pattern output).map (·, table)) := by
  unfold SheetM.value Table.value
  rw [EStateM.run_bind, locate_run]
  cases table.place pattern output with
  | error error => rfl
  | ok place => exact table.read_run place

theorem set_run (table : Table) (pattern output : String) (cell : Cell) :
    (SheetM.set pattern output cell).run table.sheet =
      table.answers ((table.set pattern output cell).map ((), ·)) := by
  unfold SheetM.set Table.set
  rw [EStateM.run_bind, locate_run]
  cases table.place pattern output with
  | error error => rfl
  | ok place => exact table.write_run place cell

theorem cycle_run (table : Table) (pattern output : String) :
    (SheetM.cycle pattern output).run table.sheet =
      table.answers (table.cycle pattern output) := by
  unfold SheetM.cycle Table.cycle
  rw [EStateM.run_bind, locate_run]
  cases table.place pattern output with
  | error error => rfl
  | ok place =>
      have written := table.write_run place (table.cell place).next
      have read_again := (table.setCell place (table.cell place).next).read_run place
      rw [cell_setCell, if_pos rfl] at read_again
      change (SheetM.read place.1 place.2 >>= fun cell => _).run table.sheet = _
      rw [EStateM.run_bind, read_run]
      change (SheetM.write place.1 place.2 _ >>= fun _ => _).run table.sheet = _
      rw [EStateM.run_bind, written]
      exact read_again

theorem sheet_inverted (table : Table) :
    table.inverted.sheet = { table.sheet with
      rows := table.sheet.rows.map (·.map Cell.invert) } := by
  simp [sheet, inverted]

/-- A call answers what the editing step gives. -/
theorem call_run (table : Table) (edit : Edit) :
    (SheetM.call edit).run table.sheet = table.answers ((table.edit edit).map ((), ·)) := by
  cases edit with
  | set pattern output cell => exact table.set_run pattern output cell
  | cycle pattern output =>
      have cycled := table.cycle_run pattern output
      change (SheetM.cycle pattern output >>= fun _ => pure ()).run table.sheet = _
      rw [EStateM.run_bind, cycled, Table.edit]
      cases table.cycle pattern output <;> rfl
  | invert =>
      change EStateM.Result.ok () _ = EStateM.Result.ok () _
      rw [sheet_inverted]

/-- A call that fails is refused, and leaves the sheet as it was. -/
theorem of_call_run_eq_error {edit : Edit} {fault : Sheet.Fault} {left : Sheet}
    (failed : (SheetM.call edit).run table.sheet = .error fault left) :
    left = table.sheet ∧ fault ≠ .outOfRange := by
  rw [call_run] at failed
  cases edit_eq : table.edit edit with
  | ok next =>
      rw [edit_eq] at failed
      cases failed
  | error error =>
      rw [edit_eq] at failed
      cases failed
      exact ⟨rfl, nofun⟩

end Table

end Switching
