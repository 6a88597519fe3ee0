import Switching.Proofs.Table.Sheets

/-!
# Edited tables

A table is a map from keys to cells, where a key is a pattern of the inputs and the
name of an output.  An editing step succeeds exactly if it names a key, and then it
changes the cell of that key alone; only an inversion changes all cells.  So after any
sequence of steps, the cell of a key is what the steps that concern the key have made
of it, and the steps that failed have left no trace.  Steps that are carried out in
place, on the sheet of the table, come to the same.
-/

namespace Switching.Table

variable {table : Table} {pattern output : String} {edit : Edit}

/-! ## Keys -/

/-- The keys of a table: a pattern of its inputs and the name of an output. -/
def IsKey (table : Table) (pattern output : String) : Prop :=
  Row.IsPattern table.inputs.length pattern ∧ output ∈ table.outputs

/-- A key stands for the place with its pattern and its output. -/
theorem place_eq_ok_iff {place : table.Place} :
    table.place pattern output = .ok place ↔
      Row.pattern table.inputs.length place.1 = pattern ∧ table.outputs.get place.2 = output := by
  rw [← Row.index_eq_ok_iff table.width_le, ← outputIndex_eq_ok_iff]
  unfold Table.place
  cases Row.index pattern table.inputs.length with
  | error error => simp [bind, Except.bind]
  | ok row =>
      cases table.outputIndex output with
      | error error => simp [bind, Except.bind]
      | ok column => simp [bind, Except.bind, pure, Except.pure, Prod.ext_iff]

/-- A pattern and a name stand for a place exactly if they are a key. -/
theorem exists_place_iff :
    (∃ place, table.place pattern output = .ok place) ↔ table.IsKey pattern output := by
  simp only [place_eq_ok_iff, IsKey, Row.isPattern_iff table.width_le]
  constructor
  · rintro ⟨place, pattern_eq, output_eq⟩
    exact ⟨⟨place.1, pattern_eq⟩, output_eq ▸ List.get_mem _ _⟩
  · rintro ⟨⟨row, pattern_eq⟩, mem⟩
    obtain ⟨column, output_eq⟩ := List.get_of_mem mem
    exact ⟨(row, column), pattern_eq, output_eq⟩

theorem place_eq (table : Table) (pattern output : String) :
    table.place pattern output = do
      let row ← Row.index pattern table.inputs.length
      let column ← (table.outputs.finIdxOf? output).elim
        (.error (.unknownOutput output)) Except.ok
      return (row, column) := by
  unfold Table.place outputIndex
  cases table.outputs.finIdxOf? output <;> rfl

/-- Places depend on the names alone. -/
theorem place_setCell (table : Table) (place : table.Place) (cell : Cell)
    (pattern output : String) :
    (table.setCell place cell).place pattern output = table.place pattern output := by
  rw [place_eq, place_eq]
  rfl

theorem place_inverted (table : Table) (pattern output : String) :
    table.inverted.place pattern output = table.place pattern output := by
  rw [place_eq, place_eq]
  rfl

theorem value_eq (table : Table) (pattern output : String) :
    table.value pattern output = (table.place pattern output).map table.cell := by
  unfold value
  cases table.place pattern output <;> rfl

/-- The keys of a table are what it has values for. -/
theorem exists_value_iff :
    (∃ cell, table.value pattern output = .ok cell) ↔ table.IsKey pattern output := by
  rw [← exists_place_iff, value_eq]
  cases table.place pattern output with
  | error error => simp [Except.map]
  | ok place => simp [Except.map]

/-! ## Single steps -/

/-- Replacing the cell of a key changes the value of that key alone. -/
theorem value_setCell {place : table.Place} (place_eq : table.place pattern output = .ok place)
    (cell : Cell) (other name : String) :
    (table.setCell place cell).value other name =
      if other = pattern ∧ name = output then .ok cell else table.value other name := by
  rw [value_eq, value_eq, place_setCell]
  split
  · rename_i same
    obtain ⟨rfl, rfl⟩ := same
    rw [place_eq]
    exact congrArg Except.ok ((table.cell_setCell place place cell).trans (if_pos rfl))
  · rename_i differ
    cases other_eq : table.place other name with
    | error error => rfl
    | ok found =>
        have found_ne : found ≠ place := by
          rintro rfl
          obtain ⟨pattern_eq, output_eq⟩ := place_eq_ok_iff.mp place_eq
          obtain ⟨other_pattern_eq, other_output_eq⟩ := place_eq_ok_iff.mp other_eq
          exact differ ⟨other_pattern_eq.symm.trans pattern_eq,
            other_output_eq.symm.trans output_eq⟩
        exact congrArg Except.ok ((table.cell_setCell place found cell).trans (if_neg found_ne))

theorem value_inverted (table : Table) (pattern output : String) :
    table.inverted.value pattern output = (table.value pattern output).map Cell.invert := by
  rw [value_eq, value_eq, place_inverted]
  cases table.place pattern output with
  | error error => rfl
  | ok place => exact congrArg Except.ok (table.cell_inverted place)

/-- The key that an editing step names.  An inversion names none. -/
def Edit.key? : Edit → Option (String × String)
  | .set pattern output _ => some (pattern, output)
  | .cycle pattern output => some (pattern, output)
  | .invert => none

/-- What an editing step makes of a cell. -/
def Edit.effect : Edit → Cell → Cell
  | .set _ _ chosen, _ => chosen
  | .cycle _ _, cell => cell.next
  | .invert, cell => cell.invert

/-- An editing step concerns the key that it names; an inversion concerns all. -/
def Edit.concerns (pattern output : String) (edit : Edit) : Bool :=
  edit.key?.all (· = (pattern, output))

/-- What an editing step can do. -/
theorem edit_cases (table : Table) (edit : Edit) :
    (edit = .invert ∧ table.edit edit = .ok table.inverted) ∨
      ∃ pattern output, edit.key? = some (pattern, output) ∧
        ((¬ table.IsKey pattern output ∧ ∃ error, table.edit edit = .error error) ∨
          ∃ place, table.place pattern output = .ok place ∧
            table.edit edit = .ok (table.setCell place (edit.effect (table.cell place)))) := by
  have keyed (pattern output : String) (key_eq : edit.key? = some (pattern, output))
      (edit_eq : table.edit edit = (table.place pattern output).map fun place =>
        table.setCell place (edit.effect (table.cell place))) :
      (¬ table.IsKey pattern output ∧ ∃ error, table.edit edit = .error error) ∨
        ∃ place, table.place pattern output = .ok place ∧
          table.edit edit = .ok (table.setCell place (edit.effect (table.cell place))) := by
    rw [edit_eq, ← exists_place_iff]
    cases table.place pattern output with
    | error error => exact .inl ⟨nofun, error, rfl⟩
    | ok place => exact .inr ⟨place, rfl, rfl⟩
  cases edit with
  | invert => exact .inl ⟨rfl, rfl⟩
  | set pattern output chosen =>
      refine .inr ⟨pattern, output, rfl, keyed pattern output rfl ?_⟩
      simp only [Table.edit, Table.set]
      cases table.place pattern output <;> rfl
  | cycle pattern output =>
      refine .inr ⟨pattern, output, rfl, keyed pattern output rfl ?_⟩
      simp only [Table.edit, Table.cycle]
      cases table.place pattern output <;> rfl

/-- A step fails exactly if it names something that is no key. -/
theorem exists_edit_eq_error_iff :
    (∃ error, table.edit edit = .error error) ↔
      ∃ pattern output, edit.key? = some (pattern, output) ∧ ¬ table.IsKey pattern output := by
  rcases table.edit_cases edit with ⟨rfl, edit_eq⟩ |
    ⟨pattern, output, key_eq, ⟨noKey, failed⟩ | ⟨place, place_eq, edit_eq⟩⟩
  · simp [edit_eq, Edit.key?]
  · exact iff_of_true failed ⟨pattern, output, key_eq, noKey⟩
  · have isKey : table.IsKey pattern output := exists_place_iff.mp ⟨place, place_eq⟩
    simp [edit_eq, key_eq, isKey]

/-! ## Sequences of steps -/

/-- The table after an editing step.  A step that fails leaves the table as it is. -/
def edited (table : Table) (edit : Edit) : Table :=
  match table.edit edit with
  | .ok next => next
  | .error _ => table

/-- The table after some editing steps. -/
def after (table : Table) (edits : List Edit) : Table :=
  edits.foldl edited table

/-- An editing step keeps the names. -/
theorem names_edited (table : Table) (edit : Edit) :
    (table.edited edit).inputs = table.inputs ∧ (table.edited edit).outputs = table.outputs := by
  unfold edited
  rcases table.edit_cases edit with ⟨-, edit_eq⟩ |
    ⟨pattern, output, -, ⟨-, error, edit_eq⟩ | ⟨place, -, edit_eq⟩⟩
  all_goals
    rw [edit_eq]
    exact ⟨rfl, rfl⟩

/-- An editing step has its effect on the cells of the keys that it concerns, and on
no others. -/
theorem value_edited (table : Table) (edit : Edit) (pattern output : String) :
    (table.edited edit).value pattern output = (table.value pattern output).map
      fun cell => if edit.concerns pattern output then edit.effect cell else cell := by
  unfold edited
  rcases table.edit_cases edit with ⟨rfl, edit_eq⟩ |
    ⟨other, name, key_eq, ⟨noKey, error, edit_eq⟩ | ⟨place, place_eq, edit_eq⟩⟩
  · rw [edit_eq]
    exact table.value_inverted pattern output
  · rw [edit_eq]
    cases value_eq : table.value pattern output with
    | error error => rfl
    | ok cell =>
        have isKey : table.IsKey pattern output := exists_value_iff.mp ⟨cell, value_eq⟩
        have unconcerned : edit.concerns pattern output = false := by
          simp only [Edit.concerns, key_eq, Option.all_some, decide_eq_false_iff_not]
          rintro ⟨⟩
          exact noKey isKey
        simp [unconcerned, Except.map]
  · rw [edit_eq]
    refine (value_setCell place_eq _ pattern output).trans ?_
    simp only [Edit.concerns, key_eq, Option.all_some, decide_eq_true_eq, Prod.mk.injEq,
      eq_comm (a := other), eq_comm (a := name)]
    split
    · rename_i same
      obtain ⟨rfl, rfl⟩ := same
      rw [value_eq, place_eq]
      rfl
    · cases table.value pattern output <;> rfl

theorem left_sheet (table : Table) (edit : Edit) :
    SheetM.left table.sheet edit = (table.edited edit).sheet := by
  unfold SheetM.left edited
  rw [call_run]
  cases table.edit edit <;> rfl

/-- In place, the steps make the sheet of the table after them. -/
theorem after_sheet (table : Table) (edits : List Edit) :
    SheetM.after table.sheet edits = (table.after edits).sheet := by
  induction edits generalizing table with
  | nil => rfl
  | cons edit rest ih =>
      change SheetM.after (SheetM.left table.sheet edit) rest = _
      rw [left_sheet]
      exact ih (table.edited edit)

theorem names_after (table : Table) (edits : List Edit) :
    (table.after edits).inputs = table.inputs ∧ (table.after edits).outputs = table.outputs := by
  induction edits generalizing table with
  | nil => exact ⟨rfl, rfl⟩
  | cons edit rest ih =>
      obtain ⟨inputs_eq, outputs_eq⟩ := table.names_edited edit
      exact (ih (table.edited edit)).imp (·.trans inputs_eq) (·.trans outputs_eq)

/-- The cell of a key is what the steps that concern the key have made of it. -/
theorem value_after (table : Table) (edits : List Edit) (pattern output : String) :
    (table.after edits).value pattern output = (table.value pattern output).map fun cell =>
      (edits.filter (·.concerns pattern output)).foldl (fun cell edit => edit.effect cell) cell := by
  induction edits generalizing table with
  | nil =>
      change table.value pattern output = _
      cases table.value pattern output <;> rfl
  | cons edit rest ih =>
      refine (ih (table.edited edit)).trans ?_
      rw [value_edited, List.filter_cons]
      cases table.value pattern output with
      | error error => rfl
      | ok cell => split <;> rfl

theorem isKey_after (table : Table) (edits : List Edit) (pattern output : String) :
    (table.after edits).IsKey pattern output ↔ table.IsKey pattern output := by
  obtain ⟨inputs_eq, outputs_eq⟩ := table.names_after edits
  rw [IsKey, IsKey, inputs_eq, outputs_eq]

/-- Setting a cell changes the value of its key alone. -/
theorem value_of_set_eq_ok {chosen : Cell} {next : Table}
    (set_eq : table.set pattern output chosen = .ok next) (other name : String) :
    next.value other name =
      if other = pattern ∧ name = output then .ok chosen else table.value other name := by
  unfold Table.set at set_eq
  cases place_eq : table.place pattern output with
  | error error =>
      rw [place_eq] at set_eq
      cases set_eq
  | ok place =>
      rw [place_eq] at set_eq
      cases set_eq
      exact value_setCell place_eq chosen other name

/-- Cycling a cell gives the next cell and changes the value of its key alone. -/
theorem value_of_cycle_eq_ok {cell : Cell} {next : Table}
    (cycle_eq : table.cycle pattern output = .ok (cell, next)) :
    (table.value pattern output).map Cell.next = .ok cell ∧ ∀ other name, next.value other name =
      if other = pattern ∧ name = output then .ok cell else table.value other name := by
  unfold Table.cycle at cycle_eq
  cases place_eq : table.place pattern output with
  | error error =>
      rw [place_eq] at cycle_eq
      cases cycle_eq
  | ok place =>
      rw [place_eq] at cycle_eq
      cases cycle_eq
      rw [value_eq, place_eq]
      exact ⟨rfl, value_setCell place_eq _⟩

/-- A table has a row for every pattern and in every row a cell for every output. -/
theorem row?_cases (table : Table) (index : Nat) :
    ((table.row? index).isSome ↔ index < 2 ^ table.inputs.length) ∧
      ∀ cells, table.row? index = some cells → cells.length = table.outputs.length := by
  rw [← Row.count_eq_two_pow]
  unfold row?
  cases found : table.rows[index]? with
  | none =>
      have beyond := Vector.getElem?_eq_none_iff.mp found
      exact ⟨⟨nofun, fun bound => absurd bound (Nat.not_lt.mpr beyond)⟩, nofun⟩
  | some row =>
      obtain ⟨bound, -⟩ := Vector.getElem?_eq_some_iff.mp found
      refine ⟨iff_of_true rfl bound, ?_⟩
      rintro cells ⟨⟩
      exact row.length_toList

end Switching.Table
