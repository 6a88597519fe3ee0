import Mathlib.Data.Nat.Basic
import Switching.Pla.Reader

/-!
# Merged statements

Statements on the cells of a table are entered on a sheet one after the other.
What the sheet knows of a cell in the end depends only on which values were
stated for it, not on the order: on and off stand against each other, and both
outrank free.  Entering fails exactly if some cell was stated both on and off.
-/

namespace Switching.Pla

/-! ## Cells -/

/-- What is known of a cell agrees with the values that were stated for it. -/
structure Agrees (known : Option Cell) (stated : Cell → Prop) : Prop where
  on : known = some .on ↔ stated .on
  off : known = some .off ↔ stated .off
  free : known = some .free ↔ stated .free ∧ ¬ stated .on ∧ ¬ stated .off

variable {known : Option Cell} {stated : Cell → Prop} {said : Cell}

theorem agrees_none : Agrees none fun _ => False := by
  constructor <;> simp

theorem Agrees.congr {other : Cell → Prop} (agrees : Agrees known stated)
    (same : ∀ cell, stated cell ↔ other cell) : Agrees known other := by
  obtain rfl : stated = other := funext fun cell => propext (same cell)
  exact agrees

theorem Agrees.not_both (agrees : Agrees known stated) : ¬ (stated .on ∧ stated .off) := by
  rintro ⟨on, off⟩
  cases (agrees.on.mpr on).symm.trans (agrees.off.mpr off)

/-- The cell that is known, and off where nothing is. -/
theorem Agrees.getD_eq_on_iff (agrees : Agrees known stated) :
    known.getD .off = .on ↔ stated .on := by
  obtain ⟨on, off, free⟩ := agrees
  rcases known with _ | _ | _ | _ <;> grind

theorem Agrees.getD_eq_free_iff (agrees : Agrees known stated) :
    known.getD .off = .free ↔ stated .free ∧ ¬ stated .on ∧ ¬ stated .off := by
  obtain ⟨on, off, free⟩ := agrees
  rcases known with _ | _ | _ | _ <;> grind

theorem Agrees.getD_eq_off_iff (agrees : Agrees known stated) :
    known.getD .off = .off ↔ ¬ stated .on ∧ (stated .off ∨ ¬ stated .free) := by
  obtain ⟨on, off, free⟩ := agrees
  rcases known with _ | _ | _ | _ <;> grind

/-- A merged cell agrees with the new statement as well. -/
theorem Agrees.merge (agrees : Agrees known stated) {merged : Cell}
    (merges : mergeCell? known said = some merged) :
    Agrees (some merged) fun cell => stated cell ∨ cell = said := by
  obtain ⟨on, off, free⟩ := agrees
  rcases known with _ | _ | _ | _ <;> cases said <;> cases merges <;> constructor <;> grind

/-- Merging fails only if on meets off. -/
theorem Agrees.conflict (agrees : Agrees known stated) (merges : mergeCell? known said = none) :
    (stated .on ∨ .on = said) ∧ (stated .off ∨ .off = said) := by
  obtain ⟨on, off, free⟩ := agrees
  rcases known with _ | _ | _ | _ <;> cases said <;> cases merges <;> grind

/-! ## Sheets -/

/-- A statement is on a cell of a table. -/
def Statement.IsInside (statement : Statement) (table : Table) : Prop :=
  statement.row < table.rowCount ∧ statement.column < table.outputCount

theorem Statement.IsInside.exists_place {statement : Statement} {table : Table}
    (inside : statement.IsInside table) :
    ∃ (place : table.Place) (cell : Cell), statement = ⟨place.1, place.2, cell⟩ :=
  ⟨(⟨statement.row, inside.1⟩, ⟨statement.column, inside.2⟩), statement.cell, rfl⟩

/-- What some statements say about the cell at a place. -/
def StatedIn (statements : List Statement) {table : Table} (place : table.Place) (cell : Cell) :
    Prop :=
  ⟨place.1, place.2, cell⟩ ∈ statements

/-- Some statements say both on and off about the cell at a place. -/
def Conflicting (statements : List Statement) {table : Table} (place : table.Place) : Prop :=
  StatedIn statements place .on ∧ StatedIn statements place .off

theorem Conflicting.mono {statements more : List Statement} {table : Table}
    {place : table.Place} (conflicting : Conflicting statements place)
    (subset : statements ⊆ more) : Conflicting more place :=
  ⟨subset conflicting.1, subset conflicting.2⟩

namespace Sheet

variable {table : Table} {sheet next final : Sheet table} {done statements : List Statement}
  {statement : Statement} {error : FormatError}

/-- What a sheet knows of the cell at a place. -/
def knownAt (sheet : Sheet table) (place : table.Place) : Option Cell :=
  sheet[place.1][place.2]

/-- A sheet agrees with statements if it does so at every place. -/
def Reflects (sheet : Sheet table) (statements : List Statement) : Prop :=
  ∀ place : table.Place, Agrees (sheet.knownAt place) (StatedIn statements place)

/-- The error of a conflict at a place. -/
def conflictAt (place : table.Place) : FormatError :=
  .conflictingValue (Row.pattern table.inputs.length place.1) (table.outputs.get place.2)

theorem reflects_empty (table : Table) : (Sheet.empty table).Reflects [] := by
  intro place
  have unknown : (Sheet.empty table).knownAt place = none := by
    simp [knownAt, Sheet.empty]
  rw [unknown]
  exact agrees_none.congr fun cell => by simp [StatedIn]

/-- Writing into a sheet changes the cell at that place and no other. -/
theorem knownAt_set (sheet : Sheet table) (place other : table.Place) (cell : Cell) :
    knownAt (Vector.set sheet place.1 (sheet[place.1].set place.2 (some cell))) other =
      if other = place then some cell else sheet.knownAt other := by
  obtain ⟨row, column⟩ := place
  obtain ⟨otherRow, otherColumn⟩ := other
  unfold knownAt
  dsimp only [Fin.getElem_fin]
  by_cases sameRow : otherRow = row
  · subst sameRow
    by_cases sameColumn : otherColumn = column
    · subst sameColumn
      simp
    · have differ : column.val ≠ otherColumn.val := fun same => sameColumn (Fin.ext same.symm)
      simp [sameColumn, differ]
  · have differ : row.val ≠ otherRow.val := fun same => sameRow (Fin.ext same.symm)
    simp [sameRow, differ]

/-- A statement on a cell of the table is merged with what is known of it. -/
theorem enter_at (sheet : Sheet table) (place : table.Place) (cell : Cell) :
    sheet.enter ⟨place.1, place.2, cell⟩ =
      match mergeCell? (sheet.knownAt place) cell with
      | some merged =>
          .ok (Vector.set sheet place.1 (sheet[place.1].set place.2 (some merged)))
      | none => .error (conflictAt place) := by
  rw [enter, dif_pos place.1.isLt, dif_pos place.2.isLt]
  rfl

/-- A statement on a cell of the table that is entered is reflected together with
the earlier ones. -/
theorem Reflects.enter (reflects : sheet.Reflects done) (inside : statement.IsInside table)
    (entered : sheet.enter statement = .ok next) : next.Reflects (done ++ [statement]) := by
  obtain ⟨place, cell, rfl⟩ := inside.exists_place
  intro other
  rw [enter_at] at entered
  split at entered
  · rename_i merged merges
    cases entered
    rw [knownAt_set]
    by_cases same : other = place
    · subst same
      rw [if_pos rfl]
      exact ((reflects other).merge merges).congr fun cell => by simp [StatedIn]
    · rw [if_neg same]
      refine (reflects other).congr fun cell => ?_
      have elsewhere : ¬ (other.1.val = place.1.val ∧ other.2.val = place.2.val) := fun both =>
        same (Prod.ext (Fin.ext both.1) (Fin.ext both.2))
      simp only [StatedIn, List.mem_append, List.mem_singleton, Statement.mk.injEq]
      grind
  · cases entered

/-- A statement on a cell of the table that cannot be entered conflicts with the
earlier ones. -/
theorem Reflects.conflict (reflects : sheet.Reflects done) (inside : statement.IsInside table)
    (failed : sheet.enter statement = .error error) :
    ∃ place : table.Place, Conflicting (done ++ [statement]) place ∧ error = conflictAt place := by
  obtain ⟨place, cell, rfl⟩ := inside.exists_place
  rw [enter_at] at failed
  split at failed
  · cases failed
  · rename_i merges
    cases failed
    refine ⟨place, ?_, rfl⟩
    obtain ⟨on, off⟩ := (reflects place).conflict merges
    simp only [Conflicting, StatedIn, List.mem_append, List.mem_singleton, Statement.mk.injEq,
      true_and]
    exact ⟨on, off⟩

/-- Entering several statements on cells of the table gives a sheet that reflects
them all, or fails at a conflict between them. -/
theorem Reflects.foldlM (reflects : sheet.Reflects done)
    (inside : ∀ statement ∈ statements, statement.IsInside table) :
    match statements.foldlM Sheet.enter sheet with
    | .ok final => final.Reflects (done ++ statements)
    | .error error =>
        ∃ place : table.Place,
          Conflicting (done ++ statements) place ∧ error = conflictAt place := by
  induction statements generalizing sheet done with
  | nil =>
      change sheet.Reflects (done ++ [])
      rw [List.append_nil]
      exact reflects
  | cons statement rest ih =>
      rw [List.forall_mem_cons] at inside
      rw [List.foldlM_cons, List.append_cons]
      cases entered : sheet.enter statement with
      | ok next => exact ih (reflects.enter inside.1 entered) inside.2
      | error error =>
          obtain ⟨place, conflicting, error_eq⟩ := reflects.conflict inside.1 entered
          exact ⟨place, conflicting.mono (List.subset_append_left _ _), error_eq⟩

/-- The cells of the table of a sheet. -/
theorem cell_toTable (sheet : Sheet table) (place : table.Place) :
    sheet.toTable.cell place = (sheet.knownAt place).getD .off := by
  unfold toTable Table.cell
  simp [knownAt]

/-- A sheet that reflects statements knows of no conflict between them. -/
theorem Reflects.not_conflicting (reflects : sheet.Reflects statements) (place : table.Place) :
    ¬ Conflicting statements place :=
  (reflects place).not_both

end Sheet

end Switching.Pla
