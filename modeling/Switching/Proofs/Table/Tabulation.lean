import Switching.Proofs.Expr.Names
import Switching.Proofs.Table.Patterns
import Switching.Table.Tabulate

/-!
# Tabulated expressions

An expression can be tabulated exactly if it does not have too many variables.
Its table has the variables as inputs, in ascending order, and every cell holds
the value of the expression in its row.
-/

namespace Switching

/-! ## Stages -/

/-- A stage with a continuation succeeds where both do. -/
theorem bind_eq_ok_iff {ε α β : Type} {stage : Except ε α} {next : α → Except ε β} {result : β} :
    stage >>= next = .ok result ↔ ∃ value, stage = .ok value ∧ next value = .ok result := by
  cases stage <;> simp [bind, Except.bind]

theorem mapError_eq_ok_iff {ε ε' α : Type} {stage : Except ε α} {change : ε → ε'} {result : α} :
    stage.mapError change = .ok result ↔ stage = .ok result := by
  cases stage with
  | error error => exact ⟨nofun, nofun⟩
  | ok value => exact ⟨fun | rfl => rfl, fun | rfl => rfl⟩

namespace Table

/-! ## Blank tables -/

theorem firstRepeated?_eq_none {names seen : List String} (nodup : names.Nodup)
    (fresh : ∀ name ∈ names, name ∉ seen) : firstRepeated? seen names = none := by
  induction names generalizing seen with
  | nil => rfl
  | cons name rest ih =>
      rw [List.nodup_cons] at nodup
      rw [List.forall_mem_cons] at fresh
      rw [firstRepeated?, if_neg fresh.1]
      refine ih nodup.2 fun other mem seenMem => ?_
      rcases List.mem_cons.mp seenMem with rfl | earlier
      · exact nodup.1 mem
      · exact fresh.2 other mem earlier

/-- A blank table has the given names. -/
theorem names_blank {inputs outputs : List String} {table : Table}
    (ok : blank inputs outputs = .ok table) : table.inputs = inputs ∧ table.outputs = outputs := by
  unfold blank at ok
  split at ok
  · split at ok
    · split at ok
      · cases ok
      · split at ok
        · cases ok
        · cases ok
          exact ⟨rfl, rfl⟩
    · cases ok
  · cases ok

/-- Different names that are not too many give a blank table. -/
theorem exists_blank {inputs outputs : List String} (inputs_nodup : inputs.Nodup)
    (outputs_nodup : outputs.Nodup) (inputs_le : inputs.length ≤ Row.maxInputs)
    (outputs_le : outputs.length ≤ maxOutputs) :
    ∃ table, blank inputs outputs = .ok table ∧ table.inputs = inputs ∧
      table.outputs = outputs := by
  have inputs_new : firstRepeated? [] inputs = none :=
    firstRepeated?_eq_none inputs_nodup (by simp)
  have outputs_new : firstRepeated? [] outputs = none :=
    firstRepeated?_eq_none outputs_nodup (by simp)
  unfold blank
  rw [dif_pos inputs_le, dif_pos outputs_le]
  split
  · rename_i repeated
    rw [inputs_new] at repeated
    cases repeated
  · split
    · rename_i repeated
      rw [outputs_new] at repeated
      cases repeated
    · exact ⟨_, rfl, rfl, rfl⟩

/-- Filling a column changes the cells of that column and no others. -/
theorem cell_fillColumn (table : Table) (column : Fin table.outputCount) (cells : Array Cell)
    (place : table.Place) :
    (table.fillColumn column cells).cell place =
      if place.2 = column then cells[place.1.val]?.getD (table.cell place)
      else table.cell place := by
  obtain ⟨row, other⟩ := place
  unfold fillColumn Table.cell
  dsimp only [Fin.getElem_fin]
  rw [Vector.getElem_mapIdx]
  cases found : cells[row.val]? with
  | none => simp
  | some cell =>
      by_cases same : other = column
      · subst same
        simp
      · have differ : column.val ≠ other.val := fun equal => same (Fin.ext equal.symm)
        simp [same, differ]

/-! ## Tables of expressions -/

/-- The error of a tabulation is that there are too many variables. -/
theorem ofExpr_eq_error {expr : Expr} {output : String}
    (tooMany : Row.maxInputs < expr.vars.length) :
    ofExpr expr output = .error (.tooManyVariables expr.vars.length Row.maxInputs) := by
  have length_eq : expr.sortedVars.length = expr.vars.length := length_sortNames _
  rw [ofExpr, blank, dif_neg (by omega), length_eq]
  rfl

/-- Over the inputs of a table that has all its variables, an expression has a
value in every row. -/
theorem mapM_evaluate_rows {table : Table} {expr : Expr}
    (listed : ∀ name ∈ expr.occurrences, name ∈ table.inputs) :
    ((Array.range table.rowCount).mapM fun index =>
        (expr.evaluate (Row.assignment table.inputs index)).mapError TableError.evaluation) =
      .ok ((Array.range table.rowCount).map fun index =>
        expr.denote (Row.assignment table.inputs index).valuation) := by
  have values_eq : (fun index => (expr.evaluate (Row.assignment table.inputs index)).mapError
      TableError.evaluation) =
      fun index => pure (expr.denote (Row.assignment table.inputs index).valuation) := by
    funext index
    have assigned : (Row.assignment table.inputs index).Assigns expr.occurrences := fun name mem =>
      Row.assigns_assignment table.inputs_nodup index name (listed name mem)
    rw [Expr.evaluate_eq_ok assigned]
    rfl
  rw [values_eq, Array.mapM_pure]
  rfl

/-- An expression without too many variables has a table. -/
theorem exists_ofExpr {expr : Expr} (output : String)
    (fits : expr.vars.length ≤ Row.maxInputs) :
    ∃ table, ofExpr expr output = .ok table ∧ table.inputs = expr.sortedVars ∧
      table.outputs = [output] ∧ ∀ place : table.Place, table.cell place =
        Cell.ofBool (expr.denote (Row.assignment table.inputs place.1).valuation) := by
  have inputs_le : expr.sortedVars.length ≤ Row.maxInputs := by
    rw [Expr.sortedVars, length_sortNames]
    exact fits
  have output_le : [output].length ≤ maxOutputs := Nat.le_of_lt (by decide : 1 < 64)
  obtain ⟨table, blank_eq, inputs_eq, outputs_eq⟩ :=
    exists_blank expr.nodup_sortedVars (List.pairwise_singleton _ output) inputs_le output_le
  have outputMem : output ∈ table.outputs := outputs_eq ▸ List.mem_singleton_self output
  obtain ⟨column, index_eq⟩ := exists_outputIndex outputMem
  have listed : ∀ name ∈ expr.occurrences, name ∈ table.inputs := fun name mem =>
    inputs_eq ▸ Expr.mem_sortedVars.mpr mem
  have tabulate : ofExpr expr output = .ok (table.fillColumn column
      (((Array.range table.rowCount).map fun index =>
        expr.denote (Row.assignment table.inputs index).valuation).map Cell.ofBool)) := by
    rw [ofExpr, blank_eq]
    change (table.outputIndex output >>= fun column => _ >>= fun values => _) = _
    rw [index_eq]
    change (_ >>= fun values => _) = _
    rw [mapM_evaluate_rows listed]
    rfl
  have onlyColumn : ∀ other : Fin table.outputCount, other = column := by
    intro other
    have single : table.outputs.length = 1 := outputs_eq ▸ rfl
    have otherBound : other.val < table.outputs.length := other.isLt
    have bound : column.val < table.outputs.length := column.isLt
    exact Fin.ext (by omega)
  refine ⟨_, tabulate, inputs_eq, outputs_eq, fun place => ?_⟩
  refine (cell_fillColumn table column _ place).trans ?_
  rw [if_pos (onlyColumn place.2)]
  have bound : place.1.val < table.rowCount := place.1.isLt
  simp only [Array.getElem?_map, Array.getElem?_range, bound, if_true, Option.map_some,
    Option.getD_some]
  rfl

/-- What every tabulated expression satisfies. -/
theorem spec_of_ofExpr {expr : Expr} {output : String} {table : Table}
    (tabulated : ofExpr expr output = .ok table) :
    table.inputs = expr.sortedVars ∧ table.outputs = [output] ∧
      ∀ place : table.Place, table.cell place =
        Cell.ofBool (expr.denote (Row.assignment table.inputs place.1).valuation) := by
  rcases Nat.lt_or_ge Row.maxInputs expr.vars.length with tooMany | fits
  · cases (ofExpr_eq_error tooMany).symm.trans tabulated
  · obtain ⟨found, found_eq, spec⟩ := exists_ofExpr output fits
    obtain rfl : found = table := Except.ok.inj (found_eq.symm.trans tabulated)
    exact spec

/-- An expression has a table exactly if it does not have too many variables. -/
theorem exists_ofExpr_iff {expr : Expr} {output : String} :
    (∃ table, ofExpr expr output = .ok table) ↔ expr.vars.length ≤ Row.maxInputs := by
  constructor
  · rintro ⟨table, tabulated⟩
    refine Nat.le_of_not_lt fun tooMany => ?_
    cases (ofExpr_eq_error tooMany).symm.trans tabulated
  · intro fits
    obtain ⟨table, tabulated, -⟩ := exists_ofExpr output fits
    exact ⟨table, tabulated⟩

/-- For every pattern, the cell of a tabulated expression is the value of the
expression where the inputs are assigned the digits of the pattern. -/
theorem exists_value_of_ofExpr {expr : Expr} {output : String} {table : Table}
    (tabulated : ofExpr expr output = .ok table) {pattern : String}
    (isPattern : Row.IsPattern table.inputs.length pattern) :
    ∃ assignment value, Row.assignmentOfPattern pattern table.inputs = .ok assignment ∧
      table.inputs.map assignment.value? = pattern.toList.map (fun c => some (c == '1')) ∧
      expr.evaluate assignment = .ok value ∧
      table.value pattern output = .ok (Cell.ofBool value) := by
  obtain ⟨inputs_eq, outputs_eq, cells⟩ := spec_of_ofExpr tabulated
  obtain ⟨row, rfl⟩ := (Row.isPattern_iff table.width_le).mp isPattern
  obtain ⟨column, column_eq⟩ := exists_outputIndex (outputs_eq ▸ List.mem_singleton_self output)
  have assigned : (Row.assignment table.inputs row).Assigns expr.occurrences := fun name occurs =>
    Row.assigns_assignment table.inputs_nodup row name (inputs_eq ▸ Expr.mem_sortedVars.mpr occurs)
  refine ⟨_, _, Row.assignmentOfPattern_pattern table.width_le row,
    Row.map_value?_assignment table.inputs_nodup row, Expr.evaluate_eq_ok assigned, ?_⟩
  rw [value_pattern column_eq, cells]

/-- The expression `¬b・a`, whose variables occur in descending order. -/
def descendingProduct : Expr :=
  .and (.not (.var "b")) (.var "a")

/-- A sum of eleven variables. -/
def crowdedSum : Expr :=
  .chainD .or false (["a", "b", "c", "d", "e", "f", "g", "h", "i", "j", "k"].map .var)

end Table

end Switching
