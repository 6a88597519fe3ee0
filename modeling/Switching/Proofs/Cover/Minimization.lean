import Switching.Proofs.Cover.Selection
import Switching.Proofs.Cover.TwoLevelForm
import Switching.Proofs.Table.Patterns

/-!
# Minimization of tables

The cubes that are selected for an output contain every row in which it is on
and no row in which it is off, whatever the limit on products was.  So the
minimized expressions have the values of the table wherever it has one.  For a
table with one output, no list of cubes that fits the table is cheaper than the
selected one, as long as the limit was not in the way.
-/

namespace Switching

namespace Table

/-! ## Terms and targets -/

private theorem getLsbD_foldl_or (columns : List (Cell × Nat)) {output : Nat} :
    ∀ start : OutputSet,
      (columns.foldl (fun outputs (_, column) => outputs ||| BitVec.twoPow 64 column)
        start).getLsbD output = true ↔
        start.getLsbD output = true ∨ output < 64 ∧ ∃ cell, (cell, output) ∈ columns := by
  induction columns with
  | nil => simp
  | cons first rest ih =>
      intro start
      obtain ⟨cell, column⟩ := first
      rw [List.foldl_cons, ih]
      by_cases here : column = output
      · subst here
        simp [BitVec.getLsbD_twoPow]
        grind
      · simp [BitVec.getLsbD_twoPow, here, Ne.symm here]

/-- The outputs that a list of cells admits. -/
theorem getLsbD_admittedOutputs {cells : List Cell} (fits : cells.length ≤ 64) {output : Nat} :
    (admittedOutputs cells).getLsbD output = true ↔
      ∃ cell, cells[output]? = some cell ∧ cell.mayBeOn = true := by
  have found : ∀ cell, (cell, output) ∈ cells.zipIdx.filter (fun (cell, _) => cell.mayBeOn) ↔
      cells[output]? = some cell ∧ cell.mayBeOn = true := by
    intro cell
    rw [List.mem_filter, List.mem_zipIdx_iff_getElem?]
  rw [admittedOutputs, getLsbD_foldl_or]
  constructor
  · rintro (none | ⟨-, cell, mem⟩)
    · simp at none
    · exact ⟨cell, (found cell).mp mem⟩
  · rintro ⟨cell, at_output, mayBeOn⟩
    obtain ⟨bound, -⟩ := List.getElem?_eq_some_iff.mp at_output
    exact .inr ⟨by omega, cell, (found cell).mpr ⟨at_output, mayBeOn⟩⟩

variable (table : Table)

/-- The bits of a row. -/
def rowBits (row : Fin table.rowCount) : List Bool :=
  Row.bits table.inputs.length row.val

/-- The full cube of a row. -/
def rowCube (row : Fin table.rowCount) : Cube :=
  Cube.full (table.rowBits row)

@[simp]
theorem length_rowBits (row : Fin table.rowCount) :
    (table.rowBits row).length = table.inputs.length :=
  Row.length_bits _ _

variable {table}

/-- Different rows have different bits. -/
theorem rowBits_injective {first second : Fin table.rowCount}
    (same : table.rowBits first = table.rowBits second) : first = second :=
  Fin.ext (Row.eq_of_bits_eq table.width_le first.isLt second.isLt same)

/-- The cells of the rows, one row after the other. -/
theorem mem_cubeRows {entry : Cube × List Cell} :
    entry ∈ table.cubeRows ↔
      ∃ row : Fin table.rowCount, entry = (table.rowCube row, table.rows[row].toList) := by
  simp only [cubeRows, List.mem_map, Prod.exists, List.mem_zipIdx_iff_getElem?]
  constructor
  · rintro ⟨cells, index, found, rfl⟩
    obtain ⟨bound, rfl⟩ := List.getElem?_eq_some_iff.mp found
    exact ⟨⟨index, by simpa using bound⟩, rfl⟩
  · rintro ⟨row, rfl⟩
    exact ⟨table.rows[row], row.val, by simp, rfl⟩

/-- The cell in a column of a row. -/
theorem getElem?_toList_eq_some {row : Fin table.rowCount} {column : Nat} {cell : Cell} :
    (table.rows[row].toList)[column]? = some cell ↔
      ∃ place : table.Place, place.1 = row ∧ place.2.val = column ∧ table.cell place = cell := by
  rw [List.getElem?_eq_some_iff]
  constructor
  · rintro ⟨bound, rfl⟩
    exact ⟨(row, ⟨column, by simpa using bound⟩), rfl, rfl, by simp [Table.cell]⟩
  · rintro ⟨⟨_, column⟩, rfl, rfl, rfl⟩
    exact ⟨by simp, by simp [Table.cell]⟩

/-- The terms of a table have no open places. -/
theorem openCount_of_mem_terms {term : Term} (mem : term ∈ table.terms) :
    term.cube.openCount = 0 := by
  obtain ⟨⟨cube, cells⟩, listed, rfl⟩ := List.mem_map.mp (List.mem_filter.mp mem).1
  obtain ⟨row, entry_eq⟩ := mem_cubeRows.mp listed
  cases entry_eq
  exact Cube.openCount_full _

/-- The terms of a table admit the rows in which an output is on or free. -/
theorem admits_terms {output : Nat} {bits : List Bool} :
    Term.Admits table.terms output bits ↔
      ∃ place : table.Place, place.2.val = output ∧ table.rowBits place.1 = bits ∧
        (table.cell place).mayBeOn = true := by
  have fits : ∀ row : Fin table.rowCount, (table.rows[row].toList).length ≤ 64 := by
    intro row
    rw [Vector.length_toList]
    exact table.outputs_le
  constructor
  · rintro ⟨term, mem, cube_eq, admitted⟩
    obtain ⟨⟨cube, cells⟩, listed, rfl⟩ := List.mem_map.mp (List.mem_filter.mp mem).1
    obtain ⟨row, entry_eq⟩ := mem_cubeRows.mp listed
    cases entry_eq
    obtain ⟨cell, found, mayBeOn⟩ := (getLsbD_admittedOutputs (fits row)).mp admitted
    obtain ⟨place, rfl, place_eq, rfl⟩ := getElem?_toList_eq_some.mp found
    exact ⟨place, place_eq, Cube.covers_full_full.mp (cube_eq ▸ Cube.covers_refl _), mayBeOn⟩
  · rintro ⟨place, rfl, rfl, mayBeOn⟩
    have admitted : (admittedOutputs table.rows[place.1].toList).getLsbD place.2 = true :=
      (getLsbD_admittedOutputs (fits place.1)).mpr
        ⟨table.cell place, getElem?_toList_eq_some.mpr ⟨place, rfl, rfl, rfl⟩, mayBeOn⟩
    refine ⟨⟨table.rowCube place.1, admittedOutputs table.rows[place.1].toList⟩,
      List.mem_filter.mpr ⟨List.mem_map.mpr ⟨_, mem_cubeRows.mpr ⟨place.1, rfl⟩, rfl⟩, ?_⟩,
      rfl, admitted⟩
    rw [decide_eq_true_eq]
    intro noOutputs
    change admittedOutputs table.rows[place.1].toList = 0 at noOutputs
    rw [noOutputs, BitVec.ofNat_eq_ofNat, BitVec.getLsbD_zero] at admitted
    cases admitted

/-- The targets of a table are the cells that are on. -/
theorem mem_targets {target : Target} :
    target ∈ table.targets ↔ ∃ place : table.Place, table.cell place = .on ∧
      target = ⟨table.rowCube place.1, place.2⟩ := by
  have inRow : ∀ (cells : List Cell) (column : Nat),
      (∃ entry ∈ cells.zipIdx.filter (fun (cell, _) => cell = .on), entry.2 = column) ↔
        cells[column]? = some .on := by
    intro cells column
    simp [List.mem_filter, List.mem_zipIdx_iff_getElem?]
  constructor
  · intro mem
    obtain ⟨⟨cube, cells⟩, listed, inCells⟩ := List.mem_flatMap.mp mem
    obtain ⟨entry, entryMem, rfl⟩ := List.mem_map.mp inCells
    obtain ⟨row, row_eq⟩ := mem_cubeRows.mp listed
    cases row_eq
    obtain ⟨place, rfl, column_eq, on⟩ :=
      getElem?_toList_eq_some.mp ((inRow _ _).mp ⟨entry, entryMem, rfl⟩)
    exact ⟨place, on, column_eq ▸ rfl⟩
  · rintro ⟨place, on, rfl⟩
    obtain ⟨entry, entryMem, column_eq⟩ :=
      (inRow _ _).mpr (getElem?_toList_eq_some.mpr ⟨place, rfl, rfl, on⟩)
    exact List.mem_flatMap.mpr ⟨_, mem_cubeRows.mpr ⟨place.1, rfl⟩,
      List.mem_map.mpr ⟨entry, entryMem, column_eq ▸ rfl⟩⟩

/-- A cube of the width of a table implies an output where it avoids the rows
in which the output is off. -/
theorem implies_admits_iff {column : Fin table.outputCount} {cube : Cube}
    (width : cube.length = table.inputs.length) :
    cube.Implies (Term.Admits table.terms column) ↔
      ∀ row, table.cell (row, column) = .off → cube.covers (table.rowCube row) = false := by
  constructor
  · intro implies row off
    refine Bool.eq_false_iff.mpr fun inside => ?_
    obtain ⟨⟨other, column'⟩, same, bits_eq, mayBeOn⟩ := admits_terms.mp (implies _ inside)
    obtain rfl : column' = column := Fin.ext same
    obtain rfl : other = row := rowBits_injective bits_eq
    rw [off] at mayBeOn
    cases mayBeOn
  · intro avoids bits inside
    have length_eq : bits.length = table.inputs.length := by
      rw [← width, Cube.length_eq_of_covers inside, Cube.length_full]
    obtain ⟨index, bound, rfl⟩ := Row.exists_bits_eq table.width_le length_eq
    refine admits_terms.mpr ⟨(⟨index, bound⟩, column), rfl, rfl, ?_⟩
    cases cell_eq : table.cell (⟨index, bound⟩, column) with
    | off => exact absurd inside (Bool.eq_false_iff.mp (avoids _ cell_eq))
    | _ => rfl

/-- A cube that implies some output has the width of the table. -/
theorem length_eq_of_implies {output : Nat} {cube : Cube}
    (implies : cube.Implies (Term.Admits table.terms output)) :
    cube.length = table.inputs.length := by
  obtain ⟨bits, inside⟩ := cube.exists_covers_full
  obtain ⟨place, -, bits_eq, -⟩ := admits_terms.mp (implies bits inside)
  rw [Cube.length_eq_of_covers inside, Cube.length_full, ← bits_eq, length_rowBits]

end Table

namespace Selection

variable {table : Table}

/-- An implying cube lies in the cube of a prime implicant with at most as many
literals. -/
theorem exists_primeImplicant {output : Nat} {cube : Cube}
    (implies : cube.Implies (Term.Admits table.terms output)) :
    ∃ implicant ∈ primeImplicants table.terms, implicant.serves output = true ∧
      implicant.cube.covers cube = true ∧ implicant.cube.literalCount ≤ cube.literalCount := by
  obtain ⟨prime, isPrime, contains⟩ := implies.exists_prime
  obtain ⟨implicant, mem, rfl, serves⟩ :=
    exists_mem_primeImplicants (fun _ => Table.openCount_of_mem_terms) isPrime
  exact ⟨implicant, mem, serves, contains, Cube.literalCount_le_of_covers contains⟩

/-- Every target of a table is covered by a prime implicant. -/
theorem exists_coversTarget {target : Target} (mem : target ∈ table.targets) :
    ∃ implicant ∈ primeImplicants table.terms, implicant.coversTarget target = true := by
  obtain ⟨place, on, rfl⟩ := Table.mem_targets.mp mem
  have admitted : Term.Admits table.terms place.2 (table.rowBits place.1) :=
    Table.admits_terms.mpr ⟨place, rfl, rfl, on ▸ rfl⟩
  obtain ⟨implicant, implicantMem, serves, contains, -⟩ :=
    exists_primeImplicant (Cube.implies_full.mpr admitted)
  refine ⟨implicant, implicantMem, ?_⟩
  rw [Implicant.coversTarget, Bool.and_eq_true]
  exact ⟨serves, contains⟩

/-- The cubes that are selected for an output imply it. -/
theorem implies_of_mem_cubesFor {limit output : Nat} {cube : Cube}
    (mem : cube ∈ (ofTable limit table).cubesFor output) :
    cube.Implies (Term.Admits table.terms output) := by
  obtain ⟨implicant, listed, rfl⟩ := List.mem_map.mp mem
  obtain ⟨selected, serves⟩ := List.mem_filter.mp listed
  have isPrime := (serves_iff_of_mem_primeImplicants (fun _ => Table.openCount_of_mem_terms)
    (mem_of_mem_ofChart selected) output).mp serves
  exact isPrime.implies

/-- The cubes that are selected for an output contain the rows in which it is
on. -/
theorem exists_mem_cubesFor (limit : Nat) {row : Fin table.rowCount}
    {column : Fin table.outputCount} (on : table.cell (row, column) = .on) :
    ∃ cube ∈ (ofTable limit table).cubesFor column, cube.covers (table.rowCube row) = true := by
  obtain ⟨implicant, selected, coversTarget⟩ :=
    exists_mem_ofChart (fun _ mem => exists_coversTarget mem) limit
      (Table.mem_targets.mpr ⟨(row, column), on, rfl⟩)
  rw [Implicant.coversTarget, Bool.and_eq_true] at coversTarget
  exact ⟨implicant.cube, List.mem_map.mpr
    ⟨implicant, List.mem_filter.mpr ⟨selected, coversTarget.1⟩, rfl⟩, coversTarget.2⟩

end Selection

/-! ## Covers of a column -/

/-- The cells whose rows the cubes of a form contain. -/
def Form.coveredCell : Form → Cell
  | .sumOfProducts => .on
  | .productOfSums => .off

/-- The cells whose rows the cubes of a form avoid. -/
def Form.avoidedCell : Form → Cell
  | .sumOfProducts => .off
  | .productOfSums => .on

namespace Table

/-- A list of cubes covers a column for a form if the cubes have the width of
the table, contain all rows that the form covers and none that it avoids. -/
structure IsCover (table : Table) (form : Form) (column : Fin table.outputCount)
    (cubes : List Cube) : Prop where
  width : ∀ cube ∈ cubes, cube.length = table.inputs.length
  contains : ∀ row, table.cell (row, column) = form.coveredCell →
    ∃ cube ∈ cubes, cube.covers (table.rowCube row) = true
  avoids : ∀ row, table.cell (row, column) = form.avoidedCell →
    ∀ cube ∈ cubes, cube.covers (table.rowCube row) = false

theorem cell_inverted_eq_iff (table : Table) (place : table.Place) (cell : Cell) :
    table.inverted.cell place = cell ↔ table.cell place = cell.invert := by
  rw [cell_inverted]
  cases cell <;> cases table.cell place <;> simp [Cell.invert]

/-- Covering the inverted table by a sum is covering the table by a product. -/
theorem isCover_inverted {table : Table} {column : Fin table.outputCount} {cubes : List Cube} :
    table.inverted.IsCover .sumOfProducts column cubes ↔
      table.IsCover .productOfSums column cubes := by
  have on : ∀ row, table.inverted.cell (row, column) = .on ↔ table.cell (row, column) = .off :=
    fun row => cell_inverted_eq_iff table (row, column) .on
  have off : ∀ row, table.inverted.cell (row, column) = .off ↔ table.cell (row, column) = .on :=
    fun row => cell_inverted_eq_iff table (row, column) .off
  constructor
  · rintro ⟨width, contains, avoids⟩
    exact ⟨width, fun row covered => contains row ((on row).mpr covered),
      fun row avoided => avoids row ((off row).mpr avoided)⟩
  · rintro ⟨width, contains, avoids⟩
    exact ⟨width, fun row covered => contains row ((on row).mp covered),
      fun row avoided => avoids row ((off row).mp avoided)⟩

/-- The cubes that are selected for an output cover its column. -/
theorem isCover_cubesFor (table : Table) (limit : Nat) (column : Fin table.outputCount) :
    table.IsCover .sumOfProducts column ((Selection.ofTable limit table).cubesFor column) where
  width _ mem := length_eq_of_implies (Selection.implies_of_mem_cubesFor mem)
  contains _ on := Selection.exists_mem_cubesFor limit on
  avoids row off _ mem :=
    have implies := Selection.implies_of_mem_cubesFor mem
    (implies_admits_iff (length_eq_of_implies implies)).mp implies row off

/-- The cubes that are selected for a column. -/
def selectedCubes (table : Table) (form : Form) (limit : Nat)
    (column : Fin table.outputCount) : List Cube :=
  (Selection.ofTable limit (table.coveredFor form)).cubesFor column

/-- The cubes that are selected for a column cover it. -/
theorem isCover_selectedCubes (table : Table) (form : Form) (limit : Nat)
    (column : Fin table.outputCount) :
    table.IsCover form column (table.selectedCubes form limit column) := by
  cases form with
  | sumOfProducts => exact isCover_cubesFor table limit column
  | productOfSums => exact isCover_inverted.mp (isCover_cubesFor table.inverted limit column)

/-- The minimized form of a column consists of its selected cubes. -/
theorem getElem?_outputs_minimize (table : Table) (form : Form) (limit : Nat)
    (column : Fin table.outputCount) :
    (table.minimize form limit).outputs[column.val]? = some
      { index := column
        name := table.outputs[column]
        cubes := table.selectedCubes form limit column
        text := form.render (table.selectedCubes form limit column) table.inputs
        expr := form.toExpr (table.selectedCubes form limit column) table.inputs } := by
  simp [minimize, selectedCubes]

variable {table : Table}

/-- The expression of a cover has the values of the column. -/
theorem IsCover.denote_toExpr {form : Form} {column : Fin table.outputCount}
    {cubes : List Cube} (cover : table.IsCover form column cubes) {row : Fin table.rowCount}
    {value : Bool} (cell_eq : (table.cell (row, column)).toBool? = some value) :
    (form.toExpr cubes table.inputs).denote (Row.assignment table.inputs row).valuation =
      value := by
  have inside : cubes.any (·.covers (table.rowCube row)) = (value == form.emptyTerm) := by
    by_cases covered : table.cell (row, column) = form.coveredCell
    · obtain ⟨cube, mem, contains⟩ := cover.contains row covered
      rw [covered] at cell_eq
      rw [List.any_eq_true.mpr ⟨cube, mem, contains⟩]
      cases form <;> cases cell_eq <;> rfl
    · have avoided : table.cell (row, column) = form.avoidedCell := by
        cases form <;> cases here : table.cell (row, column) <;>
          simp_all [Form.coveredCell, Form.avoidedCell, Cell.toBool?]
      rw [List.any_eq_false.mpr fun cube mem =>
        Bool.eq_false_iff.mp (cover.avoids row avoided cube mem)]
      rw [avoided] at cell_eq
      cases form <;> cases cell_eq <;> rfl
  rw [Form.denote_toExpr form _ cover.width, Row.map_valuation_assignment table.inputs_nodup]
  change (cubes.any (·.covers (table.rowCube row)) == form.emptyTerm) = _
  rw [inside]
  cases form <;> cases value <;> rfl

/-- Every output of a table is minimized, in the order of the columns, and the
minimized expression of an output has the values of its column. -/
theorem evaluate_minimize (table : Table) (form : Form) (limit : Nat) :
    (table.minimize form limit).outputs.map MinimizedOutput.index =
        List.range table.outputs.length ∧
      (table.minimize form limit).outputs.map MinimizedOutput.name = table.outputs ∧
      ∀ (place : table.Place) (value : Bool), (table.cell place).toBool? = some value →
        ∃ output, (table.minimize form limit).outputs[place.2.val]? = some output ∧
          output.expr.evaluate (Row.assignment table.inputs place.1) = .ok value := by
  refine ⟨?_, ?_, ?_⟩
  · simp [minimize, Function.comp_def, List.range_eq_range']
  · simp [minimize, Function.comp_def]
  · rintro ⟨row, column⟩ value cell_eq
    have cover := table.isCover_selectedCubes form limit column
    refine ⟨_, table.getElem?_outputs_minimize form limit column, ?_⟩
    have assigns := Row.assigns_assignment table.inputs_nodup row
    rw [Expr.evaluate_eq_ok fun name occurs =>
      assigns name (Form.mem_inputs_of_mem_occurrences occurs), cover.denote_toExpr cell_eq]

end Table

/-! ## Cheapest covers -/

theorem Cube.listPrice_le_of_sublist {cubes others : List Cube} (sublist : cubes.Sublist others) :
    listPrice cubes ≤ listPrice others :=
  Prod.Lex.toLex_mono ⟨sublist.length_le,
    (sublist.map literalCount).sum_le_sum fun _ _ => Nat.zero_le _⟩

theorem Cube.listPrice_cons (cube : Cube) (cubes : List Cube) :
    listPrice (cube :: cubes) = toLex (1, cube.literalCount) + listPrice cubes := by
  rw [listPrice, List.length_cons, add_comm cubes.length]
  rfl

/-- Cubes that imply an output lie in prime implicants that cost no more. -/
theorem Selection.exists_primeImplicants {table : Table} {output : Nat} (cubes : List Cube)
    (imply : ∀ cube ∈ cubes, cube.Implies (Term.Admits table.terms output)) :
    ∃ known : List Implicant, (∀ implicant ∈ known, implicant ∈ primeImplicants table.terms) ∧
      (∀ cube ∈ cubes, ∃ implicant ∈ known, implicant.serves output = true ∧
        implicant.cube.covers cube = true) ∧
      Cube.listPrice (known.map Implicant.cube) ≤ Cube.listPrice cubes := by
  induction cubes with
  | nil => exact ⟨[], by simp, by simp, le_rfl⟩
  | cons first rest ih =>
      obtain ⟨implicant, isPrime, serves, contains, literals_le⟩ :=
        exists_primeImplicant (imply first List.mem_cons_self)
      obtain ⟨known, arePrime, contained, price_le⟩ :=
        ih fun cube mem => imply cube (List.mem_cons_of_mem _ mem)
      refine ⟨implicant :: known, List.forall_mem_cons.mpr ⟨isPrime, arePrime⟩, ?_, ?_⟩
      · intro cube mem
        rcases List.mem_cons.mp mem with rfl | later
        · exact ⟨implicant, List.mem_cons_self, serves, contains⟩
        · obtain ⟨other, otherMem, both⟩ := contained cube later
          exact ⟨other, List.mem_cons_of_mem _ otherMem, both⟩
      · have first_le : toLex (1, implicant.cube.literalCount) ≤ toLex (1, first.literalCount) :=
          Prod.Lex.toLex_mono ⟨le_rfl, literals_le⟩
        calc
          Cube.listPrice ((implicant :: known).map Implicant.cube)
              = toLex (1, implicant.cube.literalCount) +
                  Cube.listPrice (known.map Implicant.cube) := Cube.listPrice_cons _ _
          _ ≤ toLex (1, first.literalCount) + Cube.listPrice rest := add_le_add first_le price_le
          _ = Cube.listPrice (first :: rest) := (Cube.listPrice_cons _ _).symm

namespace Table

/-- The only column of a table is the first one. -/
theorem eq_zero_of_single {table : Table} (single : table.outputs.length = 1)
    (column : Fin table.outputCount) : column.val = 0 :=
  Nat.lt_one_iff.mp (single ▸ column.isLt)

/-- For the only output of a table, no cover is cheaper than the selected
cubes. -/
theorem listPrice_cubesFor_le (table : Table) {limit : Nat} {column : Fin table.outputCount}
    (single : table.outputs.length = 1) (exact : (Selection.ofTable limit table).exact = true)
    {cubes : List Cube} (cover : table.IsCover .sumOfProducts column cubes) :
    Cube.listPrice ((Selection.ofTable limit table).cubesFor column) ≤ Cube.listPrice cubes := by
  obtain ⟨known, arePrime, contained, price_le⟩ :=
    Selection.exists_primeImplicants cubes fun cube mem =>
      (implies_admits_iff (cover.width cube mem)).mpr fun row off => cover.avoids row off cube mem
  have coverTargets : ∀ target ∈ table.targets, ∃ implicant ∈ known,
      implicant.coversTarget target = true := by
    intro target mem
    obtain ⟨⟨row, column'⟩, on, rfl⟩ := mem_targets.mp mem
    obtain rfl : column' = column :=
      Fin.ext ((eq_zero_of_single single column').trans (eq_zero_of_single single column).symm)
    obtain ⟨cube, cubeMem, inside⟩ := cover.contains row on
    obtain ⟨implicant, knownMem, serves, contains⟩ := contained cube cubeMem
    refine ⟨implicant, knownMem, ?_⟩
    rw [Implicant.coversTarget, Bool.and_eq_true]
    exact ⟨serves, Cube.covers_trans contains inside⟩
  calc
    Cube.listPrice ((Selection.ofTable limit table).cubesFor column)
        ≤ Cube.listPrice ((Selection.ofTable limit table).implicants.map Implicant.cube) :=
      Cube.listPrice_le_of_sublist (List.filter_sublist.map _)
    _ ≤ Cube.listPrice (known.map Implicant.cube) :=
      Selection.listPrice_ofChart_le exact arePrime coverTargets
    _ ≤ Cube.listPrice cubes := price_le

/-- For a table with one output, the minimized form covers the column, and
where the limit was not in the way, every other cover has more cubes, or as
many and at least as many literals. -/
theorem minimize_cheapest {table : Table} {form : Form} {limit : Nat}
    (single : table.outputs.length = 1) (exact : (table.minimize form limit).exact = true)
    (column : Fin table.outputCount) :
    ∃ output, (table.minimize form limit).outputs = [output] ∧
      table.IsCover form column output.cubes ∧
      ∀ cubes, table.IsCover form column cubes →
        output.cubes.length < cubes.length ∨
          output.cubes.length = cubes.length ∧
            (output.cubes.map Cube.literalCount).sum ≤ (cubes.map Cube.literalCount).sum := by
  have first := eq_zero_of_single single column
  have count : (table.minimize form limit).outputs.length = 1 := by
    simpa [minimize] using single
  have found := table.getElem?_outputs_minimize form limit column
  obtain ⟨output, outputs_eq⟩ := List.length_eq_one_iff.mp count
  rw [outputs_eq, first, List.getElem?_cons_zero] at found
  have cubes_eq : output.cubes = table.selectedCubes form limit column :=
    congrArg MinimizedOutput.cubes (Option.some.inj found)
  refine ⟨output, outputs_eq, cubes_eq ▸ table.isCover_selectedCubes form limit column, ?_⟩
  intro cubes cover
  have price_le : Cube.listPrice output.cubes ≤ Cube.listPrice cubes := by
    rw [cubes_eq]
    cases form with
    | sumOfProducts => exact table.listPrice_cubesFor_le single exact cover
    | productOfSums =>
        exact table.inverted.listPrice_cubesFor_le single exact (isCover_inverted.mpr cover)
  exact Prod.Lex.toLex_le_toLex.mp price_le

/-- The exclusive disjunction of two inputs. -/
def exclusiveOr (first second : String) (differ : first ≠ second := by decide) : Table where
  inputs := [first, second]
  outputs := ["Y"]
  rows := #v[#v[.off], #v[.on], #v[.on], #v[.off]]
  inputs_nodup := by simpa using differ
  outputs_nodup := by decide
  inputs_le := (by decide : 2 ≤ Row.maxInputs)
  outputs_le := by decide

/-- The function that is on where three inputs are not all equal.  Each of its rows
lies in two of its prime implicants, so that none of them is essential. -/
def notAllEqual : Table where
  inputs := ["p", "q", "r"]
  outputs := ["differ"]
  rows := #v[#v[.off], #v[.on], #v[.on], #v[.on], #v[.on], #v[.on], #v[.on], #v[.off]]
  inputs_nodup := by decide
  outputs_nodup := by decide
  inputs_le := by decide
  outputs_le := by decide

/-- Three of the six prime implicants are chosen, and no other cover is cheaper.
The clauses are multiplied out for this choice, which a limit of five products does
not allow. -/
theorem notAllEqual_cheapest :
    notAllEqual.outputs.length = 1 ∧
      (notAllEqual.minimize .sumOfProducts defaultProductLimit).exact = true ∧
      (notAllEqual.minimize .sumOfProducts 5).exact = false ∧
      ∃ output,
        (notAllEqual.minimize .sumOfProducts defaultProductLimit).outputs = [output] ∧
        output.cubes = [[.one, .zero, .dash], [.zero, .dash, .one], [.dash, .one, .zero]] ∧
        notAllEqual.IsCover .sumOfProducts ⟨0, Nat.one_pos⟩ output.cubes ∧
        ∀ cubes, notAllEqual.IsCover .sumOfProducts ⟨0, Nat.one_pos⟩ cubes →
          output.cubes.length < cubes.length ∨
            output.cubes.length = cubes.length ∧
              (output.cubes.map Cube.literalCount).sum ≤
                (cubes.map Cube.literalCount).sum := by
  have selection_eq : Selection.ofTable defaultProductLimit notAllEqual =
      ⟨[⟨[.one, .zero, .dash], 1⟩, ⟨[.zero, .dash, .one], 1⟩, ⟨[.dash, .one, .zero], 1⟩],
        true⟩ := by
    cbv
  have exact : (notAllEqual.minimize .sumOfProducts defaultProductLimit).exact = true :=
    congrArg Selection.exact selection_eq
  have limited : (notAllEqual.minimize .sumOfProducts 5).exact = false := by cbv
  have cubes_eq : (notAllEqual.minimize .sumOfProducts defaultProductLimit).outputs.map
      MinimizedOutput.cubes =
        [(Selection.ofTable defaultProductLimit notAllEqual).cubesFor 0] := rfl
  obtain ⟨output, outputs_eq, cover, cheapest⟩ := minimize_cheapest rfl exact ⟨0, Nat.one_pos⟩
  rw [outputs_eq, selection_eq] at cubes_eq
  exact ⟨rfl, exact, limited, output, outputs_eq, List.head_eq_of_cons_eq cubes_eq, cover,
    cheapest⟩

end Table

end Switching
