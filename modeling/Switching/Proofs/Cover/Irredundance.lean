import Switching.Proofs.Cover.Minimization

/-!
# Cubes that can be left out

The implicants are chosen for all outputs together, and every output gets all of
the chosen cubes that are prime for it.  Where the limit was not in the way, each
chosen cube is needed: some output that lists it has a row that only this cube
contains.  This need not be so for every output that lists the cube.  An output can
be covered already by cubes of its own when a cube that was chosen for another
output is added to its list, so the list of one output is irredundant exactly if
all of its cubes are needed there.  Outputs that admit no row in common list no cube
in common, and in particular a table with one output has an irredundant list.
-/

namespace Switching

namespace Table

variable {table : Table} {form : Form} {limit : Nat} {cubes others : List Cube} {cube : Cube}

/-! ## Needed cubes -/

/-- The cubes contain all rows of a column that the form covers. -/
def Contains (table : Table) (form : Form) (column : Fin table.outputCount)
    (cubes : List Cube) : Prop :=
  ∀ row, table.cell (row, column) = form.coveredCell →
    ∃ cube ∈ cubes, cube.covers (table.rowCube row) = true

/-- No cube can be left out of the list without losing a row of the column. -/
def Irredundant (table : Table) (form : Form) (column : Fin table.outputCount)
    (cubes : List Cube) : Prop :=
  ∀ cube ∈ cubes, ¬ table.Contains form column (cubes.erase cube)

/-- Some row of the column that the form covers is contained in the given cube and in
no other one of the list. -/
def NeededIn (table : Table) (form : Form) (column : Fin table.outputCount)
    (cubes : List Cube) (cube : Cube) : Prop :=
  ∃ row, table.cell (row, column) = form.coveredCell ∧
    cube.covers (table.rowCube row) = true ∧
    ∀ other ∈ cubes, other.covers (table.rowCube row) = true → other = cube

instance (table : Table) (form : Form) (column : Fin table.outputCount) (cubes : List Cube) :
    Decidable (table.Contains form column cubes) :=
  inferInstanceAs (Decidable (∀ _, _ → _))

/-- A list without repetitions that contains the rows of a column is irredundant
exactly if all of its cubes are needed. -/
theorem irredundant_iff {column : Fin table.outputCount} (nodup : cubes.Nodup)
    (contains : table.Contains form column cubes) :
    table.Irredundant form column cubes ↔
      ∀ cube ∈ cubes, table.NeededIn form column cubes cube := by
  constructor
  · intro irredundant cube mem
    by_contra notNeeded
    apply irredundant cube mem
    intro row covered
    by_contra lost
    have only : ∀ other ∈ cubes, other.covers (table.rowCube row) = true → other = cube := by
      intro other otherMem inside
      by_contra differs
      exact lost ⟨other, (List.mem_erase_of_ne differs).mpr otherMem, inside⟩
    rcases contains row covered with ⟨other, otherMem, inside⟩
    obtain rfl : other = cube := only other otherMem inside
    exact notNeeded ⟨row, covered, inside, only⟩
  · intro needed cube mem kept
    rcases needed cube mem with ⟨row, covered, -, only⟩
    rcases kept row covered with ⟨other, otherMem, inside⟩
    obtain rfl : other = cube := only other (List.mem_of_mem_erase otherMem) inside
    exact nodup.not_mem_erase otherMem

theorem neededIn_inverted {column : Fin table.outputCount} :
    table.inverted.NeededIn .sumOfProducts column cubes cube ↔
      table.NeededIn .productOfSums column cubes cube := by
  have covered : ∀ row, table.inverted.cell (row, column) = .on ↔
      table.cell (row, column) = .off :=
    fun row => cell_inverted_eq_iff table (row, column) .on
  constructor
  · rintro ⟨row, on, only⟩
    exact ⟨row, (covered row).mp on, only⟩
  · rintro ⟨row, off, only⟩
    exact ⟨row, (covered row).mpr off, only⟩

end Table

/-! ## Chosen cubes -/

namespace Selection

variable {table : Table} {limit output : Nat} {cube : Cube}

theorem mem_cubesFor {selection : Selection} :
    cube ∈ selection.cubesFor output ↔
      ∃ implicant ∈ selection.implicants, implicant.serves output = true ∧
        implicant.cube = cube := by
  simp only [cubesFor, List.mem_map, List.mem_filter, and_assoc]

/-- The chosen implicants stand in the canonical order of their cubes. -/
theorem pairwise_ofTable (limit : Nat) (table : Table) :
    (ofTable limit table).implicants.Pairwise fun first second =>
      first.cube.Before second.cube := by
  have primes : (primeImplicants table.terms).Pairwise fun first second =>
      first.cube.Before second.cube :=
    List.pairwise_map.mpr (CubeMap.ascending_toList _)
  have chosen : ((Chart.ofLists (primeImplicants table.terms) table.targets).solve
      limit).chosen.Pairwise (· < ·) :=
    IndexSet.pairwise_toList _
  apply List.pairwise_filterMap.mpr
  apply chosen.imp
  intro first second less implicant foundFirst other foundSecond
  rcases List.getElem?_eq_some_iff.mp foundFirst with ⟨firstBound, rfl⟩
  rcases List.getElem?_eq_some_iff.mp foundSecond with ⟨secondBound, rfl⟩
  exact List.pairwise_iff_getElem.mp primes first second firstBound secondBound less

/-- No cube is listed twice. -/
theorem nodup_cubesFor (limit : Nat) (table : Table) (output : Nat) :
    ((ofTable limit table).cubesFor output).Nodup := by
  apply List.pairwise_map.mpr
  apply ((pairwise_ofTable limit table).sublist List.filter_sublist).imp
  intro first second before
  exact before.2

/-- Implicants that cover what the chosen ones cover are no fewer, where the limit
was not in the way. -/
theorem length_implicants_le (exact : (ofTable limit table).exact = true)
    {known : List Implicant}
    (chosen : ∀ implicant ∈ known, implicant ∈ primeImplicants table.terms)
    (covers : ∀ target ∈ table.targets, ∃ implicant ∈ known,
      implicant.coversTarget target = true) :
    (ofTable limit table).implicants.length ≤ known.length := by
  have price_le : Cube.listPrice ((ofTable limit table).implicants.map Implicant.cube) ≤
      Cube.listPrice (known.map Implicant.cube) := listPrice_ofChart_le exact chosen covers
  rcases Prod.Lex.toLex_le_toLex.mp price_le with less | ⟨same, -⟩
  · simpa using Nat.le_of_lt less
  · simpa using Nat.le_of_eq same

/-- A target in a cube that its output does not need is covered by a chosen implicant
with another cube. -/
theorem exists_coversTarget_of_not_neededIn {row : Fin table.rowCount}
    {column : Fin table.outputCount}
    (unneeded : ¬ table.NeededIn .sumOfProducts column ((ofTable limit table).cubesFor column)
      cube)
    (on : table.cell (row, column) = .on) (inside : cube.covers (table.rowCube row) = true) :
    ∃ implicant ∈ (ofTable limit table).implicants, implicant.cube ≠ cube ∧
      implicant.coversTarget ⟨table.rowCube row, column⟩ = true := by
  by_contra no_other
  apply unneeded
  refine ⟨row, on, inside, fun other otherMem otherInside => ?_⟩
  rcases mem_cubesFor.mp otherMem with ⟨implicant, selected, serves, rfl⟩
  by_contra differs
  apply no_other
  refine ⟨implicant, selected, differs, ?_⟩
  rw [Implicant.coversTarget, Bool.and_eq_true]
  exact ⟨serves, otherInside⟩

/-- Every chosen cube is needed by one of the outputs that list it: if none of them
needed it, the other chosen cubes would do. -/
theorem exists_neededIn (exact : (ofTable limit table).exact = true)
    (mem : cube ∈ (ofTable limit table).cubesFor output) :
    ∃ column : Fin table.outputCount, cube ∈ (ofTable limit table).cubesFor column ∧
      table.NeededIn .sumOfProducts column ((ofTable limit table).cubesFor column) cube := by
  by_contra unneeded
  -- The chosen implicants with other cubes cover all targets and are fewer.
  have covers : ∀ target ∈ table.targets,
      ∃ implicant ∈ (ofTable limit table).implicants.filter (·.cube ≠ cube),
        implicant.coversTarget target = true := by
    intro target targetMem
    simp only [List.mem_filter, decide_eq_true_eq, and_assoc]
    obtain ⟨implicant, selected, coversTarget⟩ :=
      exists_mem_ofChart (fun _ mem => exists_coversTarget mem) limit targetMem
    by_cases same : implicant.cube = cube
    · rcases Table.mem_targets.mp targetMem with ⟨⟨row, column⟩, on, rfl⟩
      rw [Implicant.coversTarget, Bool.and_eq_true] at coversTarget
      have listed : cube ∈ (ofTable limit table).cubesFor column :=
        mem_cubesFor.mpr ⟨implicant, selected, coversTarget.1, same⟩
      have notNeeded : ¬ table.NeededIn .sumOfProducts column
          ((ofTable limit table).cubesFor column) cube :=
        fun needed => unneeded ⟨column, listed, needed⟩
      exact exists_coversTarget_of_not_neededIn notNeeded on (same ▸ coversTarget.2)
    · exact ⟨implicant, selected, same, coversTarget⟩
  have no_fewer : (ofTable limit table).implicants.length ≤
      ((ofTable limit table).implicants.filter (·.cube ≠ cube)).length :=
    length_implicants_le exact
      (fun _ kept => mem_of_mem_ofChart (List.mem_filter.mp kept).1) covers
  rcases mem_cubesFor.mp mem with ⟨implicant, selected, -, same⟩
  have fewer : ((ofTable limit table).implicants.filter (·.cube ≠ cube)).length <
      (ofTable limit table).implicants.length := by
    apply List.length_filter_lt_length_iff_exists.mpr
    exact ⟨implicant, selected, by simpa using same⟩
  omega

end Selection

namespace Table

variable {table : Table} {form : Form} {limit : Nat} {cube : Cube}

theorem nodup_selectedCubes (table : Table) (form : Form) (limit : Nat)
    (column : Fin table.outputCount) : (table.selectedCubes form limit column).Nodup :=
  Selection.nodup_cubesFor limit (table.coveredFor form) column

/-- A cube that is selected for two columns contains a row that neither of them
avoids. -/
theorem exists_row_of_shared {column other : Fin table.outputCount}
    (mem : cube ∈ table.selectedCubes form limit column)
    (otherMem : cube ∈ table.selectedCubes form limit other) :
    ∃ row, table.cell (row, column) ≠ form.avoidedCell ∧
      table.cell (row, other) ≠ form.avoidedCell := by
  have cover := table.isCover_selectedCubes form limit column
  have otherCover := table.isCover_selectedCubes form limit other
  rcases cube.exists_covers_full with ⟨bits, inside⟩
  have length_eq : bits.length = table.inputs.length := by
    rw [← cover.width cube mem, Cube.length_eq_of_covers inside, Cube.length_full]
  rcases Row.exists_bits_eq table.width_le length_eq with ⟨index, bound, rfl⟩
  refine ⟨⟨index, bound⟩, fun avoided => ?_, fun avoided => ?_⟩
  · exact Bool.eq_false_iff.mp (cover.avoids _ avoided cube mem) inside
  · exact Bool.eq_false_iff.mp (otherCover.avoids _ avoided cube otherMem) inside

/-- Every selected cube is needed in one of the columns it is selected for. -/
theorem exists_neededIn_selectedCubes (exact : (table.minimize form limit).exact = true)
    {column : Fin table.outputCount} (mem : cube ∈ table.selectedCubes form limit column) :
    ∃ other, cube ∈ table.selectedCubes form limit other ∧
      table.NeededIn form other (table.selectedCubes form limit other) cube := by
  cases form with
  | sumOfProducts => exact Selection.exists_neededIn exact mem
  | productOfSums =>
      rcases Selection.exists_neededIn exact mem with ⟨other, listed, needed⟩
      exact ⟨other, listed, neededIn_inverted.mp needed⟩

/-- Where the limit was not in the way, each cube that is listed for an output is
needed by some output that lists it.  The list of one output is irredundant exactly
if its cubes are needed there, and this is so if no other output has a row in common
with it that neither of them avoids. -/
theorem minimize_needed (exact : (table.minimize form limit).exact = true) :
    (table.minimize form limit).outputs.map MinimizedOutput.cubes =
        (List.finRange table.outputCount).map (table.selectedCubes form limit) ∧
      ∀ column : Fin table.outputCount,
        (∀ cube ∈ table.selectedCubes form limit column,
          ∃ other, cube ∈ table.selectedCubes form limit other ∧
            table.NeededIn form other (table.selectedCubes form limit other) cube) ∧
        (table.Irredundant form column (table.selectedCubes form limit column) ↔
          ∀ cube ∈ table.selectedCubes form limit column,
            table.NeededIn form column (table.selectedCubes form limit column) cube) ∧
        ((∀ other, other ≠ column → ∀ row, table.cell (row, column) = form.avoidedCell ∨
            table.cell (row, other) = form.avoidedCell) →
          table.Irredundant form column (table.selectedCubes form limit column)) := by
  have cubes_eq : (table.minimize form limit).outputs.map MinimizedOutput.cubes =
      (List.finRange table.outputCount).map (table.selectedCubes form limit) := by
    apply List.ext_getElem
    · simp [minimize]
    · intro index bound otherBound
      simp [minimize, selectedCubes]
  refine ⟨cubes_eq, fun column => ?_⟩
  have needed : ∀ cube ∈ table.selectedCubes form limit column,
      ∃ other, cube ∈ table.selectedCubes form limit other ∧
        table.NeededIn form other (table.selectedCubes form limit other) cube :=
    fun cube mem => exists_neededIn_selectedCubes exact mem
  have irredundant_iff := irredundant_iff (table.nodup_selectedCubes form limit column)
    (table.isCover_selectedCubes form limit column).contains
  refine ⟨needed, irredundant_iff, fun apart => ?_⟩
  apply irredundant_iff.mpr
  intro cube mem
  rcases needed cube mem with ⟨other, otherMem, neededIn⟩
  by_cases same : other = column
  · exact same ▸ neededIn
  · rcases exists_row_of_shared mem otherMem with ⟨row, notAvoided, otherNotAvoided⟩
    rcases apart other same row with avoided | avoided
    · exact absurd avoided notAvoided
    · exact absurd avoided otherNotAvoided

/-- The table of `a・b + ¬a・c` and `b・c`.  The product `b・c` is prime for both
outputs, needed for the second one and superfluous for the first one. -/
def sharedProduct : Table where
  inputs := ["a", "b", "c"]
  outputs := ["f", "g"]
  rows := #v[#v[.off, .off], #v[.on, .off], #v[.off, .off], #v[.on, .on],
    #v[.off, .off], #v[.off, .off], #v[.on, .off], #v[.on, .on]]
  inputs_nodup := by decide
  outputs_nodup := by decide
  inputs_le := (by decide : 3 ≤ Row.maxInputs)
  outputs_le := by decide

theorem sharedProduct_exact :
    (sharedProduct.minimize .sumOfProducts defaultProductLimit).exact = true := by
  decide +kernel

theorem sharedProduct_listed : [.dash, .one, .one] ∈
    sharedProduct.selectedCubes .sumOfProducts defaultProductLimit ⟨0, Nat.two_pos⟩ := by
  decide +kernel

/-- The superfluous product is needed by one of the outputs that list it. -/
theorem sharedProduct_needed :
    (sharedProduct.minimize .sumOfProducts defaultProductLimit).exact = true ∧
      ∃ other, [.dash, .one, .one] ∈
          sharedProduct.selectedCubes .sumOfProducts defaultProductLimit other ∧
        sharedProduct.NeededIn .sumOfProducts other
          (sharedProduct.selectedCubes .sumOfProducts defaultProductLimit other)
          [.dash, .one, .one] := by
  rcases minimize_needed sharedProduct_exact with ⟨-, columns⟩
  exact ⟨sharedProduct_exact, (columns ⟨0, Nat.two_pos⟩).1 _ sharedProduct_listed⟩

/-- The list of one output need not be irredundant. -/
theorem sharedProduct_not_irredundant :
    ¬ ∀ (table : Table) (form : Form) (limit : Nat), (table.minimize form limit).exact = true →
      ∀ (column : Fin table.outputCount) (output : MinimizedOutput),
        (table.minimize form limit).outputs[column.val]? = some output →
          table.Irredundant form column output.cubes := by
  intro irredundant
  have found := sharedProduct.getElem?_outputs_minimize .sumOfProducts defaultProductLimit
    ⟨0, Nat.two_pos⟩
  apply irredundant sharedProduct .sumOfProducts defaultProductLimit sharedProduct_exact _ _ found
    _ sharedProduct_listed
  decide +kernel

end Table

end Switching
