import Switching.Proofs.Cover.TwoLevelForm
import Switching.Proofs.Table.Tabulation
import Switching.Table.Canonical

/-!
# Values of canonical forms

A minterm is true in its own row only, and a maxterm is false in its own row
only.  So the canonical sum of products of an output is true exactly where the
output is on, the canonical product of sums is false exactly where it is off,
and the two differ exactly where it is free.
-/

namespace Switching.Table

/-! ## Terms -/

/-- Literals with the given polarities are all true exactly if these are the
values of the names. -/
theorem all_zip_eq_iff {valuation : String → Bool} {names : List String} {bits : List Bool}
    (length_eq : bits.length = names.length) :
    ((names.zip bits).all fun literal => valuation literal.1 == literal.2) = true ↔
      names.map valuation = bits := by
  induction names generalizing bits with
  | nil => simp [List.length_eq_zero_iff.mp length_eq]
  | cons name rest ih =>
      cases bits with
      | nil => cases length_eq
      | cons bit others =>
          rw [List.zip_cons_cons, List.all_cons, Bool.and_eq_true, ih (Nat.succ.inj length_eq),
            beq_iff_eq, List.map_cons, List.cons.injEq]

/-- A minterm is true where the inputs have the bits of its row. -/
theorem denote_minterm_iff {valuation : String → Bool} {inputs : List String} {index : Nat} :
    (minterm inputs index).denote valuation = true ↔
      inputs.map valuation = Row.bits inputs.length index := by
  rw [minterm, Expr.denote_chainD_and, List.all_map,
    ← all_zip_eq_iff (Row.length_bits inputs.length index)]
  simp only [Function.comp_def, Expr.denote_literal]

/-- A maxterm is false where the inputs have the bits of its row. -/
theorem denote_maxterm_iff {valuation : String → Bool} {inputs : List String} {index : Nat} :
    (maxterm inputs index).denote valuation = false ↔
      inputs.map valuation = Row.bits inputs.length index := by
  rw [maxterm, Expr.denote_chainD_or, List.any_map,
    ← all_zip_eq_iff (Row.length_bits inputs.length index)]
  rw [List.any_eq_false, List.all_eq_true]
  refine forall₂_congr fun literal _ => ?_
  obtain ⟨name, bit⟩ := literal
  simp only [Function.comp_apply, Expr.denote_literal, beq_iff_eq, Bool.eq_not,
    Decidable.not_not]

/-- A chain of literals over some inputs has no other variables. -/
theorem mem_inputs_of_mem_literals {op : Connective} {unit : Bool} {inputs : List String}
    {bits : List Bool} (polarity : Bool → Bool) {name : String}
    (mem : name ∈ (Expr.chainD op unit ((inputs.zip bits).map fun (name, bit) =>
      Expr.literal name (polarity bit))).occurrences) : name ∈ inputs := by
  obtain ⟨_, literalMem, occurs⟩ := Expr.mem_occurrences_chainD mem
  obtain ⟨⟨other, bit⟩, zipped, rfl⟩ := List.mem_map.mp literalMem
  rw [Expr.mem_occurrences_literal.mp occurs]
  exact (List.of_mem_zip zipped).1

theorem mem_inputs_of_mem_minterm {inputs : List String} {index : Nat} {name : String}
    (mem : name ∈ (minterm inputs index).occurrences) : name ∈ inputs :=
  mem_inputs_of_mem_literals (fun bit => bit) mem

theorem mem_inputs_of_mem_maxterm {inputs : List String} {index : Nat} {name : String}
    (mem : name ∈ (maxterm inputs index).occurrences) : name ∈ inputs :=
  mem_inputs_of_mem_literals (fun bit => !bit) mem

/-! ## Forms -/

variable {table : Table}

theorem mem_rowsWith {column : Fin table.outputCount} {cell : Cell} {row : Fin table.rowCount} :
    row ∈ table.rowsWith column cell ↔ table.cell (row, column) = cell := by
  simp [rowsWith]

/-- In a row, the inputs have the bits of this row and no other. -/
theorem map_valuation_eq_bits_iff {row other : Fin table.rowCount} :
    table.inputs.map (Row.assignment table.inputs row).valuation =
      Row.bits table.inputs.length other ↔ other = row := by
  rw [Row.map_valuation_assignment table.inputs_nodup]
  constructor
  · intro same
    exact Fin.ext (Row.eq_of_bits_eq table.width_le other.isLt row.isLt same.symm)
  · rintro rfl
    rfl

/-- The assignment of a row assigns the variables of a form whose terms have no
variables besides the inputs. -/
theorem assigns_chainD {op : Connective} {unit : Bool} {rows : List (Fin table.rowCount)}
    {term : Fin table.rowCount → Expr}
    (listed : ∀ row, ∀ name ∈ (term row).occurrences, name ∈ table.inputs) (index : Nat) :
    (Row.assignment table.inputs index).Assigns
      (Expr.chainD op unit (rows.map term)).occurrences := by
  intro name occurs
  obtain ⟨_, termMem, inTerm⟩ := Expr.mem_occurrences_chainD occurs
  obtain ⟨row, -, rfl⟩ := List.mem_map.mp termMem
  exact Row.assigns_assignment table.inputs_nodup index name (listed row name inTerm)

variable {output : String} {column : Fin table.outputCount}

/-- The canonical sum of products is true in the rows that are on. -/
theorem exists_sumOfProducts (column_eq : table.outputIndex output = .ok column) :
    ∃ sum, table.sumOfProducts output = .ok sum ∧ ∀ row : Fin table.rowCount,
      ∃ value, sum.evaluate (Row.assignment table.inputs row) = .ok value ∧
        (value = true ↔ table.cell (row, column) = .on) := by
  refine ⟨_, congrArg (· >>= _) column_eq, fun row => ?_⟩
  refine ⟨_, Expr.evaluate_eq_ok
    (assigns_chainD (fun _ _ => mem_inputs_of_mem_minterm) row), ?_⟩
  rw [Expr.denote_chainD_or, List.any_map, List.any_eq_true]
  simp only [Function.comp_apply, denote_minterm_iff, map_valuation_eq_bits_iff, mem_rowsWith,
    exists_eq_right]

/-- The canonical product of sums is false in the rows that are off. -/
theorem exists_productOfSums (column_eq : table.outputIndex output = .ok column) :
    ∃ product, table.productOfSums output = .ok product ∧ ∀ row : Fin table.rowCount,
      ∃ value, product.evaluate (Row.assignment table.inputs row) = .ok value ∧
        (value = false ↔ table.cell (row, column) = .off) := by
  refine ⟨_, congrArg (· >>= _) column_eq, fun row => ?_⟩
  refine ⟨_, Expr.evaluate_eq_ok
    (assigns_chainD (fun _ _ => mem_inputs_of_mem_maxterm) row), ?_⟩
  rw [Expr.denote_chainD_and, List.all_map, List.all_eq_false]
  simp only [Function.comp_apply, Bool.not_eq_true, denote_maxterm_iff, map_valuation_eq_bits_iff,
    mem_rowsWith, exists_eq_right]

/-- Values that are true exactly if a cell is on and false exactly if it is off
differ exactly if the cell is free. -/
theorem eq_iff_ne_free {cell : Cell} {inSum inProduct : Bool}
    (sum_iff : inSum = true ↔ cell = .on) (product_iff : inProduct = false ↔ cell = .off) :
    inSum = inProduct ↔ cell ≠ .free := by
  cases cell <;> simp_all

/-- The canonical forms of an output reproduce its column: in every row the sum
of products is true exactly if the cell is on, and the product of sums is false
exactly if the cell is off.  Hence they agree exactly where the cell is not
free. -/
theorem evaluate_canonicalForms (table : Table) {output : String} (mem : output ∈ table.outputs) :
    ∃ sum product, table.sumOfProducts output = .ok sum ∧
      table.productOfSums output = .ok product ∧
      ∀ row : Fin table.rowCount, ∃ cell inSum inProduct,
        table.value (Row.pattern table.inputs.length row) output = .ok cell ∧
        sum.evaluate (Row.assignment table.inputs row) = .ok inSum ∧
        product.evaluate (Row.assignment table.inputs row) = .ok inProduct ∧
        (inSum = true ↔ cell = .on) ∧ (inProduct = false ↔ cell = .off) ∧
        (inSum = inProduct ↔ cell ≠ .free) := by
  obtain ⟨column, column_eq⟩ := exists_outputIndex mem
  obtain ⟨sum, sum_eq, inSums⟩ := exists_sumOfProducts column_eq
  obtain ⟨product, product_eq, inProducts⟩ := exists_productOfSums column_eq
  refine ⟨sum, product, sum_eq, product_eq, fun row => ?_⟩
  obtain ⟨inSum, evaluatedSum, sum_iff⟩ := inSums row
  obtain ⟨inProduct, evaluatedProduct, product_iff⟩ := inProducts row
  refine ⟨table.cell (row, column), inSum, inProduct, value_pattern column_eq row, evaluatedSum,
    evaluatedProduct, sum_iff, product_iff, eq_iff_ne_free sum_iff product_iff⟩

/-- A table with an output that is on, off and free, and one that is never
off. -/
def partialColumns : Table where
  inputs := ["a", "b"]
  outputs := ["f", "h"]
  rows := #v[#v[.on, .free], #v[.free, .on], #v[.off, .on], #v[.free, .free]]
  inputs_nodup := by decide
  outputs_nodup := by decide
  inputs_le := by decide
  outputs_le := by decide

/-- In the free row of an output its canonical forms have different values. -/
theorem partialColumns_canonicalForms :
    "f" ∈ partialColumns.outputs ∧ ∃ sum product,
      partialColumns.sumOfProducts "f" = .ok sum ∧
        partialColumns.productOfSums "f" = .ok product ∧
        partialColumns.value "01" "f" = .ok .free ∧
        sum.evaluate (Row.assignment ["a", "b"] 1) = .ok false ∧
        product.evaluate (Row.assignment ["a", "b"] 1) = .ok true := by
  have mem : "f" ∈ partialColumns.outputs := by decide
  have free : partialColumns.value "01" "f" = .ok .free := rfl
  obtain ⟨sum, product, sum_eq, product_eq, rows⟩ := evaluate_canonicalForms partialColumns mem
  obtain ⟨cell, inSum, inProduct, value_eq, evaluatedSum, evaluatedProduct, sum_iff,
    product_iff, -⟩ := rows ⟨1, by decide⟩
  obtain rfl : cell = .free := Except.ok.inj (value_eq.symm.trans free)
  have inSum_eq : inSum = false := by simpa using sum_iff
  have inProduct_eq : inProduct = true := by simpa using product_iff
  exact ⟨mem, sum, product, sum_eq, product_eq, free, inSum_eq ▸ evaluatedSum,
    inProduct_eq ▸ evaluatedProduct⟩

end Switching.Table
