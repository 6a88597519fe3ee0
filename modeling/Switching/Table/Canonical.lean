import Switching.Table.Basic
import Switching.Expr.Basic

/-!
# Canonical expressions of a table column

The canonical sum of products has one product per row that is on, the
canonical product of sums one sum per row that is off.  Free rows contribute
to neither.
-/

namespace Switching.Table

/-- The product of literals that is true in exactly one row. -/
def minterm (inputs : List String) (index : Nat) : Expr :=
  let literals := (inputs.zip (Row.bits inputs.length index)).map fun (name, bit) =>
    Expr.literal name bit
  Expr.chainD .and true literals

/-- The sum of literals that is false in exactly one row. -/
def maxterm (inputs : List String) (index : Nat) : Expr :=
  let literals := (inputs.zip (Row.bits inputs.length index)).map fun (name, bit) =>
    Expr.literal name (!bit)
  Expr.chainD .or false literals

variable (table : Table)

/-- The rows in which a column holds the given cell, in ascending order. -/
def rowsWith (column : Fin table.outputCount) (cell : Cell) : List (Fin table.rowCount) :=
  (List.finRange table.rowCount).filter fun row => table.cell (row, column) = cell

/-- The canonical sum of products of an output. -/
def sumOfProducts (output : String) : Except TableError Expr := do
  let column ← table.outputIndex output
  return Expr.chainD .or false
    ((table.rowsWith column .on).map fun row => minterm table.inputs row.val)

/-- The canonical product of sums of an output. -/
def productOfSums (output : String) : Except TableError Expr := do
  let column ← table.outputIndex output
  return Expr.chainD .and true
    ((table.rowsWith column .off).map fun row => maxterm table.inputs row.val)

end Switching.Table
