import Switching.Expr.Names
import Switching.Expr.Parser
import Switching.Table.Basic

/-!
# Tabulating expressions

The table of an expression has the variables of the expression as its inputs,
in ascending order, and one output.
-/

namespace Switching

namespace Table

/-- The table of an expression, with its values in the column `output`. -/
def ofExpr (expr : Expr) (output : String) : Except TableError Table := do
  let table ← blank expr.sortedVars [output]
  let column ← table.outputIndex output
  let values ← (Array.range table.rowCount).mapM fun index =>
    (expr.evaluate (Row.assignment table.inputs index)).mapError TableError.evaluation
  return table.fillColumn column (values.map Cell.ofBool)

end Table

end Switching
