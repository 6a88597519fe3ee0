import Switching.Cover.Chart
import Switching.Cover.Form
import Switching.Table.Basic

/-!
# Exact two-level minimization

All outputs of a table are minimized together.  The rows in which some output
is on or free give the terms of the prime implicants, the rows in which an
output is on give the targets.  The chart of both is reduced, the clauses that
remain are solved, and the chosen implicants are handed to the outputs that
they serve.  For the product of sums the inverted table is covered.
-/

namespace Switching

/-- The number of products up to which clauses are multiplied out, unless
another limit is given. -/
def defaultProductLimit : Nat := 4096

namespace Table

variable (table : Table)

/-- The outputs that are on or free in a row. -/
def admittedOutputs (cells : List Cell) : OutputSet :=
  (cells.zipIdx.filter fun (cell, _) => cell.mayBeOn).foldl
    (fun outputs (_, column) => outputs ||| BitVec.twoPow 64 column) 0

/-- The rows with their full cubes, in ascending order. -/
def cubeRows : List (Cube × List Cell) :=
  table.rows.toList.zipIdx.map fun (cells, index) =>
    (Cube.ofIndex table.inputs.length index, cells.toList)

/-- The terms of a table: its rows with the outputs that are on or free. -/
def terms : List Term :=
  (table.cubeRows.map fun (cube, cells) => ⟨cube, admittedOutputs cells⟩).filter
    fun term => term.outputs ≠ 0

/-- The targets of a table: its cells that are on, row by row. -/
def targets : List Target :=
  table.cubeRows.flatMap fun (cube, cells) =>
    (cells.zipIdx.filter fun (cell, _) => cell = .on).map fun (_, column) => ⟨cube, column⟩

end Table

/-- The implicants chosen for a table, in canonical order, and whether no limit
was in the way of the cheapest choice. -/
structure Selection where
  implicants : List Implicant
  exact : Bool
  deriving DecidableEq, Repr

namespace Selection

/-- The cubes of the chosen implicants that serve an output. -/
def cubesFor (selection : Selection) (output : Nat) : List Cube :=
  (selection.implicants.filter (·.serves output)).map Implicant.cube

/-- Choose, from a list of implicants, a cover of a list of targets. -/
def ofChart (limit : Nat) (implicants : List Implicant) (targets : List Target) : Selection :=
  let solution := (Chart.ofLists implicants targets).solve limit
  { implicants := solution.chosen.filterMap fun index => implicants[index]?
    exact := solution.exact }

/-- Choose a cover of the rows of a table that are on. -/
def ofTable (limit : Nat) (table : Table) : Selection :=
  ofChart limit (primeImplicants table.terms) table.targets

end Selection

/-- The minimized form of one output. -/
structure MinimizedOutput where
  index : Nat
  name : String
  cubes : List Cube
  text : String
  expr : Expr
  deriving DecidableEq, Repr

/-- The minimized forms of all outputs, and whether no limit was in the way of
the cheapest choice. -/
structure Minimization where
  outputs : List MinimizedOutput
  exact : Bool
  deriving DecidableEq, Repr

/-- The remark on a choice for which the limit on products was in the way. -/
def productLimitWarning (limit : Nat) : String :=
  s!"petrick expansion exceeded {limit} products; falling back to a greedy cover"

namespace Minimization

/-- The remarks on a minimization under a limit. -/
def warnings (minimization : Minimization) (limit : Nat) : List String :=
  if minimization.exact then [] else [productLimitWarning limit]

end Minimization

namespace Table

/-- The table that is covered for a form. -/
def coveredFor (table : Table) : Form → Table
  | .sumOfProducts => table
  | .productOfSums => table.inverted

/-- Minimize every output of a table. -/
def minimize (table : Table) (form : Form) (limit : Nat) : Minimization :=
  let selection := Selection.ofTable limit (table.coveredFor form)
  let outputs := table.outputs.zipIdx.map fun (name, index) =>
    let cubes := selection.cubesFor index
    { index, name, cubes
      text := form.render cubes table.inputs
      expr := form.toExpr cubes table.inputs }
  { outputs, exact := selection.exact }

end Table

end Switching
