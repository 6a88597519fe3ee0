import Switching.Circuit.Mapping
import Switching.Circuit.Lowering
import Switching.Circuit.DoubleNegation
import Switching.Cover.Minimize
import Switching.Failure
import Switching.Table.Tabulate

/-!
# From functions to circuits

The whole way: a function, given as expression text or as a table, is
tabulated and minimized, the minimized outputs become one circuit, the circuit
is mapped onto a gate library and freed of double negations.
-/

namespace Switching

/-- Where a function comes from. -/
inductive Source
  | expression (text : String)
  | table (table : Table)
  deriving DecidableEq

/-- The gate library that a circuit is mapped onto. -/
inductive GateLibrary
  | basic
  | nand
  | nor
  | custom (gates : GateSet)

/-- The choices that a synthesis run takes. -/
structure Options where
  form : Form := .sumOfProducts
  library : GateLibrary := .basic
  peephole : Bool := true
  productLimit : Nat := defaultProductLimit
  outputName : String := "Y"

/-- What a synthesis run gives. -/
structure Synthesis where
  table : Table
  minimization : Minimization
  circuit : Circuit

/-- The table of expression text. -/
def Table.ofText (text output : String) : Except Failure Table := do
  let expr ← (parse text).mapError Failure.parse
  (Table.ofExpr expr output).mapError Failure.table

/-- The table of a function. -/
def Source.tabulate (outputName : String) : Source → Except Failure Table
  | .expression text => Table.ofText text outputName
  | .table given => .ok given

/-- The circuit mapped onto a gate library; the basic library leaves it as it
is. -/
def GateLibrary.map (circuit : Circuit) : GateLibrary → Except SynthesisError Circuit
  | .basic => .ok circuit
  | .nand => circuit.toNand
  | .nor => circuit.toNor
  | .custom gates => circuit.toGateSet gates

/-- The circuit of minimized outputs under the given choices. -/
def Minimization.toCircuit (minimization : Minimization) (options : Options) :
    Except SynthesisError Circuit := do
  let named := minimization.outputs.map fun output => (output.name, output.expr)
  let lowered ← Circuit.ofExprs named
  let mapped ← options.library.map lowered
  if options.peephole then mapped.collapseNegations else return mapped

/-- Go the whole way from a function to a circuit. -/
def synthesize (source : Source) (options : Options) : Except Failure Synthesis := do
  let table ← source.tabulate options.outputName
  let minimization := table.minimize options.form options.productLimit
  let circuit ← (minimization.toCircuit options).mapError Failure.synthesis
  return { table, minimization, circuit }

end Switching
