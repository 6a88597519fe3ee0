import Switching.Circuit.Basic
import Switching.Expr.Eval

/-!
# Simulating circuits

The gates are evaluated once, in order.  Every gate is evaluated, whether an
output depends on it or not, so every input that a gate reads needs a value.
-/

namespace Switching.Circuit

variable (circuit : Circuit)

/-- The value of a node, given the values of the first gates. -/
def nodeValue (assignment : Assignment) (values : Array Bool) :
    Node → Except EvalError Bool
  | .input name => assignment.value name
  | .gate id =>
      match (circuit.gate? id).bind fun gate => values[gate.id.serial]? with
      | some value => .ok value
      | none => .error (.unknownNode id.text)

/-- Evaluate one gate after the earlier ones. -/
def evaluateGate (assignment : Assignment) (values : Array Bool) (gate : Gate) :
    Except EvalError (Array Bool) := do
  let operands ← gate.operands.mapM (circuit.nodeValue assignment values)
  return values.push (gate.kind.apply operands)

/-- The values of all gates, in order. -/
def simulate (assignment : Assignment) : Except EvalError (Array Bool) :=
  circuit.gates.foldlM (circuit.evaluateGate assignment) #[]

/-- The values of all outputs, in order. -/
def evaluate (assignment : Assignment) : Except EvalError (List (String × Bool)) := do
  let values ← circuit.simulate assignment
  circuit.outputs.mapM fun (name, node) => do
    return (name, ← circuit.nodeValue assignment values node)

/-- The value of one output.  The name is checked before the simulation. -/
def evaluateOutput (name : String) (assignment : Assignment) : Except EvalError Bool :=
  match circuit.output? name with
  | none => .error (.unknownOutput name)
  | some node => do
      let values ← circuit.simulate assignment
      circuit.nodeValue assignment values node

end Switching.Circuit
