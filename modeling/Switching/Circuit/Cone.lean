import Switching.Circuit.Basic
import Switching.Expr.Assignment

/-!
# Cones and values of nodes

The cone of a node holds the nodes on which it depends.  The value of a node
under an assignment is given by the values of its operands; neither notion
refers to the order of the gates.
-/

namespace Switching.Circuit

variable (circuit : Circuit)

/-- `InCone node other` says that `other` is `node` or one of the nodes on
which `node` depends. -/
inductive InCone (node : Node) : Node → Prop
  | self : InCone node node
  | operand {id : GateId} {gate : Gate} {other : Node} (inside : InCone node (.gate id))
      (found : circuit.gate? id = some gate) (mem : other ∈ gate.operands) :
      InCone node other

/-- The nodes on which some output depends. -/
def Reachable (node : Node) : Prop :=
  ∃ output ∈ circuit.outputs, circuit.InCone output.2 node

/-- The gates on which some output depends. -/
def ReachableGate (gate : Gate) : Prop :=
  gate ∈ circuit.gates ∧ circuit.Reachable (.gate gate.id)

/-- `HasValue assignment node value` says that a node computes a value under
an assignment: inputs have the assigned values, and gates apply their
functions to the values of their operands. -/
inductive HasValue (assignment : Assignment) : Node → Bool → Prop
  | input {name : String} {value : Bool} (assigned : assignment.value? name = some value) :
      HasValue assignment (.input name) value
  | gate {id : GateId} {gate : Gate} {values : List Bool}
      (found : circuit.gate? id = some gate)
      (length_eq : gate.operands.length = values.length)
      (operands : ∀ (position : Nat) (operand : Node) (value : Bool),
        gate.operands[position]? = some operand → values[position]? = some value →
          HasValue assignment operand value) :
      HasValue assignment (.gate id) (gate.kind.apply values)

/-- The primary inputs that some gate reads or some output is bound to. -/
def ReadsInput (name : String) : Prop :=
  (∃ gate ∈ circuit.gates, Node.input name ∈ gate.operands) ∨
    ∃ output ∈ circuit.outputs, output.2 = .input name

end Switching.Circuit
