import Switching.Circuit.Cone
import Switching.Circuit.Tree

/-!
# Shapes

The shape of a node is its unfolding without the numbers of the gates.  Gates may
be passed over for nodes that stand in for them; the shape that a node has then is
the one that it would have without these gates.
-/

namespace Switching

/-- An unfolding in which gates have kinds but no numbers. -/
inductive Shape
  | input (name : String)
  | gate (kind : GateKind) (operands : List Shape)
  deriving Repr, Inhabited

/-- `whole.Contains part` says that `part` is `whole` or lies below its root. -/
inductive Shape.Contains (whole : Shape) : Shape → Prop
  | self : Contains whole whole
  | operand {kind : GateKind} {operands : List Shape} {part : Shape}
      (inside : Contains whole (.gate kind operands)) (mem : part ∈ operands) :
      Contains whole part

namespace CircuitTree

mutual

/-- The shape of a tree. -/
def shape : CircuitTree → Shape
  | .input name => .input name
  | .constant value _ => .gate (if value then .vcc else .gnd) []
  | .gate id children => .gate id.kind (shapes children)

/-- The shapes of several trees. -/
def shapes : List CircuitTree → List Shape
  | [] => []
  | child :: rest => child.shape :: shapes rest

end

end CircuitTree

namespace Circuit

variable (circuit : Circuit) (standIn? : Gate → Option Node)

/-- `circuit.ShapeVia standIn? node shape` says that a node has a shape if every
gate with a stand-in is passed over for it. -/
inductive ShapeVia : Node → Shape → Prop
  | input {name : String} : ShapeVia (.input name) (.input name)
  | passed {id : GateId} {gate : Gate} {standIn : Node} {shape : Shape}
      (found : circuit.gate? id = some gate) (passes : standIn? gate = some standIn)
      (via : ShapeVia standIn shape) : ShapeVia (.gate id) shape
  | kept {id : GateId} {gate : Gate} {shapes : List Shape}
      (found : circuit.gate? id = some gate) (keeps : standIn? gate = none)
      (length_eq : gate.operands.length = shapes.length)
      (operands : ∀ (position : Nat) (operand : Node) (shape : Shape),
        gate.operands[position]? = some operand → shapes[position]? = some shape →
          ShapeVia operand shape) :
      ShapeVia (.gate id) (.gate gate.kind shapes)

/-- The shape of a node. -/
abbrev HasShape : Node → Shape → Prop :=
  circuit.ShapeVia fun _ => none

/-- The shapes that occur in the outputs if gates with stand-ins are passed over. -/
def OccursVia (shape : Shape) : Prop :=
  ∃ output ∈ circuit.outputs, ∃ whole, circuit.ShapeVia standIn? output.2 whole ∧
    whole.Contains shape

/-- The shapes that occur in the outputs. -/
abbrev Occurs : Shape → Prop :=
  circuit.OccursVia fun _ => none

end Circuit

end Switching
