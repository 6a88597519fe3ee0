import Switching.Circuit.Basic
import Switching.Circuit.Error
import Switching.Expr.Printer

/-!
# Trees of circuit outputs

Every output of a circuit unfolds into a tree, in which a shared gate occurs
at each of its references.  A tree is written in the notation of expressions,
with spaces around the connectives; `nand`, `nor` and `xnor` are written as
negated terms.
-/

namespace Switching

/-- The unfolding of a node. -/
inductive CircuitTree
  | gate (id : GateId) (children : List CircuitTree)
  | input (name : String)
  | constant (value : Bool) (id : GateId)
  deriving Repr, Inhabited

namespace CircuitTree

/-- Inputs and constants need no parentheses anywhere. -/
def isAtom : CircuitTree → Bool
  | .gate _ _ => false
  | _ => true

/-- The precedence of atoms and negations. -/
def atomPrecedence : Nat := 4

/-- How tightly a written tree binds. -/
def precedence : CircuitTree → Nat
  | .gate id _ =>
      match id.kind with
      | .or => Connective.or.precedence
      | .xor => Connective.xor.precedence
      | .and => Connective.and.precedence
      | _ => atomPrecedence
  | _ => atomPrecedence

/-- How the operands of a gate are joined: the text between them, and the
precedence that each of them requires. -/
def joining : GateKind → String × Nat
  | .and | .nand => (" ・ ", Connective.and.precedence)
  | .or | .nor => (" + ", Connective.or.precedence)
  | .xor | .xnor => (" ⊕ ", Connective.xor.precedence)
  | .buf => ("", atomPrecedence)
  | .not | .vcc | .gnd => ("", 0)

/-- Put a text between parentheses. -/
def parenthesize (text : String) : String :=
  "(" ++ text ++ ")"

/-- Whether a list consists of a single atom. -/
def isSingleAtom : List CircuitTree → Bool
  | [child] => child.isAtom
  | _ => false

/-- The text of a gate, given its joined operands. -/
def decorate (kind : GateKind) (children : List CircuitTree) (joined : String) : String :=
  match kind with
  | .and | .or | .xor | .buf => joined
  | .nand | .nor | .xnor => "¬" ++ parenthesize joined
  | .not => if isSingleAtom children then "¬" ++ joined else "¬" ++ parenthesize joined
  | .vcc => constantText true
  | .gnd => constantText false

mutual

/-- A tree as text. -/
def render : CircuitTree → String
  | .input name => name
  | .constant value _ => constantText value
  | .gate id children =>
      decorate id.kind children
        (renderJoined (joining id.kind).1 (joining id.kind).2 children)

/-- Trees as text with a separator between them, each one parenthesized where
it binds looser than `floor`. -/
def renderJoined (separator : String) (floor : Nat) : List CircuitTree → String
  | [] => ""
  | child :: rest =>
      let text := if child.precedence < floor then parenthesize child.render else child.render
      match rest with
      | [] => text
      | next :: others => text ++ separator ++ renderJoined separator floor (next :: others)

end

/-- The number of negations and parentheses that a gate writes around its
joined operands. -/
def decorationNesting (kind : GateKind) (children : List CircuitTree) : Nat :=
  match kind with
  | .and | .or | .xor | .buf | .vcc | .gnd => 0
  | .nand | .nor | .xnor => 2
  | .not => if isSingleAtom children then 1 else 2

mutual

/-- The number of parentheses and negations around the innermost point of the
text that `render` writes. -/
def writtenNesting : CircuitTree → Nat
  | .input _ => 0
  | .constant _ _ => 0
  | .gate id children =>
      decorationNesting id.kind children + joinedNesting (joining id.kind).2 children

/-- The number of parentheses and negations around the innermost point of the
text that `renderJoined` writes. -/
def joinedNesting (floor : Nat) : List CircuitTree → Nat
  | [] => 0
  | child :: rest =>
      let nesting :=
        if child.precedence < floor then child.writtenNesting + 1 else child.writtenNesting
      max nesting (joinedNesting floor rest)

end

end CircuitTree

namespace Circuit

variable (circuit : Circuit)

/-- Unfold a node whose cone is at most `depth` gates deep. -/
def treeWithin (circuit : Circuit) : Nat → Node → Except SynthesisError CircuitTree
  | _, .input name => .ok (.input name)
  | 0, .gate id => .error (.unknownNode id.text)
  | depth + 1, .gate id =>
      match circuit.gate? id with
      | none => .error (.unknownNode id.text)
      | some gate =>
          match gate.kind with
          | .vcc => .ok (.constant true id)
          | .gnd => .ok (.constant false id)
          | _ => do
              let children ← gate.operands.mapM (circuit.treeWithin depth)
              return .gate id children

/-- Unfold a node. -/
def tree (node : Node) : Except SynthesisError CircuitTree :=
  circuit.treeWithin circuit.gateCount node

/-- Unfold every output. -/
def outputTrees : Except SynthesisError (List (String × CircuitTree)) :=
  circuit.outputs.mapM fun (name, node) => do
    return (name, ← circuit.tree node)

end Circuit

end Switching
