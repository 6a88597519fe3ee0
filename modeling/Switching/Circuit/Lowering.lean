import Switching.Circuit.Assembly
import Switching.Expr.Names

/-!
# Circuits of expressions

Named expressions are turned into one circuit.  Every subexpression has a
structural key, in which the operands of a connective are ordered by their own
keys, and subexpressions of equal keys share a gate, within an output and
across outputs.
-/

namespace Switching

/-- The kind of gate that computes a connective. -/
def Connective.gateKind : Connective → GateKind
  | .and => .and
  | .or => .or
  | .xor => .xor

/-- The gate of a connective computes the connective. -/
@[simp]
theorem Connective.apply_gateKind (op : Connective) (left right : Bool) :
    op.gateKind.apply [left, right] = op.apply left right := by
  cases op <;> cases left <;> cases right <;> rfl

namespace Lowering

/-- A node with the structural key of what it computes. -/
structure Keyed where
  key : String
  node : Node
  deriving DecidableEq, Repr

/-- The gates made so far, under their structural keys. -/
abbrev Shared := List (String × Node)

/-- Construction with the shared gates at hand. -/
abbrev LowerM := StateT Shared AssemblyM

/-- The gate of the given key, which is made if the key is new. -/
def intern (key : String) (kind : GateKind) (operands : List Node) : LowerM Keyed := do
  match (← get).lookup key with
  | some node => return ⟨key, node⟩
  | none =>
      let node ← AssemblyM.addGate kind operands
      modify ((key, node) :: ·)
      return ⟨key, node⟩

/-- The key of a constant. -/
def constantKey (value : Bool) : String :=
  if value then "const:true" else "const:false"

/-- The key of a variable. -/
def variableKey (name : String) : String :=
  "var:" ++ name

/-- The key of a negation. -/
def negationKey (operand : String) : String :=
  "not(" ++ operand ++ ")"

/-- The key of a connective over two keys. -/
def connectiveKey (op : Connective) (first second : String) : String :=
  op.name ++ "(" ++ first ++ "," ++ second ++ ")"

/-- The kind of gate that gives a constant. -/
def constantKind (value : Bool) : GateKind :=
  if value then .vcc else .gnd

/-- Two operands in ascending order of their keys. -/
def ordered (left right : Keyed) : Keyed × Keyed :=
  if left.key ≤ right.key then (left, right) else (right, left)

/-- The node of an expression, with its key. -/
def lower : Expr → LowerM Keyed
  | .constant value => intern (constantKey value) (constantKind value) []
  | .var name => return ⟨variableKey name, .input name⟩
  | .not operand => do
      let inner ← lower operand
      intern (negationKey inner.key) .not [inner.node]
  | .binary op left right => do
      let leftOperand ← lower left
      let rightOperand ← lower right
      let (first, second) := ordered leftOperand rightOperand
      intern (connectiveKey op first.key second.key) op.gateKind [first.node, second.node]

/-- Make the nodes of named expressions and bind the outputs to them. -/
def lowerOutputs : List (String × Expr) → LowerM Unit
  | [] => return
  | (name, expr) :: rest => do
      let lowered ← lower expr
      AssemblyM.setOutput name lowered.node
      lowerOutputs rest

end Lowering

/-- The circuit of named expressions.  Its inputs are the variables in
ascending order; of expressions under one name the last one counts. -/
def Circuit.ofExprs (outputs : List (String × Expr)) : Except SynthesisError Circuit := do
  let start := Assembly.addInputs ∅ (Expr.sortedVarsOf (outputs.map Prod.snd))
  let (_, finished) ← (Lowering.lowerOutputs outputs |>.run []).run start
  return finished.circuit

end Switching
