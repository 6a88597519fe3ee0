import Switching.Circuit.Gate

/-!
# Circuits

A circuit lists its primary inputs, its gates and its named outputs.  Gates
are numbered in the order of their creation, and in a well-formed circuit the
number of a gate is its position and its operands are primary inputs or
earlier gates, so the list of gates is in topological order.
-/

namespace Switching

/-- The identity of a gate: its kind and its number. -/
structure GateId where
  kind : GateKind
  serial : Nat
  deriving DecidableEq, Repr, Inhabited

/-- The written form of a gate's identity. -/
def GateId.text (id : GateId) : String :=
  id.kind.name ++ "_" ++ toString id.serial

/-- What an operand or an output can be: a primary input or the output of a
gate. -/
inductive Node
  | input (name : String)
  | gate (id : GateId)
  deriving DecidableEq, Repr, Inhabited

/-- The written form of a node. -/
def Node.name : Node → String
  | .input name => name
  | .gate id => id.text

/-- A gate with the nodes that feed it. -/
structure Gate where
  id : GateId
  operands : List Node
  deriving DecidableEq, Repr, Inhabited

/-- The kind of a gate. -/
abbrev Gate.kind (gate : Gate) : GateKind :=
  gate.id.kind

/-- A network of gates without feedback. -/
structure Circuit where
  inputs : List String
  gates : Array Gate
  outputs : List (String × Node)
  deriving DecidableEq, Repr

namespace Circuit

instance : EmptyCollection Circuit :=
  ⟨⟨[], #[], []⟩⟩

instance : Inhabited Circuit :=
  ⟨∅⟩

variable (circuit : Circuit)

/-- The gate with the given identity, looked up at the position that its
number names. -/
def gate? (id : GateId) : Option Gate :=
  circuit.gates[id.serial]?.filter (·.id = id)

theorem gate?_eq_some_iff {id : GateId} {gate : Gate} :
    circuit.gate? id = some gate ↔ circuit.gates[id.serial]? = some gate ∧ gate.id = id := by
  simp [gate?, Option.filter_eq_some_iff]

/-- The gate that drives a node, unless the node is a primary input. -/
def driver? : Node → Option Gate
  | .input _ => none
  | .gate id => circuit.gate? id

/-- The node that an output is bound to. -/
def output? (name : String) : Option Node :=
  circuit.outputs.lookup name

/-- Whether a node is a declared input or an existing gate. -/
def contains : Node → Bool
  | .input name => circuit.inputs.contains name
  | .gate id => (circuit.gate? id).isSome

/-- The number of gates. -/
def gateCount : Nat :=
  circuit.gates.size

/-- The number of gates of one kind. -/
def countOf (kind : GateKind) : Nat :=
  circuit.gates.countP (·.kind == kind)

/-- The number of gates of each kind that occurs, in listing order. -/
def gateCounts : List (GateKind × Nat) :=
  (GateKind.all.map fun kind => (kind, circuit.countOf kind)).filter (0 < ·.2)

/-- The kinds of gate that occur, in listing order. -/
def gateKinds : List GateKind :=
  circuit.gateCounts.map Prod.fst

/-- The circuit as text: its inputs, a line per gate and a line per output. -/
def render : String :=
  let names := String.intercalate ", " circuit.inputs
  let gateLine (gate : Gate) : String :=
    gate.id.text ++ " = " ++ gate.kind.name ++
      "(" ++ String.intercalate ", " (gate.operands.map Node.name) ++ ")\n"
  let outputLine (output : String × Node) : String :=
    output.1 ++ " = " ++ output.2.name ++ "\n"
  "inputs: " ++ names ++ "\n" ++
    String.join (circuit.gates.toList.map gateLine) ++
    String.join (circuit.outputs.map outputLine)

/-- A node that is a declared input or a gate before the given position. -/
def NodeBefore (position : Nat) : Node → Prop
  | .input name => name ∈ circuit.inputs
  | .gate id => id.serial < position ∧ ∃ gate, circuit.gate? id = some gate

/-- The conditions under which a circuit is a network of numbered gates
without feedback and every output is bound to a node of it. -/
structure WellFormed : Prop where
  inputs_nodup : circuit.inputs.Nodup
  serial_eq : ∀ (position : Nat) (gate : Gate), circuit.gates[position]? = some gate →
    gate.id.serial = position
  arity_accepted : ∀ gate ∈ circuit.gates, gate.kind.accepts gate.operands.length = true
  operands_before : ∀ (position : Nat) (gate : Gate), circuit.gates[position]? = some gate →
    ∀ node ∈ gate.operands, circuit.NodeBefore position node
  outputs_nodup : (circuit.outputs.map Prod.fst).Nodup
  outputs_bound : ∀ output ∈ circuit.outputs,
    circuit.NodeBefore circuit.gates.size output.2

end Circuit

end Switching
