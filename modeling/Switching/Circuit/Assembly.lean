import Switching.Circuit.Basic
import Switching.Circuit.Error

/-!
# Assembling circuits

An assembly holds the circuit made so far and the number of the next gate.
Every step checks that the nodes it mentions exist; a step that fails gives an
error and no new assembly.
-/

namespace Switching

/-- A circuit under construction. -/
structure Assembly where
  circuit : Circuit
  nextSerial : Nat
  deriving DecidableEq, Repr

namespace Assembly

instance : EmptyCollection Assembly :=
  ⟨⟨∅, 0⟩⟩

instance : Inhabited Assembly :=
  ⟨∅⟩

/-- Declare a primary input; a name that is declared already stays as it
is. -/
def addInput (assembly : Assembly) (name : String) : Assembly :=
  if assembly.circuit.inputs.contains name then assembly
  else { assembly with
    circuit := { assembly.circuit with inputs := assembly.circuit.inputs ++ [name] } }

/-- Declare several primary inputs in order. -/
def addInputs (assembly : Assembly) (names : List String) : Assembly :=
  names.foldl addInput assembly

/-- Refuse a node that the circuit does not have. -/
def checkNode (assembly : Assembly) (node : Node) : Except SynthesisError Unit :=
  if assembly.circuit.contains node then .ok () else .error (.unknownNode node.name)

/-- Append a gate over existing nodes.  The number of operands is checked
before the operands. -/
def addGate (assembly : Assembly) (kind : GateKind) (operands : List Node) :
    Except SynthesisError (Node × Assembly) := do
  if kind.accepts operands.length then
    operands.forM assembly.checkNode
    let id : GateId := ⟨kind, assembly.nextSerial⟩
    let gates := assembly.circuit.gates.push ⟨id, operands⟩
    return (.gate id, ⟨{ assembly.circuit with gates }, assembly.nextSerial + 1⟩)
  else
    throw (.invalidArity kind operands.length)

/-- Bind a name in a list of outputs, in the place of an earlier binding of
the same name if there is one. -/
def bindOutput (name : String) (node : Node) : List (String × Node) → List (String × Node)
  | [] => [(name, node)]
  | (other, bound) :: rest =>
      if other = name then (other, node) :: rest
      else (other, bound) :: bindOutput name node rest

/-- Bind an output to an existing node. -/
def setOutput (assembly : Assembly) (name : String) (node : Node) :
    Except SynthesisError Assembly := do
  assembly.checkNode node
  let outputs := bindOutput name node assembly.circuit.outputs
  return { assembly with circuit := { assembly.circuit with outputs } }

/-- The steps of a construction. -/
inductive Step
  | addInput (name : String)
  | addGate (kind : GateKind) (operands : List Node)
  | setOutput (name : String) (node : Node)
  | reset
  deriving DecidableEq, Repr

/-- Carry out a step. -/
def step (assembly : Assembly) : Step → Except SynthesisError Assembly
  | .addInput name => .ok (assembly.addInput name)
  | .addGate kind operands => (assembly.addGate kind operands).map Prod.snd
  | .setOutput name node => assembly.setOutput name node
  | .reset => .ok ∅

/-- Carry out a sequence of steps, keeping the assembly as it is wherever a
step fails. -/
def steps (assembly : Assembly) : List Step → Assembly
  | [] => assembly
  | step :: rest =>
      match assembly.step step with
      | .ok next => next.steps rest
      | .error _ => assembly.steps rest

end Assembly

/-- The circuits that a sequence of construction steps can make. -/
def Circuit.Assembled (circuit : Circuit) : Prop :=
  ∃ steps, circuit = (Assembly.steps ∅ steps).circuit

/-- Construction with an assembly at hand, which may fail. -/
abbrev AssemblyM := StateT Assembly (Except SynthesisError)

namespace AssemblyM

/-- Append a gate. -/
def addGate (kind : GateKind) (operands : List Node) : AssemblyM Node :=
  fun assembly => assembly.addGate kind operands

/-- The gate of the given kind over the given operands: the one that the
circuit has already, or else a new one. -/
def share (kind : GateKind) (operands : List Node) : AssemblyM Node := do
  let assembly ← get
  let present := assembly.circuit.gates.find? fun gate =>
    gate.kind = kind ∧ gate.operands = operands
  match present with
  | some gate => return .gate gate.id
  | none => addGate kind operands

/-- A gate over one node taken twice, by which `nand` and `nor` negate. -/
def shareTwice (kind : GateKind) (node : Node) : AssemblyM Node :=
  share kind [node, node]

/-- Bind an output. -/
def setOutput (name : String) (node : Node) : AssemblyM Unit := fun assembly => do
  let next ← assembly.setOutput name node
  return ((), next)

end AssemblyM

end Switching
