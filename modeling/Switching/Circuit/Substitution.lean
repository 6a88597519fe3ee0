import Switching.Circuit.Assembly

/-!
# Substituting gates

A substitution walks the cone of every output, operands first, and replaces
each gate once.  A rule says what to put in the place of a gate over operands
that have been replaced already, or names a node of the given circuit that
stands for the gate outright.  Gates that no output reaches are not visited.
-/

namespace Switching

/-- What a substitution does with the gates it meets. -/
structure SubstitutionRule where
  /-- A node of the given circuit by which a gate may be replaced outright. -/
  bypass? : Circuit → Gate → Option Node
  /-- The replacement of a gate over replaced operands. -/
  replace : GateKind → List Node → AssemblyM Node

namespace SubstitutionRule

/-- The gates replaced so far, with their replacements. -/
abbrev Replaced := List (GateId × Node)

/-- Construction with the replacements at hand. -/
abbrev SubstitutionM := StateT Replaced AssemblyM

/-- Replace a node whose cone is at most `depth` gates deep. -/
def substituteNode (rule : SubstitutionRule) (circuit : Circuit) :
    Nat → Node → SubstitutionM Node
  | _, .input name => return .input name
  | 0, .gate id => throw (.unknownNode id.text)
  | depth + 1, .gate id => do
      match (← get).lookup id with
      | some node => return node
      | none =>
          match circuit.gate? id with
          | none => throw (.unknownNode id.text)
          | some gate =>
              let node ←
                match rule.bypass? circuit gate with
                | some standIn => substituteNode rule circuit depth standIn
                | none => do
                    let operands ← gate.operands.mapM (substituteNode rule circuit depth)
                    rule.replace gate.kind operands
              modify ((id, node) :: ·)
              return node

/-- Replace the nodes of outputs and bind the outputs to the results. -/
def substituteOutputs (rule : SubstitutionRule) (circuit : Circuit) :
    List (String × Node) → SubstitutionM Unit
  | [] => return
  | (name, node) :: rest => do
      let replaced ← substituteNode rule circuit circuit.gateCount node
      AssemblyM.setOutput name replaced
      substituteOutputs rule circuit rest

/-- Carry out a rule on a circuit.  The result has the same inputs and outputs
in the same orders; no cone is deeper than the number of gates. -/
def substitute (rule : SubstitutionRule) (circuit : Circuit) :
    Except SynthesisError Circuit := do
  let start := Assembly.addInputs ∅ circuit.inputs
  let (_, finished) ← (rule.substituteOutputs circuit circuit.outputs |>.run []).run start
  return finished.circuit

end SubstitutionRule

end Switching
