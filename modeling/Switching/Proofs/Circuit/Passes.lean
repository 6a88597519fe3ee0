import Switching.Proofs.Circuit.Construction
import Switching.Proofs.Circuit.Mapping

/-!
# Passes preserve circuits

The two universal mappings, the mappings onto gate sets and the removal of
double negations are passes: substitutions along a sound rule.  Whenever a pass
over a constructed circuit succeeds, the result has the same interface and
computes the same list of outputs.
-/

namespace Switching

/-- The passes over circuits. -/
inductive Pass
  | nand
  | nor
  | gateSet (gates : GateSet)
  | negations

namespace Pass

/-- Carry out a pass. -/
def run (circuit : Circuit) : Pass → Except SynthesisError Circuit
  | .nand => circuit.toNand
  | .nor => circuit.toNor
  | .gateSet gates => circuit.toGateSet gates
  | .negations => circuit.collapseNegations

/-- The substitution rule of a pass. -/
def rule : Pass → SubstitutionRule
  | .nand => UniversalGate.nand.rule
  | .nor => UniversalGate.nor.rule
  | .gateSet gates => gates.rule
  | .negations => Circuit.doubleNegationRule

variable {circuit result : Circuit}

theorem run_eq_substitute (circuit : Circuit) (pass : Pass) :
    pass.run circuit = pass.rule.substitute circuit := by
  cases pass <;> rfl

/-- The rule of every pass is sound, if any error may be reported. -/
theorem sound_rule (wellFormed : circuit.WellFormed) (pass : Pass) :
    pass.rule.Sound circuit (fun _ => True) fun _ => True := by
  have closed := circuit.operandClosed_true
  cases pass with
  | nand => exact UniversalGate.lawful_nand.sound closed fun _ _ _ _ => .inr trivial
  | nor => exact UniversalGate.lawful_nor.sound closed fun _ _ _ _ => .inr trivial
  | gateSet gates =>
      have covers : gates.Covers fun _ => True := ⟨.inr trivial, .inr trivial, .inr trivial⟩
      exact covers.sound closed
  | negations => exact Circuit.sound_doubleNegationRule wellFormed closed

/-- The result of a pass over a well-formed circuit refines the circuit. -/
theorem refines_of_run_eq_ok (wellFormed : circuit.WellFormed) (pass : Pass)
    (ran : pass.run circuit = .ok result) : result.Refines circuit := by
  rw [run_eq_substitute] at ran
  exact (pass.sound_rule wellFormed).refines_of_eq_ok wellFormed ran

/-- The result of a pass over a constructed circuit has the same inputs and the
same names of outputs, in the same orders.  Wherever all inputs are assigned,
it evaluates to the same list of outputs. -/
theorem evaluate_eq_of_run_eq_ok (assembled : circuit.Assembled) (pass : Pass)
    (ran : pass.run circuit = .ok result) :
    result.inputs = circuit.inputs ∧
      result.outputs.map Prod.fst = circuit.outputs.map Prod.fst ∧
      ∀ assignment : Assignment, assignment.Assigns circuit.inputs →
        ∃ values, circuit.evaluate assignment = .ok values ∧
          result.evaluate assignment = .ok values := by
  have wellFormed := assembled.wellFormed
  rw [run_eq_substitute] at ran
  exact (pass.sound_rule wellFormed).evaluate_eq_of_eq_ok wellFormed ran

/-- The steps that make a circuit with a gate over three operands, two gates
over the same operands, a gate without use and an output that is bound to an
input. -/
def paritySteps : List Assembly.Step :=
  [.addInput "a", .addInput "b", .addInput "c",
    .addGate .xnor [.input "a", .input "b", .input "c"],
    .addGate .not [.gate ⟨.xnor, 0⟩],
    .addGate .not [.gate ⟨.xnor, 0⟩],
    .addGate .nor [.gate ⟨.not, 1⟩, .gate ⟨.not, 2⟩],
    .addGate .buf [.input "c"],
    .setOutput "odd" (.gate ⟨.not, 1⟩), .setOutput "even" (.gate ⟨.nor, 3⟩),
    .setOutput "same" (.input "a")]

theorem parity_evaluate_eq : ∃ result,
    (gateSet .nandOnly).run (Assembly.steps ∅ paritySteps).circuit = .ok result ∧
      (result.inputs = (Assembly.steps ∅ paritySteps).circuit.inputs ∧
        result.outputs.map Prod.fst =
          (Assembly.steps ∅ paritySteps).circuit.outputs.map Prod.fst ∧
        ∀ assignment : Assignment,
          assignment.Assigns (Assembly.steps ∅ paritySteps).circuit.inputs →
            ∃ values, (Assembly.steps ∅ paritySteps).circuit.evaluate assignment = .ok values ∧
              result.evaluate assignment = .ok values) := by
  have succeeds :
      ((gateSet .nandOnly).run (Assembly.steps ∅ paritySteps).circuit).isOk = true := by
    decide +kernel
  cases ran : (gateSet .nandOnly).run (Assembly.steps ∅ paritySteps).circuit with
  | error error =>
      rw [ran] at succeeds
      cases succeeds
  | ok result => exact ⟨result, rfl, evaluate_eq_of_run_eq_ok ⟨paritySteps, rfl⟩ _ ran⟩

end Pass

end Switching
