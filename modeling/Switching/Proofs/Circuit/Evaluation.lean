import Switching.Proofs.Circuit.OutputTrees

/-!
# Evaluation of circuits that can be obtained

However a circuit came about, under any assignment it is evaluated to the values
of its outputs, or one of the inputs that it reads has no value and is reported.
Inputs that nothing reads need no value, but gates without use do read theirs.
-/

namespace Switching.Circuit

variable {circuit : Circuit} {assignment : Assignment}

/-- Where all inputs that are read are assigned, a single output is evaluated to
the value that it has among all outputs. -/
theorem WellFormed.evaluateOutput_eq_ok_of_mem (wellFormed : circuit.WellFormed)
    (assigned : ∀ name, circuit.ReadsInput name → (assignment.value? name).isSome)
    {results : List (String × Bool)}
    (outputValues : circuit.OutputValues assignment circuit.outputs results)
    {result : String × Bool} (mem : result ∈ results) :
    circuit.evaluateOutput result.1 assignment = .ok result.2 := by
  obtain ⟨output, outputMem, name_eq, hasValue⟩ := exists_mem_of_forall₂ outputValues mem
  have reads (input : String) (read : circuit.GatesRead input ∨ output.2 = .input input) :
      circuit.ReadsInput input :=
    read.imp id fun same => ⟨output, outputMem, same⟩
  rw [← name_eq]
  exact wellFormed.evaluateOutput_eq_ok_of_isSome (wellFormed.output?_eq_some outputMem)
    (wellFormed.outputs_bound output outputMem).contains
    (fun input read => assigned input (reads input read)) hasValue

/-- A circuit is evaluated exactly if all inputs that a gate reads or an output is
bound to are assigned.  The results are the values of the outputs, one by one and
together.  The only error is that one of these inputs has no value; a node that
is not known is never met. -/
theorem Obtained.evaluate_outcome (obtained : circuit.Obtained) (assignment : Assignment) :
    ((∃ results, circuit.evaluate assignment = .ok results) ↔
        ∀ name, circuit.ReadsInput name → (assignment.value? name).isSome) ∧
      (∀ results, circuit.evaluate assignment = .ok results →
        circuit.OutputValues assignment circuit.outputs results ∧
          ∀ result ∈ results, circuit.evaluateOutput result.1 assignment = .ok result.2) ∧
      (∀ error, circuit.evaluate assignment = .error error →
        ∃ name, error = .undefinedVariable name ∧ circuit.ReadsInput name ∧
          assignment.value? name = none) ∧
      ∀ id, circuit.evaluate assignment ≠ .error (.unknownNode id) := by
  have wellFormed := obtained.wellFormed
  have ends := wellFormed.endsIn_evaluate assignment
  cases evaluated : circuit.evaluate assignment with
  | ok results =>
      rw [evaluated] at ends
      obtain ⟨outputValues, assigned⟩ := ends
      refine ⟨⟨fun _ => assigned, fun _ => ⟨results, rfl⟩⟩, ?_, nofun, nofun⟩
      rintro _ ⟨⟩
      exact ⟨outputValues, fun _ => wellFormed.evaluateOutput_eq_ok_of_mem assigned outputValues⟩
  | error error =>
      rw [evaluated] at ends
      refine ⟨⟨nofun, fun assigned => ?_⟩, nofun, ?_, ?_⟩
      · exact absurd ends (Assignment.not_misses assigned error)
      · rintro _ ⟨⟩
        exact ends
      · obtain ⟨name, rfl, -⟩ := ends
        nofun

/-- The steps that make a circuit with an input that nothing reads and a gate
without use. -/
def idleSteps : List Assembly.Step :=
  [.addInput "a", .addInput "b", .addInput "c",
    .addGate .nand [.input "a", .input "a"],
    .addGate .not [.input "b"],
    .setOutput "y" (.gate ⟨.nand, 0⟩), .setOutput "a" (.input "a")]

theorem readsInput_idleSteps_iff {name : String} :
    (Assembly.steps ∅ idleSteps).circuit.ReadsInput name ↔ name = "a" ∨ name = "b" := by
  have gates_eq : (Assembly.steps ∅ idleSteps).circuit.gates =
      #[⟨⟨.nand, 0⟩, [.input "a", .input "a"]⟩, ⟨⟨.not, 1⟩, [.input "b"]⟩] := rfl
  have outputs_eq : (Assembly.steps ∅ idleSteps).circuit.outputs =
      [("y", .gate ⟨.nand, 0⟩), ("a", .input "a")] := rfl
  have same (bound : "a" = name) : name = "a" ∨ name = "b" := .inl bound.symm
  simpa [ReadsInput, gates_eq, outputs_eq] using same

/-- The input of the gate without use needs a value, the one that nothing reads
does not. -/
theorem idleSteps_evaluate_outcome :
    (Assembly.steps ∅ idleSteps).circuit.Obtained ∧
      (Assembly.steps ∅ idleSteps).circuit.evaluate
        (.ofList [("a", true), ("b", false), ("d", true)]) = .ok [("y", false), ("a", true)] ∧
      (Assembly.steps ∅ idleSteps).circuit.OutputValues
        (.ofList [("a", true), ("b", false), ("d", true)])
        (Assembly.steps ∅ idleSteps).circuit.outputs [("y", false), ("a", true)] ∧
      (Assembly.steps ∅ idleSteps).circuit.evaluate (.ofList [("a", true), ("c", true)]) =
        .error (.undefinedVariable "b") := by
  have obtained : (Assembly.steps ∅ idleSteps).circuit.Obtained := .assembled ⟨idleSteps, rfl⟩
  have evaluated : (Assembly.steps ∅ idleSteps).circuit.evaluate
      (.ofList [("a", true), ("b", false), ("d", true)]) = .ok [("y", false), ("a", true)] := rfl
  refine ⟨obtained, evaluated, ((obtained.evaluate_outcome _).2.1 _ evaluated).1, ?_⟩
  obtain ⟨succeeds_iff, -, misses, -⟩ :=
    obtained.evaluate_outcome (.ofList [("a", true), ("c", true)])
  cases outcome : (Assembly.steps ∅ idleSteps).circuit.evaluate
      (.ofList [("a", true), ("c", true)]) with
  | ok results =>
      have assigned := succeeds_iff.mp ⟨results, outcome⟩ "b"
        (readsInput_idleSteps_iff.mpr (.inr rfl))
      exact absurd assigned (by decide)
  | error error =>
      obtain ⟨name, rfl, reads, missing⟩ := misses error outcome
      rcases readsInput_idleSteps_iff.mp reads with rfl | rfl
      · exact absurd missing (by decide)
      · rfl

end Switching.Circuit
