import Switching.Proofs.Circuit.Assembly

/-!
# Constructed circuits

A construction step that succeeds keeps an assembly well formed, and one that
fails leaves no assembly at all.  So every circuit that a sequence of steps can
make is well formed, whichever of the steps fail.
-/

namespace Switching

/-- Nodes stay where they are as more inputs are declared. -/
theorem Circuit.NodeBefore.withInputs {circuit : Circuit} {inputs : List String}
    (declared : ∀ name ∈ circuit.inputs, name ∈ inputs) {position : Nat} {node : Node}
    (before : circuit.NodeBefore position node) :
    { circuit with inputs }.NodeBefore position node := by
  cases node with
  | input name => exact declared name before
  | gate id => exact before

namespace Assembly

variable {assembly next : Assembly} {kind : GateKind} {operands : List Node} {node : Node}

/-! ## Steps that succeed -/

theorem checkNode_eq_ok_iff :
    assembly.checkNode node = .ok () ↔ assembly.circuit.contains node = true := by
  unfold checkNode
  split <;> simp_all

theorem forM_checkNode_eq_ok_iff :
    operands.forM assembly.checkNode = .ok () ↔
      ∀ node ∈ operands, assembly.circuit.contains node = true := by
  induction operands with
  | nil => simp [pure, Except.pure]
  | cons first rest ih =>
      rw [List.forall_mem_cons, ← ih, ← checkNode_eq_ok_iff]
      change (do assembly.checkNode first; rest.forM assembly.checkNode) = .ok () ↔ _
      cases assembly.checkNode first <;> simp [bind, Except.bind]

/-- A gate is added exactly if its kind accepts the number of its operands and
all of them exist. -/
theorem addGate_eq_ok_iff {made : Node × Assembly} :
    assembly.addGate kind operands = .ok made ↔
      kind.accepts operands.length = true ∧
        (∀ node ∈ operands, assembly.circuit.contains node = true) ∧
        made = (.gate (assembly.nextId kind), assembly.withGate kind operands) := by
  constructor
  · intro added
    by_cases accepts : kind.accepts operands.length = true
    · by_cases contained : ∀ node ∈ operands, assembly.circuit.contains node = true
      · rw [addGate_eq_ok accepts contained] at added
        exact ⟨accepts, contained, (Except.ok.inj added).symm⟩
      · rw [addGate, if_pos accepts] at added
        cases checked : operands.forM assembly.checkNode with
        | error error =>
            rw [checked] at added
            cases added
        | ok => exact absurd (forM_checkNode_eq_ok_iff.mp checked) contained
    · rw [addGate, if_neg accepts] at added
      cases added
  · rintro ⟨accepts, contained, rfl⟩
    exact addGate_eq_ok accepts contained

/-- An output is bound exactly if its node exists. -/
theorem setOutput_eq_ok_iff {name : String} :
    assembly.setOutput name node = .ok next ↔
      assembly.circuit.contains node = true ∧ next = assembly.withOutput name node := by
  constructor
  · intro bound
    by_cases contained : assembly.circuit.contains node = true
    · rw [setOutput_eq_ok contained] at bound
      exact ⟨contained, (Except.ok.inj bound).symm⟩
    · rw [setOutput, checkNode, if_neg contained] at bound
      cases bound
  · rintro ⟨contained, rfl⟩
    exact setOutput_eq_ok contained

/-! ## Invariants -/

theorem wellFormed_empty : (∅ : Assembly).WellFormed :=
  wellFormed_ofInputs .nil

theorem wellFormed_addInput (wellFormed : assembly.WellFormed) (name : String) :
    (assembly.addInput name).WellFormed := by
  by_cases declared : assembly.circuit.inputs.contains name = true
  · rw [addInput, if_pos declared]
    exact wellFormed
  · rw [addInput, if_neg declared]
    have fresh : name ∉ assembly.circuit.inputs := fun mem =>
      declared (List.contains_iff_mem.mpr mem)
    have kept : ∀ other ∈ assembly.circuit.inputs, other ∈ assembly.circuit.inputs ++ [name] :=
      fun _ mem => List.mem_append_left _ mem
    have circuit := wellFormed.circuit
    exact {
      circuit := {
        inputs_nodup := List.nodup_append.mpr ⟨circuit.inputs_nodup, List.pairwise_singleton _ name,
          fun _ mem _ last same => fresh (List.mem_singleton.mp last ▸ same ▸ mem)⟩
        serial_eq := circuit.serial_eq
        arity_accepted := circuit.arity_accepted
        operands_before := fun position gate at_position operand mem =>
          (circuit.operands_before position gate at_position operand mem).withInputs kept
        outputs_nodup := circuit.outputs_nodup
        outputs_bound := fun output mem => (circuit.outputs_bound output mem).withInputs kept }
      nextSerial_eq := wellFormed.nextSerial_eq }

/-- A step that succeeds keeps an assembly well formed. -/
theorem wellFormed_step (wellFormed : assembly.WellFormed) {step : Step}
    (stepped : assembly.step step = .ok next) : next.WellFormed := by
  cases step with
  | addInput name =>
      cases stepped
      exact wellFormed_addInput wellFormed name
  | addGate kind operands =>
      simp only [Assembly.step] at stepped
      cases added : assembly.addGate kind operands with
      | error error =>
          rw [added] at stepped
          cases stepped
      | ok made =>
          rw [added] at stepped
          cases stepped
          obtain ⟨accepts, contained, rfl⟩ := addGate_eq_ok_iff.mp added
          exact (grows_withGate wellFormed accepts contained).wellFormed
  | setOutput name node =>
      obtain ⟨contained, rfl⟩ := setOutput_eq_ok_iff.mp stepped
      exact wellFormed_withOutput wellFormed contained
  | reset =>
      cases stepped
      exact wellFormed_empty

/-- Any sequence of steps keeps an assembly well formed. -/
theorem wellFormed_steps (wellFormed : assembly.WellFormed) (sequence : List Step) :
    (assembly.steps sequence).WellFormed := by
  induction sequence generalizing assembly with
  | nil => exact wellFormed
  | cons step rest ih =>
      unfold steps
      split
      · rename_i next stepped
        exact ih (wellFormed_step wellFormed stepped)
      · exact ih wellFormed

end Assembly

/-- The circuits that construction steps can make are well formed. -/
theorem Circuit.Assembled.wellFormed {circuit : Circuit} (assembled : circuit.Assembled) :
    circuit.WellFormed := by
  obtain ⟨sequence, rfl⟩ := assembled
  exact (Assembly.wellFormed_steps Assembly.wellFormed_empty sequence).circuit

end Switching
