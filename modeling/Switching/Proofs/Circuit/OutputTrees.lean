import Switching.Proofs.Circuit.Lowering
import Switching.Proofs.Circuit.Passes
import Switching.Proofs.Circuit.WrittenTrees

/-!
# Trees of circuits

Every node of a well-formed circuit unfolds into a tree over the inputs, which
has the value of the node.  So the text of an output, if it is not nested too
deeply, is read as an expression that computes the output.  This holds for all
circuits that can be obtained: those that are constructed, those of expressions,
and what passes make of them.
-/

namespace Switching

namespace Circuit

variable {circuit : Circuit} {assignment : Assignment}

/-- The circuits that construction, lowering and passes give. -/
inductive Obtained : Circuit → Prop
  | assembled {circuit : Circuit} (assembled : circuit.Assembled) : Obtained circuit
  | lowered {outputs : List (String × Expr)} {circuit : Circuit}
      (lowered : ofExprs outputs = .ok circuit) : Obtained circuit
  | passed {circuit result : Circuit} {pass : Pass} (obtained : Obtained circuit)
      (ran : pass.run circuit = .ok result) : Obtained result

theorem Obtained.wellFormed (obtained : circuit.Obtained) : circuit.WellFormed := by
  induction obtained with
  | assembled assembled => exact assembled.wellFormed
  | @lowered outputs circuit lowered =>
      obtain ⟨other, other_eq, wellFormed, -⟩ := exists_ofExprs outputs
      cases lowered.symm.trans other_eq
      exact wellFormed
  | passed _ ran wellFormed => exact (Pass.refines_of_run_eq_ok wellFormed _ ran).wellFormed

/-! ## Unfolding -/

/-- A tree over the inputs that has the values of a node. -/
structure Unfolds (circuit : Circuit) (node : Node) (tree : CircuitTree) : Prop where
  fits : tree.Fits circuit.inputs
  denote_eq : ∀ (assignment : Assignment) (value : Bool),
    circuit.HasValue assignment node value → tree.denote assignment.valuation = value

theorem unfolds_input {name : String} (mem : name ∈ circuit.inputs) :
    circuit.Unfolds (.input name) (.input name) where
  fits := .input mem
  denote_eq assignment value hasValue := by
    rw [hasValue_input_iff] at hasValue
    rw [CircuitTree.denote, Assignment.valuation, hasValue, Option.getD_some]

/-- The trees of nodes have the values of the nodes. -/
theorem denoteAll_eq_of_unfolds {nodes : List Node} {trees : List CircuitTree}
    {values : List Bool} (unfold : List.Forall₂ circuit.Unfolds nodes trees)
    (haveValues : List.Forall₂ (circuit.HasValue assignment) nodes values) :
    CircuitTree.denoteAll assignment.valuation trees = values := by
  induction unfold generalizing values with
  | nil =>
      cases haveValues
      rfl
  | cons unfolds _ ih =>
      cases haveValues with
      | cons hasValue rest =>
          rw [CircuitTree.denoteAll, unfolds.denote_eq assignment _ hasValue, ih rest]

theorem forall_fits_of_unfolds {nodes : List Node} {trees : List CircuitTree}
    (unfold : List.Forall₂ circuit.Unfolds nodes trees) :
    ∀ tree ∈ trees, tree.Fits circuit.inputs := by
  induction unfold with
  | nil => nofun
  | cons unfolds _ ih => exact List.forall_mem_cons.mpr ⟨unfolds.fits, ih⟩

theorem kind_eq_of_gate? {id : GateId} {gate : Gate} (found : circuit.gate? id = some gate) :
    gate.kind = id.kind := by
  rw [Gate.kind, ((circuit.gate?_eq_some_iff).mp found).2]

/-- The tree of a gate has the value of the gate. -/
theorem unfolds_gate (wellFormed : circuit.WellFormed) {id : GateId} {gate : Gate}
    {children : List CircuitTree} (found : circuit.gate? id = some gate)
    (unfold : List.Forall₂ circuit.Unfolds gate.operands children) :
    circuit.Unfolds (.gate id) (.gate id children) where
  fits := by
    refine .gate ?_ (forall_fits_of_unfolds unfold)
    rw [← kind_eq_of_gate? found, ← unfold.length_eq]
    exact wellFormed.accepts_of_gate? found
  denote_eq assignment value hasValue := by
    obtain ⟨other, values, otherFound, haveValues, rfl⟩ := hasValue_gate_iff.mp hasValue
    cases found.symm.trans otherFound
    rw [CircuitTree.denote, denoteAll_eq_of_unfolds unfold haveValues, kind_eq_of_gate? found]

/-- A constant gate has its value. -/
theorem unfolds_constant {id : GateId} {gate : Gate} {value : Bool}
    (found : circuit.gate? id = some gate) (applies : ∀ values, gate.kind.apply values = value) :
    circuit.Unfolds (.gate id) (.constant value id) where
  fits := .constant
  denote_eq assignment result hasValue := by
    obtain ⟨other, values, otherFound, -, rfl⟩ := hasValue_gate_iff.mp hasValue
    cases found.symm.trans otherFound
    rw [CircuitTree.denote, applies]

/-- Every node of a well-formed circuit unfolds, however large its number. -/
theorem exists_treeWithin (wellFormed : circuit.WellFormed) {depth : Nat} {node : Node}
    (before : circuit.NodeBefore depth node) :
    ∃ tree, circuit.treeWithin depth node = .ok tree ∧ circuit.Unfolds node tree := by
  -- Operands stand before their gate, so the depth that is left suffices for them.
  induction depth generalizing node with
  | zero =>
      cases node with
      | input name => exact ⟨.input name, by rw [treeWithin], unfolds_input before⟩
      | gate id => exact absurd before.1 (Nat.not_lt_zero _)
  | succ depth ih =>
      cases node with
      | input name => exact ⟨.input name, by rw [treeWithin], unfolds_input before⟩
      | gate id =>
          obtain ⟨serial_lt, gate, found⟩ := before
          have operandsBefore : ∀ node ∈ gate.operands, circuit.NodeBefore depth node :=
            fun node mem => (wellFormed.nodeBefore_of_gate? found mem).mono
              (Nat.le_of_lt_succ serial_lt)
          obtain ⟨children, children_eq, unfold⟩ :=
            exists_mapM_eq_ok fun node mem => ih (operandsBefore node mem)
          rw [treeWithin, found]
          dsimp only
          split
          · rename_i kind_eq
            exact ⟨_, rfl, unfolds_constant found fun _ => by rw [kind_eq, GateKind.apply]⟩
          · rename_i kind_eq
            exact ⟨_, rfl, unfolds_constant found fun _ => by rw [kind_eq, GateKind.apply]⟩
          · refine ⟨.gate id children, ?_, unfolds_gate wellFormed found unfold⟩
            rw [children_eq]
            rfl

/-! ## Outputs -/

/-- All outputs of a well-formed circuit unfold. -/
theorem exists_outputTrees (wellFormed : circuit.WellFormed) :
    ∃ trees, circuit.outputTrees = .ok trees ∧
      List.Forall₂ (fun output tree => output.1 = tree.1 ∧ circuit.Unfolds output.2 tree.2)
        circuit.outputs trees := by
  refine exists_mapM_eq_ok fun output mem => ?_
  obtain ⟨tree, tree_eq, unfolds⟩ :=
    exists_treeWithin wellFormed (wellFormed.outputs_bound output mem)
  refine ⟨(output.1, tree), ?_, rfl, unfolds⟩
  have unfolded : circuit.tree output.2 = .ok tree := tree_eq
  dsimp only
  rw [unfolded]
  rfl

theorem WellFormed.output?_eq_some (wellFormed : circuit.WellFormed) {output : String × Node}
    (mem : output ∈ circuit.outputs) : circuit.output? output.1 = some output.2 :=
  lookup_eq_some_of_mem wellFormed.outputs_nodup mem

/-- The text of an output is read as an expression that computes the output. -/
theorem render_outputTrees (obtained : circuit.Obtained)
    (named : ∀ name ∈ circuit.inputs, IsName name) :
    ∃ trees, circuit.outputTrees = .ok trees ∧
      trees.map Prod.fst = circuit.outputs.map Prod.fst ∧
      ∀ output ∈ trees, (∀ point ∈ output.2.points, point.2 ≤ maxNesting) →
        ∃ expr, parse output.2.render = .ok expr ∧
          ∀ assignment : Assignment, assignment.Assigns circuit.inputs →
            ∃ value, expr.evaluate assignment = .ok value ∧
              circuit.evaluateOutput output.1 assignment = .ok value := by
  have wellFormed := obtained.wellFormed
  obtain ⟨trees, trees_eq, unfold⟩ := exists_outputTrees wellFormed
  refine ⟨trees, trees_eq, ?_, ?_⟩
  · have names_eq : List.Forall₂ (· = ·) (trees.map Prod.fst) (circuit.outputs.map Prod.fst) := by
      rw [List.forall₂_map_left_iff, List.forall₂_map_right_iff]
      exact (unfold.imp fun _ _ both => both.1.symm).flip
    rwa [List.forall₂_eq_eq_eq] at names_eq
  · intro output mem bounded
    obtain ⟨source, bound, name_eq, unfolds⟩ := exists_mem_of_forall₂ unfold mem
    obtain ⟨expr, parsed, declared, denote_eq⟩ :=
      unfolds.fits.exists_parse_render named bounded
    refine ⟨expr, parsed, fun assignment assigns => ?_⟩
    obtain ⟨value, carries⟩ := wellFormed.exists_carries assigns
      (wellFormed.outputs_bound source bound).contains
    refine ⟨value, ?_, ?_⟩
    · have assigned : assignment.Assigns expr.occurrences := fun name occurs =>
        assigns name (declared name occurs)
      rw [Expr.evaluate_eq_ok assigned, denote_eq, unfolds.denote_eq assignment value carries.2]
    · rw [← name_eq]
      exact wellFormed.evaluateOutput_eq_ok assigns (wellFormed.output?_eq_some bound) carries

/-- The steps that make a conjunction inside another one, and an even parity of
both and an input. -/
def chainSteps : List Assembly.Step :=
  [.addInput "a", .addInput "b", .addInput "c",
    .addGate .and [.input "b", .input "c"],
    .addGate .and [.input "a", .gate ⟨.and, 0⟩],
    .addGate .xnor [.gate ⟨.and, 1⟩, .input "b", .gate ⟨.and, 0⟩],
    .setOutput "even" (.gate ⟨.xnor, 2⟩)]

/-- The tree of the only output. -/
def chainTree : CircuitTree :=
  .gate ⟨.xnor, 2⟩
    [.gate ⟨.and, 1⟩ [.input "a", .gate ⟨.and, 0⟩ [.input "b", .input "c"]], .input "b",
      .gate ⟨.and, 0⟩ [.input "b", .input "c"]]

/-- The inner conjunction is written without parentheses, so it is read with
another grouping. -/
theorem chainTree_render :
    (Assembly.steps ∅ chainSteps).circuit.outputTrees = .ok [("even", chainTree)] ∧
      chainTree.render = "¬(a ・ b ・ c ⊕ b ⊕ b ・ c)" ∧
      ∃ expr, parse chainTree.render = .ok expr ∧
        ∀ assignment : Assignment,
          assignment.Assigns (Assembly.steps ∅ chainSteps).circuit.inputs →
            ∃ value, expr.evaluate assignment = .ok value ∧
              (Assembly.steps ∅ chainSteps).circuit.evaluateOutput "even" assignment =
                .ok value := by
  have trees_eq :
      (Assembly.steps ∅ chainSteps).circuit.outputTrees = .ok [("even", chainTree)] := rfl
  have inputs : ∀ name ∈ (Assembly.steps ∅ chainSteps).circuit.inputs, IsName name := by
    decide +kernel
  have bounded : ∀ point ∈ chainTree.points, point.2 ≤ maxNesting := by decide +kernel
  obtain ⟨trees, other_eq, -, reads⟩ :=
    render_outputTrees (.assembled ⟨chainSteps, rfl⟩) inputs
  cases trees_eq.symm.trans other_eq
  exact ⟨trees_eq, by decide +kernel, reads _ (List.mem_singleton_self _) bounded⟩

end Circuit

end Switching
