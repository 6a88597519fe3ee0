import Switching.Proofs.Circuit.Retention

/-!
# Double negations

Removing double negations looks for them in the given circuit, once, and puts all other
gates back over what has become of their operands.  So no kind of gate becomes more
frequent.  A double negation may be left over where one that is passed over feeds a
negation of another kind, or where gates become equal; what is left over is exactly
what the shapes of the outputs show once the double negations of the given circuit are
passed over.  As long as a double negation is left, removing them again makes the
circuit smaller, so after some runs none is left.
-/

namespace Switching

/-- Whether a shape is a negation of a negation of the same kind. -/
def Shape.NegatesNegation (shape : Shape) : Prop :=
  ∃ kind operands innerOperands, shape = .gate kind operands ∧ kind.negates = true ∧
    (∀ operand ∈ operands, operand = .gate kind innerOperands) ∧
    ∀ first ∈ innerOperands, ∀ second ∈ innerOperands, first = second

theorem GateKind.negates_iff {kind : GateKind} :
    kind.negates = true ↔ kind = .not ∨ kind = .nand ∨ kind = .nor := by
  cases kind <;> decide

/-- The only node of a list is a member of it to which all members are equal. -/
theorem commonNode?_eq_some_iff {nodes : List Node} {node : Node} :
    commonNode? nodes = some node ↔ nodes ≠ [] ∧ ∀ member ∈ nodes, member = node := by
  cases nodes with
  | nil => simp [commonNode?]
  | cons first rest =>
      simp only [commonNode?, Option.ite_none_right_eq_some, List.all_eq_true, decide_eq_true_eq,
        Option.some.injEq, ne_eq, reduceCtorEq, not_false_eq_true, true_and,
        List.forall_mem_cons]
      constructor
      · rintro ⟨same, rfl⟩
        exact ⟨rfl, same⟩
      · rintro ⟨rfl, same⟩
        exact ⟨same, rfl⟩

namespace Circuit

variable {circuit result : Circuit} {gate : Gate}

/-! ## Gates that negate negations -/

/-- A gate negates a negation if it is of kind `not`, `nand` or `nor` and all its operands
are one gate of the same kind, the operands of which are all equal. -/
def NegatesNegation (circuit : Circuit) (gate : Gate) : Prop :=
  gate.kind.negates = true ∧ ∃ inner ∈ circuit.gates, inner.kind = gate.kind ∧
    (∀ operand ∈ gate.operands, operand = .gate inner.id) ∧
    ∀ first ∈ inner.operands, ∀ second ∈ inner.operands, first = second

/-- A circuit in which no gate negates a negation. -/
def WithoutDoubleNegations (circuit : Circuit) : Prop :=
  ∀ gate ∈ circuit.gates, ¬ circuit.NegatesNegation gate

theorem doublyNegated?_eq_some_iff {standIn : Node} :
    circuit.doublyNegated? gate = some standIn ↔
      gate.kind.negates = true ∧ ∃ node inner, commonNode? gate.operands = some node ∧
        circuit.driver? node = some inner ∧ inner.kind = gate.kind ∧
        (gate.kind ≠ .not → 2 ≤ gate.operands.length ∧ 2 ≤ inner.operands.length) ∧
        commonNode? inner.operands = some standIn := by
  cases kind_eq : gate.kind <;>
    simp [doublyNegated?, kind_eq, GateKind.negates, Option.bind_eq_some_iff, and_assoc]

/-- Negating gates have operands, and more than one if they are not of kind `not`. -/
theorem WellFormed.operands_of_negates (wellFormed : circuit.WellFormed)
    (mem : gate ∈ circuit.gates) (negates : gate.kind.negates = true) :
    gate.operands ≠ [] ∧ (gate.kind ≠ .not → 2 ≤ gate.operands.length) := by
  have accepts := wellFormed.arity_accepted gate mem
  rw [← List.length_pos_iff]
  rcases GateKind.negates_iff.mp negates with kind_eq | kind_eq | kind_eq <;>
    simp [kind_eq, GateKind.accepts] at accepts ⊢ <;> omega

/-- A gate of kind `not` has only one operand. -/
theorem WellFormed.operand_eq_of_not (wellFormed : circuit.WellFormed)
    (mem : gate ∈ circuit.gates) (kind_eq : gate.kind = .not) {first second : Node}
    (firstMem : first ∈ gate.operands) (secondMem : second ∈ gate.operands) : first = second := by
  have accepts := wellFormed.arity_accepted gate mem
  rw [kind_eq] at accepts
  rcases List.length_eq_one_iff.mp (beq_iff_eq.mp accepts) with ⟨only, operands_eq⟩
  rw [operands_eq, List.mem_singleton] at firstMem secondMem
  exact firstMem.trans secondMem.symm

/-- The double negations that are looked for are the gates that negate negations. -/
theorem WellFormed.negatesNegation_iff (wellFormed : circuit.WellFormed)
    (mem : gate ∈ circuit.gates) :
    circuit.NegatesNegation gate ↔ ∃ standIn, circuit.doublyNegated? gate = some standIn := by
  constructor
  · rintro ⟨negates, inner, innerMem, kind_eq, operands, same⟩
    rcases wellFormed.operands_of_negates mem negates with ⟨nonempty, several⟩
    rcases wellFormed.operands_of_negates innerMem (kind_eq ▸ negates) with
      ⟨innerNonempty, innerSeveral⟩
    rcases List.exists_mem_of_ne_nil _ innerNonempty with ⟨standIn, standInMem⟩
    apply Exists.intro standIn
    rw [doublyNegated?_eq_some_iff]
    exact ⟨negates, .gate inner.id, inner, commonNode?_eq_some_iff.mpr ⟨nonempty, operands⟩,
      wellFormed.gate?_of_mem innerMem, kind_eq,
      fun notNot => ⟨several notNot, innerSeveral (kind_eq ▸ notNot)⟩,
      commonNode?_eq_some_iff.mpr ⟨innerNonempty, fun member memberMem =>
        same member memberMem standIn standInMem⟩⟩
  · rintro ⟨standIn, passes⟩
    rcases doublyNegated?_eq_some_iff.mp passes with
      ⟨negates, node, inner, common, driver, kind_eq, -, innerCommon⟩
    cases node with
    | input name => cases driver
    | gate id =>
        rcases circuit.gate?_eq_some_iff.mp driver with ⟨at_position, rfl⟩
        have all := (commonNode?_eq_some_iff.mp innerCommon).2
        exact ⟨negates, inner, Array.mem_of_getElem? at_position, kind_eq,
          (commonNode?_eq_some_iff.mp common).2, fun first firstMem second secondMem =>
            (all first firstMem).trans (all second secondMem).symm⟩

/-! ## The result of removing double negations -/

/-- A double negation is passed over for a node that it negates twice. -/
theorem WellFormed.standsBack_doublyNegated? (wellFormed : circuit.WellFormed) :
    circuit.StandsBack circuit.doublyNegated? := by
  intro id gate standIn found passes
  rcases doublyNegated?_eq_some found passes with
    ⟨innerId, inner, innerMem, innerFound, standInMem, -⟩
  have innerBefore := wellFormed.nodeBefore_of_gate? found innerMem
  have standInBefore := wellFormed.nodeBefore_of_gate? innerFound standInMem
  constructor
  · exact standInBefore.mono (Nat.le_of_lt innerBefore.1)
  · exact (InCone.self.operand found innerMem).operand innerFound standInMem

theorem WellFormed.retains_doubleNegationRule (wellFormed : circuit.WellFormed) :
    doubleNegationRule.Retains circuit where
  back := wellFormed.standsBack_doublyNegated?
  replace _ _ _ := rfl

/-- Removing double negations retains all other gates. -/
theorem WellFormed.exists_collapse (wellFormed : circuit.WellFormed) :
    ∃ result, circuit.collapseNegations = .ok result ∧
      SubstitutionRule.Remainder circuit.doublyNegated? circuit result :=
  wellFormed.retains_doubleNegationRule.exists_substitute AssemblyM.gathers_share wellFormed

/-! ## Counting gates -/

/-- Removing double negations gives, of each kind, at most as many gates as there are
reachable ones. -/
theorem countOf_collapseNegations_le (assembled : circuit.Assembled) :
    ∃ result, circuit.collapseNegations = .ok result ∧
      (∀ kind, result.countOf kind ≤
        {gate | circuit.ReachableGate gate ∧ gate.kind = kind}.ncard) ∧
      result.gateCount ≤ circuit.gateCount := by
  have wellFormed := assembled.wellFormed
  rcases wellFormed.exists_collapse with ⟨result, ran, remainder⟩
  apply Exists.intro result
  apply And.intro ran
  constructor
  · intro kind
    apply (remainder.countP_le wellFormed (· == kind)).trans
    apply Set.ncard_le_ncard _ (circuit.finite_gates.subset fun gate reachable => reachable.1.1)
    rintro gate ⟨reachable, -, same⟩
    exact ⟨reachable, beq_iff_eq.mp same⟩
  · rw [wellFormed.gateCount_eq_ncard]
    apply (remainder.gateCount_le wellFormed).trans
    exact Set.ncard_le_ncard (fun gate kept => kept.1.1) circuit.finite_gates

theorem parity_countOf_collapseNegations_le : ∃ result,
    (Assembly.steps ∅ Pass.paritySteps).circuit.collapseNegations = .ok result ∧
      (∀ kind, result.countOf kind ≤
        {gate | (Assembly.steps ∅ Pass.paritySteps).circuit.ReachableGate gate ∧
          gate.kind = kind}.ncard) ∧
      result.gateCount ≤ 5 := by
  have count_eq : (Assembly.steps ∅ Pass.paritySteps).circuit.gateCount = 5 := by decide
  rw [← count_eq]
  exact countOf_collapseNegations_le ⟨Pass.paritySteps, rfl⟩

/-! ## What is left over -/

/-- Where no gate is repeated, a gate negates a negation exactly if its shape does. -/
theorem Compact.negatesNegation_iff (compact : circuit.Compact) (mem : gate ∈ circuit.gates)
    {shapes : List Shape} (haveShapes : List.Forall₂ circuit.HasShape gate.operands shapes) :
    circuit.NegatesNegation gate ↔ (Shape.gate gate.kind shapes).NegatesNegation := by
  have wellFormed := compact.wellFormed
  constructor
  · rintro ⟨negates, inner, innerMem, kind_eq, operands_eq, same⟩
    rcases wellFormed.exists_operandShapes innerMem with
      ⟨innerShapes, haveInnerShapes, innerShape⟩
    use gate.kind, shapes, innerShapes, rfl, negates
    constructor
    · intro shape shapeMem
      rcases exists_mem_of_forall₂ haveShapes shapeMem with ⟨operand, operandMem, here⟩
      rw [operands_eq operand operandMem] at here
      exact kind_eq ▸ here.unique innerShape
    · intro first firstMem second secondMem
      rcases exists_mem_of_forall₂ haveInnerShapes firstMem with ⟨left, leftMem, leftShape⟩
      rcases exists_mem_of_forall₂ haveInnerShapes secondMem with ⟨right, rightMem, rightShape⟩
      exact leftShape.unique (same left leftMem right rightMem ▸ rightShape)
  · rintro ⟨kind, operands, innerShapes, shape_eq, negates, operands_eq, same⟩
    cases shape_eq
    have each : ∀ operand ∈ gate.operands,
        circuit.HasShape operand (.gate gate.kind innerShapes) := by
      intro operand operandMem
      rcases exists_mem_of_forall₂ haveShapes.flip operandMem with ⟨shape, shapeMem, hasShape⟩
      exact operands_eq shape shapeMem ▸ hasShape
    rcases List.exists_mem_of_ne_nil _ (wellFormed.operands_of_negates mem negates).1 with
      ⟨driven, drivenMem⟩
    rcases exists_gate_of_hasShape (each driven drivenMem) with
      ⟨id, inner, rfl, found, kind_eq, haveInnerShapes⟩
    rcases circuit.gate?_eq_some_iff.mp found with ⟨at_position, rfl⟩
    apply And.intro negates
    use inner, Array.mem_of_getElem? at_position, kind_eq
    constructor
    · intro operand operandMem
      exact compact.distinct.node_eq (each operand operandMem) (each _ drivenMem)
    · intro first firstMem second secondMem
      rcases exists_mem_of_forall₂ haveInnerShapes.flip firstMem with ⟨_, leftMem, left⟩
      rcases exists_mem_of_forall₂ haveInnerShapes.flip secondMem with ⟨_, rightMem, right⟩
      exact compact.distinct.node_eq left (same _ rightMem _ leftMem ▸ right)

/-- In a circuit without repeated and unused gates, double negations are left exactly if
the shapes of the outputs show them. -/
theorem Compact.withoutDoubleNegations_iff (compact : circuit.Compact) :
    circuit.WithoutDoubleNegations ↔
      ∀ shape, circuit.Occurs shape → ¬ shape.NegatesNegation := by
  constructor
  · rintro without shape occurs ⟨kind, shapes, innerShapes, rfl, rest⟩
    rcases circuit.standsBack_none.exists_reachableGate occurs with
      ⟨gate, ⟨mem, -⟩, -, rfl, haveShapes⟩
    apply without gate mem
    exact (compact.negatesNegation_iff mem haveShapes).mpr ⟨_, _, innerShapes, rfl, rest⟩
  · intro without gate mem negatesNegation
    rcases compact.wellFormed.exists_operandShapes mem with ⟨shapes, haveShapes, hasShape⟩
    apply without _ (compact.wellFormed.occurs_of_reachable (compact.live gate mem) hasShape)
    exact (compact.negatesNegation_iff mem haveShapes).mp negatesNegation

/-- A gate that drives another one is reachable if the other one is. -/
theorem ReachableGate.of_operand {inner : Gate} {id : GateId} (wellFormed : circuit.WellFormed)
    (reachable : circuit.ReachableGate gate) (mem : .gate id ∈ gate.operands)
    (found : circuit.gate? id = some inner) : circuit.ReachableGate inner := by
  rcases reachable with ⟨gateMem, reachable⟩
  apply reachableGate_of_gate? found
  exact circuit.operandClosed_reachable _ _ (wellFormed.gate?_of_mem gateMem) reachable _ mem

/-- Where `not` is the only kind of negation, every double negation is found in the
given circuit. -/
theorem WellFormed.not_negatesNegation_of_occursVia (wellFormed : circuit.WellFormed)
    (onlyNot : ∀ gate, circuit.ReachableGate gate → gate.kind ≠ .nand ∧ gate.kind ≠ .nor)
    {shape : Shape} (occurs : circuit.OccursVia circuit.doublyNegated? shape) :
    ¬ shape.NegatesNegation := by
  rintro ⟨kind, operands, innerOperands, rfl, negates, operands_eq, -⟩
  rcases wellFormed.standsBack_doublyNegated?.exists_reachableGate occurs with
    ⟨gate, reachable, keeps, rfl, haveShapes⟩
  have isNot : ∀ other, circuit.ReachableGate other → other.kind.negates = true →
      other.kind = .not := by
    intro other otherReachable otherNegates
    rcases onlyNot other otherReachable with ⟨notNand, notNor⟩
    rcases GateKind.negates_iff.mp otherNegates with kind_eq | nand | nor
    · exact kind_eq
    · exact absurd nand notNand
    · exact absurd nor notNor
  have gateNot := isNot gate reachable negates
  rcases List.exists_mem_of_ne_nil _ (wellFormed.operands_of_negates reachable.1 negates).1 with
    ⟨driven, drivenMem⟩
  rcases exists_mem_of_forall₂ haveShapes.flip drivenMem with ⟨shape, shapeMem, via⟩
  cases operands_eq shape shapeMem
  cases driven with
  | input name => cases shapeVia_input_iff.mp via
  | gate id =>
      rcases via.exists_gate? with ⟨inner, found⟩
      have innerReachable := reachable.of_operand wellFormed drivenMem found
      -- Whether or not the inner gate is passed over, it is a negation.
      have innerNot : inner.kind = .not := by
        rcases (shapeVia_gate_iff found).mp via with ⟨standIn, passes, -⟩ | ⟨-, _, -, shape_eq⟩
        · exact isNot inner innerReachable (doublyNegated?_eq_some_iff.mp passes).1
        · rw [← (Shape.gate.inj shape_eq).1, gateNot]
      have negatesNegation : circuit.NegatesNegation gate := by
        apply And.intro negates
        use inner, innerReachable.1, innerNot.trans gateNot.symm
        constructor
        · intro operand operandMem
          rw [(circuit.gate?_eq_some_iff.mp found).2]
          exact wellFormed.operand_eq_of_not reachable.1 gateNot operandMem drivenMem
        · intro first firstMem second secondMem
          exact wellFormed.operand_eq_of_not innerReachable.1 innerNot firstMem secondMem
      rcases (wellFormed.negatesNegation_iff reachable.1).mp negatesNegation with ⟨_, passes⟩
      cases keeps.symm.trans passes

/-! ## Repeated runs -/

/-- Remove double negations several times, one time after the other. -/
def collapseTimes (circuit : Circuit) : Nat → Except SynthesisError Circuit
  | 0 => .ok circuit
  | runs + 1 => do (← circuit.collapseNegations).collapseTimes runs

/-- As long as a double negation is left, the circuit gets smaller. -/
theorem Compact.gateCount_lt (compact : circuit.Compact)
    (remainder : SubstitutionRule.Remainder circuit.doublyNegated? circuit result)
    (left : ¬ circuit.WithoutDoubleNegations) : result.gateCount < circuit.gateCount := by
  have wellFormed := compact.wellFormed
  unfold WithoutDoubleNegations at left
  push Not at left
  rcases left with ⟨gate, mem, negatesNegation⟩
  rcases (wellFormed.negatesNegation_iff mem).mp negatesNegation with ⟨standIn, passes⟩
  rw [wellFormed.gateCount_eq_ncard]
  apply (remainder.gateCount_le wellFormed).trans_lt
  apply Set.ncard_lt_ncard _ circuit.finite_gates
  apply (Set.ssubset_iff_of_subset fun other kept => kept.1.1).mpr
  use gate, mem
  rintro ⟨-, keeps⟩
  cases keeps.symm.trans passes

/-- After at most as many runs as there are gates no double negation is left. -/
theorem Compact.exists_collapseTimes (compact : circuit.Compact) :
    ∃ runs ≤ circuit.gateCount, ∃ last, circuit.collapseTimes runs = .ok last ∧
      last.WithoutDoubleNegations := by
  generalize count_eq : circuit.gateCount = count
  induction count using Nat.strongRecOn generalizing circuit with
  | ind count ih =>
      by_cases without : circuit.WithoutDoubleNegations
      · exact ⟨0, Nat.zero_le _, circuit, rfl, without⟩
      · rcases compact.wellFormed.exists_collapse with ⟨next, ran, remainder⟩
        have smaller := compact.gateCount_lt remainder without
        rcases ih next.gateCount (count_eq ▸ smaller) remainder.compact rfl with
          ⟨runs, bound, last, repeated, lastWithout⟩
        use runs + 1, by omega, last
        apply And.intro _ lastWithout
        rw [collapseTimes, ran]
        exact repeated

/-- Removing double negations leaves one exactly if the outputs show one after those of
the given circuit are passed over.  None is left where no output depends on a gate of
kind `nand` or `nor`, and none after some more runs. -/
theorem collapseNegations_withoutDoubleNegations_iff (assembled : circuit.Assembled) :
    ∃ result, circuit.collapseNegations = .ok result ∧
      (result.WithoutDoubleNegations ↔
        ∀ shape, circuit.OccursVia circuit.doublyNegated? shape → ¬ shape.NegatesNegation) ∧
      ((∀ gate, circuit.ReachableGate gate → gate.kind ≠ .nand ∧ gate.kind ≠ .nor) →
        result.WithoutDoubleNegations) ∧
      ∃ runs ≤ result.gateCount, ∃ last, result.collapseTimes runs = .ok last ∧
        last.WithoutDoubleNegations := by
  have wellFormed := assembled.wellFormed
  rcases wellFormed.exists_collapse with ⟨result, ran, remainder⟩
  have left_iff : result.WithoutDoubleNegations ↔
      ∀ shape, circuit.OccursVia circuit.doublyNegated? shape → ¬ shape.NegatesNegation := by
    rw [remainder.compact.withoutDoubleNegations_iff]
    simp only [remainder.occurs_iff wellFormed]
  use result, ran, left_iff
  constructor
  · intro onlyNot
    exact left_iff.mpr fun shape => wellFormed.not_negatesNegation_of_occursVia onlyNot
  · exact remainder.compact.exists_collapseTimes

/-- The steps that make a chain of negations in which a double negation by `nand` stands
between two gates of kind `not`. -/
def mixedSteps : List Assembly.Step :=
  [.addInput "z", .addGate .not [.input "z"],
    .addGate .nand [.gate ⟨.not, 0⟩, .gate ⟨.not, 0⟩],
    .addGate .nand [.gate ⟨.nand, 1⟩, .gate ⟨.nand, 1⟩],
    .addGate .not [.gate ⟨.nand, 2⟩], .setOutput "Y" (.gate ⟨.not, 3⟩)]

/-- The outer gate of the chain, once the gates of kind `nand` are passed over. -/
def mixedShape : Shape :=
  .gate .not [.gate .not [.input "z"]]

theorem mixedSteps_shapeVia : (Assembly.steps ∅ mixedSteps).circuit.ShapeVia
    (Assembly.steps ∅ mixedSteps).circuit.doublyNegated? (.gate ⟨.not, 3⟩) mixedShape := by
  have outer : (Assembly.steps ∅ mixedSteps).circuit.gate? ⟨.not, 3⟩ =
      some ⟨⟨.not, 3⟩, [.gate ⟨.nand, 2⟩]⟩ := by decide
  have middle : (Assembly.steps ∅ mixedSteps).circuit.gate? ⟨.nand, 2⟩ =
      some ⟨⟨.nand, 2⟩, [.gate ⟨.nand, 1⟩, .gate ⟨.nand, 1⟩]⟩ := by decide
  have inner : (Assembly.steps ∅ mixedSteps).circuit.gate? ⟨.not, 0⟩ =
      some ⟨⟨.not, 0⟩, [.input "z"]⟩ := by decide
  apply ShapeVia.of_forall₂ outer (by decide) (.cons _ .nil)
  apply ShapeVia.passed middle (by decide : _ = some (.gate ⟨.not, 0⟩))
  exact .of_forall₂ inner (by decide) (.cons .input .nil)

/-- The gates of kind `not` meet in the result, and the next run removes them. -/
theorem mixedNegations_collapseNegations : ∃ result,
    (Assembly.steps ∅ mixedSteps).circuit.collapseNegations = .ok result ∧
      ¬ result.WithoutDoubleNegations ∧
      ∃ runs ≤ result.gateCount, ∃ last, result.collapseTimes runs = .ok last ∧
        last.WithoutDoubleNegations := by
  rcases collapseNegations_withoutDoubleNegations_iff ⟨mixedSteps, rfl⟩ with
    ⟨result, ran, without_iff, -, repeated⟩
  have occurs : (Assembly.steps ∅ mixedSteps).circuit.OccursVia
      (Assembly.steps ∅ mixedSteps).circuit.doublyNegated? mixedShape :=
    ⟨("Y", .gate ⟨.not, 3⟩), by decide, mixedShape, mixedSteps_shapeVia, .self⟩
  have negatesNegation : mixedShape.NegatesNegation :=
    ⟨.not, [.gate .not [.input "z"]], [.input "z"], rfl, rfl, by simp, by simp⟩
  have left : ¬ result.WithoutDoubleNegations := fun without =>
    without_iff.mp without mixedShape occurs negatesNegation
  exact ⟨result, ran, left, repeated⟩

/-- The result for the chain: two gates of kind `not`, one after the other. -/
def mixedResult : Circuit where
  inputs := ["z"]
  gates := #[⟨⟨.not, 0⟩, [.input "z"]⟩, ⟨⟨.not, 1⟩, [.gate ⟨.not, 0⟩]⟩]
  outputs := [("Y", .gate ⟨.not, 1⟩)]

/-- One run can leave a double negation, and a second run can have some to remove. -/
theorem mixedNegations_not_withoutDoubleNegations :
    (Assembly.steps ∅ mixedSteps).circuit.Assembled ∧
      (Assembly.steps ∅ mixedSteps).circuit.collapseNegations = .ok mixedResult ∧
      ¬ mixedResult.WithoutDoubleNegations ∧
      mixedResult.gateCount = 2 ∧
      mixedResult.collapseNegations.map gateCount = .ok 0 := by
  have ran : (Assembly.steps ∅ mixedSteps).circuit.collapseNegations = .ok mixedResult := by
    decide +kernel
  have left : ¬ mixedResult.WithoutDoubleNegations := by
    intro without
    apply without ⟨⟨.not, 1⟩, [.gate ⟨.not, 0⟩]⟩ (by simp [mixedResult])
    exact ⟨rfl, ⟨⟨.not, 0⟩, [.input "z"]⟩, by simp [mixedResult], rfl, by simp, by simp⟩
  exact ⟨⟨mixedSteps, rfl⟩, ran, left, rfl, by decide +kernel⟩

end Circuit

end Switching
