import Switching.Proofs.Circuit.Shapes

/-!
# Rules that retain gates

A rule retains the gates of a circuit if it passes over some of them for earlier nodes
of their cones and puts every other one back as it is.  The outputs of the result then
have the shapes that the outputs of the circuit have once these gates are passed over,
so the gates of the result can be counted in the given circuit.  Where no gate is
passed over, which is so when a mapping meets its own result, nothing changes but the
numbers of the gates.
-/

namespace Switching

/-! ## Shared gates -/

/-- Sharing gives a gate of the given kind over the given operands. -/
theorem AssemblyM.ensures_share {kind : GateKind} {operands : List Node} {start : Assembly}
    {fault : SynthesisError → Prop} (wellFormed : start.WellFormed)
    (accepts : kind.accepts operands.length = true)
    (contained : ∀ node ∈ operands, start.circuit.contains node = true) :
    Ensures (share kind operands) start fault fun node next =>
      start.Grows next ∧ ∃ id gate, node = .gate id ∧ next.circuit.gate? id = some gate ∧
        gate.kind = kind ∧ gate.operands = operands := by
  apply ensures_get
  dsimp only
  split
  · rename_i gate present
    have same : gate.kind = kind ∧ gate.operands = operands := by
      simpa using Array.find?_some present
    have found := wellFormed.circuit.gate?_of_mem (Array.mem_of_find?_eq_some present)
    exact ensures_pure ⟨.refl wellFormed, gate.id, gate, rfl, found, same⟩
  · apply (ensures_addGate accepts contained).imp
    rintro _ _ ⟨rfl, rfl⟩
    exact ⟨Assembly.grows_withGate wellFormed accepts contained, _, _, rfl,
      Assembly.gate?_withGate wellFormed, rfl, rfl⟩

namespace SubstitutionRule

variable {rule : SubstitutionRule} {circuit result : Circuit} {standIn? : Gate → Option Node}

/-! ## Nodes that take shapes -/

/-- A node of the current circuit has the shape that a node of the given one has, if
gates with stand-ins are passed over. -/
def TakesShape (circuit : Circuit) (standIn? : Gate → Option Node) (current : Circuit)
    (node result : Node) : Prop :=
  current.contains result = true ∧ ∀ shape, circuit.ShapeVia standIn? node shape →
    current.HasShape result shape

/-- The shapes of operands are taken by the nodes that take their places. -/
theorem forall₂_hasShape_of_takesShape {current : Circuit} {nodes results : List Node}
    {shapes : List Shape} (takes : List.Forall₂ (TakesShape circuit standIn? current) nodes results)
    (via : List.Forall₂ (circuit.ShapeVia standIn?) nodes shapes) :
    List.Forall₂ current.HasShape results shapes := by
  induction takes generalizing shapes with
  | nil =>
      cases via
      exact .nil
  | cons take _ ih =>
      cases via with
      | cons here rest => exact .cons (take.2 _ here) (ih rest)

/-- A rule that passes over gates for earlier nodes of their cones and puts all others
back as they are. -/
structure Retains (rule : SubstitutionRule) (circuit : Circuit) : Prop where
  back : circuit.StandsBack (rule.bypass? circuit)
  replace : ∀ gate ∈ circuit.gates, ∀ operands,
    rule.replace gate.kind operands = AssemblyM.share gate.kind operands

/-- The gate that is put back has the shape of the gate. -/
theorem Retains.ensures_replace (retains : rule.Retains circuit) (wellFormed : circuit.WellFormed)
    {id : GateId} {gate : Gate} {results : List Node} {start : Assembly}
    {fault : SynthesisError → Prop} (found : circuit.gate? id = some gate)
    (keeps : rule.bypass? circuit gate = none) (startWellFormed : start.WellFormed)
    (takes : List.Forall₂ (TakesShape circuit (rule.bypass? circuit) start.circuit)
      gate.operands results) :
    AssemblyM.Ensures (rule.replace gate.kind results) start fault fun result next =>
      start.Grows next ∧
        TakesShape circuit (rule.bypass? circuit) next.circuit (.gate id) result := by
  have mem : gate ∈ circuit.gates :=
    Array.mem_of_getElem? (circuit.gate?_eq_some_iff.mp found).1
  have accepts : gate.kind.accepts results.length = true :=
    takes.length_eq ▸ wellFormed.accepts_of_gate? found
  have contained : ∀ node ∈ results, start.circuit.contains node = true := by
    intro node nodeMem
    rcases exists_mem_of_forall₂ takes nodeMem with ⟨_, _, take⟩
    exact take.1
  rw [retains.replace gate mem]
  apply (AssemblyM.ensures_share startWellFormed accepts contained).imp
  rintro _ next ⟨grown, newId, newGate, rfl, newFound, kind_eq, rfl⟩
  apply And.intro grown
  apply And.intro (Circuit.contains_of_gate? newFound)
  intro shape via
  rcases (Circuit.shapeVia_gate_iff found).mp via with ⟨_, passes, -⟩ | ⟨-, shapes, operands, rfl⟩
  · cases keeps.symm.trans passes
  · have later := (forall₂_hasShape_of_takesShape takes operands).imp
      fun _ _ => grown.extension.hasShape
    exact kind_eq ▸ .of_forall₂ newFound rfl later

/-- A rule that retains gates respects shapes. -/
theorem Retains.respects (retains : rule.Retains circuit) (wellFormed : circuit.WellFormed) :
    rule.Respects circuit (fun _ => True) (fun _ => False)
      (TakesShape circuit (rule.bypass? circuit)) where
  contained take := take.1
  stays extension take :=
    ⟨extension.contains take.1, fun shape via => extension.hasShape (take.2 shape via)⟩
  input declared :=
    ⟨List.contains_iff_mem.mpr declared, fun shape via =>
      Circuit.shapeVia_input_iff.mpr (Circuit.shapeVia_input_iff.mp via)⟩
  operands _ _ _ _ _ := trivial
  bypass found _ passes := by
    apply And.intro trivial
    apply And.intro (retains.back _ _ _ found passes).1
    intro current result take
    apply And.intro take.1
    intro shape via
    rcases (Circuit.shapeVia_gate_iff found).mp via with ⟨_, same, standInVia⟩ | ⟨keeps, -⟩
    · cases passes.symm.trans same
      exact take.2 shape standInVia
    · cases passes.symm.trans keeps
  replace found _ keeps startWellFormed takes :=
    retains.ensures_replace wellFormed found keeps startWellFormed takes

/-! ## Results -/

/-- The result of retaining the gates of a circuit that have no stand-ins. -/
structure Remainder (standIn? : Gate → Option Node) (circuit result : Circuit) : Prop where
  back : circuit.StandsBack standIn?
  compact : result.Compact
  replaces : Replaces (TakesShape circuit standIn?) circuit circuit.outputs result

/-- A rule that retains gates and gathers operands succeeds. -/
theorem Retains.exists_substitute (retains : rule.Retains circuit) (gathers : rule.Gathers)
    (wellFormed : circuit.WellFormed) :
    ∃ result, rule.substitute circuit = .ok result ∧
      Remainder (rule.bypass? circuit) circuit result := by
  rcases (retains.respects wellFormed).substitute_cases wellFormed fun _ _ => trivial with
    ⟨result, ran, resultWellFormed, replaces⟩ | ⟨_, -, impossible⟩
  · rcases gathers.substitute wellFormed ran with ⟨distinct, live⟩
    have compact : result.Compact := ⟨resultWellFormed, distinct, fun gate mem => (live gate mem).2⟩
    exact ⟨result, ran, retains.back, compact, replaces⟩
  · exact impossible.elim

namespace Remainder

/-- The outputs of the result have the shapes of the given ones. -/
theorem outputShapes (remainder : Remainder standIn? circuit result)
    {shapes : List (String × Shape)} (shaped : circuit.OutputShapes standIn? shapes) :
    result.OutputShapes (fun _ => none) shapes := by
  rcases remainder.replaces with ⟨-, bound⟩
  unfold Circuit.OutputShapes at shaped ⊢
  generalize circuit.outputs = outputs at bound shaped
  generalize result.outputs = boundOutputs at bound
  induction bound generalizing shapes with
  | nil =>
      cases shaped
      exact .nil
  | cons both _ ih =>
      cases shaped with
      | cons here rest => exact .cons ⟨both.1.symm.trans here.1, both.2.2 _ here.2⟩ (ih rest)

/-- The shapes that occur in the outputs of the result are those that occur in the
given ones. -/
theorem occurs_iff (remainder : Remainder standIn? circuit result)
    (wellFormed : circuit.WellFormed) {shape : Shape} :
    result.Occurs shape ↔ circuit.OccursVia standIn? shape := by
  have outputs := remainder.replaces.outputs
  constructor
  · rintro ⟨bound, boundMem, whole, hasShape, contains⟩
    rcases exists_mem_of_forall₂ outputs boundMem with ⟨output, mem, -, take⟩
    rcases remainder.back.exists_shapeVia wellFormed (wellFormed.outputs_bound output mem) with
      ⟨other, via⟩
    cases hasShape.unique (take.2 other via)
    exact ⟨output, mem, whole, via, contains⟩
  · rintro ⟨output, mem, whole, via, contains⟩
    rcases exists_mem_of_forall₂ outputs.flip mem with ⟨bound, boundMem, -, take⟩
    exact ⟨bound, boundMem, whole, take.2 whole via, contains⟩

theorem gateShapes_eq (remainder : Remainder standIn? circuit result)
    (wellFormed : circuit.WellFormed) (which : GateKind → Bool) :
    result.gateShapes (fun _ => none) which = circuit.gateShapes standIn? which := by
  unfold Circuit.gateShapes
  simp only [remainder.occurs_iff wellFormed]

/-- The result has at most as many gates as there are reachable ones without
stand-ins. -/
theorem countP_le (remainder : Remainder standIn? circuit result)
    (wellFormed : circuit.WellFormed) (which : GateKind → Bool) :
    result.gates.countP (which ·.kind) ≤
      {gate | circuit.ReachableGate gate ∧ standIn? gate = none ∧
        which gate.kind = true}.ncard := by
  rw [remainder.compact.countP_eq, remainder.gateShapes_eq wellFormed]
  exact remainder.back.ncard_gateShapes_le which

theorem gateCount_le (remainder : Remainder standIn? circuit result)
    (wellFormed : circuit.WellFormed) :
    result.gateCount ≤ {gate | circuit.ReachableGate gate ∧ standIn? gate = none}.ncard := by
  have counted := remainder.countP_le wellFormed fun _ => true
  simpa [Circuit.gateCount] using counted

/-- Without stand-ins, a circuit without repeated and unused gates keeps the number of
its gates. -/
theorem countP_eq (remainder : Remainder (fun _ => none) circuit result)
    (compact : circuit.Compact) (which : GateKind → Bool) :
    result.gates.countP (which ·.kind) = circuit.gates.countP (which ·.kind) := by
  rw [remainder.compact.countP_eq, remainder.gateShapes_eq compact.wellFormed, compact.countP_eq]

end Remainder

end SubstitutionRule

/-! ## Mapping twice -/

/-- The universal gate and the constants are left as they are. -/
theorem UniversalGate.replace_eq_share {gate : UniversalGate} {kind : GateKind}
    (provided : kind ∈ [gate.base, .vcc, .gnd]) (operands : List Node) :
    gate.replace kind operands = AssemblyM.share kind operands := by
  apply if_pos
  simp only [List.mem_cons, List.not_mem_nil, or_false] at provided
  exact provided.imp id fun constant => by rcases constant with rfl | rfl <;> rfl

theorem GateSet.shareOr_eq_share {gates : GateSet} {kind : GateKind}
    (enabled : gates.contains kind = true) (operands : List Node) (decompose : AssemblyM Node) :
    gates.shareOr kind operands decompose = AssemblyM.share kind operands := by
  rw [shareOr, if_pos enabled]

/-- A gate of a kind that a set provides is left as it is. -/
theorem GateSet.replace_eq_share {gates : GateSet} {kind : GateKind}
    (provided : gates.Provides kind) (operands : List Node) :
    gates.replace kind operands = AssemblyM.share kind operands := by
  rcases provided with enabled | free
  · cases kind with
    | buf | vcc | gnd => rfl
    | _ => exact shareOr_eq_share enabled operands _
  · simp only [List.mem_cons, List.not_mem_nil, or_false] at free
    rcases free with rfl | rfl | rfl <;> rfl

namespace Pass

variable {circuit first : Circuit} {pass : Pass}

theorem compact_of_run_eq_ok (wellFormed : circuit.WellFormed) (pass : Pass)
    (ran : pass.run circuit = .ok first) : first.Compact := by
  have refines := pass.refines_of_run_eq_ok wellFormed ran
  rw [run_eq_substitute] at ran
  rcases pass.gathers_rule.substitute wellFormed ran with ⟨distinct, live⟩
  exact ⟨refines.wellFormed, distinct, fun gate mem => (live gate mem).2⟩

/-- A mapping passes over no gates. -/
theorem bypass?_rule (mapping : pass ≠ .negations) (circuit : Circuit) :
    pass.rule.bypass? circuit = fun _ => none := by
  cases pass with
  | nand | nor | gateSet => rfl
  | negations => exact absurd rfl mapping

/-- A mapping retains the gates of kinds that it makes itself. -/
theorem retains_rule (mapping : pass ≠ .negations)
    (emitted : ∀ gate ∈ first.gates, pass.Emits circuit gate.kind) :
    pass.rule.Retains first where
  back := bypass?_rule mapping first ▸ first.standsBack_none
  replace gate mem operands := by
    have emits := emitted gate mem
    cases pass with
    | nand | nor => exact UniversalGate.replace_eq_share emits operands
    | gateSet gates => exact GateSet.replace_eq_share emits operands
    | negations => exact absurd rfl mapping

theorem exists_remainder (wellFormed : circuit.WellFormed) (mapping : pass ≠ .negations)
    (ran : pass.run circuit = .ok first) :
    ∃ second, pass.run first = .ok second ∧
      SubstitutionRule.Remainder (fun _ => none) first second := by
  have compact := compact_of_run_eq_ok wellFormed pass ran
  have retains := retains_rule mapping (emits_of_run_eq_ok wellFormed pass ran)
  rcases retains.exists_substitute pass.gathers_rule compact.wellFormed with
    ⟨second, ranAgain, remainder⟩
  rw [← run_eq_substitute] at ranAgain
  exact ⟨second, ranAgain, bypass?_rule mapping first ▸ remainder⟩

/-- A mapping onto a library succeeds on its own result and changes nothing but the
numbers of the gates. -/
theorem mapping_idempotent (assembled : circuit.Assembled) (mapping : pass ≠ .negations)
    (ran : pass.run circuit = .ok first) :
    ∃ second, pass.run first = .ok second ∧ second.inputs = first.inputs ∧
      second.outputs.map Prod.fst = first.outputs.map Prod.fst ∧
      second.gateCounts = first.gateCounts ∧
      ∃ firstTrees secondTrees, first.outputTrees = .ok firstTrees ∧
        second.outputTrees = .ok secondTrees ∧
        secondTrees.map (fun tree => (tree.1, tree.2.shape)) =
          firstTrees.map fun tree => (tree.1, tree.2.shape) := by
  have compact := compact_of_run_eq_ok assembled.wellFormed pass ran
  rcases exists_remainder assembled.wellFormed mapping ran with ⟨second, ranAgain, remainder⟩
  have wellFormed := remainder.compact.wellFormed
  have count_eq : ∀ kind, second.countOf kind = first.countOf kind := fun kind =>
    remainder.countP_eq compact (· == kind)
  have counts_eq : second.gateCounts = first.gateCounts := by
    simp only [Circuit.gateCounts, count_eq]
  rcases Circuit.exists_outputTrees compact.wellFormed with ⟨firstTrees, first_eq, -⟩
  rcases Circuit.exists_outputTrees wellFormed with ⟨secondTrees, second_eq, -⟩
  have firstShapes := compact.wellFormed.outputShapes_of_outputTrees first_eq
  have secondShapes := wellFormed.outputShapes_of_outputTrees second_eq
  exact ⟨second, ranAgain, remainder.replaces.inputs_eq, remainder.replaces.map_fst_eq.symm,
    counts_eq, firstTrees, secondTrees, first_eq, second_eq,
    secondShapes.unique (remainder.outputShapes firstShapes)⟩

/-- The steps that make an exclusive disjunction. -/
def exclusiveSteps : List Assembly.Step :=
  [.addInput "a", .addInput "b", .addGate .xor [.input "a", .input "b"],
    .setOutput "differ" (.gate ⟨.xor, 0⟩)]

/-- The mapping onto conjunctions, disjunctions and negations. -/
def ontoBasic : Pass :=
  gateSet (.ofList [.and, .or, .not])

/-- The first run makes both negations before the conjunctions.  The second run meets each
of them below its conjunction, so the gates get other numbers. -/
theorem exclusive_mapping_idempotent : ∃ first second,
    ontoBasic.run (Assembly.steps ∅ exclusiveSteps).circuit = .ok first ∧
      ontoBasic.run first = .ok second ∧ second ≠ first ∧
      second.gateCounts = first.gateCounts ∧
      ∃ firstTrees secondTrees, first.outputTrees = .ok firstTrees ∧
        second.outputTrees = .ok secondTrees ∧
        secondTrees.map (fun tree => (tree.1, tree.2.shape)) =
          firstTrees.map fun tree => (tree.1, tree.2.shape) := by
  have renumbers : (ontoBasic.run (Assembly.steps ∅ exclusiveSteps).circuit).bind
      (fun first => ontoBasic.run first) ≠
        ontoBasic.run (Assembly.steps ∅ exclusiveSteps).circuit := by
    decide +kernel
  have succeeds : (ontoBasic.run (Assembly.steps ∅ exclusiveSteps).circuit).isOk = true := by
    decide +kernel
  cases ran : ontoBasic.run (Assembly.steps ∅ exclusiveSteps).circuit with
  | error error =>
      rw [ran] at succeeds
      cases succeeds
  | ok first =>
      have mapping : ontoBasic ≠ negations := nofun
      rcases mapping_idempotent ⟨exclusiveSteps, rfl⟩ mapping ran with
        ⟨second, ranAgain, -, -, counts_eq, trees_eq⟩
      rw [ran] at renumbers
      have differ : second ≠ first := fun same =>
        renumbers (ranAgain.trans (congrArg Except.ok same))
      exact ⟨first, second, rfl, ranAgain, differ, counts_eq, trees_eq⟩

end Pass

end Switching
