import Switching.Circuit.Substitution
import Switching.Proofs.Circuit.Assembly
import Switching.Proofs.Circuit.Simulation

/-!
# Substitution

What a substitution rule has to guarantee is stated for one gate at a time: a
relation between the nodes of the given circuit and those of the new one that
holds for inputs, is passed on from the operands of a gate to its replacement
and stays as the new circuit grows.  The walk over the given circuit then
relates every output to the node that takes its place.  A rule is sound if this
works for the relation of having the same value.
-/

namespace Switching

namespace SubstitutionRule

/-! ## Rules that respect a relation -/

/-- The obligations of a rule towards the relation `stands current node result`,
which says that `result` of the circuit `current` takes the place of `node` of
the given circuit.  Only gates for which `relevant` holds need to be handled. -/
structure Respects (rule : SubstitutionRule) (circuit : Circuit) (relevant : Node → Prop)
    (fault : SynthesisError → Prop) (stands : Circuit → Node → Node → Prop) : Prop where
  contained : ∀ {current : Circuit} {node result : Node}, stands current node result →
    current.contains result = true
  stays : ∀ {current larger : Circuit} {node result : Node}, larger.Extends current →
    stands current node result → stands larger node result
  input : ∀ {current : Circuit} {name : String}, name ∈ current.inputs →
    stands current (.input name) (.input name)
  operands : ∀ {id : GateId} {gate : Gate}, circuit.gate? id = some gate → relevant (.gate id) →
    rule.bypass? circuit gate = none → ∀ node ∈ gate.operands, relevant node
  bypass : ∀ {id : GateId} {gate : Gate} {standIn : Node}, circuit.gate? id = some gate →
    relevant (.gate id) → rule.bypass? circuit gate = some standIn →
    relevant standIn ∧ circuit.NodeBefore id.serial standIn ∧
      ∀ current result, stands current standIn result → stands current (.gate id) result
  replace : ∀ {id : GateId} {gate : Gate} {results : List Node} {start : Assembly},
    circuit.gate? id = some gate → relevant (.gate id) → rule.bypass? circuit gate = none →
    start.WellFormed → List.Forall₂ (stands start.circuit) gate.operands results →
    AssemblyM.Ensures (rule.replace gate.kind results) start fault fun result next =>
      start.Grows next ∧ stands next.circuit (.gate id) result

/-- All replacements that were made so far stand for their gates. -/
def AllStand (stands : Circuit → Node → Node → Prop) (replaced : Replaced)
    (current : Circuit) : Prop :=
  ∀ id result, replaced.lookup id = some result → stands current (.gate id) result

variable {rule : SubstitutionRule} {circuit : Circuit} {relevant : Node → Prop}
  {fault : SynthesisError → Prop} {stands : Circuit → Node → Node → Prop}

theorem AllStand.cons {replaced : Replaced} {current : Circuit}
    (allStand : AllStand stands replaced current) {id : GateId} {result : Node}
    (here : stands current (.gate id) result) :
    AllStand stands ((id, result) :: replaced) current := by
  intro other otherResult found
  rw [List.lookup_cons] at found
  split at found
  · rename_i same
    cases found
    exact beq_iff_eq.mp same ▸ here
  · exact allStand other otherResult found

/-- What a step of the walk leaves behind. -/
structure Continues (circuit : Circuit) (stands : Circuit → Node → Node → Prop)
    (replaced : Replaced) (assembly : Assembly) : Prop where
  wellFormed : assembly.WellFormed
  inputs_eq : assembly.circuit.inputs = circuit.inputs
  allStand : AllStand stands replaced assembly.circuit

theorem AllStand.stays (respects : rule.Respects circuit relevant fault stands)
    {replaced : Replaced} {current larger : Circuit} (extension : larger.Extends current)
    (allStand : AllStand stands replaced current) : AllStand stands replaced larger :=
  fun id result known => respects.stays extension (allStand id result known)

theorem Continues.later (respects : rule.Respects circuit relevant fault stands)
    {replaced : Replaced} {start next : Assembly}
    (here : Continues circuit stands replaced start) (grown : start.Grows next) :
    Continues circuit stands replaced next where
  wellFormed := grown.wellFormed
  inputs_eq := grown.extension.inputs_eq.trans here.inputs_eq
  allStand := here.allStand.stays respects grown.extension

/-- What replacing a node leaves behind. -/
structure Substitutes (circuit : Circuit) (stands : Circuit → Node → Node → Prop)
    (start : Assembly) (node : Node) (result : Node × Replaced) (next : Assembly) : Prop where
  grown : start.Grows next
  continues : Continues circuit stands result.2 next
  stand : stands next.circuit node result.1

/-- Remembering the replacement of a gate. -/
theorem ensures_remember {id : GateId} {result : Node} {replaced : Replaced}
    {start current : Assembly} (grown : start.Grows current)
    (here : Continues circuit stands replaced current)
    (stand : stands current.circuit (.gate id) result) :
    AssemblyM.Ensures
      ((do modify ((id, result) :: ·); return result : SubstitutionM Node) replaced) current fault
      (Substitutes circuit stands start (.gate id)) :=
  AssemblyM.ensures_pure
    ⟨grown, ⟨here.wellFormed, here.inputs_eq, here.allStand.cons stand⟩, stand⟩

/-- Replacing several nodes of which each can be replaced. -/
theorem ensures_mapM (respects : rule.Respects circuit relevant fault stands)
    {action : Node → SubstitutionM Node} {nodes : List Node}
    (each : ∀ node ∈ nodes, ∀ replaced start, Continues circuit stands replaced start →
      AssemblyM.Ensures (action node replaced) start fault (Substitutes circuit stands start node))
    {replaced : Replaced} {start : Assembly} (here : Continues circuit stands replaced start) :
    AssemblyM.Ensures (nodes.mapM action replaced) start fault fun results next =>
      start.Grows next ∧ Continues circuit stands results.2 next ∧
        List.Forall₂ (stands next.circuit) nodes results.1 := by
  induction nodes generalizing replaced start with
  | nil => exact AssemblyM.ensures_pure ⟨.refl here.wellFormed, here, .nil⟩
  | cons node rest ih =>
      rw [List.forall_mem_cons] at each
      rw [List.mapM_cons]
      refine AssemblyM.ensures_stateBind (each.1 replaced start here)
        fun first next ⟨grown, there, firstStands⟩ => ?_
      refine AssemblyM.ensures_stateBind (ih each.2 there)
        fun results last ⟨later, after, restStand⟩ => ?_
      exact AssemblyM.ensures_pure
        ⟨grown.trans later, after, .cons (respects.stays later.extension firstStands) restStand⟩

/-- Inputs take their own places. -/
theorem Respects.ensures_input (respects : rule.Respects circuit relevant fault stands)
    {name : String} (declared : name ∈ circuit.inputs) {replaced : Replaced} {start : Assembly}
    (here : Continues circuit stands replaced start) :
    AssemblyM.Ensures ((pure (.input name) : SubstitutionM Node) replaced) start fault
      (Substitutes circuit stands start (.input name)) :=
  AssemblyM.ensures_pure
    ⟨.refl here.wellFormed, here, respects.input (here.inputs_eq ▸ declared)⟩

/-- A node is replaced by one that stands for it.  The gates on which a node
depends have smaller numbers, so a depth above the number of the node is
enough. -/
theorem Respects.ensures_substituteNode (respects : rule.Respects circuit relevant fault stands)
    (wellFormed : circuit.WellFormed) (depth : Nat) :
    ∀ {node : Node}, relevant node → circuit.NodeBefore depth node →
      ∀ {replaced : Replaced} {start : Assembly}, Continues circuit stands replaced start →
      AssemblyM.Ensures (rule.substituteNode circuit depth node replaced) start fault
        (Substitutes circuit stands start node) := by
  induction depth with
  | zero =>
      intro node _ before replaced start here
      cases node with
      | input name => exact respects.ensures_input before here
      | gate id => exact absurd before.1 (Nat.not_lt_zero _)
  | succ depth ih =>
      intro node relevantNode before replaced start here
      cases node with
      | input name => exact respects.ensures_input before here
      | gate id =>
          obtain ⟨bound, gate, found⟩ := before
          have below : id.serial ≤ depth := Nat.le_of_lt_succ bound
          unfold substituteNode
          refine AssemblyM.ensures_stateGet ?_
          cases known : replaced.lookup id with
          | some result =>
              dsimp only
              exact AssemblyM.ensures_pure
                ⟨.refl here.wellFormed, here, here.allStand id result known⟩
          | none =>
              cases passes : rule.bypass? circuit gate with
              | some standIn =>
                  simp only [found, passes]
                  obtain ⟨relevantStandIn, standInBefore, standInStands⟩ :=
                    respects.bypass found relevantNode passes
                  have visited := ih relevantStandIn (standInBefore.mono below) here
                  refine AssemblyM.ensures_stateBind visited
                    fun result next ⟨grown, there, stand⟩ => ?_
                  exact ensures_remember grown there (standInStands _ _ stand)
              | none =>
                  simp only [found, passes]
                  have visited := ensures_mapM respects (fun operand mem _ _ now =>
                    ih (respects.operands found relevantNode passes operand mem)
                      ((wellFormed.nodeBefore_of_gate? found mem).mono below) now) here
                  refine AssemblyM.ensures_stateBind visited
                    fun results next ⟨grown, there, stand⟩ => ?_
                  have replaces :=
                    respects.replace found relevantNode passes there.wellFormed stand
                  refine AssemblyM.ensures_stateBind (AssemblyM.ensures_stateLift replaces)
                    fun result last made => ?_
                  obtain ⟨⟨later, resultStands⟩, same⟩ := made
                  rw [same]
                  exact ensures_remember (grown.trans later) (.later respects there later)
                    resultStands

/-! ## Outputs -/

/-- A circuit in which the outputs of another one are bound to nodes that stand
for theirs. -/
structure Replaces (stands : Circuit → Node → Node → Prop) (circuit : Circuit)
    (outputs : List (String × Node)) (result : Circuit) : Prop where
  inputs_eq : result.inputs = circuit.inputs
  outputs : List.Forall₂ (fun output bound => output.1 = bound.1 ∧ stands result output.2 bound.2)
    outputs result.outputs

theorem Replaces.map_fst_eq {outputs : List (String × Node)} {result : Circuit}
    (replaces : Replaces stands circuit outputs result) :
    outputs.map Prod.fst = result.outputs.map Prod.fst := by
  obtain ⟨-, bound⟩ := replaces
  generalize result.outputs = boundOutputs at bound
  induction bound with
  | nil => rfl
  | cons both _ ih => rw [List.map_cons, List.map_cons, both.1, ih]

/-- The node that an output is bound to has one that stands for it. -/
theorem Replaces.exists_output? {result : Circuit}
    (replaces : Replaces stands circuit circuit.outputs result) {name : String} {node : Node}
    (bound : circuit.output? name = some node) :
    ∃ other, result.output? name = some other ∧ stands result node other := by
  obtain ⟨-, outputs⟩ := replaces
  unfold Circuit.output? at bound ⊢
  generalize circuit.outputs = first at bound outputs
  generalize result.outputs = second at outputs
  induction outputs with
  | nil => cases bound
  | @cons output other _ _ both _ ih =>
      rw [List.lookup_cons, ← both.1]
      rw [List.lookup_cons] at bound
      split at bound
      · cases bound
        exact ⟨other.2, rfl, both.2⟩
      · exact ih bound

/-- Binding one more output to a node that stands for the given one. -/
theorem Replaces.withOutput (respects : rule.Respects circuit relevant fault stands)
    {outputs : List (String × Node)} {start : Assembly}
    (replaces : Replaces stands circuit outputs start.circuit) {name : String}
    (fresh : name ∉ outputs.map Prod.fst) {node result : Node}
    (stand : stands start.circuit node result) :
    Replaces stands circuit (outputs ++ [(name, node)]) (start.withOutput name result).circuit := by
  have extension := start.extends_withOutput name result
  have freshBound : name ∉ start.circuit.outputs.map Prod.fst := replaces.map_fst_eq ▸ fresh
  refine ⟨replaces.inputs_eq, ?_⟩
  change List.Forall₂ _ _ (Assembly.bindOutput name result start.circuit.outputs)
  rw [Assembly.bindOutput_of_notMem freshBound]
  refine List.rel_append ?_ (.cons ⟨rfl, respects.stays extension stand⟩ .nil)
  exact replaces.outputs.imp fun _ _ both => ⟨both.1, respects.stays extension both.2⟩

theorem Replaces.later (respects : rule.Respects circuit relevant fault stands)
    {outputs : List (String × Node)} {start next : Assembly}
    (replaces : Replaces stands circuit outputs start.circuit) (grown : start.Grows next) :
    Replaces stands circuit outputs next.circuit where
  inputs_eq := grown.extension.inputs_eq.trans replaces.inputs_eq
  outputs := grown.outputs_eq ▸ replaces.outputs.imp fun _ _ both =>
    ⟨both.1, respects.stays grown.extension both.2⟩

/-- The outputs are bound one after the other to nodes that stand for the given
ones. -/
theorem Respects.ensures_substituteOutputs
    (respects : rule.Respects circuit relevant fault stands) (wellFormed : circuit.WellFormed)
    (later : List (String × Node)) :
    ∀ (earlier : List (String × Node)) {replaced : Replaced} {start : Assembly},
      ((earlier ++ later).map Prod.fst).Nodup →
      (∀ output ∈ later, relevant output.2 ∧ circuit.contains output.2 = true) →
      Continues circuit stands replaced start → Replaces stands circuit earlier start.circuit →
      AssemblyM.Ensures (rule.substituteOutputs circuit later replaced) start fault
        fun _ next =>
          next.WellFormed ∧ Replaces stands circuit (earlier ++ later) next.circuit := by
  induction later with
  | nil =>
      intro earlier replaced start _ _ here bound
      exact AssemblyM.ensures_pure ⟨here.wellFormed, by simpa using bound⟩
  | cons output later ih =>
      intro earlier replaced start nodup nodes here bound
      obtain ⟨name, node⟩ := output
      rw [List.forall_mem_cons] at nodes
      have before := Circuit.contains_iff_nodeBefore.mp nodes.1.2
      unfold substituteOutputs
      refine AssemblyM.ensures_stateBind
        (respects.ensures_substituteNode wellFormed circuit.gateCount nodes.1.1 before here)
        fun result next ⟨grown, there, stand⟩ => ?_
      have contained := respects.contained stand
      refine AssemblyM.ensures_stateBind
        (AssemblyM.ensures_stateLift (AssemblyM.ensures_setOutput contained))
        fun unit last made => ?_
      obtain ⟨rfl, same⟩ := made
      have fresh : name ∉ earlier.map Prod.fst := by
        intro mem
        rw [List.map_append, List.nodup_append] at nodup
        exact nodup.2.2 name mem name List.mem_cons_self rfl
      have boundLater := (bound.later respects grown).withOutput respects fresh stand
      have extension := next.extends_withOutput name result.1
      have hereLater : Continues circuit stands unit.2 (next.withOutput name result.1) :=
        ⟨Assembly.wellFormed_withOutput there.wellFormed contained, there.inputs_eq,
          .stays respects extension (same ▸ there.allStand)⟩
      rw [List.append_cons] at nodup ⊢
      exact ih (earlier ++ [(name, node)]) nodup nodes.2 hereLater boundLater

/-- A rule that respects a relation gives a well-formed circuit with the same
inputs, whose outputs are bound, in the same order, to nodes that stand for the
given ones, or else an error that `fault` allows. -/
theorem Respects.substitute_cases (respects : rule.Respects circuit relevant fault stands)
    (wellFormed : circuit.WellFormed) (relevantOutputs : ∀ output ∈ circuit.outputs,
      relevant output.2) :
    (∃ result, rule.substitute circuit = .ok result ∧ result.WellFormed ∧
      Replaces stands circuit circuit.outputs result) ∨
    ∃ error, rule.substitute circuit = .error error ∧ fault error := by
  have starts := Assembly.addInputs_empty wellFormed.inputs_nodup
  have here : Continues circuit stands [] (Assembly.ofInputs circuit.inputs) :=
    ⟨Assembly.wellFormed_ofInputs wellFormed.inputs_nodup, rfl, by simp [AllStand]⟩
  have nodes : ∀ output ∈ circuit.outputs,
      relevant output.2 ∧ circuit.contains output.2 = true := fun output mem =>
    ⟨relevantOutputs output mem, (wellFormed.outputs_bound output mem).contains⟩
  have ensures := respects.ensures_substituteOutputs wellFormed circuit.outputs []
    wellFormed.outputs_nodup nodes here ⟨rfl, .nil⟩
  rw [substitute, starts]
  unfold AssemblyM.Ensures at ensures
  change (∃ result, (rule.substituteOutputs circuit circuit.outputs []
      (Assembly.ofInputs circuit.inputs)).map (·.2.circuit) = .ok result ∧ _) ∨
    ∃ error, (rule.substituteOutputs circuit circuit.outputs []
      (Assembly.ofInputs circuit.inputs)).map (·.2.circuit) = .error error ∧ _
  split at ensures
  · rename_i next ran
    exact .inl ⟨next.circuit, by rw [ran]; rfl, ensures.1.circuit, ensures.2⟩
  · rename_i error failed
    exact .inr ⟨error, by rw [failed]; rfl, ensures⟩

/-! ## Sound rules -/

/-- A node of the current circuit that has the value of a node of the given
one, if that has a value. -/
def TakesValue (circuit : Circuit) (assignment : Assignment) (current : Circuit)
    (node result : Node) : Prop :=
  current.contains result = true ∧ ∀ value, circuit.HasValue assignment node value →
    current.HasValue assignment result value

/-- What makes a rule sound on a circuit: a node that is passed on has the
value of the gate, and a replacement computes the function of the gate. -/
structure Sound (rule : SubstitutionRule) (circuit : Circuit) (relevant : Node → Prop)
    (fault : SynthesisError → Prop) : Prop where
  operands : ∀ {id : GateId} {gate : Gate}, circuit.gate? id = some gate → relevant (.gate id) →
    ∀ node ∈ gate.operands, relevant node
  bypass : ∀ {id : GateId} {gate : Gate} {standIn : Node}, circuit.gate? id = some gate →
    relevant (.gate id) → rule.bypass? circuit gate = some standIn →
    relevant standIn ∧ circuit.NodeBefore id.serial standIn ∧
      ∀ assignment value, circuit.HasValue assignment (.gate id) value →
        circuit.HasValue assignment standIn value
  replace : ∀ {id : GateId} {gate : Gate} {results : List Node} {start : Assembly}
    {assignment : Assignment} {values : List Bool},
    circuit.gate? id = some gate → relevant (.gate id) → start.WellFormed →
    gate.kind.accepts results.length = true →
    List.Forall₂ (start.circuit.Carries assignment) results values →
    AssemblyM.Yields (rule.replace gate.kind results) start fault assignment
      (gate.kind.apply values)

/-- The values of operands are carried by the nodes that take them. -/
theorem carries_of_takesValue {assignment : Assignment} {current : Circuit}
    {nodes results : List Node} {values : List Bool}
    (takes : List.Forall₂ (TakesValue circuit assignment current) nodes results)
    (haveValues : List.Forall₂ (circuit.HasValue assignment) nodes values) :
    List.Forall₂ (current.Carries assignment) results values := by
  induction takes generalizing values with
  | nil =>
      cases haveValues
      exact .nil
  | cons take _ ih =>
      obtain _ | ⟨hasValue, rest⟩ := haveValues
      exact .cons ⟨take.1, take.2 _ hasValue⟩ (ih rest)

/-- A sound rule respects the relation of having the same value, under every
assignment of the inputs. -/
theorem Sound.respects (sound : rule.Sound circuit relevant fault)
    (wellFormed : circuit.WellFormed) {assignment : Assignment}
    (assigns : assignment.Assigns circuit.inputs) :
    rule.Respects circuit relevant fault (TakesValue circuit assignment) where
  contained take := take.1
  stays extension take :=
    ⟨extension.contains take.1, fun value hasValue => extension.hasValue (take.2 value hasValue)⟩
  input declared :=
    ⟨List.contains_iff_mem.mpr declared, fun _ hasValue => by
      rw [Circuit.hasValue_input_iff] at hasValue ⊢
      exact hasValue⟩
  operands found relevantGate _ := sound.operands found relevantGate
  bypass found relevantGate passes := by
    obtain ⟨relevantStandIn, before, sameValue⟩ := sound.bypass found relevantGate passes
    exact ⟨relevantStandIn, before, fun _ _ take =>
      ⟨take.1, fun value hasValue => take.2 value (sameValue assignment value hasValue)⟩⟩
  replace {id gate results start} found relevantGate _ startWellFormed takes := by
    obtain ⟨value, -, hasValue⟩ :=
      wellFormed.exists_carries assigns (Circuit.contains_of_gate? found)
    obtain ⟨other, values, foundOther, operandValues, apply_eq⟩ :=
      Circuit.hasValue_gate_iff.mp hasValue
    obtain rfl : gate = other := Option.some.inj (found.symm.trans foundOther)
    have accepts : gate.kind.accepts results.length = true :=
      takes.length_eq ▸ wellFormed.accepts_of_gate? found
    refine AssemblyM.Ensures.imp (sound.replace found relevantGate startWellFormed accepts
      (carries_of_takesValue takes operandValues)) fun result next made => ⟨made.1, made.2.1, ?_⟩
    intro other otherValue
    rw [otherValue.unique hasValue, ← apply_eq]
    exact made.2.2

/-- A sound rule either fails with an allowed error or gives a circuit that
refines the given one. -/
theorem Sound.substitute_cases (sound : rule.Sound circuit relevant fault)
    (wellFormed : circuit.WellFormed)
    (relevantOutputs : ∀ output ∈ circuit.outputs, relevant output.2) :
    (∃ result, rule.substitute circuit = .ok result ∧ result.Refines circuit) ∨
      ∃ error, rule.substitute circuit = .error error ∧ fault error := by
  have respects : ∀ assignment, assignment.Assigns circuit.inputs →
      rule.Respects circuit relevant fault (TakesValue circuit assignment) :=
    fun _ assigns => sound.respects wellFormed assigns
  have someAssigns := Row.assigns_assignment wellFormed.inputs_nodup 0
  rcases (respects _ someAssigns).substitute_cases wellFormed relevantOutputs with
    ⟨result, ran, resultWellFormed, replaces⟩ | failed
  · refine .inl ⟨result, ran, resultWellFormed, replaces.inputs_eq, ?_⟩
    intro assignment assigns name node value bound carries
    rcases (respects _ assigns).substitute_cases wellFormed relevantOutputs with
      ⟨other, ranAgain, -, replacesAgain⟩ | ⟨_, failed, -⟩
    · obtain rfl : result = other := Except.ok.inj (ran.symm.trans ranAgain)
      obtain ⟨other, otherBound, take⟩ := replacesAgain.exists_output? bound
      exact ⟨other, otherBound, take.1, take.2 value carries.2⟩
    · rw [ran] at failed
      cases failed
  · exact .inr failed

theorem Sound.refines_of_eq_ok (sound : rule.Sound circuit (fun _ => True) fault)
    (wellFormed : circuit.WellFormed) {result : Circuit}
    (ran : rule.substitute circuit = .ok result) : result.Refines circuit := by
  rcases sound.substitute_cases wellFormed fun _ _ => trivial with
    ⟨other, ranAgain, refines⟩ | ⟨_, failed, -⟩
  · exact Except.ok.inj (ran.symm.trans ranAgain) ▸ refines
  · rw [ran] at failed
    cases failed

/-- Outputs that are bound to nodes with the values of the given ones have the
same values under the same names. -/
theorem Replaces.outputValues {assignment : Assignment} {outputs : List (String × Node)}
    {result : Circuit} (replaces : Replaces (TakesValue circuit assignment) circuit outputs result)
    {values : List (String × Bool)}
    (outputValues : circuit.OutputValues assignment outputs values) :
    result.OutputValues assignment result.outputs values := by
  obtain ⟨-, bound⟩ := replaces
  generalize result.outputs = boundOutputs at bound
  induction bound generalizing values with
  | nil =>
      cases outputValues
      exact .nil
  | cons stand _ ih =>
      obtain _ | ⟨both, rest⟩ := outputValues
      exact .cons ⟨stand.1.symm.trans both.1, stand.2.2 _ both.2⟩ (ih rest)

/-- The result of a sound rule has the same inputs and the same names of outputs
in the same orders, and evaluates to the same list. -/
theorem Sound.evaluate_eq_of_eq_ok (sound : rule.Sound circuit (fun _ => True) fault)
    (wellFormed : circuit.WellFormed) {result : Circuit}
    (ran : rule.substitute circuit = .ok result) :
    result.inputs = circuit.inputs ∧
      result.outputs.map Prod.fst = circuit.outputs.map Prod.fst ∧
      ∀ assignment : Assignment, assignment.Assigns circuit.inputs →
        ∃ values, circuit.evaluate assignment = .ok values ∧
          result.evaluate assignment = .ok values := by
  have replaces : ∀ assignment : Assignment, assignment.Assigns circuit.inputs →
      result.WellFormed ∧ Replaces (TakesValue circuit assignment) circuit circuit.outputs result := by
    intro assignment assigns
    rcases (sound.respects wellFormed assigns).substitute_cases wellFormed fun _ _ => trivial with
      ⟨other, ranAgain, otherWellFormed, otherReplaces⟩ | ⟨_, failed, -⟩
    · obtain rfl : result = other := Except.ok.inj (ran.symm.trans ranAgain)
      exact ⟨otherWellFormed, otherReplaces⟩
    · rw [ran] at failed
      cases failed
  obtain ⟨resultWellFormed, someReplaces⟩ :=
    replaces _ (Row.assigns_assignment wellFormed.inputs_nodup 0)
  refine ⟨someReplaces.inputs_eq, someReplaces.map_fst_eq.symm, fun assignment assigns => ?_⟩
  obtain ⟨values, outputValues⟩ := wellFormed.exists_outputValues assigns
  have resultAssigns : assignment.Assigns result.inputs := someReplaces.inputs_eq.symm ▸ assigns
  exact ⟨values, wellFormed.evaluate_eq_ok assigns outputValues,
    resultWellFormed.evaluate_eq_ok resultAssigns
      ((replaces assignment assigns).2.outputValues outputValues)⟩

theorem Sound.exists_substitute (sound : rule.Sound circuit (fun _ => True) fun _ => False)
    (wellFormed : circuit.WellFormed) :
    ∃ result, rule.substitute circuit = .ok result ∧ result.Refines circuit := by
  rcases sound.substitute_cases wellFormed fun _ _ => trivial with succeeds | ⟨_, -, impossible⟩
  · exact succeeds
  · exact impossible.elim

end SubstitutionRule

end Switching
