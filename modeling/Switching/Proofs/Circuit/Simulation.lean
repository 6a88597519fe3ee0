import Switching.Circuit.Simulation
import Switching.Proofs.Circuit.Values

/-!
# Simulation

Evaluating the gates of a well-formed circuit in their order gives every gate
its value, and fails only for an input that some gate reads and that has no
value.  So a circuit is evaluated to the values of its outputs, whatever the
assignment leaves out, unless an input is missing that is read.
-/

namespace Switching

/-! ## Outcomes -/

section Outcomes

variable {ε α β : Type} {fails : ε → Prop}

/-- An outcome is either a result for which `succeeds` holds or an error for
which `fails` holds. -/
def EndsIn (outcome : Except ε α) (succeeds : α → Prop) (fails : ε → Prop) : Prop :=
  match outcome with
  | .ok result => succeeds result
  | .error error => fails error

theorem EndsIn.bind {stage : Except ε α} {next : α → Except ε β} {middle : α → Prop}
    {succeeds : β → Prop} (first : EndsIn stage middle fails)
    (rest : ∀ result, middle result → EndsIn (next result) succeeds fails) :
    EndsIn (stage >>= next) succeeds fails := by
  cases stage with
  | ok result => exact rest result first
  | error error => exact first

theorem EndsIn.imp {outcome : Except ε α} {succeeds weaker : α → Prop}
    (ends : EndsIn outcome succeeds fails) (weaken : ∀ result, succeeds result → weaker result) :
    EndsIn outcome weaker fails := by
  cases outcome with
  | ok result => exact weaken result ends
  | error error => exact ends

/-- An outcome that cannot be a failure is a success. -/
theorem EndsIn.exists_eq_ok {outcome : Except ε α} {succeeds : α → Prop}
    (ends : EndsIn outcome succeeds fails) (safe : ∀ error, ¬fails error) :
    ∃ result, outcome = .ok result ∧ succeeds result := by
  cases outcome with
  | ok result => exact ⟨result, rfl, ends⟩
  | error error => exact absurd ends (safe error)

/-- Members with a result each have a list of results; otherwise some member
fails. -/
theorem endsIn_mapM {step : α → Except ε β} {succeeds : α → β → Prop} {list : List α}
    (each : ∀ member ∈ list, EndsIn (step member) (succeeds member) fails) :
    EndsIn (list.mapM step) (List.Forall₂ succeeds list) fails := by
  induction list with
  | nil => exact .nil
  | cons first rest ih =>
      rw [List.forall_mem_cons] at each
      rw [List.mapM_cons]
      exact each.1.bind fun result related =>
        (ih each.2).bind fun results restRelated => .cons related restRelated

/-- Where every member of a list has a result, so has the list. -/
theorem exists_mapM_eq_ok {step : α → Except ε β} {relation : α → β → Prop} {list : List α}
    (each : ∀ first ∈ list, ∃ second, step first = .ok second ∧ relation first second) :
    ∃ results, list.mapM step = .ok results ∧ List.Forall₂ relation list results := by
  have ends : ∀ member ∈ list, EndsIn (step member) (relation member) fun _ => False := by
    intro member mem
    obtain ⟨result, step_eq, related⟩ := each member mem
    rw [step_eq]
    exact related
  exact (endsIn_mapM ends).exists_eq_ok fun _ => id

end Outcomes

/-! ## Missing inputs -/

section MissingInputs

variable {assignment : Assignment} {reads : String → Prop}

/-- The error that some name that is read has no value. -/
def Assignment.Misses (assignment : Assignment) (reads : String → Prop) (error : EvalError) :
    Prop :=
  ∃ name, error = .undefinedVariable name ∧ reads name ∧ assignment.value? name = none

/-- More names may be read than are. -/
theorem EndsIn.reading {α : Type} {outcome : Except EvalError α} {succeeds : α → Prop}
    {wider : String → Prop} (ends : EndsIn outcome succeeds (assignment.Misses reads))
    (sub : ∀ name, reads name → wider name) :
    EndsIn outcome succeeds (assignment.Misses wider) := by
  cases outcome with
  | ok result => exact ends
  | error error =>
      obtain ⟨name, error_eq, read, missing⟩ := ends
      exact ⟨name, error_eq, sub name read, missing⟩

/-- Nothing is missing where all names that are read are assigned. -/
theorem Assignment.not_misses (assigned : ∀ name, reads name → (assignment.value? name).isSome)
    (error : EvalError) : ¬assignment.Misses reads error := by
  rintro ⟨name, -, read, missing⟩
  have here := assigned name read
  rw [missing] at here
  cases here

end MissingInputs

namespace Circuit

variable {circuit : Circuit} {assignment : Assignment}

/-! ## Gates -/

/-- The first gates of a circuit have the given values. -/
def Simulated (circuit : Circuit) (assignment : Assignment) (values : Array Bool) : Prop :=
  ∀ (position : Nat) (value : Bool), values[position]? = some value →
    ∃ gate, circuit.gates[position]? = some gate ∧
      circuit.HasValue assignment (.gate gate.id) value

/-- A node before the simulated gates is looked up with its value, unless it is an
input without one. -/
theorem endsIn_nodeValue {values : Array Bool} (simulated : circuit.Simulated assignment values)
    {node : Node} (before : circuit.NodeBefore values.size node) :
    EndsIn (circuit.nodeValue assignment values node) (circuit.HasValue assignment node)
      (assignment.Misses (node = .input ·)) := by
  cases node with
  | input name =>
      rw [nodeValue, Assignment.value]
      cases value_eq : assignment.value? name with
      | none => exact ⟨name, rfl, rfl, value_eq⟩
      | some value => exact .input value_eq
  | gate id =>
      obtain ⟨bound, gate, found⟩ := before
      obtain ⟨at_serial, id_eq⟩ := (circuit.gate?_eq_some_iff).mp found
      obtain ⟨other, atOther, hasValue⟩ :=
        simulated id.serial values[id.serial] (Array.getElem?_eq_getElem bound)
      obtain rfl : gate = other := Option.some.inj (at_serial.symm.trans atOther)
      have looked_up : circuit.nodeValue assignment values (.gate id) = .ok values[id.serial] := by
        simp [nodeValue, found, id_eq, bound]
      rw [looked_up]
      exact id_eq ▸ hasValue

/-- Evaluating a gate after the earlier ones gives it its value, unless it reads an
input without one. -/
theorem endsIn_evaluateGate (wellFormed : circuit.WellFormed) {values : Array Bool} {gate : Gate}
    (simulated : circuit.Simulated assignment values)
    (here : circuit.gates[values.size]? = some gate) :
    EndsIn (circuit.evaluateGate assignment values gate)
      (fun next => next.size = values.size + 1 ∧ circuit.Simulated assignment next)
      (assignment.Misses (.input · ∈ gate.operands)) := by
  have each : ∀ node ∈ gate.operands, EndsIn (circuit.nodeValue assignment values node)
      (circuit.HasValue assignment node) (assignment.Misses (.input · ∈ gate.operands)) :=
    fun node mem => (endsIn_nodeValue simulated
      (wellFormed.operands_before values.size gate here node mem)).reading
        fun _ same => same ▸ mem
  refine (endsIn_mapM each).bind fun operandValues haveValues => ?_
  refine ⟨Array.size_push _, fun position value at_position => ?_⟩
  rw [Array.getElem?_push] at at_position
  split at at_position
  · rename_i last
    cases at_position
    exact ⟨gate, last ▸ here,
      hasValue_gate_iff.mpr ⟨gate, operandValues, wellFormed.gate?_id here, haveValues, rfl⟩⟩
  · exact simulated position value at_position

/-- An input that some gate reads. -/
def GatesRead (circuit : Circuit) (name : String) : Prop :=
  ∃ gate ∈ circuit.gates, Node.input name ∈ gate.operands

/-- Evaluating the gates from some position on gives a value to each of them,
unless one reads an input without a value. -/
theorem endsIn_foldlM_evaluateGate (wellFormed : circuit.WellFormed) (later : List Gate) :
    ∀ (earlier : List Gate) (values : Array Bool),
      circuit.gates.toList = earlier ++ later → values.size = earlier.length →
      circuit.Simulated assignment values →
      EndsIn (later.foldlM (circuit.evaluateGate assignment) values)
        (fun final => final.size = circuit.gates.size ∧ circuit.Simulated assignment final)
        (assignment.Misses circuit.GatesRead) := by
  -- The earlier gates are those with values, so the next gate is at the position
  -- that the number of values gives.
  induction later with
  | nil =>
      intro earlier values gates_eq size_eq simulated
      refine ⟨?_, simulated⟩
      rw [size_eq, ← Array.length_toList, gates_eq, List.append_nil]
  | cons gate later ih =>
      intro earlier values gates_eq size_eq simulated
      have here : circuit.gates[values.size]? = some gate := by
        rw [← Array.getElem?_toList, gates_eq, size_eq,
          List.getElem?_append_right (Nat.le_refl _), Nat.sub_self]
        rfl
      have read (name : String) (mem : .input name ∈ gate.operands) : circuit.GatesRead name :=
        ⟨gate, Array.mem_of_getElem? here, mem⟩
      rw [List.foldlM_cons]
      refine ((endsIn_evaluateGate wellFormed simulated here).reading read).bind
        fun next both => ?_
      exact ih (earlier ++ [gate]) next (by simp [gates_eq]) (by simp [both.1, size_eq]) both.2

/-- Simulation gives every gate its value, unless some gate reads an input without
one. -/
theorem WellFormed.endsIn_simulate (wellFormed : circuit.WellFormed) (assignment : Assignment) :
    EndsIn (circuit.simulate assignment)
      (fun values => values.size = circuit.gates.size ∧ circuit.Simulated assignment values)
      (assignment.Misses circuit.GatesRead) := by
  rw [simulate, ← Array.foldlM_toList]
  exact endsIn_foldlM_evaluateGate wellFormed circuit.gates.toList [] #[] rfl rfl
    (by simp [Simulated])

/-- Where all gates have been simulated, the inputs that they read have values. -/
theorem Simulated.isSome_of_gatesRead {values : Array Bool}
    (simulated : circuit.Simulated assignment values) (wellFormed : circuit.WellFormed)
    (size_eq : values.size = circuit.gates.size) {name : String}
    (reads : circuit.GatesRead name) : (assignment.value? name).isSome := by
  obtain ⟨gate, mem, operand⟩ := reads
  obtain ⟨position, bound, gate_eq⟩ := Array.mem_iff_getElem.mp mem
  obtain ⟨found, at_position, hasValue⟩ :=
    simulated position values[position] (Array.getElem?_eq_getElem (size_eq ▸ bound))
  rw [Array.getElem?_eq_getElem bound, gate_eq] at at_position
  cases at_position
  obtain ⟨other, operandValues, foundOther, haveValues, -⟩ := hasValue_gate_iff.mp hasValue
  have here : circuit.gates[position]? = some gate := by
    rw [Array.getElem?_eq_getElem bound, gate_eq]
  obtain rfl : gate = other := Option.some.inj ((wellFormed.gate?_id here).symm.trans foundOther)
  obtain ⟨value, -, inputValue⟩ := exists_mem_of_forall₂ haveValues.flip operand
  rw [hasValue_input_iff] at inputValue
  exact inputValue ▸ rfl

/-! ## Outputs -/

/-- The names of outputs with the values of their nodes. -/
def OutputValues (circuit : Circuit) (assignment : Assignment) (outputs : List (String × Node))
    (values : List (String × Bool)) : Prop :=
  List.Forall₂ (fun output value => output.1 = value.1 ∧
    circuit.HasValue assignment output.2 value.2) outputs values

/-- Outputs have at most one list of values. -/
theorem OutputValues.unique {outputs : List (String × Node)} {first second : List (String × Bool)}
    (haveFirst : circuit.OutputValues assignment outputs first)
    (haveSecond : circuit.OutputValues assignment outputs second) : first = second := by
  have unique : Relator.RightUnique fun (output : String × Node) (value : String × Bool) =>
      output.1 = value.1 ∧ circuit.HasValue assignment output.2 value.2 :=
    fun _ _ _ one other => Prod.ext (one.1.symm.trans other.1) (one.2.unique other.2)
  exact unique.forall₂ haveFirst haveSecond

/-- A circuit is evaluated to the values of its outputs, and then all inputs that
it reads are assigned; otherwise one of them is missing. -/
theorem WellFormed.endsIn_evaluate (wellFormed : circuit.WellFormed) (assignment : Assignment) :
    EndsIn (circuit.evaluate assignment)
      (fun results => circuit.OutputValues assignment circuit.outputs results ∧
        ∀ name, circuit.ReadsInput name → (assignment.value? name).isSome)
      (assignment.Misses circuit.ReadsInput) := by
  refine ((wellFormed.endsIn_simulate assignment).reading fun _ => .inl).bind
    fun values both => ?_
  obtain ⟨size_eq, simulated⟩ := both
  have each : ∀ output ∈ circuit.outputs, EndsIn
      (do return (output.1, ← circuit.nodeValue assignment values output.2))
      (fun value => output.1 = value.1 ∧ circuit.HasValue assignment output.2 value.2)
      (assignment.Misses circuit.ReadsInput) := by
    intro output mem
    have before : circuit.NodeBefore values.size output.2 :=
      size_eq ▸ wellFormed.outputs_bound output mem
    have read (name : String) (same : output.2 = .input name) : circuit.ReadsInput name :=
      .inr ⟨output, mem, same⟩
    exact ((endsIn_nodeValue simulated before).reading read).bind
      fun _ hasValue => ⟨rfl, hasValue⟩
  refine (endsIn_mapM each).imp fun results outputValues => ⟨outputValues, ?_⟩
  rintro name (gatesRead | ⟨output, mem, same⟩)
  · exact simulated.isSome_of_gatesRead wellFormed size_eq gatesRead
  · obtain ⟨result, -, -, hasValue⟩ := exists_mem_of_forall₂ outputValues.flip mem
    rw [same, hasValue_input_iff] at hasValue
    exact hasValue ▸ rfl

/-- An output is evaluated to the value of its node, unless some gate reads an
input without a value or the output is bound to one. -/
theorem WellFormed.endsIn_evaluateOutput (wellFormed : circuit.WellFormed)
    (assignment : Assignment) {name : String} {node : Node}
    (bound : circuit.output? name = some node) (contained : circuit.contains node = true) :
    EndsIn (circuit.evaluateOutput name assignment) (circuit.HasValue assignment node)
      (assignment.Misses fun input => circuit.GatesRead input ∨ node = .input input) := by
  rw [evaluateOutput, bound]
  refine ((wellFormed.endsIn_simulate assignment).reading fun _ => .inl).bind
    fun values both => ?_
  have before : circuit.NodeBefore values.size node :=
    both.1 ▸ contains_iff_nodeBefore.mp contained
  exact (endsIn_nodeValue both.2 before).reading fun _ => .inr

/-! ## Assigned inputs -/

/-- Where all inputs are assigned that an output is evaluated from, the result is
the value of its node. -/
theorem WellFormed.evaluateOutput_eq_ok_of_isSome (wellFormed : circuit.WellFormed) {name : String}
    {node : Node} {value : Bool} (bound : circuit.output? name = some node)
    (contained : circuit.contains node = true)
    (assigned : ∀ input, circuit.GatesRead input ∨ node = .input input →
      (assignment.value? input).isSome)
    (hasValue : circuit.HasValue assignment node value) :
    circuit.evaluateOutput name assignment = .ok value := by
  obtain ⟨other, evaluated, otherHas⟩ :=
    (wellFormed.endsIn_evaluateOutput assignment bound contained).exists_eq_ok
      (Assignment.not_misses assigned)
  rw [evaluated, otherHas.unique hasValue]

theorem WellFormed.mem_inputs_of_gatesRead (wellFormed : circuit.WellFormed) {name : String}
    (reads : circuit.GatesRead name) : name ∈ circuit.inputs := by
  obtain ⟨gate, mem, operand⟩ := reads
  obtain ⟨position, at_position⟩ := Array.mem_iff_getElem?.mp mem
  exact wellFormed.operands_before position gate at_position _ operand

/-- The inputs that are read are declared. -/
theorem WellFormed.mem_inputs_of_readsInput (wellFormed : circuit.WellFormed) {name : String}
    (reads : circuit.ReadsInput name) : name ∈ circuit.inputs := by
  rcases reads with gatesRead | ⟨output, mem, same⟩
  · exact wellFormed.mem_inputs_of_gatesRead gatesRead
  · have before := wellFormed.outputs_bound output mem
    rw [same] at before
    exact before

/-- Where all inputs are assigned, an output is evaluated to the value of its
node. -/
theorem WellFormed.evaluateOutput_eq_ok (wellFormed : circuit.WellFormed)
    (assigns : assignment.Assigns circuit.inputs) {name : String} {node : Node} {value : Bool}
    (bound : circuit.output? name = some node)
    (carries : circuit.Carries assignment node value) :
    circuit.evaluateOutput name assignment = .ok value := by
  have declared (input : String) (reads : circuit.GatesRead input ∨ node = .input input) :
      input ∈ circuit.inputs := by
    rcases reads with gatesRead | rfl
    · exact wellFormed.mem_inputs_of_gatesRead gatesRead
    · exact contains_iff_nodeBefore.mp carries.1
  exact wellFormed.evaluateOutput_eq_ok_of_isSome bound carries.1
    (fun input reads => assigns input (declared input reads)) carries.2

/-- Under an assignment of the inputs, all outputs of a well-formed circuit
have values. -/
theorem WellFormed.exists_outputValues (wellFormed : circuit.WellFormed)
    (assigns : assignment.Assigns circuit.inputs) :
    ∃ values, circuit.OutputValues assignment circuit.outputs values := by
  refine exists_forall₂ fun output mem => ?_
  have bound := wellFormed.outputs_bound output mem
  obtain ⟨value, hasValue⟩ := bound.exists_hasValue wellFormed assigns
  exact ⟨(output.1, value), rfl, hasValue⟩

/-- Where all inputs are assigned, the outputs are evaluated to the values of
their nodes, in order. -/
theorem WellFormed.evaluate_eq_ok (wellFormed : circuit.WellFormed)
    (assigns : assignment.Assigns circuit.inputs) {results : List (String × Bool)}
    (outputValues : circuit.OutputValues assignment circuit.outputs results) :
    circuit.evaluate assignment = .ok results := by
  obtain ⟨others, evaluated, otherValues, -⟩ :=
    (wellFormed.endsIn_evaluate assignment).exists_eq_ok
      (Assignment.not_misses fun name reads =>
        assigns name (wellFormed.mem_inputs_of_readsInput reads))
  rw [evaluated, otherValues.unique outputValues]

end Circuit

end Switching
