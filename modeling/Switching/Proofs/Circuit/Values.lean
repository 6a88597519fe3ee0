import Mathlib.Data.List.Forall2
import Mathlib.Data.List.Nodup
import Switching.Circuit.Cone
import Switching.Proofs.Table.Rows

/-!
# Values of nodes

In a well-formed circuit every node has exactly one value under an assignment
of the inputs, and the value stays as the circuit grows.
-/

namespace Switching

/-- Where every member of a list has a partner, there is a list of partners. -/
theorem exists_forall₂ {α β : Type} {relation : α → β → Prop} {list : List α}
    (partners : ∀ first ∈ list, ∃ second, relation first second) :
    ∃ others, List.Forall₂ relation list others := by
  induction list with
  | nil => exact ⟨[], .nil⟩
  | cons first rest ih =>
      rw [List.forall_mem_cons] at partners
      obtain ⟨second, related⟩ := partners.1
      obtain ⟨others, restRelated⟩ := ih partners.2
      exact ⟨second :: others, .cons related restRelated⟩

/-- Every partner in a list of partners belongs to a member. -/
theorem exists_mem_of_forall₂ {α β : Type} {relation : α → β → Prop} {list : List α}
    {others : List β} (related : List.Forall₂ relation list others) {second : β}
    (mem : second ∈ others) : ∃ first ∈ list, relation first second := by
  induction related with
  | nil => cases mem
  | @cons first other _ _ both _ ih =>
      rcases List.mem_cons.mp mem with rfl | later
      · exact ⟨first, List.mem_cons_self, both⟩
      · obtain ⟨found, foundMem, foundBoth⟩ := ih later
        exact ⟨found, List.mem_cons_of_mem _ foundMem, foundBoth⟩

theorem mem_of_lookup_eq_some {α : Type} {bindings : List (String × α)} {name : String} {value : α}
    (found : bindings.lookup name = some value) : (name, value) ∈ bindings := by
  rcases List.lookup_eq_some_iff.mp found with ⟨before, after, bindings_eq, -⟩
  rw [bindings_eq]
  exact List.mem_append_right before List.mem_cons_self

/-- Where all keys are different, every binding is found by its key. -/
theorem lookup_eq_some_of_mem {α : Type} {bindings : List (String × α)}
    (nodup : (bindings.map Prod.fst).Nodup) {name : String} {value : α}
    (mem : (name, value) ∈ bindings) : bindings.lookup name = some value := by
  induction bindings with
  | nil => cases mem
  | cons first rest ih =>
      rw [List.map_cons, List.nodup_cons] at nodup
      rw [List.lookup_cons]
      rcases List.mem_cons.mp mem with rfl | later
      · rw [beq_self_eq_true]
      · have differ : name ≠ first.1 := fun same =>
          nodup.1 (same ▸ List.mem_map_of_mem later)
        rw [beq_eq_false_iff_ne.mpr differ]
        exact ih nodup.2 later

namespace Circuit

variable {circuit larger : Circuit} {assignment : Assignment}

/-! ## Gates and nodes -/

theorem exists_driver_of_contains {id : GateId} (contained : circuit.contains (.gate id) = true) :
    ∃ gate, circuit.gate? id = some gate :=
  Option.isSome_iff_exists.mp contained

theorem contains_of_gate? {id : GateId} {gate : Gate} (found : circuit.gate? id = some gate) :
    circuit.contains (.gate id) = true :=
  Option.isSome_iff_exists.mpr ⟨gate, found⟩

/-- The number of a gate is a position in the circuit. -/
theorem serial_lt_of_gate? {id : GateId} {gate : Gate} (found : circuit.gate? id = some gate) :
    id.serial < circuit.gates.size :=
  (Array.getElem?_eq_some_iff.mp ((circuit.gate?_eq_some_iff).mp found).1).1

/-- The nodes of a circuit are its inputs and the gates before its end. -/
theorem contains_iff_nodeBefore {node : Node} :
    circuit.contains node = true ↔ circuit.NodeBefore circuit.gates.size node := by
  cases node with
  | input name => simp [contains, NodeBefore]
  | gate id =>
      constructor
      · intro contained
        obtain ⟨gate, found⟩ := exists_driver_of_contains contained
        exact ⟨serial_lt_of_gate? found, gate, found⟩
      · rintro ⟨-, gate, found⟩
        exact contains_of_gate? found

theorem NodeBefore.mono {first second : Nat} {node : Node}
    (before : circuit.NodeBefore first node) (le : first ≤ second) :
    circuit.NodeBefore second node := by
  cases node with
  | input name => exact before
  | gate id => exact ⟨Nat.lt_of_lt_of_le before.1 le, before.2⟩

theorem NodeBefore.contains {position : Nat} {node : Node}
    (before : circuit.NodeBefore position node) : circuit.contains node = true := by
  cases node with
  | input name => exact List.contains_iff_mem.mpr before
  | gate id => exact Option.isSome_iff_exists.mpr before.2

/-- In a well-formed circuit the gate at a position is found by its identity. -/
theorem WellFormed.gate?_id (wellFormed : circuit.WellFormed) {position : Nat} {gate : Gate}
    (at_position : circuit.gates[position]? = some gate) :
    circuit.gate? gate.id = some gate := by
  rw [gate?_eq_some_iff, wellFormed.serial_eq position gate at_position]
  exact ⟨at_position, rfl⟩

/-- The gates of a well-formed circuit have different identities. -/
theorem WellFormed.ids_nodup (wellFormed : circuit.WellFormed) :
    (circuit.gates.toList.map Gate.id).Nodup := by
  have serials_eq : (circuit.gates.toList.map Gate.id).map GateId.serial =
      List.range circuit.gates.size := by
    apply List.ext_getElem
    · simp
    · intro position bound _
      simp only [List.length_map, Array.length_toList] at bound
      simp [wellFormed.serial_eq position _ (Array.getElem?_eq_getElem bound)]
  exact List.Nodup.of_map GateId.serial (serials_eq ▸ List.nodup_range)

/-- The operands of a gate come before it. -/
theorem WellFormed.nodeBefore_of_gate? (wellFormed : circuit.WellFormed) {id : GateId}
    {gate : Gate} (found : circuit.gate? id = some gate) {node : Node}
    (mem : node ∈ gate.operands) : circuit.NodeBefore id.serial node :=
  wellFormed.operands_before id.serial gate ((circuit.gate?_eq_some_iff).mp found).1 node mem

theorem WellFormed.accepts_of_gate? (wellFormed : circuit.WellFormed) {id : GateId}
    {gate : Gate} (found : circuit.gate? id = some gate) :
    gate.kind.accepts gate.operands.length = true :=
  wellFormed.arity_accepted gate
    (Array.mem_of_getElem? ((circuit.gate?_eq_some_iff).mp found).1)

/-! ## Values -/

@[simp]
theorem hasValue_input_iff {name : String} {value : Bool} :
    circuit.HasValue assignment (.input name) value ↔ assignment.value? name = some value :=
  ⟨fun hasValue => by cases hasValue; assumption, .input⟩

/-- A gate has the value that its function gives for the values of its
operands. -/
theorem hasValue_gate_iff {id : GateId} {value : Bool} :
    circuit.HasValue assignment (.gate id) value ↔
      ∃ gate values, circuit.gate? id = some gate ∧
        List.Forall₂ (circuit.HasValue assignment) gate.operands values ∧
        gate.kind.apply values = value := by
  constructor
  · rintro (_ | @⟨_, gate, values, found, length_eq, operands⟩)
    refine ⟨gate, values, found, List.forall₂_iff_get.mpr ⟨length_eq, ?_⟩, rfl⟩
    intro position operandBound valueBound
    exact operands position _ _ (List.getElem?_eq_getElem operandBound)
      (List.getElem?_eq_getElem valueBound)
  · rintro ⟨gate, values, found, operands, rfl⟩
    refine .gate found operands.length_eq fun position operand value atOperand atValue => ?_
    obtain ⟨operandBound, rfl⟩ := List.getElem?_eq_some_iff.mp atOperand
    obtain ⟨valueBound, rfl⟩ := List.getElem?_eq_some_iff.mp atValue
    exact operands.get operandBound valueBound

/-- A node has at most one value. -/
theorem HasValue.unique {node : Node} {first second : Bool}
    (hasFirst : circuit.HasValue assignment node first)
    (hasSecond : circuit.HasValue assignment node second) : first = second := by
  induction hasFirst generalizing second with
  | input assigned =>
      rw [hasValue_input_iff, assigned] at hasSecond
      exact Option.some.inj hasSecond
  | @gate id gate values found length_eq operands ih =>
      obtain ⟨other, others, foundOther, otherOperands, rfl⟩ := hasValue_gate_iff.mp hasSecond
      obtain rfl : gate = other := Option.some.inj (found.symm.trans foundOther)
      have values_eq : values = others := by
        refine List.ext_getElem (length_eq.symm.trans otherOperands.length_eq) ?_
        intro position valueBound otherBound
        have operandBound := length_eq ▸ valueBound
        exact ih position _ _ (List.getElem?_eq_getElem operandBound)
          (List.getElem?_eq_getElem valueBound) (otherOperands.get operandBound otherBound)
      rw [values_eq]

/-- Under an assignment of the inputs, every node of a well-formed circuit has
a value. -/
theorem NodeBefore.exists_hasValue (wellFormed : circuit.WellFormed)
    (assigns : assignment.Assigns circuit.inputs) {position : Nat} {node : Node}
    (before : circuit.NodeBefore position node) :
    ∃ value, circuit.HasValue assignment node value := by
  -- The operands of a gate have smaller numbers than the gate.
  induction position using Nat.strongRecOn generalizing node with
  | ind position ih =>
      cases node with
      | input name =>
          obtain ⟨value, value_eq⟩ := Option.isSome_iff_exists.mp (assigns name before)
          exact ⟨value, .input value_eq⟩
      | gate id =>
          obtain ⟨smaller, gate, found⟩ := before
          have operandValues : ∀ node ∈ gate.operands,
              ∃ value, circuit.HasValue assignment node value := fun node mem =>
            ih id.serial smaller (wellFormed.nodeBefore_of_gate? found mem)
          obtain ⟨values, operands⟩ := exists_forall₂ operandValues
          exact ⟨_, hasValue_gate_iff.mpr ⟨gate, values, found, operands, rfl⟩⟩

/-! ## Growing circuits -/

/-- A circuit extends another one with the same inputs if it starts with the
same gates. -/
structure Extends (larger circuit : Circuit) : Prop where
  inputs_eq : larger.inputs = circuit.inputs
  gates : ∀ (position : Nat) (gate : Gate), circuit.gates[position]? = some gate →
    larger.gates[position]? = some gate

theorem Extends.refl (circuit : Circuit) : circuit.Extends circuit :=
  ⟨rfl, fun _ _ at_position => at_position⟩

theorem Extends.trans {largest : Circuit} (second : largest.Extends larger)
    (first : larger.Extends circuit) : largest.Extends circuit :=
  ⟨second.inputs_eq.trans first.inputs_eq, fun position gate at_position =>
    second.gates position gate (first.gates position gate at_position)⟩

theorem Extends.gate? (extension : larger.Extends circuit) {id : GateId} {gate : Gate}
    (found : circuit.gate? id = some gate) : larger.gate? id = some gate := by
  rw [gate?_eq_some_iff] at found ⊢
  exact ⟨extension.gates _ _ found.1, found.2⟩

theorem Extends.contains (extension : larger.Extends circuit) {node : Node}
    (contained : circuit.contains node = true) : larger.contains node = true := by
  cases node with
  | input name => simpa [Circuit.contains, extension.inputs_eq] using contained
  | gate id =>
      obtain ⟨gate, found⟩ := exists_driver_of_contains contained
      exact contains_of_gate? (extension.gate? found)

theorem Extends.nodeBefore (extension : larger.Extends circuit) {position : Nat} {node : Node}
    (before : circuit.NodeBefore position node) : larger.NodeBefore position node := by
  cases node with
  | input name =>
      change name ∈ larger.inputs
      rw [extension.inputs_eq]
      exact before
  | gate id => exact ⟨before.1, before.2.imp fun _ found => extension.gate? found⟩

/-- Values stay as the circuit grows. -/
theorem Extends.hasValue (extension : larger.Extends circuit) {node : Node} {value : Bool}
    (hasValue : circuit.HasValue assignment node value) :
    larger.HasValue assignment node value := by
  induction hasValue with
  | input assigned => exact .input assigned
  | gate found length_eq _ ih => exact .gate (extension.gate? found) length_eq ih

/-- A node of a circuit with its value. -/
def Carries (circuit : Circuit) (assignment : Assignment) (node : Node) (value : Bool) : Prop :=
  circuit.contains node = true ∧ circuit.HasValue assignment node value

theorem Extends.carries (extension : larger.Extends circuit) {node : Node} {value : Bool}
    (carries : circuit.Carries assignment node value) : larger.Carries assignment node value :=
  ⟨extension.contains carries.1, extension.hasValue carries.2⟩

theorem Extends.carriesAll (extension : larger.Extends circuit) {nodes : List Node}
    {values : List Bool} (carry : List.Forall₂ (circuit.Carries assignment) nodes values) :
    List.Forall₂ (larger.Carries assignment) nodes values :=
  carry.imp fun _ _ => extension.carries

/-- Every node of a well-formed circuit carries a value. -/
theorem WellFormed.exists_carries (wellFormed : circuit.WellFormed)
    (assigns : assignment.Assigns circuit.inputs) {node : Node}
    (contained : circuit.contains node = true) :
    ∃ value, circuit.Carries assignment node value :=
  ((contains_iff_nodeBefore.mp contained).exists_hasValue wellFormed assigns).imp
    fun _ hasValue => ⟨contained, hasValue⟩

/-- A circuit refines another one with the same inputs if its outputs of the
same names have the same values. -/
structure Refines (result circuit : Circuit) : Prop where
  wellFormed : result.WellFormed
  inputs_eq : result.inputs = circuit.inputs
  outputs : ∀ assignment : Assignment, assignment.Assigns circuit.inputs →
    ∀ (name : String) (node : Node) (value : Bool), circuit.output? name = some node →
      circuit.Carries assignment node value →
      ∃ other, result.output? name = some other ∧ result.Carries assignment other value

theorem Refines.refl (wellFormed : circuit.WellFormed) : circuit.Refines circuit :=
  ⟨wellFormed, rfl, fun _ _ _ node _ bound carries => ⟨node, bound, carries⟩⟩

theorem Refines.trans {result : Circuit} (second : result.Refines larger)
    (first : larger.Refines circuit) : result.Refines circuit where
  wellFormed := second.wellFormed
  inputs_eq := second.inputs_eq.trans first.inputs_eq
  outputs assignment assigns name node value bound carries := by
    obtain ⟨middle, middleBound, middleCarries⟩ :=
      first.outputs assignment assigns name node value bound carries
    exact second.outputs assignment (first.inputs_eq.symm ▸ assigns) name middle value middleBound
      middleCarries

end Circuit

end Switching
