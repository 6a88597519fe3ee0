import Mathlib.Data.Set.Card
import Switching.Circuit.Shape
import Switching.Proofs.Circuit.Libraries
import Switching.Proofs.Circuit.LiveGates
import Switching.Proofs.Circuit.OutputTrees

/-!
# Shapes of nodes

Every node of a well-formed circuit has exactly one shape, also if gates are passed
over for earlier nodes of their cones.  Where no gate is repeated, nodes of the same
shape are the same; where no gate is out of reach, the gates are the gates in the
shapes of the outputs.  So the shapes of the outputs say how many gates of each kind
a circuit without repeated and unused gates has.
-/

namespace Switching

/-- Where every member of a set has a partner in a finite set and no two of them
share it, the finite set is at least as large. -/
theorem ncard_le_of_partners {α β : Type} (related : α → β → Prop) {members : Set α}
    {others : Set β} (finite : others.Finite)
    (partners : ∀ member ∈ members, ∃ other ∈ others, related member other)
    (unshared : ∀ first ∈ members, ∀ second ∈ members, ∀ other,
      related first other → related second other → first = second) :
    members.ncard ≤ others.ncard := by
  rcases members.eq_empty_or_nonempty with rfl | ⟨member, mem⟩
  · simp
  · have : Nonempty β := ⟨(partners member mem).choose⟩
    choose! partner inOthers isPartner using partners
    apply Set.ncard_le_ncard_of_injOn partner inOthers _ finite
    intro first firstMem second secondMem same
    apply unshared first firstMem second secondMem (partner first)
    · exact isPartner first firstMem
    · exact same ▸ isPartner second secondMem

namespace Circuit

variable {circuit larger : Circuit} {standIn? : Gate → Option Node} {node other : Node}
  {shape : Shape} {id : GateId} {gate : Gate}

/-! ## Shapes of gates -/

@[simp]
theorem shapeVia_input_iff {name : String} :
    circuit.ShapeVia standIn? (.input name) shape ↔ shape = .input name := by
  constructor
  · intro via
    cases via
    rfl
  · rintro rfl
    exact .input

theorem ShapeVia.of_forall₂ {shapes : List Shape} (found : circuit.gate? id = some gate)
    (keeps : standIn? gate = none)
    (operands : List.Forall₂ (circuit.ShapeVia standIn?) gate.operands shapes) :
    circuit.ShapeVia standIn? (.gate id) (.gate gate.kind shapes) := by
  apply ShapeVia.kept found keeps operands.length_eq
  intro position operand shape atOperand atShape
  rcases List.getElem?_eq_some_iff.mp atOperand with ⟨operandBound, rfl⟩
  rcases List.getElem?_eq_some_iff.mp atShape with ⟨shapeBound, rfl⟩
  exact operands.get operandBound shapeBound

/-- A gate has the shape of its stand-in or, if it has none, the shape that its
operands give. -/
theorem shapeVia_gate_iff (found : circuit.gate? id = some gate) :
    circuit.ShapeVia standIn? (.gate id) shape ↔
      (∃ standIn, standIn? gate = some standIn ∧ circuit.ShapeVia standIn? standIn shape) ∨
      standIn? gate = none ∧ ∃ shapes,
        List.Forall₂ (circuit.ShapeVia standIn?) gate.operands shapes ∧
          shape = .gate gate.kind shapes := by
  constructor
  · intro via
    cases via with
    | passed otherFound passes via =>
        cases found.symm.trans otherFound
        exact .inl ⟨_, passes, via⟩
    | kept otherFound keeps length_eq operands =>
        cases found.symm.trans otherFound
        have related := List.forall₂_iff_get.mpr ⟨length_eq, fun position operandBound shapeBound =>
          operands position _ _ (List.getElem?_eq_getElem operandBound)
            (List.getElem?_eq_getElem shapeBound)⟩
        exact .inr ⟨keeps, _, related, rfl⟩
  · rintro (⟨standIn, passes, via⟩ | ⟨keeps, shapes, operands, rfl⟩)
    · exact .passed found passes via
    · exact .of_forall₂ found keeps operands

/-- A gate has the shape that its operands give. -/
theorem hasShape_gate_iff (found : circuit.gate? id = some gate) :
    circuit.HasShape (.gate id) shape ↔ ∃ shapes,
      List.Forall₂ circuit.HasShape gate.operands shapes ∧ shape = .gate gate.kind shapes := by
  simp [shapeVia_gate_iff found]

theorem ShapeVia.exists_gate? (via : circuit.ShapeVia standIn? (.gate id) shape) :
    ∃ gate, circuit.gate? id = some gate := by
  cases via with
  | passed found => exact ⟨_, found⟩
  | kept found => exact ⟨_, found⟩

/-- A node has at most one shape. -/
theorem ShapeVia.unique {second : Shape} (hasFirst : circuit.ShapeVia standIn? node shape)
    (hasSecond : circuit.ShapeVia standIn? node second) : shape = second := by
  induction hasFirst generalizing second with
  | input => exact (shapeVia_input_iff.mp hasSecond).symm
  | passed found passes _ ih =>
      rcases (shapeVia_gate_iff found).mp hasSecond with ⟨standIn, same, via⟩ | ⟨keeps, -⟩
      · cases passes.symm.trans same
        exact ih via
      · cases passes.symm.trans keeps
  | @kept id gate shapes found keeps length_eq operands ih =>
      rcases (shapeVia_gate_iff found).mp hasSecond with ⟨_, passes, -⟩ | ⟨-, others, same, rfl⟩
      · cases keeps.symm.trans passes
      · have shapes_eq : shapes = others := by
          apply List.ext_getElem (length_eq.symm.trans same.length_eq)
          intro position shapeBound otherBound
          have operandBound := length_eq ▸ shapeBound
          exact ih position _ _ (List.getElem?_eq_getElem operandBound)
            (List.getElem?_eq_getElem shapeBound) (same.get operandBound otherBound)
        rw [shapes_eq]

/-- Shapes stay as the circuit grows. -/
theorem Extends.hasShape (extension : larger.Extends circuit)
    (hasShape : circuit.HasShape node shape) : larger.HasShape node shape := by
  induction hasShape with
  | input => exact .input
  | passed _ passes => cases passes
  | kept found keeps length_eq _ ih => exact .kept (extension.gate? found) keeps length_eq ih

/-! ## Stand-ins from the cone -/

/-- The stand-in of a gate is an earlier node of its cone. -/
def StandsBack (circuit : Circuit) (standIn? : Gate → Option Node) : Prop :=
  ∀ (id : GateId) (gate : Gate) (standIn : Node), circuit.gate? id = some gate →
    standIn? gate = some standIn →
      circuit.NodeBefore id.serial standIn ∧ circuit.InCone (.gate id) standIn

theorem standsBack_none (circuit : Circuit) : circuit.StandsBack fun _ => none :=
  fun _ _ _ _ passes => nomatch passes

/-- Every node of a well-formed circuit has a shape. -/
theorem StandsBack.exists_shapeVia (back : circuit.StandsBack standIn?)
    (wellFormed : circuit.WellFormed) {position : Nat}
    (before : circuit.NodeBefore position node) :
    ∃ shape, circuit.ShapeVia standIn? node shape := by
  induction position using Nat.strongRecOn generalizing node with
  | ind position ih =>
      cases node with
      | input name => exact ⟨_, .input⟩
      | gate id =>
          rcases before with ⟨smaller, gate, found⟩
          cases passes : standIn? gate with
          | some standIn =>
              rcases ih id.serial smaller (back id gate standIn found passes).1 with ⟨shape, via⟩
              exact ⟨shape, .passed found passes via⟩
          | none =>
              rcases exists_forall₂ fun operand mem =>
                ih id.serial smaller (wellFormed.nodeBefore_of_gate? found mem) with
                ⟨shapes, operands⟩
              exact ⟨_, .of_forall₂ found passes operands⟩

/-- The gate at the root of the shape of a node is a gate without a stand-in in the
cone of the node. -/
theorem StandsBack.exists_gate (back : circuit.StandsBack standIn?) {kind : GateKind}
    {shapes : List Shape} (via : circuit.ShapeVia standIn? node (.gate kind shapes)) :
    ∃ id gate, circuit.InCone node (.gate id) ∧ circuit.gate? id = some gate ∧
      standIn? gate = none ∧ gate.kind = kind ∧
      List.Forall₂ (circuit.ShapeVia standIn?) gate.operands shapes := by
  generalize shape_eq : Shape.gate kind shapes = shape at via
  induction via with
  | input => cases shape_eq
  | @passed id gate standIn _ found passes _ ih =>
      rcases ih shape_eq with ⟨innerId, inner, inside, rest⟩
      exact ⟨innerId, inner, (back id gate standIn found passes).2.trans inside, rest⟩
  | kept found keeps length_eq operands =>
      cases shape_eq
      have via := ShapeVia.kept found keeps length_eq operands
      rcases (shapeVia_gate_iff found).mp via with ⟨_, passes, -⟩ | ⟨-, others, same, shapes_eq⟩
      · cases keeps.symm.trans passes
      · cases shapes_eq
        exact ⟨_, _, .self, found, keeps, rfl, same⟩

/-- What the shape of a node contains is the shape of a node of the cone. -/
theorem StandsBack.exists_of_contains (back : circuit.StandsBack standIn?)
    (via : circuit.ShapeVia standIn? node shape) {part : Shape} (contains : shape.Contains part) :
    ∃ other, circuit.InCone node other ∧ circuit.ShapeVia standIn? other part := by
  induction contains with
  | self => exact ⟨node, .self, via⟩
  | operand _ mem ih =>
      rcases ih with ⟨other, inside, otherVia⟩
      rcases back.exists_gate otherVia with ⟨id, gate, gateInside, found, -, -, operands⟩
      rcases exists_mem_of_forall₂ operands mem with ⟨operand, operandMem, operandVia⟩
      exact ⟨operand, (inside.trans gateInside).operand found operandMem, operandVia⟩

/-- The nodes of a cone have their shapes in the shape of its root. -/
theorem InCone.exists_hasShape (inside : circuit.InCone node other)
    (hasShape : circuit.HasShape node shape) :
    ∃ part, shape.Contains part ∧ circuit.HasShape other part := by
  induction inside with
  | self => exact ⟨shape, .self, hasShape⟩
  | operand _ found mem ih =>
      rcases ih with ⟨part, contains, partOf⟩
      rcases (hasShape_gate_iff found).mp partOf with ⟨shapes, operands, rfl⟩
      rcases exists_mem_of_forall₂ operands.flip mem with ⟨below, belowMem, belowShape⟩
      exact ⟨below, contains.operand belowMem, belowShape⟩

/-! ## Circuits without repeated gates -/

/-- Gates of one kind over the same operands are the same. -/
theorem GatesDistinct.eq_of_gate? (distinct : circuit.GatesDistinct) {otherId : GateId}
    {otherGate : Gate} (found : circuit.gate? id = some gate)
    (otherFound : circuit.gate? otherId = some otherGate) (kind_eq : gate.kind = otherGate.kind)
    (operands_eq : gate.operands = otherGate.operands) : id = otherId := by
  rcases circuit.gate?_eq_some_iff.mp found with ⟨at_position, rfl⟩
  rcases circuit.gate?_eq_some_iff.mp otherFound with ⟨at_other, rfl⟩
  have mem := Array.mem_toList_iff.mpr (Array.mem_of_getElem? at_position)
  have otherMem := Array.mem_toList_iff.mpr (Array.mem_of_getElem? at_other)
  have same := List.inj_on_of_nodup_map distinct mem otherMem
    (Prod.ext kind_eq operands_eq)
  rw [same]

/-- A node whose shape has a gate at its root is a gate with operands of the shapes
below the root. -/
theorem exists_gate_of_hasShape {kind : GateKind} {shapes : List Shape}
    (hasShape : circuit.HasShape node (.gate kind shapes)) :
    ∃ id gate, node = .gate id ∧ circuit.gate? id = some gate ∧ gate.kind = kind ∧
      List.Forall₂ circuit.HasShape gate.operands shapes := by
  cases node with
  | input name => cases shapeVia_input_iff.mp hasShape
  | gate id =>
      rcases hasShape.exists_gate? with ⟨gate, found⟩
      rcases (hasShape_gate_iff found).mp hasShape with ⟨others, operands, same⟩
      cases same
      exact ⟨id, gate, rfl, found, rfl, operands⟩

/-- Nodes of the same shape are the same. -/
theorem GatesDistinct.node_eq (distinct : circuit.GatesDistinct)
    (hasShape : circuit.HasShape node shape) (otherShape : circuit.HasShape other shape) :
    node = other := by
  induction hasShape generalizing other with
  | input =>
      cases otherShape with
      | input => rfl
      | passed _ passes => cases passes
  | passed _ passes => cases passes
  | @kept id gate shapes found keeps length_eq operands ih =>
      rcases exists_gate_of_hasShape otherShape with
        ⟨otherId, otherGate, rfl, otherFound, kind_eq, same⟩
      have operands_eq : gate.operands = otherGate.operands := by
        apply List.ext_getElem (length_eq.trans same.length_eq.symm)
        intro position bound otherBound
        have shapeBound := length_eq ▸ bound
        exact ih position _ _ (List.getElem?_eq_getElem bound)
          (List.getElem?_eq_getElem shapeBound) (same.get otherBound shapeBound)
      rw [distinct.eq_of_gate? found otherFound kind_eq.symm operands_eq]

/-! ## Gates in the shapes of the outputs -/

/-- The gates in the shapes of the outputs, of the given kinds. -/
def gateShapes (circuit : Circuit) (standIn? : Gate → Option Node) (which : GateKind → Bool) :
    Set Shape :=
  {shape | circuit.OccursVia standIn? shape ∧
    ∃ kind shapes, shape = .gate kind shapes ∧ which kind = true}

/-- A gate that occurs in the outputs is a reachable gate without a stand-in. -/
theorem StandsBack.exists_reachableGate (back : circuit.StandsBack standIn?) {kind : GateKind}
    {shapes : List Shape} (occurs : circuit.OccursVia standIn? (.gate kind shapes)) :
    ∃ gate, circuit.ReachableGate gate ∧ standIn? gate = none ∧ gate.kind = kind ∧
      List.Forall₂ (circuit.ShapeVia standIn?) gate.operands shapes := by
  rcases occurs with ⟨output, outputMem, whole, via, contains⟩
  rcases back.exists_of_contains via contains with ⟨other, inside, otherVia⟩
  rcases back.exists_gate otherVia with ⟨id, gate, gateInside, found, rest⟩
  have reachable : circuit.Reachable (.gate id) :=
    ⟨output, outputMem, inside.trans gateInside⟩
  exact ⟨gate, reachableGate_of_gate? found reachable, rest⟩

theorem finite_gates (circuit : Circuit) : {gate | gate ∈ circuit.gates}.Finite := by
  apply circuit.gates.toList.toFinset.finite_toSet.subset
  intro gate mem
  simpa using mem

/-- There are no more gates in the shapes of the outputs than reachable gates
without stand-ins. -/
theorem StandsBack.ncard_gateShapes_le (back : circuit.StandsBack standIn?)
    (which : GateKind → Bool) :
    (circuit.gateShapes standIn? which).ncard ≤
      {gate | circuit.ReachableGate gate ∧ standIn? gate = none ∧
        which gate.kind = true}.ncard := by
  have finite : {gate | circuit.ReachableGate gate ∧ standIn? gate = none ∧
      which gate.kind = true}.Finite :=
    circuit.finite_gates.subset fun _ counted => counted.1.1
  apply ncard_le_of_partners (fun shape gate => ∃ shapes,
    List.Forall₂ (circuit.ShapeVia standIn?) gate.operands shapes ∧
      shape = .gate gate.kind shapes) finite
  · rintro shape ⟨occurs, kind, shapes, rfl, allowed⟩
    rcases back.exists_reachableGate occurs with ⟨gate, reachable, keeps, rfl, operands⟩
    exact ⟨gate, ⟨reachable, keeps, allowed⟩, shapes, operands, rfl⟩
  · rintro first - second - gate ⟨shapes, operands, rfl⟩ ⟨others, same, rfl⟩
    have shapes_eq : shapes = others :=
      List.right_unique_forall₂' (fun _ _ _ first second => first.unique second) operands same
    rw [shapes_eq]

/-- A well-formed circuit without repeated and without unused gates. -/
structure Compact (circuit : Circuit) : Prop where
  wellFormed : circuit.WellFormed
  distinct : circuit.GatesDistinct
  live : ∀ gate ∈ circuit.gates, circuit.Reachable (.gate gate.id)

theorem WellFormed.gate?_of_mem (wellFormed : circuit.WellFormed) (mem : gate ∈ circuit.gates) :
    circuit.gate? gate.id = some gate := by
  rcases Array.mem_iff_getElem?.mp mem with ⟨position, at_position⟩
  exact wellFormed.gate?_id at_position

/-- Every gate of a well-formed circuit has a shape, which its operands give. -/
theorem WellFormed.exists_operandShapes (wellFormed : circuit.WellFormed)
    (mem : gate ∈ circuit.gates) :
    ∃ shapes, List.Forall₂ circuit.HasShape gate.operands shapes ∧
      circuit.HasShape (.gate gate.id) (.gate gate.kind shapes) := by
  have found := wellFormed.gate?_of_mem mem
  have before := contains_iff_nodeBefore.mp (contains_of_gate? found)
  rcases circuit.standsBack_none.exists_shapeVia wellFormed before with ⟨shape, hasShape⟩
  rcases (hasShape_gate_iff found).mp hasShape with ⟨shapes, operands, rfl⟩
  exact ⟨shapes, operands, hasShape⟩

/-- The gates of a well-formed circuit are counted without repetition. -/
theorem WellFormed.countP_eq_ncard (wellFormed : circuit.WellFormed) (which : GateKind → Bool) :
    circuit.gates.countP (which ·.kind) =
      {gate | gate ∈ circuit.gates ∧ which gate.kind = true}.ncard := by
  classical
  have gates_eq : {gate | gate ∈ circuit.gates ∧ which gate.kind = true} =
      {gate | gate ∈ circuit.gates.toList.filter (which ·.kind)} := by
    ext gate
    simp
  have nodup : (circuit.gates.toList.filter (which ·.kind)).Nodup :=
    wellFormed.ids_nodup.of_map.filter _
  rw [gates_eq, ← List.coe_toFinset, Set.ncard_coe_finset, List.toFinset_card_of_nodup nodup,
    ← List.countP_eq_length_filter, Array.countP_toList]

theorem WellFormed.gateCount_eq_ncard (wellFormed : circuit.WellFormed) :
    circuit.gateCount = {gate | gate ∈ circuit.gates}.ncard := by
  have counted := wellFormed.countP_eq_ncard fun _ => true
  simpa [gateCount] using counted

/-- The shape of a reachable gate occurs in the outputs. -/
theorem WellFormed.occurs_of_reachable (wellFormed : circuit.WellFormed)
    (reachable : circuit.Reachable node) (hasShape : circuit.HasShape node shape) :
    circuit.Occurs shape := by
  rcases reachable with ⟨output, mem, inside⟩
  rcases circuit.standsBack_none.exists_shapeVia wellFormed (wellFormed.outputs_bound output mem)
    with ⟨whole, wholeShape⟩
  rcases inside.exists_hasShape wholeShape with ⟨part, contains, partShape⟩
  cases hasShape.unique partShape
  exact ⟨output, mem, whole, wholeShape, contains⟩

/-- A circuit without repeated and unused gates has as many gates as there are gates
in the shapes of its outputs. -/
theorem Compact.countP_eq (compact : circuit.Compact) (which : GateKind → Bool) :
    circuit.gates.countP (which ·.kind) = (circuit.gateShapes (fun _ => none) which).ncard := by
  have wellFormed := compact.wellFormed
  rw [wellFormed.countP_eq_ncard]
  choose shapesOf operands hasShape using fun gate (mem : gate ∈ circuit.gates) =>
    wellFormed.exists_operandShapes mem
  apply Set.ncard_congr fun gate mem => .gate gate.kind (shapesOf gate mem.1)
  · rintro gate ⟨mem, allowed⟩
    exact ⟨wellFormed.occurs_of_reachable (compact.live gate mem) (hasShape gate mem),
      gate.kind, _, rfl, allowed⟩
  · rintro first second ⟨firstMem, _⟩ ⟨secondMem, _⟩ same
    have node_eq := compact.distinct.node_eq (hasShape first firstMem)
      (same ▸ hasShape second secondMem)
    have found := wellFormed.gate?_of_mem firstMem
    rw [Node.gate.inj node_eq, wellFormed.gate?_of_mem secondMem] at found
    exact (Option.some.inj found).symm
  · rintro shape ⟨occurs, kind, shapes, rfl, allowed⟩
    rcases circuit.standsBack_none.exists_reachableGate occurs with
      ⟨gate, ⟨mem, -⟩, -, rfl, related⟩
    have shapes_eq : shapesOf gate mem = shapes :=
      List.right_unique_forall₂' (fun _ _ _ first second => first.unique second)
        (operands gate mem) related
    exact ⟨gate, ⟨mem, allowed⟩, by rw [shapes_eq]⟩

/-! ## Shapes of trees -/

/-- The shapes of the outputs under their names. -/
def OutputShapes (circuit : Circuit) (standIn? : Gate → Option Node)
    (shapes : List (String × Shape)) : Prop :=
  List.Forall₂ (fun output named => output.1 = named.1 ∧
    circuit.ShapeVia standIn? output.2 named.2) circuit.outputs shapes

theorem OutputShapes.unique {first second : List (String × Shape)}
    (hasFirst : circuit.OutputShapes standIn? first)
    (hasSecond : circuit.OutputShapes standIn? second) : first = second := by
  apply List.right_unique_forall₂' _ hasFirst hasSecond
  rintro output left right ⟨leftName, leftVia⟩ ⟨rightName, rightVia⟩
  exact Prod.ext (leftName.symm.trans rightName) (leftVia.unique rightVia)

/-- A list of results is made of the results of the members. -/
theorem forall₂_of_mapM_eq_ok {ε α β : Type} {step : α → Except ε β} {list : List α}
    {results : List β} (made : list.mapM step = .ok results) :
    List.Forall₂ (fun member result => step member = .ok result) list results := by
  induction list generalizing results with
  | nil =>
      cases made
      exact .nil
  | cons member rest ih =>
      rw [List.mapM_cons] at made
      cases here : step member with
      | error error =>
          rw [here] at made
          cases made
      | ok result =>
          cases later : rest.mapM step with
          | error error =>
              rw [here, later] at made
              cases made
          | ok others =>
              rw [here, later] at made
              cases made
              exact .cons here (ih later)

theorem forall₂_shapes {nodes : List Node} {trees : List CircuitTree}
    (haveShapes : List.Forall₂ (fun node tree => circuit.HasShape node tree.shape) nodes trees) :
    List.Forall₂ circuit.HasShape nodes (CircuitTree.shapes trees) := by
  induction haveShapes with
  | nil => exact .nil
  | cons hasShape _ ih => exact .cons hasShape ih

/-- A constant gate has no operands. -/
theorem WellFormed.hasShape_of_isConstant (wellFormed : circuit.WellFormed)
    (found : circuit.gate? id = some gate) {kind : GateKind} (kind_eq : gate.kind = kind)
    (constant : kind.isConstant = true) : circuit.HasShape (.gate id) (.gate kind []) := by
  subst kind_eq
  have accepts := wellFormed.accepts_of_gate? found
  have operands_eq : gate.operands = [] := by
    apply List.eq_nil_of_length_eq_zero
    cases kind_eq : gate.kind <;> simp_all [GateKind.isConstant, GateKind.accepts]
  apply ShapeVia.of_forall₂ found rfl
  rw [operands_eq]
  exact .nil

/-- The tree of a node has its shape. -/
theorem WellFormed.hasShape_of_treeWithin (wellFormed : circuit.WellFormed) {depth : Nat}
    {tree : CircuitTree} (unfolded : circuit.treeWithin depth node = .ok tree) :
    circuit.HasShape node tree.shape := by
  induction depth generalizing node tree with
  | zero =>
      cases node with
      | input name =>
          cases unfolded
          exact .input
      | gate id => cases unfolded
  | succ depth ih =>
      cases node with
      | input name =>
          cases unfolded
          exact .input
      | gate id =>
          rw [treeWithin] at unfolded
          cases found : circuit.gate? id with
          | none =>
              rw [found] at unfolded
              cases unfolded
          | some gate =>
              rw [found] at unfolded
              dsimp only at unfolded
              split at unfolded
              · rename_i kind_eq
                cases unfolded
                exact wellFormed.hasShape_of_isConstant found kind_eq rfl
              · rename_i kind_eq
                cases unfolded
                exact wellFormed.hasShape_of_isConstant found kind_eq rfl
              · cases made : gate.operands.mapM (circuit.treeWithin depth) with
                | error error =>
                    rw [made] at unfolded
                    cases unfolded
                | ok children =>
                    rw [made] at unfolded
                    cases unfolded
                    have operands := (forall₂_of_mapM_eq_ok made).imp fun _ _ => ih
                    rw [CircuitTree.shape, ← kind_eq_of_gate? found]
                    exact .of_forall₂ found rfl (forall₂_shapes operands)

/-- The trees of the outputs have their shapes. -/
theorem WellFormed.outputShapes_of_outputTrees (wellFormed : circuit.WellFormed)
    {trees : List (String × CircuitTree)} (unfolded : circuit.outputTrees = .ok trees) :
    circuit.OutputShapes (fun _ => none) (trees.map fun tree => (tree.1, tree.2.shape)) := by
  apply List.forall₂_map_right_iff.mpr
  apply (forall₂_of_mapM_eq_ok unfolded).imp
  rintro ⟨name, node⟩ tree made
  dsimp only at made
  cases unfolds : circuit.tree node with
  | error error =>
      rw [unfolds] at made
      cases made
  | ok unfolding =>
      rw [unfolds] at made
      cases made
      exact ⟨rfl, wellFormed.hasShape_of_treeWithin unfolds⟩

end Circuit

end Switching
