import Mathlib.Data.Set.Card
import Switching.Proofs.Circuit.Invariants
import Switching.Proofs.Circuit.Lowering

/-!
# Sharing is exact

Lowering gives every occurrence of a subexpression a node.  A traced run, which
does the same as the untraced one, lists the occurrences with their nodes.  The
nodes are listed under the keys of the expressions, one gate for each key, so two
occurrences get one node exactly if they have one key, and over the names of the
expression language that is exactly if they are equal up to the order of
operands.
-/

namespace Switching

namespace Lowering

/-! ## Traced runs -/

/-- Occurrences of subexpressions in the order in which they are lowered, with
the nodes that they are given. -/
abbrev Trace := List (Expr × Node)

/-- Lower an expression and list its subexpressions with their nodes. -/
def lowerTraced : Expr → LowerM (Keyed × Trace)
  | .constant value => do
      let made ← intern (constantKey value) (constantKind value) []
      return (made, [(.constant value, made.node)])
  | .var name => return (⟨variableKey name, .input name⟩, [(.var name, .input name)])
  | .not operand => do
      let (inner, below) ← lowerTraced operand
      let made ← intern (negationKey inner.key) .not [inner.node]
      return (made, below ++ [(.not operand, made.node)])
  | .binary op left right => do
      let (leftOperand, belowLeft) ← lowerTraced left
      let (rightOperand, belowRight) ← lowerTraced right
      let (first, second) := ordered leftOperand rightOperand
      let made ← intern (connectiveKey op first.key second.key) op.gateKind
        [first.node, second.node]
      return (made, belowLeft ++ belowRight ++ [(.binary op left right, made.node)])

/-- Lower named expressions and list their subexpressions with their nodes. -/
def lowerOutputsTraced : List (String × Expr) → LowerM Trace
  | [] => return []
  | (name, expr) :: rest => do
      let (lowered, below) ← lowerTraced expr
      AssemblyM.setOutput name lowered.node
      let later ← lowerOutputsTraced rest
      return below ++ later

/-- Listing the subexpressions does not change what lowering does. -/
theorem fst_lowerTraced (expr : Expr) : Prod.fst <$> lowerTraced expr = lower expr := by
  induction expr with
  | constant value => simp [lowerTraced, lower]
  | var name => simp [lowerTraced, lower]
  | not operand ih => simp [lowerTraced, lower, ← ih]
  | binary op left right ihLeft ihRight => simp [lowerTraced, lower, ← ihLeft, ← ihRight]

theorem discard_lowerOutputsTraced (outputs : List (String × Expr)) :
    (fun _ => ()) <$> lowerOutputsTraced outputs = lowerOutputs outputs := by
  induction outputs with
  | nil => simp [lowerOutputsTraced, lowerOutputs]
  | cons output rest ih =>
      simp [lowerOutputsTraced, lowerOutputs, ← ih, ← fst_lowerTraced]

end Lowering

/-- The circuit of named expressions, with a list of all their subexpressions
and the nodes that these are given. -/
def Circuit.ofExprsTraced (outputs : List (String × Expr)) :
    Except SynthesisError (Circuit × Lowering.Trace) := do
  let start := Assembly.addInputs ∅ (Expr.sortedVarsOf (outputs.map Prod.snd))
  let ((trace, _), finished) ← (Lowering.lowerOutputsTraced outputs |>.run []).run start
  return (finished.circuit, trace)

theorem Circuit.fst_ofExprsTraced (outputs : List (String × Expr)) :
    Prod.fst <$> ofExprsTraced outputs = ofExprs outputs := by
  simp [ofExprsTraced, ofExprs, ← Lowering.discard_lowerOutputsTraced]

/-! ## Operands in the order of their keys -/

namespace Expr

/-- The immediate subexpressions, in the order in which a gate takes them. -/
def orderedOperands : Expr → List Expr
  | .binary _ left right => if left.key ≤ right.key then [left, right] else [right, left]
  | expr => expr.operands

theorem gateKind?_eq_none_iff {expr : Expr} :
    expr.gateKind? = none ↔ ∃ name, expr = .var name := by
  cases expr <;> simp [gateKind?]

theorem exists_gateKind? {expr : Expr} (notVar : ∀ name, expr ≠ .var name) :
    ∃ kind, expr.gateKind? = some kind := by
  cases expr with
  | var name => exact absurd rfl (notVar name)
  | _ => exact ⟨_, rfl⟩

/-- The key that a gate of some kind gets over operands of the given keys. -/
def keyOver : GateKind → List String → String
  | .vcc, _ => Lowering.constantKey true
  | .gnd, _ => Lowering.constantKey false
  | .not, [operand] => Lowering.negationKey operand
  | .and, [first, second] => Lowering.connectiveKey .and first second
  | .or, [first, second] => Lowering.connectiveKey .or first second
  | .xor, [first, second] => Lowering.connectiveKey .xor first second
  | _, _ => ""

/-- The kind of its gate and the keys of its ordered operands make the key of an
expression. -/
theorem key_eq_keyOver {expr : Expr} {kind : GateKind} (kind_eq : expr.gateKind? = some kind) :
    expr.key = keyOver kind (expr.orderedOperands.map key) := by
  cases expr with
  | constant value =>
      cases kind_eq
      cases value <;> rfl
  | var name => cases kind_eq
  | not operand =>
      cases kind_eq
      rfl
  | binary op left right =>
      cases kind_eq
      rw [orderedOperands, key]
      split <;> cases op <;> rfl

end Expr

/-! ## Nodes under keys -/

namespace Lowering

variable {trace : Trace} {shared later : Shared} {expr other : Expr} {node : Node}
  {kind : GateKind} {operands : List Node} {start : Assembly}

/-- The node that an expression is given while some gates are shared: variables
are inputs, and all else is listed. -/
def nodeOf? (shared : Shared) : Expr → Option Node
  | .var name => some (.input name)
  | expr => shared.lookup expr.key

theorem nodeOf?_of_gateKind? (kind_eq : expr.gateKind? = some kind) :
    nodeOf? shared expr = shared.lookup expr.key := by
  cases expr with
  | var name => cases kind_eq
  | _ => rfl

theorem lookup_of_given {id : GateId} (given : nodeOf? shared expr = some (.gate id)) :
    shared.lookup expr.key = some (.gate id) := by
  cases expr with
  | var name => cases given
  | _ => exact given

/-- The key alone decides on the node. -/
theorem nodeOf?_eq_of_key_eq (same : expr.key = other.key) :
    nodeOf? shared expr = nodeOf? shared other := by
  cases kind_eq : expr.gateKind? with
  | none =>
      rcases Expr.gateKind?_eq_none_iff.mp kind_eq with ⟨name, rfl⟩
      rw [Expr.eq_var_of_key_eq same.symm]
  | some kind =>
      cases otherKind_eq : other.gateKind? with
      | none =>
          rcases Expr.gateKind?_eq_none_iff.mp otherKind_eq with ⟨name, rfl⟩
          rw [Expr.eq_var_of_key_eq same]
      | some otherKind =>
          rw [nodeOf?_of_gateKind? kind_eq, nodeOf?_of_gateKind? otherKind_eq, same]

/-- Whatever has a node keeps it. -/
def Retains (shared later : Shared) : Prop :=
  ∀ expr node, nodeOf? shared expr = some node → nodeOf? later expr = some node

theorem Retains.refl (shared : Shared) : Retains shared shared :=
  fun _ _ given => given

theorem Retains.trans {last : Shared} (first : Retains shared later)
    (second : Retains later last) : Retains shared last :=
  fun expr node given => second expr node (first expr node given)

/-- Listing a gate under a new key. -/
theorem retains_cons {key : String} (new : shared.lookup key = none) (node : Node) :
    Retains shared ((key, node) :: shared) := by
  intro expr given found
  cases kind_eq : expr.gateKind? with
  | none =>
      rcases Expr.gateKind?_eq_none_iff.mp kind_eq with ⟨name, rfl⟩
      exact found
  | some kind =>
      rw [nodeOf?_of_gateKind? kind_eq] at found ⊢
      have differ : expr.key ≠ key := by
        rintro rfl
        rw [new] at found
        cases found
      rw [List.lookup_cons, beq_eq_false_iff_ne.mpr differ]
      exact found

/-- Expressions with the nodes that they are given. -/
def Given (shared : Shared) (exprs : List Expr) (nodes : List Node) : Prop :=
  List.Forall₂ (fun expr node => nodeOf? shared expr = some node) exprs nodes

theorem Retains.given (retains : Retains shared later) {exprs : List Expr} {nodes : List Node}
    (given : Given shared exprs nodes) : Given later exprs nodes :=
  given.imp fun expr node => retains expr node

/-- What is known when the expressions of a trace have been lowered: the gates
are listed one for one, the expressions have the listed nodes, and every gate was
made for an expression over the nodes of its operands. -/
structure Interned (trace : Trace) (shared : Shared) (assembly : Assembly) : Prop where
  nodes : shared.map Prod.snd =
    (assembly.circuit.gates.toList.map fun gate => Node.gate gate.id).reverse
  given : ∀ pair ∈ trace, nodeOf? shared pair.1 = some pair.2
  made : ∀ gate ∈ assembly.circuit.gates, ∃ expr, (expr, .gate gate.id) ∈ trace ∧
    expr.gateKind? = some gate.kind ∧ Given shared expr.orderedOperands gate.operands

/-- An expression that has a node already is added to the trace. -/
theorem Interned.concat (here : Interned trace shared start)
    (given : nodeOf? shared expr = some node) :
    Interned (trace ++ [(expr, node)]) shared start where
  nodes := here.nodes
  given pair mem := by
    rcases List.mem_append.mp mem with earlier | last
    · exact here.given pair earlier
    · cases List.mem_singleton.mp last
      exact given
  made gate mem := by
    rcases here.made gate mem with ⟨other, otherMem, facts⟩
    exact ⟨other, List.mem_append_left _ otherMem, facts⟩

/-- An expression of a new key is added along with its gate. -/
theorem Interned.concatNew (here : Interned trace shared start)
    (new : shared.lookup expr.key = none) (kind_eq : expr.gateKind? = some kind)
    (operandsGiven : Given shared expr.orderedOperands operands) :
    Interned (trace ++ [(expr, .gate (start.nextId kind))])
      ((expr.key, .gate (start.nextId kind)) :: shared) (start.withGate kind operands) where
  nodes := by
    simp [Assembly.withGate, here.nodes]
  given pair mem := by
    rcases List.mem_append.mp mem with earlier | last
    · exact retains_cons new _ _ _ (here.given pair earlier)
    · cases List.mem_singleton.mp last
      rw [nodeOf?_of_gateKind? kind_eq, List.lookup_cons_self]
  made gate mem := by
    rcases Array.mem_push.mp mem with earlier | rfl
    · rcases here.made gate earlier with ⟨other, otherMem, otherKind, otherGiven⟩
      exact ⟨other, List.mem_append_left _ otherMem, otherKind,
        (retains_cons new _).given otherGiven⟩
    · exact ⟨expr, List.mem_append_right _ List.mem_cons_self, kind_eq,
        (retains_cons new _).given operandsGiven⟩

/-- What lowering an expression leaves behind: its subexpressions are added to
the trace. -/
structure Traces (trace : Trace) (shared : Shared) (start : Assembly) (expr : Expr)
    (result : (Keyed × Trace) × Shared) (next : Assembly) : Prop where
  interned : Interned (trace ++ result.1.2) result.2 next
  retains : Retains shared result.2
  outputs_eq : next.circuit.outputs = start.circuit.outputs
  key_eq : result.1.1.key = expr.key
  mem : (expr, result.1.1.node) ∈ result.1.2
  parts_eq : result.1.2.map Prod.fst = expr.parts

theorem Traces.given {result : (Keyed × Trace) × Shared} {next : Assembly}
    (traces : Traces trace shared start expr result next) :
    nodeOf? result.2 expr = some result.1.1.node :=
  traces.interned.given _ (List.mem_append_right trace traces.mem)

/-- Interning an expression over the nodes of its operands completes the trace
of its subexpressions. -/
theorem ensures_internTraced (expr : Expr) {below : Trace} {middle : Assembly}
    (here : Interned (trace ++ below) later middle) (retains : Retains shared later)
    (outputs_eq : middle.circuit.outputs = start.circuit.outputs)
    (parts_eq : below.map Prod.fst ++ [expr] = expr.parts)
    (kind_eq : expr.gateKind? = some kind)
    (operandsGiven : Given later expr.orderedOperands operands) :
    AssemblyM.Ensures
      ((do
        let made ← intern expr.key kind operands
        return (made, below ++ [(expr, made.node)]) : LowerM (Keyed × Trace)) later)
      middle (fun _ => True) (Traces trace shared start expr) := by
  have complete : ∀ node, (below ++ [(expr, node)]).map Prod.fst = expr.parts := by
    simp [← parts_eq]
  unfold intern
  simp only [bind_assoc]
  apply AssemblyM.ensures_stateGet
  cases known : later.lookup expr.key with
  | some node =>
      -- No gate is made, so the operands do not matter here.
      have added := here.concat ((nodeOf?_of_gateKind? kind_eq).trans known)
      rw [List.append_assoc] at added
      exact AssemblyM.ensures_pure
        ⟨added, retains, outputs_eq, rfl, by simp, complete node⟩
  | none =>
      simp only [bind_assoc]
      apply AssemblyM.ensures_stateBind
        (AssemblyM.ensures_stateLift (AssemblyM.ensures_withGate kind operands middle))
      rintro ⟨node, last⟩ next ⟨⟨rfl, rfl⟩, rfl⟩
      have added := here.concatNew known kind_eq operandsGiven
      rw [List.append_assoc] at added
      exact AssemblyM.ensures_pure
        ⟨added, retains.trans (retains_cons known _), outputs_eq, rfl, by simp, complete _⟩

/-- The node that `ordered` puts first belongs to the operand that comes first. -/
theorem given_ordered (op : Connective) {left right : Expr} {first second : Keyed}
    (first_eq : first.key = left.key) (second_eq : second.key = right.key)
    (firstGiven : nodeOf? shared left = some first.node)
    (secondGiven : nodeOf? shared right = some second.node) :
    connectiveKey op (ordered first second).1.key (ordered first second).2.key =
        (Expr.binary op left right).key ∧
      Given shared (Expr.binary op left right).orderedOperands
        [(ordered first second).1.node, (ordered first second).2.node] := by
  rw [ordered, Expr.key, Expr.orderedOperands, first_eq, second_eq]
  split
  · rw [first_eq, second_eq]
    exact ⟨rfl, .cons firstGiven (.cons secondGiven .nil)⟩
  · rw [first_eq, second_eq]
    exact ⟨rfl, .cons secondGiven (.cons firstGiven .nil)⟩

/-- Lowering gives every occurrence the node that is listed under its key. -/
theorem ensures_lowerTraced (here : Interned trace shared start) :
    AssemblyM.Ensures (lowerTraced expr shared) start (fun _ => True)
      (Traces trace shared start expr) := by
  induction expr generalizing trace shared start with
  | constant value =>
      have empty : Interned (trace ++ []) shared start := (List.append_nil trace).symm ▸ here
      exact ensures_internTraced (.constant value) empty (.refl shared) rfl rfl rfl .nil
  | var name =>
      exact AssemblyM.ensures_pure
        ⟨here.concat rfl, .refl shared, rfl, rfl, List.mem_singleton_self _, rfl⟩
  | not operand ih =>
      unfold lowerTraced
      apply AssemblyM.ensures_stateBind (ih here)
      rintro ⟨⟨inner, below⟩, middle⟩ next traces
      have key_eq : inner.key = operand.key := traces.key_eq
      have parts_eq : below.map Prod.fst ++ [.not operand] = (Expr.not operand).parts := by
        rw [traces.parts_eq, Expr.parts]
      dsimp only
      rw [key_eq]
      exact ensures_internTraced (.not operand) traces.interned traces.retains traces.outputs_eq
        parts_eq rfl (.cons traces.given .nil)
  | binary op left right ihLeft ihRight =>
      unfold lowerTraced
      apply AssemblyM.ensures_stateBind (ihLeft here)
      rintro ⟨⟨leftOperand, belowLeft⟩, middle⟩ next leftTraces
      apply AssemblyM.ensures_stateBind (ihRight leftTraces.interned)
      rintro ⟨⟨rightOperand, belowRight⟩, later⟩ last rightTraces
      have parts_eq : (belowLeft ++ belowRight).map Prod.fst ++ [.binary op left right] =
          (Expr.binary op left right).parts := by
        rw [List.map_append, leftTraces.parts_eq, rightTraces.parts_eq, Expr.parts]
      have interned := rightTraces.interned
      rw [List.append_assoc] at interned
      -- The left operand keeps its node while the right one is lowered.
      rcases given_ordered op leftTraces.key_eq rightTraces.key_eq
        (rightTraces.retains _ _ leftTraces.given) rightTraces.given with ⟨key_eq, operandsGiven⟩
      dsimp only at key_eq operandsGiven ⊢
      rw [key_eq]
      exact ensures_internTraced (.binary op left right) interned
        (leftTraces.retains.trans rightTraces.retains)
        (rightTraces.outputs_eq.trans leftTraces.outputs_eq) parts_eq rfl operandsGiven

/-! ## Outputs -/

/-- Every output is bound to the node that an expression under its name was
given. -/
def Bound (outputs : List (String × Expr)) (trace : Trace) (circuit : Circuit) : Prop :=
  ∀ output ∈ circuit.outputs, ∃ expr, (output.1, expr) ∈ outputs ∧ (expr, output.2) ∈ trace

/-- Binding one more output to the node of an expression. -/
theorem Bound.withOutput {outputs : List (String × Expr)} {below : Trace} {middle : Assembly}
    (bound : Bound outputs trace start.circuit) (name : String)
    (outputs_eq : middle.circuit.outputs = start.circuit.outputs)
    (mem : (expr, node) ∈ below) :
    Bound (outputs ++ [(name, expr)]) (trace ++ below) (middle.withOutput name node).circuit := by
  intro output outputMem
  rcases Assembly.mem_bindOutput outputMem with rfl | earlier
  · exact ⟨expr, by simp, List.mem_append_right _ mem⟩
  · rw [outputs_eq] at earlier
    rcases bound output earlier with ⟨other, otherMem, given⟩
    exact ⟨other, List.mem_append_left _ otherMem, List.mem_append_left _ given⟩

theorem ensures_lowerOutputsTraced (outputs : List (String × Expr)) :
    ∀ {earlier : List (String × Expr)} {trace : Trace} {shared : Shared} {start : Assembly},
      Interned trace shared start → Bound earlier trace start.circuit →
      AssemblyM.Ensures (lowerOutputsTraced outputs shared) start (fun _ => True)
        fun result next => Interned (trace ++ result.1) result.2 next ∧
          Bound (earlier ++ outputs) (trace ++ result.1) next.circuit ∧
          result.1.map Prod.fst = partsOf outputs := by
  induction outputs with
  | nil =>
      intro earlier trace shared start here bound
      exact AssemblyM.ensures_pure (by simpa [partsOf] using And.intro here bound)
  | cons output rest ih =>
      intro earlier trace shared start here bound
      rcases output with ⟨name, expr⟩
      unfold lowerOutputsTraced
      apply AssemblyM.ensures_stateBind (ensures_lowerTraced here)
      rintro ⟨⟨lowered, below⟩, middle⟩ next traces
      apply AssemblyM.ensures_stateBind (AssemblyM.ensures_stateLift
        (AssemblyM.ensures_withOutput name lowered.node next))
      rintro ⟨_, later⟩ last ⟨rfl, rfl⟩
      have interned : Interned (trace ++ below) later (next.withOutput name lowered.node) :=
        ⟨traces.interned.nodes, traces.interned.given, traces.interned.made⟩
      have boundNow := bound.withOutput name traces.outputs_eq traces.mem
      apply AssemblyM.ensures_stateBind (ih interned boundNow)
      rintro ⟨above, sharedLast⟩ final ⟨internedLast, boundLast, parts_eq⟩
      rw [List.append_assoc] at internedLast boundLast
      rw [List.append_assoc] at boundLast
      refine AssemblyM.ensures_pure ⟨internedLast, boundLast, ?_⟩
      rw [List.map_append, traces.parts_eq, parts_eq]
      rfl

/-! ## One gate for each key -/

section

variable {assembly : Assembly} (here : Interned trace shared assembly)

include here

/-- The listed nodes are gates. -/
theorem Interned.exists_gate_of_lookup {key : String} (found : shared.lookup key = some node) :
    ∃ gate ∈ assembly.circuit.gates, .gate gate.id = node := by
  have mem : node ∈ shared.map Prod.snd := List.mem_map_of_mem (mem_of_lookup_eq_some found)
  rw [here.nodes, List.mem_reverse] at mem
  rcases List.mem_map.mp mem with ⟨gate, gateMem, same⟩
  exact ⟨gate, Array.mem_toList_iff.mp gateMem, same⟩

theorem Interned.eq_var_of_given {name : String}
    (given : nodeOf? shared expr = some (.input name)) : expr = .var name := by
  cases expr with
  | var other =>
      cases given
      rfl
  | _ =>
      rcases here.exists_gate_of_lookup given with ⟨_, _, same⟩
      cases same

variable (wellFormed : assembly.circuit.WellFormed)

include wellFormed

theorem Interned.nodes_nodup : (shared.map Prod.snd).Nodup := by
  have injective : Function.Injective Node.gate := fun _ _ => Node.gate.inj
  have gates_nodup := List.Nodup.map injective wellFormed.ids_nodup
  rw [List.map_map] at gates_nodup
  rw [here.nodes, List.nodup_reverse]
  exact gates_nodup

/-- Expressions that are given one node have one key. -/
theorem Interned.key_eq_of_given (given : nodeOf? shared expr = some node)
    (otherGiven : nodeOf? shared other = some node) : expr.key = other.key := by
  -- Inputs belong to variables alone, and no gate is listed under two keys.
  cases node with
  | input name => rw [here.eq_var_of_given given, here.eq_var_of_given otherGiven]
  | gate id =>
      have mem := mem_of_lookup_eq_some (lookup_of_given given)
      have otherMem := mem_of_lookup_eq_some (lookup_of_given otherGiven)
      have same := List.inj_on_of_nodup_map (here.nodes_nodup wellFormed) mem otherMem rfl
      exact congrArg Prod.fst same

theorem Interned.node_eq_iff {first second : Expr × Node} (firstMem : first ∈ trace)
    (secondMem : second ∈ trace) : first.2 = second.2 ↔ first.1.key = second.1.key := by
  have firstGiven := here.given first firstMem
  have secondGiven := here.given second secondMem
  constructor
  · intro same
    exact here.key_eq_of_given wellFormed firstGiven (same ▸ secondGiven)
  · intro same
    rw [nodeOf?_eq_of_key_eq same, secondGiven] at firstGiven
    exact (Option.some.inj firstGiven).symm

theorem Interned.keys_eq {exprs others : List Expr} {nodes : List Node}
    (given : Given shared exprs nodes) (otherGiven : Given shared others nodes) :
    exprs.map Expr.key = others.map Expr.key := by
  induction given generalizing others with
  | nil =>
      cases otherGiven
      rfl
  | cons first _ ih =>
      rcases otherGiven with _ | ⟨otherFirst, rest⟩
      rw [List.map_cons, List.map_cons, here.key_eq_of_given wellFormed first otherFirst, ih rest]

/-- No two gates are of one kind over the same operands. -/
theorem Interned.gates_nodup :
    (assembly.circuit.gates.toList.map fun gate => (gate.kind, gate.operands)).Nodup := by
  apply List.Nodup.map_on _ (List.Nodup.of_map Gate.id wellFormed.ids_nodup)
  intro first firstMem second secondMem same
  rcases Prod.mk.inj same with ⟨kind_eq, operands_eq⟩
  rcases here.made first (Array.mem_toList_iff.mp firstMem) with
    ⟨expr, exprMem, exprKind, exprGiven⟩
  rcases here.made second (Array.mem_toList_iff.mp secondMem) with
    ⟨other, otherMem, otherKind, otherGiven⟩
  rw [← kind_eq] at otherKind
  rw [← operands_eq] at otherGiven
  have key_eq : expr.key = other.key := by
    rw [Expr.key_eq_keyOver exprKind, Expr.key_eq_keyOver otherKind,
      here.keys_eq wellFormed exprGiven otherGiven]
  have node_eq := (here.node_eq_iff wellFormed exprMem otherMem).mpr key_eq
  exact List.inj_on_of_nodup_map wellFormed.ids_nodup firstMem secondMem (Node.gate.inj node_eq)

/-- The gates are the nodes of the subexpressions that are not variables. -/
theorem Interned.gateCount_eq :
    assembly.circuit.gateCount =
      (Prod.snd '' {pair | pair ∈ trace ∧ ∀ name, pair.1 ≠ .var name}).ncard := by
  have nodes_eq : Prod.snd '' {pair | pair ∈ trace ∧ ∀ name, pair.1 ≠ .var name} =
      {node | node ∈ shared.map Prod.snd} := by
    ext node
    constructor
    · rintro ⟨⟨expr, _⟩, ⟨mem, notVar⟩, rfl⟩
      rcases Expr.exists_gateKind? notVar with ⟨kind, kind_eq⟩
      have given := here.given _ mem
      rw [nodeOf?_of_gateKind? kind_eq] at given
      exact List.mem_map.mpr ⟨_, mem_of_lookup_eq_some given, rfl⟩
    · intro mem
      rw [Set.mem_ofPred_eq, here.nodes, List.mem_reverse] at mem
      rcases List.mem_map.mp mem with ⟨gate, gateMem, rfl⟩
      rcases here.made gate (Array.mem_toList_iff.mp gateMem) with ⟨expr, exprMem, kind_eq, -⟩
      refine ⟨(expr, .gate gate.id), ⟨exprMem, ?_⟩, rfl⟩
      rintro name rfl
      cases kind_eq
  have nodup := here.nodes_nodup wellFormed
  rw [nodes_eq, ← List.coe_toFinset, Set.ncard_coe_finset, List.toFinset_card_of_nodup nodup,
    here.nodes]
  simp [Circuit.gateCount]

end

end Lowering

/-- Functions that identify the same members of a set have equally many values
on it. -/
theorem ncard_image_eq_of_iff {α β γ : Type} {members : Set α} {first : α → β} {second : α → γ}
    (same : ∀ left ∈ members, ∀ right ∈ members, first left = first right ↔
      second left = second right) : (first '' members).ncard = (second '' members).ncard := by
  rcases Set.exists_subset_bijOn members first with ⟨chosen, subset, bijective⟩
  have injective : Set.InjOn second chosen := fun left leftMem right rightMem equal =>
    bijective.injOn leftMem rightMem
      ((same left (subset leftMem) right (subset rightMem)).mpr equal)
  have image_eq : second '' members = second '' chosen := by
    apply Set.Subset.antisymm _ (Set.image_mono subset)
    rintro _ ⟨member, mem, rfl⟩
    rcases bijective.surjOn ⟨member, mem, rfl⟩ with ⟨other, otherMem, equal⟩
    exact ⟨other, otherMem, (same other (subset otherMem) member mem).mp equal⟩
  rw [image_eq, injective.ncard_image, ← bijective.image_eq, bijective.injOn.ncard_image]

namespace Circuit

open Lowering

/-- The traced run of named expressions succeeds with the circuit of the untraced
one. -/
theorem exists_ofExprsTraced (outputs : List (String × Expr)) :
    ∃ (trace : Trace) (shared : Shared) (finished : Assembly),
      ofExprs outputs = .ok finished.circuit ∧
      ofExprsTraced outputs = .ok (finished.circuit, trace) ∧
      finished.circuit.WellFormed ∧ Interned trace shared finished ∧
      Bound outputs trace finished.circuit ∧ trace.map Prod.fst = partsOf outputs := by
  rcases exists_ofExprs outputs with ⟨circuit, made, wellFormed, -⟩
  have nodup := Expr.nodup_sortedVarsOf (outputs.map Prod.snd)
  have empty : Interned [] [] (Assembly.ofInputs (Expr.sortedVarsOf (outputs.map Prod.snd))) :=
    ⟨rfl, by simp, by simp [Assembly.ofInputs]⟩
  have unbound : Bound [] [] (Assembly.ofInputs
      (Expr.sortedVarsOf (outputs.map Prod.snd))).circuit := by
    simp [Bound, Assembly.ofInputs]
  have ensures := ensures_lowerOutputsTraced outputs empty unbound
  have traced_eq : ofExprsTraced outputs = (lowerOutputsTraced outputs []
      (Assembly.ofInputs (Expr.sortedVarsOf (outputs.map Prod.snd)))).map
        fun result => (result.2.circuit, result.1.1) := by
    rw [ofExprsTraced, Assembly.addInputs_empty nodup]
    rfl
  have erased := fst_ofExprsTraced outputs
  rw [traced_eq, made] at erased
  cases ran : lowerOutputsTraced outputs []
      (Assembly.ofInputs (Expr.sortedVarsOf (outputs.map Prod.snd))) with
  | error error =>
      rw [ran] at erased
      cases erased
  | ok result =>
      rw [ran] at erased traced_eq
      rcases result with ⟨⟨trace, shared⟩, finished⟩
      cases Except.ok.inj erased
      exact ⟨trace, shared, finished, made, traced_eq, wellFormed, ensures.of_eq_ok ran⟩

/-- Sharing is exact for some named expressions.  The trace has all subexpressions
of all of them, and any two occurrences are given one node exactly if they are
equal up to the order of operands.  So there are as many gates as there are
classes of subexpressions other than variables, and no two gates are of one kind
over the same operands. -/
structure SharesExactly (outputs : List (String × Expr)) (circuit : Circuit) (trace : Trace) :
    Prop where
  parts_eq : trace.map Prod.fst = partsOf outputs
  bound : Bound outputs trace circuit
  same_iff : ∀ first ∈ trace, ∀ second ∈ trace,
    first.2 = second.2 ↔ first.1.Commuted second.1
  gateCount_eq : circuit.gateCount =
    (Quotient.mk Expr.commutedSetoid ''
      {expr | expr ∈ partsOf outputs ∧ ∀ name, expr ≠ .var name}).ncard
  gates_nodup : (circuit.gates.toList.map fun gate => (gate.kind, gate.operands)).Nodup

/-- Sharing is exact over the names of the expression language. -/
theorem ofExprs_sharesExactly (outputs : List (String × Expr))
    (names : ∀ output ∈ outputs, output.2.HasNames) :
    ∃ circuit trace, ofExprs outputs = .ok circuit ∧
      ofExprsTraced outputs = .ok (circuit, trace) ∧ SharesExactly outputs circuit trace := by
  rcases exists_ofExprsTraced outputs with
    ⟨trace, shared, finished, made, traced, wellFormed, interned, bound, parts_eq⟩
  have plainOutputs : ∀ output ∈ outputs, output.2.Plain := fun output mem name occurs =>
    isPlainName_of_isName (names output mem name occurs)
  have plain : ∀ pair ∈ trace, pair.1.Plain := fun pair mem =>
    plain_of_mem_partsOf plainOutputs (parts_eq ▸ List.mem_map_of_mem mem)
  have same_iff : ∀ first ∈ trace, ∀ second ∈ trace,
      first.2 = second.2 ↔ first.1.Commuted second.1 := by
    intro first firstMem second secondMem
    rw [interned.node_eq_iff wellFormed firstMem secondMem]
    exact (plain first firstMem).key_eq_iff_commuted (plain second secondMem)
  have parts_image : Prod.fst '' {pair | pair ∈ trace ∧ ∀ name, pair.1 ≠ .var name} =
      {expr | expr ∈ partsOf outputs ∧ ∀ name, expr ≠ .var name} := by
    ext expr
    simp [← parts_eq]
  have count_eq : finished.circuit.gateCount =
      (Quotient.mk Expr.commutedSetoid ''
        {expr | expr ∈ partsOf outputs ∧ ∀ name, expr ≠ .var name}).ncard := by
    rw [interned.gateCount_eq wellFormed, ← parts_image, ← Set.image_comp]
    apply ncard_image_eq_of_iff
    rintro first ⟨firstMem, -⟩ second ⟨secondMem, -⟩
    rw [same_iff first firstMem second secondMem]
    exact (Quotient.eq (r := Expr.commutedSetoid)).symm
  exact ⟨finished.circuit, trace, made, traced, parts_eq, bound, same_iff, count_eq,
    interned.gates_nodup wellFormed⟩

theorem sharedOutputs_sharesExactly :
    ∃ circuit trace, ofExprs sharedOutputs = .ok circuit ∧
      ofExprsTraced sharedOutputs = .ok (circuit, trace) ∧
      SharesExactly sharedOutputs circuit trace ∧
      ∃ node, (.and (.var "A") (.not (.var "B")), node) ∈ trace ∧
        (.and (.not (.var "B")) (.var "A"), node) ∈ trace := by
  rcases ofExprs_sharesExactly sharedOutputs (by decide) with ⟨circuit, trace, made, traced, shares⟩
  have occurs : ∀ expr ∈ partsOf sharedOutputs, ∃ node, (expr, node) ∈ trace := by
    intro expr mem
    rw [← shares.parts_eq] at mem
    rcases List.mem_map.mp mem with ⟨⟨_, node⟩, pairMem, rfl⟩
    exact ⟨node, pairMem⟩
  rcases occurs (.and (.var "A") (.not (.var "B"))) (by decide) with ⟨first, firstMem⟩
  rcases occurs (.and (.not (.var "B")) (.var "A")) (by decide) with ⟨second, secondMem⟩
  have commuted : (Expr.and (.var "A") (.not (.var "B"))).Commuted
      (.and (.not (.var "B")) (.var "A")) :=
    .crossed (.var "A") (.not (.var "B"))
  have same : first = second :=
    (shares.same_iff _ firstMem _ secondMem).mpr commuted
  exact ⟨circuit, trace, made, traced, shares, first, firstMem, same ▸ secondMem⟩

end Circuit

end Switching
