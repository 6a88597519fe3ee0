import Switching.Proofs.Circuit.Assembly
import Switching.Proofs.Circuit.Keys
import Switching.Proofs.Circuit.Simulation
import Switching.Proofs.Expr.Names
import Switching.Proofs.Table.Rows

/-!
# Lowered circuits

Lowering named expressions always succeeds.  The shared gates are listed under
the keys of the expressions that were lowered so far, and the gate under a key
has the value of the first expression of that key with its operands merged.  So
the circuit computes the merged expressions.
-/

namespace Switching

/-- The kind of the gate of an expression; variables have none. -/
def Expr.gateKind? : Expr → Option GateKind
  | .constant value => some (Lowering.constantKind value)
  | .var _ => none
  | .not _ => some .not
  | .binary op _ _ => some op.gateKind

namespace Lowering

/-- What is known when some expressions have been lowered: their gates are
listed, and every listed gate has the value of a merged expression. -/
structure Lowered (assignment : Assignment) (exprs : List Expr) (shared : Shared)
    (assembly : Assembly) : Prop where
  wellFormed : assembly.WellFormed
  closed : Expr.Closed exprs
  present : ∀ expr ∈ exprs, ∀ kind, expr.gateKind? = some kind →
    ∃ node, shared.lookup expr.key = some node
  listed : ∀ key node, shared.lookup key = some node → ∃ expr ∈ exprs, expr.key = key ∧
    assembly.circuit.Carries assignment node ((expr.merged exprs).denote assignment.valuation)
  kinds : ∀ gate ∈ assembly.circuit.gates, ∃ expr ∈ exprs, expr.gateKind? = some gate.kind

/-- What lowering an expression leaves behind. -/
structure Lowers (assignment : Assignment) (exprs : List Expr) (expr : Expr) (start : Assembly)
    (result : Keyed × Shared) (next : Assembly) : Prop where
  grown : start.Grows next
  lowered : Lowered assignment exprs result.2 next
  key_eq : result.1.key = expr.key
  carries : next.circuit.Carries assignment result.1.node
    ((expr.merged exprs).denote assignment.valuation)

variable {assignment : Assignment} {exprs : List Expr} {shared : Shared} {start : Assembly}
  {fault : SynthesisError → Prop} {expr : Expr} {kind : GateKind} {operands : List Node}
  {values : List Bool}

/-- A new key is none of the keys of the expressions lowered before. -/
theorem Lowered.ne_key_of_lookup_eq_none (here : Lowered assignment exprs shared start)
    (kind_eq : expr.gateKind? = some kind) (new : shared.lookup expr.key = none) :
    ∀ other ∈ exprs, other.key ≠ expr.key := by
  intro other mem same
  cases otherKind : other.gateKind? with
  | some _ =>
      obtain ⟨node, found⟩ := here.present other mem _ otherKind
      rw [same, new] at found
      cases found
  | none =>
      cases other with
      | var name =>
          rw [Expr.eq_var_of_key_eq same.symm] at kind_eq
          cases kind_eq
      | _ => cases otherKind

/-- An expression that needs no new gate is added to the expressions lowered so
far. -/
theorem Lowered.concat (here : Lowered assignment exprs shared start)
    (operandsMem : ∀ operand ∈ expr.operands, operand ∈ exprs)
    (known : ∀ kind, expr.gateKind? = some kind → ∃ node, shared.lookup expr.key = some node) :
    Lowered assignment (exprs ++ [expr]) shared start where
  wellFormed := here.wellFormed
  closed := here.closed.concat operandsMem
  present := by
    intro other mem kind kind_eq
    rcases List.mem_append.mp mem with earlier | last
    · exact here.present other earlier kind kind_eq
    · obtain rfl := List.mem_singleton.mp last
      exact known kind kind_eq
  listed := by
    intro key node found
    obtain ⟨other, mem, key_eq, carries⟩ := here.listed key node found
    exact ⟨other, List.mem_append_left _ mem, key_eq,
      (here.closed.merged_append _ mem).symm ▸ carries⟩
  kinds gate mem := (here.kinds gate mem).imp fun _ both =>
    ⟨List.mem_append_left _ both.1, both.2⟩

/-- An expression of a new key is added along with its gate. -/
theorem Lowered.concatNew (here : Lowered assignment exprs shared start)
    (operandsMem : ∀ operand ∈ expr.operands, operand ∈ exprs)
    (kind_eq : expr.gateKind? = some kind) (grown : start.Grows (start.withGate kind operands))
    (carries : (start.withGate kind operands).circuit.Carries assignment
      (.gate (start.nextId kind)) ((expr.merged (exprs ++ [expr])).denote assignment.valuation)) :
    Lowered assignment (exprs ++ [expr]) ((expr.key, .gate (start.nextId kind)) :: shared)
      (start.withGate kind operands) where
  wellFormed := grown.wellFormed
  closed := here.closed.concat operandsMem
  present := by
    intro other mem otherKind otherKind_eq
    rw [List.lookup_cons]
    split
    · exact ⟨_, rfl⟩
    · rename_i differ
      rcases List.mem_append.mp mem with earlier | last
      · exact here.present other earlier otherKind otherKind_eq
      · obtain rfl := List.mem_singleton.mp last
        simp at differ
  listed := by
    intro key node found
    rw [List.lookup_cons] at found
    split at found
    · rename_i same
      cases found
      exact ⟨expr, List.mem_append_right _ List.mem_cons_self, (beq_iff_eq.mp same).symm, carries⟩
    · obtain ⟨other, mem, key_eq, otherCarries⟩ := here.listed key node found
      exact ⟨other, List.mem_append_left _ mem, key_eq,
        (here.closed.merged_append _ mem).symm ▸ grown.extension.carries otherCarries⟩
  kinds := by
    intro gate mem
    rcases Array.mem_push.mp mem with earlier | rfl
    · obtain ⟨other, otherMem, otherKind⟩ := here.kinds gate earlier
      exact ⟨other, List.mem_append_left _ otherMem, otherKind⟩
    · exact ⟨expr, List.mem_append_right _ List.mem_cons_self, kind_eq⟩

/-- Interning gives the gate of the merged expression, whether the key is new
or not. -/
theorem ensures_intern (expr : Expr) (here : Lowered assignment exprs shared start)
    (kind_eq : expr.gateKind? = some kind)
    (operandsMem : ∀ operand ∈ expr.operands, operand ∈ exprs)
    (accepts : kind.accepts operands.length = true)
    (carry : List.Forall₂ (start.circuit.Carries assignment) operands values)
    (apply_eq : kind.apply values =
      (expr.mapOperands (Expr.merged exprs)).denote assignment.valuation) :
    AssemblyM.Ensures (intern expr.key kind operands shared) start fault
      (Lowers assignment (exprs ++ [expr]) expr start) := by
  have stays : ∀ {other : Expr}, other ∈ exprs →
      other.merged (exprs ++ [expr]) = other.merged exprs :=
    fun mem => here.closed.merged_append [expr] mem
  unfold intern
  refine AssemblyM.ensures_stateGet ?_
  cases known : shared.lookup expr.key with
  | some node =>
      obtain ⟨other, mem, key_eq, carries⟩ := here.listed expr.key node known
      refine AssemblyM.ensures_pure ⟨.refl here.wellFormed,
        here.concat operandsMem fun _ _ => ⟨node, known⟩, rfl, ?_⟩
      rw [Expr.merged_eq_of_key_eq mem key_eq, stays mem]
      exact carries
  | none =>
      have new := here.ne_key_of_lookup_eq_none kind_eq known
      have merged_eq : expr.merged (exprs ++ [expr]) =
          expr.mapOperands (Expr.merged exprs) := by
        rw [Expr.merged_eq, Expr.representative_of_new new]
        exact Expr.mapOperands_congr fun operand mem => stays (operandsMem operand mem)
      have contained := AssemblyM.contains_of_carries carry
      refine AssemblyM.ensures_stateBind
        (AssemblyM.ensures_stateLift (AssemblyM.ensures_addGate accepts contained))
        fun result next made => ?_
      obtain ⟨node, shared⟩ := result
      obtain ⟨⟨rfl, rfl⟩, rfl⟩ := made
      obtain ⟨grown, carries⟩ := AssemblyM.carries_nextId here.wellFormed accepts carry
      rw [apply_eq, ← merged_eq] at carries
      exact AssemblyM.ensures_pure
        ⟨grown, here.concatNew operandsMem kind_eq grown carries, rfl, carries⟩

/-- Interning a connective over operands that are put in order. -/
theorem ensures_internOrdered (op : Connective) {left right : Expr} {first second : Keyed}
    (here : Lowered assignment exprs shared start) (leftMem : left ∈ exprs)
    (rightMem : right ∈ exprs) (first_eq : first.key = left.key)
    (second_eq : second.key = right.key)
    (firstCarries : start.circuit.Carries assignment first.node
      ((left.merged exprs).denote assignment.valuation))
    (secondCarries : start.circuit.Carries assignment second.node
      ((right.merged exprs).denote assignment.valuation)) :
    AssemblyM.Ensures
      (intern (connectiveKey op (ordered first second).1.key (ordered first second).2.key)
        op.gateKind [(ordered first second).1.node, (ordered first second).2.node] shared)
      start fault
      (Lowers assignment (exprs ++ [.binary op left right]) (.binary op left right) start) := by
  have operandsMem : ∀ operand ∈ (Expr.binary op left right).operands, operand ∈ exprs := by
    simp [Expr.operands, leftMem, rightMem]
  have accepts : op.gateKind.accepts 2 = true := by cases op <;> rfl
  rw [ordered, first_eq, second_eq]
  by_cases le : left.key ≤ right.key
  · have key_eq : (Expr.binary op left right).key = connectiveKey op left.key right.key := by
      rw [Expr.key, if_pos le]
    rw [if_pos le, first_eq, second_eq, ← key_eq]
    refine ensures_intern (.binary op left right) here rfl operandsMem accepts
      (.cons firstCarries (.cons secondCarries .nil)) ?_
    simp [Expr.mapOperands, Expr.denote]
  · have key_eq : (Expr.binary op left right).key = connectiveKey op right.key left.key := by
      rw [Expr.key, if_neg le]
    rw [if_neg le, first_eq, second_eq, ← key_eq]
    refine ensures_intern (.binary op left right) here rfl operandsMem accepts
      (.cons secondCarries (.cons firstCarries .nil)) ?_
    simp [Expr.mapOperands, Expr.denote, op.apply_comm]

theorem Lowers.after {result : Keyed × Shared} {middle next : Assembly}
    (lowers : Lowers assignment exprs expr middle result next) (grown : start.Grows middle) :
    Lowers assignment exprs expr start result next :=
  ⟨grown.trans lowers.grown, lowers.lowered, lowers.key_eq, lowers.carries⟩

/-- Lowering makes the node of the merged expression. -/
theorem ensures_lower (here : Lowered assignment exprs shared start)
    (declared : ∀ name ∈ expr.occurrences, name ∈ start.circuit.inputs)
    (assigns : assignment.Assigns start.circuit.inputs) :
    AssemblyM.Ensures (lower expr shared) start fault
      (Lowers assignment (exprs ++ expr.parts) expr start) := by
  induction expr generalizing exprs shared start with
  | constant value =>
      refine ensures_intern (.constant value) here rfl (by simp [Expr.operands]) ?_ .nil ?_
      · cases value <;> rfl
      · cases value <;> rfl
  | var name =>
      have mem := declared name List.mem_cons_self
      refine AssemblyM.ensures_pure ⟨.refl here.wellFormed, ?_, rfl, ?_⟩
      · exact here.concat (by simp [Expr.operands]) (by simp [Expr.gateKind?])
      · rw [Expr.merged_var]
        exact ⟨List.contains_iff_mem.mpr mem,
          .input (Assignment.value?_eq_some_valuation (assigns name mem))⟩
  | not operand ih =>
      unfold lower
      refine AssemblyM.ensures_stateBind (ih here declared assigns) fun inner next lowers => ?_
      rw [lowers.key_eq, Expr.parts, ← List.append_assoc]
      refine (ensures_intern (.not operand) lowers.lowered rfl ?_ rfl
        (.cons lowers.carries .nil) ?_).imp fun _ _ made => made.after lowers.grown
      · simp [Expr.operands, operand.mem_parts_self]
      · simp [Expr.mapOperands, Expr.denote]
  | binary op left right ihLeft ihRight =>
      obtain ⟨leftDeclared, rightDeclared⟩ :
          (∀ name ∈ left.occurrences, name ∈ start.circuit.inputs) ∧
            ∀ name ∈ right.occurrences, name ∈ start.circuit.inputs :=
        ⟨fun name mem => declared name (List.mem_append_left _ mem),
          fun name mem => declared name (List.mem_append_right _ mem)⟩
      unfold lower
      refine AssemblyM.ensures_stateBind (ihLeft here leftDeclared assigns)
        fun first next leftLowers => ?_
      have inputs_eq := leftLowers.grown.extension.inputs_eq
      refine AssemblyM.ensures_stateBind (ihRight leftLowers.lowered
        (inputs_eq.symm ▸ rightDeclared) (inputs_eq.symm ▸ assigns))
        fun second last rightLowers => ?_
      have leftStays :=
        leftLowers.lowered.closed.merged_append right.parts
          (List.mem_append_right exprs left.mem_parts_self)
      have leftCarries := rightLowers.grown.extension.carries leftLowers.carries
      rw [← leftStays] at leftCarries
      rw [Expr.parts, ← List.append_assoc, ← List.append_assoc]
      exact (ensures_internOrdered op rightLowers.lowered
        (by simp [left.mem_parts_self]) (by simp [right.mem_parts_self]) leftLowers.key_eq
        rightLowers.key_eq leftCarries rightLowers.carries).imp
          fun _ _ made => made.after (leftLowers.grown.trans rightLowers.grown)

/-! ## Outputs -/

/-- The subexpressions of named expressions in the order in which they are
lowered. -/
def partsOf (outputs : List (String × Expr)) : List Expr :=
  outputs.flatMap fun output => output.2.parts

theorem plain_of_mem_partsOf {outputs : List (String × Expr)}
    (plain : ∀ output ∈ outputs, output.2.Plain) {part : Expr} (mem : part ∈ partsOf outputs) :
    part.Plain := by
  rcases List.mem_flatMap.mp mem with ⟨output, outputMem, inOutput⟩
  exact (plain output outputMem).of_mem_parts inOutput

/-- Over plain names, expressions keep their values when they are merged. -/
theorem denote_merged_partsOf {outputs : List (String × Expr)}
    (plain : ∀ output ∈ outputs, output.2.Plain) {output : String × Expr} (mem : output ∈ outputs)
    (valuation : String → Bool) :
    (output.2.merged (partsOf outputs)).denote valuation = output.2.denote valuation :=
  Expr.denote_merged_of_plain (fun _ partMem => plain_of_mem_partsOf plain partMem)
    (plain output mem) valuation

/-- Binding an output does not touch the gates. -/
theorem Lowered.withOutput (here : Lowered assignment exprs shared start) {node : Node}
    (contained : start.circuit.contains node = true) (name : String) :
    Lowered assignment exprs shared (start.withOutput name node) where
  wellFormed := Assembly.wellFormed_withOutput here.wellFormed contained
  closed := here.closed
  present := here.present
  listed key listedNode found := (here.listed key listedNode found).imp fun _ facts =>
    ⟨facts.1, facts.2.1, (start.extends_withOutput name node).carries facts.2.2⟩
  kinds := here.kinds

/-- A name is bound to the node of the last expression under it, or as before
if there is none. -/
def BindsLast (assignment : Assignment) (exprs : List Expr) (outputs : List (String × Expr))
    (before after : Circuit) (name : String) : Prop :=
  match outputs.reverse.lookup name with
  | none => after.output? name = before.output? name
  | some expr => ∃ node, after.output? name = some node ∧
      after.Carries assignment node ((expr.merged exprs).denote assignment.valuation)

/-- A name that is bound first and then perhaps again by later outputs. -/
theorem BindsLast.cons {rest : List (String × Expr)} {bound name : String} {node : Node}
    {before middle after : Circuit}
    (middle_eq : middle.output? name = if name = bound then some node else before.output? name)
    (carries : after.Carries assignment node ((expr.merged exprs).denote assignment.valuation))
    (binds : BindsLast assignment exprs rest middle after name) :
    BindsLast assignment exprs ((bound, expr) :: rest) before after name := by
  unfold BindsLast at binds ⊢
  rw [List.reverse_cons, List.lookup_append]
  cases later : rest.reverse.lookup name with
  | some last =>
      rw [later] at binds
      exact binds
  | none =>
      rw [later] at binds
      change after.output? name = middle.output? name at binds
      rw [middle_eq] at binds
      by_cases here : name = bound
      · subst here
        rw [if_pos rfl] at binds
        rw [List.lookup_cons_self]
        exact ⟨node, binds, carries⟩
      · rw [if_neg here] at binds
        rw [List.lookup_cons, beq_eq_false_iff_ne.mpr here]
        exact binds

/-- Lowering named expressions binds every name to the node of the last
expression under it. -/
theorem ensures_lowerOutputs (outputs : List (String × Expr))
    (here : Lowered assignment exprs shared start)
    (declared : ∀ output ∈ outputs, ∀ name ∈ output.2.occurrences, name ∈ start.circuit.inputs)
    (assigns : assignment.Assigns start.circuit.inputs) :
    AssemblyM.Ensures (lowerOutputs outputs shared) start fault fun result next =>
      Lowered assignment (exprs ++ partsOf outputs) result.2 next ∧
        next.circuit.Extends start.circuit ∧
        ∀ name, BindsLast assignment (exprs ++ partsOf outputs) outputs start.circuit
          next.circuit name := by
  induction outputs generalizing exprs shared start with
  | nil =>
      refine AssemblyM.ensures_pure ⟨?_, .refl _, fun _ => rfl⟩
      simpa [partsOf] using here
  | cons output rest ih =>
      obtain ⟨bound, expr⟩ := output
      rw [List.forall_mem_cons] at declared
      unfold lowerOutputs
      refine AssemblyM.ensures_stateBind (ensures_lower here declared.1 assigns)
        fun lowered next lowers => ?_
      have contained := lowers.carries.1
      refine AssemblyM.ensures_stateBind
        (AssemblyM.ensures_stateLift (AssemblyM.ensures_setOutput contained))
        fun unit afterwards made => ?_
      obtain ⟨rfl, same⟩ := made
      rw [same]
      have bindExtends := next.extends_withOutput bound lowered.1.node
      have extension := bindExtends.trans lowers.grown.extension
      have rest_eq : exprs ++ partsOf ((bound, expr) :: rest) =
          exprs ++ expr.parts ++ partsOf rest := by
        rw [partsOf, List.flatMap_cons, List.append_assoc]
        rfl
      rw [rest_eq]
      refine (ih (lowers.lowered.withOutput contained bound)
        (extension.inputs_eq.symm ▸ declared.2) (extension.inputs_eq.symm ▸ assigns)).imp
        fun result last ⟨loweredAll, extensionLast, binds⟩ =>
          ⟨loweredAll, extensionLast.trans extension, fun name => ?_⟩
      have stays := lowers.lowered.closed.merged_append (partsOf rest)
        (List.mem_append_right exprs expr.mem_parts_self)
      have carries := extensionLast.carries (bindExtends.carries lowers.carries)
      rw [← stays] at carries
      refine .cons ?_ carries (binds name)
      rw [Circuit.output?, Circuit.output?, ← lowers.grown.outputs_eq]
      exact Assembly.lookup_bindOutput bound name lowered.1.node next.circuit.outputs

end Lowering

namespace Circuit

open Lowering

/-- The circuit of named expressions exists, has their variables as its inputs
in ascending order and a gate kind only if an expression calls for it, and
every output computes the last expression under its name, merged. -/
theorem exists_ofExprs (outputs : List (String × Expr)) :
    ∃ circuit, ofExprs outputs = .ok circuit ∧ circuit.WellFormed ∧
      circuit.inputs = Expr.sortedVarsOf (outputs.map Prod.snd) ∧
      (∀ gate ∈ circuit.gates, ∃ expr ∈ partsOf outputs, expr.gateKind? = some gate.kind) ∧
      ∀ assignment : Assignment, assignment.Assigns circuit.inputs → ∀ name expr,
        outputs.reverse.lookup name = some expr →
        ∃ node, circuit.output? name = some node ∧ circuit.Carries assignment node
          ((expr.merged (partsOf outputs)).denote assignment.valuation) := by
  have nodup := Expr.nodup_sortedVarsOf (outputs.map Prod.snd)
  have declared : ∀ output ∈ outputs, ∀ name ∈ output.2.occurrences,
      name ∈ Expr.sortedVarsOf (outputs.map Prod.snd) := fun output mem name occurs =>
    Expr.mem_sortedVarsOf.mpr ⟨output.2, List.mem_map_of_mem mem, occurs⟩
  have start : ∀ assignment, Lowered assignment [] []
      (Assembly.ofInputs (Expr.sortedVarsOf (outputs.map Prod.snd))) := fun _ =>
    { wellFormed := Assembly.wellFormed_ofInputs nodup
      closed := by simp [Expr.Closed]
      present := by simp
      listed := by simp
      kinds := by simp [Assembly.ofInputs] }
  have run : ∀ assignment : Assignment,
      assignment.Assigns (Expr.sortedVarsOf (outputs.map Prod.snd)) →
      AssemblyM.Ensures (lowerOutputs outputs [])
        (Assembly.ofInputs (Expr.sortedVarsOf (outputs.map Prod.snd))) (fun _ => False) _ :=
    fun assignment assigns => ensures_lowerOutputs outputs (start assignment) declared assigns
  obtain ⟨result, finished, ran, lowered, extension, -⟩ :=
    (run _ (Row.assigns_assignment nodup 0)).exists_eq_ok
  refine ⟨finished.circuit, ?_, lowered.wellFormed.circuit, extension.inputs_eq, ?_, ?_⟩
  · rw [ofExprs, Assembly.addInputs_empty nodup]
    change (lowerOutputs outputs [] _).map (·.2.circuit) = _
    rw [ran]
    rfl
  · simpa using lowered.kinds
  · intro assignment assigns name expr last
    rw [extension.inputs_eq] at assigns
    have binds := ((run assignment assigns).of_eq_ok ran).2.2 name
    rw [BindsLast, last] at binds
    simpa using binds

/-- Named expressions over names of the expression language have a circuit.  Its
inputs are their different variables in ascending order, and every output
computes the last expression under its name. -/
theorem evaluateOutput_ofExprs (outputs : List (String × Expr))
    (names : ∀ output ∈ outputs, output.2.HasNames) :
    ∃ circuit, ofExprs outputs = .ok circuit ∧
      circuit.inputs.Pairwise (· < ·) ∧
      (∀ name, name ∈ circuit.inputs ↔ ∃ output ∈ outputs, name ∈ output.2.vars) ∧
      ∀ assignment : Assignment, assignment.Assigns circuit.inputs → ∀ name expr,
        outputs.reverse.lookup name = some expr →
        ∃ value, expr.evaluate assignment = .ok value ∧
          circuit.evaluateOutput name assignment = .ok value := by
  obtain ⟨circuit, ofExprs_eq, wellFormed, inputs_eq, -, computes⟩ := exists_ofExprs outputs
  have mem_inputs : ∀ name, name ∈ circuit.inputs ↔ ∃ output ∈ outputs, name ∈ output.2.vars := by
    intro name
    rw [inputs_eq, Expr.mem_sortedVarsOf]
    constructor
    · rintro ⟨expr, exprMem, occurs⟩
      obtain ⟨output, mem, rfl⟩ := List.mem_map.mp exprMem
      exact ⟨output, mem, Expr.mem_vars.mpr occurs⟩
    · rintro ⟨output, mem, occurs⟩
      exact ⟨output.2, List.mem_map_of_mem mem, Expr.mem_vars.mp occurs⟩
  have plain : ∀ output ∈ outputs, output.2.Plain := fun output mem name occurs =>
    isPlainName_of_isName (names output mem name occurs)
  refine ⟨circuit, ofExprs_eq, ?_, mem_inputs, ?_⟩
  · rw [inputs_eq]
    exact Expr.ascending_sortedVarsOf _
  · intro assignment assigns name expr last
    have mem : (name, expr) ∈ outputs := by
      obtain ⟨later, earlier, reverse_eq, -⟩ := List.lookup_eq_some_iff.mp last
      exact List.mem_reverse.mp (reverse_eq ▸ List.mem_append_right later List.mem_cons_self)
    obtain ⟨node, bound, carries⟩ := computes assignment assigns name expr last
    rw [denote_merged_partsOf plain mem] at carries
    have assigned : assignment.Assigns expr.occurrences := fun other occurs =>
      assigns other ((mem_inputs other).mpr ⟨_, mem, Expr.mem_vars.mpr occurs⟩)
    exact ⟨_, Expr.evaluate_eq_ok assigned, wellFormed.evaluateOutput_eq_ok assigns bound carries⟩

/-- Two outputs under one name, and one that shares a gate with the first. -/
def sharedOutputs : List (String × Expr) :=
  [("Y", .and (.var "A") (.not (.var "B"))), ("Z", .and (.not (.var "B")) (.var "A")),
    ("Y", .xor (.var "B") (.constant true))]

theorem sharedOutputs_evaluateOutput :
    ∃ circuit, ofExprs sharedOutputs = .ok circuit ∧
      circuit.inputs.Pairwise (· < ·) ∧
      (∀ name, name ∈ circuit.inputs ↔ ∃ output ∈ sharedOutputs, name ∈ output.2.vars) ∧
      ∀ assignment : Assignment, assignment.Assigns circuit.inputs → ∀ name expr,
        sharedOutputs.reverse.lookup name = some expr →
        ∃ value, expr.evaluate assignment = .ok value ∧
          circuit.evaluateOutput name assignment = .ok value := by
  have names : ∀ output ∈ sharedOutputs, output.2.HasNames := by decide
  exact evaluateOutput_ofExprs sharedOutputs names

end Circuit

end Switching
