import Switching.Proofs.Circuit.Libraries
import Switching.Proofs.Circuit.Lowering
import Switching.Proofs.Cover.Minimization
import Switching.Proofs.Expr.ParsedNames
import Switching.Proofs.Table.Tabulation
import Switching.Synthesis

/-!
# Synthesis is correct

The circuit of a synthesis run computes the merged minimized expressions: the
stages after the lowering keep the values of all outputs.  So the circuit of a
table agrees with it exactly if merging did no harm, which is certain if the
names of the inputs are plain.  The names in expression text always are, so the
circuit of an expression computes the expression, and without a custom library
no stage after the parser fails unless there are too many variables.
-/

namespace Switching

/-! ## Gate libraries -/

namespace GateLibrary

variable {library : GateLibrary} {circuit : Circuit}

/-- Every library keeps the values of the outputs. -/
theorem refines_of_map_eq_ok (wellFormed : circuit.WellFormed) {mapped : Circuit}
    (ran : library.map circuit = .ok mapped) : mapped.Refines circuit := by
  cases library with
  | basic =>
      cases ran
      exact .refl wellFormed
  | nand => exact Pass.refines_of_run_eq_ok wellFormed .nand ran
  | nor => exact Pass.refines_of_run_eq_ok wellFormed .nor ran
  | custom gates => exact Pass.refines_of_run_eq_ok wellFormed (.gateSet gates) ran

/-- The kinds of gate of two-level forms. -/
def IsTwoLevelKind (kind : GateKind) : Prop :=
  kind.isConstant = true ∨ kind = .not ∨ kind = .and ∨ kind = .or

/-- The libraries that are not custom can express two-level forms. -/
theorem exists_map (notCustom : ∀ gates, library ≠ .custom gates)
    (wellFormed : circuit.WellFormed) (kinds : ∀ gate ∈ circuit.gates, IsTwoLevelKind gate.kind) :
    ∃ mapped, library.map circuit = .ok mapped := by
  cases library with
  | basic => exact ⟨circuit, rfl⟩
  | nand =>
      apply (UniversalGate.lawful_nand.exists_substitute_iff wellFormed).mpr
      intro gate reachable
      rcases kinds gate reachable.1 with constant | not | and | or
      · exact .inr (.inl constant)
      · exact .inr (.inr (.inl not))
      · exact .inr (.inr (.inr (.inl and)))
      · exact .inr (.inr (.inr (.inr or)))
  | nor =>
      apply (UniversalGate.lawful_nor.exists_substitute_iff wellFormed).mpr
      intro gate reachable
      rcases kinds gate reachable.1 with constant | not | and | or
      · exact .inr (.inl constant)
      · exact .inr (.inr (.inl not))
      · exact .inr (.inr (.inr (.inr and)))
      · exact .inr (.inr (.inr (.inl or)))
  | custom gates => exact absurd rfl (notCustom gates)

end GateLibrary

/-! ## Two-level expressions -/

namespace Expr

theorem mem_parts_foldl {op : Connective} {rest : List Expr} {first expr : Expr}
    (mem : expr ∈ (rest.foldl (.binary op) first).parts) :
    (∃ operand ∈ first :: rest, expr ∈ operand.parts) ∨ expr.gateKind? = some op.gateKind := by
  induction rest generalizing first with
  | nil => exact .inl ⟨first, List.mem_cons_self, mem⟩
  | cons second rest ih =>
      rcases ih mem with ⟨operand, operandMem, inOperand⟩ | made
      · rcases List.mem_cons.mp operandMem with rfl | later
        · simp only [parts, List.mem_append, List.mem_singleton] at inOperand
          rcases inOperand with (inFirst | inSecond) | rfl
          · exact .inl ⟨first, List.mem_cons_self, inFirst⟩
          · exact .inl ⟨second, by simp, inSecond⟩
          · exact .inr rfl
        · exact .inl ⟨operand, by simp [later], inOperand⟩
      · exact .inr made

/-- A chain has the parts of its operands, its connectives and, if it is empty,
its unit. -/
theorem mem_parts_chainD {op : Connective} {unit : Bool} {operands : List Expr} {expr : Expr}
    (mem : expr ∈ (chainD op unit operands).parts) :
    (∃ operand ∈ operands, expr ∈ operand.parts) ∨ expr.gateKind? = some op.gateKind ∨
      expr = .constant unit := by
  cases operands with
  | nil => exact .inr (.inr (List.mem_singleton.mp mem))
  | cons first rest =>
      rcases mem_parts_foldl mem with inOperand | made
      · exact .inl inOperand
      · exact .inr (.inl made)

end Expr

/-- The gates of a two-level form are negations, conjunctions, disjunctions and
constants. -/
theorem Form.isTwoLevelKind_of_mem_parts {form : Form} {cubes : List Cube} {inputs : List String}
    {expr : Expr} {kind : GateKind} (mem : expr ∈ (form.toExpr cubes inputs).parts)
    (kind_eq : expr.gateKind? = some kind) : GateLibrary.IsTwoLevelKind kind := by
  have constant : ∀ value, expr = .constant value → GateLibrary.IsTwoLevelKind kind := by
    rintro value rfl
    cases kind_eq
    cases value <;> exact .inl rfl
  have connective : ∀ op ∈ [form.connectives.1, form.connectives.2],
      expr.gateKind? = some op.gateKind → GateLibrary.IsTwoLevelKind kind := by
    intro op opMem made
    obtain rfl : kind = op.gateKind := Option.some.inj (kind_eq.symm.trans made)
    cases form <;> simp [connectives] at opMem <;> rcases opMem with rfl | rfl <;>
      simp [Connective.gateKind, GateLibrary.IsTwoLevelKind]
  rcases Expr.mem_parts_chainD mem with ⟨_, termMem, inTerm⟩ | outer | unit
  · obtain ⟨cube, -, rfl⟩ := List.mem_map.mp termMem
    rcases Expr.mem_parts_chainD inTerm with ⟨_, literalMem, inLiteral⟩ | inner | unit
    · obtain ⟨⟨name, positive⟩, -, rfl⟩ := List.mem_map.mp literalMem
      cases positive with
      | true =>
          obtain rfl := List.mem_singleton.mp inLiteral
          cases kind_eq
      | false =>
          rcases List.mem_append.mp inLiteral with operand | negation
          · obtain rfl := List.mem_singleton.mp operand
            cases kind_eq
          · obtain rfl := List.mem_singleton.mp negation
            cases kind_eq
            exact .inr (.inl rfl)
    · exact connective _ List.mem_cons_self inner
    · exact constant _ unit
  · exact connective _ (List.mem_cons_of_mem _ List.mem_cons_self) outer
  · exact constant _ unit

/-! ## Circuits of minimized outputs -/

namespace Minimization

/-- The subexpressions of the minimized outputs in the order in which they are
lowered. -/
def parts (minimization : Minimization) : List Expr :=
  minimization.outputs.flatMap fun output => output.expr.parts

/-- The named expressions that are lowered. -/
def named (minimization : Minimization) : List (String × Expr) :=
  minimization.outputs.map fun output => (output.name, output.expr)

theorem partsOf_named (minimization : Minimization) :
    Lowering.partsOf minimization.named = minimization.parts := by
  simp [Lowering.partsOf, named, parts, List.flatMap_map]

variable {minimization : Minimization} {options : Options}

/-- Under different names every output is bound to its own expression. -/
theorem lookup_named (nodup : (minimization.outputs.map MinimizedOutput.name).Nodup)
    {output : MinimizedOutput} (mem : output ∈ minimization.outputs) :
    minimization.named.reverse.lookup output.name = some output.expr := by
  refine lookup_eq_some_of_mem ?_ (List.mem_reverse.mpr (List.mem_map_of_mem mem))
  rw [List.map_reverse, List.nodup_reverse, named, List.map_map]
  exact nodup

/-- The stages of making a circuit. -/
theorem toCircuit_eq_ok_iff {circuit : Circuit} :
    minimization.toCircuit options = .ok circuit ↔
      ∃ lowered, Circuit.ofExprs minimization.named = .ok lowered ∧
        ∃ mapped, options.library.map lowered = .ok mapped ∧
          (if options.peephole then mapped.collapseNegations else .ok mapped) = .ok circuit := by
  simp only [toCircuit, named, bind_eq_ok_iff]
  rfl

/-- The stages after the lowering keep the values of the outputs. -/
theorem refines_of_toCircuit {circuit lowered : Circuit}
    (ran : minimization.toCircuit options = .ok circuit)
    (lowered_eq : Circuit.ofExprs minimization.named = .ok lowered)
    (wellFormed : lowered.WellFormed) : circuit.Refines lowered := by
  obtain ⟨_, found, mapped, mapped_eq, final⟩ := toCircuit_eq_ok_iff.mp ran
  obtain rfl := Except.ok.inj (found.symm.trans lowered_eq)
  have refines := GateLibrary.refines_of_map_eq_ok wellFormed mapped_eq
  split at final
  · obtain ⟨result, collapse_eq, collapsed⟩ := Circuit.exists_collapseNegations refines.wellFormed
    obtain rfl : result = circuit := Except.ok.inj (collapse_eq.symm.trans final)
    exact collapsed.trans refines
  · cases final
    exact refines

/-- Without a custom library no stage fails on two-level forms. -/
theorem exists_toCircuit (notCustom : ∀ gates, options.library ≠ .custom gates)
    (twoLevel : ∀ expr ∈ minimization.parts, ∀ kind, expr.gateKind? = some kind →
      GateLibrary.IsTwoLevelKind kind) :
    ∃ circuit, minimization.toCircuit options = .ok circuit := by
  obtain ⟨lowered, lowered_eq, wellFormed, -, kinds, -⟩ :=
    Circuit.exists_ofExprs minimization.named
  rw [partsOf_named] at kinds
  have loweredTwoLevel : ∀ gate ∈ lowered.gates, GateLibrary.IsTwoLevelKind gate.kind := by
    intro gate mem
    obtain ⟨expr, exprMem, kind_eq⟩ := kinds gate mem
    exact twoLevel expr exprMem gate.kind kind_eq
  obtain ⟨mapped, mapped_eq⟩ := GateLibrary.exists_map notCustom wellFormed loweredTwoLevel
  have refines := GateLibrary.refines_of_map_eq_ok wellFormed mapped_eq
  obtain ⟨collapsed, collapse_eq, -⟩ := Circuit.exists_collapseNegations refines.wellFormed
  have final : ∃ circuit,
      (if options.peephole then mapped.collapseNegations else .ok mapped) = .ok circuit := by
    split
    · exact ⟨collapsed, collapse_eq⟩
    · exact ⟨mapped, rfl⟩
  obtain ⟨circuit, final_eq⟩ := final
  exact ⟨circuit, toCircuit_eq_ok_iff.mpr ⟨lowered, lowered_eq, mapped, mapped_eq, final_eq⟩⟩

/-- The circuit computes the merged expressions of the outputs. -/
theorem evaluateOutput_of_toCircuit {circuit : Circuit}
    (ran : minimization.toCircuit options = .ok circuit)
    (nodup : (minimization.outputs.map MinimizedOutput.name).Nodup) {assignment : Assignment}
    (assigns : ∀ output ∈ minimization.outputs, assignment.Assigns output.expr.occurrences)
    {output : MinimizedOutput} (mem : output ∈ minimization.outputs) :
    circuit.evaluateOutput output.name assignment =
      .ok ((output.expr.merged minimization.parts).denote assignment.valuation) := by
  obtain ⟨lowered, lowered_eq, wellFormed, inputs_eq, -, computes⟩ :=
    Circuit.exists_ofExprs minimization.named
  have loweredAssigns : assignment.Assigns lowered.inputs := by
    intro name declared
    rw [inputs_eq, Expr.mem_sortedVarsOf] at declared
    obtain ⟨expr, exprMem, occurs⟩ := declared
    simp only [named, List.map_map, List.mem_map] at exprMem
    obtain ⟨other, otherMem, rfl⟩ := exprMem
    exact assigns other otherMem name occurs
  obtain ⟨node, bound, carries⟩ :=
    computes assignment loweredAssigns output.name output.expr (lookup_named nodup mem)
  rw [partsOf_named] at carries
  have refines := refines_of_toCircuit ran lowered_eq wellFormed
  obtain ⟨final, finalBound, finalCarries⟩ :=
    refines.outputs assignment loweredAssigns output.name node _ bound carries
  exact refines.wellFormed.evaluateOutput_eq_ok (refines.inputs_eq.symm ▸ loweredAssigns)
    finalBound finalCarries

end Minimization

/-! ## Tables -/

namespace Table

variable {table : Table}

/-- The variables of a minimized expression are inputs. -/
theorem mem_inputs_of_mem_minimize {form : Form} {limit : Nat} {output : MinimizedOutput}
    (mem : output ∈ (table.minimize form limit).outputs) {name : String}
    (occurs : name ∈ output.expr.occurrences) : name ∈ table.inputs := by
  obtain ⟨_, -, rfl⟩ := List.mem_map.mp mem
  exact Form.mem_inputs_of_mem_occurrences occurs

theorem nodup_names_minimize (table : Table) (form : Form) (limit : Nat) :
    ((table.minimize form limit).outputs.map MinimizedOutput.name).Nodup := by
  have names_eq : (table.minimize form limit).outputs.map MinimizedOutput.name =
      table.outputs := by
    simp [minimize, Function.comp_def]
  rw [names_eq]
  exact table.outputs_nodup

/-- The circuit of a table computes its merged minimized expressions. -/
theorem evaluateOutput_of_minimize {form : Form} {limit : Nat} {options : Options}
    {circuit : Circuit} (ran : (table.minimize form limit).toCircuit options = .ok circuit)
    {assignment : Assignment} (assigns : assignment.Assigns table.inputs)
    (column : Fin table.outputCount) :
    circuit.evaluateOutput table.outputs[column] assignment =
      .ok (((form.toExpr (table.selectedCubes form limit column) table.inputs).merged
        (table.minimize form limit).parts).denote assignment.valuation) :=
  Minimization.evaluateOutput_of_toCircuit ran (table.nodup_names_minimize form limit)
    (fun _ mem name occurs => assigns name (mem_inputs_of_mem_minimize mem occurs))
    (List.mem_of_getElem? (table.getElem?_outputs_minimize form limit column))

/-- Over plain inputs merging does not change the values of minimized
expressions. -/
theorem denote_merged_minimize {form : Form} {limit : Nat}
    (plain : ∀ name ∈ table.inputs, IsPlainName name) {output : MinimizedOutput}
    (mem : output ∈ (table.minimize form limit).outputs) (valuation : String → Bool) :
    (output.expr.merged (table.minimize form limit).parts).denote valuation =
      output.expr.denote valuation := by
  have plainNamed : ∀ other ∈ (table.minimize form limit).named, other.2.Plain := by
    intro other otherMem name occurs
    obtain ⟨minimized, minimizedMem, rfl⟩ := List.mem_map.mp otherMem
    exact plain name (mem_inputs_of_mem_minimize minimizedMem occurs)
  have namedMem : (output.name, output.expr) ∈ (table.minimize form limit).named :=
    List.mem_map_of_mem mem
  rw [← Minimization.partsOf_named]
  exact Lowering.denote_merged_partsOf plainNamed namedMem valuation

/-- Over plain inputs the circuit of a table has the values of the cells. -/
theorem evaluateOutput_of_plain {form : Form} {limit : Nat} {options : Options} {circuit : Circuit}
    (ran : (table.minimize form limit).toCircuit options = .ok circuit)
    (plain : ∀ name ∈ table.inputs, IsPlainName name) {assignment : Assignment}
    (assigns : assignment.Assigns table.inputs) {place : table.Place} {value : Bool}
    (cell_eq : (table.cell place).toBool? = some value)
    (agrees : ∀ name ∈ table.inputs,
      (Row.assignment table.inputs place.1).valuation name = assignment.valuation name) :
    circuit.evaluateOutput table.outputs[place.2] assignment = .ok value := by
  have minimized := table.getElem?_outputs_minimize form limit place.2
  have cover := table.isCover_selectedCubes form limit place.2
  have value_eq : (form.toExpr (table.selectedCubes form limit place.2) table.inputs).denote
      assignment.valuation = value := by
    rw [← cover.denote_toExpr cell_eq]
    exact Expr.denote_congr fun name occurs =>
      (agrees name (Form.mem_inputs_of_mem_occurrences occurs)).symm
  have unmerged := denote_merged_minimize plain (List.mem_of_getElem? minimized)
    assignment.valuation
  rw [evaluateOutput_of_minimize ran assigns place.2, unmerged, value_eq]

/-- A circuit implements a table if it gives every cell that is not free its
value. -/
def ImplementedBy (table : Table) (circuit : Circuit) : Prop :=
  ∀ (place : table.Place) (value : Bool), (table.cell place).toBool? = some value →
    circuit.evaluateOutput (table.outputs.get place.2) (Row.assignment table.inputs place.1) =
      .ok value

end Table

/-! ## Synthesis runs -/

/-- A run tabulates, minimizes and makes the circuit. -/
theorem synthesize_eq_ok_iff {source : Source} {options : Options} {table : Table}
    {minimization : Minimization} {circuit : Circuit} :
    synthesize source options = .ok ⟨table, minimization, circuit⟩ ↔
      source.tabulate options.outputName = .ok table ∧
        minimization = table.minimize options.form options.productLimit ∧
        minimization.toCircuit options = .ok circuit := by
  simp only [synthesize, bind_eq_ok_iff, mapError_eq_ok_iff]
  constructor
  · rintro ⟨_, tabulated, _, made, result⟩
    cases result
    exact ⟨tabulated, rfl, made⟩
  · rintro ⟨tabulated, rfl, made⟩
    exact ⟨table, tabulated, circuit, made, rfl⟩

/-- The circuit of a table implements it exactly if the merged minimized
expressions have the values of the cells.  Over plain inputs this is always so. -/
theorem implementedBy_synthesize_iff {table : Table} {options : Options} {synthesis : Synthesis}
    (ran : synthesize (.table table) options = .ok synthesis) :
    (table.ImplementedBy synthesis.circuit ↔
      ∀ (place : table.Place) (value : Bool), (table.cell place).toBool? = some value →
        ∃ output, synthesis.minimization.outputs[place.2.val]? = some output ∧
          (output.expr.merged synthesis.minimization.parts).denote
            (Row.assignment table.inputs place.1).valuation = value) ∧
      ((∀ name ∈ table.inputs, IsPlainName name) → table.ImplementedBy synthesis.circuit) := by
  obtain ⟨found, minimization, circuit⟩ := synthesis
  obtain ⟨tabulated, rfl, ranCircuit⟩ := synthesize_eq_ok_iff.mp ran
  obtain rfl : found = table := (Except.ok.inj tabulated).symm
  have computes : ∀ place : found.Place,
      circuit.evaluateOutput found.outputs[place.2] (Row.assignment found.inputs place.1) = _ :=
    fun place => Table.evaluateOutput_of_minimize ranCircuit
      (Row.assigns_assignment found.inputs_nodup place.1) place.2
  have minimized := fun column =>
    found.getElem?_outputs_minimize options.form options.productLimit column
  refine ⟨⟨fun implements place value cell_eq => ?_, fun agree place value cell_eq => ?_⟩,
    fun plain place value cell_eq => ?_⟩
  · exact ⟨_, minimized place.2,
      Except.ok.inj ((computes place).symm.trans (implements place value cell_eq))⟩
  · obtain ⟨output, output_eq, merged_eq⟩ := agree place value cell_eq
    obtain rfl := Option.some.inj ((minimized place.2).symm.trans output_eq)
    exact (computes place).trans (congrArg Except.ok merged_eq)
  · exact Table.evaluateOutput_of_plain ranCircuit plain
      (Row.assigns_assignment found.inputs_nodup place.1) cell_eq fun _ _ => rfl

/-- The circuit of an exclusive disjunction of plain inputs implements it. -/
theorem exclusiveOr_implemented :
    ∃ synthesis, synthesize (.table (.exclusiveOr "a" "b")) {} = .ok synthesis ∧
      (Table.exclusiveOr "a" "b").ImplementedBy synthesis.circuit := by
  have succeeds : (synthesize (.table (.exclusiveOr "a" "b")) {}).isOk = true := by decide +kernel
  cases ran : synthesize (.table (.exclusiveOr "a" "b")) {} with
  | error failure =>
      rw [ran] at succeeds
      cases succeeds
  | ok synthesis =>
      have plain : ∀ name ∈ (Table.exclusiveOr "a" "b").inputs, IsPlainName name := by
        simp [Table.exclusiveOr, IsPlainName]
      exact ⟨synthesis, rfl, (implementedBy_synthesize_iff ran).2 plain⟩

/-- One of these inputs has a name that looks like a part of a key.  Both
products of the disjunction then become the same gate, and its circuit is off
in a row that is on. -/
theorem exclusiveOr_not_implemented :
    ∃ synthesis, synthesize (.table (.exclusiveOr "x" "x),var:x")) {} =
        .ok synthesis ∧
      ¬(Table.exclusiveOr "x" "x),var:x").ImplementedBy synthesis.circuit := by
  have wrong : (synthesize (.table (.exclusiveOr "x" "x),var:x")) {}).toOption.map
      (fun synthesis => synthesis.circuit.evaluateOutput "Y"
        (Row.assignment ["x", "x),var:x"] 1)) = some (.ok false) := by decide +kernel
  cases ran : synthesize (.table (.exclusiveOr "x" "x),var:x")) {} with
  | error failure =>
      rw [ran] at wrong
      cases wrong
  | ok synthesis =>
      refine ⟨synthesis, rfl, fun implements => ?_⟩
      rw [ran] at wrong
      have right := implements (⟨1, by decide⟩, ⟨0, by decide⟩) true rfl
      cases right.symm.trans (Option.some.inj wrong)

/-! ## Expression text -/

/-- The minimized outputs of a table are two-level forms. -/
theorem Table.isTwoLevelKind_of_mem_parts_minimize (table : Table) (form : Form) (limit : Nat) :
    ∀ expr ∈ (table.minimize form limit).parts, ∀ kind, expr.gateKind? = some kind →
      GateLibrary.IsTwoLevelKind kind := by
  intro expr mem kind kind_eq
  obtain ⟨output, outputMem, inOutput⟩ := List.mem_flatMap.mp mem
  obtain ⟨_, -, rfl⟩ := List.mem_map.mp outputMem
  exact Form.isTwoLevelKind_of_mem_parts inOutput kind_eq

/-- The circuit of a tabulated expression computes the expression. -/
theorem Table.evaluateOutput_of_ofExpr {expr : Expr} {output : String} {table : Table}
    {form : Form} {limit : Nat} {options : Options} {circuit : Circuit} (names : expr.HasNames)
    (ofExpr_eq : ofExpr expr output = .ok table)
    (ran : (table.minimize form limit).toCircuit options = .ok circuit) {assignment : Assignment}
    (assigns : assignment.Assigns expr.vars) :
    ∃ value, expr.evaluate assignment = .ok value ∧
      circuit.evaluateOutput output assignment = .ok value := by
  obtain ⟨inputs_eq, outputs_eq, cell_eq⟩ := spec_of_ofExpr ofExpr_eq
  have mem_inputs : ∀ {name}, name ∈ table.inputs ↔ name ∈ expr.occurrences :=
    inputs_eq ▸ Expr.mem_sortedVars
  have assignsOccurrences : assignment.Assigns expr.occurrences := fun name occurs =>
    assigns name (Expr.mem_vars.mpr occurs)
  have assignsInputs : assignment.Assigns table.inputs := fun name mem =>
    assignsOccurrences name (mem_inputs.mp mem)
  have plain : ∀ name ∈ table.inputs, IsPlainName name := fun name mem =>
    isPlainName_of_isName (names name (mem_inputs.mp mem))
  obtain ⟨index, bound, agrees⟩ :=
    Row.exists_valuation table.inputs_nodup table.width_le assignment.valuation
  have column_lt : 0 < table.outputCount := by
    rw [outputCount, outputs_eq]
    exact Nat.one_pos
  let place : table.Place := (⟨index, bound⟩, ⟨0, column_lt⟩)
  have value_eq : (table.cell place).toBool? = some (expr.denote assignment.valuation) := by
    rw [cell_eq, Cell.toBool?_ofBool]
    exact congrArg some (Expr.denote_congr fun name occurs =>
      agrees name (mem_inputs.mpr occurs))
  have computes := evaluateOutput_of_plain ran plain assignsInputs value_eq agrees
  have output_eq : table.outputs[place.2] = output := by simp [place, outputs_eq]
  exact ⟨_, Expr.evaluate_eq_ok assignsOccurrences, output_eq ▸ computes⟩

/-- Text is tabulated by parsing it and tabulating what it says. -/
theorem Table.ofText_eq_ok_iff {text output : String} {table : Table} :
    ofText text output = .ok table ↔
      ∃ expr, parse text = .ok expr ∧ ofExpr expr output = .ok table := by
  simp only [ofText, bind_eq_ok_iff, mapError_eq_ok_iff]

/-- Without a custom library, text is synthesized exactly if it parses and has
at most ten variables.  With any library, the circuit has the values of the
parsed expression. -/
theorem synthesize_expression (text : String) (options : Options) :
    ((∀ gates, options.library ≠ .custom gates) →
      ((∃ synthesis, synthesize (.expression text) options = .ok synthesis) ↔
        ∃ expr, parse text = .ok expr ∧ expr.vars.length ≤ 10)) ∧
    ∀ synthesis, synthesize (.expression text) options = .ok synthesis →
      ∃ expr, parse text = .ok expr ∧ ∀ assignment : Assignment, assignment.Assigns expr.vars →
        ∃ value, expr.evaluate assignment = .ok value ∧
          synthesis.circuit.evaluateOutput options.outputName assignment = .ok value := by
  refine ⟨fun notCustom => ⟨?_, ?_⟩, ?_⟩
  · rintro ⟨⟨table, minimization, circuit⟩, ran⟩
    obtain ⟨tabulated, -, -⟩ := synthesize_eq_ok_iff.mp ran
    obtain ⟨expr, parsed, ofExpr_eq⟩ := Table.ofText_eq_ok_iff.mp tabulated
    refine ⟨expr, parsed, Nat.le_of_not_lt fun tooMany => ?_⟩
    cases (Table.ofExpr_eq_error tooMany).symm.trans ofExpr_eq
  · rintro ⟨expr, parsed, fits⟩
    obtain ⟨table, ofExpr_eq, -⟩ := Table.exists_ofExpr options.outputName fits
    obtain ⟨circuit, made⟩ := Minimization.exists_toCircuit notCustom
      (table.isTwoLevelKind_of_mem_parts_minimize options.form options.productLimit)
    exact ⟨⟨table, _, circuit⟩, synthesize_eq_ok_iff.mpr
      ⟨Table.ofText_eq_ok_iff.mpr ⟨expr, parsed, ofExpr_eq⟩, rfl, made⟩⟩
  · rintro ⟨table, minimization, circuit⟩ ran
    obtain ⟨tabulated, rfl, made⟩ := synthesize_eq_ok_iff.mp ran
    obtain ⟨expr, parsed, ofExpr_eq⟩ := Table.ofText_eq_ok_iff.mp tabulated
    exact ⟨expr, parsed, fun assignment assigns => Table.evaluateOutput_of_ofExpr
      (hasNames_of_parse parsed) ofExpr_eq made assigns⟩

end Switching
