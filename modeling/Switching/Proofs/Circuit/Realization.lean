import Switching.Proofs.Circuit.Libraries
import Switching.Proofs.Circuit.OutputTrees

/-!
# Realizations of gates

A set of gates realizes a kind of gate if some circuit over it, with constants and
`buf`, computes the function of the kind.  What such a circuit can compute is limited by
the relations that all its gates preserve.  Without negations and parities every node
is increasing in the inputs, so negation is out of reach; with nothing but negations and
parities every node is affine, so conjunction and disjunction are.  A mapping that
reports a kind of gate is therefore right about `and` and `or`.  About `not` it is right
unless the set has a parity, because the parity of a node and a constant negates the
node.
-/

namespace Switching

/-! ## Relations that gates preserve -/

/-- A kind of gate preserves a relation on columns of values if its function, row by row,
leads from columns in the relation to a column in the relation. -/
def GateKind.Preserves {ι : Type} (kind : GateKind) (relation : (ι → Bool) → Prop) : Prop :=
  ∀ columns : List (ι → Bool), kind.accepts columns.length = true →
    (∀ column ∈ columns, relation column) → relation fun row => kind.apply (columns.map (· row))

/-- Columns over the values of one input that do not fall. -/
def Increasing (column : Bool → Bool) : Prop :=
  column false = true → column true = true

/-- Columns over the values of two inputs in which the second input makes a difference
whatever the first one is, or never does. -/
def Affine (column : Bool × Bool → Bool) : Prop :=
  (column (false, false) != column (false, true)) = (column (true, false) != column (true, true))

theorem Affine.bne {first second : Bool × Bool → Bool} (firstAffine : Affine first)
    (secondAffine : Affine second) : Affine fun row => first row != second row := by
  have exchange : ∀ a b c d : Bool, ((a != b) != (c != d)) = ((a != c) != (b != d)) := by decide
  unfold Affine at firstAffine secondAffine ⊢
  rw [exchange, firstAffine, secondAffine, exchange]

theorem Affine.not {column : Bool × Bool → Bool} (affine : Affine column) :
    Affine fun row => !column row := by
  simpa [Affine] using affine

namespace GateKind

/-- A gate that neither negates nor takes a parity does not fall when its operands do
not. -/
theorem preserves_increasing {kind : GateKind}
    (positive : kind ∈ [GateKind.and, .or, .buf, .vcc, .gnd]) : kind.Preserves Increasing := by
  intro columns _ increasing
  have ones_le : (columns.map (· false)).countP id ≤ (columns.map (· true)).countP id := by
    rw [List.countP_map, List.countP_map]
    exact List.countP_mono_left increasing
  have le_length : (columns.map (· true)).countP id ≤ (columns.map (· true)).length :=
    List.countP_le_length
  rw [List.length_map] at le_length
  simp only [List.mem_cons, List.not_mem_nil, or_false] at positive
  rcases positive with rfl | rfl | rfl | rfl | rfl <;>
    simp only [Increasing, apply, List.length_map, beq_iff_eq, decide_eq_true_eq, imp_self,
      reduceCtorEq] <;>
    omega

/-- Parities of affine columns are affine. -/
theorem affine_apply_xor {columns : List (Bool × Bool → Bool)}
    (affine : ∀ column ∈ columns, Affine column) :
    Affine fun row => GateKind.xor.apply (columns.map (· row)) := by
  induction columns with
  | nil => rfl
  | cons column rest ih =>
      rw [List.forall_mem_cons] at affine
      simp only [List.map_cons, apply_xor_cons]
      exact affine.1.bne (ih affine.2)

/-- Gates other than conjunctions, disjunctions and their negations are affine. -/
theorem preserves_affine {kind : GateKind}
    (linear : kind ∈ [GateKind.not, .xor, .xnor, .buf, .vcc, .gnd]) : kind.Preserves Affine := by
  intro columns accepts affine
  simp only [List.mem_cons, List.not_mem_nil, or_false] at linear
  have only : kind = .not ∨ kind = .buf → ∃ column, columns = [column] := by
    rintro (rfl | rfl) <;> exact List.length_eq_one_iff.mp (beq_iff_eq.mp accepts)
  rcases linear with rfl | rfl | rfl | rfl | rfl | rfl
  · rcases only (.inl rfl) with ⟨column, rfl⟩
    simp only [List.map_cons, List.map_nil, apply_not]
    exact (affine column (List.mem_singleton_self _)).not
  · exact affine_apply_xor affine
  · simp only [apply_negated]
    exact (affine_apply_xor affine).not
  · rcases only (.inr rfl) with ⟨column, rfl⟩
    simp only [List.map_cons, List.map_nil, apply_buf]
    exact affine column (List.mem_singleton_self _)
  · rfl
  · rfl

theorem apply_and_replicate (count : Nat) :
    GateKind.and.apply (List.replicate count true) = true := by
  simp [apply, List.countP_replicate]

theorem apply_or_replicate (count : Nat) :
    GateKind.or.apply (List.replicate count false) = false := by
  simp [apply]

/-- The parities, each with the constant that changes it. -/
def Inverts (parity constant : GateKind) : Prop :=
  parity = .xor ∧ constant = .vcc ∨ parity = .xnor ∧ constant = .gnd

theorem Inverts.apply_eq {parity constant : GateKind} (inverts : parity.Inverts constant)
    (value : Bool) : parity.apply [value, constant.apply []] = GateKind.not.apply [value] := by
  rcases inverts with ⟨rfl, rfl⟩ | ⟨rfl, rfl⟩ <;> cases value <;> rfl

end GateKind

/-! ## What circuits compute -/

/-- If the rows of some columns are assigned to as many names, each name has one of the
columns as its values. -/
theorem Row.valuation_mem_columns {ι : Type} {names : List String} {columns : List (ι → Bool)}
    (nodup : names.Nodup) (length_eq : columns.length = names.length) {name : String}
    (mem : name ∈ names) :
    (fun row => (Row.assignBits (columns.map (· row)) names).valuation name) ∈ columns := by
  rcases List.mem_iff_getElem.mp mem with ⟨position, bound, rfl⟩
  have columnBound : position < columns.length := length_eq ▸ bound
  apply List.mem_iff_getElem.mpr
  use position, columnBound
  funext row
  have values_eq := Row.map_valuation_assignBits nodup
    ((List.length_map (· row)).trans length_eq)
  have here := congrArg (·[position]?) values_eq.symm
  simpa [bound, columnBound] using here

namespace Circuit

variable {ι : Type} {relation : (ι → Bool) → Prop} {circuit : Circuit} {kind : GateKind}

/-- A circuit computes the function of a kind of gate if the kind accepts the number of
its inputs and some output always has the value of the function at the inputs. -/
def Computes (circuit : Circuit) (kind : GateKind) : Prop :=
  kind.accepts circuit.inputs.length = true ∧ ∃ name, ∀ assignment : Assignment,
    assignment.Assigns circuit.inputs →
      circuit.evaluateOutput name assignment =
        .ok (kind.apply (circuit.inputs.map assignment.valuation))

/-- If all gates preserve a relation in which the columns of the inputs are, the columns
of all nodes are in it. -/
theorem NodeBefore.exists_column (wellFormed : circuit.WellFormed)
    (preserved : ∀ gate ∈ circuit.gates, gate.kind.Preserves relation)
    {assignments : ι → Assignment} (assigns : ∀ row, (assignments row).Assigns circuit.inputs)
    (inputs : ∀ name ∈ circuit.inputs, relation fun row => (assignments row).valuation name)
    {position : Nat} {node : Node} (before : circuit.NodeBefore position node) :
    ∃ column, relation column ∧ ∀ row, circuit.HasValue (assignments row) node (column row) := by
  -- The operands of a gate have smaller numbers than the gate.
  induction position using Nat.strongRecOn generalizing node with
  | ind position ih =>
      cases node with
      | input name =>
          use fun row => (assignments row).valuation name, inputs name before
          intro row
          exact .input (Assignment.value?_eq_some_valuation (assigns row name before))
      | gate id =>
          rcases before with ⟨smaller, gate, found⟩
          rcases exists_forall₂ fun node mem =>
            ih id.serial smaller (wellFormed.nodeBefore_of_gate? found mem) with ⟨columns, each⟩
          have mem : gate ∈ circuit.gates :=
            Array.mem_of_getElem? (circuit.gate?_eq_some_iff.mp found).1
          have accepts : gate.kind.accepts columns.length = true :=
            each.length_eq ▸ wellFormed.accepts_of_gate? found
          have related : ∀ column ∈ columns, relation column := by
            intro column columnMem
            rcases exists_mem_of_forall₂ each columnMem with ⟨_, _, here, -⟩
            exact here
          use fun row => gate.kind.apply (columns.map (· row)),
            preserved gate mem columns accepts related
          intro row
          apply hasValue_gate_iff.mpr
          use gate, columns.map (· row), found
          exact ⟨List.forall₂_map_right_iff.mpr (each.imp fun _ _ both => both.2 row), rfl⟩

/-- What a circuit computes preserves the relations that its gates preserve. -/
theorem Computes.relation_apply (computes : circuit.Computes kind)
    (wellFormed : circuit.WellFormed)
    (preserved : ∀ gate ∈ circuit.gates, gate.kind.Preserves relation)
    {columns : List (ι → Bool)} (length_eq : columns.length = circuit.inputs.length)
    (related : ∀ column ∈ columns, relation column) :
    relation fun row => kind.apply (columns.map (· row)) := by
  rcases computes with ⟨-, name, evaluates⟩
  have nodup := wellFormed.inputs_nodup
  have lengths_eq (row : ι) : (columns.map (· row)).length = circuit.inputs.length := by
    rw [List.length_map, length_eq]
  have assigns (row : ι) := Row.assigns_assignBits nodup (lengths_eq row)
  have inputs : ∀ input ∈ circuit.inputs, relation fun row =>
      (Row.assignBits (columns.map (· row)) circuit.inputs).valuation input := fun input mem =>
    related _ (Row.valuation_mem_columns nodup length_eq mem)
  cases bound : circuit.output? name with
  | none =>
      have failed := evaluates _ (Row.assigns_assignment nodup 0)
      rw [evaluateOutput, bound] at failed
      cases failed
  | some node =>
      have before := wellFormed.outputs_bound _ (mem_of_lookup_eq_some bound)
      rcases before.exists_column wellFormed preserved assigns inputs with
        ⟨column, here, hasValue⟩
      have column_eq : column = fun row => kind.apply (columns.map (· row)) := by
        funext row
        have evaluated := evaluates _ (assigns row)
        rw [wellFormed.evaluateOutput_eq_ok (assigns row) bound ⟨before.contains, hasValue row⟩,
          Row.map_valuation_assignBits nodup (lengths_eq row)] at evaluated
        exact Except.ok.inj evaluated
      exact column_eq ▸ here

/-- Circuits of gates without negations and parities do not negate. -/
theorem Computes.ne_not (computes : circuit.Computes kind) (wellFormed : circuit.WellFormed)
    (preserved : ∀ gate ∈ circuit.gates, gate.kind.Preserves Increasing) : kind ≠ .not := by
  rintro rfl
  have length_eq : [fun value : Bool => value].length = circuit.inputs.length :=
    (beq_iff_eq.mp computes.1).symm
  have increasing := computes.relation_apply wellFormed preserved length_eq
    (by simp [Increasing])
  exact absurd (increasing rfl) (by decide)

/-- Circuits of negations and parities compute no conjunctions and no disjunctions. -/
theorem Computes.ne_and_or (computes : circuit.Computes kind) (wellFormed : circuit.WellFormed)
    (preserved : ∀ gate ∈ circuit.gates, gate.kind.Preserves Affine) :
    kind ≠ .and ∧ kind ≠ .or := by
  -- All inputs but two are given the value that makes no difference.
  have related : ∀ neutral : Bool, 2 ≤ circuit.inputs.length → Affine fun row =>
      kind.apply (row.1 :: row.2 :: List.replicate (circuit.inputs.length - 2) neutral) := by
    intro neutral two_le
    have length_eq : (Prod.fst :: Prod.snd :: List.replicate (circuit.inputs.length - 2)
        fun _ : Bool × Bool => neutral).length = circuit.inputs.length := by
      rw [List.length_cons, List.length_cons, List.length_replicate]
      omega
    have affine := computes.relation_apply wellFormed preserved length_eq (by simp [Affine])
    simpa using affine
  constructor
  · rintro rfl
    have affine := related true (by simpa [GateKind.accepts] using computes.1)
    simp only [GateKind.apply_and_cons, GateKind.apply_and_replicate] at affine
    cases affine
  · rintro rfl
    have affine := related false (by simpa [GateKind.accepts] using computes.1)
    simp only [GateKind.apply_or_cons, GateKind.apply_or_replicate] at affine
    cases affine

/-! ## Negation by a parity -/

/-- The circuit of the parity of an input and a constant. -/
def inverter (parity constant : GateKind) : Circuit where
  inputs := ["a"]
  gates := #[⟨⟨constant, 0⟩, []⟩, ⟨⟨parity, 1⟩, [.input "a", .gate ⟨constant, 0⟩]⟩]
  outputs := [("y", .gate ⟨parity, 1⟩)]

variable {parity constant : GateKind}

theorem assembled_inverter (inverts : parity.Inverts constant) :
    (inverter parity constant).Assembled := by
  use [.addInput "a", .addGate constant [], .addGate parity [.input "a", .gate ⟨constant, 0⟩],
    .setOutput "y" (.gate ⟨parity, 1⟩)]
  rcases inverts with ⟨rfl, rfl⟩ | ⟨rfl, rfl⟩ <;> rfl

/-- The parity of an input and the constant that changes it negates the input. -/
theorem computes_inverter (inverts : parity.Inverts constant) :
    (inverter parity constant).Computes .not := by
  apply And.intro rfl
  use "y"
  intro assignment assigns
  have input : (inverter parity constant).Carries assignment (.input "a")
      (assignment.valuation "a") :=
    ⟨rfl, .input (Assignment.value?_eq_some_valuation (assigns "a" (List.mem_singleton_self _)))⟩
  have constantFound : (inverter parity constant).gate? ⟨constant, 0⟩ =
      some ⟨⟨constant, 0⟩, []⟩ :=
    (gate?_eq_some_iff _).mpr ⟨rfl, rfl⟩
  have parityFound : (inverter parity constant).gate? ⟨parity, 1⟩ =
      some ⟨⟨parity, 1⟩, [.input "a", .gate ⟨constant, 0⟩]⟩ :=
    (gate?_eq_some_iff _).mpr ⟨rfl, rfl⟩
  have carries := AssemblyM.carries_gate parityFound
    (.cons input (.cons (AssemblyM.carries_gate constantFound .nil) .nil))
  rw [(assembled_inverter inverts).wellFormed.evaluateOutput_eq_ok assigns rfl carries]
  exact congrArg Except.ok (inverts.apply_eq _)

end Circuit

/-! ## What sets of gates realize -/

namespace GateSet

variable {gates : GateSet} {kind : GateKind}

/-- A set realizes a kind of gate if some circuit that can be obtained computes its
function with gates of the set, constants and `buf`. -/
def Realizes (gates : GateSet) (kind : GateKind) : Prop :=
  ∃ circuit : Circuit, circuit.Obtained ∧ (∀ gate ∈ circuit.gates, gates.Provides gate.kind) ∧
    circuit.Computes kind

/-- Where some kinds are missing, a set provides one of the others. -/
theorem Provides.mem_of_missing {missing others : List GateKind} (provided : gates.Provides kind)
    (absent : ∀ other ∈ missing, gates.contains other = false)
    (complete : kind ∈ missing ∨ kind ∈ others)
    (free : ∀ other ∈ [GateKind.buf, .vcc, .gnd], other ∈ others) : kind ∈ others := by
  rcases provided with enabled | isFree
  · rcases complete with isMissing | isOther
    · rw [absent kind isMissing] at enabled
      cases enabled
    · exact isOther
  · exact free kind isFree

theorem Provides.preserves_increasing (provided : gates.Provides kind)
    (absent : ∀ other ∈ [GateKind.not, .nand, .nor, .xor, .xnor], gates.contains other = false) :
    kind.Preserves Increasing := by
  apply GateKind.preserves_increasing
  exact provided.mem_of_missing absent (by cases kind <;> decide) (by decide)

theorem Provides.preserves_affine (provided : gates.Provides kind)
    (absent : ∀ other ∈ [GateKind.and, .nand, .nor, .or], gates.contains other = false) :
    kind.Preserves Affine := by
  apply GateKind.preserves_affine
  exact provided.mem_of_missing absent (by cases kind <;> decide) (by decide)

/-- With a parity and the constant that it needs, a set realizes negation. -/
theorem realizes_not_of_provides {parity constant : GateKind}
    (inverts : parity.Inverts constant) (parityProvided : gates.Provides parity)
    (constantProvided : gates.Provides constant) : gates.Realizes .not := by
  use Circuit.inverter parity constant, .assembled (Circuit.assembled_inverter inverts)
  apply And.intro _ (Circuit.computes_inverter inverts)
  intro gate mem
  simp only [Circuit.inverter, List.mem_toArray, List.mem_cons, List.not_mem_nil, or_false] at mem
  rcases mem with rfl | rfl
  · exact constantProvided
  · exact parityProvided

/-- A set does not realize what it has no decomposition for, except that a parity
realizes negation. -/
theorem Lacks.realizes_iff (lacks : gates.Lacks kind) :
    gates.Realizes kind ↔
      kind = .not ∧ (gates.contains .xor = true ∨ gates.contains .xnor = true) := by
  constructor
  · rintro ⟨circuit, obtained, provided, computes⟩
    have wellFormed := obtained.wellFormed
    cases lacks with
    | negation missing =>
        apply And.intro rfl
        by_contra noParity
        apply computes.ne_not wellFormed _ rfl
        intro gate mem
        exact (provided gate mem).preserves_increasing (by simp_all)
    | conjunction missing =>
        have excluded := computes.ne_and_or wellFormed fun gate mem =>
          (provided gate mem).preserves_affine missing
        exact absurd rfl excluded.1
    | disjunction missing =>
        have excluded := computes.ne_and_or wellFormed fun gate mem =>
          (provided gate mem).preserves_affine (by simp_all)
        exact absurd rfl excluded.2
  · rintro ⟨rfl, xor | xnor⟩
    · exact realizes_not_of_provides (.inl ⟨rfl, rfl⟩) (.inl xor) (.inr (by decide))
    · exact realizes_not_of_provides (.inr ⟨rfl, rfl⟩) (.inl xnor) (.inr (by decide))

end GateSet

namespace Circuit

variable {circuit : Circuit} {gates : GateSet} {kind : GateKind}

/-- The kind of gate that a mapping onto a set reports is not realized by the set, unless
it is `not` and the set has a parity. -/
theorem realizes_iff_of_toGateSet_eq_error (assembled : circuit.Assembled)
    (failed : circuit.toGateSet gates = .error (.unsynthesizable kind)) :
    gates.Realizes kind ↔
      kind = .not ∧ (gates.contains .xor = true ∨ gates.contains .xnor = true) := by
  rcases Pass.mayReport_of_run_eq_error assembled.wellFormed (.gateSet gates) failed with
    ⟨_, lacks, same⟩
  cases same
  exact lacks.realizes_iff

/-- The steps that make a disjunction. -/
def disjunctionSteps : List Assembly.Step :=
  [.addInput "a", .addInput "b", .addGate .or [.input "a", .input "b"],
    .setOutput "y" (.gate ⟨.or, 0⟩)]

theorem disjunction_not_realized :
    (Assembly.steps ∅ disjunctionSteps).circuit.toGateSet (.ofList [.xor]) =
        .error (.unsynthesizable .or) ∧
      ¬ (GateSet.ofList [.xor]).Realizes .or := by
  have failed : (Assembly.steps ∅ disjunctionSteps).circuit.toGateSet (.ofList [.xor]) =
      .error (.unsynthesizable .or) := by
    decide +kernel
  apply And.intro failed
  rw [realizes_iff_of_toGateSet_eq_error ⟨disjunctionSteps, rfl⟩ failed]
  rintro ⟨impossible, -⟩
  cases impossible

/-- The steps that make a negation. -/
def negationSteps : List Assembly.Step :=
  [.addInput "a", .addGate .not [.input "a"], .setOutput "y" (.gate ⟨.not, 0⟩)]

/-- Negation is reported, although the parity of an input and an enabled constant negates
the input. -/
theorem negation_reported_and_realized :
    (Assembly.steps ∅ negationSteps).circuit.Assembled ∧
      (Assembly.steps ∅ negationSteps).circuit.toGateSet (.ofList [.xor, .vcc]) =
        .error (.unsynthesizable .not) ∧
      (inverter .xor .vcc).Assembled ∧
      (∀ gate ∈ (inverter .xor .vcc).gates,
        (GateSet.ofList [.xor, .vcc]).contains gate.kind = true) ∧
      (inverter .xor .vcc).Computes .not ∧ (GateSet.ofList [.xor, .vcc]).Realizes .not := by
  have inverts : GateKind.xor.Inverts .vcc := .inl ⟨rfl, rfl⟩
  exact ⟨⟨negationSteps, rfl⟩, by decide +kernel, assembled_inverter inverts, by decide +kernel,
    computes_inverter inverts, GateSet.realizes_not_of_provides inverts (.inl rfl) (.inl rfl)⟩

end Circuit

end Switching
