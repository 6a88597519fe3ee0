import Switching.Circuit.Cone
import Switching.Proofs.Circuit.Invariants
import Switching.Proofs.Circuit.Passes

/-!
# What passes put into a circuit, and when they fail

A rule whose replacements keep to some kinds of gate makes circuits of these
kinds only.  The mappings onto universal gates fail exactly where some output
depends on a gate that they cannot express, the mappings onto gate sets only
for lack of enabled kinds, and the removal of double negations never.
-/

namespace Switching

/-! ## Kinds of gate -/

namespace Assembly

/-- All gates made so far are of allowed kinds. -/
def OfKinds (allowed : GateKind → Prop) (assembly : Assembly) : Prop :=
  ∀ gate ∈ assembly.circuit.gates, allowed gate.kind

end Assembly

namespace AssemblyM

variable {allowed : GateKind → Prop} {kind : GateKind}

theorem keeps_addGate (isAllowed : allowed kind) (operands : List Node) :
    Keeps (addGate kind operands) (Assembly.OfKinds allowed) := by
  intro start here
  apply (ensures_withGate kind operands start).imp
  rintro _ _ ⟨-, rfl⟩ gate mem
  rcases Array.mem_push.mp mem with earlier | rfl
  · exact here gate earlier
  · exact isAllowed

theorem keeps_share (isAllowed : allowed kind) (operands : List Node) :
    Keeps (share kind operands) (Assembly.OfKinds allowed) := by
  intro start here
  apply ensures_get
  dsimp only
  split
  · exact ensures_pure here
  · exact keeps_addGate isAllowed operands start here

theorem keeps_setOutput (allowed : GateKind → Prop) (name : String) (node : Node) :
    Keeps (setOutput name node) (Assembly.OfKinds allowed) :=
  fun start here => (ensures_withOutput name node start).imp fun _ _ same => same ▸ here

end AssemblyM

namespace SubstitutionRule

variable {rule : SubstitutionRule} {circuit result : Circuit} {allowed : GateKind → Prop}

/-- A rule that makes gates of allowed kinds gives a circuit of such gates. -/
theorem Keeps.kind_allowed (keeps : rule.Keeps circuit (Assembly.OfKinds allowed))
    (nodup : circuit.inputs.Nodup) (ran : rule.substitute circuit = .ok result) :
    ∀ gate ∈ result.gates, allowed gate.kind := by
  have starts : Assembly.OfKinds allowed (Assembly.addInputs ∅ circuit.inputs) := by
    rw [Assembly.addInputs_empty nodup]
    simp [Assembly.OfKinds, Assembly.ofInputs]
  rcases keeps.substitute (AssemblyM.keeps_setOutput allowed) starts ran with ⟨finished, rfl, holds⟩
  exact holds

end SubstitutionRule

namespace UniversalGate

variable {gate : UniversalGate} {allowed : GateKind → Prop}

/-- A universal gate is replaced by itself and by constants. -/
theorem keeps_replace (base : allowed gate.base)
    (constants : ∀ kind : GateKind, kind.isConstant = true → allowed kind) (kind : GateKind)
    (operands : List Node) :
    AssemblyM.Keeps (gate.replace kind operands) (Assembly.OfKinds allowed) := by
  have keepsTwice : ∀ node, AssemblyM.Keeps (AssemblyM.shareTwice gate.base node)
      (Assembly.OfKinds allowed) := fun _ => AssemblyM.keeps_share base _
  unfold replace
  split
  · rename_i direct
    apply AssemblyM.keeps_share
    rcases direct with rfl | constant
    · exact base
    · exact constants kind constant
  split
  · split
    · exact keepsTwice _
    · exact AssemblyM.keeps_throw _
  split
  · exact (AssemblyM.keeps_share base operands).bind keepsTwice
  split
  · exact (AssemblyM.keeps_mapM keepsTwice operands).bind (AssemblyM.keeps_share base)
  · exact AssemblyM.keeps_throw _

end UniversalGate

namespace GateSet

variable {gates : GateSet}

/-- The kinds that a mapping onto a gate set uses. -/
def Provides (gates : GateSet) (kind : GateKind) : Prop :=
  gates.contains kind = true ∨ kind ∈ [GateKind.buf, .vcc, .gnd]

/-- An action makes gates that a gate set provides. -/
abbrev KeepsTo (gates : GateSet) {α : Type} (action : AssemblyM α) : Prop :=
  AssemblyM.Keeps action (Assembly.OfKinds gates.Provides)

theorem keepsTo_share {kind : GateKind} (enabled : gates.contains kind = true)
    (operands : List Node) : gates.KeepsTo (AssemblyM.share kind operands) :=
  AssemblyM.keeps_share (.inl enabled) operands

theorem keepsTo_shareOr (kind : GateKind) (operands : List Node) {decompose : AssemblyM Node}
    (otherwise : gates.KeepsTo decompose) :
    gates.KeepsTo (gates.shareOr kind operands decompose) := by
  unfold shareOr
  split
  · rename_i enabled
    exact keepsTo_share enabled operands
  · exact otherwise

theorem keepsTo_makeNot (operands : List Node) : gates.KeepsTo (gates.makeNot operands) := by
  apply keepsTo_shareOr
  split
  · split
    · rename_i enabled
      exact keepsTo_share enabled _
    split
    · rename_i enabled
      exact keepsTo_share enabled _
    · exact AssemblyM.keeps_throw _
  · exact AssemblyM.keeps_throw _

theorem keepsTo_negate (node : Node) : gates.KeepsTo (gates.negate node) :=
  keepsTo_makeNot [node]

theorem keepsTo_negateAll (nodes : List Node) : gates.KeepsTo (gates.negateAll nodes) :=
  AssemblyM.keeps_mapM keepsTo_negate nodes

/-- A gate over negations. -/
theorem keepsTo_share_negateAll {kind : GateKind} (enabled : gates.contains kind = true)
    (operands : List Node) :
    gates.KeepsTo (do AssemblyM.share kind (← gates.negateAll operands)) :=
  (keepsTo_negateAll operands).bind (keepsTo_share enabled)

/-- The negation of what an action makes. -/
theorem keepsTo_negated {action : AssemblyM Node} (keeps : gates.KeepsTo action) :
    gates.KeepsTo (do gates.negate (← action)) :=
  keeps.bind keepsTo_negate

theorem keepsTo_makeAnd (operands : List Node) : gates.KeepsTo (gates.makeAnd operands) := by
  apply keepsTo_shareOr
  split
  · rename_i enabled
    exact keepsTo_negated (keepsTo_share enabled operands)
  split
  · rename_i enabled
    exact keepsTo_share_negateAll enabled operands
  split
  · rename_i enabled
    rw [← bind_assoc]
    exact keepsTo_negated (keepsTo_share_negateAll enabled operands)
  · exact AssemblyM.keeps_throw _

theorem keepsTo_makeOr (operands : List Node) : gates.KeepsTo (gates.makeOr operands) := by
  apply keepsTo_shareOr
  split
  · rename_i enabled
    exact keepsTo_share_negateAll enabled operands
  split
  · rename_i enabled
    exact keepsTo_negated (keepsTo_share enabled operands)
  split
  · rename_i enabled
    rw [← bind_assoc]
    exact keepsTo_negated (keepsTo_share_negateAll enabled operands)
  · exact AssemblyM.keeps_throw _

theorem keepsTo_makeXorPair (left right : Node) :
    gates.KeepsTo (gates.makeXorPair left right) :=
  (keepsTo_negate left).bind fun notLeft => (keepsTo_negate right).bind fun notRight =>
    (keepsTo_makeAnd [left, notRight]).bind fun leftOnly =>
      (keepsTo_makeAnd [notLeft, right]).bind fun rightOnly =>
        keepsTo_makeOr [leftOnly, rightOnly]

theorem keepsTo_makeXor (operands : List Node) : gates.KeepsTo (gates.makeXor operands) := by
  apply keepsTo_shareOr
  split
  · rename_i enabled
    exact keepsTo_negated (keepsTo_share enabled operands)
  split
  · exact AssemblyM.keeps_throw _
  · exact AssemblyM.keeps_foldlM keepsTo_makeXorPair _ _

/-- The replacement of a gate uses the kinds that the set provides. -/
theorem keepsTo_replace (kind : GateKind) (operands : List Node) :
    gates.KeepsTo (gates.replace kind operands) := by
  cases kind with
  | not => exact keepsTo_makeNot operands
  | and => exact keepsTo_makeAnd operands
  | or => exact keepsTo_makeOr operands
  | xor => exact keepsTo_makeXor operands
  | nand => exact keepsTo_shareOr .nand operands (keepsTo_negated (keepsTo_makeAnd operands))
  | nor => exact keepsTo_shareOr .nor operands (keepsTo_negated (keepsTo_makeOr operands))
  | xnor => exact keepsTo_shareOr .xnor operands (keepsTo_negated (keepsTo_makeXor operands))
  | buf | vcc | gnd => exact AssemblyM.keeps_share (.inr (by decide)) operands

end GateSet

/-! ## Cones -/

namespace Circuit

variable {circuit : Circuit}

theorem inCone_input_iff {name : String} {other : Node} :
    circuit.InCone (.input name) other ↔ other = .input name := by
  constructor
  · intro inside
    induction inside with
    | self => rfl
    | operand _ _ _ ih => cases ih
  · rintro rfl
    exact .self

/-- The cone of a gate holds the gate and the cones of its operands. -/
theorem InCone.of_gate {id : GateId} {gate : Gate} (found : circuit.gate? id = some gate)
    {other : Node} (inside : circuit.InCone (.gate id) other) :
    other = .gate id ∨ ∃ operand ∈ gate.operands, circuit.InCone operand other := by
  induction inside with
  | self => exact .inl rfl
  | @operand innerId inner node _ innerFound mem ih =>
      rcases ih with same | ⟨operand, operandMem, below⟩
      · cases same
        cases found.symm.trans innerFound
        exact .inr ⟨node, mem, .self⟩
      · exact .inr ⟨operand, operandMem, below.operand innerFound mem⟩

theorem operandClosed_reachable : circuit.OperandClosed circuit.Reachable := by
  rintro id gate found ⟨output, outputMem, inside⟩ node mem
  exact ⟨output, outputMem, inside.operand found mem⟩

theorem reachableGate_of_gate? {id : GateId} {gate : Gate} (found : circuit.gate? id = some gate)
    (reachable : circuit.Reachable (.gate id)) : circuit.ReachableGate gate := by
  rcases circuit.gate?_eq_some_iff.mp found with ⟨at_position, rfl⟩
  exact ⟨Array.mem_of_getElem? at_position, reachable⟩

/-- All gates on which a node depends have a property. -/
def ConeHas (circuit : Circuit) (property : Gate → Prop) (node : Node) : Prop :=
  ∀ (id : GateId) (gate : Gate), circuit.gate? id = some gate →
    circuit.InCone node (.gate id) → property gate

theorem coneHas_input (property : Gate → Prop) (name : String) :
    circuit.ConeHas property (.input name) := by
  intro id gate _ inside
  cases inCone_input_iff.mp inside

theorem coneHas_gate {property : Gate → Prop} {id : GateId} {gate : Gate}
    (found : circuit.gate? id = some gate) (here : property gate)
    (operands : ∀ operand ∈ gate.operands, circuit.ConeHas property operand) :
    circuit.ConeHas property (.gate id) := by
  intro innerId inner innerFound inside
  rcases inside.of_gate found with same | ⟨operand, mem, below⟩
  · cases same
    cases found.symm.trans innerFound
    exact here
  · exact operands operand mem innerId inner innerFound below

end Circuit

/-! ## Gates that a universal gate cannot express -/

namespace UniversalGate

variable {gate : UniversalGate} {circuit : Circuit}

theorem replace_eq_throw {kind : GateKind} (missing : ¬ gate.Expresses kind)
    (operands : List Node) :
    gate.replace kind operands = throw (.unsupported gate.mapping kind) := by
  simp only [Expresses, not_or] at missing
  simp [replace, missing]

/-- A gate on which some output depends and which the universal gate cannot
express is reported. -/
def Reports (gate : UniversalGate) (circuit : Circuit) (error : SynthesisError) : Prop :=
  ∃ found, circuit.ReachableGate found ∧ ¬ gate.Expresses found.kind ∧
    error = .unsupported gate.mapping found.kind

/-- A node of the current circuit that takes the place of a node of which the
universal gate can express the whole cone. -/
def Stands (gate : UniversalGate) (circuit current : Circuit) (node result : Node) : Prop :=
  current.contains result = true ∧ circuit.ConeHas (fun found => gate.Expresses found.kind) node

/-- The replacement of a gate that can be expressed succeeds. -/
theorem Lawful.ensures_replace (lawful : gate.Lawful) {kind : GateKind}
    (expressed : gate.Expresses kind) {start : Assembly} (wellFormed : start.WellFormed)
    {operands : List Node} (accepts : kind.accepts operands.length = true)
    (contained : ∀ node ∈ operands, start.circuit.contains node = true)
    (fault : SynthesisError → Prop) :
    AssemblyM.Ensures (gate.replace kind operands) start fault fun result next =>
      start.Grows next ∧ next.circuit.contains result = true := by
  have assigns := Row.assigns_assignment wellFormed.circuit.inputs_nodup 0
  rcases exists_forall₂ fun node mem =>
    wellFormed.circuit.exists_carries assigns (contained node mem) with ⟨values, carry⟩
  exact (lawful.yields_replace wellFormed (.inl expressed) accepts carry).imp
    fun _ _ made => ⟨made.1, made.2.1⟩

/-- The mapping onto a universal gate walks over whole cones that can be
expressed, unless it reports a gate. -/
theorem Lawful.respects (lawful : gate.Lawful) (wellFormed : circuit.WellFormed) :
    gate.rule.Respects circuit circuit.Reachable (gate.Reports circuit) (gate.Stands circuit) where
  contained stands := stands.1
  stays extension stands := ⟨extension.contains stands.1, stands.2⟩
  input declared := ⟨List.contains_iff_mem.mpr declared, Circuit.coneHas_input _ _⟩
  operands found reachable _ := Circuit.operandClosed_reachable _ _ found reachable
  bypass _ _ passes := nomatch passes
  replace {id found results start} isGate reachable _ startWellFormed stand := by
    have operandsStand : ∀ operand ∈ found.operands,
        circuit.ConeHas (fun found => gate.Expresses found.kind) operand := by
      intro operand mem
      rcases exists_mem_of_forall₂ stand.flip mem with ⟨_, _, stands⟩
      exact stands.2
    have contained : ∀ result ∈ results, start.circuit.contains result = true := by
      intro result mem
      rcases exists_mem_of_forall₂ stand mem with ⟨_, _, stands⟩
      exact stands.1
    have accepts : found.kind.accepts results.length = true :=
      stand.length_eq ▸ wellFormed.accepts_of_gate? isGate
    -- A gate that cannot be expressed is reachable, as only such nodes are visited.
    by_cases expressed : gate.Expresses found.kind
    · exact (lawful.ensures_replace expressed startWellFormed accepts contained _).imp
        fun _ _ made => ⟨made.1, made.2, Circuit.coneHas_gate isGate expressed operandsStand⟩
    · change AssemblyM.Ensures (gate.replace found.kind results) start _ _
      rw [replace_eq_throw expressed]
      exact AssemblyM.ensures_throw
        ⟨found, Circuit.reachableGate_of_gate? isGate reachable, expressed, rfl⟩

/-- A circuit is mapped onto a universal gate if all its reachable gates can be
expressed; otherwise one of the others is reported. -/
theorem Lawful.substitute_cases (lawful : gate.Lawful) (wellFormed : circuit.WellFormed) :
    (∃ result, gate.rule.substitute circuit = .ok result ∧
      ∀ found, circuit.ReachableGate found → gate.Expresses found.kind) ∨
    ∃ error, gate.rule.substitute circuit = .error error ∧ gate.Reports circuit error := by
  have reachable : ∀ output ∈ circuit.outputs, circuit.Reachable output.2 :=
    fun output mem => ⟨output, mem, .self⟩
  rcases (lawful.respects wellFormed).substitute_cases wellFormed reachable with
    ⟨result, ran, -, replaces⟩ | failed
  · apply Or.inl
    constructor
    constructor
    · exact ran
    · rintro found ⟨mem, output, outputMem, inside⟩
      rcases Array.mem_iff_getElem?.mp mem with ⟨position, at_position⟩
      rcases exists_mem_of_forall₂ replaces.outputs.flip outputMem with ⟨_, _, -, stands⟩
      exact stands.2 found.id found (wellFormed.gate?_id at_position) inside
  · exact .inr failed

theorem Lawful.exists_substitute_iff (lawful : gate.Lawful) (wellFormed : circuit.WellFormed) :
    (∃ result, gate.rule.substitute circuit = .ok result) ↔
      ∀ found, circuit.ReachableGate found → gate.Expresses found.kind := by
  rcases lawful.substitute_cases wellFormed with
    ⟨result, ran, expressed⟩ | ⟨error, failed, found, reachable, missing, -⟩
  · exact ⟨fun _ => expressed, fun _ => ⟨result, ran⟩⟩
  · constructor
    · rintro ⟨result, ran⟩
      rw [failed] at ran
      cases ran
    · intro expressed
      exact absurd (expressed found reachable) missing

theorem Lawful.reports_of_eq_error (lawful : gate.Lawful) (wellFormed : circuit.WellFormed)
    {error : SynthesisError} (failed : gate.rule.substitute circuit = .error error) :
    gate.Reports circuit error := by
  rcases lawful.substitute_cases wellFormed with ⟨_, ran, -⟩ | ⟨other, failedToo, reports⟩
  · rw [failed] at ran
    cases ran
  · cases failed.symm.trans failedToo
    exact reports

theorem nand_expresses_iff {kind : GateKind} :
    nand.Expresses kind ↔ kind ∉ [GateKind.nor, .xor, .xnor, .buf] := by
  cases kind <;> simp [Expresses, nand, GateKind.isConstant]

theorem nor_expresses_iff {kind : GateKind} :
    nor.Expresses kind ↔ kind ∉ [GateKind.nand, .xor, .xnor, .buf] := by
  cases kind <;> simp [Expresses, nor, GateKind.isConstant]

end UniversalGate

/-! ## Gate sets that make every gate -/

namespace GateSet

variable {gates : GateSet}

/-- The kinds of gate for which a set has no decomposition. -/
inductive Lacks (gates : GateSet) : GateKind → Prop
  | negation (missing : ∀ kind ∈ [GateKind.not, .nand, .nor], gates.contains kind = false) :
      Lacks gates .not
  | conjunction
      (missing : ∀ kind ∈ [GateKind.and, .nand, .nor, .or], gates.contains kind = false) :
      Lacks gates .and
  | disjunction
      (missing : ∀ kind ∈ [GateKind.or, .nand, .nor, .and], gates.contains kind = false) :
      Lacks gates .or

/-- What a mapping onto a set of gates may report. -/
def Reports (gates : GateSet) (error : SynthesisError) : Prop :=
  ∃ kind, gates.Lacks kind ∧ error = .unsynthesizable kind

/-- The sets from which every gate can be made. -/
def Suffices (gates : GateSet) : Prop :=
  gates.contains .nand = true ∨ gates.contains .nor = true ∨
    gates.contains .not = true ∧ (gates.contains .and = true ∨ gates.contains .or = true)

theorem covers_reports (gates : GateSet) : gates.Covers gates.Reports where
  negation := by
    apply or_iff_not_imp_left.mpr
    intro missing
    exact ⟨.not, .negation (by simpa using missing), rfl⟩
  conjunction := by
    apply or_iff_not_imp_left.mpr
    intro missing
    exact ⟨.and, .conjunction (by simpa using missing), rfl⟩
  disjunction := by
    apply or_iff_not_imp_left.mpr
    intro missing
    exact ⟨.or, .disjunction (by simpa using missing), rfl⟩

theorem Suffices.covers (enough : gates.Suffices) : gates.Covers fun _ => False := by
  rcases enough with nand | nor | ⟨not, and | or⟩
  · exact ⟨.inl (.inr (.inl nand)), .inl (.inr (.inl nand)), .inl (.inr (.inl nand))⟩
  · exact ⟨.inl (.inr (.inr nor)), .inl (.inr (.inr (.inl nor))), .inl (.inr (.inr (.inl nor)))⟩
  · exact ⟨.inl (.inl not), .inl (.inl and), .inl (.inr (.inr (.inr and)))⟩
  · exact ⟨.inl (.inl not), .inl (.inr (.inr (.inr or))), .inl (.inl or)⟩

end GateSet

/-! ## Outcomes of passes -/

namespace Pass

variable {circuit result : Circuit}

/-- The kinds of gate that a pass over a circuit may make. -/
def Emits (circuit : Circuit) : Pass → GateKind → Prop
  | .nand, kind => kind ∈ [GateKind.nand, .vcc, .gnd]
  | .nor, kind => kind ∈ [GateKind.nor, .vcc, .gnd]
  | .gateSet gates, kind => gates.Provides kind
  | .negations, kind => ∃ gate ∈ circuit.gates, gate.kind = kind

/-- The errors that a pass over a circuit may report. -/
def MayReport (circuit : Circuit) : Pass → SynthesisError → Prop
  | .nand, error => UniversalGate.nand.Reports circuit error
  | .nor, error => UniversalGate.nor.Reports circuit error
  | .gateSet gates, error => gates.Reports error
  | .negations, _ => False

/-- The replacements of a pass make gates of its kinds. -/
theorem keeps_rule (circuit : Circuit) (pass : Pass) :
    pass.rule.Keeps circuit (Assembly.OfKinds (pass.Emits circuit)) := by
  intro gate mem operands
  have constants : ∀ (base kind : GateKind), kind.isConstant = true →
      kind ∈ [base, .vcc, .gnd] := by
    intro base kind constant
    cases kind <;> simp [GateKind.isConstant] at constant ⊢
  cases pass with
  | nand => exact UniversalGate.keeps_replace (by decide) (constants _) gate.kind operands
  | nor => exact UniversalGate.keeps_replace (by decide) (constants _) gate.kind operands
  | gateSet gates => exact GateSet.keepsTo_replace gate.kind operands
  | negations => exact AssemblyM.keeps_share ⟨gate, mem, rfl⟩ operands

theorem emits_of_run_eq_ok (wellFormed : circuit.WellFormed) (pass : Pass)
    (ran : pass.run circuit = .ok result) : ∀ gate ∈ result.gates, pass.Emits circuit gate.kind := by
  rw [run_eq_substitute] at ran
  exact (pass.keeps_rule circuit).kind_allowed wellFormed.inputs_nodup ran

/-- Onto a sufficient set, and along double negations, every gate is
replaced. -/
theorem exists_run (wellFormed : circuit.WellFormed) :
    (∃ result, negations.run circuit = .ok result) ∧
      ∀ gates : GateSet, gates.Suffices → ∃ result, (gateSet gates).run circuit = .ok result := by
  constructor
  · rcases Circuit.exists_collapseNegations wellFormed with ⟨result, ran, -⟩
    exact ⟨result, ran⟩
  · intro gates enough
    have sound := enough.covers.sound circuit.operandClosed_true
    rcases sound.exists_substitute wellFormed with ⟨result, ran, -⟩
    exact ⟨result, ran⟩

theorem mayReport_of_run_eq_error (wellFormed : circuit.WellFormed) (pass : Pass)
    {error : SynthesisError} (failed : pass.run circuit = .error error) :
    pass.MayReport circuit error := by
  cases pass with
  | nand => exact UniversalGate.lawful_nand.reports_of_eq_error wellFormed failed
  | nor => exact UniversalGate.lawful_nor.reports_of_eq_error wellFormed failed
  | gateSet gates =>
      have sound := gates.covers_reports.sound circuit.operandClosed_true
      rw [run_eq_substitute] at failed
      rcases sound.substitute_cases wellFormed fun _ _ => trivial with
        ⟨_, ran, -⟩ | ⟨other, failedToo, reports⟩
      · cases failed.symm.trans ran
      · cases failed.symm.trans failedToo
        exact reports
  | negations =>
      rcases (exists_run wellFormed).1 with ⟨_, ran⟩
      cases failed.symm.trans ran

/-- Over a constructed circuit the mappings onto `nand` and `nor` succeed
exactly if no output depends on a gate that they cannot express.  Double
negations can always be removed, and the mapping onto a sufficient set always
succeeds.  The gates of a result are of the kinds of the library, or of kinds
that the circuit has already; an error reports a gate that cannot be
expressed. -/
theorem outcome (assembled : circuit.Assembled) :
    ((∃ result, circuit.toNand = .ok result) ↔
        ∀ gate, circuit.ReachableGate gate → gate.kind ∉ [GateKind.nor, .xor, .xnor, .buf]) ∧
      ((∃ result, circuit.toNor = .ok result) ↔
        ∀ gate, circuit.ReachableGate gate → gate.kind ∉ [GateKind.nand, .xor, .xnor, .buf]) ∧
      (∃ result, circuit.collapseNegations = .ok result) ∧
      (∀ gates : GateSet, gates.Suffices → ∃ result, circuit.toGateSet gates = .ok result) ∧
      (∀ (pass : Pass) (result : Circuit), pass.run circuit = .ok result →
        ∀ gate ∈ result.gates, pass.Emits circuit gate.kind) ∧
      ∀ (pass : Pass) (error : SynthesisError), pass.run circuit = .error error →
        pass.MayReport circuit error := by
  have wellFormed := assembled.wellFormed
  have succeeds := exists_run wellFormed
  simp only [← UniversalGate.nand_expresses_iff, ← UniversalGate.nor_expresses_iff]
  exact ⟨UniversalGate.lawful_nand.exists_substitute_iff wellFormed,
    UniversalGate.lawful_nor.exists_substitute_iff wellFormed, succeeds.1, succeeds.2,
    fun pass _ => emits_of_run_eq_ok wellFormed pass,
    fun pass _ => mayReport_of_run_eq_error wellFormed pass⟩

theorem parity_outcome :
    (¬ ∃ result, (Assembly.steps ∅ paritySteps).circuit.toNand = .ok result) ∧
      ∃ result, (Assembly.steps ∅ paritySteps).circuit.toGateSet (.ofList [.not, .or]) =
          .ok result ∧
        ∀ gate ∈ result.gates, gate.kind ∈ [GateKind.not, .or, .buf, .vcc, .gnd] := by
  have assembled : (Assembly.steps ∅ paritySteps).circuit.Assembled := ⟨paritySteps, rfl⟩
  rcases outcome assembled with ⟨nandIff, -, -, sufficient, emitted, -⟩
  constructor
  · intro succeeds
    -- The output `odd` is the negation of the gate with three operands.
    have reachable : (Assembly.steps ∅ paritySteps).circuit.Reachable (.gate ⟨.xnor, 0⟩) :=
      ⟨("odd", .gate ⟨.not, 1⟩), by decide,
        .operand .self (by decide : _ = some ⟨⟨.not, 1⟩, [.gate ⟨.xnor, 0⟩]⟩) (by decide)⟩
    have found : (Assembly.steps ∅ paritySteps).circuit.gate? ⟨.xnor, 0⟩ =
        some ⟨⟨.xnor, 0⟩, [.input "a", .input "b", .input "c"]⟩ := by decide
    have parity := Circuit.reachableGate_of_gate? found reachable
    exact nandIff.mp succeeds _ parity (by decide)
  · have enough : (GateSet.ofList [.not, .or]).Suffices :=
      .inr (.inr ⟨by decide, .inr (by decide)⟩)
    rcases sufficient _ enough with ⟨result, ran⟩
    have provided : ∀ kind, (GateSet.ofList [.not, .or]).Provides kind →
        kind ∈ [GateKind.not, .or, .buf, .vcc, .gnd] := by
      intro kind
      cases kind <;> simp [GateSet.Provides, GateSet.ofList]
    exact ⟨result, ran, fun gate mem => provided _ (emitted (.gateSet _) result ran gate mem)⟩

end Pass

end Switching
