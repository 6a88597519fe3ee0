import Switching.Circuit.DoubleNegation
import Switching.Circuit.Mapping
import Switching.Proofs.Circuit.Substitution

/-!
# Gate mappings are sound

Every decomposition of a gate computes the function of the gate, so mapping a
circuit onto a library keeps the values of its outputs.  The same holds for
passing over double negations.  The only errors are those for gates that a
library cannot express.
-/

namespace Switching

/-! ## Functions of gates -/

namespace GateKind

private theorem countP_map_not (values : List Bool) :
    (values.map (!·)).countP id + values.countP id = values.length := by
  induction values with
  | nil => rfl
  | cons value rest ih => cases value <;> simp at ih ⊢ <;> omega

theorem apply_and_map_not (values : List Bool) :
    GateKind.and.apply (values.map (!·)) = GateKind.nor.apply values := by
  have := countP_map_not values
  rw [Bool.eq_iff_iff]
  simp only [apply, List.length_map, beq_iff_eq]
  omega

theorem apply_or_map_not (values : List Bool) :
    GateKind.or.apply (values.map (!·)) = GateKind.nand.apply values := by
  have := countP_map_not values
  rw [Bool.eq_iff_iff]
  simp only [apply, decide_eq_true_eq, bne_iff_ne]
  omega

theorem apply_and_cons (value : Bool) (values : List Bool) :
    GateKind.and.apply (value :: values) = (value && GateKind.and.apply values) := by
  have le : values.countP id ≤ values.length := List.countP_le_length
  rw [Bool.eq_iff_iff]
  cases value <;> simp [apply]
  omega

theorem apply_or_cons (value : Bool) (values : List Bool) :
    GateKind.or.apply (value :: values) = (value || GateKind.or.apply values) := by
  cases value <;> simp [apply]

theorem apply_xor_cons (value : Bool) (values : List Bool) :
    GateKind.xor.apply (value :: values) = (value != GateKind.xor.apply values) := by
  rw [Bool.eq_iff_iff]
  cases value <;> simp [apply]
  omega

/-- A gate of kind `xor` folds its operands from the left. -/
theorem apply_xor_eq_foldl (first : Bool) (rest : List Bool) :
    GateKind.xor.apply (first :: rest) = rest.foldl (· != ·) first := by
  induction rest generalizing first with
  | nil => cases first <;> rfl
  | cons second rest ih =>
      rw [List.foldl_cons, ← ih, apply_xor_cons, apply_xor_cons, apply_xor_cons]
      cases first <;> cases second <;> cases GateKind.xor.apply rest <;> rfl

/-- The kinds that negate a node that they take any number of times. -/
def negates : GateKind → Bool
  | .not | .nand | .nor => true
  | _ => false

theorem apply_replicate {kind : GateKind} (negates : kind.negates = true) (count : Nat)
    (value : Bool) : kind.apply (List.replicate (count + 1) value) = !value := by
  cases kind <;> cases negates <;> cases value <;> simp [apply, List.countP_replicate]

@[simp]
theorem apply_nand_twice (value : Bool) : GateKind.nand.apply [value, value] = !value :=
  apply_replicate rfl 1 value

@[simp]
theorem apply_nor_twice (value : Bool) : GateKind.nor.apply [value, value] = !value :=
  apply_replicate rfl 1 value

end GateKind

namespace Circuit

/-- A set of nodes that contains the operands of its gates. -/
def OperandClosed (circuit : Circuit) (relevant : Node → Prop) : Prop :=
  ∀ (id : GateId) (gate : Gate), circuit.gate? id = some gate → relevant (.gate id) →
    ∀ node ∈ gate.operands, relevant node

theorem operandClosed_true (circuit : Circuit) : circuit.OperandClosed fun _ => True :=
  fun _ _ _ _ _ _ => trivial

end Circuit

/-! ## Universal gates -/

section

variable {start : Assembly} {fault : SynthesisError → Prop} {assignment : Assignment}
  {kind : GateKind} {operands : List Node} {values : List Bool}

/-- A gate that takes a node twice negates it. -/
theorem AssemblyM.yields_shareTwice (wellFormed : start.WellFormed)
    (accepts : kind.accepts 2 = true) {node : Node} {value : Bool}
    (carries : start.circuit.Carries assignment node value) :
    Yields (shareTwice kind node) start fault assignment (kind.apply [value, value]) :=
  yields_share wellFormed accepts (.cons carries (.cons carries .nil))

namespace UniversalGate

/-- The laws that let a gate express negation, conjunction and disjunction. -/
structure Lawful (gate : UniversalGate) : Prop where
  base_accepts : ∀ arity, gate.base.accepts arity = true ↔ 2 ≤ arity
  negated_accepts : ∀ arity, gate.negated.accepts arity = true ↔ 2 ≤ arity
  dual_accepts : ∀ arity, gate.dual.accepts arity = true ↔ 2 ≤ arity
  apply_twice : ∀ value, gate.base.apply [value, value] = !value
  apply_base : ∀ values, gate.base.apply values = !gate.negated.apply values
  apply_dual : ∀ values, gate.dual.apply values = gate.base.apply (values.map (!·))

theorem lawful_nand : nand.Lawful where
  base_accepts := by simp [nand, GateKind.accepts]
  negated_accepts := by simp [nand, GateKind.accepts]
  dual_accepts := by simp [nand, GateKind.accepts]
  apply_twice := GateKind.apply_nand_twice
  apply_base values := (GateKind.apply_negated values).1
  apply_dual values := by
    change GateKind.or.apply values = GateKind.nand.apply (values.map (!·))
    rw [← GateKind.apply_or_map_not, List.map_map]
    simp [Function.comp_def]

theorem lawful_nor : nor.Lawful where
  base_accepts := by simp [nor, GateKind.accepts]
  negated_accepts := by simp [nor, GateKind.accepts]
  dual_accepts := by simp [nor, GateKind.accepts]
  apply_twice := GateKind.apply_nor_twice
  apply_base values := (GateKind.apply_negated values).2.1
  apply_dual values := by
    change GateKind.and.apply values = GateKind.nor.apply (values.map (!·))
    rw [← GateKind.apply_and_map_not, List.map_map]
    simp [Function.comp_def]

/-- The kinds that a universal gate replaces. -/
def Expresses (gate : UniversalGate) (kind : GateKind) : Prop :=
  kind = gate.base ∨ kind.isConstant = true ∨ kind = .not ∨ kind = gate.negated ∨
    kind = gate.dual

variable {gate : UniversalGate}

theorem Lawful.yields_negation (lawful : gate.Lawful) (wellFormed : start.WellFormed)
    {node : Node} {value : Bool} (carries : start.circuit.Carries assignment node value) :
    AssemblyM.Yields (AssemblyM.shareTwice gate.base node) start fault assignment (!value) := by
  rw [← lawful.apply_twice]
  exact AssemblyM.yields_shareTwice wellFormed
    ((lawful.base_accepts 2).mpr (Nat.le_refl 2)) carries

/-- The replacement of a gate computes its function, or else the gate is
reported as unsupported. -/
theorem Lawful.yields_replace (lawful : gate.Lawful) (wellFormed : start.WellFormed)
    (handled : gate.Expresses kind ∨ fault (.unsupported gate.mapping kind))
    (accepts : kind.accepts operands.length = true)
    (carry : List.Forall₂ (start.circuit.Carries assignment) operands values) :
    AssemblyM.Yields (gate.replace kind operands) start fault assignment (kind.apply values) := by
  unfold replace
  split
  · exact AssemblyM.yields_share wellFormed accepts carry
  rename_i notDirect
  split
  · subst kind
    obtain ⟨node, rfl⟩ := List.length_eq_one_iff.mp (beq_iff_eq.mp accepts)
    obtain _ | ⟨carries, _ | _⟩ := carry
    rw [GateKind.apply_not]
    exact lawful.yields_negation wellFormed carries
  rename_i notNot
  split
  · subst kind
    have two_le := (lawful.negated_accepts _).mp accepts
    rw [← Bool.not_not (gate.negated.apply values), ← lawful.apply_base]
    exact (AssemblyM.yields_share wellFormed ((lawful.base_accepts _).mpr two_le) carry).bind
      fun _ _ grown carries => lawful.yields_negation grown.wellFormed carries
  rename_i notNegated
  split
  · subst kind
    have two_le := (lawful.dual_accepts _).mp accepts
    rw [lawful.apply_dual]
    refine AssemblyM.Ensures.bind (AssemblyM.yields_mapM wellFormed carry
      fun _ _ _ grown carries => lawful.yields_negation grown.wellFormed carries)
      fun nodes next ⟨grown, carryNegations⟩ => ?_
    have length_eq : nodes.length = operands.length := by
      rw [carryNegations.length_eq, List.length_map, carry.length_eq]
    exact (AssemblyM.yields_share grown.wellFormed
      ((lawful.base_accepts _).mpr (length_eq ▸ two_le)) carryNegations).after grown
  · rename_i notDual
    refine AssemblyM.ensures_throw (handled.resolve_left ?_)
    rintro (base | constant | isNot | negated | dual)
    · exact notDirect (.inl base)
    · exact notDirect (.inr constant)
    · exact notNot isNot
    · exact notNegated negated
    · exact notDual dual

/-- Mapping onto a lawful universal gate is sound. -/
theorem Lawful.sound (lawful : gate.Lawful) {circuit : Circuit} {relevant : Node → Prop}
    (closed : circuit.OperandClosed relevant)
    (handled : ∀ (id : GateId) (found : Gate), circuit.gate? id = some found →
      relevant (.gate id) →
      gate.Expresses found.kind ∨ fault (.unsupported gate.mapping found.kind)) :
    gate.rule.Sound circuit relevant fault where
  operands found relevantGate := closed _ _ found relevantGate
  bypass _ _ passes := nomatch passes
  replace found relevantGate wellFormed accepts carry :=
    lawful.yields_replace wellFormed (handled _ _ found relevantGate) accepts carry

end UniversalGate

/-! ## Gate sets -/

namespace GateSet

/-- What a gate set cannot make is allowed to be reported. -/
structure Covers (gates : GateSet) (fault : SynthesisError → Prop) : Prop where
  negation : (gates.contains .not = true ∨ gates.contains .nand = true ∨
    gates.contains .nor = true) ∨ fault (.unsynthesizable .not)
  conjunction : (gates.contains .and = true ∨ gates.contains .nand = true ∨
    gates.contains .nor = true ∨ gates.contains .or = true) ∨ fault (.unsynthesizable .and)
  disjunction : (gates.contains .or = true ∨ gates.contains .nand = true ∨
    gates.contains .nor = true ∨ gates.contains .and = true) ∨ fault (.unsynthesizable .or)

variable {gates : GateSet}

/-- A gate that is enabled is made; otherwise the decomposition counts. -/
theorem yields_shareOr (wellFormed : start.WellFormed)
    (accepts : kind.accepts operands.length = true)
    (carry : List.Forall₂ (start.circuit.Carries assignment) operands values)
    {decompose : AssemblyM Node} (otherwise : gates.contains kind ≠ true →
      AssemblyM.Yields decompose start fault assignment (kind.apply values)) :
    AssemblyM.Yields (gates.shareOr kind operands decompose) start fault assignment
      (kind.apply values) := by
  unfold shareOr
  split
  · exact AssemblyM.yields_share wellFormed accepts carry
  · rename_i missing
    exact otherwise missing

theorem Covers.yields_negate (covers : gates.Covers fault) (wellFormed : start.WellFormed)
    {node : Node} {value : Bool} (carries : start.circuit.Carries assignment node value) :
    AssemblyM.Yields (gates.negate node) start fault assignment (!value) := by
  rw [← GateKind.apply_not]
  refine yields_shareOr wellFormed rfl (.cons carries .nil) fun notMissing => ?_
  rw [GateKind.apply_not]
  split
  · rw [← GateKind.apply_nand_twice]
    exact AssemblyM.yields_shareTwice wellFormed rfl carries
  rename_i nandMissing
  split
  · rw [← GateKind.apply_nor_twice]
    exact AssemblyM.yields_shareTwice wellFormed rfl carries
  rename_i norMissing
  refine AssemblyM.ensures_throw (covers.negation.resolve_left ?_)
  rintro (not | nand | nor)
  · exact notMissing not
  · exact nandMissing nand
  · exact norMissing nor

theorem Covers.ensures_negateAll (covers : gates.Covers fault) (wellFormed : start.WellFormed)
    (carry : List.Forall₂ (start.circuit.Carries assignment) operands values) :
    AssemblyM.Ensures (gates.negateAll operands) start fault fun nodes next =>
      start.Grows next ∧ nodes.length = operands.length ∧
        List.Forall₂ (next.circuit.Carries assignment) nodes (values.map (!·)) := by
  refine (AssemblyM.yields_mapM wellFormed carry fun _ _ _ grown carries =>
    covers.yields_negate grown.wellFormed carries).imp fun nodes next ⟨grown, carryAll⟩ => ?_
  exact ⟨grown, by rw [carryAll.length_eq, List.length_map, carry.length_eq], carryAll⟩

/-- The negation of a gate of some kind. -/
theorem Covers.yields_negated (covers : gates.Covers fault) {action : AssemblyM Node}
    {value : Bool} (yields : AssemblyM.Yields action start fault assignment value) :
    AssemblyM.Yields (do gates.negate (← action)) start fault assignment (!value) :=
  yields.bind fun _ _ grown carries => covers.yields_negate grown.wellFormed carries

/-- A gate of some kind over the negations of nodes. -/
theorem Covers.yields_share_negateAll (covers : gates.Covers fault)
    (wellFormed : start.WellFormed) (accepts : kind.accepts operands.length = true)
    (carry : List.Forall₂ (start.circuit.Carries assignment) operands values) :
    AssemblyM.Yields (do AssemblyM.share kind (← gates.negateAll operands)) start fault assignment
      (kind.apply (values.map (!·))) :=
  (covers.ensures_negateAll wellFormed carry).bind fun _ _ ⟨grown, length_eq, carryAll⟩ =>
    (AssemblyM.yields_share grown.wellFormed (length_eq ▸ accepts) carryAll).after grown

theorem Covers.yields_makeNot (covers : gates.Covers fault) (wellFormed : start.WellFormed)
    (accepts : GateKind.not.accepts operands.length = true)
    (carry : List.Forall₂ (start.circuit.Carries assignment) operands values) :
    AssemblyM.Yields (gates.makeNot operands) start fault assignment
      (GateKind.not.apply values) := by
  obtain ⟨node, rfl⟩ := List.length_eq_one_iff.mp (beq_iff_eq.mp accepts)
  obtain _ | ⟨carries, _ | _⟩ := carry
  rw [GateKind.apply_not]
  exact covers.yields_negate wellFormed carries

theorem Covers.yields_makeAnd (covers : gates.Covers fault) (wellFormed : start.WellFormed)
    (accepts : GateKind.and.accepts operands.length = true)
    (carry : List.Forall₂ (start.circuit.Carries assignment) operands values) :
    AssemblyM.Yields (gates.makeAnd operands) start fault assignment
      (GateKind.and.apply values) := by
  have ofNegated : GateKind.and.apply values = !GateKind.or.apply (values.map (!·)) := by
    rw [GateKind.apply_or_map_not, (GateKind.apply_negated values).1, Bool.not_not]
  refine yields_shareOr wellFormed accepts carry fun andMissing => ?_
  split
  · rw [← Bool.not_not (GateKind.and.apply values), ← (GateKind.apply_negated values).1]
    exact covers.yields_negated (AssemblyM.yields_share wellFormed accepts carry)
  rename_i nandMissing
  split
  · rw [ofNegated, ← (GateKind.apply_negated _).2.1]
    exact covers.yields_share_negateAll wellFormed accepts carry
  rename_i norMissing
  split
  · rw [ofNegated, ← bind_assoc]
    exact covers.yields_negated (covers.yields_share_negateAll wellFormed accepts carry)
  rename_i orMissing
  refine AssemblyM.ensures_throw (covers.conjunction.resolve_left ?_)
  rintro (and | nand | nor | or)
  · exact andMissing and
  · exact nandMissing nand
  · exact norMissing nor
  · exact orMissing or

theorem Covers.yields_makeOr (covers : gates.Covers fault) (wellFormed : start.WellFormed)
    (accepts : GateKind.or.accepts operands.length = true)
    (carry : List.Forall₂ (start.circuit.Carries assignment) operands values) :
    AssemblyM.Yields (gates.makeOr operands) start fault assignment
      (GateKind.or.apply values) := by
  have ofNegated : GateKind.or.apply values = !GateKind.and.apply (values.map (!·)) := by
    rw [GateKind.apply_and_map_not, (GateKind.apply_negated values).2.1, Bool.not_not]
  refine yields_shareOr wellFormed accepts carry fun orMissing => ?_
  split
  · rw [ofNegated, ← (GateKind.apply_negated _).1]
    exact covers.yields_share_negateAll wellFormed accepts carry
  rename_i nandMissing
  split
  · rw [← Bool.not_not (GateKind.or.apply values), ← (GateKind.apply_negated values).2.1]
    exact covers.yields_negated (AssemblyM.yields_share wellFormed accepts carry)
  rename_i norMissing
  split
  · rw [ofNegated, ← bind_assoc]
    exact covers.yields_negated (covers.yields_share_negateAll wellFormed accepts carry)
  rename_i andMissing
  refine AssemblyM.ensures_throw (covers.disjunction.resolve_left ?_)
  rintro (or | nand | nor | and)
  · exact orMissing or
  · exact nandMissing nand
  · exact norMissing nor
  · exact andMissing and

theorem Covers.yields_makeXorPair (covers : gates.Covers fault) (wellFormed : start.WellFormed)
    {left right : Node} {leftValue rightValue : Bool}
    (leftCarries : start.circuit.Carries assignment left leftValue)
    (rightCarries : start.circuit.Carries assignment right rightValue) :
    AssemblyM.Yields (gates.makeXorPair left right) start fault assignment
      (leftValue != rightValue) := by
  have value_eq : (leftValue != rightValue) =
      GateKind.or.apply [GateKind.and.apply [leftValue, !rightValue],
        GateKind.and.apply [!leftValue, rightValue]] := by
    cases leftValue <;> cases rightValue <;> rfl
  rw [value_eq]
  refine (covers.yields_negate wellFormed leftCarries).bind fun notLeft s₁ grown₁ carries₁ => ?_
  refine (covers.yields_negate grown₁.wellFormed (grown₁.extension.carries rightCarries)).bind
    fun notRight s₂ grown₂ carries₂ => ?_
  have leftAgain := grown₂.extension.carries (grown₁.extension.carries leftCarries)
  refine (covers.yields_makeAnd grown₂.wellFormed rfl
    (.cons leftAgain (.cons carries₂ .nil))).bind fun leftOnly s₃ grown₃ carries₃ => ?_
  have rightAgain := grown₃.extension.carries
    (grown₂.extension.carries (grown₁.extension.carries rightCarries))
  have notLeftAgain := grown₃.extension.carries (grown₂.extension.carries carries₁)
  refine (covers.yields_makeAnd grown₃.wellFormed rfl
    (.cons notLeftAgain (.cons rightAgain .nil))).bind fun rightOnly s₄ grown₄ carries₄ => ?_
  exact covers.yields_makeOr grown₄.wellFormed rfl
    (.cons (grown₄.extension.carries carries₃) (.cons carries₄ .nil))

theorem Covers.yields_foldlM_makeXorPair (covers : gates.Covers fault)
    (wellFormed : start.WellFormed) {first : Node} {value : Bool}
    (carries : start.circuit.Carries assignment first value)
    (carry : List.Forall₂ (start.circuit.Carries assignment) operands values) :
    AssemblyM.Yields (operands.foldlM gates.makeXorPair first) start fault assignment
      (values.foldl (· != ·) value) := by
  induction operands generalizing start first value values with
  | nil =>
      cases carry
      exact AssemblyM.yields_pure wellFormed carries
  | cons second rest ih =>
      obtain _ | ⟨secondCarries, restCarry⟩ := carry
      rw [List.foldlM_cons, List.foldl_cons]
      exact (covers.yields_makeXorPair wellFormed carries secondCarries).bind
        fun _ _ grown pairCarries =>
          ih grown.wellFormed pairCarries (grown.extension.carriesAll restCarry)

theorem Covers.yields_makeXor (covers : gates.Covers fault) (wellFormed : start.WellFormed)
    (accepts : GateKind.xor.accepts operands.length = true)
    (carry : List.Forall₂ (start.circuit.Carries assignment) operands values) :
    AssemblyM.Yields (gates.makeXor operands) start fault assignment
      (GateKind.xor.apply values) := by
  refine yields_shareOr wellFormed accepts carry fun _ => ?_
  split
  · rw [← Bool.not_not (GateKind.xor.apply values), ← (GateKind.apply_negated values).2.2]
    exact covers.yields_negated (AssemblyM.yields_share wellFormed accepts carry)
  · obtain _ | ⟨carries, carry⟩ := carry
    · cases accepts
    · rw [GateKind.apply_xor_eq_foldl]
      exact covers.yields_foldlM_makeXorPair wellFormed carries carry

/-- The replacement of a gate by gates of a set computes its function. -/
theorem Covers.yields_replace (covers : gates.Covers fault) (wellFormed : start.WellFormed)
    (accepts : kind.accepts operands.length = true)
    (carry : List.Forall₂ (start.circuit.Carries assignment) operands values) :
    AssemblyM.Yields (gates.replace kind operands) start fault assignment (kind.apply values) := by
  have negated := GateKind.apply_negated values
  cases kind with
  | not => exact covers.yields_makeNot wellFormed accepts carry
  | and => exact covers.yields_makeAnd wellFormed accepts carry
  | or => exact covers.yields_makeOr wellFormed accepts carry
  | xor => exact covers.yields_makeXor wellFormed accepts carry
  | nand =>
      refine yields_shareOr wellFormed accepts carry fun _ => ?_
      rw [negated.1]
      exact covers.yields_negated (covers.yields_makeAnd wellFormed accepts carry)
  | nor =>
      refine yields_shareOr wellFormed accepts carry fun _ => ?_
      rw [negated.2.1]
      exact covers.yields_negated (covers.yields_makeOr wellFormed accepts carry)
  | xnor =>
      refine yields_shareOr wellFormed accepts carry fun _ => ?_
      rw [negated.2.2]
      exact covers.yields_negated (covers.yields_makeXor wellFormed accepts carry)
  | buf => exact AssemblyM.yields_share wellFormed accepts carry
  | vcc => exact AssemblyM.yields_share wellFormed accepts carry
  | gnd => exact AssemblyM.yields_share wellFormed accepts carry

/-- Mapping onto a gate set is sound. -/
theorem Covers.sound (covers : gates.Covers fault) {circuit : Circuit} {relevant : Node → Prop}
    (closed : circuit.OperandClosed relevant) : gates.rule.Sound circuit relevant fault where
  operands found relevantGate := closed _ _ found relevantGate
  bypass _ _ passes := nomatch passes
  replace _ _ wellFormed accepts carry := covers.yields_replace wellFormed accepts carry

end GateSet

end

/-! ## Double negations -/

theorem commonNode?_eq_some {nodes : List Node} {node : Node}
    (common : commonNode? nodes = some node) :
    ∃ count, nodes = List.replicate (count + 1) node := by
  cases nodes with
  | nil => cases common
  | cons first rest =>
      simp only [commonNode?, Option.ite_none_right_eq_some, List.all_eq_true,
        decide_eq_true_eq, Option.some.injEq] at common
      obtain ⟨same, rfl⟩ := common
      exact ⟨rest.length, List.eq_replicate_iff.mpr ⟨by simp, by simpa using same⟩⟩

theorem mem_of_commonNode? {nodes : List Node} {node : Node}
    (common : commonNode? nodes = some node) : node ∈ nodes := by
  obtain ⟨count, rfl⟩ := commonNode?_eq_some common
  exact List.mem_replicate.mpr ⟨Nat.succ_ne_zero _, rfl⟩

namespace Circuit

variable {circuit : Circuit}

/-- A negating gate over one node has the opposite value of the node. -/
theorem hasValue_of_commonNode? {id : GateId} {gate : Gate} {node : Node}
    {assignment : Assignment} {value : Bool} (found : circuit.gate? id = some gate)
    (negates : gate.kind.negates = true) (common : commonNode? gate.operands = some node)
    (hasValue : circuit.HasValue assignment (.gate id) value) :
    circuit.HasValue assignment node (!value) := by
  obtain ⟨other, values, foundOther, operands, rfl⟩ := hasValue_gate_iff.mp hasValue
  obtain rfl : gate = other := Option.some.inj (found.symm.trans foundOther)
  obtain ⟨count, operands_eq⟩ := commonNode?_eq_some common
  have each : ∀ inner ∈ values, circuit.HasValue assignment node inner := by
    intro inner mem
    obtain ⟨position, bound, rfl⟩ := List.getElem_of_mem mem
    have here := operands.get (operands.length_eq ▸ bound) bound
    simpa [operands_eq] using here
  have length_eq : values.length = count + 1 := by
    rw [← operands.length_eq, operands_eq, List.length_replicate]
  obtain ⟨inner, rest, rfl⟩ : ∃ inner rest, values = inner :: rest :=
    List.exists_cons_of_length_eq_add_one length_eq
  have innerValue := each inner List.mem_cons_self
  have values_eq : inner :: rest = List.replicate (rest.length + 1) inner :=
    List.eq_replicate_iff.mpr ⟨rfl, fun other mem => (each other mem).unique innerValue⟩
  rw [values_eq, GateKind.apply_replicate negates, Bool.not_not]
  exact innerValue

/-- A double negation consists of two negating gates over one node each. -/
theorem exists_negations {gate : Gate} {standIn : Node}
    (passes : circuit.doublyNegated? gate = some standIn) :
    ∃ node inner, commonNode? gate.operands = some node ∧ circuit.driver? node = some inner ∧
      commonNode? inner.operands = some standIn ∧ gate.kind.negates = true ∧
      inner.kind.negates = true := by
  unfold doublyNegated? at passes
  split at passes
  · rename_i kind_eq
    simp only [Option.bind_eq_bind, Option.bind_eq_some_iff,
      Option.ite_none_right_eq_some] at passes
    obtain ⟨node, common, inner, driver, innerKind, innerCommon⟩ := passes
    exact ⟨node, inner, common, driver, innerCommon, kind_eq ▸ rfl, innerKind ▸ rfl⟩
  all_goals
    rename_i kind_eq
    simp only [Option.bind_eq_bind, Option.bind_eq_some_iff,
      Option.ite_none_right_eq_some, reduceCtorEq] at passes
  all_goals
    obtain ⟨node, common, inner, driver, ⟨innerKind, -, -⟩, innerCommon⟩ := passes
    exact ⟨node, inner, common, driver, innerCommon, kind_eq ▸ rfl,
      (innerKind.trans kind_eq) ▸ rfl⟩

/-- The node that a double negation comes down to comes before the gate and
has its value. -/
theorem doublyNegated?_eq_some {id : GateId} {gate : Gate}
    {standIn : Node} (found : circuit.gate? id = some gate)
    (passes : circuit.doublyNegated? gate = some standIn) :
    ∃ innerId inner, Node.gate innerId ∈ gate.operands ∧ circuit.gate? innerId = some inner ∧
      standIn ∈ inner.operands ∧
      ∀ (assignment : Assignment) (value : Bool), circuit.HasValue assignment (.gate id) value →
        circuit.HasValue assignment standIn value := by
  obtain ⟨node, inner, common, driver, innerCommon, negates, innerNegates⟩ :=
    exists_negations passes
  cases node with
  | input name => cases driver
  | gate innerId =>
      refine ⟨innerId, inner, mem_of_commonNode? common, driver,
        mem_of_commonNode? innerCommon, ?_⟩
      intro assignment value hasValue
      have negated := hasValue_of_commonNode? found negates common hasValue
      rw [← Bool.not_not value]
      exact hasValue_of_commonNode? driver innerNegates innerCommon negated

/-- Passing over double negations is sound. -/
theorem sound_doubleNegationRule (wellFormed : circuit.WellFormed) {relevant : Node → Prop}
    {fault : SynthesisError → Prop} (closed : circuit.OperandClosed relevant) :
    doubleNegationRule.Sound circuit relevant fault where
  operands found relevantGate := closed _ _ found relevantGate
  bypass found relevantGate passes := by
    obtain ⟨innerId, inner, innerMem, innerFound, standInMem, sameValue⟩ :=
      doublyNegated?_eq_some found passes
    have innerBefore := wellFormed.nodeBefore_of_gate? found innerMem
    have standInBefore := wellFormed.nodeBefore_of_gate? innerFound standInMem
    exact ⟨closed _ _ innerFound (closed _ _ found relevantGate _ innerMem) _ standInMem,
      standInBefore.mono (Nat.le_of_lt innerBefore.1), sameValue⟩
  replace _ _ wellFormed accepts carry := AssemblyM.yields_share wellFormed accepts carry

/-- Passing over double negations succeeds and keeps the values of the
outputs. -/
theorem exists_collapseNegations (wellFormed : circuit.WellFormed) :
    ∃ result, circuit.collapseNegations = .ok result ∧ result.Refines circuit :=
  (sound_doubleNegationRule wellFormed circuit.operandClosed_true).exists_substitute wellFormed

end Circuit

end Switching
