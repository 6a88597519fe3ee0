import Switching.Circuit.Cone
import Switching.Proofs.Circuit.Invariants
import Switching.Proofs.Circuit.Passes

/-!
# Results of passes hold no gate in vain

An action gathers some nodes if they end up in the cone of its result together with
every gate that the action makes.  Actions that gather can be put one after the
other: what the first one makes has to be gathered by the second one.  All
replacements of gates gather their operands, whichever decomposition they choose
and whichever gates are there already.  So every gate that a pass makes lies in the
cone of an output, and since gates are shared none of them is made twice.
-/

namespace Switching

/-! ## Cones -/

namespace Circuit

variable {circuit larger : Circuit} {first second third : Node}

theorem InCone.trans (outer : circuit.InCone first second) (inner : circuit.InCone second third) :
    circuit.InCone first third := by
  induction inner with
  | self => exact outer
  | operand _ found mem ih => exact ih.operand found mem

/-- Cones stay as the circuit grows. -/
theorem Extends.inCone (extension : larger.Extends circuit)
    (inside : circuit.InCone first second) : larger.InCone first second := by
  induction inside with
  | self => exact .self
  | operand _ found mem ih => exact ih.operand (extension.gate? found) mem

/-- No two gates are of one kind over the same operands. -/
def GatesDistinct (circuit : Circuit) : Prop :=
  (circuit.gates.toList.map fun gate => (gate.kind, gate.operands)).Nodup

end Circuit

/-! ## Gathered nodes -/

namespace Assembly

/-- `start.Gathered operands roots next` says that `next` comes from `start` by
adding gates, none of them twice, and that the cones of the roots hold all of the
new gates and the operands. -/
structure Gathered (start : Assembly) (operands roots : List Node) (next : Assembly) : Prop where
  grown : start.Grows next
  distinct : start.circuit.GatesDistinct → next.circuit.GatesDistinct
  gates : ∀ gate ∈ next.circuit.gates, gate ∈ start.circuit.gates ∨
    ∃ root ∈ roots, next.circuit.InCone root (.gate gate.id)
  operands : ∀ operand ∈ operands, ∃ root ∈ roots, next.circuit.InCone root operand

variable {start middle next : Assembly} {operands others roots later : List Node}

theorem Gathered.refl (wellFormed : start.WellFormed) (held : operands ⊆ roots) :
    start.Gathered operands roots start where
  grown := .refl wellFormed
  distinct distinct := distinct
  gates _ mem := .inl mem
  operands operand mem := ⟨operand, held mem, .self⟩

/-- What is gathered first and then gathered together with other nodes. -/
theorem Gathered.trans (first : start.Gathered operands roots middle)
    (second : middle.Gathered (roots ++ others) later next) :
    start.Gathered (operands ++ others) later next := by
  have passed_on : ∀ root ∈ roots, ∀ node, middle.circuit.InCone root node →
      ∃ last ∈ later, next.circuit.InCone last node := by
    intro root rootMem node inside
    rcases second.operands root (List.mem_append_left others rootMem) with ⟨last, lastMem, above⟩
    exact ⟨last, lastMem, above.trans (second.grown.extension.inCone inside)⟩
  constructor
  · exact first.grown.trans second.grown
  · exact fun distinct => second.distinct (first.distinct distinct)
  · intro gate mem
    rcases second.gates gate mem with earlier | new
    · rcases first.gates gate earlier with present | ⟨root, rootMem, inside⟩
      · exact .inl present
      · exact .inr (passed_on root rootMem _ inside)
    · exact .inr new
  · intro operand mem
    rcases List.mem_append.mp mem with own | other
    · rcases first.operands operand own with ⟨root, rootMem, inside⟩
      exact passed_on root rootMem operand inside
    · exact second.operands operand (List.mem_append_right roots other)

end Assembly

namespace AssemblyM

variable {α β σ : Type} {roots : α → List Node} {later : β → List Node}
  {operands others : List Node}

/-- Wherever the action succeeds, the nodes in its result gather the operands. -/
def Gathers (roots : α → List Node) (action : AssemblyM α) (operands : List Node) : Prop :=
  ∀ start : Assembly, start.WellFormed → Ensures action start (fun _ => True)
    fun result next => start.Gathered operands (roots result) next

/-- Wherever the action succeeds, the node that it makes gathers the operands. -/
abbrev NodeGathers (action : AssemblyM Node) (operands : List Node) : Prop :=
  Gathers (fun node => [node]) action operands

theorem gathers_pure {result : α} (held : operands ⊆ roots result) :
    Gathers roots (pure result) operands :=
  fun _ wellFormed => ensures_pure (.refl wellFormed held)

theorem gathers_throw (error : SynthesisError) :
    Gathers roots (throw error : AssemblyM α) operands :=
  fun _ _ => ensures_throw trivial

theorem Gathers.mono {action : AssemblyM α} (gathers : Gathers roots action operands)
    (fewer : others ⊆ operands) : Gathers roots action others :=
  fun start wellFormed => (gathers start wellFormed).imp fun _ _ made =>
    ⟨made.grown, made.distinct, made.gates, fun operand mem => made.operands operand (fewer mem)⟩

/-- The second action gathers what the first one makes and other nodes besides. -/
theorem Gathers.bind {action : AssemblyM α} {continuation : α → AssemblyM β}
    (first : Gathers roots action operands) (others : List Node)
    (rest : ∀ result, Gathers later (continuation result) (roots result ++ others)) :
    Gathers later (action >>= continuation) (operands ++ others) := by
  intro start wellFormed
  apply (first start wellFormed).bind
  intro result middle made
  exact (rest result middle made.grown.wellFormed).imp fun _ _ => made.trans

/-- The second action gathers what the first one makes. -/
theorem Gathers.andThen {action : AssemblyM α} {continuation : α → AssemblyM β}
    (first : Gathers roots action operands)
    (rest : ∀ result, Gathers later (continuation result) (roots result)) :
    Gathers later (action >>= continuation) operands := by
  have both := first.bind [] fun result => (List.append_nil (roots result)).symm ▸ rest result
  rwa [List.append_nil] at both

theorem gathers_mapM {action : Node → AssemblyM Node}
    (each : ∀ node, NodeGathers (action node) [node]) (nodes : List Node) :
    Gathers id (nodes.mapM action) nodes := by
  induction nodes with
  | nil => exact gathers_pure (List.nil_subset _)
  | cons node rest ih =>
      rw [List.mapM_cons]
      apply (each node).bind rest
      intro first
      apply (ih.bind [first] fun results => gathers_pure _).mono
      · simp
      · simp

theorem gathers_foldlM {action : Node → Node → AssemblyM Node}
    (each : ∀ left right, NodeGathers (action left right) [left, right]) (nodes : List Node)
    (first : Node) : NodeGathers (nodes.foldlM action first) (first :: nodes) := by
  induction nodes generalizing first with
  | nil => exact gathers_pure (List.Subset.refl _)
  | cons node rest ih =>
      rw [List.foldlM_cons]
      exact (each first node).bind rest ih

/-! ## Gates -/

variable {kind : GateKind}

theorem gathered_withGate {start : Assembly} (wellFormed : start.WellFormed)
    (accepts : kind.accepts operands.length = true)
    (contained : ∀ node ∈ operands, start.circuit.contains node = true)
    (absent : ∀ gate ∈ start.circuit.gates, ¬ (gate.kind = kind ∧ gate.operands = operands)) :
    start.Gathered operands [.gate (start.nextId kind)] (start.withGate kind operands) where
  grown := Assembly.grows_withGate wellFormed accepts contained
  distinct distinct := by
    change ((start.circuit.gates.push _).toList.map _).Nodup
    rw [Array.toList_push, List.map_append]
    apply List.nodup_append.mpr
    constructor
    · exact distinct
    constructor
    · exact List.pairwise_singleton _ _
    · rintro _ mem _ last rfl
      rcases List.mem_map.mp mem with ⟨gate, gateMem, same⟩
      rcases Prod.mk.inj (same.trans (List.mem_singleton.mp last)) with ⟨kind_eq, operands_eq⟩
      exact absent gate (Array.mem_toList_iff.mp gateMem) ⟨kind_eq, operands_eq⟩
  gates gate mem := by
    rcases Array.mem_push.mp mem with earlier | rfl
    · exact .inl earlier
    · exact .inr ⟨_, List.mem_singleton_self _, .self⟩
  operands operand mem :=
    ⟨_, List.mem_singleton_self _,
      Circuit.InCone.self.operand (Assembly.gate?_withGate wellFormed) mem⟩

/-- A shared gate gathers its operands, whether or not it has been there. -/
theorem gathers_share (kind : GateKind) (operands : List Node) :
    NodeGathers (share kind operands) operands := by
  intro start wellFormed
  apply ensures_get
  dsimp only
  split
  · rename_i gate present
    have same : gate.kind = kind ∧ gate.operands = operands := by
      simpa using Array.find?_some present
    rcases same with ⟨-, rfl⟩
    rcases Array.mem_iff_getElem?.mp (Array.mem_of_find?_eq_some present) with
      ⟨position, at_position⟩
    have found := wellFormed.circuit.gate?_id at_position
    apply ensures_pure
    constructor
    · exact .refl wellFormed
    · exact id
    · exact fun _ mem => .inl mem
    · exact fun operand mem =>
        ⟨_, List.mem_singleton_self _, Circuit.InCone.self.operand found mem⟩
  · rename_i absent
    rw [Ensures, addGate]
    cases added : start.addGate kind operands with
    | error error => trivial
    | ok made =>
        rcases Assembly.addGate_eq_ok_iff.mp added with ⟨accepts, contained, rfl⟩
        apply gathered_withGate wellFormed accepts contained
        simpa using absent

theorem gathers_shareTwice (kind : GateKind) (node : Node) :
    NodeGathers (shareTwice kind node) [node] :=
  (gathers_share kind [node, node]).mono (by simp)

end AssemblyM

/-! ## Replacements -/

section Replacements

open AssemblyM

/-- The replacement of a gate by a universal gate gathers the operands. -/
theorem UniversalGate.gathers_replace (gate : UniversalGate) (kind : GateKind)
    (operands : List Node) : NodeGathers (gate.replace kind operands) operands := by
  unfold UniversalGate.replace
  split
  · exact gathers_share kind operands
  split
  · split
    · exact gathers_shareTwice gate.base _
    · exact gathers_throw _
  split
  · exact (gathers_share gate.base operands).andThen (gathers_shareTwice gate.base)
  split
  · exact (gathers_mapM (gathers_shareTwice gate.base) operands).andThen
      (gathers_share gate.base)
  · exact gathers_throw _

namespace GateSet

variable (gates : GateSet)

theorem gathers_shareOr (kind : GateKind) {operands : List Node} {decompose : AssemblyM Node}
    (otherwise : NodeGathers decompose operands) :
    NodeGathers (gates.shareOr kind operands decompose) operands := by
  unfold shareOr
  split
  · exact gathers_share kind operands
  · exact otherwise

theorem gathers_makeNot (operands : List Node) : NodeGathers (gates.makeNot operands) operands := by
  apply gathers_shareOr
  split
  · split
    · exact gathers_shareTwice .nand _
    split
    · exact gathers_shareTwice .nor _
    · exact gathers_throw _
  · exact gathers_throw _

theorem gathers_negate (node : Node) : NodeGathers (gates.negate node) [node] :=
  gates.gathers_makeNot [node]

/-- The negation of what an action makes. -/
theorem gathers_negated {action : AssemblyM Node} {operands : List Node}
    (gathers : NodeGathers action operands) :
    NodeGathers (do gates.negate (← action)) operands :=
  gathers.andThen gates.gathers_negate

/-- A gate over negations. -/
theorem gathers_share_negateAll (kind : GateKind) (operands : List Node) :
    NodeGathers (do share kind (← gates.negateAll operands)) operands :=
  (gathers_mapM gates.gathers_negate operands).andThen (gathers_share kind)

theorem gathers_makeAnd (operands : List Node) : NodeGathers (gates.makeAnd operands) operands := by
  apply gathers_shareOr
  split
  · exact gates.gathers_negated (gathers_share .nand operands)
  split
  · exact gates.gathers_share_negateAll .nor operands
  split
  · rw [← bind_assoc]
    exact gates.gathers_negated (gates.gathers_share_negateAll .or operands)
  · exact gathers_throw _

theorem gathers_makeOr (operands : List Node) : NodeGathers (gates.makeOr operands) operands := by
  apply gathers_shareOr
  split
  · exact gates.gathers_share_negateAll .nand operands
  split
  · exact gates.gathers_negated (gathers_share .nor operands)
  split
  · rw [← bind_assoc]
    exact gates.gathers_negated (gates.gathers_share_negateAll .and operands)
  · exact gathers_throw _

/-- Each of the four gates below the last one is an operand of a later one. -/
theorem gathers_makeXorPair (left right : Node) :
    NodeGathers (gates.makeXorPair left right) [left, right] := by
  apply (gates.gathers_negate left).bind [right]
  intro notLeft
  apply Gathers.mono ((gates.gathers_negate right).bind [notLeft] _)
  · simp
  intro notRight
  apply Gathers.mono ((gates.gathers_makeAnd [left, notRight]).bind [notLeft] _)
  · simp
  intro leftOnly
  apply Gathers.mono ((gates.gathers_makeAnd [notLeft, right]).bind [leftOnly] _)
  · simp
  intro rightOnly
  exact (gates.gathers_makeOr [leftOnly, rightOnly]).mono (by simp)

theorem gathers_makeXor (operands : List Node) : NodeGathers (gates.makeXor operands) operands := by
  apply gathers_shareOr
  split
  · exact gates.gathers_negated (gathers_share .xnor operands)
  split
  · exact gathers_throw _
  · exact gathers_foldlM gates.gathers_makeXorPair _ _

/-- The replacement of a gate by gates of a set gathers the operands. -/
theorem gathers_replace (kind : GateKind) (operands : List Node) :
    NodeGathers (gates.replace kind operands) operands := by
  cases kind with
  | not => exact gates.gathers_makeNot operands
  | and => exact gates.gathers_makeAnd operands
  | or => exact gates.gathers_makeOr operands
  | xor => exact gates.gathers_makeXor operands
  | nand =>
      exact gates.gathers_shareOr .nand (gates.gathers_negated (gates.gathers_makeAnd operands))
  | nor => exact gates.gathers_shareOr .nor (gates.gathers_negated (gates.gathers_makeOr operands))
  | xnor =>
      exact gates.gathers_shareOr .xnor (gates.gathers_negated (gates.gathers_makeXor operands))
  | buf | vcc | gnd => exact gathers_share _ operands

end GateSet

end Replacements

/-! ## Substitutions -/

namespace AssemblyM

variable {α β σ : Type} {state : σ} {operands : List Node}

/-- The rule for two actions with a state, one after the other. -/
theorem gathers_stateBind {action : StateT σ AssemblyM α}
    {continuation : α → StateT σ AssemblyM β} {roots : α × σ → List Node}
    {later : β × σ → List Node} (first : Gathers roots (action state) operands)
    (others : List Node)
    (rest : ∀ result, Gathers later (continuation result.1 result.2) (roots result ++ others)) :
    Gathers later ((action >>= continuation) state) (operands ++ others) :=
  first.bind others rest

theorem gathers_stateAndThen {action : StateT σ AssemblyM α}
    {continuation : α → StateT σ AssemblyM β} {roots : α × σ → List Node}
    {later : β × σ → List Node} (first : Gathers roots (action state) operands)
    (rest : ∀ result, Gathers later (continuation result.1 result.2) (roots result)) :
    Gathers later ((action >>= continuation) state) operands :=
  first.andThen rest

theorem gathers_stateLift {action : AssemblyM Node} (gathers : NodeGathers action operands)
    (state : σ) :
    Gathers (fun result => [result.1]) ((monadLift action : StateT σ AssemblyM Node) state)
      operands := by
  change Gathers _ (action >>= fun node => pure (node, state)) operands
  exact gathers.andThen fun node => gathers_pure (List.Subset.refl _)

theorem gathers_stateMapM {action : Node → StateT σ AssemblyM Node}
    (each : ∀ node state, Gathers (fun result => [result.1]) (action node state) [])
    (nodes : List Node) (state : σ) :
    Gathers (fun results => results.1) (nodes.mapM action state) [] := by
  induction nodes generalizing state with
  | nil => exact gathers_pure (List.nil_subset _)
  | cons node rest ih =>
      rw [List.mapM_cons]
      apply gathers_stateAndThen (each node state)
      intro first
      apply gathers_stateBind (ih first.2) [first.1]
      intro results
      exact gathers_pure (by simp)

/-- Binding an output, where it succeeds, binds it to an existing node. -/
theorem ensures_boundOutput (name : String) (node : Node) (start : Assembly) :
    Ensures (setOutput name node) start (fun _ => True) fun _ next =>
      start.circuit.contains node = true ∧ next = start.withOutput name node := by
  rw [Ensures, setOutput]
  cases bound : start.setOutput name node with
  | error error => trivial
  | ok next => exact Assembly.setOutput_eq_ok_iff.mp bound

end AssemblyM

/-- A well-formed assembly in which no gate is repeated and every gate lies in the
cone of an output. -/
structure Assembly.Tidy (assembly : Assembly) : Prop where
  wellFormed : assembly.WellFormed
  distinct : assembly.circuit.GatesDistinct
  live : ∀ gate ∈ assembly.circuit.gates, assembly.circuit.Reachable (.gate gate.id)

theorem Assembly.tidy_ofInputs {names : List String} (nodup : names.Nodup) :
    (Assembly.ofInputs names).Tidy where
  wellFormed := wellFormed_ofInputs nodup
  distinct := .nil
  live := by simp [ofInputs]

/-- Once an output is bound to the node that gathers the new gates, no gate is out
of reach. -/
theorem Assembly.Tidy.withOutput {start next : Assembly} (tidy : start.Tidy) {name : String}
    {node : Node} (gathered : start.Gathered [] [node] next)
    (contained : next.circuit.contains node = true)
    (fresh : name ∉ start.circuit.outputs.map Prod.fst) :
    (next.withOutput name node).Tidy where
  wellFormed := wellFormed_withOutput gathered.grown.wellFormed contained
  distinct := gathered.distinct tidy.distinct
  live := by
    have extension := next.extends_withOutput name node
    have outputs_eq : (next.withOutput name node).circuit.outputs =
        start.circuit.outputs ++ [(name, node)] := by
      change bindOutput name node next.circuit.outputs = _
      rw [gathered.grown.outputs_eq, bindOutput_of_notMem fresh]
    intro gate mem
    unfold Circuit.Reachable
    rw [outputs_eq]
    rcases gathered.gates gate mem with earlier | ⟨root, rootMem, inside⟩
    · rcases tidy.live gate earlier with ⟨output, outputMem, inside⟩
      exact ⟨output, List.mem_append_left _ outputMem,
        extension.inCone (gathered.grown.extension.inCone inside)⟩
    · rcases List.mem_singleton.mp rootMem with rfl
      exact ⟨(name, root), List.mem_append_right _ (List.mem_singleton_self _),
        extension.inCone inside⟩

namespace SubstitutionRule

open AssemblyM

variable {rule : SubstitutionRule} {circuit : Circuit}

/-- The replacements of a rule gather the operands. -/
def Gathers (rule : SubstitutionRule) : Prop :=
  ∀ kind operands, NodeGathers (rule.replace kind operands) operands

/-- The replacement of a node gathers all gates that were made for it.  A gate that
has been replaced before needs no new ones. -/
theorem Gathers.substituteNode (gathers : rule.Gathers) (depth : Nat) (node : Node)
    (replaced : Replaced) :
    AssemblyM.Gathers (fun result => [result.1]) (rule.substituteNode circuit depth node replaced)
      [] := by
  induction depth generalizing node replaced with
  | zero =>
      cases node with
      | input name => exact gathers_pure (List.nil_subset _)
      | gate id => exact gathers_throw _
  | succ depth ih =>
      cases node with
      | input name => exact gathers_pure (List.nil_subset _)
      | gate id =>
          have remembers : ∀ result : Node × Replaced, AssemblyM.Gathers
              (fun last => [last.1])
              ((do modify ((id, result.1) :: ·); return result.1 : SubstitutionM Node) result.2)
              [result.1] := fun _ => gathers_pure (List.Subset.refl _)
          intro start wellFormed
          unfold SubstitutionRule.substituteNode
          apply ensures_stateGet
          cases known : replaced.lookup id with
          | some result =>
              have remembered : AssemblyM.Gathers (fun last : Node × Replaced => [last.1])
                  (pure (result, replaced)) [] := gathers_pure (List.nil_subset _)
              exact remembered start wellFormed
          | none =>
              cases found : circuit.gate? id with
              | none => exact ensures_throw trivial
              | some gate =>
                  cases passes : rule.bypass? circuit gate with
                  | some standIn =>
                      simp only [passes]
                      exact gathers_stateAndThen (ih standIn replaced) remembers start wellFormed
                  | none =>
                      simp only [passes]
                      have visited := gathers_stateMapM ih gate.operands replaced
                      exact gathers_stateAndThen visited (fun operands =>
                        gathers_stateAndThen
                          (gathers_stateLift (gathers gate.kind operands.1) operands.2)
                          remembers) start wellFormed

/-- Binding the outputs one after the other leaves no gate out of reach. -/
theorem Gathers.substituteOutputs (gathers : rule.Gathers) (later : List (String × Node))
    {replaced : Replaced} {start : Assembly} (tidy : start.Tidy)
    (nodup : (start.circuit.outputs.map Prod.fst ++ later.map Prod.fst).Nodup) :
    Ensures (rule.substituteOutputs circuit later replaced) start (fun _ => True)
      fun _ next => next.Tidy := by
  induction later generalizing replaced start with
  | nil => exact ensures_pure tidy
  | cons output later ih =>
      rcases output with ⟨name, node⟩
      unfold SubstitutionRule.substituteOutputs
      apply ensures_stateBind
        (gathers.substituteNode circuit.gateCount node replaced start tidy.wellFormed)
      intro result next gathered
      apply ensures_stateBind (ensures_stateLift (ensures_boundOutput name result.1 next))
      rintro unit bound ⟨⟨contained, rfl⟩, -⟩
      rw [List.map_cons] at nodup
      have fresh : name ∉ start.circuit.outputs.map Prod.fst := fun mem =>
        (List.nodup_append.mp nodup).2.2 name mem name List.mem_cons_self rfl
      have outputs_eq : (next.withOutput name result.1).circuit.outputs.map Prod.fst =
          start.circuit.outputs.map Prod.fst ++ [name] := by
        change (Assembly.bindOutput name result.1 next.circuit.outputs).map Prod.fst = _
        rw [gathered.grown.outputs_eq, Assembly.bindOutput_of_notMem fresh, List.map_append]
        rfl
      apply ih (tidy.withOutput gathered contained fresh)
      rw [outputs_eq, List.append_assoc]
      exact nodup

/-- A substitution that succeeds ends with an assembly of its result. -/
theorem exists_finished {result : Circuit} (ran : rule.substitute circuit = .ok result) :
    ∃ last finished, rule.substituteOutputs circuit circuit.outputs []
      (Assembly.addInputs ∅ circuit.inputs) = .ok (last, finished) ∧
        finished.circuit = result := by
  change (rule.substituteOutputs circuit circuit.outputs []
    (Assembly.addInputs ∅ circuit.inputs)).map (·.2.circuit) = .ok result at ran
  cases made : rule.substituteOutputs circuit circuit.outputs []
      (Assembly.addInputs ∅ circuit.inputs) with
  | error error =>
      rw [made] at ran
      cases ran
  | ok finished =>
      rw [made] at ran
      exact ⟨finished.1, finished.2, rfl, Except.ok.inj ran⟩

/-- A rule whose replacements gather their operands gives a circuit without
repeated and without unused gates. -/
theorem Gathers.substitute (gathers : rule.Gathers) (wellFormed : circuit.WellFormed)
    {result : Circuit} (ran : rule.substitute circuit = .ok result) :
    result.GatesDistinct ∧ ∀ gate ∈ result.gates, result.ReachableGate gate := by
  rcases exists_finished ran with ⟨last, finished, made, rfl⟩
  rw [Assembly.addInputs_empty wellFormed.inputs_nodup] at made
  have tidy : finished.Tidy :=
    (gathers.substituteOutputs circuit.outputs (Assembly.tidy_ofInputs wellFormed.inputs_nodup)
      wellFormed.outputs_nodup).of_eq_ok made
  exact ⟨tidy.distinct, fun gate mem => ⟨mem, tidy.live gate mem⟩⟩

end SubstitutionRule

/-! ## Passes -/

namespace Pass

variable {circuit result : Circuit}

theorem gathers_rule (pass : Pass) : pass.rule.Gathers := by
  cases pass with
  | nand => exact UniversalGate.nand.gathers_replace
  | nor => exact UniversalGate.nor.gathers_replace
  | gateSet gates => exact gates.gathers_replace
  | negations => exact AssemblyM.gathers_share

/-- Whatever a circuit was constructed from, the result of a pass over it has no two
gates of one kind over the same operands, and no gate on which no output depends. -/
theorem live_of_run_eq_ok (assembled : circuit.Assembled) (pass : Pass)
    (ran : pass.run circuit = .ok result) :
    (result.gates.toList.map fun gate => (gate.kind, gate.operands)).Nodup ∧
      ∀ gate ∈ result.gates, result.ReachableGate gate := by
  rw [run_eq_substitute] at ran
  exact pass.gathers_rule.substitute assembled.wellFormed ran

/-- The repeated negation and the unused gate of the parity circuit are gone. -/
theorem parity_live : ∃ result,
    (gateSet .nandOnly).run (Assembly.steps ∅ paritySteps).circuit = .ok result ∧
      (result.gates.toList.map fun gate => (gate.kind, gate.operands)).Nodup ∧
      ∀ gate ∈ result.gates, result.ReachableGate gate := by
  have succeeds :
      ((gateSet .nandOnly).run (Assembly.steps ∅ paritySteps).circuit).isOk = true := by
    decide +kernel
  cases ran : (gateSet .nandOnly).run (Assembly.steps ∅ paritySteps).circuit with
  | error error =>
      rw [ran] at succeeds
      cases succeeds
  | ok result => exact ⟨result, rfl, live_of_run_eq_ok ⟨paritySteps, rfl⟩ _ ran⟩

end Pass

end Switching
