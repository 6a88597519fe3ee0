import Switching.Circuit.Assembly
import Switching.Proofs.Circuit.Values

/-!
# Construction steps

A step on a well-formed assembly whose nodes exist succeeds, and the assembly
after it is well formed again.  Steps that make gates only extend the circuit,
so all nodes keep their values.  What an action in `AssemblyM` does is stated by
`Ensures`, with one rule for each way of composing actions.
-/

namespace Switching

namespace Assembly

/-- An assembly whose circuit is well formed and whose next gate gets the next
free position. -/
structure WellFormed (assembly : Assembly) : Prop where
  circuit : assembly.circuit.WellFormed
  nextSerial_eq : assembly.nextSerial = assembly.circuit.gates.size

/-- `start.Grows next` says that `next` is well formed and comes from `start`
by adding gates. -/
structure Grows (start next : Assembly) : Prop where
  wellFormed : next.WellFormed
  extension : next.circuit.Extends start.circuit
  outputs_eq : next.circuit.outputs = start.circuit.outputs

theorem Grows.refl {assembly : Assembly} (wellFormed : assembly.WellFormed) :
    assembly.Grows assembly :=
  ⟨wellFormed, .refl _, rfl⟩

theorem Grows.trans {start middle next : Assembly} (first : start.Grows middle)
    (second : middle.Grows next) : start.Grows next :=
  ⟨second.wellFormed, second.extension.trans first.extension,
    second.outputs_eq.trans first.outputs_eq⟩

variable {assembly : Assembly} {kind : GateKind} {operands : List Node}

/-! ## Inputs -/

/-- The assembly with some inputs and nothing else. -/
def ofInputs (names : List String) : Assembly :=
  ⟨⟨names, #[], []⟩, 0⟩

/-- Declaring different names one after the other declares all of them. -/
theorem addInputs_empty {names : List String} (nodup : names.Nodup) :
    addInputs ∅ names = ofInputs names := by
  have declare : ∀ (later earlier : List String), (earlier ++ later).Nodup →
      addInputs (ofInputs earlier) later = ofInputs (earlier ++ later) := by
    intro later
    induction later with
    | nil => intro earlier _; rw [List.append_nil]; rfl
    | cons name later ih =>
        intro earlier nodup
        have fresh : name ∉ earlier := fun mem =>
          (List.nodup_append.mp nodup).2.2 name mem name List.mem_cons_self rfl
        have step : (ofInputs earlier).addInput name = ofInputs (earlier ++ [name]) := by
          simp [addInput, ofInputs, fresh]
        rw [List.append_cons] at nodup ⊢
        rw [← ih (earlier ++ [name]) nodup, ← step]
        rfl
  exact declare names [] nodup

theorem wellFormed_ofInputs {names : List String} (nodup : names.Nodup) :
    (ofInputs names).WellFormed where
  circuit :=
    { inputs_nodup := nodup
      serial_eq := by simp [ofInputs]
      arity_accepted := by simp [ofInputs]
      operands_before := by simp [ofInputs]
      outputs_nodup := by simp [ofInputs]
      outputs_bound := by simp [ofInputs] }
  nextSerial_eq := rfl

/-! ## Gates -/

/-- The identity that the next gate gets. -/
def nextId (assembly : Assembly) (kind : GateKind) : GateId :=
  ⟨kind, assembly.nextSerial⟩

/-- The assembly with one gate more. -/
def withGate (assembly : Assembly) (kind : GateKind) (operands : List Node) : Assembly :=
  ⟨{ assembly.circuit with
      gates := assembly.circuit.gates.push ⟨assembly.nextId kind, operands⟩ },
    assembly.nextSerial + 1⟩

/-- A gate over existing nodes can be added if its kind accepts their
number. -/
theorem addGate_eq_ok (accepts : kind.accepts operands.length = true)
    (contained : ∀ node ∈ operands, assembly.circuit.contains node = true) :
    assembly.addGate kind operands =
      .ok (.gate (assembly.nextId kind), assembly.withGate kind operands) := by
  have checked : operands.forM assembly.checkNode = .ok () := by
    clear accepts
    induction operands with
    | nil => rfl
    | cons node rest ih =>
        rw [List.forall_mem_cons] at contained
        change (do assembly.checkNode node; rest.forM assembly.checkNode) = .ok ()
        rw [checkNode, if_pos contained.1]
        exact ih contained.2
  rw [addGate, if_pos accepts, checked]
  rfl

theorem extends_withGate (assembly : Assembly) (kind : GateKind) (operands : List Node) :
    (assembly.withGate kind operands).circuit.Extends assembly.circuit where
  inputs_eq := rfl
  gates position gate at_position := by
    have bound := (Array.getElem?_eq_some_iff.mp at_position).1
    change (assembly.circuit.gates.push _)[position]? = some gate
    rw [Array.getElem?_push, if_neg (Nat.ne_of_lt bound), at_position]

/-- The new gate is found by its identity. -/
theorem gate?_withGate (wellFormed : assembly.WellFormed) :
    (assembly.withGate kind operands).circuit.gate? (assembly.nextId kind) =
      some ⟨assembly.nextId kind, operands⟩ := by
  rw [Circuit.gate?_eq_some_iff]
  refine ⟨?_, rfl⟩
  change (assembly.circuit.gates.push _)[assembly.nextSerial]? = _
  rw [wellFormed.nextSerial_eq, Array.getElem?_push_size]

theorem grows_withGate (wellFormed : assembly.WellFormed)
    (accepts : kind.accepts operands.length = true)
    (contained : ∀ node ∈ operands, assembly.circuit.contains node = true) :
    assembly.Grows (assembly.withGate kind operands) := by
  have extension := assembly.extends_withGate kind operands
  have gates_cases : ∀ (position : Nat) (gate : Gate),
      (assembly.withGate kind operands).circuit.gates[position]? = some gate →
        assembly.circuit.gates[position]? = some gate ∨
          position = assembly.circuit.gates.size ∧ gate = ⟨assembly.nextId kind, operands⟩ := by
    intro position gate at_position
    change (assembly.circuit.gates.push _)[position]? = _ at at_position
    rw [Array.getElem?_push] at at_position
    split at at_position
    · rename_i last
      exact .inr ⟨last, (Option.some.inj at_position).symm⟩
    · exact .inl at_position
  refine ⟨⟨⟨wellFormed.circuit.inputs_nodup, ?_, ?_, ?_, wellFormed.circuit.outputs_nodup, ?_⟩,
    ?_⟩, extension, rfl⟩
  · intro position gate at_position
    rcases gates_cases position gate at_position with earlier | ⟨rfl, rfl⟩
    · exact wellFormed.circuit.serial_eq position gate earlier
    · exact wellFormed.nextSerial_eq
  · intro gate mem
    obtain ⟨position, at_position⟩ := Array.mem_iff_getElem?.mp mem
    rcases gates_cases position gate at_position with earlier | ⟨rfl, rfl⟩
    · exact wellFormed.circuit.arity_accepted gate (Array.mem_of_getElem? earlier)
    · exact accepts
  · intro position gate at_position node mem
    rcases gates_cases position gate at_position with earlier | ⟨rfl, rfl⟩
    · exact extension.nodeBefore
        (wellFormed.circuit.operands_before position gate earlier node mem)
    · exact extension.nodeBefore (Circuit.contains_iff_nodeBefore.mp (contained node mem))
  · intro output mem
    have bound := wellFormed.circuit.outputs_bound output mem
    refine (extension.nodeBefore bound).mono ?_
    simp [withGate]
  · simp [withGate, wellFormed.nextSerial_eq]

/-! ## Outputs -/

@[simp]
theorem lookup_bindOutput (name other : String) (node : Node) (outputs : List (String × Node)) :
    (bindOutput name node outputs).lookup other =
      if other = name then some node else outputs.lookup other := by
  induction outputs with
  | nil => grind [bindOutput]
  | cons first rest ih => grind [bindOutput]

theorem mem_bindOutput {name : String} {node : Node} {outputs : List (String × Node)}
    {output : String × Node} (mem : output ∈ bindOutput name node outputs) :
    output = (name, node) ∨ output ∈ outputs := by
  induction outputs with
  | nil => exact .inl (List.mem_singleton.mp mem)
  | cons first rest ih => grind [bindOutput]

/-- Binding a new name puts it behind the others. -/
theorem bindOutput_of_notMem {name : String} {node : Node} {outputs : List (String × Node)}
    (fresh : name ∉ outputs.map Prod.fst) :
    bindOutput name node outputs = outputs ++ [(name, node)] := by
  induction outputs with
  | nil => rfl
  | cons first rest ih => grind [bindOutput]

theorem nodup_bindOutput {name : String} {node : Node} {outputs : List (String × Node)}
    (nodup : (outputs.map Prod.fst).Nodup) :
    ((bindOutput name node outputs).map Prod.fst).Nodup := by
  induction outputs with
  | nil => simp [bindOutput]
  | cons first rest ih =>
      rw [List.map_cons, List.nodup_cons] at nodup
      unfold bindOutput
      split
      · simpa using nodup
      · rename_i differ
        rw [List.map_cons, List.nodup_cons]
        refine ⟨fun mem => ?_, ih nodup.2⟩
        obtain ⟨output, outputMem, same⟩ := List.mem_map.mp mem
        rcases mem_bindOutput outputMem with rfl | earlier
        · exact differ same.symm
        · exact nodup.1 (same ▸ List.mem_map_of_mem earlier)

/-- The assembly with an output bound to a node. -/
def withOutput (assembly : Assembly) (name : String) (node : Node) : Assembly :=
  { assembly with circuit :=
      { assembly.circuit with outputs := bindOutput name node assembly.circuit.outputs } }

theorem setOutput_eq_ok {name : String} {node : Node}
    (contained : assembly.circuit.contains node = true) :
    assembly.setOutput name node = .ok (assembly.withOutput name node) := by
  rw [setOutput, checkNode, if_pos contained]
  rfl

theorem extends_withOutput (assembly : Assembly) (name : String) (node : Node) :
    (assembly.withOutput name node).circuit.Extends assembly.circuit :=
  ⟨rfl, fun _ _ at_position => at_position⟩

theorem wellFormed_withOutput (wellFormed : assembly.WellFormed) {name : String} {node : Node}
    (contained : assembly.circuit.contains node = true) :
    (assembly.withOutput name node).WellFormed where
  circuit :=
    have extension := assembly.extends_withOutput name node
    { inputs_nodup := wellFormed.circuit.inputs_nodup
      serial_eq := wellFormed.circuit.serial_eq
      arity_accepted := wellFormed.circuit.arity_accepted
      operands_before := fun position gate at_position other mem => extension.nodeBefore
        (wellFormed.circuit.operands_before position gate at_position other mem)
      outputs_nodup := nodup_bindOutput wellFormed.circuit.outputs_nodup
      outputs_bound := by
        intro output mem
        rcases mem_bindOutput mem with rfl | earlier
        · exact extension.nodeBefore (Circuit.contains_iff_nodeBefore.mp contained)
        · exact extension.nodeBefore (wellFormed.circuit.outputs_bound output earlier) }
  nextSerial_eq := wellFormed.nextSerial_eq

end Assembly

/-! ## Actions -/

namespace AssemblyM

variable {α β : Type} {start : Assembly} {fault : SynthesisError → Prop}

/-- An action that starts at the given assembly either ends with a result and
an assembly for which `post` holds, or fails with an error that `fault`
allows. -/
def Ensures (action : AssemblyM α) (start : Assembly) (fault : SynthesisError → Prop)
    (post : α → Assembly → Prop) : Prop :=
  match action start with
  | .ok (result, next) => post result next
  | .error error => fault error

theorem ensures_pure {result : α} {post : α → Assembly → Prop} (holds : post result start) :
    Ensures (pure result) start fault post :=
  holds

theorem ensures_throw {error : SynthesisError} {post : α → Assembly → Prop}
    (allowed : fault error) : Ensures (throw error) start fault post :=
  allowed

theorem ensures_get {continuation : Assembly → AssemblyM β} {post : β → Assembly → Prop}
    (rest : Ensures (continuation start) start fault post) :
    Ensures (get >>= continuation) start fault post :=
  rest

theorem Ensures.imp {action : AssemblyM α} {first second : α → Assembly → Prop}
    (ensures : Ensures action start fault first)
    (weaker : ∀ result next, first result next → second result next) :
    Ensures action start fault second := by
  unfold Ensures at ensures ⊢
  split at ensures
  · exact weaker _ _ ensures
  · exact ensures

theorem Ensures.bind {action : AssemblyM α} {continuation : α → AssemblyM β}
    {middle : α → Assembly → Prop} {post : β → Assembly → Prop}
    (first : Ensures action start fault middle)
    (rest : ∀ result next, middle result next →
      Ensures (continuation result) next fault post) :
    Ensures (action >>= continuation) start fault post := by
  unfold Ensures at first
  change match (action start >>= fun result => continuation result.1 result.2) with
    | .ok (result, next) => post result next
    | .error error => fault error
  split at first
  · rename_i result next ran
    rw [ran]
    exact rest result next first
  · rename_i error failed
    rw [failed]
    exact first

/-- What an action ensures holds of its result where it succeeds. -/
theorem Ensures.of_eq_ok {action : AssemblyM α} {post : α → Assembly → Prop} {result : α}
    {next : Assembly} (ensures : Ensures action start fault post)
    (ran : action start = .ok (result, next)) : post result next := by
  rw [Ensures, ran] at ensures
  exact ensures

/-- An action that allows no error succeeds. -/
theorem Ensures.exists_eq_ok {action : AssemblyM α} {post : α → Assembly → Prop}
    (ensures : Ensures action start (fun _ => False) post) :
    ∃ result next, action start = .ok (result, next) ∧ post result next := by
  unfold Ensures at ensures
  split at ensures
  · exact ⟨_, _, ‹_›, ensures⟩
  · exact ensures.elim

/-! ## Actions with a state of their own -/

section

variable {σ : Type} {state : σ}

/-- The rule for two actions with a state, one after the other. -/
theorem ensures_stateBind {action : StateT σ AssemblyM α}
    {continuation : α → StateT σ AssemblyM β} {middle : α × σ → Assembly → Prop}
    {post : β × σ → Assembly → Prop} (first : Ensures (action state) start fault middle)
    (rest : ∀ result next, middle result next →
      Ensures (continuation result.1 result.2) next fault post) :
    Ensures ((action >>= continuation) state) start fault post :=
  first.bind rest

/-- An action without a state leaves the state as it is. -/
theorem ensures_stateLift {action : AssemblyM α} {post : α → Assembly → Prop}
    (ensures : Ensures action start fault post) :
    Ensures ((monadLift action : StateT σ AssemblyM α) state) start fault
      fun result next => post result.1 next ∧ result.2 = state := by
  change Ensures (action >>= fun result => pure (result, state)) start fault _
  exact ensures.bind fun _ _ holds => ensures_pure ⟨holds, rfl⟩

/-- Reading the state leaves it as it is. -/
theorem ensures_stateGet {continuation : σ → StateT σ AssemblyM β}
    {post : β × σ → Assembly → Prop}
    (rest : Ensures (continuation state state) start fault post) :
    Ensures ((get >>= continuation) state) start fault post :=
  rest

end

/-! ## Actions that make nodes -/

/-- An action ends with a node of the given value in a circuit that has grown,
or fails with an error that `fault` allows. -/
def Yields (action : AssemblyM Node) (start : Assembly) (fault : SynthesisError → Prop)
    (assignment : Assignment) (value : Bool) : Prop :=
  Ensures action start fault fun node next =>
    start.Grows next ∧ next.circuit.Carries assignment node value

variable {kind : GateKind} {operands : List Node} {assignment : Assignment} {values : List Bool}

theorem yields_pure (wellFormed : start.WellFormed) {node : Node} {value : Bool}
    (carries : start.circuit.Carries assignment node value) :
    Yields (pure node) start fault assignment value :=
  ensures_pure ⟨.refl wellFormed, carries⟩

theorem Yields.bind {action : AssemblyM Node} {continuation : Node → AssemblyM Node}
    {middle value : Bool} (first : Yields action start fault assignment middle)
    (rest : ∀ node next, start.Grows next → next.circuit.Carries assignment node middle →
      Yields (continuation node) next fault assignment value) :
    Yields (action >>= continuation) start fault assignment value :=
  Ensures.bind first fun node next grown =>
    (rest node next grown.1 grown.2).imp fun _ _ later => ⟨grown.1.trans later.1, later.2⟩

theorem Yields.after {action : AssemblyM Node} {middle : Assembly} {value : Bool}
    (yields : Yields action middle fault assignment value) (grown : start.Grows middle) :
    Ensures action middle fault fun node next =>
      start.Grows next ∧ next.circuit.Carries assignment node value :=
  yields.imp fun _ _ made => ⟨grown.trans made.1, made.2⟩

/-- Actions that yield nodes one after the other yield all of them. -/
theorem yields_mapM {action : Node → AssemblyM Node} {function : Bool → Bool}
    (wellFormed : start.WellFormed)
    (carry : List.Forall₂ (start.circuit.Carries assignment) operands values)
    (each : ∀ node value next, start.Grows next → next.circuit.Carries assignment node value →
      Yields (action node) next fault assignment (function value)) :
    Ensures (operands.mapM action) start fault fun nodes next =>
      start.Grows next ∧
        List.Forall₂ (next.circuit.Carries assignment) nodes (values.map function) := by
  induction operands generalizing start values with
  | nil =>
      cases carry
      exact ensures_pure ⟨.refl wellFormed, .nil⟩
  | cons node operands ih =>
      obtain _ | ⟨carries, carry⟩ := carry
      rename_i value values
      rw [List.mapM_cons]
      refine Ensures.bind (each node value start (.refl wellFormed) carries)
        fun first next grown => ?_
      have later := ih grown.1.wellFormed (grown.1.extension.carriesAll carry)
        fun node value last afterwards => each node value last (grown.1.trans afterwards)
      refine later.bind fun nodes last rest => ensures_pure ⟨grown.1.trans rest.1, ?_⟩
      exact .cons (rest.1.extension.carries grown.2) rest.2

theorem contains_of_carries {circuit : Circuit}
    (carry : List.Forall₂ (circuit.Carries assignment) operands values) :
    ∀ node ∈ operands, circuit.contains node = true := by
  induction carry with
  | nil => simp
  | cons carries _ ih => exact List.forall_mem_cons.mpr ⟨carries.1, ih⟩

/-- A gate over nodes with values has the value that its function gives. -/
theorem carries_gate {circuit : Circuit} {id : GateId} {gate : Gate}
    (found : circuit.gate? id = some gate)
    (carry : List.Forall₂ (circuit.Carries assignment) gate.operands values) :
    circuit.Carries assignment (.gate id) (gate.kind.apply values) :=
  ⟨Circuit.contains_of_gate? found, Circuit.hasValue_gate_iff.mpr
    ⟨gate, values, found, carry.imp fun _ _ carries => carries.2, rfl⟩⟩

/-- Adding a gate over existing nodes gives the new gate. -/
theorem ensures_addGate (accepts : kind.accepts operands.length = true)
    (contained : ∀ node ∈ operands, start.circuit.contains node = true) :
    Ensures (addGate kind operands) start fault fun node next =>
      node = .gate (start.nextId kind) ∧ next = start.withGate kind operands := by
  rw [Ensures, addGate, Assembly.addGate_eq_ok accepts contained]
  exact ⟨rfl, rfl⟩

theorem carries_nextId (wellFormed : start.WellFormed)
    (accepts : kind.accepts operands.length = true)
    (carry : List.Forall₂ (start.circuit.Carries assignment) operands values) :
    start.Grows (start.withGate kind operands) ∧
      (start.withGate kind operands).circuit.Carries assignment (.gate (start.nextId kind))
        (kind.apply values) := by
  have grows := Assembly.grows_withGate wellFormed accepts (contains_of_carries carry)
  exact ⟨grows, carries_gate (Assembly.gate?_withGate wellFormed)
    (grows.extension.carriesAll carry)⟩

/-- Sharing gives a gate of the given kind over the given operands. -/
theorem yields_share (wellFormed : start.WellFormed)
    (accepts : kind.accepts operands.length = true)
    (carry : List.Forall₂ (start.circuit.Carries assignment) operands values) :
    Yields (share kind operands) start fault assignment (kind.apply values) := by
  refine ensures_get ?_
  dsimp only
  split
  · rename_i gate present
    obtain ⟨kind_eq, operands_eq⟩ : gate.kind = kind ∧ gate.operands = operands := by
      simpa using Array.find?_some present
    subst kind_eq operands_eq
    obtain ⟨position, at_position⟩ := Array.mem_iff_getElem?.mp (Array.mem_of_find?_eq_some present)
    have found := wellFormed.circuit.gate?_id at_position
    exact yields_pure wellFormed (carries_gate found carry)
  · refine (ensures_addGate accepts (contains_of_carries carry)).imp fun _ _ made => ?_
    obtain ⟨rfl, rfl⟩ := made
    exact carries_nextId wellFormed accepts carry

theorem ensures_setOutput {name : String} {node : Node}
    (contained : start.circuit.contains node = true) :
    Ensures (setOutput name node) start fault fun _ next => next = start.withOutput name node := by
  have runs : setOutput name node start = .ok ((), start.withOutput name node) := by
    rw [setOutput, Assembly.setOutput_eq_ok contained]
    rfl
  rw [Ensures, runs]

end AssemblyM

end Switching
